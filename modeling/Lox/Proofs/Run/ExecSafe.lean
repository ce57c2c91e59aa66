import Lox.Proofs.Run.EvalSafe

/-! Statements are safe to run in a frame that hosts them, if calls are safe. A statement ends with a break only inside
a loop, and with a return only inside a function. -/
namespace Lox

open Lox.Parser (Context)
open Run

variable {strict : Prop} {h : Heap} {i : FrameId} {c : Context} {Γ : List Text}

/-- A statement may end in this way: the names `xs` that it declares are bound if the next statement runs, it leaves
a loop only in a loop, and returns only in a function. -/
def Flow.Expected (strict : Prop) (c : Context) (xs : List Text) (i : FrameId) (h : Heap) : Flow → Prop
  | .next => strict → ∀ x ∈ xs, h.Resolves i x
  | .broke => c.inLoop = true
  | .returned v => c.inFunction = true ∧ v.WellMade strict h

/-- A statement around another one ends as that one does, if it declares nothing itself. -/
theorem expected_nil {flow : Flow} {xs : List Text} {j : FrameId} (hf : flow.Expected strict c xs i h) :
    flow.Expected strict c [] j h := by
  cases flow with
  | next => exact fun _ x hx => nomatch hx
  | broke => exact hf
  | returned v => exact hf

/-- How a loop ends: what leaves the loop does not leave the statement that it is. -/
theorem iterate_safe {test : Run Value} {body : Run Flow} {xs : List Text} (fuel : Nat)
    (htest : ∀ h', h.Extends h' → Safe strict test h' fun _ _ => True)
    (hbody : ∀ h', h.Extends h' → Safe strict body h' fun flow h'' => flow.Expected strict c.enterLoop xs i h'') :
    Safe strict (iterate test body fuel) h fun flow h' => flow.Expected strict c [] i h' := by
  induction fuel generalizing h with
  | zero => exact safe_exhausted
  | succ fuel ih =>
    have hdone (h' : Heap) : Safe strict (pure Flow.next) h' fun flow h'' => flow.Expected strict c [] i h'' :=
      safe_pure fun _ x hx => nomatch hx
    refine safe_bind (htest h (Heap.extends_refl h)) fun v h' he _ _ => ?_
    by_cases hv : v.truthy = true
    · rw [if_pos hv]
      refine safe_bind (hbody h' he) fun flow h'' he' _ hf => ?_
      have hee := Heap.extends_trans he he'
      cases flow with
      | next =>
        -- the next turn starts from a later heap, where the test and the body are safe too
        refine ih (fun h₃ e => htest h₃ (Heap.extends_trans hee e)) fun h₃ e => ?_
        exact hbody h₃ (Heap.extends_trans hee e)
      | broke => exact hdone h''
      | returned w => exact safe_pure hf
    · rw [if_neg hv]
      exact hdone h'

/-- A function or a class is bound to its name; what it is made of may use the name. -/
theorem declare_safe {x : Text} {v : Nat → Value} (hh : h.Hosts strict i c Γ)
    (hv : ∀ n h', h'.Hosts strict i c (x :: Γ) → (v n).WellMade strict h') :
    Safe strict (do
      let n ← alloc Heap.nextSerial
      modifyHeap (·.define i x (v n))
      return Flow.next) h fun flow h' => flow.Expected strict c [x] i h' := by
  refine safe_alloc_bind (Heap.extends_of_frames_eq rfl) wellMade_nextSerial ?_
  have hh' : h.nextSerial.2.Hosts strict i c Γ := hosts_extends hh (Heap.extends_of_frames_eq rfl)
  have hx : (h.nextSerial.2.define i x (v h.nextSerial.1)).Resolves i x := Heap.resolves_define hh'.lt
  have hxs (y : Text) (hy : y ∈ [x]) : (h.nextSerial.2.define i x (v h.nextSerial.1)).Resolves i y := by
    rw [List.mem_singleton.mp hy]
    exact hx
  -- the value is bound in the frame that it closes over, so its bodies find its own name
  have hname := hosts_append (hosts_extends hh' Heap.extends_define) fun _ => hxs
  refine safe_modifyHeap_bind Heap.extends_define (fun hm => wellMade_define hm (hv _ _ hname)) ?_
  exact safe_pure fun _ => hxs

theorem logBlock_safe {policy : Policy} {Q : Unit → Heap → Prop} (hq : Q () h) :
    Safe strict (logBlock policy i) h Q :=
  safe_log hq

mutual

/-- Running a statement is safe in every frame that hosts it, and it ends as its place allows, by induction on the
statement. -/
theorem exec_safe {call : Caller} (hcall : call.Safe strict) (policy : Policy) (fuel : Nat) :
    (s : Stmt) → ∀ {c : Context}, s.Placed c → ∀ {Γ : List Text}, (strict → s.Scoped Γ) → ∀ {h : Heap} {i : FrameId},
    h.Hosts strict i c Γ →
    Safe strict (s.exec policy call fuel i) h fun flow h' => flow.Expected strict c s.declared i h'
  | .expr e, c, hp, Γ, hn, h, i, hh => by
    refine safe_bind (eval_safe hcall e hp hn hh) fun _ h' _ _ _ => ?_
    exact safe_pure fun _ x hx => nomatch hx
  | .print e, c, hp, Γ, hn, h, i, hh => by
    refine safe_bind (eval_safe hcall e hp hn hh) fun v h' _ _ _ => ?_
    refine safe_bind (safe_print (Q := fun _ _ => True) trivial) fun _ h'' _ _ _ => ?_
    exact safe_pure fun _ x hx => nomatch hx
  | .var x e, c, hp, Γ, hn, h, i, hh => by
    refine safe_bind (evalOption_safe hcall hp hn hh) fun v h' he _ hv => ?_
    have hlt := (hosts_extends hh he).lt
    refine safe_modifyHeap_bind Heap.extends_define (fun hm => ?_) (safe_pure fun _ y hy => ?_)
    · exact wellMade_define hm (value_extends hv Heap.extends_define)
    · rw [List.mem_singleton.mp hy]
      exact Heap.resolves_define hlt
  | .block ss, c, hp, Γ, hn, h, i, hh => by
    -- what a block declares is bound in a frame of its own, and not known behind it
    have hinner : (h.pushFrame i []).2.Hosts strict h.frames.size c ([] ++ Γ) :=
      hosts_pushFrame hh .inl fun x hx => nomatch hx
    refine safe_alloc_bind Heap.extends_pushFrame (fun hm => wellMade_pushFrame hm fun x v hv => nomatch hv) ?_
    refine safe_bind (logBlock_safe (Q := fun _ _ => True) trivial) fun _ h' he _ _ => ?_
    exact safe_mono (execAll_safe hcall policy fuel ss hp hn (hosts_extends hinner he)) fun _ _ _ => expected_nil
  | .ifThen test yes no, c, ⟨hpt, hpy, hpn⟩, Γ, hn, h, i, hh => by
    refine safe_bind (eval_safe hcall test hpt (fun s => (hn s).1) hh) fun v h' he _ _ => ?_
    have hh' := hosts_extends hh he
    by_cases hv : v.truthy = true
    · rw [if_pos hv]
      have hyes := exec_safe hcall policy fuel yes hpy (fun s => (hn s).2.1) hh'
      exact safe_mono hyes fun _ _ _ => expected_nil
    · rw [if_neg hv]
      exact execOption_safe hcall policy fuel no hpn (fun s => (hn s).2.2) hh'
  | .whileLoop test body, c, ⟨hpt, hpb⟩, Γ, hn, h, i, hh => by
    have htest (h' : Heap) (he : h.Extends h') : Safe strict (test.eval call i) h' fun _ _ => True :=
      safe_mono (eval_safe hcall test hpt (fun s => (hn s).1) (hosts_extends hh he)) fun _ _ _ _ => trivial
    have hloop (h' : Heap) (he : h.Extends h') : h'.Hosts strict i c.enterLoop Γ :=
      hosts_of_inClass (hosts_extends hh he) rfl
    exact iterate_safe fuel htest fun h' he =>
      exec_safe hcall policy fuel body hpb (fun s => (hn s).2) (hloop h' he)
  | .function d, c, hp, Γ, hn, h, i, hh => by
    refine declare_safe (v := fun n => .function ⟨n, d, i, false⟩) hh fun n h' hh' => ?_
    exact ⟨c, d.name.text :: Γ, hh', hp, hn, nofun⟩
  | .returnValue pos e, c, ⟨hf, hp⟩, Γ, hn, h, i, hh => by
    refine safe_bind (evalOption_safe hcall hp hn hh) fun v h' _ _ hv => ?_
    exact safe_pure ⟨hf, hv⟩
  | .breakLoop pos, c, hp, Γ, hn, h, i, hh => safe_pure hp
  | .classDecl x ds, c, hp, Γ, hn, h, i, hh => by
    refine declare_safe (v := fun n => .classValue ⟨n, x.text, i, ds⟩) hh fun n h' hh' => ?_
    exact ⟨c, x.text :: Γ, hh', hp, hn⟩

/-- What a statement declares is there for the statements behind it. -/
theorem execAll_safe {call : Caller} (hcall : call.Safe strict) (policy : Policy) (fuel : Nat) :
    (ss : List Stmt) → ∀ {c : Context}, Stmt.PlacedAll c ss → ∀ {Γ : List Text}, (strict → Stmt.ScopedAll Γ ss) →
    ∀ {h : Heap} {i : FrameId}, h.Hosts strict i c Γ →
    Safe strict (Stmt.execAll policy call fuel i ss) h fun flow h' => flow.Expected strict c [] i h'
  | [], c, _, Γ, _, h, i, _ => safe_pure fun _ x hx => nomatch hx
  | s :: ss, c, hp, Γ, hn, h, i, hh => by
    refine safe_bind (exec_safe hcall policy fuel s hp.1 (fun st => (hn st).1) hh) fun flow h' he _ hf => ?_
    cases flow with
    | next =>
      -- the names that the statement declares are bound now
      have hh' := hosts_append (hosts_extends hh he) hf
      exact execAll_safe hcall policy fuel ss hp.2 (fun st => (hn st).2) hh'
    | broke => exact safe_pure hf
    | returned v => exact safe_pure hf

theorem execOption_safe {call : Caller} (hcall : call.Safe strict) (policy : Policy) (fuel : Nat) :
    (s : Option Stmt) → ∀ {c : Context}, Stmt.PlacedOption c s → ∀ {Γ : List Text}, (strict → Stmt.ScopedOption Γ s) →
    ∀ {h : Heap} {i : FrameId}, h.Hosts strict i c Γ →
    Safe strict (Stmt.execOption policy call fuel i s) h fun flow h' => flow.Expected strict c [] i h'
  | none, _, _, _, _, _, _, _ => safe_pure fun _ _ hx => nomatch hx
  | some s, _, hp, _, hn, _, _, hh =>
    safe_mono (exec_safe hcall policy fuel s hp hn hh) fun _ _ _ => expected_nil

end

end Lox
