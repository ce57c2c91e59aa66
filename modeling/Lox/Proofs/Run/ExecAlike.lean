import Lox.Proofs.Run.EvalAlike
import Lox.Proofs.Static.Plain

/-! Statements and calls do the same in frames that hold the same. In a frame that only the first run has, a statement
has to be one that binds no name there, since the frame has to stay empty. -/
namespace Lox

variable {κ : Correspondence} {i i' : FrameId} {policy policy' : Policy} {fuel : Nat}

namespace Run

/-- Two loops whose tests and bodies do the same. -/
theorem iterate_alike {test test' : Run Value} {body body' : Run Flow} (ht : Alike κ (Value.Alike κ) test test')
    (hb : Alike κ (Flow.Alike κ) body body') (fuel : Nat) :
    Alike κ (Flow.Alike κ) (iterate test body fuel) (iterate test' body' fuel) := by
  induction fuel with
  | zero => exact alike_exhausted
  | succ fuel ih =>
    refine alike_bind ht fun v v' hv => ?_
    rw [truthy_alike hv]
    by_cases htrue : v.truthy = true
    · rw [if_pos htrue, if_pos htrue]
      refine alike_bind hb fun flow flow' hflow => ?_
      cases flow with
      | next =>
        cases hflow
        exact ih
      | broke =>
        cases hflow
        exact alike_pure rfl
      | returned w =>
        obtain ⟨w', rfl, hw⟩ := hflow
        exact alike_pure ⟨w', rfl, hw⟩
    · rw [if_neg htrue, if_neg htrue]
      exact alike_pure rfl

theorem alike_define (hi : κ.own i i') {x x' : Name} (hx : x.Alike κ.place x') {v v' : Value} (hv : v.Alike κ v') :
    Alike κ (fun _ _ => True) (modifyHeap (·.define i x.text v)) (modifyHeap (·.define i' x'.text v')) := by
  rw [hx.1]
  apply alike_modifyHeap
  · intro h h' hh
    exact Heap.define_alike hh hi x.text hv
  · intro h
    exact Heap.define_sameOutside hi

end Run

open Run

section exec

variable {call call' : Caller}

mutual

/-- Running a statement does the same in both heaps. A declaration needs a frame that corresponds to one frame only. -/
theorem exec_alike (hc : call.Alike κ call') : (s : Stmt) → ∀ {s' : Stmt} {i i' : FrameId}, s.Alike κ.place s' →
    κ.frame i i' → (κ.own i i' ∨ s.Plain) →
    Run.Alike κ (Flow.Alike κ) (s.exec policy call fuel i) (s'.exec policy' call' fuel i')
  | .expr e, _, i, i', ⟨_, rfl, he⟩, hi, _ => alike_bind (eval_alike hc hi e he) fun _ _ _ => alike_pure rfl
  | .print e, _, i, i', ⟨_, rfl, he⟩, hi, _ => by
    refine alike_bind (eval_alike hc hi e he) fun v v' hv => ?_
    rw [toText_alike hv]
    exact alike_bind (alike_print v.toText) fun _ _ _ => alike_pure rfl
  -- only a declaration needs the frame to be one of the matched ones: the others never write to it
  | .var x e, _, i, i', ⟨_, _, rfl, hx, he⟩, hi, hown => by
    have hi' : κ.own i i' := hown.resolve_right id
    refine alike_bind (evalOption_alike hc hi he) fun v v' hv => ?_
    exact alike_bind (alike_define hi' hx hv) fun _ _ _ => alike_pure rfl
  | .block ss, _, i, i', ⟨_, rfl, hss⟩, hi, _ => by
    refine alike_bind (alike_pushFrame hi Bindings.nil_alike) fun j j' hj => ?_
    exact alike_bind (alike_log _ _ _ _ _) fun _ _ _ => execAll_alike hc ss hss hj
  | .ifThen e yes no, _, i, i', ⟨_, _, _, rfl, he, hyes, hno⟩, hi, hown => by
    refine alike_bind (eval_alike hc hi e he) fun v v' hv => ?_
    rw [truthy_alike hv]
    by_cases htrue : v.truthy = true
    · rw [if_pos htrue, if_pos htrue]
      exact exec_alike hc yes hyes hi (hown.imp_right And.left)
    · rw [if_neg htrue, if_neg htrue]
      exact execOption_alike hc no hno hi (hown.imp_right And.right)
  | .whileLoop e body, _, i, i', ⟨_, _, rfl, he, hbody⟩, hi, hown =>
    iterate_alike (eval_alike hc hi e he) (exec_alike hc body hbody hi hown) fuel
  | .function d, _, i, i', ⟨d', rfl, hd⟩, _, hown => by
    have hi' : κ.own i i' := hown.resolve_right id
    have hname := (Stmt.alikeDecl_iff.mp hd).1
    refine alike_bind alike_nextSerial fun n n' hn => ?_
    exact alike_bind (alike_define hi' hname ⟨_, rfl, hn, hd, hi', rfl⟩) fun _ _ _ => alike_pure rfl
  | .returnValue p e, _, i, i', ⟨_, _, rfl, _, he⟩, hi, _ =>
    alike_bind (evalOption_alike hc hi he) fun _ v' hv => alike_pure ⟨v', rfl, hv⟩
  | .breakLoop p, _, i, i', ⟨_, rfl, _⟩, _, _ => alike_pure rfl
  | .classDecl x ds, _, i, i', ⟨x', ds', rfl, hx, hds⟩, _, hown => by
    have hi' : κ.own i i' := hown.resolve_right id
    refine alike_bind alike_nextSerial fun n n' hn => ?_
    have hclass : Class.Alike κ ⟨n, x.text, i, ds⟩ ⟨n', x'.text, i', ds'⟩ :=
      ⟨hn, hx.1, hi', Stmt.alikeDecls_iff.mp hds⟩
    exact alike_bind (alike_define hi' hx ⟨_, rfl, hclass⟩) fun _ _ _ => alike_pure rfl

theorem execAll_alike (hc : call.Alike κ call') : (ss : List Stmt) → ∀ {ss' : List Stmt} {i i' : FrameId},
    Stmt.AlikeAll κ.place ss ss' → κ.own i i' →
    Run.Alike κ (Flow.Alike κ) (Stmt.execAll policy call fuel i ss) (Stmt.execAll policy' call' fuel i' ss')
  | [], _, i, i', rfl, _ => alike_pure rfl
  | s :: ss, _, i, i', ⟨_, _, rfl, hs, hss⟩, hi => by
    rw [execAll_cons, execAll_cons]
    exact alike_andThen (exec_alike hc s hs (.inl hi) (.inl hi)) (execAll_alike hc ss hss hi)

theorem execOption_alike (hc : call.Alike κ call') : (s : Option Stmt) → ∀ {s' : Option Stmt} {i i' : FrameId},
    Stmt.AlikeOption κ.place s s' → κ.frame i i' → (κ.own i i' ∨ Stmt.PlainOption s) →
    Run.Alike κ (Flow.Alike κ) (Stmt.execOption policy call fuel i s) (Stmt.execOption policy' call' fuel i' s')
  | none, _, i, i', rfl, _, _ => alike_pure rfl
  | some s, _, i, i', ⟨s', rfl, hs⟩, hi, hown => by
    have hsome : Run.Alike κ (Flow.Alike κ) (s.exec policy call fuel i) (s'.exec policy' call' fuel i') :=
      exec_alike hc s hs hi hown
    exact hsome

end

end exec

namespace Run

theorem bindParams_alike {ps ps' : List Name} (hps : List.Forall₂ (Name.Alike κ.place) ps ps')
    {args args' : List Value} (hargs : List.Forall₂ (Value.Alike κ) args args') {vars vars' : Bindings Value}
    (hvars : vars.Alike κ vars') :
    Option.Rel (Bindings.Alike κ) (bindParams ps args vars) (bindParams ps' args' vars') := by
  induction hps generalizing args args' vars vars' with
  | nil => exact .some hvars
  | @cons p p' ps ps' hp _ ih =>
    cases hargs with
    | nil => exact .none
    | @cons a a' args args' ha hargs =>
      unfold bindParams
      apply ih hargs
      rw [hp.1]
      exact Bindings.insert_alike hvars p.text ha

def BodyAlike (κ : Correspondence) (body body' : FrameId → List Stmt → Run Flow) : Prop :=
  ∀ j j' ss ss', κ.own j j' → Stmt.AlikeAll κ.place ss ss' → Alike κ (Flow.Alike κ) (body j ss) (body' j' ss')

variable {body body' : FrameId → List Stmt → Run Flow} {args args' : List Value}

/-- Functions that are alike do the same with arguments that are alike. -/
theorem enter_alike (hbody : BodyAlike κ body body') {f f' : Closure} (hf : f.Alike κ f')
    (hargs : List.Forall₂ (Value.Alike κ) args args') :
    Alike κ (Value.Alike κ) (enter body policy f args) (enter body' policy' f' args') := by
  obtain ⟨-, hps, hss⟩ := Stmt.alikeDecl_iff.mp hf.decl
  unfold enter
  have hbind := bindParams_alike hps hargs Bindings.nil_alike
  match bindParams f.decl.params args [], bindParams f'.decl.params args' [], hbind with
  | _, _, .none => exact alike_stuck
  | some vars, some vars', .some hvars =>
    refine alike_bind (alike_pushFrame (.inl hf.scope) hvars) fun j j' hj => ?_
    refine alike_bind (alike_log _ _ _ _ _) fun _ _ _ => ?_
    refine alike_bind (hbody j j' _ _ hj hss) fun flow flow' hflow => ?_
    extract_lets finish finish'
    -- an initializer gives its instance back, whatever its body returned
    have hfinish (v v' : Value) (hv : v.Alike κ v') : Alike κ (Value.Alike κ) (finish v) (finish' v') := by
      unfold finish finish'
      rw [hf.isInit]
      by_cases hinit : f.isInit = true
      · rw [if_pos hinit, if_pos hinit]
        refine alike_heap fun h h' hh => ?_
        match (h.vars f.scope).get? thisName, (h'.vars f'.scope).get? thisName,
          (hh.vars _ _ hf.scope).values thisName with
        | _, _, .some hself => exact alike_pure hself
        | _, _, .none => exact alike_stuck
      · rw [if_neg hinit, if_neg hinit]
        exact alike_pure hv
    cases flow with
    | next =>
      cases hflow
      exact hfinish .nil .nil rfl
    | broke =>
      cases hflow
      exact alike_stuck
    | returned v =>
      obtain ⟨v', rfl, hv⟩ := hflow
      exact hfinish v v' hv

theorem construct_alike (hbody : BodyAlike κ body body') {c c' : Class} (hc : c.Alike κ c')
    (hargs : List.Forall₂ (Value.Alike κ) args args') :
    Alike κ (Value.Alike κ) (construct body policy c args) (construct body' policy' c' args') := by
  have hnew : Alike κ (fun id id' => id' = id ∧ κ.object id) (alloc Heap.pushInstance) (alloc Heap.pushInstance) := by
    apply alike_alloc
    intro h h' hh
    exact ⟨⟨hh.instances, hh.newObject _ (Nat.le_refl _)⟩, Heap.pushInstance_alike hh, Heap.pushInstance_sameOutside⟩
  refine alike_bind hnew ?_
  rintro id id' ⟨hid', hid⟩
  subst hid'
  have hself : (Value.object c id').Alike κ (Value.object c' id') := ⟨c', rfl, hid, hc⟩
  dsimp only
  match c.method? initName, c'.method? initName, method?_alike hc initName with
  | _, _, .none => exact alike_pure hself
  | some d, some d', .some hd =>
    refine alike_bind (bind_alike hd hc hself) fun f f' hf => ?_
    exact alike_bind (enter_alike hbody hf hargs) fun _ _ _ => alike_pure hself

theorem checkCall_alike (hp : policy'.callLimit = policy.callLimit) (depth : Nat) {v v' : Value} (hv : v.Alike κ v')
    (hargs : List.Forall₂ (Value.Alike κ) args args') {p p' : Pos} (hpos : κ.place p p') :
    Alike κ (Callable.Alike κ) (checkCall policy depth v args p) (checkCall policy' depth v' args' p') := by
  unfold checkCall
  match v.callable?, v'.callable?, callable?_alike hv with
  | _, _, .none => exact alike_fault rfl hpos
  | some c, some c', .some hc =>
    dsimp only
    rw [callable_arity_alike hc, ← hargs.length_eq, Policy.allowsDepth, Policy.allowsDepth, hp]
    by_cases hl : args.length ≠ c.arity
    · rw [if_pos hl, if_pos hl]
      exact alike_fault rfl hpos
    · rw [if_neg hl, if_neg hl]
      by_cases hd : (!policy.callLimit.all (depth + 1 ≤ ·)) = true
      · rw [if_pos hd, if_pos hd]
        exact alike_fault rfl hpos
      · rw [if_neg hd, if_neg hd]
        exact alike_bind (alike_log _ _ _ _ _) fun _ _ _ => alike_pure hc

/-- Calls do the same under policies with the same limit, by induction on the fuel. -/
theorem call_alike (hp : policy'.callLimit = policy.callLimit) (fuel depth : Nat) :
    Caller.Alike κ (call policy fuel depth) (call policy' fuel depth) := by
  induction fuel generalizing depth with
  | zero =>
    intro v v' vs vs' p p' hv hvs hpos
    rw [call_eq, call_eq]
    exact alike_bind (checkCall_alike hp depth hv hvs hpos) fun _ _ _ => alike_exhausted
  | succ fuel ih =>
    intro v v' vs vs' p p' hv hvs hpos
    rw [call_eq, call_eq]
    refine alike_bind (checkCall_alike hp depth hv hvs hpos) fun c c' hc => ?_
    have hbody : BodyAlike κ (Stmt.execAll policy (call policy fuel (depth + 1)) fuel)
        (Stmt.execAll policy' (call policy' fuel (depth + 1)) fuel) := by
      intro j j' ss ss' hj hss
      exact execAll_alike (ih (depth + 1)) ss hss hj
    cases c with
    | function f =>
      obtain ⟨f', rfl, hf⟩ := hc
      exact enter_alike hbody hf hvs
    | classValue k =>
      obtain ⟨k', rfl, hk⟩ := hc
      exact construct_alike hbody hk hvs

end Run
end Lox
