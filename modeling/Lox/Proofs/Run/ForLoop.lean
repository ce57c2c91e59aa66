import Lox.Proofs.Grammar.Yield
import Lox.Proofs.Heap.Insertion
import Lox.Proofs.Run.CallSafe
import Lox.Proofs.Run.ExecAlike
import Lox.Proofs.Run.Names

/-! What a loop with clauses means. The tree that stands for such a loop puts its body and its step into a block, so
that each turn has a frame more than the loop needs. The frame stays empty, and nobody can tell that it is there. -/
namespace Lox

open Grammar
open Lox.Parser (Context)

namespace Run

/-- Runs `body`, and then `step`, as long as `test` holds. The step is left out when the body leaves the loop. -/
def loop (test : Run Value) (body : Run Flow) (step : Run Value) : (fuel : Nat) → Run Flow
  | 0 => exhausted
  | fuel + 1 => do
    if (← test).truthy then
      match ← body with
      | .next =>
        let _ ← step
        loop test body step fuel
      | .broke => return .next
      | .returned value => return .returned value
    else return .next

end Run

namespace Stmt

/-- What a loop with clauses means: it has a frame of its own if it has a start, a missing test always holds, and the
step is evaluated in the frame of the loop. -/
def runFor (policy : Policy) (call : Caller) (fuel : Nat) (scope : FrameId) (start : Option Stmt)
    (test step : Option Expr) (body : Stmt) : Run Flow :=
  match start with
  | none => turns scope
  | some s => do
    let own ← Run.alloc (·.pushFrame scope [])
    Run.andThen (s.exec policy call fuel own) (turns own)
where
  turns (scope : FrameId) : Run Flow :=
    Run.loop (test.elim (return .bool true) (·.eval call scope)) (body.exec policy call fuel scope)
      (Expr.evalOption call scope step) fuel

end Stmt

namespace Run

/-- A step can be made part of the body that it follows. -/
theorem loop_eq_iterate (test : Run Value) (body : Run Flow) (step : Run Value) (fuel : Nat) :
    loop test body step fuel = iterate test (andThen body (step >>= fun _ => pure .next)) fuel := by
  induction fuel with
  | zero => rfl
  | succ fuel ih =>
    unfold loop iterate
    rw [ih]
    -- one turn: the step runs only behind a body that came to its end
    have hturn (v : Value) : (if v.truthy = true then body >>= fun flow => match flow with
          | .next => step >>= fun _ => iterate test (andThen body (step >>= fun _ => pure .next)) fuel
          | .broke => pure .next
          | .returned value => pure (.returned value)
        else pure .next) =
        if v.truthy = true then andThen body (step >>= fun _ => pure .next) >>= fun flow => match flow with
          | .next => iterate test (andThen body (step >>= fun _ => pure .next)) fuel
          | .broke => pure .next
          | .returned value => pure (.returned value)
        else pure .next := by
      by_cases hv : v.truthy = true
      · rw [if_pos hv, if_pos hv, andThen, bind_assoc]
        congr 1
        funext flow
        cases flow with
        | next =>
          dsimp only
          rw [bind_assoc]
          rfl
        | broke => rfl
        | returned value => rfl
      · rw [if_neg hv, if_neg hv]
    congr 1
    funext v
    exact hturn v

/-- Where the two runs of a loop stand between two turns. The loop has the frame `i` in the one heap and `i'` in the
other. -/
structure Aligned (n : Nat) (i i' : FrameId) (κ : Correspondence) (m m' : Machine) : Prop where
  inserts : κ.Inserts n
  size : n ≤ m.heap.frames.size
  heap : m.heap.Alike κ m'.heap
  wellMade : m.heap.WellMade False
  there : i < m.heap.frames.size
  scope : κ.own i i'

variable {α β : Type} {n : Nat} {i i' : FrameId} {κ : Correspondence} {m m' : Machine}
  {Q : Correspondence → α → α → Prop} {R : Correspondence → β → β → Prop}

def StepsFrom (n : Nat) (i i' : FrameId) (Q : Correspondence → α → α → Prop) (m m' : Machine) (r r' : Run α) : Prop :=
  ∃ κ, Aligned n i i' κ (machine (r m)) (machine (r' m')) ∧ Ends κ (Q κ) m m' (r m) (r' m')

def Steps (n : Nat) (i i' : FrameId) (Q : Correspondence → α → α → Prop) (r r' : Run α) : Prop :=
  ∀ κ m m', Aligned n i i' κ m m' → StepsFrom n i i' Q m m' r r'

theorem steps_pure {a a' : α} (hm : Aligned n i i' κ m m') (hq : Q κ a a') :
    StepsFrom n i i' Q m m' (pure a) (pure a') :=
  ⟨κ, hm, .ok (together_refl hm.heap) hq⟩

/-- Two turns one after the other, where the first may have inserted frames. -/
theorem steps_bind {r r' : Run α} {k k' : α → Run β} (hr : Steps n i i' Q r r')
    (hk : ∀ κ m m' a a', Aligned n i i' κ m m' → Q κ a a' → StepsFrom n i i' R m m' (k a) (k' a')) :
    Steps n i i' R (r >>= k) (r' >>= k') := by
  intro κ m m' hm
  obtain ⟨κ₁, haligned, hends⟩ := hr κ m m' hm
  unfold StepsFrom
  rw [bind_eq_match, bind_eq_match]
  match r m, r' m', haligned, hends with
  | .ok a n₁, .ok a' n₁', haligned, .ok ht hq =>
    obtain ⟨κ₂, haligned₂, hends₂⟩ := hk κ₁ n₁ n₁' a a' haligned hq
    exact ⟨κ₂, haligned₂, ends_trans ht hends₂⟩
  | .error e n₁, .error e' n₁', haligned, .error ht he => exact ⟨κ₁, haligned, .error ht he⟩

/-- Runs that do the same with the frames that there are insert no more of them. -/
theorem steps_of_alike {r r' : Run α} (hr : ∀ κ : Correspondence, κ.Inserts n → κ.own i i' → Alike κ (Q κ) r r')
    (hsafe : ∀ h : Heap, i < h.frames.size → Safe False r h fun _ _ => True) : Steps n i i' Q r r' := by
  intro κ m m' hm
  have hends := (hr κ hm.inserts hm.scope m m' hm.heap).1
  obtain ⟨he, hwell⟩ := machine_of_leaves (hsafe m.heap hm.there hm.wellMade m.events)
  refine ⟨κ, ⟨hm.inserts, ?_, (together_of_ends hends).heap, hwell, ?_, hm.scope⟩, hends⟩
  · exact Nat.le_trans hm.size he.size
  · exact Nat.lt_of_lt_of_le hm.there he.size

/-- A turn after which the loop may be left. -/
theorem steps_andThen {r r' k k' : Run Flow} (hr : Steps n i i' Flow.Alike r r')
    (hk : Steps n i i' Flow.Alike k k') : Steps n i i' Flow.Alike (andThen r k) (andThen r' k') := by
  refine steps_bind hr fun κ m m' flow flow' hm hflow => ?_
  cases flow with
  | next =>
    cases hflow
    exact hk κ m m' hm
  | broke =>
    cases hflow
    exact steps_pure hm rfl
  | returned v =>
    obtain ⟨v', rfl, hv⟩ := hflow
    exact steps_pure hm ⟨v', rfl, hv⟩

/-- Each turn may insert frames, so the correspondence at the end of a loop is found turn by turn. -/
theorem iterate_steps {test test' : Run Value} {body body' : Run Flow} (ht : Steps n i i' Value.Alike test test')
    (hb : Steps n i i' Flow.Alike body body') (fuel : Nat) :
    Steps n i i' Flow.Alike (iterate test body fuel) (iterate test' body' fuel) := by
  induction fuel with
  | zero =>
    intro κ m m' hm
    exact ⟨κ, hm, .error (together_refl hm.heap) rfl⟩
  | succ fuel ih =>
    refine steps_bind ht fun κ m m' v v' hm hv => ?_
    rw [truthy_alike hv]
    by_cases htrue : v.truthy = true
    · rw [if_pos htrue, if_pos htrue]
      refine steps_bind hb (fun κ m m' flow flow' hm hflow => ?_) κ m m' hm
      cases flow with
      | next =>
        cases hflow
        exact ih κ m m' hm
      | broke =>
        cases hflow
        exact steps_pure hm rfl
      | returned w =>
        obtain ⟨w', rfl, hw⟩ := hflow
        exact steps_pure hm ⟨w', rfl, hw⟩
    · rw [if_neg htrue, if_neg htrue]
      exact steps_pure hm rfl

end Run

open Run

section forLoop

variable {n : Nat} {i i' : FrameId} {policy : Policy} {call : Caller} {fuel : Nat} {c : Context}
  {start : Option Stmt} {test step : Option Expr} {body : Stmt}

/-- An expression may be evaluated wherever the two runs stand. -/
theorem eval_steps (hc : ∀ κ, call.Alike κ call) (hs : call.Safe False) {e : Expr}
    (he : e.Names (fun _ => True) (c.inClass = true)) :
    Steps n i i' Value.Alike (e.eval call i) (e.eval call i') := by
  apply steps_of_alike
  · intro κ hκ hi
    exact eval_alike (hc κ) (.inl hi) e (expr_alike_refl (fun p => (hκ.place p p).mpr rfl) e)
  · intro h hi
    exact safe_mono (eval_safe hs e he False.elim (hosts_of_lt hi)) fun _ _ _ _ => trivial

/-- A statement may be run wherever the two runs stand. -/
theorem exec_steps (hc : ∀ κ, call.Alike κ call) (hs : call.Safe False) {s : Stmt} (hp : s.Placed c) :
    Steps n i i' Flow.Alike (s.exec policy call fuel i) (s.exec policy call fuel i') := by
  apply steps_of_alike
  · intro κ hκ hi
    exact exec_alike (hc κ) s (stmt_alike_refl (fun p => (hκ.place p p).mpr rfl) s) (.inl hi) (.inl hi)
  · intro h hi
    exact safe_mono (exec_safe hs policy fuel s hp False.elim (hosts_of_lt hi)) fun _ _ _ _ => trivial

/-- Body and step do the same in a frame that only the first run has, since neither of them binds a name there. -/
theorem turn_alike {κ : Correspondence} {j : FrameId} (policy : Policy) (fuel : Nat) (e : Expr)
    (hc : call.Alike κ call) (hplace : ∀ p, κ.place p p) (hj : κ.frame j i') (hplain : body.Plain) :
    Alike κ (Flow.Alike κ)
      (logBlock policy j >>= fun _ => Stmt.execAll policy call fuel j [body, .expr e])
      (andThen (body.exec policy call fuel i') (e.eval call i' >>= fun _ => pure .next)) := by
  apply alike_log_bind
  rw [execAll_pair]
  have hbody : Alike κ (Flow.Alike κ) (body.exec policy call fuel j) (body.exec policy call fuel i') :=
    exec_alike hc body (stmt_alike_refl hplace body) hj (.inr hplain)
  apply alike_andThen hbody
  exact alike_bind (eval_alike hc hj e (expr_alike_refl hplace e)) fun _ _ _ => alike_pure rfl

/-- A turn with a step. The block around body and step makes a frame that the other run does not make. -/
theorem turn_steps (hc : ∀ κ, call.Alike κ call) (hs : call.Safe False) {e : Expr} (hplain : body.Plain)
    (hp : (Stmt.block [body, .expr e]).Placed c) :
    Steps n i i' Flow.Alike ((Stmt.block [body, .expr e]).exec policy call fuel i)
      (andThen (body.exec policy call fuel i') (e.eval call i' >>= fun _ => pure .next)) := by
  intro κ m m' hm
  have hκ : (κ.insert hm.heap i').Inserts n := Correspondence.insert_inserts hm.inserts hm.heap hm.size
  have hplace (p : Pos) : (κ.insert hm.heap i').place p p := (hκ.place p p).mpr rfl
  have hinner : (κ.insert hm.heap i').frame m.heap.frames.size i' := .inr (.inr ⟨rfl, rfl⟩)
  have hpushed : (m.heap.pushFrame i []).2.Alike (κ.insert hm.heap i') m'.heap :=
    Heap.insert_alike hm.heap hm.wellMade (.inl hm.scope) hm.there
  have hends := (turn_alike policy fuel e (hc _) hplace hinner hplain
    { m with heap := (m.heap.pushFrame i []).2 } m' hpushed).1
  have hstart : Together (κ.insert hm.heap i') m m' { m with heap := (m.heap.pushFrame i []).2 } m' :=
    ⟨hpushed, [], rfl, rfl⟩
  have hsafe := exec_safe hs policy fuel _ hp False.elim (hosts_of_lt hm.there) hm.wellMade m.events
  obtain ⟨he, hwell⟩ := machine_of_leaves hsafe
  refine ⟨κ.insert hm.heap i', ⟨hκ, ?_, (together_of_ends hends).heap, hwell, ?_, ?_⟩, ends_trans hstart hends⟩
  · exact Nat.le_trans hm.size he.size
  · exact Nat.lt_of_lt_of_le hm.there he.size
  · exact .inl ⟨hm.there, hm.scope⟩

structure Stmt.Clauses (c : Context) (start : Option Stmt) (test step : Option Expr) (body : Stmt) : Prop where
  startPlaced : Stmt.PlacedOption c start
  testPlaced : Expr.NamesOption (fun _ => True) (c.inClass = true) test
  stepPlaced : Expr.NamesOption (fun _ => True) (c.inClass = true) step
  bodyPlaced : body.Placed c.enterLoop
  bodyPlain : body.Plain

/-- The turns of a loop, with the tree that stands for them on the one side and their meaning on the other. -/
theorem turns_steps (hc : ∀ κ, call.Alike κ call) (hs : call.Safe False) (hl : Stmt.Clauses c start test step body) :
    Steps n i i' Flow.Alike ((Stmt.forLoop none test step body).exec policy call fuel i)
      (Stmt.runFor.turns policy call fuel test step body i') := by
  unfold Stmt.runFor.turns
  rw [loop_eq_iterate]
  have htest : Steps n i i' Value.Alike ((test.getD (.literal (.bool true))).eval call i)
      (test.elim (return .bool true) (·.eval call i')) := by
    cases test with
    | none => exact fun κ m m' hm => steps_pure hm rfl
    | some e => exact eval_steps hc hs hl.testPlaced
  cases step with
  | none =>
    have hturn : andThen (body.exec policy call fuel i') (Expr.evalOption call i' none >>= fun _ => pure .next) =
        body.exec policy call fuel i' := andThen_next _
    rw [hturn]
    exact iterate_steps htest (exec_steps hc hs hl.bodyPlaced) fuel
  | some e =>
    have hp : (Stmt.block [body, .expr e]).Placed c.enterLoop := ⟨hl.bodyPlaced, hl.stepPlaced, trivial⟩
    exact iterate_steps htest (turn_steps hc hs hl.bodyPlain hp) fuel

/-- Running the tree of a loop, from any machine, with the frames that there are standing for themselves. -/
theorem forLoop_steps (hc : ∀ κ, call.Alike κ call) (hs : call.Safe False) (hl : Stmt.Clauses c start test step body)
    {m : Machine} (hm : m.heap.WellMade False) (hi : i < m.heap.frames.size) :
    ∃ κ : Correspondence, κ.Inserts m.heap.frames.size ∧
      Ends κ (Flow.Alike κ) m m ((Stmt.forLoop start test step body).exec policy call fuel i m)
        (Stmt.runFor policy call fuel i start test step body m) := by
  have hsame := Correspondence.same_inserts m.heap.frames.size
  cases start with
  | none =>
    have hm' : Aligned m.heap.frames.size i i .same m m :=
      ⟨hsame, Nat.le_refl _, Heap.same_alike m.heap, hm, hi, rfl⟩
    obtain ⟨κ, hκ, hends⟩ := turns_steps hc hs hl .same m m hm'
    exact ⟨κ, hκ.inserts, hends⟩
  | some s =>
    let pushed : Machine := { m with heap := (m.heap.pushFrame i []).2 }
    let j := m.heap.frames.size
    let logged := pushed.log policy .trace fun h =>
      ⟨.trace, "enter block", [("depth", Text.ofNat (h.depth j))]⟩
    have hheap : logged.heap = pushed.heap := heap_log _ _ _ _
    have hlines : logged.lines = m.lines := lines_log pushed _ _ _
    have hwell : pushed.heap.WellMade False := wellMade_pushFrame hm fun x v hv => absurd hv (by simp [Bindings.get?])
    have hsize : pushed.heap.frames.size = j + 1 := Heap.frames_pushFrame
    -- both runs make the frame of the loop, and from there on they go side by side
    have hm' : Aligned j j j .same logged pushed := by
      refine ⟨hsame, ?_, ?_, ?_, ?_, rfl⟩
      · rw [hheap, hsize]
        exact Nat.le_succ j
      · rw [hheap]
        exact Heap.same_alike pushed.heap
      · rw [hheap]
        exact hwell
      · rw [hheap, hsize]
        exact Nat.lt_succ_self j
    have hstart : Together .same m m logged pushed := ⟨hm'.heap, [], hlines, rfl⟩
    have hs' : Steps j j j Flow.Alike (s.exec policy call fuel j) (s.exec policy call fuel j) :=
      exec_steps hc hs hl.startPlaced
    obtain ⟨κ, hκ, hends⟩ := steps_andThen hs' (turns_steps hc hs hl) .same logged pushed hm'
    refine ⟨κ, hκ.inserts, ?_⟩
    rw [← execAll_pair] at hends
    exact ends_trans hstart hends

end forLoop

namespace Stmt

/-- The tree that stands for a loop with clauses does what the loop means. Its runs write the same, end in the same way
and leave the same values, with empty frames inserted. Behind the loop the same names are visible as before it, so no
name of the loop is; and a step sees the names that were visible before the body. -/
theorem forLoop_exec {c : Context} {start : Option Stmt} {test step : Option Expr} {body : Stmt}
    {ts us vs ws : List Token} (hs : Forms c (.start start) ts) (ht : Optional c test us) (he : Optional c step vs)
    (hb : Forms c.enterLoop (.stmt body) ws) (policy : Policy) (fuel depth turns : Nat) (i : FrameId) (m : Machine)
    (hm : m.heap.WellMade False) (hi : i < m.heap.frames.size) :
    (∃ κ : Correspondence, κ.Inserts m.heap.frames.size ∧
      Ends κ (Flow.Alike κ) m m ((forLoop start test step body).exec policy (Run.call policy fuel depth) turns i m)
        (runFor policy (Run.call policy fuel depth) turns i start test step body m)) ∧
    (∀ x, (machine ((forLoop start test step body).exec policy (Run.call policy fuel depth) turns i m)).heap.Resolves
      i x ↔ m.heap.Resolves i x) ∧
    ∀ (j : FrameId) (n : Machine), j < n.heap.frames.size → ∀ x,
      (machine (body.exec policy (Run.call policy fuel depth) turns j n)).heap.Resolves j x ↔ n.heap.Resolves j x := by
  have hplain : body.Plain := plain_of_forms hb
  have hl : Stmt.Clauses c start test step body :=
    ⟨placed_of_forms hs, names_of_optional ht, names_of_optional he, placed_of_forms hb, hplain⟩
  have hkeeps := call_keeps policy fuel depth
  refine ⟨?_, fun x => ?_, fun j n hj x => ?_⟩
  · exact forLoop_steps (fun κ => call_alike rfl fuel depth) (call_safe policy fuel depth) hl hm hi
  · exact Heap.resolves_of_sameNames (exec_keeps hkeeps _ (.inr (forLoop_plain hplain)) m) hi
  · exact Heap.resolves_of_sameNames (exec_keeps hkeeps body (.inr hplain) n) hj

end Stmt

def nilLoop (p : Pos) : Stmt :=
  -- `for (var i; i == nil; i = true) print i;`
  .forLoop (some (.var ⟨"i", p⟩ none)) (some (.binary .equal p (.variable ⟨"i", p⟩) (.literal .nil)))
    (some (.assign ⟨"i", p⟩ (.literal (.bool true)))) (.print (.variable ⟨"i", p⟩))

/-- The loop takes one turn, and its variable is gone behind it. -/
theorem nilLoop_exec :
    (machine ((nilLoop default).exec ⟨none, .error⟩ (Run.call ⟨none, .error⟩ 9 0) 9 0 ⟨Heap.empty, []⟩)).lines =
      [.out "nil"] ∧
    ¬ (machine ((nilLoop default).exec ⟨none, .error⟩ (Run.call ⟨none, .error⟩ 9 0) 9 0
      ⟨Heap.empty, []⟩)).heap.Resolves 0 "i" := by
  have hname : Spells false .assignment (.variable ⟨"i", default⟩) [⟨.identifier "i", default⟩] :=
    derives_loosen (.name ⟨"i", default⟩) (by decide)
  have htest : Optional {} (some (.binary .equal default (.variable ⟨"i", default⟩) (.literal .nil)))
      ([⟨.identifier "i", default⟩] ++ Punct.equalEqual.token default :: [Keyword.kwNil.token default]) :=
    derives_loosen (Derives.binary .equal default (derives_loosen (.name ⟨"i", default⟩) (by decide))
      (derives_loosen (.literalNil default) (by decide))) (by decide)
  have hstep : Optional {} (some (.assign ⟨"i", default⟩ (.literal (.bool true))))
      [⟨.identifier "i", default⟩, Punct.equal.token default, Keyword.kwTrue.token default] :=
    Derives.assign ⟨"i", default⟩ default (derives_loosen (.literalTrue default) (by decide))
  have hloop := Stmt.forLoop_exec (c := {}) (.startVar (.varBare ⟨"i", default⟩ default default)) htest hstep
    (.simple (.print default default hname)) ⟨none, .error⟩ 9 0 9 0 ⟨Heap.empty, []⟩ empty_wellMade Nat.zero_lt_one
  refine ⟨by decide +kernel, fun hi => ?_⟩
  have hbefore : Heap.empty.Resolves 0 "i" := (hloop.2.1 "i").mp hi
  have hnone : (Heap.empty.resolve? "i" 0).isSome = false := by decide +kernel
  rw [Heap.Resolves, hnone] at hbefore
  cases hbefore

end Lox
