import Lox.Proofs.Run.CallSafe
import Lox.Proofs.Run.Moves
import Lox.Proofs.Run.Notes

/-! All moves of a run are lawful, and lead to the heap that the run leaves behind. This goes over the structure of
programs, and over the fuel for calls and for the turns of loops. The programs need not be valid. -/
namespace Lox

open Heap (Move Lawful)

variable {α β : Type} {past past' : List Move} {i : FrameId} {v : Value}

namespace Heap

theorem lt_of_past (hp : past <+: past') (hi : i < (Heap.after past).frames.size) :
    i < (Heap.after past').frames.size := by
  obtain ⟨later, rfl⟩ := hp
  exact Nat.lt_of_lt_of_le hi (after_keeps past later).frames

theorem made_of_past (hp : past <+: past') (hv : v.Made past) : v.Made past' := by
  obtain ⟨later, rfl⟩ := hp
  exact made_append hv later

theorem made_of_basic (hv : v.Basic) : v.Made past := by
  cases v with
  | nil | bool | number | string => trivial
  | function | classValue | object => cases hv

end Heap

open Heap

namespace Run

structure Arrives (past moves : List Move) (Q : α → List Move → Prop) (R : EStateM.Result Halt Machine α) : Prop where
  heap : (machine R).heap = Heap.after (past ++ moves)
  lawful : Lawful (past ++ moves)
  returns : ∀ a n, R = .ok a n → Q a (past ++ moves)

/-- After lawful moves, the run makes lawful moves, which lead to the heap at its end, and returns what `Q` relates to
all the moves until then. -/
def Makes (past : List Move) (r : Run α) (t : Moves) (Q : α → List Move → Prop) : Prop :=
  Lawful past → ∀ events, Arrives past (t ⟨Heap.after past, events⟩) Q (r ⟨Heap.after past, events⟩)

variable {Q : α → List Move → Prop}

/-! ### Rules -/

theorem arrives_nil {R : EStateM.Result Halt Machine α} (hl : Lawful past) (hh : (machine R).heap = Heap.after past)
    (hq : ∀ a n, R = .ok a n → Q a past) : Arrives past [] Q R := by
  have hpast : past ++ [] = past := List.append_nil past
  refine ⟨?_, ?_, ?_⟩
  · rwa [hpast]
  · rwa [hpast]
  · rwa [hpast]

/-- Runs that are alike from here on. -/
theorem makes_congr {r r' : Run α} {t t' : Moves}
    (hr : ∀ events, r ⟨Heap.after past, events⟩ = r' ⟨Heap.after past, events⟩)
    (ht : ∀ events, t ⟨Heap.after past, events⟩ = t' ⟨Heap.after past, events⟩) (hr' : Makes past r' t' Q) :
    Makes past r t Q := by
  intro hl events
  rw [hr, ht]
  exact hr' hl events

/-- Two runs in a row. The second starts after the moves of the first, of which the first one tells. -/
theorem makes_bind {P : α → List Move → Prop} {Q : β → List Move → Prop} {r : Run α} {k : α → Run β} {t : Moves}
    {u : α → Moves} (hr : Makes past r t P) (hk : ∀ a past', past <+: past' → P a past' → Makes past' (k a) (u a) Q) :
    Makes past (r >>= k) (.seq r t u) Q := by
  intro hl events
  have hfirst := hr hl events
  cases hrun : r ⟨Heap.after past, events⟩ with
  | error e n =>
    rw [bind_of_error hrun, Moves.seq_of_error hrun]
    rw [hrun] at hfirst
    exact ⟨hfirst.heap, hfirst.lawful, fun b m hb => by cases hb⟩
  | ok a n =>
    rw [bind_of_ok hrun, Moves.seq_of_ok hrun]
    rw [hrun] at hfirst
    obtain ⟨h, later⟩ := n
    obtain rfl : h = Heap.after (past ++ t ⟨Heap.after past, events⟩) := hfirst.heap
    -- the second run is measured from its own start
    have hsecond := hk a _ (List.prefix_append past _) (hfirst.returns a _ rfl) hfirst.lawful later
    have hpast := List.append_assoc past (t ⟨Heap.after past, events⟩)
    refine ⟨?_, ?_, ?_⟩
    · rw [← hpast]
      exact hsecond.heap
    · rw [← hpast]
      exact hsecond.lawful
    · rw [← hpast]
      exact hsecond.returns

/-- What follows makes no moves. -/
theorem makes_first {P : α → List Move → Prop} {Q : β → List Move → Prop} {r : Run α} {k : α → Run β} {t : Moves}
    (hr : Makes past r t P) (hk : ∀ a past', past <+: past' → P a past' → Makes past' (k a) .none Q) :
    Makes past (r >>= k) t Q := by
  have hseq := makes_bind hr hk
  rwa [Moves.seq_none] at hseq

theorem makes_pure {a : α} (hq : Q a past) : Makes past (pure a : Run α) .none Q := by
  intro hl events
  apply arrives_nil hl rfl
  rintro b n ⟨⟩
  exact hq

theorem makes_throw {e : Halt} : Makes past (throw e : Run α) .none Q := by
  intro hl events
  apply arrives_nil hl rfl
  rintro b n ⟨⟩

/-- Reading the heap; that the moves were lawful may be used from here on. -/
theorem makes_heap {k : Heap → Run α} {u : Moves} (hk : Lawful past → Makes past (k (Heap.after past)) u Q) :
    Makes past (heap >>= k) u Q :=
  fun hl events => hk hl hl events

/-- A step that is a move. -/
theorem makes_alloc {f : Heap → α × Heap} {m : Move} (hf : ∀ h, (f h).2 = m.apply h) (hm : m.Allowed past)
    (hq : Q (f (Heap.after past)).1 (past ++ [m])) : Makes past (alloc f) (.one m) Q := by
  intro hl events
  refine ⟨?_, .snoc hl hm, ?_⟩
  · change (f (Heap.after past)).2 = Heap.after (past ++ [m])
    rw [hf, after_snoc]
  · rintro b n ⟨⟩
    exact hq

theorem makes_modifyHeap {f : Heap → Heap} {m : Move} {b : α} (hf : ∀ h, f h = m.apply h) (hm : m.Allowed past)
    (hq : Q b (past ++ [m])) : Makes past (modifyHeap f >>= fun _ => pure b) (.one m) Q := by
  have hmodify : Makes past (modifyHeap f) (.one m) fun _ => Q b := makes_alloc (f := fun h => ((), f h)) hf hm hq
  exact makes_first hmodify fun _ _ _ => makes_pure

theorem makes_log {policy : Policy} {severity : Severity} {entry : Heap → LogEntry} {Q : Unit → List Move → Prop}
    (hq : Q () past) : Makes past (log policy severity entry) .none Q := by
  intro hl events
  apply arrives_nil hl
  · exact heap_log ⟨Heap.after past, events⟩ policy severity entry
  · intro _ _ _
    exact hq

theorem makes_print {line : Text} {Q : Unit → List Move → Prop} (hq : Q () past) :
    Makes past (print line) .none Q := by
  intro hl events
  apply arrives_nil hl rfl
  intro _ _ _
  exact hq

/-! ### Names and properties -/

/-- A name has a value that the heap holds, so it has been made. -/
theorem lookup_makes (x : Text) (pos : Pos) : Makes past (lookup i x pos) .none fun v past' => v.Made past' := by
  refine makes_heap fun hl => ?_
  cases hget : (Heap.after past).get? i x with
  | none => exact makes_throw
  | some v =>
    apply makes_pure
    obtain ⟨⟨j, w⟩, hres, rfl⟩ := Option.map_eq_some_iff.mp hget
    exact (holds_of_lawful hl).vars j x w (vars_of_resolve? hres)

/-- A name that is found is found in a frame that there is. -/
theorem assign_makes {x : Name} (hv : v.Made past) :
    Makes past (assign i x v >>= fun _ => pure v) (assignMoves i x v) fun v past' => v.Made past' := by
  cases hres : (Heap.after past).resolve? x.text i with
  | none =>
    have hnone : Makes past (fault (.undefinedVariable x.text) x.text x.pos : Run Value) .none fun v past' =>
        v.Made past' := makes_throw
    refine makes_congr (fun events => ?_) (fun events => ?_) hnone
    · exact bind_of_error (assign_of_none hres)
    · exact assignMoves_of_none hres
  | some found =>
    obtain ⟨j, w⟩ := found
    have hj : j < (Heap.after past).frames.size := by
      by_contra hout
      have hget := vars_of_resolve? hres
      rw [vars_of_le (Nat.le_of_not_lt hout)] at hget
      cases hget
    have hdefine : Makes past (modifyHeap (·.define j x.text v) >>= fun _ => pure v) (.one (.bind j x.text v))
        fun v past' => v.Made past' :=
      makes_modifyHeap (fun _ => rfl) ⟨hj, hv⟩ (made_append hv _)
    refine makes_congr (fun events => ?_) (fun events => ?_) hdefine
    · exact bind_of_ok (assign_of_some hres)
    · exact assignMoves_of_some hres

/-- A method is bound in a frame inside that of its class. -/
theorem bind_makes {d : FunctionDecl} {c : Class} {self : Value} (hc : .declare c.scope c ∈ past)
    (hself : self.Made past) :
    Makes past (bind d c self) (bindMoves c self) fun f past' => f.scope < (Heap.after past').frames.size := by
  have hpush : Makes past (alloc (·.pushFrame c.scope [(thisName, self)])) (.one (.method c self)) fun j past' =>
      j < (Heap.after past').frames.size := by
    refine makes_alloc (fun _ => rfl) ⟨hc, hself⟩ ?_
    rw [after_snoc]
    exact size_lt_pushFrame
  refine makes_bind hpush fun j past₁ _ hj => ?_
  have hserial : Makes past₁ (alloc nextSerial) (.one .serial) fun _ past' => j < (Heap.after past').frames.size :=
    makes_alloc (fun _ => rfl) trivial (lt_of_past (List.prefix_append _ _) hj)
  exact makes_first hserial fun _ _ _ hj' => makes_pure hj'

/-- A property has been made, or a method is bound now. -/
theorem property_makes {o : Value} {x : Name} (ho : o.Made past) :
    Makes past (getProperty o x) (propertyMoves o x) fun v past' => v.Made past' := by
  cases o with
  | nil | bool | number | string | function | classValue => exact makes_throw
  | object c id =>
    cases hfield : ((Heap.after past).fields id).get? x.text with
    | some u =>
      have hfound : Makes past (pure u : Run Value) .none fun v past' => v.Made past' :=
        fun hl => makes_pure ((holds_of_lawful hl).fields id x.text u hfield) hl
      exact makes_congr (fun _ => getProperty_of_field hfield) (fun _ => propertyMoves_of_field hfield) hfound
    | none =>
      cases hd : c.method? x.text with
      | none =>
        have hnone : Makes past (fault (.undefinedProperty x.text) x.text x.pos : Run Value) .none fun v past' =>
            v.Made past' := makes_throw
        exact makes_congr (fun _ => getProperty_of_none hfield hd) (fun _ => propertyMoves_of_none hfield hd) hnone
      | some d =>
        have hbound : Makes past (Value.function <$> bind d c (.object c id)) (bindMoves c (.object c id))
            fun v past' => v.Made past' := by
          rw [map_eq_pure_bind]
          exact makes_first (bind_makes ho.1 ho) fun f past' _ hf => makes_pure hf
        exact makes_congr (fun _ => getProperty_of_method hfield hd) (fun _ => propertyMoves_of_method hfield hd) hbound

theorem result_makes {token : Text} {pos : Pos} {r : Except Fault.Cause Value} (hr : ∀ v, r = .ok v → v.Basic) :
    Makes past (result token pos r) .none fun v past' => v.Made past' := by
  cases r with
  | ok v => exact makes_pure (made_of_basic (hr v rfl))
  | error cause => exact makes_throw

end Run

open Run

/-! ### Expressions and statements -/

def Caller.Makes (call : Caller) (mover : Mover) : Prop :=
  ∀ v vs p past, v.Made past → (∀ u ∈ vs, u.Made past) →
    Run.Makes past (call v vs p) (mover v vs p) fun v past' => v.Made past'

def Flow.Made (past : List Move) : Flow → Prop
  | .next | .broke => True
  | .returned v => v.Made past

section program

variable {call : Caller} {mover : Mover}

mutual

/-- Evaluating an expression makes lawful moves, by induction on the expression. -/
theorem eval_makes (hc : call.Makes mover) : (e : Expr) → ∀ {past : List Move},
    Makes past (e.eval call i) (e.moves call mover i) fun v past' => v.Made past'
  | .literal l, past => makes_pure (made_of_basic (literal_basic l))
  | .group e, past => eval_makes hc e
  | .unary op pos e, past => makes_first (eval_makes hc e) fun v past' _ _ => result_makes fun u => unary_basic
  | .binary op pos l r, past => by
    refine makes_bind (eval_makes hc l) fun v past' _ _ => ?_
    exact makes_first (eval_makes hc r) fun u past'' _ _ => result_makes fun x => binary_basic
  | .logical op l r, past => by
    refine makes_bind (eval_makes hc l) fun v past' _ hv => ?_
    by_cases hd : op.isDecidedBy v = true
    · rw [if_pos hd, if_pos hd]
      exact makes_pure hv
    · rw [if_neg hd, if_neg hd]
      exact eval_makes hc r
  | .variable x, past => lookup_makes x.text x.pos
  | .assign x e, past => makes_bind (eval_makes hc e) fun v past' _ hv => assign_makes hv
  | .call f es paren, past => by
    refine makes_bind (eval_makes hc f) fun v past₁ _ hv => ?_
    refine makes_bind (evalAll_makes hc es) fun vs past₂ hp hvs => ?_
    exact hc v vs paren past₂ (made_of_past hp hv) hvs
  | .get o x, past => makes_bind (eval_makes hc o) fun v past' _ hv => property_makes hv
  | .set o x e, past => by
    refine makes_bind (eval_makes hc o) fun v past₁ _ hv => ?_
    cases v with
    | object c id =>
      refine makes_bind (eval_makes hc e) fun u past₂ hp hu => ?_
      have hid : id < (Heap.after past₂).instances.size := (made_of_past hp hv).2
      exact makes_modifyHeap (fun _ => rfl) ⟨hid, hu⟩ (made_append hu _)
    | nil | bool | number | string | function | classValue => exact makes_throw
  | .this pos, past => lookup_makes thisName pos

theorem evalAll_makes (hc : call.Makes mover) : (es : List Expr) → ∀ {past : List Move},
    Makes past (Expr.evalAll call i es) (Expr.movesAll call mover i es) fun vs past' => ∀ v ∈ vs, v.Made past'
  | [], past => makes_pure (List.forall_mem_nil _)
  | e :: es, past => by
    refine makes_bind (eval_makes hc e) fun v past₁ _ hv => ?_
    refine makes_first (evalAll_makes hc es) fun vs past₂ hp hvs => ?_
    exact makes_pure (List.forall_mem_cons.mpr ⟨made_of_past hp hv, hvs⟩)

end

theorem evalOption_makes (hc : call.Makes mover) (e : Option Expr) :
    Makes past (Expr.evalOption call i e) (Expr.movesOption call mover i e) fun v past' => v.Made past' := by
  cases e with
  | none => exact makes_pure trivial
  | some e => exact eval_makes hc e

/-- A loop makes lawful moves if each of its turns does, from wherever it starts. -/
theorem iterate_makes {test : Run Value} {body : Run Flow} {tests bodies : Moves}
    (ht : ∀ past', past <+: past' → Makes past' test tests fun v past'' => v.Made past'')
    (hb : ∀ past', past <+: past' → Makes past' body bodies fun flow past'' => flow.Made past'') (fuel : Nat) :
    Makes past (iterate test body fuel) (iterateMoves test body tests bodies fuel) fun flow past' =>
      flow.Made past' := by
  induction fuel generalizing past with
  | zero => exact makes_throw
  | succ fuel ih =>
    refine makes_bind (ht past (List.prefix_refl past)) fun v past₁ hp₁ _ => ?_
    by_cases hv : v.truthy = true
    · rw [if_pos hv, if_pos hv]
      refine makes_bind (hb past₁ hp₁) fun flow past₂ hp₂ hflow => ?_
      have hp := List.IsPrefix.trans hp₁ hp₂
      cases flow with
      | next => exact ih (fun q hq => ht q (hp.trans hq)) fun q hq => hb q (hp.trans hq)
      | broke => exact makes_pure trivial
      | returned u => exact makes_pure hflow
    · rw [if_neg hv, if_neg hv]
      exact makes_pure trivial

/-- The new frame is there, and what is made in it is made later. -/
theorem pushFrame_makes {vars : Bindings Value} (hi : i < (Heap.after past).frames.size)
    (hvars : ∀ x v, vars.get? x = some v → v.Made past) :
    Makes past (alloc (·.pushFrame i vars)) (.one (.frame i vars)) fun j past' =>
      j < (Heap.after past').frames.size := by
  refine makes_alloc (fun _ => rfl) ⟨hi, hvars⟩ ?_
  rw [after_snoc]
  exact size_lt_pushFrame

theorem serial_makes : Makes past (alloc nextSerial) (.one .serial) fun _ _ => True :=
  makes_alloc (fun _ => rfl) trivial trivial

variable {policy : Policy} {fuel : Nat}

mutual

/-- Running a statement makes lawful moves in every frame that there is, by induction on the statement. -/
theorem exec_makes (hc : call.Makes mover) : (s : Stmt) → ∀ {past : List Move} {i : FrameId},
    i < (Heap.after past).frames.size → Makes past (s.exec policy call fuel i) (s.moves policy call mover fuel i)
      fun flow past' => flow.Made past'
  | .expr e, past, i, _ => makes_first (eval_makes hc e) fun _ _ _ _ => makes_pure trivial
  | .print e, past, i, _ => by
    refine makes_first (eval_makes hc e) fun v past' _ _ => ?_
    exact makes_first (makes_print (Q := fun _ _ => True) trivial) fun _ _ _ _ => makes_pure trivial
  -- frames are never taken away, so `i` is still one after the value has been evaluated
  | .var x e, past, i, hi => by
    refine makes_bind (evalOption_makes hc e) fun v past' hp hv => ?_
    exact makes_modifyHeap (fun _ => rfl) ⟨lt_of_past hp hi, hv⟩ trivial
  | .block ss, past, i, hi => by
    refine makes_bind (pushFrame_makes hi fun x v hv => by cases hv) fun j past₁ _ hj => ?_
    have hlog : Makes past₁ (logBlock policy j) .none fun _ past' => j < (Heap.after past').frames.size := makes_log hj
    exact makes_bind hlog fun _ past₂ _ hj' => execAll_makes hc ss hj'
  | .ifThen test yes no, past, i, hi => by
    refine makes_bind (eval_makes hc test) fun v past' hp _ => ?_
    by_cases hv : v.truthy = true
    · rw [if_pos hv, if_pos hv]
      exact exec_makes hc yes (lt_of_past hp hi)
    · rw [if_neg hv, if_neg hv]
      exact execOption_makes hc no (lt_of_past hp hi)
  | .whileLoop test body, past, i, hi =>
    iterate_makes (fun _ _ => eval_makes hc test) (fun _ hp => exec_makes hc body (lt_of_past hp hi)) fuel
  | .function d, past, i, hi => by
    refine makes_bind serial_makes fun serial past' hp _ => ?_
    have hi' := lt_of_past hp hi
    exact makes_modifyHeap (fun _ => rfl) ⟨hi', hi'⟩ trivial
  | .returnValue _ e, past, i, _ => makes_first (evalOption_makes hc e) fun _ _ _ hv => makes_pure hv
  | .breakLoop _, past, i, _ => makes_pure trivial
  | .classDecl x ds, past, i, hi => by
    refine makes_bind serial_makes fun serial past' hp _ => ?_
    exact makes_modifyHeap (fun _ => rfl) ⟨lt_of_past hp hi, rfl⟩ trivial

theorem execAll_makes (hc : call.Makes mover) : (ss : List Stmt) → ∀ {past : List Move} {i : FrameId},
    i < (Heap.after past).frames.size → Makes past (Stmt.execAll policy call fuel i ss)
      (Stmt.movesAll policy call mover fuel i ss) fun flow past' => flow.Made past'
  | [], past, i, _ => makes_pure trivial
  | s :: ss, past, i, hi => by
    refine makes_bind (exec_makes hc s hi) fun flow past' hp hflow => ?_
    cases flow with
    | next => exact execAll_makes hc ss (lt_of_past hp hi)
    | broke => exact makes_pure trivial
    | returned v => exact makes_pure hflow

theorem execOption_makes (hc : call.Makes mover) : (s : Option Stmt) → ∀ {past : List Move} {i : FrameId},
    i < (Heap.after past).frames.size → Makes past (Stmt.execOption policy call fuel i s)
      (Stmt.movesOption policy call mover fuel i s) fun flow past' => flow.Made past'
  | none, _, _, _ => makes_pure trivial
  | some s, _, _, hi => exec_makes hc s hi

end

end program

/-! ### Calls -/

namespace Run

variable {body : FrameId → List Stmt → Run Flow} {moves : FrameId → List Stmt → Moves} {policy : Policy}
  {args : List Value}

def BodyMakes (body : FrameId → List Stmt → Run Flow) (moves : FrameId → List Stmt → Moves) : Prop :=
  ∀ i ss past, i < (Heap.after past).frames.size → Makes past (body i ss) (moves i ss) fun flow past' => flow.Made past'

/-- The frame of a call is linked to the frame of the function. -/
theorem enter_makes (hb : BodyMakes body moves) {f : Closure} (hf : f.scope < (Heap.after past).frames.size)
    (ha : ∀ u ∈ args, u.Made past) :
    Makes past (enter body policy f args) (enterMoves moves policy f args) fun v past' => v.Made past' := by
  unfold enter enterMoves
  cases hvars : bindParams f.decl.params args [] with
  | none => exact makes_throw
  | some vars =>
    have hvalues (x : Text) (v : Value) (hv : vars.get? x = some v) : v.Made past := by
      rcases bindParams_cases hvars hv with ⟨-, hmem⟩ | hnil
      · exact ha v hmem
      · cases hnil
    refine makes_bind (pushFrame_makes hf hvalues) fun j past₁ _ hj => ?_
    have hlog : Makes past₁ (logBlock policy j) .none fun _ past' => j < (Heap.after past').frames.size := makes_log hj
    refine makes_bind hlog fun _ past₂ _ hj' => ?_
    refine makes_first (hb j f.decl.body past₂ hj') fun flow past₃ _ hflow => ?_
    extract_lets finish
    -- an initializer yields what its frame holds, and all that a frame holds has been made
    have hfinish (v : Value) (hv : v.Made past₃) : Makes past₃ (finish v) .none fun v past' => v.Made past' := by
      unfold finish
      by_cases hinit : f.isInit = true
      · rw [if_pos hinit]
        refine makes_heap fun hl => ?_
        cases hget : ((Heap.after past₃).vars f.scope).get? thisName with
        | none => exact makes_throw
        | some u => exact makes_pure ((holds_of_lawful hl).vars f.scope thisName u hget)
      · rw [if_neg hinit]
        exact makes_pure hv
    cases flow with
    | next => exact hfinish .nil trivial
    | returned v => exact hfinish v hflow
    | broke => exact makes_throw

/-- An instance is made of a class that has been declared. -/
theorem construct_makes (hb : BodyMakes body moves) {c : Class} (hc : .declare c.scope c ∈ past)
    (ha : ∀ u ∈ args, u.Made past) :
    Makes past (construct body policy c args) (constructMoves moves policy c args) fun v past' => v.Made past' := by
  have hpush : Makes past (alloc pushInstance) (.one .object) fun id past' => (Value.object c id).Made past' := by
    refine makes_alloc (fun _ => rfl) trivial ⟨List.mem_append_left _ hc, ?_⟩
    rw [after_snoc]
    change _ < ((Heap.after past).instances.push []).size
    rw [Array.size_push]
    exact Nat.lt_succ_self _
  unfold construct constructMoves
  refine makes_bind hpush fun id past₁ hp₁ hself => ?_
  dsimp only
  cases hd : c.method? initName with
  | none => exact makes_pure hself
  | some d =>
    refine makes_bind (bind_makes hself.1 hself) fun f past₂ hp₂ hf => ?_
    have hargs (u : Value) (hu : u ∈ args) : u.Made past₂ := made_of_past (hp₁.trans hp₂) (ha u hu)
    refine makes_first (enter_makes hb hf hargs) fun _ past₃ hp₃ _ => ?_
    exact makes_pure (made_of_past (hp₂.trans hp₃) hself)

theorem invoke_makes (hb : BodyMakes body moves) {callee : Callable} (hc : callee.toValue.Made past)
    (ha : ∀ u ∈ args, u.Made past) :
    Makes past (invoke body policy args callee) (invokeMoves moves policy args callee) fun v past' =>
      v.Made past' := by
  cases callee with
  | function f => exact enter_makes hb hc ha
  | classValue c => exact construct_makes hb hc ha

/-- A call that is let in is one of the value that is called. -/
theorem checkCall_makes {depth : Nat} {value : Value} {paren : Pos} :
    Makes past (checkCall policy depth value args paren) .none fun callee _ => callee.toValue = value := by
  cases htakes : value.takes? args with
  | none =>
    obtain ⟨cause, -, hcheck⟩ := checkCall_of_none htakes
    rw [hcheck]
    exact makes_throw
  | some callee =>
    rw [checkCall_of_some htakes]
    by_cases hd : policy.allowsDepth (depth + 1) = true
    · rw [if_pos hd]
      have hlog : Makes past (logCall policy callee (depth + 1) paren) .none fun _ _ => True := makes_log trivial
      refine makes_first hlog fun _ _ _ _ => makes_pure ?_
      exact toValue_of_callable? (Option.filter_eq_some_iff.mp htakes).1
    · rw [if_neg hd]
      exact makes_throw

/-- By induction on the fuel: the calls in the body of a call have less. -/
theorem call_makes (policy : Policy) (fuel depth : Nat) :
    (call policy fuel depth).Makes (callMoves policy fuel depth) := by
  induction fuel generalizing depth with
  | zero =>
    intro value args paren past _ _
    rw [call_eq]
    exact makes_first checkCall_makes fun _ _ _ _ => makes_throw
  | succ fuel ih =>
    intro value args paren past hv ha
    rw [call_eq]
    refine makes_bind checkCall_makes fun callee past' hp hcallee => ?_
    have hbody : BodyMakes (Stmt.execAll policy (call policy fuel (depth + 1)) fuel)
        (Stmt.movesAll policy (call policy fuel (depth + 1)) (callMoves policy fuel (depth + 1)) fuel) :=
      fun _ ss _ hi => execAll_makes (ih (depth + 1)) ss hi
    refine invoke_makes hbody ?_ fun u hu => made_of_past hp (ha u hu)
    rw [hcallee]
    exact made_of_past hp hv

end Run
end Lox
