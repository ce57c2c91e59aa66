import Lox.Proofs.Heap.Names
import Lox.Proofs.Run.Logic
import Lox.Proofs.Static.Plain

/-! Which names a run can add. Declarations bind names in the frame that they are run in, and nothing else adds a name
to a frame that was there before: expressions, calls and plain statements leave all names as they are. -/
namespace Lox

variable {α β : Type} {P : FrameId → Prop} {i : FrameId}

namespace Run

def Keeps (P : FrameId → Prop) (r : Run α) : Prop := ∀ m : Machine, m.heap.SameNames P (machine (r m)).heap

theorem keeps_mono {r : Run α} (hr : Keeps (fun _ => False) r) : Keeps P r := by
  intro m
  have hm := hr m
  exact ⟨hm.size, hm.enclosing, fun j hj _ => hm.names j hj id⟩

theorem keeps_bind {r : Run α} {k : α → Run β} (hr : Keeps P r) (hk : ∀ a, Keeps P (k a)) : Keeps P (r >>= k) := by
  intro m
  have hm := hr m
  rw [bind_eq_match]
  match r m, hm with
  | .ok a n, hn => exact Heap.sameNames_trans hn (hk a n)
  | .error e n, hn => exact hn

theorem keeps_pure (a : α) : Keeps P (pure a : Run α) := fun m => Heap.sameNames_refl m.heap

theorem keeps_fault (cause : Fault.Cause) (token : Text) (pos : Pos) : Keeps P (fault cause token pos : Run α) :=
  fun m => Heap.sameNames_refl m.heap

theorem keeps_stuck : Keeps P (stuck : Run α) := fun m => Heap.sameNames_refl m.heap

theorem keeps_exhausted : Keeps P (exhausted : Run α) := fun m => Heap.sameNames_refl m.heap

theorem keeps_heap {k : Heap → Run β} (hk : ∀ h, Keeps P (k h)) : Keeps P (heap >>= k) := fun m => hk m.heap m

theorem keeps_modifyHeap {f : Heap → Heap} (hf : ∀ h : Heap, h.SameNames P (f h)) : Keeps P (modifyHeap f) :=
  fun m => hf m.heap

theorem keeps_alloc {f : Heap → α × Heap} (hf : ∀ h : Heap, h.SameNames P (f h).2) : Keeps P (alloc f) :=
  fun m => hf m.heap

theorem keeps_print (line : Text) : Keeps P (print line) := fun m => Heap.sameNames_refl m.heap

theorem keeps_log (policy : Policy) (severity : Severity) (entry : Heap → LogEntry) :
    Keeps P (log policy severity entry) := by
  intro m
  have hm : (machine (log policy severity entry m)).heap = m.heap := heap_log m policy severity entry
  rw [hm]
  exact Heap.sameNames_refl m.heap

/-- In a frame that is new, names may be added freely. -/
theorem keeps_pushFrame {vars : Bindings Value} {k : FrameId → Run α} (hk : ∀ j, Keeps (· = j) (k j)) :
    Keeps P (alloc (·.pushFrame i vars) >>= k) := by
  intro m
  have hnew : m.heap.SameNames P (m.heap.pushFrame i vars).2 := Heap.sameNames_pushFrame
  have hrun := hk m.heap.frames.size { m with heap := (m.heap.pushFrame i vars).2 }
  refine ⟨Nat.le_trans hnew.size hrun.size, fun j hj => ?_, fun j hj hP => ?_⟩
  · exact (hrun.enclosing j (Nat.lt_of_lt_of_le hj hnew.size)).trans (hnew.enclosing j hj)
  · have hne : j ≠ m.heap.frames.size := Nat.ne_of_lt hj
    exact (hrun.names j (Nat.lt_of_lt_of_le hj hnew.size) hne).trans (hnew.names j hj hP)

theorem lookup_keeps (x : Text) (pos : Pos) : Keeps P (lookup i x pos) := by
  refine keeps_heap fun h => ?_
  cases h.get? i x with
  | none => exact keeps_fault _ _ _
  | some v => exact keeps_pure v

/-- An assignment changes a name that is bound. -/
theorem assign_keeps (x : Name) (v : Value) : Keeps P (assign i x v) := by
  intro m
  -- the frame is found in the heap that it is changed in
  cases hres : m.heap.resolve? x.text i with
  | none =>
    rw [assign_of_none hres]
    exact Heap.sameNames_refl m.heap
  | some found =>
    obtain ⟨j, w⟩ := found
    rw [assign_of_some hres]
    apply Heap.sameNames_define
    right
    rw [Heap.vars_of_resolve? hres]
    rfl

/-- Binding a method makes a frame, and adds no name to the older ones. -/
theorem bind_keeps (d : FunctionDecl) (c : Class) (v : Value) : Keeps P (bind d c v) := by
  apply keeps_pushFrame
  intro j
  refine keeps_bind (keeps_alloc fun h => ?_) fun n => keeps_pure _
  exact Heap.sameNames_of_frames_eq rfl

theorem getProperty_keeps (o : Value) (x : Name) : Keeps P (getProperty o x) := by
  cases o with
  | object c id =>
    refine keeps_heap fun h => ?_
    cases (h.fields id).get? x.text with
    | some v => exact keeps_pure v
    | none =>
      cases c.method? x.text with
      | none => exact keeps_fault _ _ _
      | some d =>
        dsimp only
        rw [map_eq_pure_bind]
        exact keeps_bind (bind_keeps d c _) fun f => keeps_pure _
  | nil | bool | number | string | function | classValue => exact keeps_fault _ _ _

theorem result_keeps (token : Text) (pos : Pos) (r : Except Fault.Cause Value) : Keeps P (result token pos r) := by
  cases r with
  | ok v => exact keeps_pure v
  | error cause => exact keeps_fault _ _ _

end Run

open Run

def Caller.Keeps (call : Caller) : Prop := ∀ v vs p, Run.Keeps (fun _ => False) (call v vs p)

section eval

variable {call : Caller}

mutual

/-- Evaluating an expression adds no name to a frame that is there, by induction on the expression. -/
theorem eval_keeps (hc : call.Keeps) : (e : Expr) → Run.Keeps P (e.eval call i)
  | .literal _ => keeps_pure _
  | .group e => eval_keeps hc e
  | .unary _ _ e => keeps_bind (eval_keeps hc e) fun _ => result_keeps _ _ _
  | .binary _ _ l r => keeps_bind (eval_keeps hc l) fun _ => keeps_bind (eval_keeps hc r) fun _ => result_keeps _ _ _
  | .logical op l r => by
    refine keeps_bind (eval_keeps hc l) fun v => ?_
    by_cases hd : op.isDecidedBy v = true
    · rw [if_pos hd]
      exact keeps_pure v
    · rw [if_neg hd]
      exact eval_keeps hc r
  | .variable x => lookup_keeps x.text x.pos
  | .assign x e =>
    keeps_bind (eval_keeps hc e) fun v => keeps_bind (assign_keeps x v) fun _ => keeps_pure v
  | .call f es p =>
    keeps_bind (eval_keeps hc f) fun v => keeps_bind (evalAll_keeps hc es) fun vs => keeps_mono (hc v vs p)
  | .get o x => keeps_bind (eval_keeps hc o) fun v => getProperty_keeps v x
  | .set o x e => by
    refine keeps_bind (eval_keeps hc o) fun v => ?_
    cases v with
    | object c id =>
      refine keeps_bind (eval_keeps hc e) fun w => keeps_bind (keeps_modifyHeap fun h => ?_) fun _ => keeps_pure w
      exact Heap.sameNames_of_frames_eq rfl
    | nil | bool | number | string | function | classValue => exact keeps_fault _ _ _
  | .this p => lookup_keeps thisName p

theorem evalAll_keeps (hc : call.Keeps) : (es : List Expr) → Run.Keeps P (Expr.evalAll call i es)
  | [] => keeps_pure _
  | e :: es => keeps_bind (eval_keeps hc e) fun _ => keeps_bind (evalAll_keeps hc es) fun _ => keeps_pure _

end

theorem evalOption_keeps (hc : call.Keeps) (e : Option Expr) : Run.Keeps P (Expr.evalOption call i e) := by
  cases e with
  | none => exact keeps_pure _
  | some e => exact eval_keeps hc e

theorem iterate_keeps {test : Run Value} {body : Run Flow} (ht : Run.Keeps P test) (hb : Run.Keeps P body)
    (fuel : Nat) : Run.Keeps P (iterate test body fuel) := by
  induction fuel with
  | zero => exact keeps_exhausted
  | succ fuel ih =>
    refine keeps_bind ht fun v => ?_
    by_cases hv : v.truthy = true
    · rw [if_pos hv]
      refine keeps_bind hb fun flow => ?_
      cases flow with
      | next => exact ih
      | broke => exact keeps_pure _
      | returned w => exact keeps_pure _
    · rw [if_neg hv]
      exact keeps_pure _

/-- A declaration binds its name in the frame that it is run in. -/
theorem keeps_define (hi : P i) (x : Text) (v : Value) : Run.Keeps P (modifyHeap (·.define i x v)) :=
  keeps_modifyHeap fun _ => Heap.sameNames_define (.inl hi)

theorem keeps_nextSerial : Run.Keeps P (alloc Heap.nextSerial) :=
  keeps_alloc fun _ => Heap.sameNames_of_frames_eq rfl

variable {policy : Policy} {fuel : Nat}

mutual

/-- A statement that is no declaration adds no name to its frame, by induction on the statement. -/
theorem exec_keeps (hc : call.Keeps) : (s : Stmt) → ∀ {P : FrameId → Prop} {i : FrameId}, (P i ∨ s.Plain) →
    Run.Keeps P (s.exec policy call fuel i)
  | .expr e, _, _, _ => keeps_bind (eval_keeps hc e) fun _ => keeps_pure _
  | .print e, _, _, _ => keeps_bind (eval_keeps hc e) fun _ => keeps_bind (keeps_print _) fun _ => keeps_pure _
  | .var x e, P, i, hs => by
    have hi : P i := hs.resolve_right id
    exact keeps_bind (evalOption_keeps hc e) fun v => keeps_bind (keeps_define hi _ _) fun _ => keeps_pure _
  | .block ss, _, _, _ =>
    keeps_pushFrame fun _ => keeps_bind (keeps_log _ _ _) fun _ => execAll_keeps hc ss rfl
  | .ifThen e yes no, _, _, hs => by
    refine keeps_bind (eval_keeps hc e) fun v => ?_
    by_cases hv : v.truthy = true
    · rw [if_pos hv]
      exact exec_keeps hc yes (hs.imp_right And.left)
    · rw [if_neg hv]
      exact execOption_keeps hc no (hs.imp_right And.right)
  | .whileLoop e body, _, _, hs => iterate_keeps (eval_keeps hc e) (exec_keeps hc body hs) fuel
  | .function d, P, i, hs => by
    have hi : P i := hs.resolve_right id
    exact keeps_bind keeps_nextSerial fun n => keeps_bind (keeps_define hi _ _) fun _ => keeps_pure _
  | .returnValue _ e, _, _, _ => keeps_bind (evalOption_keeps hc e) fun _ => keeps_pure _
  | .breakLoop _, _, _, _ => keeps_pure _
  | .classDecl x ds, P, i, hs => by
    have hi : P i := hs.resolve_right id
    exact keeps_bind keeps_nextSerial fun n => keeps_bind (keeps_define hi _ _) fun _ => keeps_pure _

theorem execAll_keeps (hc : call.Keeps) : (ss : List Stmt) → ∀ {P : FrameId → Prop} {i : FrameId}, P i →
    Run.Keeps P (Stmt.execAll policy call fuel i ss)
  | [], _, _, _ => keeps_pure _
  | s :: ss, _, _, hi => by
    refine keeps_bind (exec_keeps hc s (.inl hi)) fun flow => ?_
    cases flow with
    | next => exact execAll_keeps hc ss hi
    | broke => exact keeps_pure _
    | returned v => exact keeps_pure _

theorem execOption_keeps (hc : call.Keeps) : (s : Option Stmt) → ∀ {P : FrameId → Prop} {i : FrameId},
    (P i ∨ Stmt.PlainOption s) → Run.Keeps P (Stmt.execOption policy call fuel i s)
  | none, _, _, _ => keeps_pure _
  | some s, _, _, hs => exec_keeps hc s hs

end

end eval

namespace Run

variable {policy : Policy} {body : FrameId → List Stmt → Run Flow}

/-- The body of a function adds names to its own frame only, which is new. -/
theorem enter_keeps (hb : ∀ j ss, Keeps (· = j) (body j ss)) (f : Closure) (args : List Value) :
    Keeps P (enter body policy f args) := by
  unfold enter
  cases bindParams f.decl.params args [] with
  | none => exact keeps_stuck
  | some vars =>
    apply keeps_pushFrame
    intro j
    refine keeps_bind (keeps_log _ _ _) fun _ => keeps_bind (hb j f.decl.body) fun flow => ?_
    extract_lets finish
    have hfinish (v : Value) : Keeps (· = j) (finish v) := by
      unfold finish
      by_cases hi : f.isInit = true
      · rw [if_pos hi]
        refine keeps_heap fun h => ?_
        cases (h.vars f.scope).get? thisName with
        | none => exact keeps_stuck
        | some self => exact keeps_pure self
      · rw [if_neg hi]
        exact keeps_pure v
    cases flow with
    | next => exact hfinish .nil
    | broke => exact keeps_stuck
    | returned v => exact hfinish v

theorem construct_keeps (hb : ∀ j ss, Keeps (· = j) (body j ss)) (c : Class) (args : List Value) :
    Keeps P (construct body policy c args) := by
  unfold construct
  refine keeps_bind (keeps_alloc fun h => Heap.sameNames_of_frames_eq rfl) fun id => ?_
  dsimp only
  cases c.method? initName with
  | none => exact keeps_pure _
  | some d =>
    exact keeps_bind (bind_keeps d c _) fun f => keeps_bind (enter_keeps hb f args) fun _ => keeps_pure _

theorem checkCall_keeps (depth : Nat) (v : Value) (args : List Value) (p : Pos) :
    Keeps P (checkCall policy depth v args p) := by
  unfold checkCall
  cases v.callable? with
  | none => exact keeps_fault _ _ _
  | some callee =>
    dsimp only
    by_cases hl : args.length ≠ callee.arity
    · rw [if_pos hl]
      exact keeps_fault _ _ _
    · rw [if_neg hl]
      by_cases hd : (!policy.allowsDepth (depth + 1)) = true
      · rw [if_pos hd]
        exact keeps_fault _ _ _
      · rw [if_neg hd]
        exact keeps_bind (keeps_log _ _ _) fun _ => keeps_pure callee

/-- A call runs a body in a frame of its own, by induction on the fuel. -/
theorem call_keeps (policy : Policy) (fuel depth : Nat) : Caller.Keeps (call policy fuel depth) := by
  induction fuel generalizing depth with
  | zero =>
    intro v vs p
    rw [call_eq]
    exact keeps_bind (checkCall_keeps _ _ _ _) fun _ => keeps_exhausted
  | succ fuel ih =>
    intro v vs p
    rw [call_eq]
    refine keeps_bind (checkCall_keeps _ _ _ _) fun callee => ?_
    have hb (j : FrameId) (ss : List Stmt) :
        Keeps (· = j) (Stmt.execAll policy (call policy fuel (depth + 1)) fuel j ss) :=
      execAll_keeps (ih (depth + 1)) ss rfl
    cases callee with
    | function f => exact enter_keeps hb f vs
    | classValue c => exact construct_keeps hb c vs

end Run
end Lox
