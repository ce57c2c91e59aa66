import Lox.Proofs.Heap.Ungrouped
import Lox.Proofs.Run.Logic

/-! Parentheses make no difference to a run. A run without them, from a heap without them, is the image of the run with
them: it writes the same, ends in the same way, and leaves the same heap without its parentheses. -/
namespace Lox

variable {α β γ δ : Type}

def Machine.ungroup (m : Machine) : Machine := { m with heap := m.heap.ungroup }

def Flow.ungroup : Flow → Flow
  | next => next
  | broke => broke
  | returned v => returned v.ungroup

namespace Run

def image (f : α → β) : EStateM.Result Halt Machine α → EStateM.Result Halt Machine β
  | .ok a m => .ok (f a) m.ungroup
  | .error e m => .error e m.ungroup

/-- From a heap without parentheses the second run is the image of the first. -/
def Mirrors (f : α → β) (r : Run α) (r' : Run β) : Prop := ∀ m, r' m.ungroup = image f (r m)

/-! ### Rules -/

section rules

variable {f : α → β} {g : γ → δ}

theorem mirrors_bind {r : Run α} {r' : Run β} {k : α → Run γ} {k' : β → Run δ} (hr : Mirrors f r r')
    (hk : ∀ a, Mirrors g (k a) (k' (f a))) : Mirrors g (r >>= k) (r' >>= k') := by
  intro m
  rw [bind_eq_match, bind_eq_match, hr m]
  cases r m with
  | ok a n => exact hk a n
  | error e n => rfl

theorem mirrors_pure (a : α) : Mirrors f (pure a) (pure (f a)) := fun _ => rfl

theorem mirrors_fault (cause : Fault.Cause) (token : Text) (pos : Pos) :
    Mirrors f (fault cause token pos) (fault cause token pos) := fun _ => rfl

theorem mirrors_stuck : Mirrors f stuck stuck := fun _ => rfl

theorem mirrors_exhausted : Mirrors f exhausted exhausted := fun _ => rfl

theorem mirrors_heap : Mirrors Heap.ungroup heap heap := fun _ => rfl

theorem mirrors_modifyHeap {k k' : Heap → Heap} (hk : ∀ h : Heap, k' h.ungroup = (k h).ungroup) :
    Mirrors id (modifyHeap k) (modifyHeap k') := by
  intro m
  change EStateM.Result.ok () (Machine.mk (k' m.heap.ungroup) m.events) = _
  rw [hk]
  rfl

/-- A change to the heap that commutes with taking out parentheses. -/
theorem mirrors_alloc {k k' : Heap → Nat × Heap} (hk : ∀ h : Heap, k' h.ungroup = ((k h).1, (k h).2.ungroup)) :
    Mirrors id (alloc k) (alloc k') := by
  intro m
  change EStateM.Result.ok (k' m.heap.ungroup).1 (Machine.mk (k' m.heap.ungroup).2 m.events) = _
  rw [hk]
  rfl

theorem mirrors_print (line : Text) : Mirrors id (print line) (print line) := fun _ => rfl

theorem mirrors_log {policy : Policy} {severity : Severity} {entry entry' : Heap → LogEntry}
    (he : ∀ h : Heap, entry' h.ungroup = entry h) :
    Mirrors id (log policy severity entry) (log policy severity entry') := by
  intro m
  unfold log Machine.log
  split
  · rw [show entry' m.ungroup.heap = entry m.heap from he m.heap]
    rfl
  · rfl

end rules

/-! ### Names and properties -/

variable {policy : Policy} {fuel : Nat} {i : FrameId}

theorem mirrors_pushFrame (i : FrameId) (vars : Bindings Value) :
    Mirrors id (alloc (·.pushFrame i vars)) (alloc (·.pushFrame i vars.ungroup)) :=
  mirrors_alloc fun h => pushFrame_ungroup h i vars

theorem mirrors_nextSerial : Mirrors id (alloc Heap.nextSerial) (alloc Heap.nextSerial) := mirrors_alloc fun _ => rfl

theorem mirrors_define (i : FrameId) (x : Text) (v : Value) :
    Mirrors id (modifyHeap (·.define i x v)) (modifyHeap (·.define i x v.ungroup)) :=
  mirrors_modifyHeap fun h => (define_ungroup h i x v).symm

theorem lookup_mirrors (i : FrameId) (x : Text) (pos : Pos) :
    Mirrors Value.ungroup (lookup i x pos) (lookup i x pos) := by
  apply mirrors_bind mirrors_heap
  intro h
  rw [heap_get?_ungroup]
  cases h.get? i x with
  | some v => exact mirrors_pure v
  | none => exact mirrors_fault _ _ _

theorem assign_mirrors (i : FrameId) (x : Name) (v : Value) :
    Mirrors id (assign i x v) (assign i x v.ungroup) := by
  apply mirrors_bind mirrors_heap
  intro h
  rw [resolve?_ungroup]
  cases h.resolve? x.text i with
  | some found => exact mirrors_define found.1 x.text v
  | none => exact mirrors_fault _ _ _

theorem bind_mirrors (d : FunctionDecl) (c : Class) (self : Value) :
    Mirrors Closure.ungroup (bind d c self) (bind (Stmt.ungroupDecl d) c.ungroup self.ungroup) := by
  apply mirrors_bind (mirrors_pushFrame c.scope [(thisName, self)])
  intro scope
  apply mirrors_bind mirrors_nextSerial
  intro serial
  rw [name_ungroupDecl]
  exact mirrors_pure (Closure.mk serial d scope (d.name.text = initName))

theorem getProperty_mirrors (v : Value) (x : Name) :
    Mirrors Value.ungroup (getProperty v x) (getProperty v.ungroup x) := by
  cases v with
  | nil | bool | number | string | function | classValue => exact mirrors_fault _ _ _
  | object c id =>
    apply mirrors_bind mirrors_heap
    intro h
    rw [fields_ungroup, get?_ungroup]
    -- a field comes before a method of the same name
    cases (h.fields id).get? x.text with
    | some w => exact mirrors_pure w
    | none =>
      rw [method?_ungroup]
      cases c.method? x.text with
      | some d =>
        change Mirrors Value.ungroup (Value.function <$> bind d c (.object c id))
          (Value.function <$> bind (Stmt.ungroupDecl d) c.ungroup (Value.object c id).ungroup)
        rw [map_eq_pure_bind, map_eq_pure_bind]
        exact mirrors_bind (bind_mirrors d c _) fun f => mirrors_pure (Value.function f)
      | none => exact mirrors_fault _ _ _

/-! ### Operators -/

theorem unary_apply_ungroup (op : UnaryOp) (v : Value) : op.apply v.ungroup = (op.apply v).map Value.ungroup := by
  cases op with
  | not =>
    change Except.ok (Value.bool !v.ungroup.truthy) = _
    rw [truthy_ungroup]
    rfl
  | negate => cases v <;> rfl

/-- Two numbers or two strings have no parentheses in them, and of other values only equality can be asked. -/
theorem binary_apply_ungroup (op : BinaryOp) (v w : Value) :
    op.apply v.ungroup w.ungroup = (op.apply v w).map Value.ungroup := by
  cases op with
  | equal =>
    change Except.ok (Value.bool (v.ungroup.equal w.ungroup)) = _
    rw [equal_ungroup]
    rfl
  | notEqual =>
    change Except.ok (Value.bool !(v.ungroup.equal w.ungroup)) = _
    rw [equal_ungroup]
    rfl
  | greater | greaterEqual | less | lessEqual | add | subtract | multiply | divide =>
    cases v with
    | number | string => cases w <;> rfl
    | nil | bool | function | classValue | object => rfl

theorem result_mirrors (token : Text) (pos : Pos) (a : Except Fault.Cause Value) :
    Mirrors Value.ungroup (result token pos a) (result token pos (a.map Value.ungroup)) := by
  cases a with
  | ok v => exact mirrors_pure v
  | error cause => exact mirrors_fault _ _ _

theorem isDecidedBy_ungroup (op : LogicalOp) (v : Value) : op.isDecidedBy v.ungroup = op.isDecidedBy v := by
  cases op <;> simp only [LogicalOp.isDecidedBy, truthy_ungroup]

end Run

/-! ### Expressions -/

open Run

def Caller.Mirrors (call : Caller) : Prop :=
  ∀ v vs p, Run.Mirrors Value.ungroup (call v vs p) (call v.ungroup (vs.map Value.ungroup) p)

section exec

variable {policy : Policy} {call : Caller} {fuel : Nat}

mutual

/-- An expression without parentheses has the same value, by induction on the expression. -/
theorem eval_mirrors (hc : call.Mirrors) (i : FrameId) : (e : Expr) →
    Run.Mirrors Value.ungroup (e.eval call i) (e.ungroup.eval call i)
  | .literal a => by
    have hvalue := mirrors_pure (f := Value.ungroup) (Value.ofLiteral a)
    rw [ofLiteral_ungroup] at hvalue
    exact hvalue
  -- a group is run as what it holds
  | .group e => by
    have hinner : Run.Mirrors Value.ungroup (e.eval call i) (e.ungroup.eval call i) := eval_mirrors hc i e
    exact hinner
  | .unary op p e => by
    apply mirrors_bind (eval_mirrors hc i e)
    intro v
    rw [unary_apply_ungroup]
    exact result_mirrors _ _ _
  | .binary op p l r => by
    apply mirrors_bind (eval_mirrors hc i l)
    intro v
    apply mirrors_bind (eval_mirrors hc i r)
    intro w
    rw [binary_apply_ungroup]
    exact result_mirrors _ _ _
  | .logical op l r => by
    apply mirrors_bind (eval_mirrors hc i l)
    intro v
    rw [isDecidedBy_ungroup]
    split
    · exact mirrors_pure v
    · exact eval_mirrors hc i r
  | .variable x => lookup_mirrors i x.text x.pos
  | .assign x e => by
    apply mirrors_bind (eval_mirrors hc i e)
    intro v
    exact mirrors_bind (assign_mirrors i x v) fun _ => mirrors_pure v
  | .call f es p => by
    apply mirrors_bind (eval_mirrors hc i f)
    intro v
    exact mirrors_bind (evalAll_mirrors hc i es) fun vs => hc v vs p
  | .get o x => mirrors_bind (eval_mirrors hc i o) fun v => getProperty_mirrors v x
  | .set o x e => by
    apply mirrors_bind (eval_mirrors hc i o)
    intro v
    cases v with
    | nil | bool | number | string | function | classValue => exact mirrors_fault _ _ _
    | object c id =>
      apply mirrors_bind (eval_mirrors hc i e)
      intro w
      apply mirrors_bind (mirrors_modifyHeap fun h => (setField_ungroup h x.text w id).symm)
      exact fun _ => mirrors_pure w
  | .this p => lookup_mirrors i thisName p

theorem evalAll_mirrors (hc : call.Mirrors) (i : FrameId) : (es : List Expr) →
    Run.Mirrors (List.map Value.ungroup) (Expr.evalAll call i es) (Expr.evalAll call i (Expr.ungroupAll es))
  | [] => mirrors_pure []
  | e :: es => by
    apply mirrors_bind (eval_mirrors hc i e)
    intro v
    exact mirrors_bind (evalAll_mirrors hc i es) fun vs => mirrors_pure (v :: vs)

end

theorem evalOption_mirrors (hc : call.Mirrors) (i : FrameId) (e : Option Expr) :
    Run.Mirrors Value.ungroup (Expr.evalOption call i e) (Expr.evalOption call i (e.map Expr.ungroup)) := by
  cases e with
  | none => exact mirrors_pure Value.nil
  | some e => exact eval_mirrors hc i e

/-! ### Statements -/

theorem iterate_mirrors {test test' : Run Value} {body body' : Run Flow} (ht : Mirrors Value.ungroup test test')
    (hb : Mirrors Flow.ungroup body body') (fuel : Nat) :
    Mirrors Flow.ungroup (iterate test body fuel) (iterate test' body' fuel) := by
  induction fuel with
  | zero => exact mirrors_exhausted
  | succ fuel ih =>
    apply mirrors_bind ht
    intro v
    rw [truthy_ungroup]
    split
    · apply mirrors_bind hb
      intro flow
      cases flow with
      | next => exact ih
      | broke => exact mirrors_pure Flow.next
      | returned w => exact mirrors_pure (Flow.returned w)
    · exact mirrors_pure Flow.next

theorem logBlock_mirrors (i : FrameId) : Mirrors id (logBlock policy i) (logBlock policy i) := by
  apply mirrors_log
  intro h
  rw [depth_ungroup]

mutual

/-- A statement without parentheses does the same, by induction on the statement. -/
theorem exec_mirrors (hc : call.Mirrors) : (i : FrameId) → (s : Stmt) →
    Run.Mirrors Flow.ungroup (s.exec policy call fuel i) (s.ungroup.exec policy call fuel i)
  | i, .expr e => mirrors_bind (eval_mirrors hc i e) fun _ => mirrors_pure Flow.next
  | i, .print e => by
    apply mirrors_bind (eval_mirrors hc i e)
    intro v
    rw [toText_ungroup]
    exact mirrors_bind (mirrors_print v.toText) fun _ => mirrors_pure Flow.next
  | i, .var x e => by
    apply mirrors_bind (evalOption_mirrors hc i e)
    intro v
    exact mirrors_bind (mirrors_define i x.text v) fun _ => mirrors_pure Flow.next
  | i, .block ss => by
    apply mirrors_bind (mirrors_pushFrame i [])
    intro inner
    exact mirrors_bind (logBlock_mirrors inner) fun _ => execAll_mirrors hc inner ss
  | i, .ifThen e yes no => by
    apply mirrors_bind (eval_mirrors hc i e)
    intro v
    rw [truthy_ungroup]
    split
    · exact exec_mirrors hc i yes
    · exact execOption_mirrors hc i no
  | i, .whileLoop e body => iterate_mirrors (eval_mirrors hc i e) (exec_mirrors hc i body) fuel
  | i, .function ⟨x, ps, body⟩ => by
    apply mirrors_bind mirrors_nextSerial
    intro serial
    apply mirrors_bind (mirrors_define i x.text (.function ⟨serial, ⟨x, ps, body⟩, i, false⟩))
    exact fun _ => mirrors_pure Flow.next
  | i, .returnValue _ e => by
    apply mirrors_bind (evalOption_mirrors hc i e)
    intro v
    exact mirrors_pure (Flow.returned v)
  | i, .breakLoop _ => mirrors_pure Flow.broke
  | i, .classDecl x ds => by
    apply mirrors_bind mirrors_nextSerial
    intro serial
    apply mirrors_bind (mirrors_define i x.text (.classValue ⟨serial, x.text, i, ds⟩))
    exact fun _ => mirrors_pure Flow.next

theorem execAll_mirrors (hc : call.Mirrors) : (i : FrameId) → (ss : List Stmt) →
    Run.Mirrors Flow.ungroup (Stmt.execAll policy call fuel i ss) (Stmt.execAll policy call fuel i (Stmt.ungroupAll ss))
  | i, [] => mirrors_pure Flow.next
  | i, s :: ss => by
    apply mirrors_bind (exec_mirrors hc i s)
    intro flow
    cases flow with
    | next => exact execAll_mirrors hc i ss
    | broke => exact mirrors_pure Flow.broke
    | returned v => exact mirrors_pure (Flow.returned v)

theorem execOption_mirrors (hc : call.Mirrors) : (i : FrameId) → (s : Option Stmt) →
    Run.Mirrors Flow.ungroup (Stmt.execOption policy call fuel i s)
      (Stmt.execOption policy call fuel i (Stmt.ungroupOption s))
  | i, none => mirrors_pure Flow.next
  | i, some s => by
    have hsome : Run.Mirrors Flow.ungroup (s.exec policy call fuel i) (s.ungroup.exec policy call fuel i) :=
      exec_mirrors hc i s
    exact hsome

end

end exec

/-! ### Calls -/

namespace Run

def BodyMirrors (body : FrameId → List Stmt → Run Flow) : Prop :=
  ∀ i ss, Mirrors Flow.ungroup (body i ss) (body i (Stmt.ungroupAll ss))

variable {policy : Policy} {body : FrameId → List Stmt → Run Flow}

theorem bindParams_ungroup (ps : List Name) (args : List Value) (vars : Bindings Value) :
    bindParams ps (args.map Value.ungroup) vars.ungroup = (bindParams ps args vars).map Bindings.ungroup := by
  induction ps generalizing args vars with
  | nil => rfl
  | cons p ps ih =>
    cases args with
    | nil => rfl
    | cons a args =>
      rw [List.map_cons, bindParams, bindParams, ← insert_ungroup]
      exact ih args _

/-- A function without parentheses does the same. -/
theorem enter_mirrors (hbody : BodyMirrors body) (f : Closure) (args : List Value) :
    Mirrors Value.ungroup (enter body policy f args) (enter body policy f.ungroup (args.map Value.ungroup)) := by
  have hvars : bindParams f.ungroup.decl.params (args.map Value.ungroup) [] =
      (bindParams f.decl.params args []).map Bindings.ungroup := by
    rw [← bindParams_ungroup, ← params_ungroupDecl f.decl]
    rfl
  have hrun (scope : FrameId) : Mirrors Flow.ungroup (body scope f.decl.body) (body scope f.ungroup.decl.body) := by
    have hdecl := hbody scope f.decl.body
    rw [← body_ungroupDecl] at hdecl
    exact hdecl
  unfold enter
  rw [hvars]
  cases bindParams f.decl.params args [] with
  | none => exact mirrors_stuck
  | some vars =>
    apply mirrors_bind (mirrors_pushFrame f.scope vars)
    intro scope
    apply mirrors_bind (logBlock_mirrors scope)
    intro _
    apply mirrors_bind (hrun scope)
    intro flow
    extract_lets finish finish'
    have hfinish (v : Value) : Mirrors Value.ungroup (finish v) (finish' v.ungroup) := by
      change Mirrors Value.ungroup (if f.isInit then _ else _) (if f.isInit then _ else _)
      split
      -- an initializer gives its instance, whatever its body returns
      · apply mirrors_bind mirrors_heap
        intro h
        have hself : (h.ungroup.vars f.ungroup.scope).get? thisName =
            ((h.vars f.scope).get? thisName).map Value.ungroup := by
          rw [← get?_ungroup, ← vars_ungroup]
          rfl
        rw [hself]
        cases (h.vars f.scope).get? thisName with
        | some self => exact mirrors_pure self
        | none => exact mirrors_stuck
      · exact mirrors_pure v
    cases flow with
    | next => exact hfinish .nil
    | broke => exact mirrors_stuck
    | returned v => exact hfinish v

theorem construct_mirrors (hbody : BodyMirrors body) (c : Class) (args : List Value) :
    Mirrors Value.ungroup (construct body policy c args)
      (construct body policy c.ungroup (args.map Value.ungroup)) := by
  apply mirrors_bind (mirrors_alloc pushInstance_ungroup)
  intro id
  dsimp only
  rw [method?_ungroup]
  cases c.method? initName with
  | none => exact mirrors_pure (Value.object c id)
  | some d =>
    apply mirrors_bind (bind_mirrors d c (.object c id))
    intro init
    exact mirrors_bind (enter_mirrors hbody init args) fun _ => mirrors_pure (Value.object c id)

theorem checkCall_mirrors (depth : Nat) (v : Value) (args : List Value) (p : Pos) :
    Mirrors Callable.ungroup (checkCall policy depth v args p)
      (checkCall policy depth v.ungroup (args.map Value.ungroup) p) := by
  unfold checkCall
  rw [callable?_ungroup]
  cases v.callable? with
  | none => exact mirrors_fault _ _ _
  | some callee =>
    dsimp only [Option.map_some]
    rw [callable_arity_ungroup, List.length_map]
    split
    · exact mirrors_fault _ _ _
    · split
      · exact mirrors_fault _ _ _
      · apply mirrors_bind (f := id)
        · apply mirrors_log
          intro h
          rw [toText_toValue_ungroup]
        · exact fun _ => mirrors_pure callee

/-- Parentheses make no difference to calls, by induction on the fuel. -/
theorem call_mirrors (policy : Policy) (fuel depth : Nat) : Caller.Mirrors (call policy fuel depth) := by
  induction fuel generalizing depth with
  | zero =>
    intro v vs p
    rw [call_eq, call_eq]
    exact mirrors_bind (checkCall_mirrors depth v vs p) fun _ => mirrors_exhausted
  | succ fuel ih =>
    intro v vs p
    rw [call_eq, call_eq]
    apply mirrors_bind (checkCall_mirrors depth v vs p)
    intro callee
    have hbody : BodyMirrors (Stmt.execAll policy (call policy fuel (depth + 1)) fuel) :=
      execAll_mirrors (ih (depth + 1))
    cases callee with
    | function f => exact enter_mirrors hbody f vs
    | classValue c => exact construct_mirrors hbody c vs

end Run

end Lox
