import Lox.Proofs.Run.Readings
import Lox.Session
import Mathlib.Algebra.Ring.Int.Defs

/-! A chronicle of a run. Each time that a call is opened or closed, a method is bound to an instance, the declaration
of a function is run, `this` is asked for or a variable gets a value, this is noted, in order. -/
namespace Lox

/-- Something that has happened in a run, and the heap at that moment. -/
inductive Note where
  /-- Something that can be called is about to be called, with as many arguments as it takes. -/
  | opened (callee : Callable) (paren : Pos) (heap : Heap)
  /-- The call that was opened in the heap `start` has come back with a value. -/
  | closed (callee : Callable) (start : Heap) (value : Value) (heap : Heap)
  /-- A method has become the function `f`, which knows the instance `self`. -/
  | bound (f : Closure) (self : Value) (heap : Heap)
  /-- The declaration of a function has made `f`, in the body of an open call or at the top level. -/
  | made (f : Closure) (maker : Option Activation) (heap : Heap)
  /-- `this` is about to be evaluated in a frame, in the body of an open call or at the top level. -/
  | asked (asker : Option Activation) (pos : Pos) (scope : FrameId) (heap : Heap)
  /-- A variable has got a value, by its declaration or by an assignment. -/
  | wrote (heap : Heap)

namespace Note

def change : Note → Int
  | opened .. => 1
  | closed .. => -1
  | _ => 0

/-- The number of calls that are open after what is noted. -/
def openCalls (notes : List Note) : Int := (notes.map change).sum

/-- A note of two runs in a row is a note of the first or of the second. -/
theorem place_of_append {xs ys before after : List Note} {x : Note} (heq : xs ++ ys = before ++ x :: after) :
    (∃ rest, xs = before ++ x :: rest ∧ after = rest ++ ys) ∨
      ∃ first, before = xs ++ first ∧ ys = first ++ x :: after := by
  rcases List.append_eq_append_iff.mp heq with ⟨first, hbefore, hys⟩ | ⟨rest, hxs, hrest⟩
  · exact .inr ⟨first, hbefore, hys⟩
  · cases rest with
    | nil => exact .inr ⟨[], by rw [hxs, List.append_nil, List.append_nil], hrest.symm⟩
    | cons y rest =>
      obtain ⟨rfl, hafter⟩ := List.cons.inj hrest
      exact .inl ⟨rest, hxs, hafter⟩

theorem place_of_singleton {before after : List Note} {x y : Note} (heq : [y] = before ++ x :: after) :
    before = [] ∧ x = y ∧ after = [] := by
  rcases List.append_eq_cons_iff.mp heq.symm with ⟨rfl, hx⟩ | ⟨rest, rfl, hrest⟩
  · obtain ⟨rfl, hafter⟩ := List.cons.inj hx
    exact ⟨rfl, rfl, hafter⟩
  · simp at hrest

end Note

abbrev Trace := Machine → List Note

abbrev Tracer := Value → List Value → Pos → Trace

namespace Trace

variable {α : Type}

def none : Trace := fun _ => []

def seq (r : Run α) (t : Trace) (k : α → Trace) : Trace := fun m =>
  t m ++ match r m with
    | .ok a n => k a n
    | .error _ _ => []

def behind (r : Run α) (note : α → Heap → Note) : Trace := seq r none fun a n => [note a n.heap]

theorem seq_none (r : Run α) (t : Trace) : seq r t (fun _ => none) = t := by
  funext m
  unfold seq
  cases r m with
  | ok a n => exact List.append_nil _
  | error e n => exact List.append_nil _

theorem seq_of_ok {r : Run α} {t : Trace} {k : α → Trace} {m n : Machine} {a : α} (hr : r m = .ok a n) :
    seq r t k m = t m ++ k a n := by
  unfold seq
  rw [hr]

theorem seq_of_error {r : Run α} {t : Trace} {k : α → Trace} {m n : Machine} {e : Halt} (hr : r m = .error e n) :
    seq r t k m = t m := by
  unfold seq
  rw [hr]
  exact List.append_nil _

/-- What is noted of a run that has ended well tells its result. -/
theorem mem_behind {r : Run α} {note : α → Heap → Note} {m : Machine} {x : Note} (hx : x ∈ behind r note m) :
    ∃ a n, r m = .ok a n ∧ x = note a n.heap := by
  cases hr : r m with
  | error e n =>
    unfold behind at hx
    rw [seq_of_error hr] at hx
    cases hx
  | ok a n =>
    unfold behind at hx
    rw [seq_of_ok hr] at hx
    exact ⟨a, n, rfl, List.mem_singleton.mp hx⟩

end Trace

namespace Run

def bindNotes (decl : FunctionDecl) (c : Class) (self : Value) : Trace :=
  .behind (bind decl c self) fun f => .bound f self

def propertyNotes (object : Value) (name : Name) : Trace := fun m =>
  match object with
  | .object c id =>
    match (m.heap.fields id).get? name.text, c.method? name.text with
    | none, some decl => bindNotes decl c object m
    | _, _ => []
  | _ => []

section property

variable {m : Machine} {c : Class} {id : InstanceId} {x : Name}

theorem propertyNotes_of_field {v : Value} (hv : (m.heap.fields id).get? x.text = some v) :
    propertyNotes (.object c id) x m = [] := by
  unfold propertyNotes
  simp only [hv]

theorem propertyNotes_of_method {d : FunctionDecl} (hv : (m.heap.fields id).get? x.text = none)
    (hd : c.method? x.text = some d) :
    propertyNotes (.object c id) x m = bindNotes d c (.object c id) m := by
  unfold propertyNotes
  simp only [hv, hd]

theorem propertyNotes_of_none (hv : (m.heap.fields id).get? x.text = none) (hd : c.method? x.text = none) :
    propertyNotes (.object c id) x m = [] := by
  unfold propertyNotes
  simp only [hv, hd]

end property

end Run

mutual

def Expr.notes (call : Caller) (tracer : Tracer) (a : Option Activation) (scope : FrameId) : Expr → Trace
  | .literal _ => .none
  | .group e => e.notes call tracer a scope
  | .unary _ _ e => e.notes call tracer a scope
  | .binary _ _ l r =>
    .seq (l.eval call scope) (l.notes call tracer a scope) fun _ => r.notes call tracer a scope
  | .logical op l r =>
    .seq (l.eval call scope) (l.notes call tracer a scope) fun v =>
      if op.isDecidedBy v then .none else r.notes call tracer a scope
  | .variable _ => .none
  | .assign x e =>
    .seq (e.eval call scope) (e.notes call tracer a scope) fun v => .behind (Run.assign scope x v) fun _ => .wrote
  | .call f es paren =>
    .seq (f.eval call scope) (f.notes call tracer a scope) fun v =>
      .seq (Expr.evalAll call scope es) (Expr.notesAll call tracer a scope es) fun vs => tracer v vs paren
  | .get o x => .seq (o.eval call scope) (o.notes call tracer a scope) fun v => Run.propertyNotes v x
  | .set o _ e =>
    .seq (o.eval call scope) (o.notes call tracer a scope) fun v => match v with
      | .object _ _ => e.notes call tracer a scope
      | _ => .none
  | .this pos => fun m => [.asked a pos scope m.heap]

def Expr.notesAll (call : Caller) (tracer : Tracer) (a : Option Activation) (scope : FrameId) : List Expr → Trace
  | [] => .none
  | e :: es =>
    .seq (e.eval call scope) (e.notes call tracer a scope) fun _ => Expr.notesAll call tracer a scope es

end

def Expr.notesOption (call : Caller) (tracer : Tracer) (a : Option Activation) (scope : FrameId) :
    Option Expr → Trace
  | none => .none
  | some e => e.notes call tracer a scope

def Run.iterateNotes (test : Run Value) (body : Run Flow) (tests bodies : Trace) : (fuel : Nat) → Trace
  | 0 => .none
  | fuel + 1 =>
    .seq test tests fun v =>
      if v.truthy then
        .seq body bodies fun flow => match flow with
          | .next => iterateNotes test body tests bodies fuel
          | _ => .none
      else .none

mutual

def Stmt.notes (policy : Policy) (call : Caller) (tracer : Tracer) (fuel : Nat) (a : Option Activation)
    (scope : FrameId) : Stmt → Trace
  | .expr e => e.notes call tracer a scope
  | .print e => e.notes call tracer a scope
  | .var x e =>
    .seq (Expr.evalOption call scope e) (Expr.notesOption call tracer a scope e) fun v =>
      .behind (Run.modifyHeap (·.define scope x.text v)) fun _ => .wrote
  | .block ss =>
    .seq (Run.alloc (·.pushFrame scope [])) .none fun inner =>
      .seq (Run.logBlock policy inner) .none fun _ => Stmt.notesAll policy call tracer fuel a inner ss
  | .ifThen test yes no =>
    .seq (test.eval call scope) (test.notes call tracer a scope) fun v =>
      if v.truthy then yes.notes policy call tracer fuel a scope
      else Stmt.notesOption policy call tracer fuel a scope no
  | .whileLoop test body =>
    Run.iterateNotes (test.eval call scope) (body.exec policy call fuel scope) (test.notes call tracer a scope)
      (body.notes policy call tracer fuel a scope) fuel
  | .function decl =>
    .seq (Run.alloc Heap.nextSerial) .none fun serial =>
      .behind (Run.modifyHeap (·.define scope decl.name.text (.function ⟨serial, decl, scope, false⟩))) fun _ =>
        .made ⟨serial, decl, scope, false⟩ a
  | .returnValue _ e => Expr.notesOption call tracer a scope e
  | .breakLoop _ => .none
  | .classDecl name methods =>
    .seq (Run.alloc Heap.nextSerial) .none fun serial =>
      .behind (Run.modifyHeap (·.define scope name.text (.classValue ⟨serial, name.text, scope, methods⟩))) fun _ =>
        .wrote

def Stmt.notesAll (policy : Policy) (call : Caller) (tracer : Tracer) (fuel : Nat) (a : Option Activation)
    (scope : FrameId) : List Stmt → Trace
  | [] => .none
  | s :: ss =>
    .seq (s.exec policy call fuel scope) (s.notes policy call tracer fuel a scope) fun flow => match flow with
      | .next => Stmt.notesAll policy call tracer fuel a scope ss
      | _ => .none

def Stmt.notesOption (policy : Policy) (call : Caller) (tracer : Tracer) (fuel : Nat) (a : Option Activation)
    (scope : FrameId) : Option Stmt → Trace
  | none => .none
  | some s => s.notes policy call tracer fuel a scope

end

theorem notesAll_singleton {policy : Policy} {call : Caller} {tracer : Tracer} {fuel : Nat} {a : Option Activation}
    {i : FrameId} (s : Stmt) :
    Stmt.notesAll policy call tracer fuel a i [s] = s.notes policy call tracer fuel a i := by
  funext m
  cases hs : s.exec policy call fuel i m with
  | ok flow n =>
    apply (Trace.seq_of_ok hs).trans
    cases flow with
    | next | broke | returned => exact List.append_nil _
  | error e n => exact Trace.seq_of_error hs

def Value.takes? (value : Value) (args : List Value) : Option Callable :=
  value.callable?.filter fun callee => args.length = callee.arity

namespace Run

section check

variable {value : Value} {args : List Value} {paren : Pos} {callee : Callable}

/-- Without anything to call, or with a wrong number of arguments, a call is a fault under all policies. -/
theorem checkCall_of_none (h : value.takes? args = none) : ∃ cause, cause ≠ .stackOverflow ∧
    ∀ policy depth, checkCall policy depth value args paren = fault cause Punct.rightParen.spelling paren := by
  unfold Value.takes? at h
  unfold checkCall
  cases hv : value.callable? with
  | none => exact ⟨.notCallable, nofun, fun _ _ => rfl⟩
  | some callee =>
    have hl : args.length ≠ callee.arity := by
      intro hl
      simp [hv, hl] at h
    refine ⟨.wrongArity callee.arity args.length, nofun, fun policy depth => ?_⟩
    dsimp only
    rw [if_pos hl]

/-- Otherwise the policy decides. -/
theorem checkCall_of_some (h : value.takes? args = some callee) (policy : Policy) (depth : Nat) :
    checkCall policy depth value args paren =
      if policy.allowsDepth (depth + 1) then logCall policy callee (depth + 1) paren >>= fun _ => pure callee
      else fault .stackOverflow Punct.rightParen.spelling paren := by
  obtain ⟨hv, hl⟩ := Option.filter_eq_some_iff.mp h
  have hlength : ¬ args.length ≠ callee.arity := by simpa using hl
  unfold checkCall
  rw [hv]
  dsimp only
  rw [if_neg hlength]
  cases policy.allowsDepth (depth + 1) with
  | true => rfl
  | false => rfl

end check

variable (body : FrameId → List Stmt → Run Flow) (notes : Activation → List Stmt → Trace) (policy : Policy)

def enterNotes (f : Closure) (args : List Value) : Trace :=
  match bindParams f.decl.params args [] with
  | none => .none
  | some vars =>
    .seq (alloc (·.pushFrame f.scope vars)) .none fun scope =>
      .seq (logBlock policy scope) .none fun _ => notes ⟨f, scope⟩ f.decl.body

def constructNotes (c : Class) (args : List Value) : Trace :=
  .seq (alloc Heap.pushInstance) .none fun id =>
    match c.method? initName with
    | some decl =>
      .seq (bind decl c (.object c id)) (bindNotes decl c (.object c id)) fun f => enterNotes notes policy f args
    | none => .none

def invokeNotes (args : List Value) : Callable → Trace
  | .function f => enterNotes notes policy f args
  | .classValue c => constructNotes notes policy c args

/-- What is noted of a call that carries out `run`. It is opened if it can be, even if the policy refuses it, and closed
when what is called has ended well. -/
def aroundNotes (depth : Nat) (run : Callable → Run Value) (inner : Callable → Trace) : Tracer :=
  fun value args paren m =>
    match value.takes? args with
    | none => []
    | some callee => .opened callee paren m.heap :: Trace.seq (checkCall policy depth value args paren) .none (fun _ =>
        .seq (run callee) (inner callee) fun v n => [.closed callee m.heap v n.heap]) m

def callNotes : (fuel : Nat) → (depth : Nat) → Tracer
  | 0, depth, value, args, paren => aroundNotes policy depth (fun _ => exhausted) (fun _ => .none) value args paren
  | fuel + 1, depth, value, args, paren =>
    let notes (a : Activation) : List Stmt → Trace :=
      Stmt.notesAll policy (call policy fuel (depth + 1)) (callNotes fuel (depth + 1)) fuel (some a) a.frame
    aroundNotes policy depth (invoke (Stmt.execAll policy (call policy fuel (depth + 1)) fuel) policy args)
      (invokeNotes notes policy args) value args paren

end Run

namespace Session

def performNotes (policy : Policy) (fuel : Nat) : Action → List Stmt → Trace
  | .run, stmts | .eval, stmts =>
    Stmt.notesAll policy (Run.call policy fuel 0) (Run.callNotes policy fuel 0) fuel none Heap.globalFrame stmts
  | .tree _, _ => .none

def notes (policy : Policy) (fuel : Nat) (heap : Heap) (action : Action) (source : Text) : List Note :=
  let program := Program.ofSource source
  if program.isValid then performNotes policy fuel action program.stmts (logResumed policy program ⟨heap, []⟩) else []

theorem performNotes_expr (policy : Policy) (fuel : Nat) (e : Expr) : performNotes policy fuel .eval [.expr e] =
    e.notes (Run.call policy fuel 0) (Run.callNotes policy fuel 0) none Heap.globalFrame :=
  notesAll_singleton (.expr e)

theorem notes_of_isValid {source : Text} (policy : Policy) (fuel : Nat) (heap : Heap) (action : Action)
    (hv : (Program.ofSource source).isValid = true) : notes policy fuel heap action source =
      performNotes policy fuel action (Program.ofSource source).stmts
        (logResumed policy (Program.ofSource source) ⟨heap, []⟩) :=
  if_pos hv

theorem notes_of_invalid {source : Text} (policy : Policy) (fuel : Nat) (heap : Heap) (action : Action)
    (hv : ¬ (Program.ofSource source).isValid = true) : notes policy fuel heap action source = [] :=
  if_neg hv

end Session
end Lox
