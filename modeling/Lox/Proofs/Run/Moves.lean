import Lox.Proofs.Heap.Moves
import Lox.Proofs.Run.Logic
import Lox.Session

/-! The moves that a run makes: each time that it changes the heap, in order. They are told along the structure of what
is run, as its value is, so that between two of them the heap is as the run finds it there. -/
namespace Lox

open Heap (Move)

abbrev Moves := Machine → List Move

abbrev Mover := Value → List Value → Pos → Moves

namespace Moves

variable {α : Type}

def none : Moves := fun _ => []

def one (move : Move) : Moves := fun _ => [move]

/-- The moves of the run `r`, and then of what follows it if it ends well. -/
def seq (r : Run α) (t : Moves) (k : α → Moves) : Moves := fun m =>
  t m ++ match r m with
    | .ok a n => k a n
    | .error _ _ => []

theorem seq_of_ok {r : Run α} {t : Moves} {k : α → Moves} {m n : Machine} {a : α} (hr : r m = .ok a n) :
    seq r t k m = t m ++ k a n := by
  unfold seq
  rw [hr]

theorem seq_of_error {r : Run α} {t : Moves} {k : α → Moves} {m n : Machine} {e : Halt} (hr : r m = .error e n) :
    seq r t k m = t m := by
  unfold seq
  rw [hr]
  exact List.append_nil _

theorem seq_none (r : Run α) (t : Moves) : seq r t (fun _ => none) = t := by
  funext m
  cases hr : r m with
  | ok a n =>
    rw [seq_of_ok hr]
    exact List.append_nil _
  | error e n => exact seq_of_error hr

end Moves

namespace Run

def assignMoves (scope : FrameId) (name : Name) (value : Value) : Moves := fun m =>
  match m.heap.resolve? name.text scope with
  | some (frame, _) => [.bind frame name.text value]
  | none => []

def bindMoves (c : Class) (self : Value) : Moves :=
  .seq (alloc (·.pushFrame c.scope [(thisName, self)])) (.one (.method c self)) fun _ => .one .serial

def propertyMoves (object : Value) (name : Name) : Moves := fun m =>
  match object with
  | .object c id =>
    match (m.heap.fields id).get? name.text, c.method? name.text with
    | none, some _ => bindMoves c object m
    | _, _ => []
  | _ => []

section reading

variable {m : Machine} {scope frame : FrameId} {c : Class} {id : InstanceId} {x : Name} {v w : Value}

/-- An assignment is one move, in the frame where the name is found. -/
theorem assignMoves_of_some (hres : m.heap.resolve? x.text scope = some (frame, w)) :
    assignMoves scope x v m = [.bind frame x.text v] := by
  unfold assignMoves
  simp only [hres]

theorem assignMoves_of_none (hres : m.heap.resolve? x.text scope = none) : assignMoves scope x v m = [] := by
  unfold assignMoves
  simp only [hres]

theorem propertyMoves_of_field (hv : (m.heap.fields id).get? x.text = some v) :
    propertyMoves (.object c id) x m = [] := by
  unfold propertyMoves
  simp only [hv]

theorem propertyMoves_of_method {d : FunctionDecl} (hv : (m.heap.fields id).get? x.text = none)
    (hd : c.method? x.text = some d) : propertyMoves (.object c id) x m = bindMoves c (.object c id) m := by
  unfold propertyMoves
  simp only [hv, hd]

theorem propertyMoves_of_none (hv : (m.heap.fields id).get? x.text = none) (hd : c.method? x.text = none) :
    propertyMoves (.object c id) x m = [] := by
  unfold propertyMoves
  simp only [hv, hd]

end reading

end Run

mutual

def Expr.moves (call : Caller) (mover : Mover) (scope : FrameId) : Expr → Moves
  | .literal _ => .none
  | .group e => e.moves call mover scope
  | .unary _ _ e => e.moves call mover scope
  | .binary _ _ l r => .seq (l.eval call scope) (l.moves call mover scope) fun _ => r.moves call mover scope
  | .logical op l r =>
    .seq (l.eval call scope) (l.moves call mover scope) fun v =>
      if op.isDecidedBy v then .none else r.moves call mover scope
  | .variable _ => .none
  | .assign x e => .seq (e.eval call scope) (e.moves call mover scope) fun v => Run.assignMoves scope x v
  | .call f es paren =>
    .seq (f.eval call scope) (f.moves call mover scope) fun v =>
      .seq (Expr.evalAll call scope es) (Expr.movesAll call mover scope es) fun vs => mover v vs paren
  | .get o x => .seq (o.eval call scope) (o.moves call mover scope) fun v => Run.propertyMoves v x
  | .set o x e =>
    .seq (o.eval call scope) (o.moves call mover scope) fun v => match v with
      | .object _ id => .seq (e.eval call scope) (e.moves call mover scope) fun u => .one (.field id x.text u)
      | _ => .none
  | .this _ => .none

def Expr.movesAll (call : Caller) (mover : Mover) (scope : FrameId) : List Expr → Moves
  | [] => .none
  | e :: es => .seq (e.eval call scope) (e.moves call mover scope) fun _ => Expr.movesAll call mover scope es

end

def Expr.movesOption (call : Caller) (mover : Mover) (scope : FrameId) : Option Expr → Moves
  | none => .none
  | some e => e.moves call mover scope

def Run.iterateMoves (test : Run Value) (body : Run Flow) (tests bodies : Moves) : (fuel : Nat) → Moves
  | 0 => .none
  | fuel + 1 =>
    .seq test tests fun v =>
      if v.truthy then
        .seq body bodies fun flow => match flow with
          | .next => iterateMoves test body tests bodies fuel
          | _ => .none
      else .none

mutual

def Stmt.moves (policy : Policy) (call : Caller) (mover : Mover) (fuel : Nat) (scope : FrameId) : Stmt → Moves
  | .expr e => e.moves call mover scope
  | .print e => e.moves call mover scope
  | .var x e =>
    .seq (Expr.evalOption call scope e) (Expr.movesOption call mover scope e) fun v => .one (.bind scope x.text v)
  | .block ss =>
    .seq (Run.alloc (·.pushFrame scope [])) (.one (.frame scope [])) fun inner =>
      .seq (Run.logBlock policy inner) .none fun _ => Stmt.movesAll policy call mover fuel inner ss
  | .ifThen test yes no =>
    .seq (test.eval call scope) (test.moves call mover scope) fun v =>
      if v.truthy then yes.moves policy call mover fuel scope
      else Stmt.movesOption policy call mover fuel scope no
  | .whileLoop test body =>
    Run.iterateMoves (test.eval call scope) (body.exec policy call fuel scope) (test.moves call mover scope)
      (body.moves policy call mover fuel scope) fuel
  | .function decl =>
    .seq (Run.alloc Heap.nextSerial) (.one .serial) fun serial =>
      .one (.bind scope decl.name.text (.function ⟨serial, decl, scope, false⟩))
  | .returnValue _ e => Expr.movesOption call mover scope e
  | .breakLoop _ => .none
  | .classDecl name methods =>
    .seq (Run.alloc Heap.nextSerial) (.one .serial) fun serial =>
      .one (.declare scope ⟨serial, name.text, scope, methods⟩)

def Stmt.movesAll (policy : Policy) (call : Caller) (mover : Mover) (fuel : Nat) (scope : FrameId) :
    List Stmt → Moves
  | [] => .none
  | s :: ss =>
    .seq (s.exec policy call fuel scope) (s.moves policy call mover fuel scope) fun flow => match flow with
      | .next => Stmt.movesAll policy call mover fuel scope ss
      | _ => .none

def Stmt.movesOption (policy : Policy) (call : Caller) (mover : Mover) (fuel : Nat) (scope : FrameId) :
    Option Stmt → Moves
  | none => .none
  | some s => s.moves policy call mover fuel scope

end

namespace Run

variable (moves : FrameId → List Stmt → Moves) (policy : Policy)

def enterMoves (f : Closure) (args : List Value) : Moves :=
  match bindParams f.decl.params args [] with
  | none => .none
  | some vars =>
    .seq (alloc (·.pushFrame f.scope vars)) (.one (.frame f.scope vars)) fun scope =>
      .seq (logBlock policy scope) .none fun _ => moves scope f.decl.body

def constructMoves (c : Class) (args : List Value) : Moves :=
  .seq (alloc Heap.pushInstance) (.one .object) fun id =>
    match c.method? initName with
    | some decl => .seq (bind decl c (.object c id)) (bindMoves c (.object c id)) fun f => enterMoves moves policy f args
    | none => .none

def invokeMoves (args : List Value) : Callable → Moves
  | .function f => enterMoves moves policy f args
  | .classValue c => constructMoves moves policy c args

def callMoves : (fuel : Nat) → (depth : Nat) → Mover
  | 0, _, _, _, _ => .none
  | fuel + 1, depth, value, args, paren =>
    .seq (checkCall policy depth value args paren) .none
      (invokeMoves (Stmt.movesAll policy (call policy fuel (depth + 1)) (callMoves fuel (depth + 1)) fuel) policy args)

end Run

namespace Session

def performMoves (policy : Policy) (fuel : Nat) : Action → List Stmt → Moves
  | .run, stmts | .eval, stmts =>
    Stmt.movesAll policy (Run.call policy fuel 0) (Run.callMoves policy fuel 0) fuel Heap.globalFrame stmts
  | .tree _, _ => .none

def moves (policy : Policy) (fuel : Nat) (heap : Heap) (action : Action) (source : Text) : List Move :=
  let program := Program.ofSource source
  if program.isValid then performMoves policy fuel action program.stmts (logResumed policy program ⟨heap, []⟩) else []

end Session
end Lox
