import Lox.Proofs.Heap.Chain
import Lox.Proofs.Run.CallSafe

/-! What a run looks up. Each time that a name is read or assigned to, the place of the name, the call that is open, the
frame and the heap are noted, in order. -/
namespace Lox

open Lox.Parser (Context)

/-- An open call: the function that was called, and the frame of its parameters. -/
structure Activation where
  function : Closure
  frame : FrameId

/-- A name that is looked up from a frame, in the body of a function or at the top level. -/
structure Reading where
  activation : Option Activation
  name : Name
  scope : FrameId
  heap : Heap

abbrev Reader := Value → List Value → Pos → Machine → List Reading

def Run.after {α : Type} (r : Run α) (k : α → Machine → List Reading) (m : Machine) : List Reading :=
  match r m with
  | .ok a m' => k a m'
  | .error _ _ => []

mutual

def Expr.readings (call : Caller) (reader : Reader) (a : Option Activation) (scope : FrameId) :
    Expr → Machine → List Reading
  | .literal _, _ => []
  | .group e, m => e.readings call reader a scope m
  | .unary _ _ e, m => e.readings call reader a scope m
  | .binary _ _ l r, m =>
    l.readings call reader a scope m ++
      (l.eval call scope).after (fun _ => r.readings call reader a scope) m
  | .logical op l r, m =>
    l.readings call reader a scope m ++
      (l.eval call scope).after
        (fun v m' => if op.isDecidedBy v then [] else r.readings call reader a scope m') m
  | .variable x, m => [⟨a, x, scope, m.heap⟩]
  | .assign x e, m =>
    e.readings call reader a scope m ++
      (e.eval call scope).after (fun _ m' => [⟨a, x, scope, m'.heap⟩]) m
  | .call f es paren, m =>
    f.readings call reader a scope m ++
      (f.eval call scope).after (fun v m' =>
        Expr.readingsAll call reader a scope es m' ++
          (Expr.evalAll call scope es).after (fun vs => reader v vs paren) m') m
  | .get o _, m => o.readings call reader a scope m
  | .set o _ e, m =>
    o.readings call reader a scope m ++
      (o.eval call scope).after (fun v m' => match v with
        | .object _ _ => e.readings call reader a scope m'
        | _ => []) m
  | .this p, m => [⟨a, ⟨thisName, p⟩, scope, m.heap⟩]

def Expr.readingsAll (call : Caller) (reader : Reader) (a : Option Activation) (scope : FrameId) :
    List Expr → Machine → List Reading
  | [], _ => []
  | e :: es, m =>
    e.readings call reader a scope m ++
      (e.eval call scope).after (fun _ => Expr.readingsAll call reader a scope es) m

end

def Expr.readingsOption (call : Caller) (reader : Reader) (a : Option Activation) (scope : FrameId) :
    Option Expr → Machine → List Reading
  | none, _ => []
  | some e, m => e.readings call reader a scope m

def Run.iterateReadings (test : Run Value) (body : Run Flow) (tests bodies : Machine → List Reading) :
    (fuel : Nat) → Machine → List Reading
  | 0, _ => []
  | fuel + 1, m =>
    tests m ++ test.after (fun v m' =>
      if v.truthy then
        bodies m' ++ body.after (fun flow m'' => match flow with
          | .next => iterateReadings test body tests bodies fuel m''
          | _ => []) m'
      else []) m

mutual

def Stmt.readings (policy : Policy) (call : Caller) (reader : Reader) (fuel : Nat) (a : Option Activation)
    (scope : FrameId) : Stmt → Machine → List Reading
  | .expr e, m => e.readings call reader a scope m
  | .print e, m => e.readings call reader a scope m
  | .var _ e, m => Expr.readingsOption call reader a scope e m
  | .block ss, m =>
    (Run.alloc (·.pushFrame scope [])).after (fun inner =>
      (Run.logBlock policy inner).after fun _ => Stmt.readingsAll policy call reader fuel a inner ss) m
  | .ifThen test yes no, m =>
    test.readings call reader a scope m ++
      (test.eval call scope).after (fun v m' =>
        if v.truthy then yes.readings policy call reader fuel a scope m'
        else Stmt.readingsOption policy call reader fuel a scope no m') m
  | .whileLoop test body, m =>
    Run.iterateReadings (test.eval call scope) (body.exec policy call fuel scope)
      (test.readings call reader a scope) (fun m' => body.readings policy call reader fuel a scope m') fuel m
  | .function _, _ => []
  | .returnValue _ e, m => Expr.readingsOption call reader a scope e m
  | .breakLoop _, _ => []
  | .classDecl _ _, _ => []

def Stmt.readingsAll (policy : Policy) (call : Caller) (reader : Reader) (fuel : Nat) (a : Option Activation)
    (scope : FrameId) : List Stmt → Machine → List Reading
  | [], _ => []
  | s :: ss, m =>
    s.readings policy call reader fuel a scope m ++
      (s.exec policy call fuel scope).after (fun flow m' => match flow with
        | .next => Stmt.readingsAll policy call reader fuel a scope ss m'
        | _ => []) m

def Stmt.readingsOption (policy : Policy) (call : Caller) (reader : Reader) (fuel : Nat) (a : Option Activation)
    (scope : FrameId) : Option Stmt → Machine → List Reading
  | none, _ => []
  | some s, m => s.readings policy call reader fuel a scope m

end

namespace Run

def enterReadings (body : Activation → List Stmt → Machine → List Reading) (policy : Policy) (f : Closure)
    (args : List Value) (m : Machine) : List Reading :=
  match bindParams f.decl.params args [] with
  | none => []
  | some vars =>
    (alloc (·.pushFrame f.scope vars)).after (fun scope =>
      (logBlock policy scope).after fun _ => body ⟨f, scope⟩ f.decl.body) m

def constructReadings (body : Activation → List Stmt → Machine → List Reading) (policy : Policy) (c : Class)
    (args : List Value) (m : Machine) : List Reading :=
  (alloc Heap.pushInstance).after (fun id m' =>
    match c.method? initName with
    | some decl => (bind decl c (.object c id)).after (fun f => enterReadings body policy f args) m'
    | none => []) m

def callReadings (policy : Policy) : (fuel : Nat) → (depth : Nat) → Reader
  | 0, _, _, _, _, _ => []
  | fuel + 1, depth, value, args, paren, m =>
    let body (a : Activation) : List Stmt → Machine → List Reading :=
      Stmt.readingsAll policy (call policy fuel (depth + 1)) (callReadings policy fuel (depth + 1)) fuel (some a)
        a.frame
    (checkCall policy depth value args paren).after (fun callee m' =>
      match callee with
      | .function f => enterReadings body policy f args m'
      | .classValue c => constructReadings body policy c args m') m

end Run
end Lox
