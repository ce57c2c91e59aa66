import Lox.Program
import Lox.Run.Eval
import Lox.Syntax.Render

/-! Sessions: sources that are run one after the other against the same global variables. -/
namespace Lox

/-- What is done with a source: running it, running it as an input of the prompt, which shows the value of an
expression that stands alone, or printing its tree. -/
inductive Action where
  | run
  | eval
  | tree (order : Order)

/-- How a step of a session ends. The last two never happen to a program that could be parsed and is given
enough fuel. -/
inductive Verdict where
  | ok
  | syntaxError
  | runtimeError
  | stuck
  | exhausted
deriving DecidableEq

def Verdict.returns : Verdict → Bool
  | ok | syntaxError | runtimeError => true
  | stuck | exhausted => false

structure Outcome where
  verdict : Verdict
  events : List Event
  heap : Heap

namespace Session

/-- Runs statements at the top level, where neither a break nor a return is expected. -/
def runStmts (policy : Policy) (fuel : Nat) (stmts : List Stmt) : Run Unit := do
  match ← Stmt.execAll policy (Run.call policy fuel 0) fuel Heap.globalFrame stmts with
  | .next => return
  | _ => Run.stuck

def evalStmts (policy : Policy) (fuel : Nat) (stmts : List Stmt) : Run Unit :=
  match stmts with
  | [.expr e] => do
    let value ← e.eval (Run.call policy fuel 0) Heap.globalFrame
    Run.print value.toText
  | _ => runStmts policy fuel stmts

def printTrees (order : Order) (stmts : List Stmt) : Run Unit :=
  stmts.forM fun s => Run.print (s.render order)

def perform (policy : Policy) (fuel : Nat) : Action → List Stmt → Run Unit
  | .run => runStmts policy fuel
  | .eval => evalStmts policy fuel
  | .tree order => printTrees order

def logResumed (policy : Policy) (program : Program) (m : Machine) : Machine :=
  program.resumed.foldl (fun m line => m.log policy .debug fun _ =>
    ⟨.debug, "parser synchronized after syntax error", [("line", Text.ofNat line)]⟩) m

def refuse (policy : Policy) (path : Text) (program : Program) (m : Machine) : Machine :=
  (program.errors.foldl (fun m e => m.emit (.err e.toText)) m).log policy .debug fun _ =>
    ⟨.debug, "refusing to run source with syntax errors",
      [("errors", Text.ofNat program.errors.length), ("path", path)]⟩

def reportFault (policy : Policy) (f : Fault) (m : Machine) : Machine :=
  (m.log policy .debug fun _ =>
    ⟨.debug, f.cause.message, [("line", Text.ofNat f.pos.line), ("token", f.token)]⟩).emit (.err f.toText)

def outcome (verdict : Verdict) (m : Machine) : Outcome := ⟨verdict, m.events.reverse, m.heap⟩

/-- One step of a session: the source is parsed, and what the action asks for is done if it has no error. -/
def step (policy : Policy) (fuel : Nat) (heap : Heap) (action : Action) (path source : Text) : Outcome :=
  let program := Program.ofSource source
  let m := logResumed policy program ⟨heap, []⟩
  if program.isValid then
    match perform policy fuel action program.stmts m with
    | .ok () m => outcome .ok m
    | .error (.fault f) m => outcome .runtimeError (reportFault policy f m)
    | .error .stuck m => outcome .stuck m
    | .error .exhausted m => outcome .exhausted m
  else outcome .syntaxError (refuse policy path program m)

def ampleFuel : Nat := 0x4000000000000000

end Session
end Lox
