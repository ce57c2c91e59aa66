import Lox.Heap
import Lox.Log
import Lox.Run.Fault

/-! The machine that programs run on: a heap, and the events so far. -/
namespace Lox

inductive Event where
  | out (line : Text)
  | err (report : Text)
  | log (entry : LogEntry)
deriving DecidableEq

/-- How programs are run: how many calls may be open at once, if that is limited, and the level of the log. -/
structure Policy where
  callLimit : Option Nat
  level : Severity

def Policy.allowsDepth (policy : Policy) (depth : Nat) : Bool := policy.callLimit.all (depth ≤ ·)

structure Machine where
  heap : Heap
  /-- The events so far, the newest first. -/
  events : List Event

namespace Machine

def emit (m : Machine) (e : Event) : Machine := { m with events := e :: m.events }

def log (m : Machine) (policy : Policy) (severity : Severity) (entry : Heap → LogEntry) : Machine :=
  if policy.level.allows severity then m.emit (.log (entry m.heap)) else m

end Machine

/-- Why a run does not go on: a fault, a step that no program can ask for, or a bound that was too small. -/
inductive Halt where
  | fault (f : Fault)
  | stuck
  | exhausted
deriving DecidableEq

abbrev Run (α : Type) := EStateM Halt Machine α

namespace Run

variable {α : Type}

def fault (cause : Fault.Cause) (token : Text) (pos : Pos) : Run α :=
  throw (.fault ⟨cause, token, pos⟩)

def stuck : Run α := throw .stuck

def exhausted : Run α := throw .exhausted

def heap : Run Heap := fun m => .ok m.heap m

def modifyHeap (f : Heap → Heap) : Run Unit := fun m => .ok () { m with heap := f m.heap }

def alloc (f : Heap → α × Heap) : Run α := fun m =>
  let (a, heap) := f m.heap
  .ok a { m with heap }

def emit (e : Event) : Run Unit := fun m => .ok () (m.emit e)

def print (line : Text) : Run Unit := emit (.out line)

def log (policy : Policy) (severity : Severity) (entry : Heap → LogEntry) : Run Unit :=
  fun m => .ok () (m.log policy severity entry)

end Run
end Lox
