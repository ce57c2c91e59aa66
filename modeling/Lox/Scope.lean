import Lox.Heap

/-! A place in a chain of frames: new frames can be opened inside it, and the innermost one closed again. -/
namespace Lox

structure Scope where
  heap : Heap
  frame : FrameId

namespace Scope

def start : Scope := ⟨.empty, Heap.globalFrame⟩

def push (s : Scope) : Scope :=
  let (frame, heap) := s.heap.pushFrame s.frame []
  ⟨heap, frame⟩

def pop (s : Scope) : Scope := { s with frame := (s.heap.enclosing? s.frame).getD s.frame }

def define (s : Scope) (name : Text) (value : Value) : Scope :=
  -- the global frame stays open
  { s with heap := s.heap.define s.frame name value }

def assign? (s : Scope) (name : Text) (value : Value) : Option Scope :=
  (s.heap.assign? s.frame name value).map ({ s with heap := · })

def get? (s : Scope) (name : Text) : Option Value := s.heap.get? s.frame name

def depth (s : Scope) : Nat := s.heap.depth s.frame

def vars (s : Scope) : Bindings Value := s.heap.vars s.frame

end Scope
end Lox
