import Lox.Value

/-! The heap: frames of variables, each enclosed by an older one up to the global frame, and the fields of
instances. Frames and instances are never taken away. -/
namespace Lox

structure Frame where
  enclosing : Option FrameId
  vars : Bindings Value

structure Heap where
  frames : Array Frame
  instances : Array (Bindings Value)
  /-- The serial number of the next function or class. -/
  serial : Nat

namespace Heap

def globalFrame : FrameId := 0

def empty : Heap := ⟨#[⟨none, []⟩], #[], 0⟩

instance : Inhabited Heap := ⟨empty⟩

def enclosing? (h : Heap) (i : FrameId) : Option FrameId :=
  match h.frames[i]? with
  | some frame => frame.enclosing.filter (· < i)
  | none => none

/-- Frames are enclosed by older ones, so every way outwards ends. -/
theorem lt_of_enclosing? {h : Heap} {i j : FrameId} (hj : h.enclosing? i = some j) : j < i := by
  unfold enclosing? at hj
  split at hj
  · simpa using (Option.filter_eq_some_iff.mp hj).2
  · cases hj

def vars (h : Heap) (i : FrameId) : Bindings Value := (h.frames[i]?.elim [] Frame.vars)

def resolve? (h : Heap) (name : Text) (i : FrameId) : Option (FrameId × Value) :=
  match (h.vars i).get? name with
  | some value => some (i, value)
  | none =>
    match _h : h.enclosing? i with
    | some j => h.resolve? name j
    | none => none
termination_by i
decreasing_by exact lt_of_enclosing? ‹_›

def depth (h : Heap) (i : FrameId) : Nat :=
  match _h : h.enclosing? i with
  | some j => h.depth j + 1
  | none => 0
termination_by i
decreasing_by exact lt_of_enclosing? ‹_›

def get? (h : Heap) (i : FrameId) (name : Text) : Option Value := (h.resolve? name i).map Prod.snd

def define (h : Heap) (i : FrameId) (name : Text) (value : Value) : Heap :=
  -- whatever the frames around it have
  { h with frames := h.frames.modify i fun f => { f with vars := f.vars.insert name value } }

def assign? (h : Heap) (i : FrameId) (name : Text) (value : Value) : Option Heap :=
  (h.resolve? name i).map fun found => h.define found.1 name value

def pushFrame (h : Heap) (i : FrameId) (vars : Bindings Value) : FrameId × Heap :=
  (h.frames.size, { h with frames := h.frames.push ⟨some i, vars⟩ })

def pushInstance (h : Heap) : InstanceId × Heap :=
  (h.instances.size, { h with instances := h.instances.push [] })

def fields (h : Heap) (id : InstanceId) : Bindings Value := h.instances[id]?.getD []

def setField (h : Heap) (id : InstanceId) (name : Text) (value : Value) : Heap :=
  { h with instances := h.instances.modify id (·.insert name value) }

def nextSerial (h : Heap) : Nat × Heap := (h.serial, { h with serial := h.serial + 1 })

def globals (h : Heap) : Bindings Value := h.vars globalFrame

end Heap
end Lox
