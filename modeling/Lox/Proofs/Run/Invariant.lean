import Lox.Proofs.Heap.Growth
import Lox.Proofs.Static.Placement

/-! What holds of the heap between any two steps of a run. Each function that is stored somewhere has a body whose
statements may stand where they stand, and an initializer knows its instance. If only well scoped programs are run, each
frame also finds the names that the code in it uses. The proposition `strict` says whether this second part is asked
for. -/
namespace Lox

open Lox.Parser (Context)

variable {strict : Prop} {h h' : Heap} {i : FrameId} {c c' : Context} {Γ Γ' : List Text}

/-- A frame can host code that stands in a context and uses the names `Γ`. -/
structure Heap.Hosts (strict : Prop) (h : Heap) (i : FrameId) (c : Context) (Γ : List Text) : Prop where
  lt : i < h.frames.size
  self : strict → c.inClass = true → h.Resolves i thisName
  names : strict → ∀ x ∈ Γ, h.Resolves i x

def Closure.WellMade (strict : Prop) (h : Heap) (f : Closure) : Prop :=
  ∃ c Γ, h.Hosts strict f.scope c Γ ∧ Stmt.PlacedBody c.enterFunction f.decl ∧
    (strict → Stmt.ScopedBody Γ f.decl) ∧ (f.isInit = true → ((h.vars f.scope).get? thisName).isSome = true)

def Class.WellMade (strict : Prop) (h : Heap) (k : Class) : Prop :=
  ∃ c Γ, h.Hosts strict k.scope c Γ ∧ Stmt.PlacedBodies c.enterClass.enterFunction k.methods ∧
    (strict → Stmt.ScopedBodies Γ k.methods)

def Value.WellMade (strict : Prop) (h : Heap) : Value → Prop
  | .nil | .bool _ | .number _ | .string _ => True
  | .function f => f.WellMade strict h
  | .classValue k => k.WellMade strict h
  | .object k _ => k.WellMade strict h

/-- All values that variables and fields have are well made. -/
structure Heap.WellMade (strict : Prop) (h : Heap) : Prop where
  vars : ∀ i x v, (h.vars i).get? x = some v → v.WellMade strict h
  fields : ∀ id x v, (h.fields id).get? x = some v → v.WellMade strict h

theorem hosts_extends (hh : h.Hosts strict i c Γ) (e : h.Extends h') : h'.Hosts strict i c Γ := by
  refine ⟨Nat.lt_of_lt_of_le hh.lt e.size, fun hs hc => ?_, fun hs x hx => ?_⟩
  · exact Heap.resolves_extends e (hh.self hs hc)
  · exact Heap.resolves_extends e (hh.names hs x hx)

/-- The context decides only whether `this` is used, and loops do not matter. -/
theorem hosts_of_inClass (hh : h.Hosts strict i c Γ) (hc : c'.inClass = c.inClass) : h.Hosts strict i c' Γ :=
  ⟨hh.lt, fun hs h' => hh.self hs (hc ▸ h'), hh.names⟩

/-- If names need not be known, a frame hosts any code. -/
theorem hosts_of_lt (hi : i < h.frames.size) : h.Hosts False i c [] := ⟨hi, False.elim, False.elim⟩

/-- More names can be used once they are bound. -/
theorem hosts_append (hh : h.Hosts strict i c Γ) (hn : strict → ∀ x ∈ Γ', h.Resolves i x) :
    h.Hosts strict i c (Γ' ++ Γ) := by
  refine ⟨hh.lt, hh.self, fun hs x hx => ?_⟩
  rcases List.mem_append.mp hx with hx | hx
  · exact hn hs x hx
  · exact hh.names hs x hx

/-- A new frame hosts what the frame around it hosts, and its own variables. -/
theorem hosts_pushFrame {vars : Bindings Value} (hh : h.Hosts strict i c Γ)
    (hself : c'.inClass = true → c.inClass = true ∨ (vars.get? thisName).isSome = true)
    (hn : ∀ x ∈ Γ', (vars.get? x).isSome = true) :
    (h.pushFrame i vars).2.Hosts strict h.frames.size c' (Γ' ++ Γ) := by
  refine ⟨?_, fun hs hc => ?_, fun hs x hx => ?_⟩
  · exact Heap.size_lt_pushFrame
  -- `this` is found further out, or it is one of the new variables
  · rcases hself hc with hc | hself
    · exact Heap.resolves_pushFrame hh.lt (.inr (hh.self hs hc))
    · exact Heap.resolves_pushFrame hh.lt (.inl hself)
  · rcases List.mem_append.mp hx with hx | hx
    · exact Heap.resolves_pushFrame hh.lt (.inl (hn x hx))
    · exact Heap.resolves_pushFrame hh.lt (.inr (hh.names hs x hx))

theorem closure_extends {f : Closure} (hf : f.WellMade strict h) (e : h.Extends h') : f.WellMade strict h' := by
  obtain ⟨c, Γ, hh, hp, hs, hi⟩ := hf
  exact ⟨c, Γ, hosts_extends hh e, hp, hs, fun hinit => e.bound _ _ (hi hinit)⟩

theorem class_extends {k : Class} (hk : k.WellMade strict h) (e : h.Extends h') : k.WellMade strict h' := by
  obtain ⟨c, Γ, hh, hp, hs⟩ := hk
  exact ⟨c, Γ, hosts_extends hh e, hp, hs⟩

/-- What is well made stays so. -/
theorem value_extends {v : Value} (hv : v.WellMade strict h) (e : h.Extends h') : v.WellMade strict h' := by
  cases v with
  | nil | bool | number | string => trivial
  | function f => exact closure_extends hv e
  | classValue k => exact class_extends hv e
  | object k id => exact class_extends hv e

/-- A binding of a value that is well made once it is bound. -/
theorem wellMade_define {x : Text} {v : Value} (hm : h.WellMade strict) (hv : v.WellMade strict (h.define i x v)) :
    (h.define i x v).WellMade strict := by
  refine ⟨fun j y w hw => ?_, fun id y w hw => ?_⟩
  -- the new value may refer to the frame that it is bound in, so it is judged in the new heap
  · rcases Heap.get?_define_cases hw with rfl | hw
    · exact hv
    · exact value_extends (hm.vars j y w hw) Heap.extends_define
  · exact value_extends (hm.fields id y w hw) Heap.extends_define

/-- A new frame with variables that are well made keeps the heap well made. -/
theorem wellMade_pushFrame {vars : Bindings Value} (hm : h.WellMade strict)
    (hv : ∀ x v, vars.get? x = some v → v.WellMade strict h) : (h.pushFrame i vars).2.WellMade strict := by
  have e : h.Extends (h.pushFrame i vars).2 := Heap.extends_pushFrame
  refine ⟨fun j y w hw => ?_, fun id y w hw => value_extends (hm.fields id y w hw) e⟩
  by_cases hj : j = h.frames.size
  · rw [hj, Heap.vars_pushFrame_self] at hw
    exact value_extends (hv y w hw) e
  · rw [Heap.vars_pushFrame_of_ne hj] at hw
    exact value_extends (hm.vars j y w hw) e

theorem wellMade_setField {id : InstanceId} {x : Text} {v : Value} (hm : h.WellMade strict)
    (hv : v.WellMade strict h) : (h.setField id x v).WellMade strict := by
  have e : h.Extends (h.setField id x v) := Heap.extends_of_frames_eq rfl
  refine ⟨fun j y w hw => value_extends (hm.vars j y w hw) e, fun id' y w hw => ?_⟩
  rcases Heap.get?_setField_cases hw with rfl | hw
  · exact value_extends hv e
  · exact value_extends (hm.fields id' y w hw) e

theorem wellMade_pushInstance (hm : h.WellMade strict) : h.pushInstance.2.WellMade strict := by
  have e : h.Extends h.pushInstance.2 := Heap.extends_of_frames_eq rfl
  refine ⟨fun j y w hw => value_extends (hm.vars j y w hw) e, fun id y w hw => ?_⟩
  exact value_extends (hm.fields id y w (Heap.get?_pushInstance hw)) e

theorem wellMade_nextSerial (hm : h.WellMade strict) : h.nextSerial.2.WellMade strict := by
  have e : h.Extends h.nextSerial.2 := Heap.extends_of_frames_eq rfl
  exact ⟨fun j y w hw => value_extends (hm.vars j y w hw) e, fun id y w hw => value_extends (hm.fields id y w hw) e⟩

/-- There is nothing in the empty heap that could be badly made. -/
theorem empty_wellMade : Heap.empty.WellMade strict := by
  refine ⟨fun i x v hv => ?_, fun id x v hv => ?_⟩
  · cases i with
    | zero => cases hv
    | succ i => cases hv
  · cases hv

/-- The top level stands in no class and uses no names that it has not declared itself. -/
theorem hosts_global (hlt : Heap.globalFrame < h.frames.size) : h.Hosts strict Heap.globalFrame {} [] :=
  ⟨hlt, fun _ hc => (nomatch hc), fun _ _ hx => (nomatch hx)⟩

end Lox
