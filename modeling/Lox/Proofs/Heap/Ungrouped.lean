import Lox.Proofs.Heap.Growth
import Lox.Proofs.Syntax.Ungrouped

/-! Values and heaps without parentheses: in the functions and classes that they hold, each group is replaced by what it
holds. Nothing that a program can find out about a value or a heap changes with it. -/
namespace Lox

def Closure.ungroup (f : Closure) : Closure := { f with decl := Stmt.ungroupDecl f.decl }

def Class.ungroup (c : Class) : Class := { c with methods := Stmt.ungroupDecls c.methods }

namespace Value

def ungroup : Value → Value
  | nil => nil
  | bool b => bool b
  | number x => number x
  | string s => string s
  | function f => function f.ungroup
  | classValue c => classValue c.ungroup
  | object c id => object c.ungroup id

end Value

def Callable.ungroup : Callable → Callable
  | function f => function f.ungroup
  | classValue c => classValue c.ungroup

def Bindings.ungroup (b : Bindings Value) : Bindings Value := b.map fun x => (x.1, x.2.ungroup)

def Frame.ungroup (f : Frame) : Frame := { f with vars := f.vars.ungroup }

def Heap.ungroup (h : Heap) : Heap :=
  ⟨h.frames.map Frame.ungroup, h.instances.map Bindings.ungroup, h.serial⟩

/-! ### Declarations -/

section decls

variable (d : FunctionDecl) (ds : List FunctionDecl)

theorem name_ungroupDecl : (Stmt.ungroupDecl d).name = d.name := by
  cases d
  rfl

theorem params_ungroupDecl : (Stmt.ungroupDecl d).params = d.params := by
  cases d
  rfl

theorem body_ungroupDecl : (Stmt.ungroupDecl d).body = Stmt.ungroupAll d.body := by
  cases d
  rfl

theorem ungroupDecls_eq_map : Stmt.ungroupDecls ds = ds.map Stmt.ungroupDecl := by
  induction ds with
  | nil => rfl
  | cons d ds ih => rw [Stmt.ungroupDecls, ih, List.map_cons]

end decls

/-! ### Values -/

section values

variable (v w : Value) (c : Class)

theorem method?_ungroup (x : Text) : c.ungroup.method? x = (c.method? x).map Stmt.ungroupDecl := by
  unfold Class.method? Class.ungroup
  dsimp only
  rw [ungroupDecls_eq_map, ← List.map_reverse, List.find?_map]
  simp only [Function.comp_def, name_ungroupDecl]

theorem arity_ungroup : c.ungroup.arity = c.arity := by
  unfold Class.arity
  rw [method?_ungroup]
  cases c.method? initName with
  | none => rfl
  | some d => rw [Option.map_some, Option.elim_some, Option.elim_some, params_ungroupDecl]

theorem callable?_ungroup : v.ungroup.callable? = v.callable?.map Callable.ungroup := by
  cases v <;> rfl

theorem callable_arity_ungroup (a : Callable) : a.ungroup.arity = a.arity := by
  cases a with
  | function f => exact congrArg List.length (params_ungroupDecl f.decl)
  | classValue c => exact arity_ungroup c

/-- Parentheses do not show when a value is printed. -/
theorem toText_ungroup : v.ungroup.toText = v.toText := by
  cases v with
  | function f =>
    change _ ++ (Stmt.ungroupDecl f.decl).name.text ++ _ = _
    rw [name_ungroupDecl]
    rfl
  | nil | bool | number | string | classValue | object => rfl

theorem toText_toValue_ungroup (a : Callable) : a.ungroup.toValue.toText = a.toValue.toText := by
  cases a with
  | function f => exact toText_ungroup (.function f)
  | classValue c => rfl

theorem truthy_ungroup : v.ungroup.truthy = v.truthy := by
  cases v <;> rfl

/-- Parentheses make no difference to equality, since functions are told apart by their numbers. -/
theorem equal_ungroup : v.ungroup.equal w.ungroup = v.equal w := by
  cases v <;> cases w <;> rfl

theorem ofLiteral_ungroup (a : Literal) : (Value.ofLiteral a).ungroup = Value.ofLiteral a := by
  cases a <;> rfl

end values

/-! ### Bindings and heaps -/

section heaps

variable (h : Heap) (i : FrameId) (x : Text) (v : Value)

theorem get?_ungroup (b : Bindings Value) : b.ungroup.get? x = (b.get? x).map Value.ungroup := by
  induction b with
  | nil => rfl
  | cons y ys ih =>
    obtain ⟨name, value⟩ := y
    unfold Bindings.get? at ih ⊢
    rw [Bindings.ungroup, List.map_cons, List.lookup_cons, List.lookup_cons]
    cases x == name with
    | true => rfl
    | false => exact ih

theorem insert_ungroup (b : Bindings Value) : (b.insert x v).ungroup = b.ungroup.insert x v.ungroup := by
  induction b with
  | nil => rfl
  | cons y ys ih =>
    obtain ⟨name, value⟩ := y
    simp only [Bindings.ungroup, List.map_cons, Bindings.insert] at ih ⊢
    split
    · rfl
    · rw [List.map_cons, ih]

theorem map_modify {α β : Type} {f : α → β} {g : α → α} {k : β → β} (hf : ∀ a, f (g a) = k (f a)) (xs : Array α)
    (i : Nat) : (xs.modify i g).map f = (xs.map f).modify i k := by
  apply Array.ext_getElem?
  intro j
  simp only [Array.getElem?_map, Array.getElem?_modify]
  split
  · cases xs[j]? with
    | none => rfl
    | some a => simp [hf]
  · rfl

theorem enclosing?_ungroup : h.ungroup.enclosing? i = h.enclosing? i := by
  unfold Heap.enclosing? Heap.ungroup
  dsimp only
  rw [Array.getElem?_map]
  cases h.frames[i]? <;> rfl

theorem vars_ungroup : h.ungroup.vars i = (h.vars i).ungroup := by
  unfold Heap.vars Heap.ungroup
  dsimp only
  rw [Array.getElem?_map]
  cases h.frames[i]? <;> rfl

theorem fields_ungroup (id : InstanceId) : h.ungroup.fields id = (h.fields id).ungroup := by
  unfold Heap.fields Heap.ungroup
  dsimp only
  rw [Array.getElem?_map]
  cases h.instances[id]? <;> rfl

/-- Names are found in the frames where they were found. -/
theorem resolve?_ungroup : h.ungroup.resolve? x i = (h.resolve? x i).map fun found => (found.1, found.2.ungroup) := by
  induction i using Nat.strongRecOn with
  | _ i ih =>
    have hget : (h.ungroup.vars i).get? x = ((h.vars i).get? x).map Value.ungroup := by
      rw [vars_ungroup, get?_ungroup]
    cases hv : (h.vars i).get? x with
    | some value =>
      rw [hv] at hget
      rw [Heap.resolve?_of_vars hv, Heap.resolve?_of_vars hget]
      rfl
    | none =>
      rw [hv] at hget
      -- the frame around is the same on both sides
      cases he : h.enclosing? i with
      | some j =>
        rw [Heap.resolve?_of_enclosing? hv he,
          Heap.resolve?_of_enclosing? hget ((enclosing?_ungroup h i).trans he)]
        exact ih j (Heap.lt_of_enclosing? he)
      | none =>
        rw [Heap.resolve?_of_none hv he, Heap.resolve?_of_none hget ((enclosing?_ungroup h i).trans he)]
        rfl

theorem heap_get?_ungroup : h.ungroup.get? i x = (h.get? i x).map Value.ungroup := by
  unfold Heap.get?
  rw [resolve?_ungroup, Option.map_map, Option.map_map]
  rfl

theorem depth_ungroup : h.ungroup.depth i = h.depth i := by
  induction i using Nat.strongRecOn with
  | _ i ih =>
    have hsame := enclosing?_ungroup h i
    cases he : h.enclosing? i with
    | some j => rw [Heap.depth_of_enclosing? he, Heap.depth_of_enclosing? (hsame.trans he),
        ih j (Heap.lt_of_enclosing? he)]
    | none => rw [Heap.depth_of_none he, Heap.depth_of_none (hsame.trans he)]

/-- It does not matter whether the parentheses go before or after a name is bound. -/
theorem define_ungroup : (h.define i x v).ungroup = h.ungroup.define i x v.ungroup := by
  unfold Heap.define Heap.ungroup
  dsimp only
  rw [map_modify (k := fun f => { f with vars := f.vars.insert x v.ungroup })]
  intro f
  simp only [Frame.ungroup, insert_ungroup]

/-- A frame that is made without parentheses gets the same number. -/
theorem pushFrame_ungroup (vars : Bindings Value) :
    h.ungroup.pushFrame i vars.ungroup = ((h.pushFrame i vars).1, (h.pushFrame i vars).2.ungroup) := by
  unfold Heap.pushFrame Heap.ungroup
  dsimp only
  rw [Array.size_map, Array.map_push]
  rfl

theorem pushInstance_ungroup : h.ungroup.pushInstance = (h.pushInstance.1, h.pushInstance.2.ungroup) := by
  unfold Heap.pushInstance Heap.ungroup
  dsimp only
  rw [Array.size_map, Array.map_push]
  rfl

theorem setField_ungroup (id : InstanceId) : (h.setField id x v).ungroup = h.ungroup.setField id x v.ungroup := by
  unfold Heap.setField Heap.ungroup
  dsimp only
  rw [map_modify (k := fun b => b.insert x v.ungroup)]
  intro b
  exact insert_ungroup x v b

end heaps

end Lox
