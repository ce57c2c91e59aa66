import Lox.Heap

/-! What a run can do to the heap: frames and names are added, values change, and nothing is taken away. So a name
that is found from a frame is found from it ever after. -/
namespace Lox

namespace Bindings

variable {α : Type} {b : Bindings α} {x y : Text} {v w : α}

/-- What is bound after an insertion is the new value, or it was bound before. -/
theorem get?_insert_cases (hw : (b.insert x v).get? y = some w) : w = v ∨ b.get? y = some w := by
  by_cases hxy : y = x
  · rw [hxy, get?_insert_self] at hw
    cases hw
    exact .inl rfl
  · rw [get?_insert_of_ne _ _ hxy] at hw
    exact .inr hw

theorem isSome_get?_insert (hy : y = x ∨ (b.get? y).isSome = true) : ((b.insert x v).get? y).isSome = true := by
  by_cases hxy : y = x
  · rw [hxy, get?_insert_self]
    rfl
  · rw [get?_insert_of_ne _ _ hxy]
    exact hy.resolve_left hxy

end Bindings

namespace Heap

variable {h h' h'' : Heap} {i j : FrameId} {x y : Text} {v w : Value}

/-- From a frame outwards, a name is bound. -/
def Resolves (h : Heap) (i : FrameId) (x : Text) : Prop := (h.resolve? x i).isSome = true

theorem resolve?_of_vars (hv : (h.vars i).get? x = some v) : h.resolve? x i = some (i, v) := by
  rw [resolve?, hv]

/-- A name that a frame does not have is looked up in the frame around it. -/
theorem resolve?_of_enclosing? (hv : (h.vars i).get? x = none) (he : h.enclosing? i = some j) :
    h.resolve? x i = h.resolve? x j := by
  rw [resolve?, hv]
  dsimp only
  split
  · next k hk =>
    rw [he] at hk
    cases hk
    rfl
  · next hk =>
    rw [he] at hk
    cases hk

theorem resolve?_of_none (hv : (h.vars i).get? x = none) (he : h.enclosing? i = none) : h.resolve? x i = none := by
  rw [resolve?, hv]
  dsimp only
  split
  · next k hk =>
    rw [he] at hk
    cases hk
  · rfl

/-- A name is bound from a frame outwards if the frame has it or it is bound from the next frame on. -/
theorem resolves_iff : h.Resolves i x ↔
    ((h.vars i).get? x).isSome = true ∨ ∃ j, h.enclosing? i = some j ∧ h.Resolves j x := by
  unfold Resolves
  cases hv : (h.vars i).get? x with
  | some v =>
    rw [resolve?_of_vars hv]
    exact ⟨fun _ => .inl rfl, fun _ => rfl⟩
  | none =>
    cases he : h.enclosing? i with
    | some j =>
      rw [resolve?_of_enclosing? hv he]
      simp
    | none =>
      rw [resolve?_of_none hv he]
      simp

/-- What is found in a frame is bound there. -/
theorem vars_of_resolve? (hr : h.resolve? x i = some (j, v)) : (h.vars j).get? x = some v := by
  -- a frame is older than the frames in it, so looking outwards comes to an end
  induction i using Nat.strongRecOn with
  | _ i ih =>
    cases hv : (h.vars i).get? x with
    | some w =>
      rw [resolve?_of_vars hv] at hr
      cases hr
      exact hv
    | none =>
      cases he : h.enclosing? i with
      | some k =>
        rw [resolve?_of_enclosing? hv he] at hr
        exact ih k (lt_of_enclosing? he) hr
      | none =>
        rw [resolve?_of_none hv he] at hr
        cases hr

/-- Later in a run: there may be more frames and more names in them, but each frame keeps its place and its names. -/
structure Extends (h h' : Heap) : Prop where
  size : h.frames.size ≤ h'.frames.size
  enclosing : ∀ i j, h.enclosing? i = some j → h'.enclosing? i = some j
  bound : ∀ i x, ((h.vars i).get? x).isSome = true → ((h'.vars i).get? x).isSome = true

theorem extends_refl (h : Heap) : h.Extends h := ⟨Nat.le_refl _, fun _ _ hj => hj, fun _ _ hx => hx⟩

theorem extends_trans (e : h.Extends h') (e' : h'.Extends h'') : h.Extends h'' :=
  ⟨Nat.le_trans e.size e'.size, fun i j hj => e'.enclosing i j (e.enclosing i j hj),
    fun i x hx => e'.bound i x (e.bound i x hx)⟩

theorem extends_of_frames_eq (hf : h'.frames = h.frames) : h.Extends h' := by
  refine ⟨?_, fun i j hj => ?_, fun i x hx => ?_⟩
  · exact Nat.le_of_eq (congrArg Array.size hf.symm)
  · unfold enclosing? at hj ⊢
    rw [hf]
    exact hj
  · unfold vars at hx ⊢
    rw [hf]
    exact hx

theorem depth_of_enclosing? (he : h.enclosing? i = some j) : h.depth i = h.depth j + 1 := by
  rw [depth]
  split
  · next k hk =>
    rw [he] at hk
    cases hk
    rfl
  · next hk =>
    rw [he] at hk
    cases hk

theorem depth_of_none (he : h.enclosing? i = none) : h.depth i = 0 := by
  rw [depth]
  split
  · next k hk =>
    rw [he] at hk
    cases hk
  · rfl

/-- What a frame finds it finds ever after. -/
theorem resolves_extends (e : h.Extends h') (hr : h.Resolves i x) : h'.Resolves i x := by
  induction i using Nat.strongRecOn with
  | _ i ih =>
    rcases resolves_iff.mp hr with hx | ⟨j, hj, hr⟩
    · exact resolves_iff.mpr (.inl (e.bound i x hx))
    · exact resolves_iff.mpr (.inr ⟨j, e.enclosing i j hj, ih j (lt_of_enclosing? hj) hr⟩)

theorem frames_define : (h.define i x v).frames.size = h.frames.size := by
  unfold define
  exact Array.size_modify

theorem enclosing?_define : (h.define i x v).enclosing? j = h.enclosing? j := by
  unfold define enclosing?
  rw [Array.getElem?_modify]
  by_cases hij : i = j
  · rw [if_pos hij]
    cases h.frames[j]? <;> rfl
  · rw [if_neg hij]

theorem vars_define_of_ne (hij : i ≠ j) : (h.define i x v).vars j = h.vars j := by
  unfold define vars
  rw [Array.getElem?_modify, if_neg hij]

theorem vars_define_self (hi : i < h.frames.size) : (h.define i x v).vars i = (h.vars i).insert x v := by
  unfold define vars
  rw [Array.getElem?_modify, if_pos rfl, Array.getElem?_eq_getElem hi]
  rfl

/-- A frame that there is not has no variables, and binding one there changes nothing. -/
theorem vars_define_outside (hi : ¬ i < h.frames.size) : (h.define i x v).vars i = h.vars i := by
  unfold define vars
  rw [Array.getElem?_modify, if_pos rfl, Array.getElem?_eq_none (Nat.le_of_not_lt hi)]
  rfl

/-- What is bound after a binding is the new value, or it was bound before. -/
theorem get?_define_cases (hw : ((h.define i x v).vars j).get? y = some w) :
    w = v ∨ (h.vars j).get? y = some w := by
  by_cases hij : i = j
  · subst hij
    by_cases hi : i < h.frames.size
    · rw [vars_define_self hi] at hw
      exact Bindings.get?_insert_cases hw
    · rw [vars_define_outside hi] at hw
      exact .inr hw
  · rw [vars_define_of_ne hij] at hw
    exact .inr hw

/-- Binding a name takes none away. -/
theorem extends_define : h.Extends (h.define i x v) := by
  refine ⟨Nat.le_of_eq frames_define.symm, fun k j hj => ?_, fun k y hy => ?_⟩
  · rw [enclosing?_define]
    exact hj
  · by_cases hik : i = k
    · subst hik
      by_cases hi : i < h.frames.size
      · rw [vars_define_self hi]
        exact Bindings.isSome_get?_insert (.inr hy)
      · rw [vars_define_outside hi]
        exact hy
    · rw [vars_define_of_ne hik]
      exact hy

theorem resolves_define (hi : i < h.frames.size) : (h.define i x v).Resolves i x := by
  refine resolves_iff.mpr (.inl ?_)
  rw [vars_define_self hi]
  exact Bindings.isSome_get?_insert (.inl rfl)

variable {vars : Bindings Value}

theorem frames_pushFrame : (h.pushFrame i vars).2.frames.size = h.frames.size + 1 := Array.size_push _

theorem size_lt_pushFrame : h.frames.size < (h.pushFrame i vars).2.frames.size := by
  rw [frames_pushFrame]
  exact Nat.lt_succ_self _

theorem vars_pushFrame_self : (h.pushFrame i vars).2.vars h.frames.size = vars := by
  unfold pushFrame Heap.vars
  rw [Array.getElem?_push_size]
  rfl

theorem vars_pushFrame_of_ne (hj : j ≠ h.frames.size) : (h.pushFrame i vars).2.vars j = h.vars j := by
  unfold pushFrame Heap.vars
  rw [Array.getElem?_push, if_neg hj]

/-- What is bound after a frame is made is bound in the new frame, or it was bound before. -/
theorem get?_pushFrame_cases (hw : ((h.pushFrame i vars).2.vars j).get? y = some w) :
    vars.get? y = some w ∨ (h.vars j).get? y = some w := by
  by_cases hj : j = h.frames.size
  · rw [hj, vars_pushFrame_self] at hw
    exact .inl hw
  · rw [vars_pushFrame_of_ne hj] at hw
    exact .inr hw

theorem vars_size : h.vars h.frames.size = [] := by
  unfold Heap.vars
  rw [Array.getElem?_eq_none (Nat.le_refl _)]
  rfl

theorem enclosing?_pushFrame_self (hi : i < h.frames.size) :
    (h.pushFrame i vars).2.enclosing? h.frames.size = some i := by
  unfold pushFrame enclosing?
  rw [Array.getElem?_push_size]
  simp [hi]

/-- A new frame leaves the older ones as they were. -/
theorem extends_pushFrame : h.Extends (h.pushFrame i vars).2 := by
  refine ⟨?_, fun k j hj => ?_, fun k y hy => ?_⟩
  · rw [frames_pushFrame]
    exact Nat.le_succ _
  · unfold enclosing? at hj
    cases hk : h.frames[k]? with
    | none =>
      rw [hk] at hj
      cases hj
    | some f =>
      -- a frame that there was is not the new one
      have hne : k ≠ h.frames.size := by
        rintro rfl
        rw [Array.getElem?_eq_none (Nat.le_refl _)] at hk
        cases hk
      unfold pushFrame enclosing?
      rw [Array.getElem?_push, if_neg hne]
      exact hj
  · by_cases hk : k = h.frames.size
    · rw [hk, vars_size] at hy
      cases hy
    · rw [vars_pushFrame_of_ne hk]
      exact hy

/-- The new frame finds what it has itself and what the frame around it finds. -/
theorem resolves_pushFrame (hi : i < h.frames.size) (hr : (vars.get? x).isSome = true ∨ h.Resolves i x) :
    (h.pushFrame i vars).2.Resolves h.frames.size x := by
  rcases hr with hx | hr
  · refine resolves_iff.mpr (.inl ?_)
    rw [vars_pushFrame_self]
    exact hx
  · exact resolves_iff.mpr (.inr ⟨i, enclosing?_pushFrame_self hi, resolves_extends extends_pushFrame hr⟩)

variable {id id' : InstanceId}

theorem get?_setField_cases (hw : ((h.setField id x v).fields id').get? y = some w) :
    w = v ∨ (h.fields id').get? y = some w := by
  unfold setField fields at hw
  rw [Array.getElem?_modify] at hw
  by_cases hid : id = id'
  · rw [if_pos hid] at hw
    cases hf : h.instances[id']? with
    | none =>
      rw [hf] at hw
      cases hw
    | some fs =>
      rw [hf] at hw
      unfold fields
      rw [hf]
      exact Bindings.get?_insert_cases hw
  · rw [if_neg hid] at hw
    exact .inr hw

theorem get?_pushInstance (hw : (h.pushInstance.2.fields id).get? y = some w) : (h.fields id).get? y = some w := by
  unfold pushInstance fields at hw
  rw [Array.getElem?_push] at hw
  by_cases hid : id = h.instances.size
  · rw [if_pos hid] at hw
    cases hw
  · rw [if_neg hid] at hw
    exact hw

end Heap
end Lox
