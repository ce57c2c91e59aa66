import Lox.Proofs.Heap.Growth

/-! The names that frames have. A name that a frame has can get another value without the names changing, and a new
frame leaves the names of the frames that were there as they are. -/
namespace Lox

namespace Bindings

variable {α : Type} {b : Bindings α} {x : Text} {v : α}

def names (b : Bindings α) : List Text := b.map Prod.fst

structure Same (b b' : Bindings α) : Prop where
  names : b'.names = b.names
  values : ∀ x, b'.get? x = b.get? x

theorem same_refl (b : Bindings α) : b.Same b := ⟨rfl, fun _ => rfl⟩

theorem isSome_get?_iff : (b.get? x).isSome = true ↔ x ∈ b.names := by
  induction b with
  | nil => simp [names]
  | cons a rest ih =>
    obtain ⟨key, w⟩ := a
    by_cases hx : x = key
    · simp [get?, names, hx]
    · have hne : (x == key) = false := by simpa using hx
      have hrest : (get? ((key, w) :: rest) x) = get? rest x := by
        unfold get?
        rw [List.lookup_cons, hne]
      rw [hrest, ih]
      simp [names, hx]

/-- A new name comes behind the others. -/
theorem names_insert : (b.insert x v).names = if x ∈ b.names then b.names else b.names ++ [x] := by
  induction b with
  | nil => rfl
  | cons a rest ih =>
    obtain ⟨key, w⟩ := a
    unfold insert
    by_cases hk : key = x
    · rw [if_pos hk, if_pos (by simp [names, hk])]
      rfl
    · have hne : x ≠ key := Ne.symm hk
      have hcons (c : Bindings α) : names ((key, w) :: c) = key :: c.names := rfl
      rw [if_neg hk, hcons, hcons, ih]
      by_cases hx : x ∈ names rest
      · rw [if_pos hx, if_pos (List.mem_cons_of_mem _ hx)]
      · rw [if_neg hx, if_neg (by simp [hne, hx])]
        rfl

/-- A name that is bound keeps its place. -/
theorem names_insert_of_bound (hx : (b.get? x).isSome = true) : (b.insert x v).names = b.names := by
  rw [names_insert, if_pos (isSome_get?_iff.mp hx)]

end Bindings

namespace Heap

variable {h h' h'' : Heap} {P : FrameId → Prop} {i j : Nat} {x : Text} {v : Value} {vars : Bindings Value}

def names (h : Heap) (i : FrameId) : List Text := (h.vars i).names

theorem vars_of_le (hj : h.frames.size ≤ j) : h.vars j = [] := by
  unfold vars
  rw [Array.getElem?_eq_none hj]
  rfl

theorem enclosing?_of_le (hj : h.frames.size ≤ j) : h.enclosing? j = none := by
  unfold enclosing?
  rw [Array.getElem?_eq_none hj]

theorem enclosing?_pushFrame_of_ne (hj : j ≠ h.frames.size) :
    (h.pushFrame i vars).2.enclosing? j = h.enclosing? j := by
  unfold pushFrame enclosing?
  rw [Array.getElem?_push, if_neg hj]

/-- Each frame that was there is where it was, and has the names that it had unless `P` lets it get more. -/
structure SameNames (P : FrameId → Prop) (h h' : Heap) : Prop where
  size : h.frames.size ≤ h'.frames.size
  enclosing : ∀ j < h.frames.size, h'.enclosing? j = h.enclosing? j
  names : ∀ j < h.frames.size, ¬ P j → h'.names j = h.names j

theorem sameNames_refl (h : Heap) : h.SameNames P h := ⟨Nat.le_refl _, fun _ _ => rfl, fun _ _ _ => rfl⟩

theorem sameNames_trans (e : h.SameNames P h') (e' : h'.SameNames P h'') : h.SameNames P h'' where
  size := Nat.le_trans e.size e'.size
  enclosing j hj := (e'.enclosing j (Nat.lt_of_lt_of_le hj e.size)).trans (e.enclosing j hj)
  names j hj hP := (e'.names j (Nat.lt_of_lt_of_le hj e.size) hP).trans (e.names j hj hP)

theorem sameNames_of_frames_eq (hf : h'.frames = h.frames) : h.SameNames P h' := by
  refine ⟨Nat.le_of_eq (congrArg Array.size hf.symm), fun j _ => ?_, fun j _ _ => ?_⟩
  · unfold enclosing?
    rw [hf]
  · unfold names vars
    rw [hf]

/-- A frame gets no new name if the name is bound there already. -/
theorem sameNames_define (hi : P i ∨ ((h.vars i).get? x).isSome = true) : h.SameNames P (h.define i x v) := by
  refine ⟨Nat.le_of_eq frames_define.symm, fun j _ => enclosing?_define, fun j hj hP => ?_⟩
  unfold names
  by_cases hij : i = j
  · subst hij
    rw [vars_define_self hj]
    exact Bindings.names_insert_of_bound (hi.resolve_left hP)
  · rw [vars_define_of_ne hij]

theorem sameNames_pushFrame : h.SameNames P (h.pushFrame i vars).2 := by
  have hne (j : Nat) (hj : j < h.frames.size) : j ≠ h.frames.size := Nat.ne_of_lt hj
  refine ⟨?_, fun j hj => enclosing?_pushFrame_of_ne (hne j hj), fun j hj _ => ?_⟩
  · rw [frames_pushFrame]
    exact Nat.le_succ _
  · unfold names
    rw [vars_pushFrame_of_ne (hne j hj)]

/-- If no frame gets more names, the same names are visible as before. -/
theorem resolves_of_sameNames (e : h.SameNames (fun _ => False) h') (hi : i < h.frames.size) :
    h'.Resolves i x ↔ h.Resolves i x := by
  induction i using Nat.strongRecOn with
  | _ i ih =>
    have hown : ((h'.vars i).get? x).isSome = true ↔ ((h.vars i).get? x).isSome = true := by
      have hnames : (h'.vars i).names = (h.vars i).names := e.names i hi id
      rw [Bindings.isSome_get?_iff, Bindings.isSome_get?_iff, hnames]
    rw [resolves_iff, resolves_iff, hown, e.enclosing i hi]
    -- the frame around a frame is older
    have haround (j : FrameId) (hj : h.enclosing? i = some j) : h'.Resolves j x ↔ h.Resolves j x := by
      have hlt := lt_of_enclosing? hj
      exact ih j hlt (Nat.lt_trans hlt hi)
    constructor
    · rintro (hx | ⟨j, hj, hr⟩)
      · exact .inl hx
      · exact .inr ⟨j, hj, (haround j hj).mp hr⟩
    · rintro (hx | ⟨j, hj, hr⟩)
      · exact .inl hx
      · exact .inr ⟨j, hj, (haround j hj).mpr hr⟩

end Heap
end Lox
