import Lox.Proofs.Heap.Correspondence
import Lox.Proofs.Run.Invariant

/-! Heaps that differ by empty frames only. When the first heap gets an empty frame that the second one does not get,
the frames that are made later are counted on from there, and all that was said of the older frames stays true. -/
namespace Lox

namespace Correspondence

/-- The first run has all that the second one has, and some extra frames. The oldest `n` frames stand for themselves. -/
structure Inserts (κ : Correspondence) (n : Nat) : Prop where
  keeps : ∀ j < n, κ.own j j
  total : ∀ j, ∃ j', κ.frame j j'
  onto : ∀ j', ∃ j, κ.own j j'
  object : ∀ id, κ.object id
  place : ∀ p q, κ.place p q ↔ q = p

theorem same_inserts (n : Nat) : same.Inserts n where
  keeps _ _ := rfl
  total j := ⟨j, .inl rfl⟩
  onto j := ⟨j, rfl⟩
  object _ := trivial
  place _ _ := Iff.rfl

variable {κ : Correspondence} {h h' : Heap} {j' : FrameId}

/-- The first run makes a frame inside the frame that stands for `j'`, and the second run does not. -/
def insert (κ : Correspondence) {h h' : Heap} (hh : h.Alike κ h') (j' : FrameId) : Correspondence where
  own := fun (i i' : Nat) =>
    i < h.frames.size ∧ κ.own i i' ∨ h.frames.size < i ∧ i' + h.frames.size + 1 = i + h'.frames.size
  extra := fun (i i' : Nat) => i < h.frames.size ∧ κ.extra i i' ∨ i = h.frames.size ∧ i' = j'
  object := κ.object
  place := κ.place
  own_iff := by
    intro (i : Nat) (i' : Nat) (k : Nat) (k' : Nat) hi hk
    change @Eq Nat i k ↔ @Eq Nat i' k'
    -- frames that are there stand for frames that are there, and later ones for later ones
    have hold (a a' : Nat) (ha : κ.own a a') (hlt : a < h.frames.size) : a' < h'.frames.size :=
      (Heap.lt_iff_of_frame hh (.inl ha)).mp hlt
    rcases hi with ⟨hi, hown⟩ | ⟨hi, hi'⟩
    · rcases hk with ⟨hk, hown'⟩ | ⟨hk, hk'⟩
      · exact κ.own_iff hown hown'
      · have hlt := hold i i' hown hi
        omega
    · rcases hk with ⟨hk, hown'⟩ | ⟨hk, hk'⟩
      · have hlt := hold k k' hown' hk
        omega
      · omega
  not_own := by
    intro (i : Nat) (i' : Nat) (k' : Nat) hextra hown
    rcases hextra with ⟨hi, hextra⟩ | ⟨hi, -⟩
    · rcases hown with ⟨-, hown⟩ | ⟨hi', -⟩
      · exact κ.not_own hextra hown
      · omega
    · rcases hown with ⟨hi', -⟩ | ⟨hi', -⟩ <;> omega

/-- A frame that is there corresponds as before. -/
theorem frame_insert (hh : h.Alike κ h') {i i' : FrameId} (hi : i < h.frames.size) (hf : κ.frame i i') :
    (κ.insert hh j').frame i i' := by
  rcases hf with hown | hextra
  · exact .inl (.inl ⟨hi, hown⟩)
  · exact .inr (.inl ⟨hi, hextra⟩)

/-- A frame that only the first run makes is one more extra frame; the oldest ones still stand for themselves. -/
theorem insert_inserts {n : Nat} (hκ : κ.Inserts n) (hh : h.Alike κ h') (hn : n ≤ h.frames.size) :
    (κ.insert hh j').Inserts n where
  keeps j hj := .inl ⟨Nat.lt_of_lt_of_le hj hn, hκ.keeps j hj⟩
  total := by
    intro (j : Nat)
    rcases Nat.lt_trichotomy j h.frames.size with hj | hj | hj
    · obtain ⟨k, hk⟩ := hκ.total j
      exact ⟨k, frame_insert hh hj hk⟩
    · exact ⟨j', .inr (.inr ⟨hj, rfl⟩)⟩
    · refine ⟨j + h'.frames.size - h.frames.size - 1, .inl (.inr ⟨hj, ?_⟩)⟩
      omega
  onto := by
    intro (k : Nat)
    by_cases hk : k < h'.frames.size
    · obtain ⟨j, hj⟩ := hκ.onto k
      exact ⟨j, .inl ⟨(Heap.lt_iff_of_frame hh (.inl hj)).mpr hk, hj⟩⟩
    · refine ⟨k + h.frames.size + 1 - h'.frames.size, .inr ⟨?_, ?_⟩⟩ <;> omega
  object := hκ.object
  place := hκ.place

end Correspondence

namespace Heap

variable {κ : Correspondence} {h h' : Heap} {i i' : Nat}

/-- What a well made value refers to is there. -/
theorem lt_of_refersTo {strict : Prop} {v : Value} {j : FrameId} (hv : v.WellMade strict h)
    (hj : v.RefersTo (.frame j)) : j < h.frames.size := by
  cases hj with
  | function f =>
    obtain ⟨c, Γ, hh, -⟩ := hv
    exact hh.lt
  | classValue k =>
    obtain ⟨c, Γ, hh, -⟩ := hv
    exact hh.lt
  | classOf k id =>
    obtain ⟨c, Γ, hh, -⟩ := hv
    exact hh.lt

/-- No value refers to a frame that is not there yet, so none gets a new meaning. -/
theorem bindings_insert_alike {strict : Prop} {b b' : Bindings Value} (hh : h.Alike κ h') (hb : b.Alike κ b')
    (hmade : ∀ x v, b.get? x = some v → v.WellMade strict h) : b.Alike (κ.insert hh i') b' := by
  apply Bindings.alike_of_values hb
  intro x v v' hv halike
  apply value_alike_mono _ _ _ halike
  · exact fun _ _ hp => hp
  · exact fun _ hid => hid
  · intro j j' hj hown
    exact .inl ⟨lt_of_refersTo (hmade x v hv) hj, hown⟩

/-- With an empty frame more the first heap still holds the same. -/
theorem insert_alike {strict : Prop} (hh : h.Alike κ h') (hw : h.WellMade strict) (hi : κ.frame i i')
    (hlt : i < h.frames.size) : (h.pushFrame i []).2.Alike (κ.insert hh i') h' := by
  have hthere : i' < h'.frames.size := (lt_iff_of_frame hh hi).mp hlt
  refine ⟨hh.serial, hh.instances, ?_, ?_, hh.newObject, ?_, ?_, ?_, ?_⟩
  · intro k
    right
    rw [frames_pushFrame]
    omega
  · intro (j : Nat) (j' : Nat) hj hnew
    rw [frames_pushFrame] at hnew ⊢
    have hold (hframe : κ.frame j j') (hlt : j < h.frames.size) : False := by
      have hlt' := (lt_iff_of_frame hh hframe).mp hlt
      omega
    rcases hj with (⟨hj, hown⟩ | ⟨hj, hj'⟩) | (⟨hj, hextra⟩ | ⟨hj, hj'⟩)
    · exact (hold (.inl hown) hj).elim
    · exact ⟨j - h.frames.size - 1, by omega, by omega⟩
    · exact (hold (.inr hextra) hj).elim
    · have hj' : j' = i' := hj'
      omega
  · rintro (j : Nat) (j' : Nat) (⟨hj, hown⟩ | ⟨hj, hj'⟩)
    · rw [vars_pushFrame_of_ne (Nat.ne_of_lt hj)]
      exact bindings_insert_alike hh (hh.vars j j' hown) (hw.vars j)
    · have hle' : h'.frames.size ≤ j' := by omega
      rw [vars_pushFrame_of_ne (Nat.ne_of_gt hj), vars_of_le (Nat.le_of_lt hj), vars_of_le hle']
      exact Bindings.nil_alike
  · rintro (j : Nat) (j' : Nat) (⟨hj, hown⟩ | ⟨hj, hj'⟩)
    · rw [enclosing?_pushFrame_of_ne (Nat.ne_of_lt hj)]
      match he : h.enclosing? j, h'.enclosing? j', hh.enclosing j j' hown with
      | _, _, .none => exact .none
      | some k, some k', .some hk =>
        have hkj : k < j := lt_of_enclosing? he
        exact .some (Correspondence.frame_insert hh (Nat.lt_trans hkj hj) hk)
    · have hle' : h'.frames.size ≤ j' := by omega
      rw [enclosing?_pushFrame_of_ne (Nat.ne_of_gt hj), enclosing?_of_le (Nat.le_of_lt hj), enclosing?_of_le hle']
      exact .none
  · rintro (j : Nat) (j' : Nat) (⟨hj, hextra⟩ | ⟨hj, hj'⟩)
    · rw [vars_pushFrame_of_ne (Nat.ne_of_lt hj), enclosing?_pushFrame_of_ne (Nat.ne_of_lt hj)]
      obtain ⟨hvars, k, hk, hframe⟩ := hh.extra j j' hextra
      have hkj : k < j := lt_of_enclosing? hk
      exact ⟨hvars, k, hk, Correspondence.frame_insert hh (Nat.lt_trans hkj hj) hframe⟩
    -- the new frame is empty, and the frame around it stands for the frame that it is to stand for
    · rw [hj, hj', vars_pushFrame_self]
      exact ⟨rfl, i, enclosing?_pushFrame_self hlt, Correspondence.frame_insert hh hlt hi⟩
  · intro id hid
    exact bindings_insert_alike hh (hh.fields id hid) (hw.fields id)

end Heap
end Lox
