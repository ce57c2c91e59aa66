import Lox.Proofs.Heap.Growth

/-! The frames around a frame. A name that is found from a frame is found in one of them. Later in a run it may be found
further in, if it has been declared there in the meantime, but never further out. -/
namespace Lox.Heap

variable {h h' : Heap} {i j k : Nat} {x : Text} {v : Value}

/-- A frame and the frames around it, from the inside. -/
def chain (h : Heap) (i : FrameId) : List FrameId :=
  i :: match _h : h.enclosing? i with
    | some j => h.chain j
    | none => []
termination_by i
decreasing_by exact lt_of_enclosing? ‹_›

theorem mem_chain_iff : j ∈ h.chain i ↔ j = i ∨ ∃ k, h.enclosing? i = some k ∧ j ∈ h.chain k := by
  rw [chain]
  split
  · next k hk =>
    rw [List.mem_cons, hk]
    simp
  · next hk =>
    rw [List.mem_cons, hk]
    simp

theorem mem_chain_self (h : Heap) (i : FrameId) : i ∈ h.chain i := mem_chain_iff.mpr (.inl rfl)

theorem chain_of_enclosing? (he : h.enclosing? i = some j) : h.chain i = i :: h.chain j := by
  rw [chain]
  split
  · next k hk =>
    rw [he] at hk
    cases hk
    rfl
  · next hk =>
    rw [he] at hk
    cases hk

theorem chain_of_none (he : h.enclosing? i = none) : h.chain i = [i] := by
  rw [chain]
  split
  · next k hk =>
    rw [he] at hk
    cases hk
  · rfl

/-- Only the frames around a frame matter for its chain, and they are older. -/
theorem chain_congr (he : ∀ j ≤ i, h'.enclosing? j = h.enclosing? j) : h'.chain i = h.chain i := by
  induction i using Nat.strongRecOn with
  | _ i ih =>
    have hi := he i (Nat.le_refl i)
    cases hj : h.enclosing? i with
    | none => rw [chain_of_none hj, chain_of_none (hi.trans hj)]
    | some j =>
      have hlt := lt_of_enclosing? hj
      rw [chain_of_enclosing? hj, chain_of_enclosing? (hi.trans hj),
        ih j hlt fun k hk => he k (Nat.le_trans hk (Nat.le_of_lt hlt))]

/-- A name is found in the first frame of the chain that has it. -/
theorem resolve?_eq_findSome? (h : Heap) (x : Text) (i : FrameId) :
    h.resolve? x i = (h.chain i).findSome? fun j => ((h.vars j).get? x).map (j, ·) := by
  induction i using Nat.strongRecOn with
  | _ i ih =>
    cases hv : (h.vars i).get? x with
    | some v =>
      obtain ⟨fs, hfs⟩ : ∃ fs, h.chain i = i :: fs := ⟨_, by rw [chain]⟩
      rw [resolve?_of_vars hv, hfs, List.findSome?_cons, hv]
      rfl
    | none =>
      cases hj : h.enclosing? i with
      | none =>
        rw [resolve?_of_none hv hj, chain_of_none hj, List.findSome?_cons, hv]
        rfl
      | some j =>
        rw [resolve?_of_enclosing? hv hj, chain_of_enclosing? hj, List.findSome?_cons, hv,
          ih j (lt_of_enclosing? hj)]
        rfl

/-- A name has the value that the first frame of the chain with this name gives it. -/
theorem get?_eq_findSome? (h : Heap) (i : FrameId) (x : Text) :
    h.get? i x = (h.chain i).findSome? fun j => (h.vars j).get? x := by
  rw [get?, resolve?_eq_findSome?, List.map_findSome?]
  congr 1
  funext j
  rw [Function.comp_apply, Option.map_map]
  exact Option.map_id'

/-- An assignment changes a name in the first frame of the chain that has it. -/
theorem assign?_eq_find? (h : Heap) (i : FrameId) (x : Text) (v : Value) : h.assign? i x v =
    ((h.chain i).find? fun j => ((h.vars j).get? x).isSome).map fun j => h.define j x v := by
  rw [assign?, resolve?_eq_findSome?]
  induction h.chain i with
  | nil => rfl
  | cons j js ih =>
    rw [List.findSome?_cons, List.find?_cons]
    cases hv : (h.vars j).get? x with
    | none => exact ih
    | some w => rfl

/-- Frames further out are older. -/
theorem le_of_mem_chain (hj : j ∈ h.chain i) : j ≤ i := by
  induction i using Nat.strongRecOn with
  | _ i ih =>
    rcases mem_chain_iff.mp hj with hj | ⟨k, hk, hj⟩
    · exact Nat.le_of_eq hj
    · have hlt : k < i := lt_of_enclosing? hk
      exact Nat.le_trans (ih k hlt hj) (Nat.le_of_lt hlt)

/-- The frames around a frame stay the same. -/
theorem mem_chain_extends (e : h.Extends h') (hj : j ∈ h.chain i) : j ∈ h'.chain i := by
  induction i using Nat.strongRecOn with
  | _ i ih =>
    rcases mem_chain_iff.mp hj with hj | ⟨k, hk, hj⟩
    · exact mem_chain_iff.mpr (.inl hj)
    · exact mem_chain_iff.mpr (.inr ⟨k, e.enclosing i k hk, ih k (lt_of_enclosing? hk) hj⟩)

theorem mem_chain_of_resolve? (hr : h.resolve? x i = some (j, v)) : j ∈ h.chain i := by
  induction i using Nat.strongRecOn with
  | _ i ih =>
    cases hv : (h.vars i).get? x with
    | some w =>
      rw [resolve?_of_vars hv] at hr
      cases hr
      exact mem_chain_self h j
    | none =>
      cases he : h.enclosing? i with
      | some k =>
        rw [resolve?_of_enclosing? hv he] at hr
        exact mem_chain_iff.mpr (.inr ⟨k, he, ih k (lt_of_enclosing? he) hr⟩)
      | none =>
        rw [resolve?_of_none hv he] at hr
        cases hr

/-- What is found from a frame is found from all frames inside it. -/
theorem resolves_of_mem_chain (hj : j ∈ h.chain i) (hr : h.Resolves j x) : h.Resolves i x := by
  induction i using Nat.strongRecOn with
  | _ i ih =>
    rcases mem_chain_iff.mp hj with hj | ⟨k, hk, hj⟩
    · rwa [← hj]
    · exact resolves_iff.mpr (.inr ⟨k, hk, ih k (lt_of_enclosing? hk) hj⟩)

/-- A name that is found outside some inner frames is found from there. -/
theorem resolve?_of_mem_chain (hk : k ∈ h.chain i) (hj : h.enclosing? k = some j) {l : Nat}
    (hr : h.resolve? x i = some (l, v)) (hl : l ∈ h.chain j) : h.resolve? x j = some (l, v) := by
  induction i using Nat.strongRecOn with
  | _ i ih =>
    -- the frame that has the name is older than all inner frames
    have hlj : l ≤ j := le_of_mem_chain hl
    have hjk : j < k := lt_of_enclosing? hj
    have hki : k ≤ i := le_of_mem_chain hk
    cases hv : (h.vars i).get? x with
    | some w =>
      rw [resolve?_of_vars hv] at hr
      cases hr
      omega
    | none =>
      cases he : h.enclosing? i with
      | none =>
        rw [resolve?_of_none hv he] at hr
        cases hr
      | some n =>
        rw [resolve?_of_enclosing? hv he] at hr
        rcases mem_chain_iff.mp hk with hki | ⟨n', hn', hk⟩
        · rw [hki, he] at hj
          cases hj
          exact hr
        · rw [he] at hn'
          cases hn'
          exact ih n (lt_of_enclosing? he) hk hr

/-- Later in a run a name is found in the same frame, or in one further in that did not have the name. -/
theorem resolve?_extends (e : h.Extends h') (hr : h.resolve? x i = some (j, v)) :
    ∃ j' v', h'.resolve? x i = some (j', v') ∧ (j' = j ∨ j ∈ h.chain j' ∧ (h.vars j').get? x = none) := by
  induction i using Nat.strongRecOn with
  | _ i ih =>
    cases hv : (h.vars i).get? x with
    | some w =>
      rw [resolve?_of_vars hv] at hr
      cases hr
      have hbound : ((h'.vars j).get? x).isSome = true := e.bound j x (by rw [hv]; rfl)
      obtain ⟨w', hw'⟩ := Option.isSome_iff_exists.mp hbound
      exact ⟨j, w', resolve?_of_vars hw', .inl rfl⟩
    | none =>
      have hj : j ∈ h.chain i := mem_chain_of_resolve? hr
      cases he : h.enclosing? i with
      | none =>
        rw [resolve?_of_none hv he] at hr
        cases hr
      | some k =>
        rw [resolve?_of_enclosing? hv he] at hr
        cases hv' : (h'.vars i).get? x with
        | some w' => exact ⟨i, w', resolve?_of_vars hv', .inr ⟨hj, hv⟩⟩
        | none =>
          rw [resolve?_of_enclosing? hv' (e.enclosing i k he)]
          exact ih k (lt_of_enclosing? he) hr

end Lox.Heap
