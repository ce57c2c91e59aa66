import Lox.History
import Mathlib.Data.List.Basic
import Mathlib.Tactic.Ring

/-! A bucket gives back what was recorded in it, in order. Numbers are compared by the bytes of their keys; since the
highest byte comes first, that is the order of the numbers, and an input with a larger number goes to the end. What is
read backwards is turned around by swaps. All this needs no more than the laws of buckets; a history is one of them. -/
namespace Lox

theorem Text.ne_of_lt {a b : Text} (h : a < b) : a ≠ b := by
  rintro rfl
  exact List.lt_irrefl _ h

/-- Texts of one length are compared before what follows them. -/
theorem Text.append_lt_append {a b : Text} (hlen : a.length = b.length) (h : a < b) (u v : Text) :
    a ++ u < b ++ v := by
  induction a generalizing b with
  | nil =>
    have hb : b = [] := List.eq_nil_of_length_eq_zero hlen.symm
    rw [hb] at h
    exact absurd h (List.lt_irrefl _)
  | cons x a ih =>
    obtain ⟨y, b, rfl⟩ := List.exists_cons_of_length_eq_add_one hlen.symm
    have hlen' : a.length = b.length := by simpa using hlen
    rcases List.cons_lt_cons_iff.mp h with hxy | ⟨hxy, hab⟩
    · exact List.cons_lt_cons_iff.mpr (.inl hxy)
    · exact List.cons_lt_cons_iff.mpr (.inr ⟨hxy, ih hlen' hab⟩)

theorem Text.length_bigEndian (k n : Nat) : (bigEndian k n).length = k := by
  induction k generalizing n with
  | zero => rfl
  | succ k ih => rw [bigEndian, List.length_append, ih, List.length_singleton]

/-- Numbers of `k` bytes are in the order of their bytes. -/
theorem Text.bigEndian_lt {k m n : Nat} (h : m < n) (hn : n < 256 ^ k) : bigEndian k m < bigEndian k n := by
  induction k generalizing m n with
  | zero => omega
  | succ k ih =>
    rw [bigEndian, bigEndian]
    have hhigh : n / 256 < 256 ^ k := by
      rw [pow_succ] at hn
      omega
    -- The high parts decide, and where they agree the last bytes do.
    rcases Nat.lt_or_ge (m / 256) (n / 256) with hlt | hge
    · apply append_lt_append
      · rw [length_bigEndian, length_bigEndian]
      · exact ih hlt hhigh
    · have hsame : m / 256 = n / 256 := by omega
      have hlast : UInt8.ofNat m < UInt8.ofNat n := by
        rw [UInt8.lt_iff_toNat_lt, UInt8.toNat_ofNat', UInt8.toNat_ofNat']
        omega
      rw [hsame]
      exact List.append_left_lt (List.cons_lt_cons_iff.mpr (.inl hlast))

namespace Bucket

theorem key_lt {m n : UInt64} (h : m < n) : key m < key n :=
  Text.bigEndian_lt (UInt64.lt_iff_toNat_lt.mp h) n.toNat_lt

/-- Keys are in the order of their numbers. -/
theorem key_lt_iff {m n : UInt64} : key m < key n ↔ m < n := by
  refine ⟨fun h => ?_, key_lt⟩
  by_contra hnot
  rcases UInt64.le_iff_lt_or_eq.mp (UInt64.not_lt.mp hnot) with hgt | rfl
  · exact List.lt_asymm h (key_lt hgt)
  · exact List.lt_irrefl _ h

/-! ### Recording -/

section record

variable {β : Type} [Bucket β] {b : β} {input : Text} {inputs : List Text}

open LawfulBucket

theorem append_of_ne (hne : input ≠ []) : append b input = put (next b).2 (key (next b).1) input := by
  simp [append, hne]

theorem append_nil (b : β) : append b [] = b := rfl

/-- A bucket has recorded some inputs: they are its values in the order of their keys, and no key is beyond the number
that was given out last. -/
structure Records (b : β) (inputs : List Text) : Prop where
  values : (backward b).map (·.2) = inputs.reverse
  keys : ∀ e ∈ backward b, ∃ m, m ≤ number b ∧ e.1 = key m

variable [LawfulBucket β]

theorem nodup_of_sorted {es : List (Text × Text)} (h : es.Pairwise fun e f => f.1 < e.1) : es.Nodup := by
  refine h.imp fun hlt heq => ?_
  exact Text.ne_of_lt hlt (congrArg Prod.fst heq.symm)

/-- A key above all others comes first when the bucket is read backwards. -/
theorem backward_put_of_lt {key : Text} (value : Text) (h : ∀ e ∈ backward b, e.1 < key) :
    backward (put b key value) = (key, value) :: backward b := by
  have hsorted : ((key, value) :: backward b).Pairwise fun e f => f.1 < e.1 :=
    List.pairwise_cons.mpr ⟨h, sorted b⟩
  refine List.Perm.eq_of_pairwise (fun e f _ _ hlt hgt => absurd hgt (List.lt_asymm hlt)) (sorted _) hsorted ?_
  rw [List.perm_ext_iff_of_nodup (nodup_of_sorted (sorted _)) (nodup_of_sorted hsorted)]
  intro e
  rw [mem_put, List.mem_cons]
  exact or_congr_right ⟨fun he => he.2, fun he => ⟨Text.ne_of_lt (h e he), he⟩⟩

theorem number_append (hne : input ≠ []) : number (append b input) = (next b).1 := by
  rw [append_of_ne hne, number_put, number_next]

theorem empty_records : Records (Bucket.empty : β) [] := by
  have hempty : backward (Bucket.empty : β) = [] := backward_empty
  exact ⟨by rw [hempty]; rfl, by rw [hempty]; exact List.forall_mem_nil _⟩

/-- An input that gets a larger number is recorded behind all others. -/
theorem Records.append (hr : Records b inputs) (hne : input ≠ []) (hlt : number b < number (Bucket.append b input)) :
    Records (Bucket.append b input) (inputs ++ [input]) := by
  have hnumber := number_append (b := b) hne
  rw [hnumber] at hlt
  have hlast : ∀ e ∈ backward (next b).2, e.1 < key (next b).1 := by
    intro e he
    rw [backward_next] at he
    obtain ⟨m, hm, hkey⟩ := hr.keys e he
    rw [hkey]
    exact key_lt (UInt64.lt_of_le_of_lt hm hlt)
  have hback : backward (Bucket.append b input) = (key (next b).1, input) :: backward b := by
    rw [append_of_ne hne, backward_put_of_lt input hlast, backward_next]
  constructor
  · rw [hback, List.map_cons, hr.values, List.reverse_append]
    rfl
  · rw [hback, hnumber]
    refine List.forall_mem_cons.mpr ⟨⟨_, UInt64.le_refl _, rfl⟩, fun e he => ?_⟩
    obtain ⟨m, hm, hkey⟩ := hr.keys e he
    exact ⟨m, UInt64.le_of_lt (UInt64.lt_of_le_of_lt hm hlt), hkey⟩

end record

/-! ### Showing -/

theorem getElem?_swapIfInBounds {inputs : Array Text} {i j : Nat} (hi : i < inputs.size) (hj : j < inputs.size)
    (k : Nat) : (inputs.swapIfInBounds i j)[k]? =
      if k = i then inputs[j]? else if k = j then inputs[i]? else inputs[k]? := by
  unfold Array.swapIfInBounds
  rw [dif_pos hi, dif_pos hj, Array.getElem?_swap]
  grind

/-- Swaps from the outside to the inside turn around what stands from `i` to `j`. -/
theorem getElem?_swapInwards (inputs : Array Text) (i j : Nat) (hj : j < inputs.size ∨ j ≤ i) (k : Nat) :
    (swapInwards inputs i j)[k]? = if i ≤ k ∧ k ≤ j then inputs[i + j - k]? else inputs[k]? := by
  fun_induction swapInwards inputs i j with
  | case1 inputs i j hlt ih =>
    have hin : j < inputs.size := by omega
    have hswap := getElem?_swapIfInBounds (Nat.lt_trans hlt hin) hin
    rw [ih (by rw [Array.size_swapIfInBounds]; omega), hswap, hswap]
    -- inside of the ends both sides look at the same place, and the ends have been swapped
    have hsum : i + 1 + (j - 1) - k = i + j - k := by omega
    rw [hsum]
    grind
  | case2 inputs i j hle =>
    by_cases hk : i ≤ k ∧ k ≤ j
    · have hsame : i + j - k = k := by omega
      rw [if_pos hk, hsame]
    · rw [if_neg hk]

/-- Swapping from the ends inwards turns all inputs around. -/
theorem toList_swapInwards (inputs : Array Text) :
    (swapInwards inputs 0 (inputs.size - 1)).toList = inputs.toList.reverse := by
  refine List.ext_getElem? fun k => ?_
  rw [Array.getElem?_toList, getElem?_swapInwards _ _ _ (by omega), Nat.zero_add]
  by_cases hk : k < inputs.size
  · rw [if_pos (by omega), List.getElem?_reverse (by simpa using hk), Array.getElem?_toList, Array.length_toList]
  · have hbeyond : inputs.toList.reverse[k]? = none := List.getElem?_eq_none (by simpa using hk)
    have hnone : inputs[k]? = none := Array.getElem?_eq_none (by omega)
    rw [hbeyond]
    split
    · have hempty : inputs[inputs.size - 1 - k]? = none := Array.getElem?_eq_none (by omega)
      exact hempty
    · exact hnone

/-- The last `n` items of a list; all of them if `n` is not positive. -/
def last (n : Int) (inputs : List Text) : List Text :=
  if n ≤ 0 then inputs else inputs.drop (inputs.length - n.toNat)

/-- What is collected comes behind what there was, and makes up the number that is wanted. -/
theorem toList_collect (n : Int) (inputs : Array Text) (es : List (Text × Text))
    (hle : n ≤ 0 ∨ (inputs.size : Int) ≤ n) :
    (collect n inputs es).toList =
      inputs.toList ++ (if n ≤ 0 then es else es.take (n.toNat - inputs.size)).map (·.2) := by
  induction es generalizing inputs with
  | nil => simp [collect]
  | cons e es ih =>
    rw [collect]
    split
    case isTrue hfull =>
      have hzero : n.toNat - inputs.size = 0 := by omega
      rw [if_neg (by omega), hzero, List.take_zero, List.map_nil, List.append_nil]
    case isFalse hmore =>
      have hle' : n ≤ 0 ∨ ((inputs.push e.2).size : Int) ≤ n := by
        rw [Array.size_push]
        omega
      rw [ih (inputs.push e.2) hle', Array.toList_push, Array.size_push, List.append_assoc]
      by_cases hn : n ≤ 0
      · simp [hn]
      · have hstep : n.toNat - inputs.size = (n.toNat - (inputs.size + 1)) + 1 := by omega
        simp [hn, hstep]

/-- What a bucket shows is the end of what it has recorded. -/
theorem Records.recent {β : Type} [Bucket β] {b : β} {inputs : List Text} (hr : Records b inputs) (n : Int) :
    Bucket.recent b n = last n inputs := by
  rw [Bucket.recent, toList_swapInwards, toList_collect n #[] _ (by simp; omega), last]
  by_cases hn : n ≤ 0
  · simp [hn, hr.values]
  · have hlen : (backward b).length = inputs.length := by
      have hmap := congrArg List.length hr.values
      simpa using hmap
    have htake : ((backward b).take n.toNat).map (·.2) = inputs.reverse.take n.toNat := by
      rw [List.map_take, hr.values]
    simp [hn, htake, List.take_reverse]

end Bucket

namespace History

/-- What has been put under a key takes the place of what was there, and all else is kept. -/
theorem mem_insert_iff {key value : Text} {es : List (Text × Text)} (h : es.Pairwise fun e f => e.1 < f.1)
    (e : Text × Text) : e ∈ insert key value es ↔ e = (key, value) ∨ e.1 ≠ key ∧ e ∈ es := by
  induction es with
  | nil => simp [insert]
  | cons f es ih =>
    obtain ⟨hfirst, hrest⟩ := List.pairwise_cons.mp h
    unfold insert
    split
    · next hlt =>
      -- all entries are above the key
      have habove : ∀ g ∈ f :: es, g.1 ≠ key := by
        refine List.forall_mem_cons.mpr ⟨(Text.ne_of_lt hlt).symm, fun g hg => ?_⟩
        exact (Text.ne_of_lt (List.lt_trans hlt (hfirst g hg))).symm
      rw [List.mem_cons]
      exact or_congr_right ⟨fun he => ⟨habove e he, he⟩, fun he => he.2⟩
    · split
      · next heq =>
        have habove : ∀ g ∈ es, g.1 ≠ key := by
          intro g hg
          rw [heq]
          exact (Text.ne_of_lt (hfirst g hg)).symm
        rw [List.mem_cons, List.mem_cons]
        refine or_congr_right ⟨fun he => ⟨habove e he, .inr he⟩, ?_⟩
        rintro ⟨hne, rfl | he⟩
        · exact absurd heq.symm hne
        · exact he
      · next hne =>
        rw [List.mem_cons, ih hrest, List.mem_cons]
        constructor
        · rintro (rfl | rfl | ⟨hkey, he⟩)
          · exact .inr ⟨Ne.symm hne, .inl rfl⟩
          · exact .inl rfl
          · exact .inr ⟨hkey, .inr he⟩
        · rintro (rfl | ⟨hkey, rfl | he⟩)
          · exact .inr (.inl rfl)
          · exact .inl rfl
          · exact .inr (.inr ⟨hkey, he⟩)

instance : LawfulBucket History where
  backward_empty := rfl
  sorted h := List.pairwise_reverse.mpr h.sorted
  mem_put h key value e := by
    change e ∈ (insert key value h.entries).reverse ↔ _ ∨ _ ∧ e ∈ h.entries.reverse
    rw [List.mem_reverse, List.mem_reverse]
    exact mem_insert_iff h.sorted e
  number_put _ _ _ := rfl
  backward_next _ := rfl
  number_next _ := rfl

open Bucket (Records)

section numbers

variable {h : History} {input : Text}

theorem sequence_append (h : History) (hne : input ≠ []) : (Bucket.append h input).sequence = h.sequence + 1 :=
  Bucket.number_append (b := h) hne

/-- Numbers grow as long as there are any. -/
theorem sequence_lt_append (hne : input ≠ []) (hlt : h.sequence.toNat + 1 < 2 ^ 64) :
    h.sequence < (Bucket.append h input).sequence := by
  rw [sequence_append h hne, UInt64.lt_iff_toNat_lt, UInt64.toNat_add]
  change _ < (h.sequence.toNat + 1) % 2 ^ 64
  omega

/-- An input takes one number at most. -/
theorem sequence_append_le (h : History) (input : Text) :
    (Bucket.append h input).sequence.toNat ≤ h.sequence.toNat + 1 := by
  by_cases hne : input = []
  · rw [hne]
    exact Nat.le_succ _
  · rw [sequence_append h hne, UInt64.toNat_add]
    exact Nat.mod_le _ _

end numbers

end History
end Lox
