import Lox.Text.Basic

/-! The history of prompt inputs, and a store that has to be open to be used. Inputs are numbered and put into a bucket
under the bytes of their numbers; they are read from the last key backwards and then turned around. -/
namespace Lox

namespace Text

def bigEndian : Nat → Nat → Text
  | 0, _ => []
  | k + 1, n => bigEndian k (n / 256) ++ [UInt8.ofNat n]

end Text

/-- What inputs are kept in: a map in the order of its keys, which also gives out numbers. -/
class Bucket (β : Type) where
  empty : β
  /-- The number that was given out last. -/
  number : β → UInt64
  next : β → UInt64 × β
  put : β → (key value : Text) → β
  /-- Keys and values, from the last key backwards. -/
  backward : β → List (Text × Text)

/-- What a bucket promises: there is one value for each key, and keys are in the order of their bytes. -/
class LawfulBucket (β : Type) [Bucket β] : Prop where
  backward_empty : Bucket.backward (Bucket.empty : β) = []
  sorted (b : β) : (Bucket.backward b).Pairwise fun e f => f.1 < e.1
  mem_put (b : β) (key value : Text) (e : Text × Text) :
    e ∈ Bucket.backward (Bucket.put b key value) ↔ e = (key, value) ∨ e.1 ≠ key ∧ e ∈ Bucket.backward b
  number_put (b : β) (key value : Text) : Bucket.number (Bucket.put b key value) = Bucket.number b
  backward_next (b : β) : Bucket.backward (Bucket.next b).2 = Bucket.backward b
  number_next (b : β) : Bucket.number (Bucket.next b).2 = (Bucket.next b).1

namespace Bucket

variable {β : Type} [Bucket β]

def key (n : UInt64) : Text := Text.bigEndian 8 n.toNat

def append (b : β) (input : Text) : β :=
  -- an empty input is left out
  if input.isEmpty then b
  else
    let (number, b) := next b
    put b (key number) input

/-- Collects values until there are `n` of them; all if `n` is not positive. -/
def collect (n : Int) (inputs : Array Text) : List (Text × Text) → Array Text
  | [] => inputs
  | e :: es => if 0 < n ∧ inputs.size = n then inputs else collect n (inputs.push e.2) es

/-- Swaps the inputs at `i` and `j`, and then those between them, from the outside to the inside. -/
def swapInwards (inputs : Array Text) (i j : Nat) : Array Text :=
  if i < j then swapInwards (inputs.swapIfInBounds i j) (i + 1) (j - 1) else inputs
termination_by j - i

/-- The last `n` inputs, the oldest first; all of them if `n` is not positive. -/
def recent (b : β) (n : Int) : List Text :=
  let inputs := collect n #[] (backward b)
  (swapInwards inputs 0 (inputs.size - 1)).toList

end Bucket

namespace History

def insert (key value : Text) : List (Text × Text) → List (Text × Text)
  | [] => [(key, value)]
  | e :: es =>
    if key < e.1 then (key, value) :: e :: es
    else if key = e.1 then (key, value) :: es
    else e :: insert key value es

theorem mem_insert {key value : Text} {es : List (Text × Text)} {e : Text × Text} (h : e ∈ insert key value es) :
    e = (key, value) ∨ e ∈ es := by
  induction es with
  | nil => exact .inl (List.mem_singleton.mp h)
  | cons f es ih =>
    unfold insert at h
    split at h
    · exact List.mem_cons.mp h
    · split at h
      · rcases List.mem_cons.mp h with heq | hmem
        · exact .inl heq
        · exact .inr (List.mem_cons_of_mem f hmem)
      · rcases List.mem_cons.mp h with rfl | hmem
        · exact .inr List.mem_cons_self
        · exact (ih hmem).imp_right (List.mem_cons_of_mem f)

/-- Entries stay in the order of their keys. -/
theorem insert_sorted (key value : Text) {es : List (Text × Text)} (h : es.Pairwise fun e f => e.1 < f.1) :
    (insert key value es).Pairwise fun e f => e.1 < f.1 := by
  induction es with
  | nil => exact List.pairwise_singleton _ _
  | cons e es ih =>
    obtain ⟨hfirst, hrest⟩ := List.pairwise_cons.mp h
    unfold insert
    split
    · next hlt =>
      refine List.pairwise_cons.mpr ⟨fun f hf => ?_, h⟩
      rcases List.mem_cons.mp hf with rfl | hf
      · exact hlt
      · exact List.lt_trans hlt (hfirst f hf)
    · next hle =>
      split
      · next heq =>
        refine List.pairwise_cons.mpr ⟨fun f hf => ?_, hrest⟩
        rw [heq]
        exact hfirst f hf
      · next hne =>
        have hgt : e.1 < key := by
          rcases @Std.Trichotomous.rel_or_eq_or_rel_swap Text (· < ·) _ e.1 key with hlt | heq | hgt
          · exact hlt
          · exact absurd heq.symm hne
          · exact absurd hgt hle
        refine List.pairwise_cons.mpr ⟨fun f hf => ?_, ih hrest⟩
        rcases mem_insert hf with rfl | hf
        · exact hgt
        · exact hfirst f hf

end History

/-- A bucket that can be run: its entries are a list. -/
structure History where
  /-- The number that was given out last. -/
  sequence : UInt64
  /-- Keys and inputs, in the order of the keys. -/
  entries : List (Text × Text)
  sorted : entries.Pairwise fun e f => e.1 < f.1
deriving DecidableEq

namespace History

instance : Bucket History where
  empty := ⟨0, [], .nil⟩
  number := sequence
  next h := (h.sequence + 1, { h with sequence := h.sequence + 1 })
  put h key value := ⟨h.sequence, insert key value h.entries, insert_sorted key value h.sorted⟩
  backward h := h.entries.reverse

instance : Inhabited History := ⟨Bucket.empty⟩

def ofInputs (inputs : List Text) : History := inputs.foldl Bucket.append Bucket.empty

def listing (inputs : List Text) : Text := inputs.flatMap (· ++ [Text.newline])

def toText (h : History) : Text := listing (Bucket.recent h 0)

inductive Closed where
  | closed
deriving DecidableEq

def Closed.message : Closed → Text
  | closed => "history store is closed"

/-- A store that is open is locked, so it cannot be opened once more. -/
inductive Locked where
  | timeout
deriving DecidableEq

def Locked.message : Locked → Text
  | timeout => "timeout"

end History

structure Bucket.Store (β : Type) where
  bucket : β
  isOpen : Bool

namespace Bucket.Store

open History (Closed Locked)

variable {β : Type} [Bucket β]

def new : Store β := ⟨Bucket.empty, false⟩

def openStore (s : Store β) : Store β := { s with isOpen := true }

def tryOpen (s : Store β) : Except Locked (Store β) := if s.isOpen then .error .timeout else .ok s.openStore

def append (s : Store β) (input : Text) : Except Closed (Store β) :=
  if s.isOpen then .ok { s with bucket := Bucket.append s.bucket input } else .error .closed

def recent (s : Store β) (n : Int) : Except Closed (List Text) :=
  if s.isOpen then .ok (Bucket.recent s.bucket n) else .error .closed

def close (s : Store β) : Except Closed (Store β) :=
  if s.isOpen then .ok { s with isOpen := false } else .error .closed

end Bucket.Store

abbrev History.Store := Bucket.Store History

def History.Store.new : History.Store := Bucket.Store.new

end Lox
