import Lox.Text.Basic

/-! Names with their values, in the order in which the names were first bound. A name is bound at most once. -/
namespace Lox

abbrev Bindings (α : Type) := List (Text × α)

namespace Bindings

variable {α : Type}

def get? (b : Bindings α) (name : Text) : Option α := b.lookup name

def insert (name : Text) (value : α) : Bindings α → Bindings α
  -- a name that is bound already keeps its place
  | [] => [(name, value)]
  | (key, old) :: rest =>
    if key = name then (key, value) :: rest else (key, old) :: insert name value rest

def sorted (b : Bindings α) : Bindings α := b.mergeSort fun x y => decide (x.1 ≤ y.1)

@[simp] theorem get?_nil (name : Text) : get? ([] : Bindings α) name = none := rfl

theorem get?_insert_self (b : Bindings α) (name : Text) (value : α) :
    get? (insert name value b) name = some value := by
  induction b with
  | nil => simp [insert, get?]
  | cons x rest ih =>
    obtain ⟨key, old⟩ := x
    by_cases h : key = name
    · simp [insert, get?, h]
    · have : (name == key) = false := by simpa using Ne.symm h
      simpa [insert, get?, h, List.lookup_cons, this] using ih

/-- A name that is bound leaves all other names as they were. -/
theorem get?_insert_of_ne (b : Bindings α) {name other : Text} (value : α) (h : other ≠ name) :
    get? (insert name value b) other = get? b other := by
  induction b with
  | nil =>
    have : (other == name) = false := by simpa using h
    simp [insert, get?, List.lookup_cons, this]
  | cons x rest ih =>
    obtain ⟨key, old⟩ := x
    by_cases hk : key = name
    · have : (other == key) = false := by simpa [hk] using h
      simp [insert, get?, hk, List.lookup_cons, hk ▸ this]
    · by_cases ho : other = key
      · simp [insert, get?, hk, ho]
      · have : (other == key) = false := by simpa using ho
        simpa [insert, get?, hk, List.lookup_cons, this] using ih

end Bindings
end Lox
