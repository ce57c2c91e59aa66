import Lox.Proofs.History.Bucket

/-! A store is an append-only list that has to be open to be used. It keeps inputs in a bucket under numbered keys and
reads them from the last key backwards; the list just has them in order. From the first opening on, both give the same
answers to whatever is done with them, as long as each input gets a larger number than those before it. -/
namespace Lox.Bucket

open History (Closed Locked)

inductive Use where
  | opens
  | append (input : Text)
  | recent (n : Int)
  | close
deriving DecidableEq

inductive Reply where
  | done
  | shown (inputs : List Text)
  | refused (reason : Closed)
  | locked (reason : Locked)
deriving DecidableEq

def Store.perform {β : Type} [Bucket β] (s : Store β) : Use → Store β × Reply
  | .opens =>
    match s.tryOpen with
    | .ok s' => (s', .done)
    | .error e => (s, .locked e)
  | .append input =>
    match s.append input with
    | .ok s' => (s', .done)
    | .error e => (s, .refused e)
  | .recent n =>
    match s.recent n with
    | .ok inputs => (s, .shown inputs)
    | .error e => (s, .refused e)
  | .close =>
    match s.close with
    | .ok s' => (s', .done)
    | .error e => (s, .refused e)

/-- An append-only list that has to be open to be used. -/
structure Roll where
  inputs : List Text
  isOpen : Bool

def Roll.perform (r : Roll) : Use → Roll × Reply
  | .opens => if r.isOpen then (r, .locked .timeout) else ({ r with isOpen := true }, .done)
  | .append input =>
    if r.isOpen then ({ r with inputs := if input = [] then r.inputs else r.inputs ++ [input] }, .done)
    else (r, .refused .closed)
  | .recent n => if r.isOpen then (r, .shown (last n r.inputs)) else (r, .refused .closed)
  | .close => if r.isOpen then ({ r with isOpen := false }, .done) else (r, .refused .closed)

def Roll.new : Roll := ⟨[], false⟩

def run {σ : Type} (perform : σ → Use → σ × Reply) (s : σ) : List Use → σ × List Reply
  | [] => (s, [])
  | use :: uses =>
    let rest := run perform (perform s use).1 uses
    (rest.1, (perform s use).2 :: rest.2)

/-- The inputs of a bucket, the oldest first. -/
def contents {β : Type} [Bucket β] (b : β) : List Text := ((backward b).map (·.2)).reverse

/-- Each input that is recorded gets a larger number than the one before it. -/
def Increasing {β : Type} [Bucket β] (s : Store β) (uses : List Use) : Prop :=
  ∀ before input after, uses = before ++ .append input :: after →
    (run Store.perform s before).1.isOpen = true → input ≠ [] →
      number (run Store.perform s before).1.bucket <
        number (run Store.perform s (before ++ [.append input])).1.bucket

/-! ### The last inputs -/

/-- The last inputs are as many as are wanted, or all. -/
theorem length_last (n : Int) (inputs : List Text) :
    (last n inputs).length = if n ≤ 0 then inputs.length else min n.toNat inputs.length := by
  unfold last
  split
  · rfl
  · rw [List.length_drop]
    omega

/-- The last inputs are the end of all inputs. -/
theorem last_suffix (n : Int) (inputs : List Text) : last n inputs <:+ inputs := by
  unfold last
  split
  · exact List.suffix_refl _
  · exact List.drop_suffix _ _

/-! ### One use and many -/

section uses

variable {β : Type} [Bucket β] {s : Store β} {r : Roll} {use : Use} {uses : List Use}

structure Store.Refines (s : Store β) (r : Roll) : Prop where
  records : Records s.bucket r.inputs
  isOpen : s.isOpen = r.isOpen

/-- A closed store refuses all but to be opened, and stays as it is. -/
theorem Store.perform_closed (hclosed : s.isOpen = false) (hne : use ≠ .opens) :
    s.perform use = (s, .refused .closed) := by
  cases use with
  | opens => exact absurd rfl hne
  | append input => simp [Store.perform, Store.append, hclosed]
  | recent n => simp [Store.perform, Store.recent, hclosed]
  | close => simp [Store.perform, Store.close, hclosed]

theorem Roll.perform_closed (hclosed : r.isOpen = false) (hne : use ≠ .opens) :
    r.perform use = (r, .refused .closed) := by
  cases use with
  | opens => exact absurd rfl hne
  | append input => simp [Roll.perform, hclosed]
  | recent n => simp [Roll.perform, hclosed]
  | close => simp [Roll.perform, hclosed]

theorem perform_append (hopen : s.isOpen = true) (input : Text) :
    s.perform (.append input) = ({ s with bucket := Bucket.append s.bucket input }, .done) := by
  simp [Store.perform, Store.append, hopen]

theorem increasing_tail (h : Increasing s (use :: uses)) : Increasing (s.perform use).1 uses :=
  fun before input after heq => h (use :: before) input after (by rw [heq, List.cons_append])

/-- Closing a store and opening it again changes nothing. -/
theorem run_reopen (hopen : s.isOpen = true) : run Store.perform s [.close, .opens] = (s, [.done, .done]) := by
  obtain ⟨bucket, isOpen⟩ := s
  cases hopen
  rfl

variable [LawfulBucket β]

theorem new_refines : (Store.new : Store β).Refines .new := ⟨empty_records, rfl⟩

/-- Store and roll give the same answer and go on alike. -/
theorem Store.Refines.perform (h : s.Refines r) (use : Use)
    (hseq : ∀ input, use = .append input → s.isOpen = true → input ≠ [] →
      number s.bucket < number (Bucket.append s.bucket input)) :
    (s.perform use).1.Refines (r.perform use).1 ∧ (s.perform use).2 = (r.perform use).2 := by
  cases hopen : s.isOpen with
  -- a closed store can only be opened; everything else is refused and changes nothing
  | false =>
    have hroll : r.isOpen = false := h.isOpen.symm.trans hopen
    by_cases huse : use = .opens
    · subst huse
      simp only [Store.perform, Store.tryOpen, Store.openStore, Roll.perform, hopen, hroll]
      exact ⟨⟨h.records, rfl⟩, rfl⟩
    · rw [Store.perform_closed hopen huse, Roll.perform_closed hroll huse]
      exact ⟨h, rfl⟩
  | true =>
    have hroll : r.isOpen = true := h.isOpen.symm.trans hopen
    cases use with
    | opens =>
      simp only [Store.perform, Store.tryOpen, Roll.perform, hopen, hroll, if_true]
      exact ⟨h, trivial⟩
    | append input =>
      rw [perform_append hopen]
      simp only [Roll.perform, hroll, if_true, and_true]
      by_cases hne : input = []
      · rw [hne, append_nil, if_pos rfl]
        exact ⟨h.records, hopen⟩
      · rw [if_neg hne]
        exact ⟨h.records.append hne (hseq input rfl hopen hne), hopen⟩
    | recent n =>
      simp only [Store.perform, Store.recent, Roll.perform, hopen, hroll, if_true, h.records.recent]
      exact ⟨h, trivial⟩
    | close =>
      simp only [Store.perform, Store.close, Roll.perform, hopen, hroll, if_true]
      exact ⟨⟨h.records, rfl⟩, trivial⟩

/-- A store that holds what the roll says goes on doing so, and both give the same answers. -/
theorem Store.Refines.run (h : s.Refines r) (hseq : Increasing s uses) :
    (run Store.perform s uses).1.Refines (run Roll.perform r uses).1 ∧
      (run Store.perform s uses).2 = (run Roll.perform r uses).2 := by
  induction uses generalizing s r with
  | nil => exact ⟨h, rfl⟩
  | cons use uses ih =>
    have hone (input : Text) (huse : use = .append input) (hopen : s.isOpen = true) (hne : input ≠ []) :
        number s.bucket < number (Bucket.append s.bucket input) := by
      have hlt := hseq [] input uses (by rw [huse]; rfl) hopen hne
      change number s.bucket < number (s.perform (.append input)).1.bucket at hlt
      rw [perform_append hopen] at hlt
      exact hlt
    obtain ⟨hstep, hreply⟩ := h.perform use hone
    obtain ⟨hrest, hreplies⟩ := ih hstep (increasing_tail hseq)
    exact ⟨hrest, congrArg₂ List.cons hreply hreplies⟩

/-- A store that starts closed and empty is an append-only list, whatever is done with it, if each input gets a larger
number than those before it. This holds for all buckets that keep their laws. (1) All answers are those of the list, and
(2) so is what the store holds in the end, and whether it is open. (3) The list answers with its last `n` inputs, or with
all if there are not so many or if `n` is not positive. (4) Keys are in the order of their numbers. (5) A closed store
refuses all but to be opened, and stays as it is; (6) closing a store and opening it again changes nothing. -/
theorem store_refines_roll (hseq : Increasing (Store.new : Store β) uses) :
    (run Store.perform (Store.new : Store β) uses).2 = (run Roll.perform .new uses).2 ∧
    contents (run Store.perform (Store.new : Store β) uses).1.bucket = (run Roll.perform .new uses).1.inputs ∧
    (run Store.perform (Store.new : Store β) uses).1.isOpen = (run Roll.perform .new uses).1.isOpen ∧
    (∀ n inputs, last n inputs <:+ inputs ∧
      (last n inputs).length = if n ≤ 0 then inputs.length else min n.toNat inputs.length) ∧
    (∀ m n : UInt64, key m < key n ↔ m < n) ∧
    (∀ s : Store β, s.isOpen = false → ∀ use, use ≠ .opens → s.perform use = (s, .refused .closed)) ∧
    ∀ s : Store β, s.isOpen = true → run Store.perform s [.close, .opens] = (s, [.done, .done]) := by
  obtain ⟨hrefines, hreplies⟩ := new_refines.run hseq
  refine ⟨hreplies, ?_, hrefines.isOpen, fun n inputs => ⟨last_suffix n inputs, length_last n inputs⟩,
    fun m n => key_lt_iff, fun s hclosed use hne => Store.perform_closed hclosed hne, fun s hopen => run_reopen hopen⟩
  rw [contents, hrefines.records.values, List.reverse_reverse]

end uses

end Lox.Bucket

namespace Lox.History

open Bucket

/-- A use takes one number at most. -/
theorem sequence_perform_le (s : History.Store) (use : Use) :
    (s.perform use).1.bucket.sequence.toNat ≤ s.bucket.sequence.toNat + 1 := by
  cases hopen : s.isOpen with
  | false =>
    by_cases huse : use = .opens
    · simp [huse, Store.perform, Store.tryOpen, Store.openStore, hopen]
    · rw [Store.perform_closed hopen huse]
      exact Nat.le_succ _
  | true =>
    cases use with
    | append input =>
      rw [perform_append hopen]
      exact sequence_append_le _ _
    | opens | recent | close => simp [Store.perform, Store.tryOpen, Store.recent, Store.close, hopen]

/-- The numbers of a history do not run out before there are `2 ^ 64` uses. -/
theorem increasing_of_length {s : History.Store} {uses : List Use}
    (hlen : s.bucket.sequence.toNat + uses.length < 2 ^ 64) : Increasing s uses := by
  induction uses generalizing s with
  | nil => intro before input after heq; simp at heq
  | cons use uses ih =>
    rw [List.length_cons] at hlen
    intro before input after heq hopen hne
    cases before with
    | nil =>
      change number s.bucket < number (s.perform (.append input)).1.bucket
      rw [perform_append (s := s) hopen]
      exact sequence_lt_append hne (by omega)
    | cons use' before =>
      obtain ⟨rfl, rfl⟩ := List.cons.inj heq
      have hle := sequence_perform_le s use
      exact ih (by omega) before input after rfl hopen hne

/-- A store that is used before it is opened, opened twice, closed in between and used while it is closed. -/
theorem store_refines_roll_reopened :
    let uses : List Use := [.append [97], .opens, .append [97], .opens, .append [], .append [98], .close, .recent 1,
      .append [], .opens, .append [99], .recent 2, .recent 0, .close, .close]
    Increasing (Store.new : History.Store) uses ∧
    (run Store.perform (Store.new : History.Store) uses).2 = [.refused .closed, .done, .done, .locked .timeout, .done,
      .done, .done, .refused .closed, .refused .closed, .done, .done, .shown [[98], [99]],
      .shown [[97], [98], [99]], .done, .refused .closed] ∧
    contents (run Store.perform (Store.new : History.Store) uses).1.bucket = [[97], [98], [99]] := by
  intro uses
  have hseq : Increasing (Store.new : History.Store) uses := increasing_of_length (by decide)
  obtain ⟨hreplies, hentries, -⟩ := store_refines_roll hseq
  exact ⟨hseq, hreplies.trans (by decide), hentries.trans (by decide)⟩

end Lox.History
