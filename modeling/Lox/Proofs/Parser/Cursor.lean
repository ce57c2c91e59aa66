import Lox.Proofs.Parser.Compositional
import Lox.Proofs.Parser.StmtSound

/-! The cursor of a parser. The tokens and a mark for the end of the input are a sequence, in which a cursor moves. What
it points at and what stands before it can be read only inside of the sequence. After an error the cursor goes on to the
next boundary of statements, and on the way it reads nothing that is not there. A run of a parser is a sequence of moves
from state to state; each of them keeps the cursor inside of the sequence and never takes it back. -/
namespace Lox.Parser

open SyntaxError (Site)

variable {tokens : List Token} {i j k : Nat}

inductive Mark where
  | token (t : Token)
  | stop

/-- The sequence in which the cursor moves: the tokens, and behind them the end of the input. -/
def marks (tokens : List Token) : List Mark := tokens.map .token ++ [.stop]

/-- What the cursor points at. -/
def peek? (ms : List Mark) (i : Nat) : Option Mark := ms[i]?

/-- What stands before the cursor. Before the first mark there is nothing. -/
def previous? (ms : List Mark) : Nat → Option Mark
  | 0 => none
  | i + 1 => ms[i]?

/-- Moves the cursor one further, unless it is at the end, and reads what stands before it then. -/
def advance? (ms : List Mark) (i : Nat) : Option Nat := do
  let next := match ← peek? ms i with
    | .token _ => i + 1
    | .stop => i
  let _ ← previous? ms next
  return next

def isBoundary : Mark → Mark → Bool
  | .token last, .token t => last.lexeme = .punct .semicolon ∨ startsStatement t
  | _, _ => true

def settle? (ms : List Mark) : (fuel : Nat) → Nat → Option Nat
  | 0, _ => none
  | fuel + 1, i => do
    match ← peek? ms i with
    | .stop => return i
    | mark => if isBoundary (← previous? ms i) mark then return i else settle? ms fuel (← advance? ms i)

def synchronize? (ms : List Mark) (i : Nat) : Option Nat := do settle? ms ms.length (← advance? ms i)

/-! ### Reading -/

section reading

variable {t last : Token} {before rest : List Token}

theorem peek?_token : peek? (marks (before ++ t :: rest)) before.length = some (.token t) := by
  simp [peek?, marks]

theorem peek?_end (tokens : List Token) : peek? (marks tokens) tokens.length = some .stop := by
  simp [peek?, marks]

theorem previous?_token : previous? (marks (before ++ t :: rest)) (before.length + 1) = some (.token t) :=
  peek?_token

theorem advance?_token : advance? (marks (before ++ t :: rest)) before.length = some (before.length + 1) := by
  simp [advance?, peek?_token, previous?_token]

/-- At the end the cursor stays where it is, and the last token is read. -/
theorem advance?_end : advance? (marks (before ++ [last])) (before.length + 1) = some (before.length + 1) := by
  have hpeek := peek?_end (before ++ [last])
  rw [List.length_append, List.length_singleton] at hpeek
  simp [advance?, hpeek, previous?_token]

/-- A cursor behind a token that has been dropped comes to where parsing goes on. -/
theorem settle?_eq {fuel : Nat} (hf : rest.length < fuel) :
    settle? (marks (before ++ last :: rest)) fuel (before.length + 1) =
      some ((before ++ last :: rest).length - (skipFrom last rest).length) := by
  induction rest generalizing before last fuel with
  | nil =>
    obtain ⟨fuel, rfl⟩ : ∃ k, fuel = k + 1 := Nat.exists_eq_add_one.mpr hf
    have hpeek := peek?_end (before ++ [last])
    rw [List.length_append, List.length_singleton] at hpeek
    simp [settle?, hpeek, skipFrom]
  | cons t rest ih =>
    obtain ⟨fuel, rfl⟩ : ∃ k, fuel = k + 1 := Nat.exists_eq_add_one.mpr (Nat.zero_lt_of_lt hf)
    have hsplit : before ++ last :: t :: rest = (before ++ [last]) ++ t :: rest := by simp
    have hlength : (before ++ [last]).length = before.length + 1 := by simp
    have hpeek : peek? (marks (before ++ last :: t :: rest)) (before.length + 1) = some (.token t) := by
      rw [hsplit, ← hlength]
      exact peek?_token
    unfold settle? skipFrom
    by_cases hstop : last.lexeme = .punct .semicolon ∨ startsStatement t = true
    · have hhere : before.length + 1 = (before ++ last :: t :: rest).length - (t :: rest).length := by
        rw [hsplit, List.length_append, Nat.add_sub_cancel, hlength]
      rw [if_pos hstop, ← hhere]
      simp [hpeek, previous?_token, isBoundary, hstop]
    · have hadvance : advance? (marks (before ++ last :: t :: rest)) (before.length + 1) =
          some (before.length + 1 + 1) := by
        rw [hsplit, ← hlength]
        exact advance?_token
      have hnext := @ih t (before ++ [last]) fuel (Nat.lt_of_succ_lt_succ hf)
      rw [← hsplit, hlength] at hnext
      simp [hpeek, previous?_token, isBoundary, hstop, hadvance, hnext]

/-- After an error the cursor goes where parsing goes on, and on its way it reads no mark that is not there. This needs
a token before the end, which is read if the error was found there. -/
theorem synchronize?_eq (hne : tokens ≠ []) (hi : i ≤ tokens.length) :
    synchronize? (marks tokens) i = some (tokens.length - (skip (tokens.drop i)).length) := by
  have hmarks : (marks tokens).length = tokens.length + 1 := by simp [marks]
  unfold synchronize?
  rw [hmarks]
  rcases Nat.lt_or_eq_of_le hi with hlt | rfl
  · obtain ⟨before, t, rest, rfl, rfl⟩ : ∃ before t rest, tokens = before ++ t :: rest ∧ before.length = i := by
      refine ⟨tokens.take i, tokens[i], tokens.drop (i + 1), ?_, by simp [hi]⟩
      rw [List.getElem_cons_drop, List.take_append_drop]
    rw [advance?_token]
    simp only [Option.bind_eq_bind, Option.bind_some]
    rw [settle?_eq (by simp; omega), List.drop_left]
    rfl
  · obtain ⟨before, last, rfl⟩ : ∃ before last, tokens = before ++ [last] :=
      ⟨_, _, (List.dropLast_concat_getLast hne).symm⟩
    rw [List.drop_length, List.length_append, List.length_singleton, advance?_end]
    simp only [Option.bind_eq_bind, Option.bind_some]
    rw [settle?_eq (Nat.succ_pos _)]
    simp [skip, skipFrom]

/-- At least one token is dropped, if there is one. -/
theorem skip_le (ts : List Token) : (skip ts).length ≤ ts.length ∧ (ts ≠ [] → (skip ts).length < ts.length) := by
  obtain ⟨us, hus, hne⟩ := skip_suffix ts
  have hlength := congrArg List.length hus
  rw [List.length_append] at hlength
  refine ⟨by omega, fun h => ?_⟩
  have hpos := List.length_pos_iff.mpr (hne h)
  omega

/-- After an error the cursor is further on, unless the error was found at the end. -/
theorem synchronize?_bounds (hi : i ≤ tokens.length) (hj : synchronize? (marks tokens) i = some j) :
    j ≤ tokens.length ∧ (i < j ∨ i = tokens.length ∧ j = tokens.length) := by
  by_cases hne : tokens = []
  · -- before the end there is no token that could be read
    subst hne
    obtain rfl : i = 0 := Nat.le_zero.mp hi
    simp [synchronize?, advance?, peek?, marks, previous?] at hj
  · rw [synchronize?_eq hne hi] at hj
    obtain rfl := Option.some.inj hj
    have hdrop : (tokens.drop i).length = tokens.length - i := List.length_drop
    obtain ⟨hle, hlt⟩ := skip_le (tokens.drop i)
    refine ⟨Nat.sub_le _ _, ?_⟩
    rcases Nat.lt_or_eq_of_le hi with hin | hend
    · have hshort := hlt (List.ne_nil_of_length_pos (by omega))
      left
      omega
    · right
      omega

end reading

/-! ### Moves -/

def Mark.site (endPos : Pos) : Mark → Site
  | token t => .token t
  | stop => .endOfInput endPos

inductive Act where
  | take (t : Token)
  /-- An error is reported from which the parser can go on. -/
  | remark (e : SyntaxError)
  /-- An error is reported, and the parser gives up. -/
  | fail (e : SyntaxError)
  /-- Parsing goes on at a boundary of statements. -/
  | resume

structure Move where
  act : Act
  source : State
  target : State

namespace Move

def take (s : State) (t : Token) (rest : List Token) : Move := ⟨.take t, s, { s with rest }⟩

def remark (s : State) (cause : SyntaxError.Cause) (site : Site) : Move :=
  ⟨.remark ⟨cause, site⟩, s, s.report cause site⟩

def fail (s : State) (cause : SyntaxError.Cause) : Move := ⟨.fail ⟨cause, s.site⟩, s, s.report cause s.site⟩

def resume (s : State) : Move := ⟨.resume, s, s.resume⟩

def error? (m : Move) : Option SyntaxError :=
  match m.act with
  | .remark e | .fail e => some e
  | .take _ | .resume => none

def resumed? (m : Move) : Option Nat :=
  match m.act with
  | .resume => some m.target.site.pos.line
  | .take _ | .remark _ | .fail _ => none

/-- How many tokens are left where a fatal error is blamed. -/
def blamed? (m : Move) : Option Nat :=
  match m.act with
  | .fail _ => some m.source.rest.length
  | .take _ | .remark _ | .resume => none

end Move

def Linked : State → List Move → State → Prop
  | s, [], t => s = t
  | s, m :: moves, t => m.source = s ∧ Linked m.target moves t

/-- The cursor stands behind `i` tokens. -/
structure State.At (tokens : List Token) (endPos : Pos) (i : Nat) (s : State) : Prop where
  rest : ∃ before, before.length = i ∧ tokens = before ++ s.rest
  ends : s.endPos = endPos

/-- What is read of the sequence when the cursor goes from `i` to `j` is there: what it points at, and what stands before
it. A fatal error is blamed on what the cursor points at. -/
def Act.Reads (tokens : List Token) (endPos : Pos) (i j : Nat) : Act → Prop
  | .take t => peek? (marks tokens) i = some (.token t) ∧ advance? (marks tokens) i = some j ∧
    previous? (marks tokens) j = some (.token t)
  | .remark e => e.cause.isFatal = false ∧ j = i
  | .fail e => e.cause.isFatal = true ∧ j = i ∧
    ∃ mark, peek? (marks tokens) i = some mark ∧ e.site = mark.site endPos
  | .resume => synchronize? (marks tokens) i = some j

/-- The move keeps the cursor inside of the sequence, and does not take it back. -/
def Move.Inside (tokens : List Token) (endPos : Pos) (m : Move) : Prop :=
  ∃ i j, m.source.At tokens endPos i ∧ m.target.At tokens endPos j ∧ i ≤ j ∧ j ≤ tokens.length ∧
    m.act.Reads tokens endPos i j

section states

variable {endPos : Pos} {s : State} {cause : SyntaxError.Cause} {site : Site}

/-- A state of a parser has its cursor inside of the sequence. -/
theorem le_of_at (hs : s.At tokens endPos i) : i ≤ tokens.length := by
  obtain ⟨⟨before, rfl, htokens⟩, -⟩ := hs
  rw [htokens, List.length_append]
  exact Nat.le_add_right _ _

/-- An error that is found now is blamed on what the cursor points at. -/
theorem site_of_at (hs : s.At tokens endPos i) :
    ∃ mark, peek? (marks tokens) i = some mark ∧ s.site = mark.site endPos := by
  obtain ⟨⟨before, rfl, htokens⟩, hends⟩ := hs
  unfold State.site
  cases hr : s.rest with
  | nil =>
    rw [hr, List.append_nil] at htokens
    refine ⟨.stop, ?_, congrArg _ hends⟩
    rw [← htokens]
    exact peek?_end tokens
  | cons t rest =>
    rw [hr] at htokens
    refine ⟨.token t, ?_, rfl⟩
    rw [htokens]
    exact peek?_token

theorem at_take {x : Token} {rest : List Token} (hs : s.At tokens endPos i) (hr : s.rest = x :: rest) :
    State.At tokens endPos (i + 1) { s with rest } := by
  obtain ⟨⟨before, rfl, htokens⟩, hends⟩ := hs
  exact ⟨⟨before ++ [x], by simp, by simp [htokens, hr]⟩, hends⟩

theorem at_report (hs : s.At tokens endPos i) : (s.report cause site).At tokens endPos i := ⟨hs.rest, hs.ends⟩

/-- Where parsing goes on is where a cursor comes to that looks for a boundary of statements. -/
theorem at_resume (hne : tokens ≠ []) (hs : s.At tokens endPos i) :
    ∃ j, s.resume.At tokens endPos j ∧ synchronize? (marks tokens) i = some j := by
  obtain ⟨⟨before, rfl, htokens⟩, hends⟩ := hs
  obtain ⟨dropped, hdropped, -⟩ := skip_suffix s.rest
  have hlength := congrArg List.length htokens
  have hsplit := congrArg List.length hdropped
  rw [List.length_append] at hlength hsplit
  have hsync := synchronize?_eq hne (i := before.length) (by omega)
  have hdrop : tokens.drop before.length = s.rest := by rw [htokens, List.drop_left]
  have hj : tokens.length - (skip s.rest).length = before.length + dropped.length := by omega
  rw [hdrop, hj] at hsync
  refine ⟨_, ⟨⟨before ++ dropped, List.length_append, ?_⟩, hends⟩, hsync⟩
  change tokens = before ++ dropped ++ skip s.rest
  rw [List.append_assoc, ← hdropped]
  exact htokens

/-! Each move stays inside. -/

/-- The token that is taken is the one at the cursor, and it stands before the cursor then. -/
theorem inside_take {x : Token} {rest : List Token} (hs : s.At tokens endPos i) (hr : s.rest = x :: rest) :
    (Move.take s x rest).Inside tokens endPos := by
  have hnext := at_take hs hr
  refine ⟨i, i + 1, hs, hnext, Nat.le_succ i, le_of_at hnext, ?_⟩
  obtain ⟨⟨before, rfl, htokens⟩, -⟩ := hs
  rw [hr] at htokens
  rw [htokens]
  exact ⟨peek?_token, advance?_token, previous?_token⟩

theorem inside_remark (hs : s.At tokens endPos i) (hc : cause.isFatal = false) :
    (Move.remark s cause site).Inside tokens endPos :=
  ⟨i, i, hs, at_report hs, Nat.le_refl i, le_of_at hs, hc, rfl⟩

theorem inside_fail (hs : s.At tokens endPos i) (hc : cause.isFatal = true) :
    (Move.fail s cause).Inside tokens endPos :=
  ⟨i, i, hs, at_report hs, Nat.le_refl i, le_of_at hs, hc, rfl, site_of_at hs⟩

/-- After an error the cursor goes on, and not beyond the end. -/
theorem inside_resume (hne : tokens ≠ []) (hs : s.At tokens endPos i) : (Move.resume s).Inside tokens endPos := by
  obtain ⟨j, hj, hsync⟩ := at_resume hne hs
  obtain ⟨hle, hforward⟩ := synchronize?_bounds (le_of_at hs) hsync
  exact ⟨i, j, hs, hj, by omega, hle, hsync⟩

end states

end Lox.Parser
