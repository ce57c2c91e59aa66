import Lox.Program
import Lox.Proofs.Parser.StmtComplete
import Lox.Proofs.Parser.StmtSound

/-! The programs that are found valid are those that the grammar forms. -/
namespace Lox

open Grammar Lox.Parser

namespace Parser

/-- A program is parsed to the end of the input. -/
theorem program_rest {b count : Nat} {s s' : State} {ss : List Stmt} (h : program b count s = .ok ss s') :
    s'.rest = [] := by
  induction count generalizing s ss with
  | zero => cases h
  | succ count ih =>
    unfold program at h
    rw [bind_apply] at h
    change (if s.rest.isEmpty = true then _ else _ : Parser (List Stmt)) s = _ at h
    by_cases he : s.rest.isEmpty = true
    · rw [if_pos he] at h
      cases h
      exact List.isEmpty_iff.mp he
    · rw [if_neg he, bind_apply] at h
      cases hd : declaration b {} s with
      | error e t =>
        rw [hd] at h
        cases h
      | ok first t =>
        rw [hd] at h
        change (program b count >>= _) t = _ at h
        rw [bind_apply] at h
        cases hp : program b count t with
        | error e u =>
          rw [hp] at h
          cases h
        | ok others u =>
          rw [hp] at h
          cases h
          exact ih hp

theorem reads_program {ts : List Token} {b k : Nat} (h : Sequence (Declared {}) ts) (hb : ts.length + 3 ≤ b)
    (hk : ts.length < k) : ∃ ss, Reads (program b k) ts [] [] ss := by
  induction h generalizing k with
  | nil =>
    obtain ⟨k, rfl⟩ : ∃ j, k = j + 1 := ⟨k - 1, by omega⟩
    exact ⟨[], leads_atEnd (leads_refl _ _)⟩
  | @cons ts us hts hus ih =>
    have helse : NotNext (.keyword .kwElse) (us ++ []) := notNext_else_of_declared hus (notNext_nil _)
    rw [List.length_append] at hb hk
    have hlen : ts.length + (us ++ []).length + 3 ≤ b := by
      rw [List.append_nil]
      omega
    obtain ⟨s, hs⟩ := reads_declaration hts (widens_refl _) helse hlen
    obtain ⟨t, vs, rfl, -⟩ := hts.starts
    rw [List.length_cons] at hb hk
    obtain ⟨k, rfl⟩ : ∃ j, k = j + 1 := ⟨k - 1, by omega⟩
    obtain ⟨ss, hss⟩ := ih (by omega) (show us.length < k by omega)
    exact ⟨s :: ss, leads_atEnd (leads_seq hs (leads_bind_last hss (leads_refl _ _)))⟩

end Parser

namespace Program

variable {tokens : List Token} {endPos : Pos}

theorem ofTokens_ok {ss : List Stmt} {s : State}
    (h : program (tokens.length + 3) (tokens.length + 3) ⟨tokens, endPos, [], []⟩ = .ok ss s) :
    ofTokens tokens endPos = ⟨ss, s.errors.reverse, s.resumed.reverse⟩ := by
  unfold ofTokens
  simp only [h]

theorem ofTokens_error {e : Stop} {s : State}
    (h : program (tokens.length + 3) (tokens.length + 3) ⟨tokens, endPos, [], []⟩ = .error e s) :
    ofTokens tokens endPos = ⟨[], s.errors.reverse, s.resumed.reverse⟩ := by
  unfold ofTokens
  simp only [h]

/-- A valid program is parsed without an error. -/
theorem program_of_isValid (h : (ofTokens tokens endPos).isValid = true) :
    ∃ s, program (tokens.length + 3) (tokens.length + 3) ⟨tokens, endPos, [], []⟩ =
      .ok (ofTokens tokens endPos).stmts s ∧ s.errors = [] := by
  have hsound := program_sound (tokens.length + 1) (tokens.length + 3) (tokens.length + 1) (by omega) (by omega)
    ⟨tokens, endPos, [], []⟩ (Nat.lt_succ_self _)
  cases hp : program (tokens.length + 3) (tokens.length + 3) ⟨tokens, endPos, [], []⟩ with
  | error e s =>
    rw [hp] at hsound
    rw [ofTokens_error hp, isValid, List.isEmpty_reverse, List.isEmpty_iff] at h
    cases e with
    | exhausted => exact hsound.elim
    | failed =>
      -- a parser that gives up has reported an error
      have hreported := hsound.reported
      rw [h] at hreported
      exact absurd hreported (Nat.lt_irrefl _)
  | ok ss s =>
    rw [ofTokens_ok hp] at h ⊢
    rw [isValid, List.isEmpty_reverse, List.isEmpty_iff] at h
    exact ⟨s, rfl, h⟩

/-- The statements of a valid program are those that its tokens form. -/
theorem forms_of_isValid (h : (ofTokens tokens endPos).isValid = true) :
    Forms {} (.decls (ofTokens tokens endPos).stmts) tokens := by
  have hsound := program_sound (tokens.length + 1) (tokens.length + 3) (tokens.length + 1) (by omega) (by omega)
    ⟨tokens, endPos, [], []⟩ (Nat.lt_succ_self _)
  obtain ⟨s, hp, hs⟩ := program_of_isValid h
  rw [hp] at hsound
  obtain ⟨ts, htook, -, hforms⟩ := hsound
  -- the parser has come to the end, so it took all tokens
  have hall : tokens = ts := by
    have hrest := htook.rest
    rwa [program_rest hp, List.append_nil] at hrest
  rw [← hall] at hforms
  exact hforms hs

/-- The statements of a valid source are those that its tokens form. -/
theorem forms_ofSource {source : Text} (h : (ofSource source).isValid = true) :
    Forms {} (.decls (ofSource source).stmts) (Scan.ofSource source).tokens := by
  have herrors : (Scan.ofSource source).errors ++
      (ofTokens (Scan.ofSource source).tokens (Scan.ofSource source).endPos).errors = [] := List.isEmpty_iff.mp h
  -- no error at all was reported, so none by the parser
  have hparsed := (List.append_eq_nil_iff.mp herrors).2
  exact forms_of_isValid (List.isEmpty_iff.mpr hparsed)

/-- A sequence of tokens is parsed without an error if and only if the grammar forms it. -/
theorem isValid_ofTokens_iff (tokens : List Token) (endPos : Pos) :
    (ofTokens tokens endPos).isValid = true ↔ ∃ stmts, Forms {} (.decls stmts) tokens := by
  constructor
  · intro h
    exact ⟨_, forms_of_isValid h⟩
  · rintro ⟨stmts, h⟩
    -- the trees need not be the same ones: an `else` may belong to another conditional
    have hseq : Sequence (Declared {}) tokens := accepted_of_forms h
    obtain ⟨ss, hread⟩ := reads_program hseq (Nat.le_refl _) (show tokens.length < tokens.length + 3 by omega)
    have hrun := hread endPos [] []
    rw [List.append_nil] at hrun
    rw [ofTokens_ok hrun]
    rfl

end Program

end Lox
