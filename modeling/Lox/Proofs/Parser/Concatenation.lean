import Lox.Proofs.Parser.Acceptance
import Lox.Proofs.Parser.StmtExtension
import Lox.Proofs.Token.Pieces

/-! Two valid programs with a line break between them are a valid program, and its statements are those of the first and
then those of the second, which stand further on. -/
namespace Lox

open Grammar Lox.Parser

/-- A token of `more` at the place `p` has been moved behind `source`, to the place `q`. -/
def Pos.Moved (source more : Text) (p q : Pos) : Prop :=
  (∃ t ∈ (Scan.ofSource more).tokens, t.pos = p) ∧ q = p.behind source

namespace Program

variable {tokens : List Token} {endPos : Pos} {source more : Text}

/-- A valid program does not start with an `else`. -/
theorem notNext_else_of_isValid (h : (ofTokens tokens endPos).isValid = true) : NotNext (.keyword .kwElse) tokens := by
  have hseq : Sequence (Declared {}) tokens := accepted_of_forms (forms_of_isValid h)
  have hnext := notNext_else_of_declared hseq (notNext_nil _)
  rwa [List.append_nil] at hnext

variable {P P' : Pos → Pos → Prop}

theorem notNext_alike {l : Lexeme} {ts ts' : List Token} (hts : List.Forall₂ (Token.Alike P) ts ts')
    (h : NotNext l ts) : NotNext l ts' := by
  cases hts with
  | nil => exact h
  | @cons t t' ts ts' ht _ =>
    intro u hu
    cases hu
    rw [ht.1]
    exact h t rfl

/-- The tokens of two valid programs, at whatever places, one behind the other. -/
theorem ofTokens_append {ts ts' us us' : List Token} {tsEnd usEnd : Pos}
    (hts : List.Forall₂ (Token.Alike P) ts ts') (hus : List.Forall₂ (Token.Alike P') us us')
    (ht : (ofTokens ts tsEnd).isValid = true) (hu : (ofTokens us usEnd).isValid = true) (endPos : Pos) :
    (ofTokens (ts' ++ us') endPos).isValid = true ∧
    ∃ first second, (ofTokens (ts' ++ us') endPos).stmts = first ++ second ∧
      Stmt.AlikeAll P (ofTokens ts tsEnd).stmts first ∧ Stmt.AlikeAll P' (ofTokens us usEnd).stmts second := by
  obtain ⟨t, hrun, ht⟩ := program_of_isValid ht
  obtain ⟨u, hrun', hu'⟩ := program_of_isValid hu
  have hlen : (ts' ++ us').length = ts.length + us.length := by
    rw [List.length_append, hts.length_eq, hus.length_eq]
  -- the second program is parsed to its end, with nothing behind it
  have hmore (n : Nat) (s : State) (hn : us.length + 3 ≤ n) (hr : s.rest = us') (he : s.errors = []) :
      ∃ second t', program ((ts' ++ us').length + 3) n s = .ok second t' ∧
        Stmt.AlikeAll P' (ofTokens us usEnd).stmts second ∧ t'.errors = [] := by
    have hbound : us.length + 3 ≤ (ts' ++ us').length + 3 := by omega
    have hcarries := program_carries (P := P') (notNext_nil _) hbound hn ⟨us, usEnd, [], []⟩
    rw [hrun'] at hcarries
    obtain ⟨_, _, hclean⟩ := hcarries
    have hs : State.Extended P' [] ⟨us, usEnd, [], []⟩ s := ⟨⟨us', hus, by rw [hr, List.append_nil]⟩, he⟩
    obtain ⟨second, t', hsecond, halike, ht'⟩ := (hclean hu').2 (fun _ _ => rfl) s hs
    exact ⟨second, t', hsecond, halike, ht'.errors⟩
  have helse : NotNext (.keyword .kwElse) us' := notNext_alike hus (notNext_else_of_isValid hu)
  have hs : State.Extended P us' ⟨ts, tsEnd, [], []⟩ ⟨ts' ++ us', endPos, [], []⟩ := ⟨⟨ts', hts, rfl⟩, rfl⟩
  have hn : ts.length + (us.length + 3) ≤ (ts' ++ us').length + 3 := by omega
  have hbound : ts.length + 3 ≤ (ts' ++ us').length + 3 := by omega
  obtain ⟨first, second, t', hwhole, hfirst, hsecond, ht'⟩ := program_extends helse hbound hmore hrun ht hs hn
  rw [ofTokens_ok hwhole, isValid, ht']
  exact ⟨rfl, first, second, rfl, hfirst, hsecond⟩

/-- A source is valid if neither the scanner nor the parser finds anything wrong with it. -/
theorem isValid_ofSource_iff : (ofSource source).isValid = true ↔
    (Scan.ofSource source).errors = [] ∧
      (ofTokens (Scan.ofSource source).tokens (Scan.ofSource source).endPos).isValid = true := by
  unfold ofSource isValid
  simp

/-- The statements of two valid programs with a line break between them: those of the first program, and those of the
second one behind it. -/
theorem ofSource_line (hs : (ofSource source).isValid = true) (hm : (ofSource more).isValid = true) :
    (ofSource (source ++ Text.newline :: more)).isValid = true ∧
    (ofSource (source ++ Text.newline :: more)).stmts =
      (ofSource source).stmts ++ Stmt.relocateAll (Pos.behind source) (ofSource more).stmts ∧
    Stmt.AlikeAll (Pos.Moved source more) (ofSource more).stmts
      (Stmt.relocateAll (Pos.behind source) (ofSource more).stmts) := by
  obtain ⟨hse, hst⟩ := isValid_ofSource_iff.mp hs
  obtain ⟨hme, hmt⟩ := isValid_ofSource_iff.mp hm
  obtain ⟨herrors, htokens⟩ := Scan.ofSource_line hse hme
  have hsame : List.Forall₂ (Token.Alike fun p q => q = p) (Scan.ofSource source).tokens
      (Scan.ofSource source).tokens := List.forall₂_same.mpr fun t _ => ⟨rfl, rfl⟩
  have hmoved : List.Forall₂ (Token.Alike (Pos.Moved source more)) (Scan.ofSource more).tokens
      ((Scan.ofSource more).tokens.map (Token.behind source)) :=
    List.forall₂_map_right_iff.mpr (List.forall₂_same.mpr fun t ht => ⟨rfl, ⟨t, ht, rfl⟩, rfl⟩)
  obtain ⟨hvalid, first, second, hstmts, hfirst, hsecond⟩ :=
    ofTokens_append hsame hmoved hst hmt (Scan.ofSource (source ++ Text.newline :: more)).endPos
  rw [← htokens] at hvalid hstmts
  have hfirst' : first = (ofSource source).stmts := eq_of_stmts_alike (fun _ _ => id) hfirst
  have hsecond' : second = Stmt.relocateAll (Pos.behind source) (ofSource more).stmts :=
    relocate_of_stmts_alike (fun _ _ => And.right) _ hsecond
  refine ⟨isValid_ofSource_iff.mpr ⟨herrors, hvalid⟩, ?_, ?_⟩
  · rw [← hfirst', ← hsecond']
    exact hstmts
  · rw [← hsecond']
    exact hsecond

end Program
end Lox
