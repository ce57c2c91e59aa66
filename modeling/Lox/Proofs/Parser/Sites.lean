import Lox.Proofs.Parser.Acceptance
import Lox.Proofs.Parser.Locality
import Lox.Proofs.Token.Lines

/-! What errors are blamed on. What a parser does to its state is to take a token, to report an error at a token or
where it stands, and to go on after an error. A property that these steps keep is kept by the parse of a whole program;
one of them is that all errors are blamed on tokens of the source or on its end. With the lines of the tokens this gives
the line of every error. -/
namespace Lox.Parser

variable {α β : Type}

/-- A property of states that each step of a parser keeps. The tokens that it takes have the property `K`, and only such
tokens are blamed later. -/
structure Invariant (K : Token → Prop) (I : State → Prop) : Prop where
  taken {s : State} {t : Token} {rest : List Token} : I s → s.rest = t :: rest → K t ∧ I { s with rest }
  reported {s : State} {t : Token} (cause : SyntaxError.Cause) : I s → K t → I (s.report cause (.token t))
  reportedHere {s : State} (cause : SyntaxError.Cause) : I s → I (s.report cause s.site)
  resumed {s : State} : I s → I s.resume

def Keeps (I : State → Prop) (p : Parser α) : Prop := ∀ s, I s → I (lastState (p s))

variable {K : Token → Prop} {I : State → Prop} {p : Parser α}

theorem keeps_pure (a : α) : Keeps I (pure a) := fun _ h => h

theorem keeps_seq {k : α → Parser β} (hp : Keeps I p) (hk : ∀ a, Keeps I (k a)) : Keeps I (p >>= k) := by
  intro s hs
  have hfirst := hp s hs
  rw [bind_apply]
  cases hr : p s with
  | ok a t =>
    rw [hr] at hfirst
    exact hk a t hfirst
  | error e t =>
    rw [hr] at hfirst
    exact hfirst

theorem keeps_look {g : State → Bool} : Keeps I (fun s => .ok (g s) s : Parser Bool) := fun _ h => h

section steps

variable (hI : Invariant K I)
include hI

theorem keeps_fail (cause : SyntaxError.Cause) : Keeps I (fail cause : Parser α) := fun _ h => hI.reportedHere cause h

theorem keeps_reportHere (cause : SyntaxError.Cause) : Keeps I (reportHere cause) := fun _ h => hI.reportedHere cause h

theorem keeps_report {t : Token} (cause : SyntaxError.Cause) (ht : K t) : Keeps I (report cause (.token t)) :=
  fun _ h => hI.reported cause h ht

theorem keeps_take {f : Token → Option β} {k : Option β → Parser α}
    (hsome : ∀ t b, f t = some b → K t → Keeps I (k (some b))) (hnone : Keeps I (k none)) :
    Keeps I (take? f >>= k) := by
  intro s hs
  rw [bind_apply]
  rcases next_cases f s.rest with ⟨t, rest, b, hr, hf⟩ | hpass
  · obtain ⟨hK, hrest⟩ := hI.taken hs hr
    rw [take?_some hr hf]
    exact hsome t b hf hK _ hrest
  · rw [take?_none hpass]
    exact hnone s hs

theorem keeps_accept {l : Lexeme} {k : Option Pos → Parser α} (hk : ∀ q, Keeps I (k q)) :
    Keeps I (accept? l >>= k) :=
  keeps_take hI (fun _ b _ _ => hk (some b)) (hk none)

theorem keeps_expect (l : Lexeme) (cause : SyntaxError.Cause) : Keeps I (expect l cause) := by
  refine keeps_accept hI fun q => ?_
  cases q with
  | some q => exact keeps_pure q
  | none => exact keeps_fail hI cause

/-- To keep a property follows the structure of the grammar. -/
theorem keeps_compositional : Compositional K True fun _ _ {_} p _ => Keeps I p where
  opens h := h
  done := keeps_pure
  finish _ h := keeps_seq h fun _ => keeps_pure _
  seq := keeps_seq
  fails _ := keeps_fail hI _
  exhausts _ _ h := h
  take := keeps_take hI
  last _ _ := keeps_expect hI _ _
  orElse hp hsome hnone := by
    refine keeps_seq hp fun a => keeps_accept hI fun q => ?_
    cases q with
    | some q => exact hsome a q
    | none =>
      obtain ⟨b, hb, -⟩ := hnone a
      rw [hb]
      exact keeps_pure b
  looks h := keeps_seq keeps_look h
  looksForEnd h := keeps_seq keeps_look h
  remarksHere _ h := keeps_seq (keeps_reportHere hI _) fun _ => h
  remarks _ ht h := keeps_seq (keeps_report hI _ ht) fun _ => h
  remarksOnce _ _ ht h := keeps_seq (keeps_report hI _ ht) fun _ => h
  remarksOther _ _ _ h := h

theorem keeps_recovering (hp : Keeps I p) : Keeps I (recovering p) := by
  intro s hs
  have hlast := hp s hs
  unfold recovering
  cases hr : p s with
  | ok a t =>
    rw [hr] at hlast
    exact hlast
  | error e t =>
    rw [hr] at hlast
    cases e with
    | failed => exact hI.resumed hlast
    | exhausted => exact hlast

theorem keeps_inner (bound : Nat) :
    (innerAt bound).Related K True (fun _ _ {_} p _ => Keeps I p) (innerAt bound) := by
  induction bound with
  | zero => exact ⟨Nat.le_refl _, fun _ _ h => h, fun _ _ _ _ h => h⟩
  | succ bound ih =>
    refine ⟨Nat.le_refl _, fun hc => ih.anyStatement (keeps_compositional hI) hc, fun _ _ hc => ?_⟩
    exact keeps_recovering hI (ih.strictDeclaration (keeps_compositional hI) hc)

theorem keeps_declaration (bound : Nat) (c : Context) : Keeps I (declaration bound c) := by
  cases bound with
  | zero => exact fun _ h => h
  | succ bound =>
    have hstrict := (keeps_inner hI bound).strictDeclaration (keeps_compositional hI) (.inl rfl : c.Matches True c)
    exact keeps_recovering hI hstrict

/-- What each step keeps is kept by the parse of a program. -/
theorem keeps_program (bound count : Nat) : Keeps I (program bound count) := by
  induction count with
  | zero => exact fun _ h => h
  | succ count ih =>
    refine keeps_seq keeps_look fun b => ?_
    split
    · exact keeps_pure _
    · exact keeps_seq (keeps_declaration hI bound {}) fun first => keeps_seq ih fun others => keeps_pure _

end steps

structure State.Blames (tokens : List Token) (endPos : Pos) (s : State) : Prop where
  ends : s.endPos = endPos
  left : ∀ t ∈ s.rest, t ∈ tokens
  blamed : ∀ e ∈ s.errors, (∃ t ∈ tokens, e.site = .token t) ∨ e.site = .endOfInput endPos

/-- An error that is found now is blamed on one of the tokens, or on the end. -/
theorem site_of_blames {tokens : List Token} {endPos : Pos} {s : State} (h : s.Blames tokens endPos) :
    (∃ t ∈ tokens, s.site = .token t) ∨ s.site = .endOfInput endPos := by
  unfold State.site
  cases hr : s.rest with
  | nil => exact .inr (congrArg _ h.ends)
  | cons t rest =>
    have ht : t ∈ s.rest := by simp [hr]
    exact .inl ⟨t, h.left t ht, rfl⟩

/-- No step of a parser blames anything else. -/
theorem blames_invariant (tokens : List Token) (endPos : Pos) :
    Invariant (· ∈ tokens) (State.Blames tokens endPos) where
  taken {s t rest} h hr := by
    have hleft := h.left
    rw [hr] at hleft
    exact ⟨hleft t List.mem_cons_self, h.ends, fun u hu => hleft u (List.mem_cons_of_mem _ hu), h.blamed⟩
  reported {s t} cause h ht :=
    ⟨h.ends, h.left, List.forall_mem_cons.mpr ⟨.inl ⟨t, ht, rfl⟩, h.blamed⟩⟩
  reportedHere {s} cause h :=
    ⟨h.ends, h.left, List.forall_mem_cons.mpr ⟨site_of_blames h, h.blamed⟩⟩
  resumed {s} h := by
    obtain ⟨us, hus, -⟩ := skip_suffix s.rest
    refine ⟨h.ends, fun t ht => h.left t ?_, h.blamed⟩
    rw [hus]
    exact List.mem_append_right us ht

end Lox.Parser

namespace Lox.Program

open Lox.Parser Text

/-- All errors of a program are blamed on one of its tokens, or on the end of the input. -/
theorem errors_blamed {tokens : List Token} {endPos : Pos} {e : SyntaxError}
    (he : e ∈ (ofTokens tokens endPos).errors) :
    (∃ t ∈ tokens, e.site = .token t) ∨ e.site = .endOfInput endPos := by
  have hstart : State.Blames tokens endPos ⟨tokens, endPos, [], []⟩ :=
    ⟨rfl, fun _ ht => ht, fun _ he => absurd he List.not_mem_nil⟩
  have hlast := keeps_program (blames_invariant tokens endPos) (tokens.length + 3) (tokens.length + 3) _ hstart
  cases hr : program (tokens.length + 3) (tokens.length + 3) ⟨tokens, endPos, [], []⟩ with
  | ok ss s =>
    rw [hr] at hlast
    rw [ofTokens_ok hr] at he
    exact hlast.blamed e (List.mem_reverse.mp he)
  | error stop s =>
    rw [hr] at hlast
    rw [ofTokens_error hr] at he
    exact hlast.blamed e (List.mem_reverse.mp he)

/-- The text of an error starts with the line of what is blamed. -/
theorem line_toText (e : SyntaxError) : ("[line " ++ Text.ofNat e.site.pos.line ++ "] Error" : Text) <+: e.toText := by
  unfold SyntaxError.toText
  exact ⟨_, by simp only [List.append_assoc]; rfl⟩

/-- Tokens and rejected bytes are on the line to which all line breaks before their ends lead, so a string is on the line
of its closing quote, and a string without an end on the last line. The end of the input is on the last line. Every other
error is blamed on a token of the source or on its end, and its text starts with the line of what it is blamed on. -/
theorem ofSource_lines (source : Text) :
    (∀ t, t ∈ (Scan.ofSource source).tokens ↔
      ∃ before, (Piece.mk (.token t.lexeme) t.lexeme.spelling).StandsIn before source ∧
        t.pos = ⟨1 + (before ++ t.lexeme.spelling).count newline, before.length⟩) ∧
    (∀ e, e ∈ (Scan.ofSource source).errors ↔
      ∃ before bytes, (Piece.mk (.rejected e.cause) bytes).StandsIn before source ∧
        e.site = .bytes ⟨1 + (before ++ bytes).count newline, before.length⟩) ∧
    (∀ e ∈ (Scan.ofSource source).errors, e.cause = .unterminatedString →
      e.site.pos.line = 1 + source.count newline) ∧
    (Scan.ofSource source).items.getLast? = some (.ending ⟨1 + source.count newline, source.length⟩) ∧
    (Scan.ofSource source).endPos.line = 1 + source.count newline ∧
    ∀ e ∈ (ofSource source).errors,
      (e ∈ (Scan.ofSource source).errors ∨ (∃ t ∈ (Scan.ofSource source).tokens, e.site = .token t) ∨
        e.site = .endOfInput (Scan.ofSource source).endPos) ∧
      ("[line " ++ Text.ofNat e.site.pos.line ++ "] Error" : Text) <+: e.toText := by
  refine ⟨fun t => Scan.mem_tokens_iff, fun e => Scan.mem_errors_iff, ?_, ?_, ?_, ?_⟩
  · intro e he hcause
    obtain ⟨before, bytes, hstands, hsite⟩ := Scan.mem_errors_iff.mp he
    rw [hcause] at hstands
    rw [hsite, Piece.bytes_of_unterminated hstands]
    rfl
  · rw [← Scan.endPos_ofSource, Scan.ofSource, Scan.items_ofPieces, List.getLast?_concat]
  · rw [Scan.endPos_ofSource]
  · intro e he
    refine ⟨?_, line_toText e⟩
    rcases List.mem_append.mp he with hscan | hparse
    · exact .inl hscan
    · exact .inr (errors_blamed hparse)

/-- A string over two lines, a byte that is rejected, a comment, a token that no expression starts with, and a string
without an end. -/
theorem ofSource_lines_strings :
    let source : Text := "print \"a\nb\" @\n; // c\n) \"x\n"
    ⟨.string "a\nb", ⟨2, 6⟩⟩ ∈ (Scan.ofSource source).tokens ∧
    ⟨.unterminatedString, .bytes ⟨5, 23⟩⟩ ∈ (Scan.ofSource source).errors ∧ 5 = 1 + source.count newline ∧
    ⟨.expectExpression, .token ⟨.punct .rightParen, ⟨4, 21⟩⟩⟩ ∈ (ofSource source).errors ∧
    Text.ofString "[line 4] Error" <+: SyntaxError.toText ⟨.expectExpression, .token ⟨.punct .rightParen, ⟨4, 21⟩⟩⟩ := by
  intro source
  obtain ⟨-, -, hopen, -, -, herrors⟩ := ofSource_lines source
  have hstring : ⟨.unterminatedString, .bytes ⟨5, 23⟩⟩ ∈ (Scan.ofSource source).errors := by decide +kernel
  have hparen : ⟨.expectExpression, .token ⟨.punct .rightParen, ⟨4, 21⟩⟩⟩ ∈ (ofSource source).errors := by decide +kernel
  exact ⟨by decide +kernel, hstring, hopen _ hstring rfl, hparen, (herrors _ hparen).2⟩

end Lox.Program
