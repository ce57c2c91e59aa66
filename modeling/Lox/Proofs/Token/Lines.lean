import Lox.Proofs.Token.Partition

/-! Where the tokens and the errors of a source stand: on the lines that the line breaks before the ends of their bytes
lead to, wherever these line breaks are. -/
namespace Lox

open Text

namespace Piece

def Found (p : Pos) (pieces : List Piece) (piece : Piece) (q : Pos) : Prop :=
  ∃ ps qs, pieces = ps ++ piece :: qs ∧ q = (ps.foldl Pos.advance p).mark piece

variable {p q : Pos} {first piece : Piece} {pieces : List Piece}

theorem found_cons : Found p (first :: pieces) piece q ↔
    (piece = first ∧ q = p.mark first) ∨ Found (p.advance first) pieces piece q := by
  constructor
  · rintro ⟨ps, qs, hsplit, hq⟩
    cases ps with
    | nil =>
      obtain ⟨rfl, -⟩ := List.cons.inj hsplit
      exact .inl ⟨rfl, hq⟩
    | cons x ps =>
      obtain ⟨rfl, rfl⟩ := List.cons.inj hsplit
      exact .inr ⟨ps, qs, rfl, hq⟩
  · rintro (⟨rfl, hq⟩ | ⟨ps, qs, rfl, hq⟩)
    · exact ⟨[], pieces, rfl, hq⟩
    · exact ⟨first :: ps, qs, rfl, hq⟩

theorem not_found_nil : ¬ Found p [] piece q := by
  rintro ⟨ps, qs, hsplit, -⟩
  simp at hsplit

theorem offset_foldl_advance (p : Pos) (ps : List Piece) : p.offset ≤ (ps.foldl Pos.advance p).offset := by
  induction ps generalizing p with
  | nil => exact Nat.le_refl _
  | cons first ps ih => exact Nat.le_trans (Nat.le_add_right _ _) (ih (p.advance first))

/-- What is found from a place on does not stand before it. -/
theorem offset_of_found (h : Found p pieces piece q) : p.offset ≤ q.offset := by
  obtain ⟨ps, qs, -, rfl⟩ := h
  exact offset_foldl_advance p ps

/-- The piece is one of those that the source is split into, and the bytes `before` come before it. -/
def StandsIn (piece : Piece) (before source : Text) : Prop :=
  ∃ ps qs, split source = ps ++ piece :: qs ∧ before = (ps.map bytes).flatten

/-- The line counter of the scanner stands at the number of all line breaks up to the end of the piece. -/
theorem mark_of_split {source : Text} {ps qs : List Piece} (hsplit : split source = ps ++ piece :: qs) :
    (ps.foldl Pos.advance .start).mark piece =
      ⟨1 + ((ps.map bytes).flatten ++ piece.bytes).count newline, (ps.map bytes).flatten.length⟩ := by
  have hcounts := split_counts source
  rw [hsplit, List.forall_mem_append, List.forall_mem_cons] at hcounts
  obtain ⟨hbefore, hpiece, -⟩ := hcounts
  rw [foldl_advance .start hbefore, Pos.mark, hpiece, List.count_append]
  simp [Pos.start, Nat.add_assoc]

/-- The pieces of a source stand on the line to which the line breaks before their ends lead. -/
theorem found_start {source : Text} : Found .start (split source) piece q ↔
    ∃ before, piece.StandsIn before source ∧ q = ⟨1 + (before ++ piece.bytes).count newline, before.length⟩ := by
  constructor
  · rintro ⟨ps, qs, hsplit, rfl⟩
    exact ⟨_, ⟨ps, qs, hsplit, rfl⟩, mark_of_split hsplit⟩
  · rintro ⟨_, ⟨ps, qs, hsplit, rfl⟩, rfl⟩
    exact ⟨ps, qs, hsplit, (mark_of_split hsplit).symm⟩

end Piece

namespace Scan

open Piece (Found)

variable {p : Pos} {pieces : List Piece}

theorem mem_tokens_ofPieces {t : Token} : t ∈ (ofPieces p pieces).tokens ↔
    ∃ piece, Found p pieces piece t.pos ∧ piece.kind = .token t.lexeme := by
  induction pieces generalizing p with
  | nil => simp [ofPieces, Piece.not_found_nil]
  | cons first pieces ih =>
    simp only [Piece.found_cons, or_and_right, exists_or, ← ih, and_assoc, exists_eq_left]
    rw [ofPieces]
    cases hk : first.kind with
    | token lexeme =>
      simp only [tokens_token, tokens_items, List.mem_cons, Piece.Kind.token.injEq]
      constructor
      · rintro (rfl | ht)
        · exact .inl ⟨rfl, rfl⟩
        · exact .inr ht
      · rintro (⟨hpos, hlexeme⟩ | ht)
        · left
          rw [hlexeme, ← hpos]
        · exact .inr ht
    | blank | comment | rejected => simp

theorem mem_errors_ofPieces {e : SyntaxError} : e ∈ (ofPieces p pieces).errors ↔
    ∃ piece q, Found p pieces piece q ∧ piece.kind = .rejected e.cause ∧ e.site = .bytes q := by
  induction pieces generalizing p with
  | nil => simp [ofPieces, Piece.not_found_nil]
  | cons first pieces ih =>
    simp only [Piece.found_cons, or_and_right, exists_or, ← ih, and_assoc, exists_eq_left, exists_and_left]
    rw [ofPieces]
    cases hk : first.kind with
    | rejected cause =>
      simp only [List.mem_cons, Piece.Kind.rejected.injEq]
      constructor
      · rintro (rfl | he)
        · exact .inl ⟨rfl, rfl⟩
        · exact .inr he
      · rintro (⟨hcause, hsite⟩ | he)
        · left
          rw [hcause, ← hsite]
        · exact .inr he
    | blank | comment | token => simp

theorem endPos_ofPieces (p : Pos) (pieces : List Piece) :
    (ofPieces p pieces).endPos = pieces.foldl Pos.advance p := by
  induction pieces generalizing p with
  | nil => rfl
  | cons first pieces ih =>
    rw [List.foldl_cons, ← ih, ofPieces]
    cases first.kind with
    | blank | comment | token | rejected => rfl

/-- Tokens stand in order, and no two of them at one place. -/
theorem tokens_pairwise (hpieces : ∀ piece ∈ pieces, piece.bytes ≠ []) :
    (ofPieces p pieces).tokens.Pairwise (fun t u => t.pos.offset < u.pos.offset) := by
  induction pieces generalizing p with
  | nil => exact .nil
  | cons first pieces ih =>
    have hrest := ih (p := p.advance first) fun piece hpiece => hpieces piece (List.mem_cons_of_mem _ hpiece)
    have hpos : 0 < first.bytes.length := List.length_pos_iff.mpr (hpieces first List.mem_cons_self)
    rw [ofPieces]
    cases first.kind with
    | token lexeme =>
      refine .cons (fun t ht => ?_) hrest
      obtain ⟨piece, hfound, -⟩ := mem_tokens_ofPieces.mp ht
      have hle := Piece.offset_of_found hfound
      change p.offset < t.pos.offset
      change p.offset + first.bytes.length ≤ t.pos.offset at hle
      omega
    | blank | comment | rejected => exact hrest

end Scan

section source

variable {source : Text} {pieces : List Piece}

/-- Each piece of a partition is cut off the front of what comes then. -/
theorem cut_of_partition {p : Piece} {ps qs : List Piece} (h : Partition source pieces) (hp : pieces = ps ++ p :: qs) :
    ∃ after, p.Cut after ∧ Partition after qs := by
  induction h generalizing ps with
  | nil => simp at hp
  | @cons first after pieces hfirst hrest ih =>
    cases ps with
    | nil =>
      obtain ⟨rfl, rfl⟩ := List.cons.inj hp
      exact ⟨after, hfirst, hrest⟩
    | cons x ps => exact ih (List.cons.inj hp).2

theorem cut_of_split {p : Piece} {ps qs : List Piece} (hp : Piece.split source = ps ++ p :: qs) :
    ∃ after, p.Cut after ∧ Partition after qs :=
  cut_of_partition (partition_split source) hp

namespace Piece

/-- A token stands for the bytes that spell it. -/
theorem bytes_of_token {piece : Piece} {before : Text} {l : Lexeme} (h : piece.StandsIn before source)
    (hl : piece.kind = .token l) : piece = ⟨.token l, l.spelling⟩ := by
  obtain ⟨ps, qs, hsplit, -⟩ := h
  obtain ⟨after, hcut, -⟩ := cut_of_split hsplit
  cases hcut with
  | token =>
    cases hl
    rfl
  | blank | comment | overflow | openString | illegal => cases hl

/-- A string without an end goes on to the end of the source. -/
theorem bytes_of_unterminated {before bytes : Text}
    (h : (Piece.mk (.rejected .unterminatedString) bytes).StandsIn before source) : before ++ bytes = source := by
  obtain ⟨ps, qs, hsplit, rfl⟩ := h
  have hlast : qs = [] := by
    obtain ⟨after, hcut, hqs⟩ := cut_of_split hsplit
    generalize hpiece : Piece.mk (.rejected .unterminatedString) bytes = piece at hcut
    cases hcut with
    | openString => exact partition_iff.mp hqs
    | blank | comment | token | overflow | illegal => cases hpiece
  have hflatten := split_flatten source
  rw [hsplit, hlast] at hflatten
  simpa using hflatten

end Piece

namespace Scan

/-- No two tokens of a source are the same, since they start at different places. -/
theorem nodup_tokens (source : Text) : (ofSource source).tokens.Nodup := by
  have hpieces : ∀ piece ∈ Piece.split source, piece.bytes ≠ [] := by
    intro piece hpiece
    obtain ⟨ps, qs, hsplit⟩ := List.append_of_mem hpiece
    obtain ⟨after, hcut, -⟩ := cut_of_split hsplit
    exact Piece.cut_ne_nil hcut
  refine (tokens_pairwise hpieces).imp ?_
  rintro t u hlt rfl
  exact absurd hlt (Nat.lt_irrefl _)

/-- A token stands on the line on which its bytes end. -/
theorem mem_tokens_iff {t : Token} : t ∈ (ofSource source).tokens ↔
    ∃ before, (Piece.mk (.token t.lexeme) t.lexeme.spelling).StandsIn before source ∧
      t.pos = ⟨1 + (before ++ t.lexeme.spelling).count newline, before.length⟩ := by
  rw [ofSource, mem_tokens_ofPieces]
  constructor
  · rintro ⟨piece, hfound, hkind⟩
    obtain ⟨before, hstands, hpos⟩ := Piece.found_start.mp hfound
    obtain rfl := Piece.bytes_of_token hstands hkind
    exact ⟨before, hstands, hpos⟩
  · rintro ⟨before, hstands, hpos⟩
    exact ⟨_, Piece.found_start.mpr ⟨before, hstands, hpos⟩, rfl⟩

/-- An error of the scanner is on the line on which the rejected bytes end. -/
theorem mem_errors_iff {e : SyntaxError} : e ∈ (ofSource source).errors ↔
    ∃ before bytes, (Piece.mk (.rejected e.cause) bytes).StandsIn before source ∧
      e.site = .bytes ⟨1 + (before ++ bytes).count newline, before.length⟩ := by
  rw [ofSource, mem_errors_ofPieces]
  constructor
  · rintro ⟨⟨kind, bytes⟩, q, hfound, hkind, hsite⟩
    obtain ⟨before, hstands, rfl⟩ := Piece.found_start.mp hfound
    cases hkind
    exact ⟨before, bytes, hstands, hsite⟩
  · rintro ⟨before, bytes, hstands, hsite⟩
    exact ⟨_, _, Piece.found_start.mpr ⟨before, hstands, rfl⟩, rfl, hsite⟩

/-- The end of a source is on the line to which all its line breaks lead. -/
theorem endPos_ofSource (source : Text) : (ofSource source).endPos = ⟨1 + source.count newline, source.length⟩ := by
  rw [ofSource, endPos_ofPieces, foldl_advance .start (Piece.split_counts source), Piece.split_flatten]
  simp [Pos.start]

end Scan

end source
end Lox
