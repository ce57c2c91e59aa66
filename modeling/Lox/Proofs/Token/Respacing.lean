import Lox.Proofs.Token.Partition

/-! The tokens of a source can be written down with blanks between them, and what is written is read as the same tokens:
a blank keeps a word from going on in the next one, and only a string has blanks inside. -/
namespace Lox

open Text

theorem Numeral.isDigit_or_point {n : Numeral} {c : UInt8} (hc : c ∈ n.bytes) :
    Text.isDigit c = true ∨ c = '.'.toUInt8 := by
  by_cases hplaces : n.places = []
  · rw [bytes_of_no_places hplaces] at hc
    exact .inl (n.isDigit c (List.mem_append_left _ hc))
  · rw [bytes_of_places hplaces] at hc
    rcases List.mem_append.mp hc with hwhole | hrest
    · exact .inl (n.isDigit c (List.mem_append_left _ hwhole))
    · rcases List.mem_cons.mp hrest with hpoint | hfraction
      · exact .inr hpoint
      · exact .inl (n.isDigit c (List.mem_append_right _ hfraction))

namespace Text

variable {b : UInt8} {w after : Text}

/-- The byte can go on no word but a string, and it does not make a comment of a slash. -/
def Stops (b : UInt8) : Prop := isNameByte b = false ∧ b ∉ ofString ".=/"

instance (b : UInt8) : Decidable (Stops b) := inferInstanceAs (Decidable (_ ∧ _))

theorem stops_of_isBlank (h : IsBlank b) : Stops b := by
  have hall : ∀ c ∈ ofString " \t\r\n", Stops c := by decide +kernel
  exact hall b h

theorem not_stops_of_isNameByte (h : isNameByte b = true) : ¬ Stops b := by
  intro hstops
  rw [hstops.1] at h
  cases h

/-- Only in strings does a word go on with a byte that stops the others. -/
theorem not_stops_of_mem (h : IsWord (b :: w)) (hb : b ≠ quote) : ∀ c ∈ w, ¬ Stops c := by
  rcases isWord_cases h with ⟨-, d, ds, hname, -, hds⟩ | ⟨-, n, hn⟩ | ⟨hquote, -⟩ | ⟨-, p, hp⟩
  · obtain ⟨-, rfl⟩ := List.cons.inj hname
    intro c hc
    exact not_stops_of_isNameByte (hds c hc)
  · intro c hc
    have hmem : c ∈ n.bytes := by simp [hn, hc]
    rcases Numeral.isDigit_or_point hmem with hdigit | rfl
    · apply not_stops_of_isNameByte
      rw [isNameByte, hdigit, Bool.or_true]
    · decide
  · exact absurd hquote hb
  · intro c hc
    cases w with
    | nil => cases hc
    | cons d w =>
      obtain ⟨-, rfl, rfl⟩ := operator_second hp
      obtain rfl := List.mem_singleton.mp hc
      decide

/-- A word that ends before a byte that stops it, or at the end of the source, is the longest one there. -/
theorem longestWord_of_stop (hw : IsWord w) (hafter : ∀ c ∈ after.head?, Stops c) : LongestWord w (w ++ after) := by
  cases w with
  | nil => exact absurd hw not_isWord_nil
  | cons b bs =>
    by_cases hb : b = quote
    · subst hb
      obtain ⟨contents, hcontents, rfl⟩ := string_of_quote hw
      exact longestWord_string hcontents
    · refine ⟨List.prefix_append _ _, hw, ?_⟩
      intro w' hprefix hw'
      by_contra hlonger
      -- a longer word goes over the byte that stops
      obtain ⟨more, rfl⟩ : b :: bs <+: w' :=
        List.prefix_of_prefix_length_le (List.prefix_append _ _) hprefix (by omega)
      obtain ⟨rest, hrest⟩ := hprefix
      rw [List.append_assoc] at hrest
      have hafter' : more ++ rest = after := List.append_cancel_left hrest
      cases more with
      | nil => simp at hlonger
      | cons c more =>
        have hstops : Stops c := hafter c (by simp [← hafter'])
        exact not_stops_of_mem hw' hb c (by simp) hstops

/-- A word does not become a comment by what stops it. -/
theorem not_comment_of_stop (hw : IsWord w) (hafter : ∀ c ∈ after.head?, Stops c) :
    ¬ ofString "//" <+: w ++ after := by
  intro h
  have hslashes : '/'.toUInt8 :: ['/'.toUInt8] <+: w ++ after := h
  rcases w with _ | ⟨b, _ | ⟨c, bs⟩⟩
  · exact not_isWord_nil hw
  · obtain ⟨-, more, rfl⟩ := List.cons_prefix_cons.mp hslashes
    exact absurd (hafter '/'.toUInt8 rfl) (by decide)
  · obtain ⟨rfl, hrest⟩ := List.cons_prefix_cons.mp hslashes
    obtain ⟨rfl, -⟩ := List.cons_prefix_cons.mp hrest
    obtain ⟨p, hp⟩ := operator_of_isWord rfl rfl (by decide) hw
    exact absurd (operator_second hp).2.1 (by decide)

end Text

/-- The words are written in order, with blanks between them, and perhaps with more behind the last one. -/
inductive Spaced : List Text → Text → Prop where
  | nil : Spaced [] []
  | last (w : Text) : Spaced [w] w
  | cons (w gap : Text) {text : Text} {words : List Text} (hgap : gap ≠ []) (hblank : ∀ b ∈ gap, IsBlank b)
    (hwords : Spaced words text) : Spaced (w :: words) (w ++ (gap ++ text))

namespace Piece

/-- A word is cut off before a byte that cannot go on with it. -/
theorem cut_of_stop {l : Lexeme} {after : Text} (hl : l.Lawful) (hafter : ∀ c ∈ after.head?, Stops c) :
    (Piece.mk (.token l) l.spelling).Cut after :=
  .token hl (longestWord_of_stop (Lexeme.isWord_of_lawful hl) hafter)
    (not_comment_of_stop (Lexeme.isWord_of_lawful hl) hafter)

theorem cut_of_blank {l : Lexeme} {after : Text} (hl : l.Lawful) (hafter : ∀ c ∈ after.head?, IsBlank c) :
    (Piece.mk (.token l) l.spelling).Cut after :=
  cut_of_stop hl fun c hc => stops_of_isBlank (hafter c hc)

theorem lawful_of_cut {p : Piece} {after : Text} {l : Lexeme} (h : p.Cut after) (hl : p.lexeme? = some l) :
    l.Lawful := by
  cases h with
  | token hlawful =>
    cases hl
    exact hlawful
  | blank | comment | overflow | openString | illegal => cases hl

end Piece

/-- Blanks in front of a text are pieces of their own. -/
theorem partition_blanks {gap text : Text} {pieces : List Piece} (hgap : ∀ b ∈ gap, IsBlank b)
    (h : Partition text pieces) : Partition (gap ++ text) (gap.map (fun b => ⟨.blank, [b]⟩) ++ pieces) := by
  induction gap with
  | nil => exact h
  | cons b gap ih =>
    have hrest := ih fun c hc => hgap c (List.mem_cons_of_mem _ hc)
    exact .cons (.blank (hgap b List.mem_cons_self) _) hrest

theorem filterMap_blanks {α : Type} (f : Piece → Option α) (hf : ∀ b, f ⟨.blank, [b]⟩ = none) (gap : Text) :
    (gap.map fun b => (⟨.blank, [b]⟩ : Piece)).filterMap f = [] := by
  apply List.filterMap_eq_nil_iff.mpr
  intro p hp
  obtain ⟨b, -, rfl⟩ := List.mem_map.mp hp
  exact hf b

/-- All lexemes of a source are lawful. -/
theorem lawful_of_partition {source : Text} {pieces : List Piece} (h : Partition source pieces) :
    ∀ l ∈ pieces.filterMap Piece.lexeme?, l.Lawful := by
  intro l hl
  obtain ⟨p, hp, hlexeme⟩ := List.mem_filterMap.mp hl
  induction h with
  | nil => cases hp
  | @cons q after pieces hq _ ih =>
    rcases List.mem_cons.mp hp with rfl | hp
    · exact Piece.lawful_of_cut hq hlexeme
    · exact ih (List.mem_filterMap.mpr ⟨p, hp, hlexeme⟩) hp

/-- Lexemes that are written with blanks between them are cut where the blanks are. -/
theorem partition_spaced {lexemes : List Lexeme} {text : Text} (hlawful : ∀ l ∈ lexemes, l.Lawful)
    (h : Spaced (lexemes.map Lexeme.spelling) text) :
    ∃ pieces, Partition text pieces ∧ pieces.filterMap Piece.lexeme? = lexemes ∧ pieces.filterMap Piece.cause? = [] := by
  induction lexemes generalizing text with
  | nil =>
    cases h with
    | nil => exact ⟨[], .nil, rfl, rfl⟩
  | cons l lexemes ih =>
    have hl : l.Lawful := hlawful l List.mem_cons_self
    have hlexemes : ∀ l ∈ lexemes, l.Lawful := fun l hl => hlawful l (List.mem_cons_of_mem _ hl)
    rw [List.map_cons] at h
    generalize hwords : lexemes.map Lexeme.spelling = words at h ih
    cases h with
    | last =>
      obtain rfl : lexemes = [] := List.map_eq_nil_iff.mp hwords
      have hcut : (Piece.mk (.token l) l.spelling).Cut [] := Piece.cut_of_blank hl (by simp)
      have hone := Partition.cons hcut .nil
      rw [List.append_nil] at hone
      exact ⟨_, hone, rfl, rfl⟩
    -- the blanks behind a token end it, and are pieces of their own
    | @cons _ gap rest _ hgap hblank hrest =>
      obtain ⟨pieces, hpieces, hsame, hnone⟩ := ih hlexemes hrest
      have hafter : ∀ c ∈ (gap ++ rest).head?, IsBlank c := by
        obtain ⟨b, bs, rfl⟩ := List.exists_cons_of_ne_nil hgap
        intro c hc
        cases hc
        exact hblank b List.mem_cons_self
      refine ⟨_, .cons (Piece.cut_of_blank hl hafter) (partition_blanks hblank hpieces), ?_, ?_⟩
      · have htoken : Piece.lexeme? ⟨.token l, l.spelling⟩ = some l := rfl
        rw [List.filterMap_cons_some htoken, List.filterMap_append, filterMap_blanks _ fun _ => rfl, List.nil_append,
          hsame]
      · have htoken : Piece.cause? ⟨.token l, l.spelling⟩ = none := rfl
        rw [List.filterMap_cons_none htoken, List.filterMap_append, filterMap_blanks _ fun _ => rfl, List.nil_append,
          hnone]

namespace Scan

/-- The tokens of any source can be written with blanks of any kind between them. What is written has no error, and its
tokens are the same ones, with their kinds, spellings and values. -/
theorem ofSource_spaced {source text : Text}
    (h : Spaced ((ofSource source).tokens.map fun t => t.lexeme.spelling) text) :
    (ofSource text).errors = [] ∧
      (ofSource text).tokens.map Token.lexeme = (ofSource source).tokens.map Token.lexeme := by
  have hlexemes : (ofSource source).tokens.map Token.lexeme = (Piece.split source).filterMap Piece.lexeme? :=
    lexemes_ofPieces _ _
  have hlawful : ∀ l ∈ (ofSource source).tokens.map Token.lexeme, l.Lawful := by
    rw [hlexemes]
    exact lawful_of_partition (partition_split source)
  rw [← Function.comp_def, ← List.map_map] at h
  obtain ⟨pieces, hpieces, hsame, hnone⟩ := partition_spaced hlawful h
  obtain rfl : pieces = Piece.split text := partition_iff.mp hpieces
  constructor
  · apply List.map_eq_nil_iff.mp
    rw [ofSource, causes_ofPieces, hnone]
  · rw [ofSource, lexemes_ofPieces, hsame]

/-- Equals signs, a numeral and a point stay apart, although a rejected byte stands between them, and a string keeps its
slashes and its line. -/
theorem ofSource_spaced_signs :
    (ofSource "=@=1.@5\"//\n\"x").errors.length = 2 ∧
    Spaced ((ofSource "=@=1.@5\"//\n\"x").tokens.map fun t => t.lexeme.spelling) "=\t=\n1\r.  5 \"//\n\"\nx" ∧
    (ofSource "=\t=\n1\r.  5 \"//\n\"\nx").errors = [] ∧
    (ofSource "=\t=\n1\r.  5 \"//\n\"\nx").tokens.map Token.lexeme =
      (ofSource "=@=1.@5\"//\n\"x").tokens.map Token.lexeme := by
  have hspaced : Spaced ((ofSource "=@=1.@5\"//\n\"x").tokens.map fun t => t.lexeme.spelling)
      "=\t=\n1\r.  5 \"//\n\"\nx" := by
    have hwords : ((ofSource "=@=1.@5\"//\n\"x").tokens.map fun t => t.lexeme.spelling) =
        [ofString "=", ofString "=", ofString "1", ofString ".", ofString "5", ofString "\"//\n\"", ofString "x"] := by
      decide +kernel
    rw [hwords]
    have hgap (gap : Text) (h : gap ≠ [] ∧ gap.all fun b => decide (IsBlank b)) : gap ≠ [] ∧ ∀ b ∈ gap, IsBlank b := by
      simpa using h
    have htab := hgap "\t" (by decide)
    have hline := hgap "\n" (by decide)
    have hreturn := hgap "\r" (by decide)
    have hspaces := hgap "  " (by decide)
    have hspace := hgap " " (by decide)
    exact .cons _ _ htab.1 htab.2 (.cons _ _ hline.1 hline.2 (.cons _ _ hreturn.1 hreturn.2
      (.cons _ _ hspaces.1 hspaces.2 (.cons _ _ hspace.1 hspace.2 (.cons _ _ hline.1 hline.2 (.last _))))))
  exact ⟨by decide +kernel, hspaced, ofSource_spaced hspaced⟩

end Scan
end Lox
