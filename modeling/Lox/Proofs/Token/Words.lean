import Lox.Proofs.Number.Range
import Lox.Proofs.Token.Pieces
import Mathlib.Data.List.Infix

/-! The words of the language are names, numerals, strings and operators. Where words start, the first byte decides which
of these they are, and there is a longest one. A lexeme is spelled as a word, and no two lexemes are spelled alike. -/
namespace Lox

namespace Text

variable {b : UInt8} {w rest : Text}

/-- The run of bytes before the first one that ends it. -/
theorem takeWhile_until {p : UInt8 → Bool} (hw : ∀ c ∈ w, p c = true) (hb : p b = false) :
    (w ++ b :: rest).takeWhile p = w := by
  rw [List.takeWhile_append_of_pos hw, List.takeWhile_cons_of_neg (by simp [hb]), List.append_nil]

theorem dropWhile_until {p : UInt8 → Bool} (hw : ∀ c ∈ w, p c = true) (hb : p b = false) :
    (w ++ b :: rest).dropWhile p = b :: rest := by
  rw [List.dropWhile_append_of_pos hw, List.dropWhile_cons_of_neg (by simp [hb])]

end Text

structure Numeral where
  whole : Text
  places : Text
  whole_ne_nil : whole ≠ []
  isDigit : ∀ b ∈ whole ++ places, Text.isDigit b = true

namespace Numeral

def bytes (n : Numeral) : Text := if n.places.isEmpty then n.whole else n.whole ++ "." ++ n.places

def value? (n : Numeral) : Option Number := (Decimal.ofDigits n.whole n.places).toNumber?

def Overflows (n : Numeral) : Prop :=
  Number.overflow * tenPow n.places.length ≤ Text.digitsValue (n.whole ++ n.places)

/-- A numeral has no value if it is too large. -/
theorem value?_eq_none_iff (n : Numeral) : n.value? = none ↔ n.Overflows :=
  Decimal.toNumber?_ofDigits_eq_none_iff n.whole n.places

theorem bytes_of_places {n : Numeral} (h : n.places ≠ []) : n.bytes = n.whole ++ '.'.toUInt8 :: n.places := by
  have hbytes : n.bytes = n.whole ++ "." ++ n.places := if_neg (by simpa using h)
  rw [hbytes, List.append_assoc]
  rfl

theorem bytes_of_no_places {n : Numeral} (h : n.places = []) : n.bytes = n.whole := if_pos (by simp [h])

theorem whole_eq (n : Numeral) : n.whole = n.bytes.takeWhile Text.isDigit := by
  have hwhole : ∀ d ∈ n.whole, Text.isDigit d = true := fun d hd => n.isDigit d (List.mem_append_left _ hd)
  by_cases hplaces : n.places = []
  · rw [bytes_of_no_places hplaces, List.takeWhile_eq_self_iff.mpr hwhole]
  · rw [bytes_of_places hplaces, Text.takeWhile_until hwhole rfl]

theorem places_eq (n : Numeral) : n.places = (n.bytes.dropWhile Text.isDigit).tail := by
  have hwhole : ∀ d ∈ n.whole, Text.isDigit d = true := fun d hd => n.isDigit d (List.mem_append_left _ hd)
  by_cases hplaces : n.places = []
  · rw [bytes_of_no_places hplaces, List.dropWhile_eq_nil_iff.mpr hwhole, hplaces]
    rfl
  · rw [bytes_of_places hplaces, Text.dropWhile_until hwhole rfl]
    rfl

/-- The bytes of a numeral decide about its value. -/
theorem value?_congr {n m : Numeral} (h : n.bytes = m.bytes) : n.value? = m.value? := by
  unfold value?
  rw [n.whole_eq, n.places_eq, h, ← m.whole_eq, ← m.places_eq]

theorem length_whole_le (n : Numeral) : n.whole.length ≤ n.bytes.length := by
  by_cases hplaces : n.places = []
  · rw [bytes_of_no_places hplaces]
  · rw [bytes_of_places hplaces, List.length_append]
    exact Nat.le_add_right _ _

end Numeral

namespace Text

def quote : UInt8 := '"'.toUInt8

def IsBlank (b : UInt8) : Prop := b ∈ ofString " \t\r\n"

instance (b : UInt8) : Decidable (IsBlank b) := inferInstanceAs (Decidable (b ∈ ofString " \t\r\n"))

def IsName (w : Text) : Prop := ∃ b bs, w = b :: bs ∧ isLetter b = true ∧ ∀ c ∈ bs, isNameByte c = true

inductive IsWord : Text → Prop where
  | name {w : Text} (h : IsName w) : IsWord w
  | numeral (n : Numeral) : IsWord n.bytes
  | string {contents : Text} (h : quote ∉ contents) : IsWord (quote :: contents ++ [quote])
  | operator (p : Punct) : IsWord p.spelling

/-- The text starts with the word `w`, and with no word that is longer. -/
structure LongestWord (w text : Text) : Prop where
  isPrefix : w <+: text
  isWord : IsWord w
  longest : ∀ w', w' <+: text → IsWord w' → w'.length ≤ w.length

variable {b : UInt8} {w w' rest text : Text}

/-- There is one longest word at most. -/
theorem eq_of_longestWord (h : LongestWord w text) (h' : LongestWord w' text) : w = w' := by
  have hle := h.longest w' h'.isPrefix h'.isWord
  have hge := h'.longest w h.isPrefix h.isWord
  have hprefix : w <+: w' := List.prefix_of_prefix_length_le h.isPrefix h'.isPrefix hge
  exact hprefix.eq_of_length (by omega)

theorem prefix_takeWhile {p : UInt8 → Bool} (hw : w <+: text) (h : ∀ b ∈ w, p b = true) : w <+: text.takeWhile p := by
  obtain ⟨rest, rfl⟩ := hw
  rw [List.takeWhile_append_of_pos h]
  exact List.prefix_append _ _

/-! ### What the first byte says -/

theorem not_isDigit_of_isLetter (h : isLetter b = true) : isDigit b = false := by
  have hall : ∀ i : Fin 256, isLetter ⟨⟨i⟩⟩ = true → isDigit ⟨⟨i⟩⟩ = false := by decide +kernel
  exact hall b.toFin h

theorem isDigit_of_numeral {n : Numeral} (h : n.bytes = b :: w) : isDigit b = true := by
  obtain ⟨d, ds, hwhole⟩ := List.exists_cons_of_ne_nil n.whole_ne_nil
  have hd : isDigit d = true := n.isDigit d (by simp [hwhole])
  by_cases hplaces : n.places = []
  · rw [Numeral.bytes_of_no_places hplaces, hwhole, List.cons.injEq] at h
    rw [← h.1]
    exact hd
  · rw [Numeral.bytes_of_places hplaces, hwhole, List.cons_append, List.cons.injEq] at h
    rw [← h.1]
    exact hd

/-- Operators start with bytes of their own. -/
theorem operator_first {p : Punct} (h : ofString p.spelling = b :: w) :
    isLetter b = false ∧ isDigit b = false ∧ b ≠ quote ∧ ¬ IsBlank b := by
  have hall : (ofString p.spelling).head?.all
      (fun b => !isLetter b && !isDigit b && b != quote && !(ofString " \t\r\n").contains b) = true := by
    cases p <;> decide +kernel
  rw [h] at hall
  simpa [IsBlank, and_assoc] using hall

/-- Only an equals sign can be the second byte of an operator. -/
theorem operator_second {p : Punct} {c : UInt8} (h : ofString p.spelling = b :: c :: w) :
    b ∈ ofString "!=<>" ∧ c = '='.toUInt8 ∧ w = [] := by
  have hall : (ofString p.spelling).length = 1 ∨
      ∃ d ∈ ofString "!=<>", ofString p.spelling = [d, '='.toUInt8] := by
    cases p <;> decide +kernel
  rw [h] at hall
  rcases hall with hone | ⟨d, hd, htwo⟩
  · simp at hone
  · simp only [List.cons.injEq] at htwo
    obtain ⟨rfl, hc, hw⟩ := htwo
    exact ⟨hd, hc, hw⟩

/-- The first byte of a word decides of what kind it is. -/
theorem isWord_cases (h : IsWord (b :: w)) :
    (isLetter b = true ∧ IsName (b :: w)) ∨ (isDigit b = true ∧ ∃ n : Numeral, n.bytes = b :: w) ∨
      (b = quote ∧ ∃ contents, quote ∉ contents ∧ w = contents ++ [quote]) ∨
      ((isLetter b = false ∧ isDigit b = false ∧ b ≠ quote ∧ ¬ IsBlank b) ∧
        ∃ p : Punct, ofString p.spelling = b :: w) := by
  generalize htext : b :: w = text at h
  cases h with
  | name h =>
    obtain ⟨c, cs, rfl, hc, hcs⟩ := h
    rw [List.cons.injEq] at htext
    rw [htext.1]
    exact .inl ⟨hc, c, cs, rfl, hc, hcs⟩
  | numeral n => exact .inr (.inl ⟨isDigit_of_numeral htext.symm, n, rfl⟩)
  | @string contents h =>
    rw [List.cons_append, List.cons.injEq] at htext
    exact .inr (.inr (.inl ⟨htext.1, contents, h, htext.2⟩))
  | operator p => exact .inr (.inr (.inr ⟨operator_first htext.symm, p, rfl⟩))

/-- A word that starts with a letter is a name. -/
theorem isName_of_isLetter (hb : isLetter b = true) (h : IsWord (b :: w)) : IsName (b :: w) := by
  rcases isWord_cases h with ⟨-, hname⟩ | ⟨hdigit, -⟩ | ⟨rfl, -⟩ | ⟨⟨hletter, -⟩, -⟩
  · exact hname
  · rw [not_isDigit_of_isLetter hb] at hdigit
    cases hdigit
  · cases hb
  · rw [hletter] at hb
    cases hb

/-- A word that starts with a digit is a numeral. -/
theorem numeral_of_isDigit (hb : isDigit b = true) (h : IsWord (b :: w)) : ∃ n : Numeral, n.bytes = b :: w := by
  rcases isWord_cases h with ⟨hletter, -⟩ | ⟨-, hnumeral⟩ | ⟨rfl, -⟩ | ⟨⟨-, hdigit, -⟩, -⟩
  · rw [not_isDigit_of_isLetter hletter] at hb
    cases hb
  · exact hnumeral
  · cases hb
  · rw [hdigit] at hb
    cases hb

/-- A word that starts with a quote is a string, which the next quote closes. -/
theorem string_of_quote (h : IsWord (quote :: w)) : ∃ contents, quote ∉ contents ∧ w = contents ++ [quote] := by
  rcases isWord_cases h with ⟨hletter, -⟩ | ⟨hdigit, -⟩ | ⟨-, hstring⟩ | ⟨⟨-, -, hquote, -⟩, -⟩
  · cases hletter
  · cases hdigit
  · exact hstring
  · exact absurd rfl hquote

/-- Any other word is an operator. -/
theorem operator_of_isWord (hletter : isLetter b = false) (hdigit : isDigit b = false) (hquote : b ≠ quote)
    (h : IsWord (b :: w)) : ∃ p : Punct, ofString p.spelling = b :: w := by
  rcases isWord_cases h with ⟨hletter', -⟩ | ⟨hdigit', -⟩ | ⟨hquote', -⟩ | ⟨-, hoperator⟩
  · rw [hletter] at hletter'
    cases hletter'
  · rw [hdigit] at hdigit'
    cases hdigit'
  · exact absurd hquote' hquote
  · exact hoperator

theorem not_isWord_nil : ¬ IsWord [] := by
  intro h
  generalize htext : ([] : Text) = text at h
  cases h with
  | name h =>
    obtain ⟨c, cs, rfl, -⟩ := h
    cases htext
  | numeral n =>
    by_cases hplaces : n.places = []
    · rw [Numeral.bytes_of_no_places hplaces] at htext
      exact n.whole_ne_nil htext.symm
    · rw [Numeral.bytes_of_places hplaces] at htext
      simp at htext
  | string h => cases htext
  | operator p =>
    have hlen : 0 < (ofString p.spelling).length := by cases p <;> decide
    rw [← htext] at hlen
    cases hlen

/-! ### The longest word -/

/-- A name goes on as far as there are letters and digits. -/
theorem longestWord_name (hb : isLetter b = true) : LongestWord (b :: rest.takeWhile isNameByte) (b :: rest) where
  isPrefix := List.prefix_cons_inj b |>.mpr (List.takeWhile_prefix _)
  isWord := .name ⟨b, _, rfl, hb, fun _ hc => List.mem_takeWhile_imp hc⟩
  longest := by
    intro w' hprefix hword
    cases w' with
    | nil => exact absurd hword not_isWord_nil
    | cons c cs =>
      obtain ⟨rfl, hcs⟩ := List.cons_prefix_cons.mp hprefix
      obtain ⟨d, ds, hname, -, hds⟩ := isName_of_isLetter hb hword
      cases hname
      have hle := (prefix_takeWhile hcs hds).length_le
      simpa using hle

/-- A string ends with the first quote behind its own. -/
theorem longestWord_string {contents : Text} (hc : quote ∉ contents) :
    LongestWord (quote :: contents ++ [quote]) (quote :: contents ++ [quote] ++ rest) where
  isPrefix := List.prefix_append _ _
  isWord := .string hc
  longest := by
    intro w' hprefix hword
    have hnot {text : Text} (h : quote ∉ text) : ∀ c ∈ text, (c != quote) = true := by
      intro c hc
      simp only [bne_iff_ne]
      exact fun heq => h (heq ▸ hc)
    cases w' with
    | nil => exact absurd hword not_isWord_nil
    | cons d ds =>
      simp only [List.cons_append, List.append_assoc, List.nil_append] at hprefix
      obtain ⟨rfl, more, hmore⟩ := List.cons_prefix_cons.mp hprefix
      obtain ⟨contents', hc', rfl⟩ := string_of_quote hword
      -- the contents of both strings are what stands before the first quote
      have hsame : contents' = contents := by
        rw [List.append_assoc, List.singleton_append] at hmore
        rw [← takeWhile_until (hnot hc') (bne_self_eq_false quote), hmore]
        exact takeWhile_until (hnot hc) (bne_self_eq_false quote)
      rw [hsame]
      exact Nat.le_refl _

/-- An operator of one byte is the longest word if no equals sign could go on with it. -/
theorem longestWord_single {p : Punct} (hp : ofString p.spelling = [b])
    (hb : b ∈ ofString "!=<>" → rest.head? ≠ some '='.toUInt8) : LongestWord (ofString p.spelling) (b :: rest) where
  isPrefix := by simp [hp]
  isWord := .operator p
  longest := by
    intro w' hprefix hword
    obtain ⟨hletter, hdigit, hquote, -⟩ := operator_first hp
    rw [hp]
    rcases w' with _ | ⟨c, _ | ⟨d, ds⟩⟩
    · exact absurd hword not_isWord_nil
    · exact Nat.le_refl 1
    · obtain ⟨rfl, hrest⟩ := List.cons_prefix_cons.mp hprefix
      obtain ⟨q, hq⟩ := operator_of_isWord hletter hdigit hquote hword
      obtain ⟨hdouble, rfl, -⟩ := operator_second hq
      obtain ⟨more, rfl⟩ := hrest
      exact absurd rfl (hb hdouble)

/-- An operator with an equals sign is the longest word. -/
theorem longestWord_double {p : Punct} (hp : ofString p.spelling = [b, '='.toUInt8])
    (hrest : rest.head? = some '='.toUInt8) : LongestWord (ofString p.spelling) (b :: rest) where
  isPrefix := by
    obtain ⟨more, rfl⟩ := List.head?_eq_some_iff.mp hrest
    rw [hp]
    exact ⟨more, rfl⟩
  isWord := .operator p
  longest := by
    intro w' hprefix hword
    obtain ⟨hletter, hdigit, hquote, -⟩ := operator_first hp
    rw [hp]
    rcases w' with _ | ⟨c, _ | ⟨d, ds⟩⟩
    · exact absurd hword not_isWord_nil
    · exact Nat.le_succ 1
    · obtain ⟨rfl, -⟩ := List.cons_prefix_cons.mp hprefix
      obtain ⟨q, hq⟩ := operator_of_isWord hletter hdigit hquote hword
      obtain ⟨-, -, rfl⟩ := operator_second hq
      exact Nat.le_refl 2

end Text

/-! ### Numerals -/

namespace Piece

open Text (isDigit)

variable {b : UInt8} {rest : Text}

theorem fraction_point (ds : Text) : fraction ('.'.toUInt8 :: ds) = ds.takeWhile isDigit := by
  cases ds with
  | nil => rfl
  | cons d ds =>
    by_cases hd : isDigit d = true
    · rw [List.takeWhile_cons_of_pos hd]
      exact if_pos ⟨rfl, hd⟩
    · rw [List.takeWhile_cons_of_neg hd]
      exact if_neg fun h => hd h.2

theorem isDigit_of_fraction {d : UInt8} (h : d ∈ fraction rest) : isDigit d = true := by
  rcases fraction_eq_nil_or rest with hnil | ⟨more, hmore⟩
  · rw [hnil] at h
    cases h
  · rw [List.cons_append] at hmore
    rw [← hmore, fraction_point] at h
    exact List.mem_takeWhile_imp h

def numeral (b : UInt8) (rest : Text) (hb : isDigit b = true) : Numeral where
  whole := b :: rest.takeWhile isDigit
  places := fraction (rest.dropWhile isDigit)
  whole_ne_nil := List.cons_ne_nil _ _
  isDigit := by
    intro d hd
    rcases List.mem_append.mp hd with hd | hd
    · rcases List.mem_cons.mp hd with rfl | hd
      · exact hb
      · exact List.mem_takeWhile_imp hd
    · exact isDigit_of_fraction hd

theorem number_eq (hb : isDigit b = true) : number b rest = match (numeral b rest hb).value? with
    | some value => ⟨.token (.number (numeral b rest hb).bytes value), (numeral b rest hb).bytes⟩
    | none => ⟨.rejected .invalidNumber, (numeral b rest hb).bytes⟩ := rfl

theorem bytes_number (hb : isDigit b = true) : (number b rest).bytes = (numeral b rest hb).bytes := by
  rw [number_eq hb]
  cases (numeral b rest hb).value? with
  | none => rfl
  | some value => rfl

/-- A numeral with places is read as it stands, or with more places. -/
theorem numeral_of_point {n : Numeral} {more : Text} (hb : isDigit b = true) (hplaces : n.places ≠ [])
    (h : n.bytes ++ more = b :: rest) :
    (numeral b rest hb).whole = n.whole ∧ n.places <+: (numeral b rest hb).places := by
  have hpoint : isDigit '.'.toUInt8 = false := rfl
  have hwhole : ∀ d ∈ n.whole, isDigit d = true := fun d hd => n.isDigit d (List.mem_append_left _ hd)
  have hfraction : ∀ d ∈ n.places, isDigit d = true := fun d hd => n.isDigit d (List.mem_append_right _ hd)
  rw [Numeral.bytes_of_places hplaces, List.append_assoc, List.cons_append] at h
  constructor
  · change b :: rest.takeWhile isDigit = n.whole
    rw [← List.takeWhile_cons_of_pos hb, ← h]
    exact Text.takeWhile_until hwhole hpoint
  · change n.places <+: fraction (rest.dropWhile isDigit)
    rw [← List.dropWhile_cons_of_pos hb, ← h, Text.dropWhile_until hwhole hpoint, fraction_point]
    exact Text.prefix_takeWhile (List.prefix_append _ _) hfraction

/-- A numeral goes on as far as there are digits, and over one point if a digit follows it. -/
theorem longestWord_numeral (hb : isDigit b = true) : Text.LongestWord (numeral b rest hb).bytes (b :: rest) where
  isPrefix := by
    have hfits : (number b rest).Fits b rest := number_fits
    obtain ⟨taken, left, hbytes, hrest⟩ := hfits
    rw [bytes_number hb] at hbytes
    rw [hbytes, ← hrest]
    exact ⟨left, rfl⟩
  isWord := .numeral _
  longest := by
    intro w' hprefix hword
    cases w' with
    | nil => exact absurd hword Text.not_isWord_nil
    | cons c cs =>
      obtain ⟨rfl, -⟩ := List.cons_prefix_cons.mp hprefix
      obtain ⟨n, hn⟩ := Text.numeral_of_isDigit hb hword
      rw [← hn] at hprefix ⊢
      -- a longer numeral would have more digits, before the point or behind it
      by_cases hplaces : n.places = []
      · have hwhole : n.whole <+: (c :: rest).takeWhile isDigit := by
          rw [Numeral.bytes_of_no_places hplaces] at hprefix
          exact Text.prefix_takeWhile hprefix fun d hd => n.isDigit d (List.mem_append_left _ hd)
        rw [List.takeWhile_cons_of_pos hb] at hwhole
        rw [Numeral.bytes_of_no_places hplaces]
        exact hwhole.length_le.trans (Numeral.length_whole_le (numeral c rest hb))
      · obtain ⟨more, hmore⟩ := hprefix
        obtain ⟨hwhole, hfraction⟩ := numeral_of_point hb hplaces hmore
        have hplaces' : (numeral c rest hb).places ≠ [] := by
          intro hnil
          rw [hnil] at hfraction
          exact hplaces (List.prefix_nil.mp hfraction)
        have hle := hfraction.length_le
        rw [Numeral.bytes_of_places hplaces, Numeral.bytes_of_places hplaces', hwhole]
        simpa using hle

end Piece

/-! ### Lexemes -/

namespace Lexeme

open Text (quote IsName IsWord)

/-- What holds of the lexemes of a source. A name does not spell a keyword, a string has no quote inside, and the value
of a number is the one nearest to its digits. -/
def Lawful : Lexeme → Prop
  | .punct _ | .keyword _ => True
  | .identifier name => IsName name ∧ ∀ k : Keyword, Text.ofString k.spelling ≠ name
  | .string contents => quote ∉ contents
  | .number digits value => ∃ n : Numeral, n.bytes = digits ∧ n.value? = some value

variable {l l' : Lexeme}

theorem isName_keyword (k : Keyword) : IsName k.spelling := by
  have hall : ∃ b bs, Text.ofString k.spelling = b :: bs ∧ Text.isLetter b = true ∧ bs.all Text.isNameByte = true := by
    cases k <;> exact ⟨_, _, rfl, rfl, rfl⟩
  obtain ⟨b, bs, heq, hb, hbs⟩ := hall
  exact ⟨b, bs, heq, hb, List.all_eq_true.mp hbs⟩

theorem spelling_string (contents : Text) : (string contents).spelling = quote :: contents ++ [quote] := rfl

/-- A lawful lexeme is spelled by a word. -/
theorem isWord_of_lawful (hl : l.Lawful) : IsWord l.spelling := by
  cases l with
  | punct p => exact .operator p
  | keyword k => exact .name (isName_keyword k)
  | identifier name => exact .name hl.1
  | string contents => exact .string hl
  | number digits value =>
    obtain ⟨n, rfl, -⟩ := hl
    exact .numeral n

theorem punct_injective {p q : Punct} (h : Text.ofString p.spelling = Text.ofString q.spelling) : p = q := by
  have hall : ∀ p ∈ Punct.all, ∀ q ∈ Punct.all, Text.ofString p.spelling = Text.ofString q.spelling → p = q := by
    decide +kernel
  have hmem (p : Punct) : p ∈ Punct.all := by cases p <;> decide
  exact hall p (hmem p) q (hmem q) h

theorem keyword_injective {k k' : Keyword} (h : Text.ofString k.spelling = Text.ofString k'.spelling) : k = k' := by
  have hall : ∀ k ∈ Keyword.all, ∀ k' ∈ Keyword.all, Text.ofString k.spelling = Text.ofString k'.spelling → k = k' := by
    decide +kernel
  have hmem (k : Keyword) : k ∈ Keyword.all := by cases k <;> decide
  exact hall k (hmem k) k' (hmem k') h

def signs : Lexeme → Bool × Bool × Bool
  | .punct _ => (false, false, false)
  | .keyword _ | .identifier _ => (true, false, false)
  | .number _ _ => (false, true, false)
  | .string _ => (false, false, true)

/-- The first byte of a word tells what kind of word it is. -/
theorem signs_of_lawful {b : UInt8} {w : Text} (hl : l.Lawful) (h : l.spelling = b :: w) :
    (Text.isLetter b, Text.isDigit b, b == quote) = l.signs := by
  have hname (hn : IsName l.spelling) : (Text.isLetter b, Text.isDigit b, b == quote) = (true, false, false) := by
    obtain ⟨c, cs, heq, hc, -⟩ := hn
    rw [h, List.cons.injEq] at heq
    rw [heq.1, hc, Text.not_isDigit_of_isLetter hc]
    have hquote : c ≠ quote := by
      rintro rfl
      cases hc
    simp [hquote]
  cases l with
  | punct p =>
    obtain ⟨hletter, hdigit, hquote, -⟩ := Text.operator_first h
    simp [signs, hletter, hdigit, hquote]
  | keyword k => exact hname (isName_keyword k)
  | identifier name => exact hname hl.1
  | string contents =>
    rw [spelling_string, List.cons_append, List.cons.injEq] at h
    rw [← h.1]
    rfl
  | number digits value =>
    obtain ⟨n, rfl, -⟩ := hl
    have hdigit := Text.isDigit_of_numeral h
    have hletter : Text.isLetter b = false := by
      by_contra hletter
      rw [Bool.not_eq_false] at hletter
      rw [Text.not_isDigit_of_isLetter hletter] at hdigit
      cases hdigit
    have hquote : b ≠ quote := by
      rintro rfl
      cases hdigit
    simp [signs, hletter, hdigit, hquote]

/-- No two lexemes are spelled alike. -/
theorem eq_of_spelling (hl : l.Lawful) (hl' : l'.Lawful) (h : l.spelling = l'.spelling) : l = l' := by
  -- the first byte tells the classes of tokens apart, all but keywords and identifiers
  have hsigns : l.signs = l'.signs := by
    have hne : l.spelling ≠ [] := by
      intro hnil
      have hword := isWord_of_lawful hl
      rw [hnil] at hword
      exact Text.not_isWord_nil hword
    obtain ⟨b, w, hw⟩ := List.exists_cons_of_ne_nil hne
    rw [← signs_of_lawful hl hw, signs_of_lawful hl' (h ▸ hw)]
  cases l with
  | punct p =>
    cases l' with
    | punct q => exact congrArg _ (punct_injective h)
    | keyword | identifier | string | number => cases hsigns
  | keyword k =>
    cases l' with
    | keyword k' => exact congrArg _ (keyword_injective h)
    | identifier name => exact absurd h (hl'.2 k)
    | punct | string | number => cases hsigns
  | identifier name =>
    cases l' with
    | keyword k => exact absurd h.symm (hl.2 k)
    | identifier name' => exact congrArg _ h
    | punct | string | number => cases hsigns
  | string contents =>
    cases l' with
    | string contents' =>
      rw [spelling_string, spelling_string, List.cons_append, List.cons_append, List.cons.injEq] at h
      exact congrArg _ (List.append_cancel_right h.2)
    | punct | keyword | identifier | number => cases hsigns
  | number digits value =>
    cases l' with
    | number digits' value' =>
      obtain ⟨n, rfl, hn⟩ := hl
      obtain ⟨m, rfl, hm⟩ := hl'
      rw [Numeral.value?_congr h, hm, Option.some.injEq] at hn
      rw [show n.bytes = m.bytes from h, hn]
    | punct | keyword | identifier | string => cases hsigns

end Lexeme
end Lox
