import Lox.Token.Scan
import Mathlib.Data.List.TakeWhile

/-! The pieces of a source make up the whole of it, and a line break between two sources keeps their pieces apart: no
piece of the first source goes on behind it, unless the source ends inside a string. -/
namespace Lox

variable {b : UInt8} {rest more : Text}

theorem toUInt8_ofUInt8 (b : UInt8) : (Char.ofUInt8 b).toUInt8 = b := by
  rw [← UInt8.toNat_inj]
  exact (UInt8.toNat_ofNat' ..).trans (Nat.mod_eq_of_lt b.toNat_lt)

namespace Piece

def Fits (p : Piece) (b : UInt8) (rest : Text) : Prop := ∃ taken left, p.bytes = b :: taken ∧ taken ++ left = rest

theorem ofPunct_fits {p : Punct} (hp : Text.ofString p.spelling = [b]) : (ofPunct p).Fits b rest := ⟨[], rest, hp, rfl⟩

theorem withEqual_fits {bare followed : Punct} (hb : Text.ofString bare.spelling = [b])
    (hf : Text.ofString followed.spelling = [b, '='.toUInt8]) : (withEqual rest bare followed).Fits b rest := by
  unfold withEqual
  split
  · next heq =>
    obtain ⟨left, rfl⟩ := List.head?_eq_some_iff.mp heq
    exact ⟨['='.toUInt8], left, hf, rfl⟩
  · exact ofPunct_fits hb

theorem slashOrComment_fits (hb : b = '/'.toUInt8) : (slashOrComment b rest).Fits b rest := by
  unfold slashOrComment
  split
  · exact ⟨_, _, rfl, List.takeWhile_append_dropWhile⟩
  · rw [hb]
    exact ofPunct_fits rfl

/-- A string takes the bytes up to its closing quote, or all of them. -/
theorem string_fits : (string b rest).Fits b rest := by
  unfold string
  extract_lets contents
  split
  · next hlt =>
    have hsplit : contents ++ rest.dropWhile (· ≠ b) = rest := List.takeWhile_append_dropWhile
    -- the string ends before the source does, so a quote stands behind its contents
    have hstop := List.head?_dropWhile_not (· ≠ b) rest
    cases hd : rest.dropWhile (· ≠ b) with
    | nil =>
      rw [hd, List.append_nil] at hsplit
      rw [hsplit] at hlt
      exact absurd hlt (Nat.lt_irrefl _)
    | cons c left =>
      rw [hd] at hstop hsplit
      obtain rfl : c = b := by simpa using hstop
      refine ⟨contents ++ [c], left, rfl, ?_⟩
      rw [List.append_assoc]
      exact hsplit
  · exact ⟨rest, [], rfl, List.append_nil rest⟩

/-- A fraction follows a point, or there is none. -/
theorem fraction_eq_nil_or (rest : Text) : fraction rest = [] ∨ '.'.toUInt8 :: fraction rest <+: rest := by
  unfold fraction
  split
  · next point d more =>
    split
    · next h =>
      obtain ⟨rfl, -⟩ := h
      exact .inr (List.prefix_cons_inj _ |>.mpr (List.prefix_cons_inj d |>.mpr (List.takeWhile_prefix _)))
    · exact .inl rfl
  · exact .inl rfl

/-- A number takes the digits that follow it, and a fraction if there is one. -/
theorem number_fits : (number b rest).Fits b rest := by
  unfold number
  extract_lets whole places bytes
  have hsplit : rest.takeWhile Text.isDigit ++ rest.dropWhile Text.isDigit = rest := List.takeWhile_append_dropWhile
  have hbytes : ∃ taken left, bytes = b :: taken ∧ taken ++ left = rest := by
    rcases fraction_eq_nil_or (rest.dropWhile Text.isDigit) with hnil | ⟨left, hleft⟩
    · refine ⟨_, _, if_pos ?_, hsplit⟩
      rw [List.isEmpty_iff]
      exact hnil
    · unfold bytes
      split
      · exact ⟨_, _, rfl, hsplit⟩
      · refine ⟨rest.takeWhile Text.isDigit ++ ('.'.toUInt8 :: places), left, ?_, ?_⟩
        · rw [List.append_assoc]
          rfl
        · rw [List.append_assoc, hleft, hsplit]
  split
  · exact hbytes
  · exact hbytes

theorem word_fits : (word b rest).Fits b rest := by
  unfold word
  extract_lets name
  split
  · exact ⟨_, _, rfl, List.takeWhile_append_dropWhile⟩
  · exact ⟨_, _, rfl, List.takeWhile_append_dropWhile⟩

/-- The first piece takes the first byte, and some of those that follow. -/
theorem first_fits (b : UInt8) (rest : Text) : (first b rest).Fits b rest := by
  have hb := toUInt8_ofUInt8 b
  unfold first
  generalize Char.ofUInt8 b = c at hb
  subst hb
  split
  all_goals first
    | exact ofPunct_fits rfl
    | exact withEqual_fits rfl rfl
    | exact slashOrComment_fits rfl
    | exact string_fits
    | exact ⟨[], rest, rfl, rfl⟩
    | skip
  split_ifs
  · exact number_fits
  · exact word_fits
  · exact ⟨[], rest, rfl, rfl⟩

/-- Only words are read as names, and a word that spells a keyword is one. -/
theorem first_identifier (b : UInt8) (rest : Text) {x : Text} (hx : (first b rest).kind = .token (.identifier x)) :
    Keyword.ofName? x = none := by
  have hequal {bare followed : Punct} (hk : (withEqual rest bare followed).kind = .token (.identifier x)) : False := by
    unfold withEqual at hk
    split at hk <;> cases hk
  have hslash (hk : (slashOrComment b rest).kind = .token (.identifier x)) : False := by
    unfold slashOrComment at hk
    split at hk <;> cases hk
  have hstring (hk : (string b rest).kind = .token (.identifier x)) : False := by
    unfold string at hk
    dsimp only at hk
    split at hk <;> cases hk
  have hnumber (hk : (number b rest).kind = .token (.identifier x)) : False := by
    unfold number at hk
    dsimp only at hk
    split at hk <;> cases hk
  have hword (hk : (word b rest).kind = .token (.identifier x)) : Keyword.ofName? x = none := by
    unfold word at hk
    dsimp only at hk
    split at hk
    · cases hk
    · next hname =>
      cases hk
      exact hname
  -- every branch but the last gives a piece of another kind
  unfold first at hx
  split at hx
  all_goals first
    | cases hx
    | exact (hequal hx).elim
    | exact (hslash hx).elim
    | exact (hstring hx).elim
    | skip
  split_ifs at hx
  · exact (hnumber hx).elim
  · exact hword hx

theorem splitFrom_cons (b : UInt8) (rest : Text) :
    splitFrom 0 (b :: rest) = first b rest :: splitFrom ((first b rest).bytes.length - 1) rest := rfl

/-- The pieces of what is left of a source make it up. -/
theorem splitFrom_flatten (skip : Nat) (source : Text) :
    ((splitFrom skip source).map bytes).flatten = source.drop skip := by
  induction source generalizing skip with
  | nil =>
    unfold splitFrom
    rw [List.drop_nil]
    rfl
  | cons b rest ih =>
    cases skip with
    | succ skip => exact ih skip
    | zero =>
      obtain ⟨taken, left, hbytes, rfl⟩ := first_fits b rest
      rw [splitFrom_cons, List.map_cons, List.flatten_cons, ih, hbytes, List.length_cons, Nat.add_sub_cancel,
        List.drop_left]
      rfl

/-- No name of a source spells a keyword. -/
theorem splitFrom_identifier (skip : Nat) (source : Text) {piece : Piece} (hp : piece ∈ splitFrom skip source) {x : Text}
    (hx : piece.kind = .token (.identifier x)) : Keyword.ofName? x = none := by
  induction source generalizing skip with
  | nil => cases hp
  | cons b rest ih =>
    cases skip with
    | succ skip => exact ih skip hp
    | zero =>
      rw [splitFrom_cons] at hp
      rcases List.mem_cons.mp hp with rfl | hp
      · exact first_identifier b rest hx
      · exact ih _ hp

/-- The pieces of a source make up the whole of it. -/
theorem split_flatten (source : Text) : ((split source).map bytes).flatten = source := splitFrom_flatten 0 source

section count

/-- The lines that are counted in a piece are the line breaks among its bytes. -/
def Counts (p : Piece) : Prop := ∀ line, p.lineBehind line = line + p.bytes.count Text.newline

theorem lineInString_add (line more : Nat) (bytes : Text) :
    lineInString (line + more) bytes = lineInString line bytes + more := by
  induction bytes generalizing line with
  | nil => rfl
  | cons b bytes ih =>
    unfold lineInString
    split
    · rfl
    · rw [← ih]
      split
      · rw [Nat.add_right_comm]
      · rfl

theorem lineBehind_add (p : Piece) (line more : Nat) : p.lineBehind (line + more) = p.lineBehind line + more := by
  unfold lineBehind
  split
  · split
    · exact Nat.add_right_comm line more 1
    · rfl
  · exact lineInString_add _ _ _
  · exact lineInString_add _ _ _
  · rfl
  · rfl
  · rfl

/-- A walk over the inside of a string sees all its line breaks, and it ends at the closing quote. -/
theorem lineInString_eq (line : Nat) {contents : Text} (h : '"'.toUInt8 ∉ contents) (rest : Text)
    (hrest : rest = [] ∨ rest.head? = some '"'.toUInt8) :
    lineInString line (contents ++ rest) = line + contents.count Text.newline := by
  induction contents generalizing line with
  | nil =>
    rcases hrest with rfl | hquote
    · rfl
    · obtain ⟨rest, rfl⟩ := List.head?_eq_some_iff.mp hquote
      exact if_pos rfl
  | cons b contents ih =>
    obtain ⟨hne, hcontents⟩ := not_or.mp (List.mem_cons.not.mp h)
    rw [List.cons_append, lineInString, if_neg (Ne.symm hne), ih _ hcontents, List.count_cons]
    by_cases hb : b = Text.newline
    · simp [hb, Nat.add_comm, Nat.add_left_comm]
    · simp [hb]

/-- Where no line is counted, there must be no line break. -/
theorem counts_of_not_mem {p : Piece} (hkind : ∀ line, p.lineBehind line = line) (hbytes : Text.newline ∉ p.bytes) :
    p.Counts := by
  intro line
  rw [hkind, List.count_eq_zero_of_not_mem hbytes, Nat.add_zero]

theorem ofPunct_counts (p : Punct) : (ofPunct p).Counts :=
  counts_of_not_mem (fun _ => rfl) (by cases p <;> decide)

theorem withEqual_counts (bare followed : Punct) : (withEqual rest bare followed).Counts := by
  unfold withEqual
  split
  · exact ofPunct_counts followed
  · exact ofPunct_counts bare

theorem not_mem_takeWhile {q : UInt8 → Bool} (hb : q b = false) : b ∉ rest.takeWhile q := by
  intro hmem
  have hq := List.mem_takeWhile_imp hmem
  rw [hb] at hq
  cases hq

/-- A comment ends before the line break, which is counted as a blank. -/
theorem slashOrComment_counts (hb : b ≠ Text.newline) : (slashOrComment b rest).Counts := by
  unfold slashOrComment
  split
  · refine counts_of_not_mem (fun _ => rfl) (List.not_mem_cons_of_ne_of_not_mem hb.symm ?_)
    exact not_mem_takeWhile (by simp)
  · exact ofPunct_counts .slash

/-- In a string the lines are counted byte by byte, whether the string has an end or not. -/
theorem string_counts : (string '"'.toUInt8 rest).Counts := by
  intro line
  unfold string
  extract_lets contents
  have hcontents : '"'.toUInt8 ∉ contents := not_mem_takeWhile (by simp)
  have hquote : ('"'.toUInt8 == Text.newline) = false := rfl
  split
  · have hwalk := lineInString_eq line hcontents ['"'.toUInt8] (.inr rfl)
    simpa [lineBehind, List.count_cons, hquote] using hwalk
  · next hlt =>
    have hall : contents = rest := (List.takeWhile_prefix _).eq_of_length_le (Nat.le_of_not_lt hlt)
    have hwalk := lineInString_eq line hcontents [] (.inl rfl)
    rw [hall, List.append_nil] at hwalk
    simpa [lineBehind, List.count_cons, hquote] using hwalk

theorem newline_ne_of {q : UInt8 → Bool} (hb : q b = true) (hline : q Text.newline = false) : Text.newline ≠ b := by
  rintro rfl
  rw [hb] at hline
  cases hline

theorem fraction_digits (rest : Text) : Text.newline ∉ fraction rest := by
  intro hmem
  unfold fraction at hmem
  split at hmem
  · split at hmem
    · next h =>
      refine List.not_mem_cons_of_ne_of_not_mem (newline_ne_of h.2 rfl) ?_ hmem
      exact not_mem_takeWhile rfl
    · cases hmem
  · cases hmem

/-- There is no line break in a number, and none is counted. -/
theorem number_counts (hb : Text.isDigit b = true) : (number b rest).Counts := by
  unfold number
  extract_lets whole places bytes
  have hwhole : Text.newline ∉ whole :=
    List.not_mem_cons_of_ne_of_not_mem (newline_ne_of hb rfl) (not_mem_takeWhile rfl)
  have hpoint : Text.newline ∉ Text.ofString "." := by decide
  have hbytes : Text.newline ∉ bytes := by
    unfold bytes
    split
    · exact hwhole
    · simp only [List.mem_append, not_or]
      exact ⟨⟨hwhole, hpoint⟩, fraction_digits _⟩
  split
  · exact counts_of_not_mem (fun _ => rfl) hbytes
  · exact counts_of_not_mem (fun _ => rfl) hbytes

theorem word_counts (hb : Text.isLetter b = true) : (word b rest).Counts := by
  unfold word
  extract_lets name
  have hname : Text.newline ∉ name :=
    List.not_mem_cons_of_ne_of_not_mem (newline_ne_of hb rfl) (not_mem_takeWhile rfl)
  split
  · exact counts_of_not_mem (fun _ => rfl) hname
  · exact counts_of_not_mem (fun _ => rfl) hname

/-- A line break between two pieces is counted. -/
theorem blank_counts (b : UInt8) : (Piece.mk .blank [b]).Counts := by
  intro line
  by_cases hb : b = Text.newline
  · simp [lineBehind, hb]
  · simp [lineBehind, hb]

/-- Whatever the scanner finds, it counts the line breaks in it. -/
theorem first_counts (b : UInt8) (rest : Text) : (first b rest).Counts := by
  have hb := toUInt8_ofUInt8 b
  unfold first
  generalize hc : Char.ofUInt8 b = c at hb
  subst hb
  split
  all_goals first
    | exact ofPunct_counts _
    | exact withEqual_counts _ _
    | exact slashOrComment_counts (by decide)
    | exact string_counts
    | exact blank_counts _
    | skip
  next hline =>
    split_ifs with hdigit hletter
    · exact number_counts hdigit
    · exact word_counts hletter
    · -- a line break is a blank, so it is not rejected
      refine counts_of_not_mem (fun _ => rfl) fun hmem => hline ?_
      rw [← hc, ← List.mem_singleton.mp hmem]
      rfl

theorem splitFrom_counts (skip : Nat) (source : Text) : ∀ piece ∈ splitFrom skip source, piece.Counts := by
  induction source generalizing skip with
  | nil => exact fun piece hmem => absurd hmem List.not_mem_nil
  | cons b rest ih =>
    cases skip with
    | succ skip => exact ih skip
    | zero =>
      rw [splitFrom_cons]
      exact List.forall_mem_cons.mpr ⟨first_counts b rest, ih _⟩

/-- In each piece of a source just its line breaks are counted. -/
theorem split_counts (source : Text) : ∀ piece ∈ split source, piece.Counts := splitFrom_counts 0 source

end count

section line

/-- What stops before a line break does not go on behind it. -/
theorem takeWhile_line {p : UInt8 → Bool} (hp : p Text.newline = false) (rest more : Text) :
    (rest ++ Text.newline :: more).takeWhile p = rest.takeWhile p := by
  induction rest with
  | nil => exact List.takeWhile_cons_of_neg (by rw [hp]; nofun)
  | cons c rest ih =>
    rw [List.cons_append, List.takeWhile_cons, List.takeWhile_cons, ih]

theorem dropWhile_line {p : UInt8 → Bool} (hp : p Text.newline = false) (rest more : Text) :
    (rest ++ Text.newline :: more).dropWhile p = rest.dropWhile p ++ Text.newline :: more := by
  induction rest with
  | nil => exact List.dropWhile_cons_of_neg (by rw [hp]; nofun)
  | cons c rest ih =>
    rw [List.cons_append, List.dropWhile_cons, List.dropWhile_cons, ih]
    split <;> rfl

theorem head?_line {c : UInt8} (hc : c ≠ Text.newline) (rest more : Text) :
    (rest ++ Text.newline :: more).head? = some c ↔ rest.head? = some c := by
  cases rest with
  | nil => simpa using hc.symm
  | cons d rest => exact Iff.rfl

theorem withEqual_line (bare followed : Punct) :
    withEqual (rest ++ Text.newline :: more) bare followed = withEqual rest bare followed := by
  unfold withEqual
  simp only [head?_line (c := '='.toUInt8) (by decide)]

theorem slashOrComment_line : slashOrComment b (rest ++ Text.newline :: more) = slashOrComment b rest := by
  unfold slashOrComment
  simp only [head?_line (c := '/'.toUInt8) (by decide), takeWhile_line (p := (· ≠ Text.newline)) (by simp)]

/-- A string that is closed is not changed by what follows the line. -/
theorem string_line (h : (string b rest).kind ≠ .rejected .unterminatedString) :
    string b (rest ++ Text.newline :: more) = string b rest := by
  unfold string at h ⊢
  by_cases hlt : (rest.takeWhile (· ≠ b)).length < rest.length
  · have hsame : (rest ++ Text.newline :: more).takeWhile (· ≠ b) = rest.takeWhile (· ≠ b) := by
      rw [List.takeWhile_append, if_neg (Nat.ne_of_lt hlt)]
    have hlonger : (rest.takeWhile (· ≠ b)).length < (rest ++ Text.newline :: more).length := by
      rw [List.length_append]
      omega
    simp only [hsame, if_pos hlt, if_pos hlonger]
  · simp only [if_neg hlt] at h
    exact absurd rfl h

theorem fraction_line : fraction (rest ++ Text.newline :: more) = fraction rest := by
  match rest with
  | [] =>
    cases more with
    | nil => rfl
    | cons d more =>
      have hpoint : ¬ (Text.newline = '.'.toUInt8 ∧ Text.isDigit d = true) := fun h => absurd h.1 (by decide)
      exact if_neg (t := d :: more.takeWhile Text.isDigit) hpoint
  | [point] =>
    have hdigit : ¬ (point = '.'.toUInt8 ∧ Text.isDigit Text.newline = true) := fun h => absurd h.2 (by decide)
    exact if_neg hdigit
  | point :: d :: tail =>
    unfold fraction
    simp only [List.cons_append, takeWhile_line (p := Text.isDigit) rfl]

theorem number_line : number b (rest ++ Text.newline :: more) = number b rest := by
  unfold number
  simp only [takeWhile_line (p := Text.isDigit) rfl, dropWhile_line (p := Text.isDigit) rfl, fraction_line]

theorem word_line : word b (rest ++ Text.newline :: more) = word b rest := by
  unfold word
  simp only [takeWhile_line (p := Text.isNameByte) rfl]

/-- A piece that is not a string without an end is the same when a line break and more follow the source. -/
theorem first_line (h : (first b rest).kind ≠ .rejected .unterminatedString) :
    first b (rest ++ Text.newline :: more) = first b rest := by
  unfold first at h ⊢
  generalize Char.ofUInt8 b = c at h ⊢
  split
  all_goals first
    | rfl
    | exact withEqual_line _ _
    | exact slashOrComment_line
    | exact string_line h
    | skip
  simp only [number_line, word_line]

/-- The pieces of a source whose strings all end, of a line break, and of another source. -/
theorem splitFrom_line (skip : Nat) (source more : Text) (hs : skip ≤ source.length)
    (h : ∀ p ∈ splitFrom skip source, p.kind ≠ .rejected .unterminatedString) :
    splitFrom skip (source ++ Text.newline :: more) =
      splitFrom skip source ++ ⟨.blank, [Text.newline]⟩ :: split more := by
  induction source generalizing skip with
  | nil =>
    obtain rfl : skip = 0 := Nat.le_zero.mp hs
    rfl
  | cons b rest ih =>
    cases skip with
    | succ skip => exact ih skip (Nat.le_of_succ_le_succ hs) h
    | zero =>
      rw [splitFrom_cons] at h ⊢
      obtain ⟨taken, left, hbytes, hrest⟩ := first_fits b rest
      have hskip : (first b rest).bytes.length - 1 ≤ rest.length := by
        rw [hbytes, ← hrest, List.length_append, List.length_cons]
        omega
      have hfirst : first b (rest ++ Text.newline :: more) = first b rest := first_line (h _ List.mem_cons_self)
      rw [List.cons_append, splitFrom_cons, hfirst, ih _ hskip fun p hp => h p (List.mem_cons_of_mem _ hp)]
      rfl

end line

end Piece

/-- Where a place of a source stands if the source follows another one and a line break. -/
def Pos.behind (source : Text) (p : Pos) : Pos :=
  ⟨p.line + (1 + source.count Text.newline), p.offset + (1 + source.length)⟩

def Token.behind (source : Text) (t : Token) : Token := ⟨t.lexeme, t.pos.behind source⟩

/-- Behind pieces that are counted, the line is the one that all their line breaks lead to. -/
theorem foldl_advance (p : Pos) {pieces : List Piece} (h : ∀ piece ∈ pieces, piece.Counts) :
    pieces.foldl Pos.advance p =
      ⟨p.line + (pieces.map Piece.bytes).flatten.count Text.newline,
        p.offset + (pieces.map Piece.bytes).flatten.length⟩ := by
  induction pieces generalizing p with
  | nil => rfl
  | cons piece pieces ih =>
    obtain ⟨hfirst, hrest⟩ := List.forall_mem_cons.mp h
    rw [List.foldl_cons, ih _ hrest, List.map_cons, List.flatten_cons, List.count_append, List.length_append,
      ← Nat.add_assoc, ← Nat.add_assoc, ← hfirst p.line]
    rfl

/-- A piece leads as far as it would, behind another source too. -/
theorem advance_behind (p : Pos) (source : Text) (piece : Piece) :
    (p.behind source).advance piece = (p.advance piece).behind source := by
  unfold Pos.advance Pos.behind
  rw [Piece.lineBehind_add, Nat.add_right_comm]

theorem mark_behind (p : Pos) (source : Text) (piece : Piece) :
    (p.behind source).mark piece = (p.mark piece).behind source := by
  unfold Pos.mark Pos.behind
  rw [Piece.lineBehind_add]

namespace Scan

open Piece (split)

@[simp]
theorem tokens_ending (p : Pos) (errors : List SyntaxError) : (Scan.mk [.ending p] errors).tokens = [] := rfl

@[simp]
theorem tokens_token (t : Token) (items : List Item) (errors : List SyntaxError) :
    (Scan.mk (.token t :: items) errors).tokens = t :: (Scan.mk items errors).tokens := rfl

@[simp]
theorem tokens_items (s : Scan) (errors : List SyntaxError) : (Scan.mk s.items errors).tokens = s.tokens := rfl

theorem tokens_of_pieces (p : Pos) (pieces : List Piece) {t : Token} (ht : t ∈ (ofPieces p pieces).tokens) :
    ∃ piece ∈ pieces, piece.kind = .token t.lexeme := by
  induction pieces generalizing p with
  | nil => cases ht
  | cons piece pieces ih =>
    have hrest (ht : t ∈ (ofPieces (p.advance piece) pieces).tokens) :
        ∃ q ∈ piece :: pieces, q.kind = .token t.lexeme := by
      obtain ⟨q, hq, hk⟩ := ih _ ht
      exact ⟨q, List.mem_cons_of_mem _ hq, hk⟩
    rw [ofPieces] at ht
    cases hk : piece.kind with
    | token lexeme =>
      rw [hk] at ht
      rcases List.mem_cons.mp ht with rfl | ht
      · exact ⟨piece, List.mem_cons_self, hk⟩
      · exact hrest ht
    | blank | comment | rejected =>
      rw [hk] at ht
      exact hrest ht

/-- No name of a source is spelled like a keyword. -/
theorem identifier_ofSource {source x : Text} {t : Token} (ht : t ∈ (ofSource source).tokens)
    (hx : t.lexeme = .identifier x) : Keyword.ofName? x = none := by
  obtain ⟨piece, hp, hk⟩ := tokens_of_pieces _ _ ht
  rw [hx] at hk
  exact Piece.splitFrom_identifier 0 source hp hk

/-- A source is scanned without an error if nothing in it is rejected. -/
theorem errors_eq_nil_iff (p : Pos) (pieces : List Piece) :
    (ofPieces p pieces).errors = [] ↔ ∀ piece ∈ pieces, ∀ cause, piece.kind ≠ .rejected cause := by
  induction pieces generalizing p with
  | nil => simp [ofPieces]
  | cons piece pieces ih =>
    rw [List.forall_mem_cons, ← ih (p.advance piece), ofPieces]
    cases hk : piece.kind <;> simp

/-- Tokens of two sequences of pieces follow each other. -/
theorem tokens_append (p : Pos) (pieces pieces' : List Piece) :
    (ofPieces p (pieces ++ pieces')).tokens =
      (ofPieces p pieces).tokens ++ (ofPieces (pieces.foldl Pos.advance p) pieces').tokens := by
  induction pieces generalizing p with
  | nil => rfl
  | cons piece pieces ih =>
    rw [List.foldl_cons, List.cons_append, ofPieces, ofPieces]
    cases piece.kind with
    | token lexeme => exact congrArg _ (ih _)
    | blank | comment | rejected => exact ih _

/-- Behind another source the tokens are the same, further down. -/
theorem tokens_behind (source : Text) (p : Pos) (pieces : List Piece) :
    (ofPieces (p.behind source) pieces).tokens = (ofPieces p pieces).tokens.map (Token.behind source) := by
  induction pieces generalizing p with
  | nil => rfl
  | cons piece pieces ih =>
    rw [ofPieces, ofPieces, advance_behind, mark_behind]
    cases piece.kind with
    | token lexeme => exact congrArg _ (ih _)
    | blank | comment | rejected => exact ih _

/-- The tokens of two sources with a line break between them are those of the first one and then those of the second
one, further on. -/
theorem ofSource_line {source more : Text} (hs : (ofSource source).errors = []) (hm : (ofSource more).errors = []) :
    (ofSource (source ++ Text.newline :: more)).errors = [] ∧
    (ofSource (source ++ Text.newline :: more)).tokens =
      (ofSource source).tokens ++ (ofSource more).tokens.map (Token.behind source) := by
  unfold ofSource at hs hm ⊢
  rw [errors_eq_nil_iff] at hs hm
  have hsplit : split (source ++ Text.newline :: more) = split source ++ ⟨.blank, [Text.newline]⟩ :: split more :=
    Piece.splitFrom_line 0 source more (Nat.zero_le _) fun p hp => hs p hp _
  rw [hsplit]
  constructor
  · rw [errors_eq_nil_iff]
    intro piece hmem
    rcases List.mem_append.mp hmem with hmem | hmem
    · exact hs piece hmem
    · rcases List.mem_cons.mp hmem with rfl | hmem
      · exact fun _ => nofun
      · exact hm piece hmem
  · -- the second source starts where the first one and the line break end
    have hend := foldl_advance .start (Piece.split_counts source)
    rw [Piece.split_flatten] at hend
    have hstart : ((split source).foldl Pos.advance .start).advance ⟨.blank, [Text.newline]⟩ =
        Pos.start.behind source := by
      rw [hend]
      unfold Pos.advance Pos.behind Pos.start
      congr 1 <;> simp [Piece.lineBehind] <;> omega
    rw [tokens_append, ← tokens_behind, ← hstart]
    rfl

end Scan
end Lox
