import Lox.Proofs.Token.Words

/-! A source is cut into pieces in exactly one way. Each piece is a blank, a comment, the longest word that starts where
the piece before it ends, or bytes that no word starts with. -/
namespace Lox

open Text

namespace Piece

/-- The piece is cut off the front of a source, of which `after` is left. -/
inductive Cut : Piece → Text → Prop where
  | blank {b : UInt8} (hb : IsBlank b) (after : Text) : Cut ⟨.blank, [b]⟩ after
  | comment {text after : Text} (htext : newline ∉ text) (hafter : after = [] ∨ after.head? = some newline) :
    Cut ⟨.comment, "//" ++ text⟩ after
  | token {l : Lexeme} {after : Text} (hl : l.Lawful) (hlongest : LongestWord l.spelling (l.spelling ++ after))
    (hcomment : ¬ ofString "//" <+: l.spelling ++ after) : Cut ⟨.token l, l.spelling⟩ after
  | overflow {n : Numeral} {after : Text} (hn : n.Overflows) (hlongest : LongestWord n.bytes (n.bytes ++ after)) :
    Cut ⟨.rejected .invalidNumber, n.bytes⟩ after
  | openString {contents : Text} (hcontents : quote ∉ contents) :
    Cut ⟨.rejected .unterminatedString, quote :: contents⟩ []
  | illegal {b : UInt8} (hblank : ¬ IsBlank b) (hword : ∀ w, ¬ IsWord (b :: w)) (after : Text) :
    Cut ⟨.rejected .unexpectedCharacter, [b]⟩ after

def CutFrom (p : Piece) (text : Text) : Prop := ∃ after, p.bytes ++ after = text ∧ p.Cut after

variable {b : UInt8} {w rest after : Text}

/-! ### The first piece -/

theorem not_comment_of_ne (hb : b ≠ '/'.toUInt8) : ¬ ofString "//" <+: b :: rest := by
  intro h
  have hhead := (List.cons_prefix_cons.mp (show '/'.toUInt8 :: ['/'.toUInt8] <+: b :: rest from h)).1
  exact hb hhead.symm

/-- The longest word at the front of a text is cut off, if no comment starts there. -/
theorem token_cutFrom {l : Lexeme} (hl : l.Lawful) (hlongest : LongestWord l.spelling (b :: rest))
    (hcomment : ¬ ofString "//" <+: b :: rest) : (Piece.mk (.token l) l.spelling).CutFrom (b :: rest) := by
  obtain ⟨after, hafter⟩ := hlongest.isPrefix
  refine ⟨after, hafter, .token hl ?_ ?_⟩
  · rw [hafter]
    exact hlongest
  · rw [hafter]
    exact hcomment

theorem ofPunct_cutFrom {p : Punct} (hp : ofString p.spelling = [b]) (hb : b ∉ ofString "!=<>/") :
    (ofPunct p).CutFrom (b :: rest) := by
  have hsingle : b ∉ ofString "!=<>" := fun h => hb (List.mem_append_left ['/'.toUInt8] h)
  have hslash : b ≠ '/'.toUInt8 := by
    rintro rfl
    exact hb (by decide)
  exact token_cutFrom (l := .punct p) trivial (longestWord_single hp fun h => absurd h hsingle) (not_comment_of_ne hslash)

/-- An operator is cut off with the equals sign behind it, if there is one. -/
theorem withEqual_cutFrom {bare followed : Punct} (hb : ofString bare.spelling = [b])
    (hf : ofString followed.spelling = [b, '='.toUInt8]) (hslash : b ≠ '/'.toUInt8) :
    (withEqual rest bare followed).CutFrom (b :: rest) := by
  unfold withEqual
  split
  · rename_i heq
    exact token_cutFrom (l := .punct followed) trivial (longestWord_double hf heq) (not_comment_of_ne hslash)
  · rename_i hne
    exact token_cutFrom (l := .punct bare) trivial (longestWord_single hb fun _ => hne) (not_comment_of_ne hslash)

/-- A run up to a byte ends before this byte or at the end. -/
theorem dropWhile_ne_cases (c : UInt8) (text : Text) :
    text.dropWhile (· ≠ c) = [] ∨ ∃ more, text.dropWhile (· ≠ c) = c :: more := by
  have hstop := List.head?_dropWhile_not (· ≠ c) text
  cases hd : text.dropWhile (· ≠ c) with
  | nil => exact .inl rfl
  | cons d more =>
    rw [hd] at hstop
    obtain rfl : d = c := by simpa using hstop
    exact .inr ⟨more, rfl⟩

theorem not_mem_takeWhile_ne (c : UInt8) (text : Text) : c ∉ text.takeWhile (· ≠ c) := by
  intro hmem
  simpa using List.mem_takeWhile_imp hmem

/-- A slash is cut off, or a comment up to the end of its line. -/
theorem slashOrComment_cutFrom : (slashOrComment '/'.toUInt8 rest).CutFrom ('/'.toUInt8 :: rest) := by
  unfold slashOrComment
  split
  · rename_i hslash
    obtain ⟨text, rfl⟩ := List.head?_eq_some_iff.mp hslash
    have htake : ('/'.toUInt8 :: text).takeWhile (· ≠ newline) = '/'.toUInt8 :: text.takeWhile (· ≠ newline) :=
      List.takeWhile_cons_of_pos (by decide)
    have hafter : text.dropWhile (· ≠ newline) = [] ∨ (text.dropWhile (· ≠ newline)).head? = some newline := by
      rcases dropWhile_ne_cases newline text with hnil | ⟨more, hmore⟩
      · exact .inl hnil
      · rw [hmore]
        exact .inr rfl
    rw [htake]
    refine ⟨text.dropWhile (· ≠ newline), ?_, .comment (not_mem_takeWhile_ne newline text) hafter⟩
    simp only [List.cons_append, List.takeWhile_append_dropWhile]
  · rename_i hslash
    refine token_cutFrom (l := .punct .slash) trivial (longestWord_single rfl fun h => absurd h (by decide)) ?_
    intro h
    have hrest := (List.cons_prefix_cons.mp (show '/'.toUInt8 :: ['/'.toUInt8] <+: '/'.toUInt8 :: rest from h)).2
    obtain ⟨more, rfl⟩ := hrest
    exact hslash rfl

/-- A string is cut off with its quotes, or all that follows if it is not closed. -/
theorem string_cutFrom : (string quote rest).CutFrom (quote :: rest) := by
  have hsplit : rest.takeWhile (· ≠ quote) ++ rest.dropWhile (· ≠ quote) = rest := List.takeWhile_append_dropWhile
  have hcontents := not_mem_takeWhile_ne quote rest
  unfold string
  generalize rest.takeWhile (· ≠ quote) = contents at hsplit hcontents ⊢
  dsimp only
  rcases dropWhile_ne_cases quote rest with hnil | ⟨left, hleft⟩
  · -- no quote is left, so the string has no end
    rw [hnil, List.append_nil] at hsplit
    rw [← hsplit, if_neg (Nat.lt_irrefl _)]
    exact ⟨[], List.append_nil _, .openString hcontents⟩
  · rw [hleft] at hsplit
    have hlt : contents.length < rest.length := by
      rw [← hsplit, List.length_append, List.length_cons]
      omega
    have htext : quote :: contents ++ [quote] ++ left = quote :: rest := by
      rw [← hsplit]
      simp
    rw [if_pos hlt]
    have hlongest : LongestWord (Lexeme.string contents).spelling (quote :: rest) := by
      rw [← htext]
      exact longestWord_string hcontents
    exact token_cutFrom (l := .string contents) hcontents hlongest (not_comment_of_ne (by decide))

/-- A numeral is cut off, whether or not it is too large. -/
theorem number_cutFrom (hb : isDigit b = true) : (number b rest).CutFrom (b :: rest) := by
  have hlongest : LongestWord (numeral b rest hb).bytes (b :: rest) := longestWord_numeral hb
  have hslash : b ≠ '/'.toUInt8 := by
    rintro rfl
    cases hb
  rw [number_eq hb]
  cases hvalue : (numeral b rest hb).value? with
  | none =>
    obtain ⟨after, hafter⟩ := hlongest.isPrefix
    refine ⟨after, hafter, .overflow ((Numeral.value?_eq_none_iff _).mp hvalue) ?_⟩
    rw [hafter]
    exact hlongest
  | some value =>
    exact token_cutFrom (l := .number _ value) ⟨_, rfl, hvalue⟩ hlongest (not_comment_of_ne hslash)

/-- A name is cut off, or the keyword that it spells. -/
theorem word_cutFrom (hb : isLetter b = true) : (word b rest).CutFrom (b :: rest) := by
  have hlongest : LongestWord (b :: rest.takeWhile isNameByte) (b :: rest) := longestWord_name hb
  have hname : IsName (b :: rest.takeWhile isNameByte) := ⟨b, _, rfl, hb, fun _ hc => List.mem_takeWhile_imp hc⟩
  have hslash : b ≠ '/'.toUInt8 := by
    rintro rfl
    cases hb
  unfold word
  generalize b :: rest.takeWhile isNameByte = name at hlongest hname ⊢
  dsimp only
  cases hk : Keyword.ofName? name with
  | some k =>
    have hspelling : ofString k.spelling = name := by
      have hfound := List.find?_some hk
      exact eq_of_beq hfound
    rw [← hspelling] at hlongest ⊢
    exact token_cutFrom (l := .keyword k) trivial hlongest (not_comment_of_ne hslash)
  | none =>
    have hother (k : Keyword) : ofString k.spelling ≠ name := by
      have hall : k ∈ Keyword.all := by cases k <;> decide
      have hne := List.find?_eq_none.mp hk k hall
      exact fun heq => hne (beq_iff_eq.mpr heq)
    exact token_cutFrom (l := .identifier name) ⟨hname, hother⟩ hlongest (not_comment_of_ne hslash)

/-- The bytes that start no word, are not blank and start no string. -/
theorem illegal_cutFrom (hb : b ∉ ofString "()\x7b\x7d,.-+;*!=<>/\" \t\r\n") (hdigit : isDigit b = false)
    (hletter : isLetter b = false) : (Piece.mk (.rejected .unexpectedCharacter) [b]).CutFrom (b :: rest) := by
  have hblank : ¬ IsBlank b := by
    intro hblank
    have hall : ∀ c ∈ ofString " \t\r\n", c ∈ ofString "()\x7b\x7d,.-+;*!=<>/\" \t\r\n" := by decide +kernel
    exact hb (hall b hblank)
  have hquote : b ≠ quote := by
    rintro rfl
    exact hb (by decide)
  refine ⟨rest, rfl, .illegal hblank ?_ rest⟩
  intro w hword
  obtain ⟨p, hp⟩ := operator_of_isWord hletter hdigit hquote hword
  have hall : ∀ c ∈ (ofString p.spelling).head?, c ∈ ofString "()\x7b\x7d,.-+;*!=<>/\" \t\r\n" := by
    cases p <;> decide +kernel
  rw [hp] at hall
  exact hb (hall b rfl)

/-- The first piece of a source is cut off its front. -/
theorem first_cutFrom (b : UInt8) (rest : Text) : (first b rest).CutFrom (b :: rest) := by
  have hb := toUInt8_ofUInt8 b
  unfold first
  generalize hc : Char.ofUInt8 b = c at hb
  subst hb
  split
  all_goals first
    | exact ofPunct_cutFrom rfl (by decide)
    | exact withEqual_cutFrom rfl rfl (by decide)
    | exact slashOrComment_cutFrom
    | exact string_cutFrom
    | exact ⟨rest, rfl, .blank (by decide) rest⟩
    | skip
  split_ifs with hdigit hletter
  · exact number_cutFrom hdigit
  · exact word_cutFrom hletter
  · refine illegal_cutFrom ?_ (Bool.eq_false_iff.mpr hdigit) (Bool.eq_false_iff.mpr hletter)
    intro hmem
    have hchar := List.mem_map_of_mem (f := Char.ofUInt8) hmem
    have hall : (ofString "()\x7b\x7d,.-+;*!=<>/\" \t\r\n").map Char.ofUInt8 = ['(', ')', '\x7b', '\x7d', ',', '.',
      '-', '+', ';', '*', '!', '=', '<', '>', '/', '"', ' ', '\t', '\r', '\n'] := by decide
    rw [hc, hall] at hchar
    simp_all

/-! ### No other piece -/

theorem not_isBlank_of_isWord (h : IsWord (b :: w)) : ¬ IsBlank b := by
  intro hblank
  have hall : ∀ c ∈ ofString " \t\r\n", isLetter c = false ∧ isDigit c = false ∧ c ≠ quote := by
    decide +kernel
  obtain ⟨hletter, hdigit, hquote⟩ := hall b hblank
  obtain ⟨p, hp⟩ := operator_of_isWord hletter hdigit hquote h
  exact (operator_first hp).2.2.2 hblank

theorem cons_of_isWord (h : IsWord w) (hw : w <+: b :: rest) : ∃ w', w = b :: w' := by
  cases w with
  | nil => exact absurd h not_isWord_nil
  | cons c cs =>
    obtain ⟨rfl, -⟩ := List.cons_prefix_cons.mp hw
    exact ⟨cs, rfl⟩

/-- A lexeme that is spelled like a numeral is its number. -/
theorem number_of_spelling {l : Lexeme} {n : Numeral} (hl : l.Lawful) (h : l.spelling = n.bytes) :
    ¬ n.Overflows := by
  have hne : n.bytes ≠ [] := by
    intro hnil
    have hword := IsWord.numeral n
    rw [hnil] at hword
    exact not_isWord_nil hword
  obtain ⟨b, w, hw⟩ := List.exists_cons_of_ne_nil hne
  have hsigns := Lexeme.signs_of_lawful hl (h.trans hw)
  rw [isDigit_of_numeral hw] at hsigns
  cases l with
  | number digits value =>
    obtain ⟨m, rfl, hm⟩ := hl
    rw [← Numeral.value?_eq_none_iff, ← Numeral.value?_congr h, hm]
    nofun
  | punct | keyword | identifier | string => simp [Lexeme.signs] at hsigns

/-- Where a word starts and no comment does, the first piece is the longest word. -/
theorem first_longest (hlongest : LongestWord w (b :: rest)) (hcomment : ¬ ofString "//" <+: b :: rest) :
    (∃ l : Lexeme, l.Lawful ∧ l.spelling = w ∧ first b rest = ⟨.token l, w⟩) ∨
      ∃ n : Numeral, n.Overflows ∧ n.bytes = w ∧ first b rest = ⟨.rejected .invalidNumber, w⟩ := by
  obtain ⟨w', hw'⟩ := cons_of_isWord hlongest.isWord hlongest.isPrefix
  have hword : IsWord (b :: w') := hw' ▸ hlongest.isWord
  obtain ⟨after, htext, hcut⟩ := first_cutFrom b rest
  generalize first b rest = p at htext hcut ⊢
  cases hcut with
  | blank hblank =>
    rw [List.singleton_append, List.cons.injEq] at htext
    rw [htext.1] at hblank
    exact absurd hblank (not_isBlank_of_isWord hword)
  | @comment text =>
    refine absurd ?_ hcomment
    rw [← htext]
    exact ⟨text ++ after, (List.append_assoc _ _ _).symm⟩
  | @token l _ hl hlongest' =>
    rw [htext] at hlongest'
    have hsame := eq_of_longestWord hlongest' hlongest
    exact .inl ⟨l, hl, hsame, by rw [hsame]⟩
  | @overflow n _ hn hlongest' =>
    rw [htext] at hlongest'
    have hsame := eq_of_longestWord hlongest' hlongest
    exact .inr ⟨n, hn, hsame, by rw [hsame]⟩
  | @openString contents hcontents =>
    rw [List.append_nil, List.cons.injEq] at htext
    obtain ⟨rfl, rfl⟩ := htext
    obtain ⟨inside, -, rfl⟩ := string_of_quote hword
    -- the word ends with a second quote
    have hprefix := hlongest.isPrefix
    rw [hw'] at hprefix
    have hmem : quote ∈ contents := (List.cons_prefix_cons.mp hprefix).2.subset (by simp)
    exact absurd hmem hcontents
  | illegal _ hillegal =>
    rw [List.singleton_append, List.cons.injEq] at htext
    rw [htext.1] at hillegal
    exact absurd hword (hillegal w')

theorem first_blank (hb : IsBlank b) : first b rest = ⟨.blank, [b]⟩ := by
  have hall : ofString " \t\r\n" = [' '.toUInt8, '\t'.toUInt8, '\r'.toUInt8, '\n'.toUInt8] := rfl
  rw [IsBlank, hall] at hb
  simp only [List.mem_cons, List.not_mem_nil, or_false] at hb
  rcases hb with rfl | rfl | rfl | rfl
  · rfl
  · rfl
  · rfl
  · rfl

/-- Two slashes start a comment, whatever follows on the line. -/
theorem first_comment {text : Text} (htext : newline ∉ text) (hafter : after = [] ∨ after.head? = some newline) :
    first '/'.toUInt8 ('/'.toUInt8 :: (text ++ after)) = ⟨.comment, "//" ++ text⟩ := by
  have hbytes : ∀ c ∈ '/'.toUInt8 :: text, decide (c ≠ newline) = true := by
    intro c hc
    rw [decide_eq_true_eq]
    rintro rfl
    rcases List.mem_cons.mp hc with h | h
    · cases h
    · exact htext h
  have htake : ('/'.toUInt8 :: (text ++ after)).takeWhile (· ≠ newline) = '/'.toUInt8 :: text := by
    rcases hafter with rfl | hafter
    · rw [List.append_nil]
      exact List.takeWhile_eq_self_iff.mpr hbytes
    · obtain ⟨more, rfl⟩ := List.head?_eq_some_iff.mp hafter
      exact takeWhile_until hbytes (by decide)
  change slashOrComment _ _ = _
  rw [slashOrComment, if_pos List.head?_cons, htake]
  rfl

/-- A quote that is not closed takes all that follows. -/
theorem first_openString (h : quote ∉ rest) : first quote rest = ⟨.rejected .unterminatedString, quote :: rest⟩ := by
  have htake : rest.takeWhile (· ≠ quote) = rest := by
    apply List.takeWhile_eq_self_iff.mpr
    intro c hc
    rw [decide_eq_true_eq]
    rintro rfl
    exact h hc
  change string quote rest = _
  rw [string, htake]
  exact if_neg (Nat.lt_irrefl _)

/-- A byte that starts no word is rejected alone. -/
theorem first_illegal (hblank : ¬ IsBlank b) (hword : ∀ w, ¬ IsWord (b :: w)) :
    first b rest = ⟨.rejected .unexpectedCharacter, [b]⟩ := by
  obtain ⟨after, htext, hcut⟩ := first_cutFrom b rest
  generalize first b rest = p at htext hcut ⊢
  -- a piece of any other kind starts with a blank, or with a byte that starts a word
  have hstarts {w : Text} (hw : IsWord w) (h : w ++ after = b :: rest) : False := by
    obtain ⟨w', rfl⟩ := cons_of_isWord hw ⟨after, h⟩
    exact hword w' hw
  cases hcut with
  | blank hb =>
    rw [List.singleton_append, List.cons.injEq] at htext
    rw [htext.1] at hb
    exact absurd hb hblank
  | @comment text =>
    have hparts : '/'.toUInt8 :: '/'.toUInt8 :: (text ++ after) = b :: rest := htext
    rw [List.cons.injEq] at hparts
    rw [← hparts.1] at hword
    exact absurd (.operator .slash) (hword [])
  | token hl => exact (hstarts (Lexeme.isWord_of_lawful hl) htext).elim
  | @overflow n => exact (hstarts (.numeral n) htext).elim
  | openString =>
    rw [List.append_nil, List.cons.injEq] at htext
    rw [← htext.1] at hword
    exact absurd (.string (List.not_mem_nil)) (hword [quote])
  | illegal =>
    rw [List.singleton_append, List.cons.injEq] at htext
    rw [htext.1]

/-- What is cut off the front of a source is its first piece. -/
theorem first_of_cut {p : Piece} (h : p.Cut after) (htext : p.bytes ++ after = b :: rest) : first b rest = p := by
  cases h with
  | blank hblank =>
    rw [List.singleton_append, List.cons.injEq] at htext
    rw [htext.1] at hblank ⊢
    exact first_blank hblank
  | @comment text _ hnewline hafter =>
    have hparts : '/'.toUInt8 :: '/'.toUInt8 :: (text ++ after) = b :: rest := htext
    rw [List.cons.injEq] at hparts
    rw [← hparts.1, ← hparts.2]
    exact first_comment hnewline hafter
  | @token l _ hl hlongest hcomment =>
    rw [htext] at hlongest hcomment
    rcases first_longest hlongest hcomment with ⟨l', hl', hspelling, hfirst⟩ | ⟨n, hn, hbytes, -⟩
    · rw [hfirst, Lexeme.eq_of_spelling hl' hl hspelling]
    · exact absurd hn (number_of_spelling hl hbytes.symm)
  -- a numeral out of range is a word too, but of no token
  | @overflow n _ hn hlongest =>
    rw [htext] at hlongest
    have hdigit : isDigit b = true := by
      obtain ⟨w', hw'⟩ := cons_of_isWord (.numeral n) hlongest.isPrefix
      exact isDigit_of_numeral hw'
    have hslash : b ≠ '/'.toUInt8 := by
      rintro rfl
      cases hdigit
    rcases first_longest hlongest (not_comment_of_ne hslash) with ⟨l, hl, hspelling, -⟩ | ⟨m, -, -, hfirst⟩
    · exact absurd hn (number_of_spelling hl hspelling)
    · exact hfirst
  | openString hcontents =>
    rw [List.append_nil, List.cons.injEq] at htext
    rw [← htext.1, ← htext.2]
    exact first_openString hcontents
  | illegal hblank hword =>
    rw [List.singleton_append, List.cons.injEq] at htext
    rw [htext.1] at hblank hword ⊢
    exact first_illegal hblank hword

theorem cut_ne_nil {p : Piece} (h : p.Cut after) : p.bytes ≠ [] := by
  have hword {w : Text} (hw : IsWord w) : w ≠ [] := by
    rintro rfl
    exact not_isWord_nil hw
  cases h with
  | blank | comment | openString | illegal => exact List.cons_ne_nil _ _
  | token hl => exact hword (Lexeme.isWord_of_lawful hl)
  | @overflow n => exact hword (.numeral n)

/-- What is left to split after some bytes have been skipped. -/
theorem splitFrom_eq (skip : Nat) (source : Text) : splitFrom skip source = split (source.drop skip) := by
  induction source generalizing skip with
  | nil =>
    rw [List.drop_nil]
    rfl
  | cons b rest ih =>
    cases skip with
    | zero => rfl
    | succ skip => exact ih skip

theorem split_append {p : Piece} {taken : Text} (hp : p.bytes = b :: taken) (hfirst : first b (taken ++ after) = p) :
    split (p.bytes ++ after) = p :: split after := by
  rw [hp, List.cons_append, split, splitFrom_cons, hfirst, hp, List.length_cons, Nat.add_sub_cancel, splitFrom_eq,
    List.drop_left]

end Piece

/-- The source is made of the pieces, each of which is cut off the front of what the ones before it have left. -/
inductive Partition : Text → List Piece → Prop where
  | nil : Partition [] []
  | cons {p : Piece} {after : Text} {pieces : List Piece} (hp : p.Cut after) (hpieces : Partition after pieces) :
    Partition (p.bytes ++ after) (p :: pieces)

/-- The pieces of a source are a partition of it. -/
theorem partition_split (source : Text) : Partition source (Piece.split source) := by
  -- by the length of the source, of which each piece takes some
  induction hn : source.length using Nat.strongRecOn generalizing source with
  | _ n ih =>
    cases source with
    | nil => exact .nil
    | cons b rest =>
      obtain ⟨after, htext, hcut⟩ := Piece.first_cutFrom b rest
      obtain ⟨taken, left, hbytes, hrest⟩ := Piece.first_fits b rest
      have hleft : after = left := by
        rw [hbytes, ← hrest, List.cons_append, List.cons.injEq] at htext
        exact List.append_cancel_left htext.2
      have hfirst : Piece.first b (taken ++ after) = Piece.first b rest := by rw [hleft, hrest]
      have hlt : after.length < n := by
        rw [← hn, ← htext, hbytes, List.length_append, List.length_cons]
        omega
      have hsplit := Piece.split_append hbytes hfirst
      rw [← htext, hsplit]
      exact .cons hcut (ih after.length hlt after rfl)

/-- A source has no other partition than the one that it is split into. -/
theorem partition_iff {source : Text} {pieces : List Piece} :
    Partition source pieces ↔ pieces = Piece.split source := by
  constructor
  · intro h
    induction h with
    | nil => rfl
    | @cons p after pieces hp _ ih =>
      obtain ⟨b, taken, hbytes⟩ := List.exists_cons_of_ne_nil (Piece.cut_ne_nil hp)
      have hfirst : Piece.first b (taken ++ after) = p := by
        apply Piece.first_of_cut hp
        rw [hbytes, List.cons_append]
      rw [Piece.split_append hbytes hfirst, ih]
  · rintro rfl
    exact partition_split source

namespace Piece

/-- The token that the piece is. -/
def lexeme? (p : Piece) : Option Lexeme :=
  match p.kind with
  | .token lexeme => some lexeme
  | _ => none

def cause? (p : Piece) : Option SyntaxError.Cause :=
  match p.kind with
  | .rejected cause => some cause
  | _ => none

end Piece

namespace Scan

theorem lexemes_ofPieces (p : Pos) (pieces : List Piece) :
    (ofPieces p pieces).tokens.map Token.lexeme = pieces.filterMap Piece.lexeme? := by
  induction pieces generalizing p with
  | nil => rfl
  | cons piece pieces ih =>
    rw [ofPieces, List.filterMap_cons, Piece.lexeme?]
    cases piece.kind with
    | token lexeme => exact congrArg _ (ih _)
    | blank | comment | rejected => exact ih _

theorem causes_ofPieces (p : Pos) (pieces : List Piece) :
    (ofPieces p pieces).errors.map SyntaxError.cause = pieces.filterMap Piece.cause? := by
  induction pieces generalizing p with
  | nil => rfl
  | cons piece pieces ih =>
    rw [ofPieces, List.filterMap_cons, Piece.cause?]
    cases piece.kind with
    | rejected cause => exact congrArg _ (ih _)
    | blank | comment | token => exact ih _

/-- The scanner gives all tokens first, and then, once, the end of the input. -/
theorem items_ofPieces (p : Pos) (pieces : List Piece) :
    (ofPieces p pieces).items = (ofPieces p pieces).tokens.map .token ++ [.ending (ofPieces p pieces).endPos] := by
  induction pieces generalizing p with
  | nil => rfl
  | cons piece pieces ih =>
    rw [ofPieces]
    cases piece.kind with
    | token lexeme => exact congrArg _ (ih _)
    | blank | comment | rejected => exact ih _

/-- No token has the name of the end. -/
theorem kindName_ne_endName (l : Lexeme) : l.kindName ≠ Token.endName := by
  cases l with
  | punct p => cases p <;> decide
  | keyword k => cases k <;> decide
  | identifier => exact (by decide : "IDENTIFIER" ≠ Token.endName)
  | string => exact (by decide : "STRING" ≠ Token.endName)
  | number => exact (by decide : "NUMBER" ≠ Token.endName)

/-- The scanner cuts a source into pieces, which make up the whole of it in order; no other pieces do, if each has to be
a blank, a comment, the longest word there, or bytes that are rejected. There is one token for each word that is not
rejected, one error for each piece that is, and the end of the input comes last and once. -/
theorem ofSource_partition (source : Text) :
    (∀ pieces, Partition source pieces ↔ pieces = Piece.split source) ∧
    ((Piece.split source).map Piece.bytes).flatten = source ∧
    (ofSource source).tokens.map Token.lexeme = (Piece.split source).filterMap Piece.lexeme? ∧
    (ofSource source).errors.map SyntaxError.cause = (Piece.split source).filterMap Piece.cause? ∧
    ((ofSource source).items.map Item.kindName).getLast? = some Token.endName ∧
    ((ofSource source).items.map Item.kindName).count Token.endName = 1 := by
  have hkinds : (ofSource source).items.map Item.kindName =
      (ofSource source).tokens.map (fun t => t.lexeme.kindName) ++ [Token.endName] := by
    rw [ofSource, items_ofPieces, List.map_append, List.map_map]
    rfl
  refine ⟨fun _ => partition_iff, Piece.split_flatten source, lexemes_ofPieces _ _, causes_ofPieces _ _, ?_, ?_⟩
  · rw [hkinds, List.getLast?_concat]
  · have hnone : Token.endName ∉ (ofSource source).tokens.map (fun t => t.lexeme.kindName) := by
      intro hmem
      obtain ⟨t, -, ht⟩ := List.mem_map.mp hmem
      exact kindName_ne_endName t.lexeme ht
    rw [hkinds, List.count_append, List.count_eq_zero_of_not_mem hnone, List.count_singleton_self]

end Scan
end Lox
