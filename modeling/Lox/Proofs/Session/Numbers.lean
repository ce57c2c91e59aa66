import Lox.Proofs.Number.Written
import Lox.Proofs.Run.Logic
import Lox.Proofs.Token.Respacing
import Lox.Session

/-! The text of a finite number is a program's text for this number: a statement that prints it writes the same text. -/
namespace Lox

open Text

namespace Number

variable {x : Number} {n : Numeral} {value : Number}

/-- The statement that prints a number, given by its text. -/
def printed (x : Number) : Text := "print " ++ x.toText ++ ";"

def signLexemes (x : Number) : List Lexeme := if x.isNegative then [.punct .minus] else []

/-- A numeral before a semicolon is cut off as a number. -/
theorem number_cut (hn : n.value? = some value) :
    (Piece.mk (.token (.number n.bytes value)) n.bytes).Cut ";" := by
  apply Piece.cut_of_stop (l := .number n.bytes value) ⟨n, rfl, hn⟩
  decide +kernel

/-- The sign is a token of its own, whatever follows it. -/
theorem partition_sign {text : Text} {pieces : List Piece} (h : Partition text pieces) :
    ∃ signs, Partition (x.sign ++ text) (signs ++ pieces) ∧ signs.filterMap Piece.lexeme? = x.signLexemes ∧
      signs.filterMap Piece.cause? = [] := by
  unfold sign signLexemes
  split
  · have hlongest : LongestWord "-" ('-'.toUInt8 :: text) :=
      longestWord_single (p := .minus) rfl fun hmem => absurd hmem (by decide)
    have hcut : (Piece.mk (.token (.punct .minus)) "-").Cut text :=
      .token (l := .punct .minus) trivial hlongest (Piece.not_comment_of_ne (by decide))
    exact ⟨[_], .cons hcut h, rfl, rfl⟩
  · exact ⟨[], h, rfl, rfl⟩

/-- The tokens of the statement: `print`, the sign, the numeral and a semicolon. -/
theorem lexemes_printed (hn : n.value? = some value) (hx : x.toText = x.sign ++ n.bytes) :
    (Scan.ofSource x.printed).errors = [] ∧ (Scan.ofSource x.printed).tokens.map Token.lexeme =
      .keyword .kwPrint :: (x.signLexemes ++ [.number n.bytes value, .punct .semicolon]) := by
  have hend : Partition ";" [⟨.token (.punct .semicolon), ";"⟩] :=
    .cons (Piece.cut_of_blank (l := .punct .semicolon) trivial (by simp)) .nil
  obtain ⟨signs, hsigns, htokens, hcauses⟩ := partition_sign (x := x) (.cons (number_cut hn) hend)
  have hblank : IsBlank ' '.toUInt8 := by decide
  have hword : (Piece.mk (.token (.keyword .kwPrint)) "print").Cut (' '.toUInt8 :: (x.sign ++ (n.bytes ++ ";"))) := by
    apply Piece.cut_of_blank (l := .keyword .kwPrint) trivial
    intro c hc
    cases hc
    exact hblank
  have hsource : x.printed = "print" ++ ' '.toUInt8 :: (x.sign ++ (n.bytes ++ ";")) := by
    rw [printed, hx, List.append_assoc, List.append_assoc]
    rfl
  have hpieces : _ = Piece.split ("print" ++ ' '.toUInt8 :: (x.sign ++ (n.bytes ++ ";"))) :=
    partition_iff.mp (.cons hword (.cons (.blank hblank _) hsigns))
  rw [hsource, Scan.ofSource, ← hpieces]
  constructor
  · apply List.map_eq_nil_iff.mp
    rw [Scan.causes_ofPieces]
    change (signs ++ _).filterMap Piece.cause? = []
    rw [List.filterMap_append, hcauses]
    rfl
  · rw [Scan.lexemes_ofPieces]
    change .keyword .kwPrint :: (signs ++ _).filterMap Piece.lexeme? = _
    rw [List.filterMap_append, htokens]
    rfl

/-- The statement has no error, and what it prints has the number as its value. -/
theorem ofSource_printed (hx : x.isFinite = true) :
    ∃ e, Program.ofSource x.printed = ⟨[.print e], [], []⟩ ∧ ∀ call i, e.eval call i = pure (.number x) := by
  obtain ⟨n, hvalue, htext⟩ := toText_numeral hx
  obtain ⟨herrors, hlexemes⟩ := lexemes_printed hvalue htext
  have hsize := x.signed_magnitude
  unfold Program.ofSource
  dsimp only
  rw [herrors]
  generalize (Scan.ofSource x.printed).endPos = endPos
  generalize (Scan.ofSource x.printed).tokens = tokens at hlexemes
  unfold signLexemes at hlexemes
  -- a negative number is read as a negation, which gives the number back
  cases hneg : x.isNegative with
  | true =>
    rw [hneg] at hlexemes hsize
    obtain ⟨⟨_, p⟩, _, rfl, rfl, hrest⟩ := List.map_eq_cons_iff.mp hlexemes
    obtain ⟨⟨_, q⟩, _, rfl, rfl, hvalue⟩ := List.map_eq_cons_iff.mp hrest
    obtain ⟨⟨_, r⟩, _, rfl, rfl, hend⟩ := List.map_eq_cons_iff.mp hvalue
    obtain ⟨⟨_, s⟩, _, rfl, rfl, hnil⟩ := List.map_eq_cons_iff.mp hend
    obtain rfl := List.map_eq_nil_iff.mp hnil
    refine ⟨.unary .negate q (.literal (.number (ofMagnitude x.magnitude))), rfl, fun call i => ?_⟩
    change (pure (.number (-ofMagnitude x.magnitude)) : Run Value) = pure (.number x)
    rw [show -ofMagnitude x.magnitude = x from hsize]
  | false =>
    rw [hneg] at hlexemes hsize
    obtain ⟨⟨_, p⟩, _, rfl, rfl, hvalue⟩ := List.map_eq_cons_iff.mp hlexemes
    obtain ⟨⟨_, r⟩, _, rfl, rfl, hend⟩ := List.map_eq_cons_iff.mp hvalue
    obtain ⟨⟨_, s⟩, _, rfl, rfl, hnil⟩ := List.map_eq_cons_iff.mp hend
    obtain rfl := List.map_eq_nil_iff.mp hnil
    refine ⟨.literal (.number (ofMagnitude x.magnitude)), rfl, fun call i => ?_⟩
    change (pure (.number (ofMagnitude x.magnitude)) : Run Value) = pure (.number x)
    rw [show ofMagnitude x.magnitude = x from hsize]

end Number

namespace Session

/-- The statement that prints a finite number by its text is a valid program. In every state it writes this text and
nothing else, and leaves the state as it was. No other finite number has the same text. -/
theorem step_printed {x : Number} (hx : x.isFinite = true) :
    (Scan.ofSource x.printed).errors = [] ∧ (Program.ofSource x.printed).isValid = true ∧
    (∀ policy fuel heap path, step policy fuel heap .run path x.printed = ⟨.ok, [.out x.toText], heap⟩) ∧
    ∀ y : Number, y.isFinite = true → y ≠ x → y.toText ≠ x.toText := by
  obtain ⟨n, hvalue, htext⟩ := Number.toText_numeral hx
  obtain ⟨e, hprogram, heval⟩ := Number.ofSource_printed hx
  refine ⟨(Number.lexemes_printed hvalue htext).1, by rw [hprogram]; rfl, fun policy fuel heap path => ?_, ?_⟩
  · have hexec (call : Caller) : (Stmt.print e).exec policy call fuel Heap.globalFrame =
        (Run.print x.toText >>= fun _ => pure .next) := by
      rw [Stmt.exec, heval]
      rfl
    have hrun : perform policy fuel .run [.print e] = (Run.print x.toText >>= fun _ => pure ()) := by
      change runStmts policy fuel [.print e] = _
      unfold runStmts
      rw [execAll_cons, hexec]
      rfl
    unfold step
    rw [hprogram]
    dsimp only
    rw [hrun]
    rfl
  · intro y hy hne htext
    exact hne (Number.eq_of_toText hy hx htext)

/-- Zero keeps its sign. A negative fraction is written by the shortest digits that are read as it. -/
theorem step_printed_signs :
    (Number.mk 0x8000000000000000).isFinite = true ∧ (Number.mk 0xBFB999999999999A).isFinite = true ∧
    step ⟨none, .error⟩ 0 .empty .run "" "print -0;" = ⟨.ok, [.out "-0"], .empty⟩ ∧
    step ⟨none, .error⟩ 0 .empty .run "" "print -0.1;" = ⟨.ok, [.out "-0.1"], .empty⟩ := by
  have hzero : (Number.mk 0x8000000000000000).isFinite = true := by decide
  have htenth : (Number.mk 0xBFB999999999999A).isFinite = true := by decide
  have hzeroText : (Number.mk 0x8000000000000000).toText = "-0" := by decide +kernel
  have htenthText : (Number.mk 0xBFB999999999999A).toText = "-0.1" := by decide +kernel
  have hprintZero := (step_printed hzero).2.2.1 ⟨none, .error⟩ 0 .empty ""
  have hprintTenth := (step_printed htenth).2.2.1 ⟨none, .error⟩ 0 .empty ""
  rw [Number.printed, hzeroText] at hprintZero
  rw [Number.printed, htenthText] at hprintTenth
  exact ⟨hzero, htenth, hprintZero, hprintTenth⟩

end Session
end Lox
