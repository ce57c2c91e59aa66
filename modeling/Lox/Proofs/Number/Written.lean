import Lox.Number.Layout
import Lox.Proofs.Number.Nearest
import Lox.Proofs.Token.Words
import Mathlib.Data.Nat.Bitwise

/-! The text of a finite number is a numeral, with a minus sign before it if the number is negative. The numeral has the
magnitude of the number as its value, so no two finite numbers have the same text. -/
namespace Lox

theorem tenPow_pos (n : Nat) : 0 < tenPow n := Nat.pow_pos (by decide)

theorem tenPow_succ (n : Nat) : tenPow (n + 1) = tenPow n * 10 := Nat.pow_succ 10 n

/-! ### Decimals of the same value -/

namespace Decimal

/-- Decimals with one value are read as one number. -/
theorem toNumber?_congr {d d' : Decimal} (h : d.digits * tenPow d.exponent.toNat * tenPow (-d'.exponent).toNat =
    d'.digits * tenPow d'.exponent.toNat * tenPow (-d.exponent).toNat) : d.toNumber? = d'.toNumber? :=
  Number.ofRatio?_congr (tenPow_pos _) (tenPow_pos _) h

/-- Trailing zeros do not count. -/
theorem toNumber?_trim (fuel : Nat) (d : Decimal) : (d.trim fuel).toNumber? = d.toNumber? := by
  induction fuel generalizing d with
  | zero => rfl
  | succ fuel ih =>
    unfold trim
    split
    · next hzero =>
      rw [ih]
      apply toNumber?_congr
      have hdigits : d.digits / 10 * 10 = d.digits := Nat.div_mul_cancel (Nat.dvd_of_mod_eq_zero hzero.2)
      dsimp only
      rcases Int.lt_or_le d.exponent 0 with hneg | hpos
      · -- the zero was a decimal place
        have hplaces : (-d.exponent).toNat = (-(d.exponent + 1)).toNat + 1 := by omega
        have hwhole : (d.exponent + 1).toNat = d.exponent.toNat := by omega
        calc d.digits / 10 * tenPow (d.exponent + 1).toNat * tenPow (-d.exponent).toNat
            = d.digits / 10 * 10 * tenPow d.exponent.toNat * tenPow (-(d.exponent + 1)).toNat := by
              rw [hplaces, hwhole, tenPow_succ]
              ring
          _ = d.digits * tenPow d.exponent.toNat * tenPow (-(d.exponent + 1)).toNat := by rw [hdigits]
      · have hwhole : (d.exponent + 1).toNat = d.exponent.toNat + 1 := by omega
        have hplaces : (-(d.exponent + 1)).toNat = (-d.exponent).toNat := by omega
        calc d.digits / 10 * tenPow (d.exponent + 1).toNat * tenPow (-d.exponent).toNat
            = d.digits / 10 * 10 * tenPow d.exponent.toNat * tenPow (-d.exponent).toNat := by
              rw [hwhole, tenPow_succ]
              ring
          _ = d.digits * tenPow d.exponent.toNat * tenPow (-(d.exponent + 1)).toNat := by rw [hdigits, hplaces]
    · rfl

end Decimal

namespace Number

variable {x y : Number}

theorem toNumber?_of_decimalAt? {e : Int} {d : Decimal} (h : x.decimalAt? e = some d) :
    d.toNumber? = some (ofMagnitude x.magnitude) := by
  have hback : x.readsBack d = true := List.find?_some h
  exact eq_of_beq hback

/-- The exact decimal of a number is read as the number. -/
theorem toNumber?_exactDecimal (hx : x.isFinite = true) :
    x.exactDecimal.toNumber? = some (ofMagnitude x.magnitude) := by
  rw [← ofRatio?_self x hx]
  apply ofRatio?_congr (tenPow_pos _) x.denominator_pos
  have hwhole : x.exactDecimal.exponent.toNat = 0 := by
    unfold exactDecimal
    dsimp only
    omega
  have hplaces : (-x.exactDecimal.exponent).toNat = 1074 - x.scale := by
    unfold exactDecimal
    dsimp only
    omega
  have hten : tenPow (1074 - x.scale) = Nat.pow 5 (1074 - x.scale) * x.denominator := Nat.mul_pow 5 2 _
  calc x.exactDecimal.digits * tenPow x.exactDecimal.exponent.toNat * x.denominator
      = x.numerator * Nat.pow 5 (1074 - x.scale) * tenPow 0 * x.denominator := by rw [hwhole]; rfl
    _ = x.numerator * (Nat.pow 5 (1074 - x.scale) * x.denominator) := by
      rw [show tenPow 0 = 1 from rfl]
      ring
    _ = x.numerator * tenPow (-x.exactDecimal.exponent).toNat := by rw [hplaces, hten]

/-- The shortest decimal is read as the magnitude of the number. -/
theorem toNumber?_shortest (hx : x.isFinite = true) : x.shortest.toNumber? = some (ofMagnitude x.magnitude) := by
  unfold shortest
  rw [Decimal.toNumber?_trim]
  generalize hfound : (List.range 17).findSome? _ = found
  cases found with
  | none => exact toNumber?_exactDecimal hx
  | some d =>
    obtain ⟨n, -, hd⟩ := List.exists_of_findSome?_eq_some hfound
    exact toNumber?_of_decimalAt? hd

end Number

/-! ### Digits -/

namespace Text

/-- Digits in front of others are worth a power of ten more. -/
theorem digitsValue_append (v w : Text) : digitsValue (v ++ w) = digitsValue v * tenPow w.length + digitsValue w := by
  have hfold (n : Nat) : w.foldl (fun n b => 10 * n + digitValue b) n = n * tenPow w.length + digitsValue w := by
    unfold digitsValue
    induction w generalizing n with
    | nil => exact (Nat.mul_one n).symm
    | cons b w ih =>
      rw [List.foldl_cons, List.foldl_cons, ih, ih (10 * 0 + _), List.length_cons, tenPow_succ]
      ring
  unfold digitsValue
  rw [List.foldl_append, hfold]
  rfl

theorem toNat_toUInt8 {c : Char} (hc : c.isDigit = true) : c.toUInt8.toNat = c.toNat := by
  have hle : c.toNat ≤ 57 := by
    simp only [Char.isDigit, Bool.and_eq_true, decide_eq_true_eq] at hc
    exact hc.2
  have hval : c.toUInt8.toNat = c.toNat % 256 := UInt32.toNat_toUInt8 c.val
  omega

theorem ofUInt8_toUInt8 {c : Char} (hc : c.isDigit = true) : Char.ofUInt8 c.toUInt8 = c := by
  apply Char.toNat_inj.mp
  rw [← toNat_toUInt8 hc]
  rfl

theorem ofNat_ne_nil (n : Nat) : ofNat n ≠ [] := by
  intro hnil
  exact Nat.toDigits_ne_nil (List.map_eq_nil_iff.mp hnil)

theorem isDigit_ofNat {n : Nat} {b : UInt8} (hb : b ∈ ofNat n) : isDigit b = true := by
  obtain ⟨c, hc, rfl⟩ := List.mem_map.mp hb
  have hdigit := Nat.isDigit_of_mem_toDigits (by decide) (by decide) hc
  rw [isDigit, ofUInt8_toUInt8 hdigit, hdigit]

/-- The digits of a number spell it. -/
theorem digitsValue_ofNat (n : Nat) : digitsValue (ofNat n) = n := by
  have hchars (cs : List Char) (hcs : ∀ c ∈ cs, c.isDigit = true) (m : Nat) :
      (cs.map Char.toUInt8).foldl (fun n b => 10 * n + digitValue b) m = Nat.ofDigitChars 10 cs m := by
    induction cs generalizing m with
    | nil => simp
    | cons c cs ih =>
      obtain ⟨hc, hcs⟩ := List.forall_mem_cons.mp hcs
      rw [List.map_cons, List.foldl_cons, ih hcs, Nat.ofDigitChars_cons, digitValue, toNat_toUInt8 hc]
  unfold digitsValue ofNat
  rw [hchars _ fun c hc => Nat.isDigit_of_mem_toDigits (by decide) (by decide) hc]
  exact Nat.ofDigitChars_ten_toDigits

end Text

/-! ### Positional texts -/

namespace Decimal

theorem isDigit_zeros {n : Nat} {b : UInt8} (hb : b ∈ zeros n) : Text.isDigit b = true := by
  rw [List.eq_of_mem_replicate hb]
  rfl

theorem length_zeros (n : Nat) : (zeros n).length = n := List.length_replicate

theorem digitsValue_zeros (n : Nat) : Text.digitsValue (zeros n) = 0 := by
  have hzero : Text.digitsValue ['0'.toUInt8] = 0 := rfl
  unfold zeros
  induction n with
  | zero => rfl
  | succ n ih => rw [List.replicate_succ, ← List.singleton_append, Text.digitsValue_append, ih, hzero, Nat.zero_mul]

variable {d : Decimal} {n : Numeral}

/-- A numeral has the value of a decimal if both are the same quotient. -/
theorem value?_eq (h : Text.digitsValue (n.whole ++ n.places) * tenPow (-d.exponent).toNat =
    d.digits * tenPow d.exponent.toNat * tenPow n.places.length) : n.value? = d.toNumber? := by
  apply toNumber?_congr
  have hwhole : (ofDigits n.whole n.places).exponent.toNat = 0 := by
    change (-(n.places.length : Int)).toNat = 0
    omega
  have hplaces : (-(ofDigits n.whole n.places).exponent).toNat = n.places.length := by
    change (-(-(n.places.length : Int))).toNat = n.places.length
    omega
  have hdigits : (ofDigits n.whole n.places).digits * tenPow 0 = Text.digitsValue (n.whole ++ n.places) :=
    Nat.mul_one _
  rw [hwhole, hplaces, hdigits, h]

/-- A numeral with the digits of a decimal and as many places. -/
theorem value?_of_places (hd : ¬ 0 ≤ d.exponent) (hdigits : Text.digitsValue (n.whole ++ n.places) = d.digits)
    (hlength : n.places.length = (-d.exponent).toNat) : n.value? = d.toNumber? := by
  apply value?_eq
  have hone : tenPow d.exponent.toNat = 1 := by
    rw [show d.exponent.toNat = 0 by omega]
    rfl
  rw [hdigits, hlength, hone, Nat.mul_one]

section digits

variable {ds : Text} (hdigit : ∀ b ∈ ds, Text.isDigit b = true) (hvalue : Text.digitsValue ds = d.digits)
include hdigit hvalue

/-- A decimal without a fraction is written as a numeral, with zeros at its end. -/
theorem numeral_of_whole (hne : ds ≠ []) (hd : 0 ≤ d.exponent) :
    ∃ n : Numeral, n.bytes = ds ++ zeros d.exponent.toNat ∧ n.value? = d.toNumber? := by
  refine ⟨⟨ds ++ zeros d.exponent.toNat, [], by simp [hne], ?_⟩, Numeral.bytes_of_no_places rfl, ?_⟩
  · intro b hb
    rw [List.append_nil] at hb
    exact (List.mem_append.mp hb).elim (hdigit b) isDigit_zeros
  · apply value?_eq
    have hplaces : (-d.exponent).toNat = 0 := by omega
    dsimp only
    rw [List.append_nil, Text.digitsValue_append, hvalue, digitsValue_zeros, length_zeros, hplaces, Nat.add_zero]
    rfl

/-- A decimal whose point stands among its digits is written as a numeral. -/
theorem numeral_of_point (hd : ¬ 0 ≤ d.exponent) (hlong : (-d.exponent).toNat < ds.length) :
    ∃ n : Numeral, n.bytes = ds.take (ds.length - (-d.exponent).toNat) ++ "." ++
      ds.drop (ds.length - (-d.exponent).toNat) ∧ n.value? = d.toNumber? := by
  have hpoint : 0 < ds.length - (-d.exponent).toNat ∧ ds.length - (-d.exponent).toNat < ds.length := by omega
  refine ⟨⟨ds.take (ds.length - (-d.exponent).toNat), ds.drop (ds.length - (-d.exponent).toNat), ?_, ?_⟩, ?_,
    value?_of_places hd ?_ ?_⟩
  · rw [← List.length_pos_iff, List.length_take]
    omega
  · rw [List.take_append_drop]
    exact hdigit
  · apply if_neg
    rw [List.isEmpty_iff, ← List.length_eq_zero_iff, List.length_drop]
    omega
  · rw [List.take_append_drop, hvalue]
  · rw [List.length_drop]
    omega

/-- A decimal below one is written as a numeral, with zeros behind its point. -/
theorem numeral_of_fraction (hne : ds ≠ []) (hd : ¬ 0 ≤ d.exponent) (hshort : ¬ (-d.exponent).toNat < ds.length) :
    ∃ n : Numeral, n.bytes = "0." ++ zeros ((-d.exponent).toNat - ds.length) ++ ds ∧ n.value? = d.toNumber? := by
  refine ⟨⟨"0", zeros ((-d.exponent).toNat - ds.length) ++ ds, by decide, ?_⟩, ?_, value?_of_places hd ?_ ?_⟩
  · intro b hb
    rcases List.mem_append.mp hb with hzero | hb
    · rw [List.mem_singleton.mp hzero]
      rfl
    · exact (List.mem_append.mp hb).elim isDigit_zeros (hdigit b)
  · refine (if_neg ?_).trans (List.append_assoc _ _ _).symm
    simp [hne]
  · have hzero : Text.digitsValue "0" = 0 := rfl
    simp only [Text.digitsValue_append, digitsValue_zeros, hvalue, hzero, Nat.zero_mul, Nat.zero_add]
  · rw [List.length_append, length_zeros]
    omega

end digits

/-- A decimal is written as a numeral of its value. -/
theorem positional_numeral (d : Decimal) : ∃ n : Numeral, n.bytes = d.positional ∧ n.value? = d.toNumber? := by
  have hdigit : ∀ b ∈ Text.ofNat d.digits, Text.isDigit b = true := fun _ => Text.isDigit_ofNat
  have hvalue := Text.digitsValue_ofNat d.digits
  have hne := Text.ofNat_ne_nil d.digits
  unfold positional
  dsimp only
  split
  · next hd => exact numeral_of_whole hdigit hvalue hne hd
  · next hd =>
    split
    · next hlong => exact numeral_of_point hdigit hvalue hd hlong
    · next hshort => exact numeral_of_fraction hdigit hvalue hne hd hshort

end Decimal

/-! ### Signs -/

namespace Number

variable (x : Number)

theorem bits_and_signBit : x.bits &&& signBit = if x.isNegative then signBit else 0 := by
  have hmask : (x.bits &&& signBit).toNat = (x.bits.toNat.testBit 63).toNat * 2 ^ 63 :=
    (UInt64.toNat_and _ _).trans (Nat.and_two_pow _ 63)
  have hbit : x.bits &&& signBit = 0 ∨ x.bits &&& signBit = signBit := by
    rw [← UInt64.toNat_inj, ← UInt64.toNat_inj, hmask]
    cases x.bits.toNat.testBit 63 with
    | false => exact .inl rfl
    | true => exact .inr rfl
  unfold isNegative
  rcases hbit with hbit | hbit
  · rw [hbit]
    rfl
  · rw [hbit]
    rfl

/-- A number is its magnitude with its sign. -/
theorem signed_magnitude : (if x.isNegative then -ofMagnitude x.magnitude else ofMagnitude x.magnitude) = x := by
  have hsize : ofMagnitude x.magnitude = ⟨x.bits &&& ~~~signBit⟩ := by
    rw [ofMagnitude, magnitude, Nat.toUInt64_eq, UInt64.ofNat_toNat]
  have hbits : (x.bits &&& ~~~signBit) ^^^ (x.bits &&& signBit) = x.bits := by
    apply UInt64.eq_of_toBitVec_eq
    ext i hi
    simp only [UInt64.toBitVec_xor, UInt64.toBitVec_and, UInt64.toBitVec_not, BitVec.getElem_xor, BitVec.getElem_and,
      BitVec.getElem_not]
    cases x.bits.toBitVec[i] <;> simp
  rw [bits_and_signBit] at hbits
  rw [hsize]
  split
  · next hneg =>
    rw [if_pos hneg] at hbits
    exact congrArg Number.mk hbits
  · next hpos =>
    rw [if_neg hpos, UInt64.xor_zero] at hbits
    exact congrArg Number.mk hbits

def sign : Text := if x.isNegative then "-" else []

variable {x y : Number}

/-- The text of a finite number is its sign and a numeral, which is read as its magnitude. -/
theorem toText_numeral (hx : x.isFinite = true) :
    ∃ n : Numeral, n.value? = some (ofMagnitude x.magnitude) ∧ x.toText = x.sign ++ n.bytes := by
  have hfinite : x.magnitude < infinity := of_decide_eq_true hx
  have hnan : x.isNaN = false := decide_eq_false (by omega)
  have hinfinite : x.isInfinite = false := decide_eq_false (by omega)
  have hsize : ∃ n : Numeral, n.value? = some (ofMagnitude x.magnitude) ∧
      n.bytes = if x.magnitude = 0 then Text.ofString "0" else x.shortest.positional := by
    split
    · next hzero =>
      rw [hzero]
      exact ⟨⟨"0", [], by decide, by decide +kernel⟩, rfl, rfl⟩
    · obtain ⟨n, hbytes, hvalue⟩ := x.shortest.positional_numeral
      exact ⟨n, hvalue.trans (toNumber?_shortest hx), hbytes⟩
  obtain ⟨n, hvalue, hbytes⟩ := hsize
  refine ⟨n, hvalue, ?_⟩
  unfold toText write sign
  rw [hnan, hinfinite, hbytes]
  cases x.isNegative with
  | true => rfl
  | false => rfl

/-- The first byte of a text tells the sign. -/
theorem sign_of_append {n m : Numeral} (h : x.sign ++ n.bytes = y.sign ++ m.bytes) : x.isNegative = y.isNegative := by
  have hminus (k : Numeral) (w : Text) : k.bytes ≠ '-'.toUInt8 :: w := by
    intro hk
    exact absurd (Text.isDigit_of_numeral hk) (by decide)
  unfold sign at h
  cases hx : x.isNegative with
  | true =>
    cases hy : y.isNegative with
    | true => rfl
    | false =>
      rw [hx, hy] at h
      exact absurd h.symm (hminus m _)
  | false =>
    cases hy : y.isNegative with
    | false => rfl
    | true =>
      rw [hx, hy] at h
      exact absurd h (hminus n _)

/-- No two finite numbers have the same text. -/
theorem eq_of_toText (hx : x.isFinite = true) (hy : y.isFinite = true) (h : x.toText = y.toText) : x = y := by
  obtain ⟨n, hn, hxn⟩ := toText_numeral hx
  obtain ⟨m, hm, hym⟩ := toText_numeral hy
  rw [hxn, hym] at h
  have hsign := sign_of_append h
  have hbytes : n.bytes = m.bytes := by
    unfold sign at h
    rw [hsign] at h
    exact List.append_cancel_left h
  have hsize : ofMagnitude x.magnitude = ofMagnitude y.magnitude := by
    rw [Numeral.value?_congr hbytes, hm] at hn
    exact (Option.some.inj hn).symm
  rw [← signed_magnitude x, ← signed_magnitude y, hsign, hsize]

/-! ### Numbers that are read -/

theorem toNat_ofMagnitude {m : Nat} (hm : m < 2 ^ 63) : (ofMagnitude m).bits.toNat = m :=
  Nat.mod_eq_of_lt (show m < 2 ^ 64 by omega)

theorem isNegative_ofMagnitude {m : Nat} (hm : m < 2 ^ 63) : (ofMagnitude m).isNegative = false := by
  have hand : (ofMagnitude m).bits &&& signBit = 0 := by
    apply UInt64.toNat_inj.mp
    rw [UInt64.toNat_and, toNat_ofMagnitude hm]
    calc m &&& 2 ^ 63 = (m.testBit 63).toNat * 2 ^ 63 := Nat.and_two_pow m 63
      _ = 0 := by rw [Nat.testBit_lt_two_pow hm]; rfl
  rw [isNegative, hand]
  rfl

theorem magnitude_ofMagnitude {m : Nat} (hm : m < 2 ^ 63) : (ofMagnitude m).magnitude = m := by
  rw [magnitude, UInt64.toNat_and, toNat_ofMagnitude hm]
  calc m &&& 2 ^ 63 - 1 = m % 2 ^ 63 := Nat.and_two_pow_sub_one_eq_mod m 63
    _ = m := Nat.mod_eq_of_lt hm

/-- What is read is finite and has no sign. -/
theorem ofRatio?_eq_some {num den : Nat} {x : Number} (h : ofRatio? num den = some x) :
    ∃ m, m < infinity ∧ x = ofMagnitude m := by
  unfold ofRatio? at h
  dsimp only at h
  split_ifs at h with hzero hfinite
  · exact ⟨0, by decide, (Option.some.inj h).symm⟩
  · exact ⟨_, hfinite, (Option.some.inj h).symm⟩

end Number

/-- The text of a number that a numeral stands for is a numeral that stands for the same number. -/
theorem Lexeme.lawful_toText {digits : Text} {x : Number} (h : (Lexeme.number digits x).Lawful) :
    (Lexeme.number x.toText x).Lawful := by
  obtain ⟨n, -, hvalue⟩ := h
  obtain ⟨m, hm, rfl⟩ := Number.ofRatio?_eq_some hvalue
  have hsmall : m < 2 ^ 63 := hm.trans (by decide)
  have hfinite : (Number.ofMagnitude m).isFinite = true := by
    rw [Number.isFinite, Number.magnitude_ofMagnitude hsmall]
    exact decide_eq_true hm
  obtain ⟨k, hk, htext⟩ := Number.toText_numeral hfinite
  rw [Number.magnitude_ofMagnitude hsmall] at hk
  rw [Number.sign, Number.isNegative_ofMagnitude hsmall] at htext
  exact ⟨k, htext.symm, hk⟩

end Lox
