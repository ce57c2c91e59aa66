import Lox.Number.Decimal
import Mathlib.Tactic.Ring

/-! Which decimals are numbers. The largest finite number is `2 ^ 1024 - 2 ^ 971`. A decimal that lies at least halfway
from there to `2 ^ 1024` is rounded up to it and is too large; every other one has a nearest number. -/
namespace Lox

theorem twoPow_pos (n : Nat) : 0 < twoPow n := Nat.two_pow_pos n

theorem twoPow_add (m n : Nat) : twoPow (m + n) = twoPow m * twoPow n := Nat.pow_add 2 m n

theorem twoPow_succ (n : Nat) : twoPow (n + 1) = 2 * twoPow n := by
  rw [Nat.add_comm, twoPow_add]
  rfl

theorem twoPow_le {m n : Nat} (h : m ≤ n) : twoPow m ≤ twoPow n := Nat.pow_le_pow_right (by decide) h

section divNearest

variable {num den k : Nat}

/-- A ratio below a whole number is not rounded to more. -/
theorem divNearest_le (h : num < k * den) : divNearest num den ≤ k := by
  have hq : num / den < k := Nat.div_lt_of_lt_mul (by rwa [Nat.mul_comm])
  unfold divNearest
  dsimp only
  split
  · omega
  · split
    · omega
    · omega

/-- The quotient is rounded up to an even number if it is less by one half at most. -/
theorem le_divNearest_iff (hden : 0 < den) (hk : k % 2 = 0) (hpos : 0 < k) :
    k ≤ divNearest num den ↔ (2 * k - 1) * den ≤ 2 * num := by
  have hr : num % den < den := Nat.mod_lt num hden
  have hnum : den * (num / den) + num % den = num := Nat.div_add_mod num den
  unfold divNearest
  dsimp only
  generalize num / den = q at hnum ⊢
  generalize num % den = r at hr hnum ⊢
  rcases Nat.lt_trichotomy k (q + 1) with hlt | rfl | hgt
  · -- below the quotient nothing has to be rounded up
    have hle : 2 * k * den ≤ 2 * q * den := Nat.mul_le_mul_right den (by omega)
    have hsub : (2 * k - 1) * den = 2 * k * den - den := by rw [Nat.sub_mul, Nat.one_mul]
    have hq : 2 * q * den = 2 * (den * q) := by ring
    constructor
    · intro _
      omega
    · intro _
      split
      · omega
      · split
        · omega
        · omega
  · have hhalf : (2 * (q + 1) - 1) * den = 2 * (den * q) + den := by
      rw [show 2 * (q + 1) - 1 = 2 * q + 1 by omega]
      ring
    constructor
    · intro hle
      split at hle
      · omega
      · split at hle
        · omega
        · omega
    · intro hle
      split
      · omega
      · split
        · omega
        · omega
  · have hle : (2 * q + 3) * den ≤ (2 * k - 1) * den := Nat.mul_le_mul_right den (by omega)
    have hq : (2 * q + 3) * den = 2 * (den * q) + 3 * den := by ring
    constructor
    · intro hle'
      split at hle'
      · omega
      · split at hle'
        · omega
        · omega
    · intro hle'
      omega

end divNearest

namespace Number

variable {num den : Nat}

/-- The scale is so large that the significand has at most 53 bits. -/
theorem lt_of_scaleOf (hden : den ≠ 0) :
    num * twoPow (1074 - scaleOf num den) < twoPow 53 * (den * twoPow (scaleOf num den - 1074)) := by
  have hlow : twoPow den.log2 ≤ den := Nat.log2_self_le hden
  have hup : num < twoPow (num.log2 + 1) := Nat.lt_log2_self
  have hpos := twoPow_pos den.log2
  -- the quotient of the leading powers of two bounds the quotient from above
  have hlead : num * twoPow den.log2 < den * twoPow (scaleOf num den + den.log2 - 1021) ∧
      1021 ≤ scaleOf num den + den.log2 := by
    unfold scaleOf
    dsimp only
    split
    · refine ⟨?_, by omega⟩
      calc num * twoPow den.log2
          < twoPow (num.log2 + 1) * twoPow den.log2 := Nat.mul_lt_mul_of_pos_right hup hpos
        _ ≤ twoPow (num.log2 + 1) * den := Nat.mul_le_mul_left _ hlow
        _ = den * twoPow (num.log2 + 1) := Nat.mul_comm _ _
        _ ≤ _ := Nat.mul_le_mul_left _ (twoPow_le (by omega))
    · rename_i hlt
      refine ⟨?_, by omega⟩
      calc num * twoPow den.log2
          < den * twoPow num.log2 := Nat.lt_of_not_le hlt
        _ ≤ _ := Nat.mul_le_mul_left _ (twoPow_le (by omega))
  generalize scaleOf num den = p at hlead ⊢
  obtain ⟨hlead, hp⟩ := hlead
  apply Nat.lt_of_mul_lt_mul_right (a := twoPow den.log2)
  calc num * twoPow (1074 - p) * twoPow den.log2
      = num * twoPow den.log2 * twoPow (1074 - p) := by ring
    _ < den * twoPow (p + den.log2 - 1021) * twoPow (1074 - p) := Nat.mul_lt_mul_of_pos_right hlead (twoPow_pos _)
    _ = den * twoPow (p + den.log2 - 1021 + (1074 - p)) := by rw [twoPow_add, Nat.mul_assoc]
    _ = den * twoPow (53 + (p - 1074) + den.log2) := by
      rw [show p + den.log2 - 1021 + (1074 - p) = 53 + (p - 1074) + den.log2 by omega]
    _ = twoPow 53 * (den * twoPow (p - 1074)) * twoPow den.log2 := by
      rw [twoPow_add, twoPow_add]
      ring

/-- Above the least scale the significand has 53 bits. -/
theorem le_of_scaleOf (hnum : num ≠ 0) (hscale : 0 < scaleOf num den) :
    twoPow 52 * (den * twoPow (scaleOf num den - 1074)) ≤ num * twoPow (1074 - scaleOf num den) := by
  have hlow : twoPow num.log2 ≤ num := Nat.log2_self_le hnum
  have hup : den < twoPow (den.log2 + 1) := Nat.lt_log2_self
  -- the leading bits alone give the bound, up to the power of two that both sides are scaled by
  have hlead : den * twoPow (scaleOf num den + den.log2 - 1021) ≤ num * twoPow (den.log2 + 1) := by
    unfold scaleOf at hscale ⊢
    dsimp only at hscale ⊢
    split
    · rename_i hle
      rw [if_pos hle] at hscale
      rw [show num.log2 + 1022 - den.log2 + den.log2 - 1021 = num.log2 + 1 by omega, twoPow_succ, twoPow_succ]
      calc den * (2 * twoPow num.log2)
          = 2 * (den * twoPow num.log2) := by ring
        _ ≤ 2 * (num * twoPow den.log2) := Nat.mul_le_mul_left 2 hle
        _ = num * (2 * twoPow den.log2) := by ring
    · rename_i hlt
      rw [if_neg hlt] at hscale
      rw [show num.log2 + 1021 - den.log2 + den.log2 - 1021 = num.log2 by omega, Nat.mul_comm num]
      exact Nat.mul_le_mul (Nat.le_of_lt hup) hlow
  have hp : 1021 ≤ scaleOf num den + den.log2 := by
    unfold scaleOf
    dsimp only
    split
    · omega
    · omega
  generalize scaleOf num den = p at hlead hp ⊢
  refine Nat.le_of_mul_le_mul_right ?_ (twoPow_pos (den.log2 + 1))
  calc twoPow 52 * (den * twoPow (p - 1074)) * twoPow (den.log2 + 1)
      = den * twoPow (52 + (p - 1074) + (den.log2 + 1)) := by
        rw [twoPow_add (52 + (p - 1074)), twoPow_add 52]
        ring
    _ = den * twoPow (p + den.log2 - 1021 + (1074 - p)) := by
      rw [show 52 + (p - 1074) + (den.log2 + 1) = p + den.log2 - 1021 + (1074 - p) by omega]
    _ = den * twoPow (p + den.log2 - 1021) * twoPow (1074 - p) := by rw [twoPow_add, Nat.mul_assoc]
    _ ≤ num * twoPow (den.log2 + 1) * twoPow (1074 - p) := Nat.mul_le_mul_right _ hlead
    _ = num * twoPow (1074 - p) * twoPow (den.log2 + 1) := by ring

/-- The least number that is rounded to `2 ^ 1024` and not to a finite number. -/
def overflow : Nat := twoPow 1024 - twoPow 970

theorem overflow_eq : overflow = (twoPow 54 - 1) * twoPow 970 := by
  rw [Nat.sub_mul, Nat.one_mul, ← twoPow_add, overflow]

section scale

variable {p : Nat}

/-- A ratio with a scale beyond the largest is too large. -/
theorem overflow_le_of_scale (hp : 2046 ≤ p)
    (hle : twoPow 52 * (den * twoPow (p - 1074)) ≤ num * twoPow (1074 - p)) : overflow * den ≤ num := by
  have hzero : 1074 - p = 0 := by omega
  rw [hzero] at hle
  calc overflow * den
      ≤ twoPow (52 + 972) * den := Nat.mul_le_mul_right den (Nat.sub_le _ _)
    _ = twoPow 52 * (den * twoPow 972) := by
      rw [twoPow_add]
      ring
    _ ≤ twoPow 52 * (den * twoPow (p - 1074)) :=
      Nat.mul_le_mul_left _ (Nat.mul_le_mul_left den (twoPow_le (by omega)))
    _ ≤ num * 1 := hle
    _ = num := Nat.mul_one num

/-- A ratio with a scale below the largest is not. -/
theorem lt_overflow_of_scale (hp : p ≤ 2044)
    (hlt : num * twoPow (1074 - p) < twoPow 53 * (den * twoPow (p - 1074))) : num < overflow * den := by
  have hwide : twoPow 53 ≤ twoPow 54 - 1 := by decide
  calc num
      ≤ num * twoPow (1074 - p) := Nat.le_mul_of_pos_right num (twoPow_pos _)
    _ < twoPow 53 * (den * twoPow (p - 1074)) := hlt
    _ ≤ (twoPow 54 - 1) * (den * twoPow 970) :=
      Nat.mul_le_mul hwide (Nat.mul_le_mul_left den (twoPow_le (by omega)))
    _ = overflow * den := by
      rw [overflow_eq]
      ring

/-- At the largest scale of finite numbers the rounded significand decides. -/
theorem twoPow_le_divNearest_iff (hden : 0 < den) :
    twoPow 53 ≤ divNearest num (den * twoPow 971) ↔ overflow * den ≤ num := by
  have heven : twoPow 53 % 2 = 0 := by decide
  have hscaled : 0 < den * twoPow 971 := Nat.mul_pos hden (twoPow_pos _)
  rw [le_divNearest_iff hscaled heven (twoPow_pos 53)]
  have htwice : (2 * twoPow 53 - 1) * (den * twoPow 971) = 2 * (overflow * den) := by
    rw [← twoPow_succ, overflow_eq, twoPow_succ 970]
    ring
  rw [htwice]
  omega

end scale

/-- A quotient is too large for a number if it reaches `overflow`, and only then. -/
theorem ofRatio?_eq_none_iff (hden : 0 < den) : ofRatio? num den = none ↔ overflow * den ≤ num := by
  unfold ofRatio?
  by_cases hnum : num = 0
  -- zero has no scale, and is never too large
  · have hpos : 0 < overflow := by
      rw [overflow_eq]
      exact Nat.mul_pos (by decide) (twoPow_pos _)
    have hlarge : 0 < overflow * den := Nat.mul_pos hpos hden
    rw [if_pos hnum]
    constructor
    · intro h
      cases h
    · intro h
      omega
  · have hlt : num * _ < _ := lt_of_scaleOf (Nat.ne_of_gt hden)
    have hle : 0 < scaleOf num den → _ := le_of_scaleOf hnum
    rw [if_neg hnum]
    dsimp only
    generalize scaleOf num den = p at hlt hle ⊢
    have hround := divNearest_le hlt
    have h53 : twoPow 53 = 2 * twoPow 52 := twoPow_succ 52
    have hpos52 := twoPow_pos 52
    have hinfinity : infinity = 2047 * twoPow 52 := rfl
    rw [ite_eq_right_iff, hinfinity]
    simp only [reduceCtorEq, imp_false, Nat.not_lt]
    -- the scale decides on its own, except at the largest one, where the rounded significand can carry over
    rcases Nat.lt_trichotomy p 2045 with hp | rfl | hp
    · have hscale : p * twoPow 52 ≤ 2044 * twoPow 52 := Nat.mul_le_mul_right _ (by omega)
      have hsmall := lt_overflow_of_scale (by omega) hlt
      constructor
      · intro h
        omega
      · intro h
        omega
    · rw [← twoPow_le_divNearest_iff hden]
      have hone : num * twoPow (1074 - 2045) = num := Nat.mul_one num
      have hplaces : 2045 - 1074 = 971 := rfl
      rw [hone, hplaces]
      constructor
      · intro h
        omega
      · intro h
        omega
    · have hlarge := overflow_le_of_scale (by omega) (hle (by omega))
      have hscale : 2046 * twoPow 52 ≤ p * twoPow 52 := Nat.mul_le_mul_right _ (by omega)
      have hsignificand : twoPow 52 ≤ divNearest (num * twoPow (1074 - p)) (den * twoPow (p - 1074)) := by
        apply (le_divNearest_iff (Nat.mul_pos hden (twoPow_pos _)) (by decide) hpos52).mpr
        have hbound := hle (by omega)
        have hless := Nat.mul_le_mul_right (den * twoPow (p - 1074)) (Nat.sub_le (2 * twoPow 52) 1)
        rw [Nat.mul_assoc 2] at hless
        omega
      constructor
      · intro _
        exact hlarge
      · intro _
        omega

end Number

/-- The decimals that have no number. -/
theorem Decimal.toNumber?_ofDigits_eq_none_iff (whole places : Text) :
    (Decimal.ofDigits whole places).toNumber? = none ↔
      Number.overflow * tenPow places.length ≤ Text.digitsValue (whole ++ places) := by
  have hexponent : (Decimal.ofDigits whole places).exponent = -(places.length : Int) := rfl
  have hnum : (-(places.length : Int)).toNat = 0 := by omega
  have hden : (-(-(places.length : Int))).toNat = places.length := by omega
  have hpos : 0 < tenPow places.length := Nat.pow_pos (by decide)
  unfold Decimal.toNumber?
  rw [hexponent, hnum, hden, Number.ofRatio?_eq_none_iff hpos]
  have hdigits : (Decimal.ofDigits whole places).digits * tenPow 0 = Text.digitsValue (whole ++ places) := Nat.mul_one _
  rw [hdigits]

end Lox
