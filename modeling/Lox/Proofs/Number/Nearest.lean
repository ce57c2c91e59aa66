import Lox.Proofs.Number.Range

/-! The nearest number. Which number is nearest to a quotient depends on the value of the quotient alone, and a finite
number is nearest to its own value. -/
namespace Lox

section divNearest

variable {num den num' den' k : Nat}

/-- A common factor does not bear on the rounding. -/
theorem divNearest_mul_right (hk : 0 < k) : divNearest (num * k) (den * k) = divNearest num den := by
  have hlt (a b : Nat) : a * k < b * k ↔ a < b := Nat.mul_lt_mul_right hk
  unfold divNearest
  dsimp only
  rw [Nat.mul_div_mul_right num den hk, Nat.mul_mod_mul_right, ← Nat.mul_assoc]
  simp only [hlt]

/-- Equal quotients are rounded alike. -/
theorem divNearest_congr (hden : 0 < den) (hden' : 0 < den') (h : num * den' = num' * den) :
    divNearest num den = divNearest num' den' :=
  calc divNearest num den
      = divNearest (num * den') (den * den') := (divNearest_mul_right hden').symm
    _ = divNearest (num' * den) (den' * den) := by rw [h, Nat.mul_comm den]
    _ = divNearest num' den' := divNearest_mul_right hden

theorem divNearest_mul_self (hden : 0 < den) : divNearest (k * den) den = k := by
  unfold divNearest
  dsimp only
  rw [Nat.mul_div_cancel k hden, Nat.mul_mod_left, if_pos (by omega)]

end divNearest

namespace Number

variable {num den num' den' p q : Nat}

/-- At the scale `p` the significand of `num / den` has 53 bits, or fewer if the scale is the least one. -/
structure HasScale (num den p : Nat) : Prop where
  lt : num * twoPow 1074 < twoPow 53 * (den * twoPow p)
  le : 0 < p → twoPow 52 * (den * twoPow p) ≤ num * twoPow 1074

/-- The significand at a scale is a quotient of whole numbers, whether the scale is small or large. -/
theorem scaled_lt_iff {k : Nat} : num * twoPow (1074 - p) < k * (den * twoPow (p - 1074)) ↔
    num * twoPow 1074 < k * (den * twoPow p) := by
  have hnum : num * twoPow 1074 = num * twoPow (1074 - p) * twoPow (min p 1074) := by
    rw [Nat.mul_assoc, ← twoPow_add, show 1074 - p + min p 1074 = 1074 by omega]
  have hden : k * (den * twoPow p) = k * (den * twoPow (p - 1074)) * twoPow (min p 1074) := by
    rw [Nat.mul_assoc, Nat.mul_assoc den, ← twoPow_add, show p - 1074 + min p 1074 = p by omega]
  rw [hnum, hden, Nat.mul_lt_mul_right (twoPow_pos _)]

/-- The scale that is computed is one at which the significand fits. -/
theorem hasScale_scaleOf (hnum : num ≠ 0) (hden : den ≠ 0) : HasScale num den (scaleOf num den) where
  lt := scaled_lt_iff.mp (lt_of_scaleOf hden)
  le hscale := Nat.not_lt.mp fun hlt => Nat.not_lt.mpr (le_of_scaleOf hnum hscale) (scaled_lt_iff.mpr hlt)

/-- A quotient has one scale only. -/
theorem eq_of_hasScale (hp : HasScale num den p) (hq : HasScale num den q) : p = q := by
  have hle {p q : Nat} (hp : HasScale num den p) (hq : HasScale num den q) : q ≤ p := by
    by_contra hlt
    have hscale : twoPow (p + 1) ≤ twoPow q := twoPow_le (by omega)
    have hdouble : twoPow 53 * (den * twoPow p) = twoPow 52 * (den * twoPow (p + 1)) := by
      rw [twoPow_succ 52, twoPow_succ p]
      ring
    have hmono : twoPow 52 * (den * twoPow (p + 1)) ≤ twoPow 52 * (den * twoPow q) :=
      Nat.mul_le_mul_left _ (Nat.mul_le_mul_left den hscale)
    have hup := hp.lt
    have hlow := hq.le (by omega)
    omega
  exact Nat.le_antisymm (hle hq hp) (hle hp hq)

/-- There is only one such scale, so it is the one that is computed. -/
theorem scaleOf_eq (hnum : num ≠ 0) (hden : den ≠ 0) (hp : HasScale num den p) : scaleOf num den = p :=
  eq_of_hasScale (hasScale_scaleOf hnum hden) hp

/-- The scale depends on the ratio alone. -/
theorem hasScale_congr (hden : 0 < den) (hden' : 0 < den') (h : num * den' = num' * den) (hp : HasScale num den p) :
    HasScale num' den' p := by
  have hleft : num' * twoPow 1074 * den = num * twoPow 1074 * den' := by
    calc num' * twoPow 1074 * den = num' * den * twoPow 1074 := by ring
      _ = num * twoPow 1074 * den' := by rw [← h]; ring
  have hright (k : Nat) : k * (den' * twoPow p) * den = k * (den * twoPow p) * den' := by ring
  constructor
  · apply Nat.lt_of_mul_lt_mul_right (a := den)
    rw [hleft, hright]
    exact Nat.mul_lt_mul_of_pos_right hp.lt hden'
  · intro hscale
    apply Nat.le_of_mul_le_mul_right _ hden
    rw [hleft, hright]
    exact Nat.mul_le_mul_right den' (hp.le hscale)

/-- Equal quotients have the same nearest number. -/
theorem ofRatio?_congr (hden : 0 < den) (hden' : 0 < den') (h : num * den' = num' * den) :
    ofRatio? num den = ofRatio? num' den' := by
  by_cases hnum : num = 0
  · have hnum' : num' = 0 := by
      rw [hnum, Nat.zero_mul] at h
      exact (Nat.mul_eq_zero.mp h.symm).resolve_right (Nat.ne_of_gt hden)
    unfold ofRatio?
    rw [if_pos hnum, if_pos hnum']
  · have hnum' : num' ≠ 0 := by
      rintro rfl
      rw [Nat.zero_mul] at h
      exact (Nat.mul_ne_zero hnum (Nat.ne_of_gt hden')) h
    have hscale : scaleOf num' den' = scaleOf num den :=
      scaleOf_eq hnum' (Nat.ne_of_gt hden')
        (hasScale_congr hden hden' h (hasScale_scaleOf hnum (Nat.ne_of_gt hden)))
    unfold ofRatio?
    rw [if_neg hnum, if_neg hnum', hscale]
    have hround (m n : Nat) : divNearest (num * twoPow m) (den * twoPow n) =
        divNearest (num' * twoPow m) (den' * twoPow n) := by
      apply divNearest_congr (Nat.mul_pos hden (twoPow_pos _)) (Nat.mul_pos hden' (twoPow_pos _))
      calc num * twoPow m * (den' * twoPow n) = num * den' * (twoPow m * twoPow n) := by ring
        _ = num' * twoPow m * (den * twoPow n) := by rw [h]; ring
    dsimp only
    rw [hround]

/-! ### The value of a number -/

variable (x : Number)

/-- The magnitude of a number is told by its scale and its significand. -/
theorem scale_add_significand : x.scale * twoPow 52 + x.significand = x.magnitude := by
  have hdiv : twoPow 52 * (x.magnitude / twoPow 52) + x.magnitude % twoPow 52 = x.magnitude := Nat.div_add_mod _ _
  unfold scale significand
  split
  · next hsmall => rw [Nat.div_eq_of_lt hsmall, Nat.zero_sub, Nat.zero_mul, Nat.zero_add]
  · next hlarge =>
    -- the leading bit of the significand is the one that the scale lacks
    have hone : 1 ≤ x.magnitude / twoPow 52 := (Nat.one_le_div_iff (twoPow_pos 52)).mpr (Nat.not_lt.mp hlarge)
    rw [Nat.sub_mul, Nat.one_mul, Nat.mul_comm, ← Nat.add_assoc, Nat.sub_add_cancel (Nat.le_mul_of_pos_right _ hone)]
    exact hdiv

/-- A significand has 53 bits at most. -/
theorem significand_lt : x.significand < twoPow 53 := by
  have hmod : x.magnitude % twoPow 52 < twoPow 52 := Nat.mod_lt _ (twoPow_pos 52)
  have hdouble : twoPow 53 = 2 * twoPow 52 := twoPow_succ 52
  unfold significand
  split
  · omega
  · omega

/-- All bits of a significand are used unless the scale is the least one. -/
theorem le_significand (h : 0 < x.scale) : twoPow 52 ≤ x.significand := by
  unfold scale at h
  unfold significand
  split
  · next hsmall =>
    rw [Nat.div_eq_of_lt hsmall] at h
    omega
  · exact Nat.le_add_right _ _

theorem denominator_pos : 0 < x.denominator := twoPow_pos _

/-- A finite number has its own scale. -/
theorem hasScale_self : HasScale x.numerator x.denominator x.scale := by
  have hnum : x.numerator * twoPow 1074 = x.significand * twoPow (x.scale - 1074 + 1074) := by
    rw [numerator, Nat.mul_assoc, twoPow_add]
  have hden : x.denominator * twoPow x.scale = twoPow (x.scale - 1074 + 1074) := by
    rw [denominator, ← twoPow_add, show 1074 - x.scale + x.scale = x.scale - 1074 + 1074 by omega]
  constructor
  · rw [hnum, hden]
    exact Nat.mul_lt_mul_of_pos_right x.significand_lt (twoPow_pos _)
  · intro hscale
    rw [hnum, hden]
    exact Nat.mul_le_mul_right _ (x.le_significand hscale)

/-- The nearest number to the value of a finite number is the number itself, up to its sign. -/
theorem ofRatio?_self (hx : x.isFinite = true) :
    ofRatio? x.numerator x.denominator = some (ofMagnitude x.magnitude) := by
  have hfinite : x.magnitude < infinity := of_decide_eq_true hx
  have hsum := x.scale_add_significand
  unfold ofRatio?
  by_cases hnum : x.numerator = 0
  · have hsignificand : x.significand = 0 := (Nat.mul_eq_zero.mp hnum).resolve_right (Nat.ne_of_gt (twoPow_pos _))
    have hscale : x.scale = 0 := by
      by_contra hscale
      have hle := x.le_significand (Nat.pos_of_ne_zero hscale)
      have hpos := twoPow_pos 52
      omega
    rw [hsignificand, hscale, Nat.zero_mul] at hsum
    rw [if_pos hnum, ← hsum]
    rfl
  · have hscale : scaleOf x.numerator x.denominator = x.scale :=
      scaleOf_eq hnum (Nat.ne_of_gt x.denominator_pos) x.hasScale_self
    -- at its own scale the significand is a whole number, so nothing is rounded
    have hround : divNearest (x.numerator * twoPow (1074 - x.scale)) (x.denominator * twoPow (x.scale - 1074)) =
        x.significand := by
      have hnum : x.numerator * twoPow (1074 - x.scale) =
          x.significand * (x.denominator * twoPow (x.scale - 1074)) := by
        rw [numerator, denominator]
        ring
      rw [hnum]
      exact divNearest_mul_self (Nat.mul_pos x.denominator_pos (twoPow_pos _))
    rw [if_neg hnum, hscale]
    dsimp only
    rw [hround, hsum, if_pos hfinite]

end Number
end Lox
