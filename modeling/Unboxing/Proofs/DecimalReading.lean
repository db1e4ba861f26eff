import Mathlib.Algebra.Order.Field.Power
import Mathlib.Tactic.FieldSimp
import Mathlib.Tactic.Linarith
import Mathlib.Tactic.Positivity
import Mathlib.Tactic.Ring
import Unboxing.Number.Decimal

/-
  Floating-point constants are read back as they were. The value
  of a binary format that is nearest to a ratio depends on the
  ratio alone, is always of the one form that the format has for
  it, and is exact if the format can hold the ratio. The decimal
  that is written reads back by choice or is exact, and every way
  to write it keeps its number.

  Main declarations:
    * `Binary.nearest_congr`
    * `Binary.Canonical`
    * `Binary.nearest_exact`
    * `Decimal.ratio`
    * `Decimal.nearest_shortest`
    * `Decimal.read?_render`
-/

namespace Unboxing

open List

namespace Binary

variable {num den otherNum otherDen : Nat} {format : Format} {significand : Nat}
variable {exp : Int}

-- Scaling

theorem descale_pos (hDen : 0 < den) (exp : Int) :
    0 < (descale num den exp).2 := by
  unfold descale
  split
  · exact Nat.mul_pos hDen (Nat.pow_pos (by decide))
  · exact hDen

theorem zpow_of_nonneg (base : ℚ) {exp : Int} (hExponent : 0 ≤ exp) :
    base ^ exp = base ^ exp.toNat := by
  rw [← zpow_natCast, Int.toNat_of_nonneg hExponent]

theorem zpow_of_neg (base : ℚ) {exp : Int} (hExponent : ¬ 0 ≤ exp) :
    base ^ exp = (base ^ (-exp).toNat)⁻¹ := by
  rw [← zpow_natCast, Int.toNat_of_nonneg (by omega), zpow_neg, inv_inv]

theorem descale_ratio (num den : Nat) (exp : Int) :
    ((descale num den exp).1 : ℚ) / (descale num den exp).2 =
      num / den / 2 ^ exp := by
  unfold descale
  split
  case isTrue hExponent =>
    rw [zpow_of_nonneg 2 hExponent]
    push_cast [Nat.pow_eq]
    rw [div_mul_eq_div_div]
  case isFalse hExponent =>
    rw [zpow_of_neg 2 hExponent]
    push_cast [Nat.pow_eq]
    rw [div_inv_eq_mul, mul_div_right_comm]

/- A quotient is below a bound exactly if the ratio is. -/
theorem div_lt_iff_ratio_lt (hDen : 0 < den) (bound : Nat) :
    num / den < bound ↔ (num : ℚ) / den < bound := by
  have hPositive : (0 : ℚ) < den := by exact_mod_cast hDen
  rw [Nat.div_lt_iff_lt_mul hDen, div_lt_iff₀ hPositive]
  exact_mod_cast Iff.rfl

-- The exponent of the unit

/-
  The exponent at which a ratio has a significand of the
  format's precision. Only the least exponent may have a
  shorter significand.
-/
structure HasUnit (format : Format) (ratio : ℚ) (exp : Int) : Prop where
  least : format.minExponent ≤ exp
  below : ratio < 2 ^ (exp + format.precision)
  full : exp = format.minExponent ∨ 2 ^ (exp + format.precision - 1) ≤ ratio

/- A ratio has one such exponent. -/
theorem HasUnit.unique {ratio : ℚ} {first second : Int}
    (hFirst : HasUnit format ratio first) (hSecond : HasUnit format ratio second) :
    first = second := by
  have hNotLess {low high : Int}
      (hLow : HasUnit format ratio low)
      (hHigh : HasUnit format ratio high) :
      ¬ low < high := by
    intro hLess
    have hLeast := hLow.least
    rcases hHigh.full with hMin | hFull
    · omega
    · have hPower : (2 : ℚ) ^ (low + format.precision) ≤ 2 ^ (high + format.precision - 1) :=
        zpow_le_zpow_right₀ (by norm_num) (by omega)
      exact absurd hLow.below (not_lt.mpr (hPower.trans hFull))
  have hLess := hNotLess hFirst hSecond
  have hGreater := hNotLess hSecond hFirst
  omega

/- The logarithms tell a ratio up to a factor of two either way. -/
theorem log2_ratio (hNum : num ≠ 0) (hDen : 0 < den) :
    (2 : ℚ) ^ ((num.log2 : Int) - den.log2 - 1) < num / den ∧
      (num / den : ℚ) < 2 ^ ((num.log2 : Int) - den.log2 + 1) := by
  have hPositive : (0 : ℚ) < den := by exact_mod_cast hDen
  have hNumLow : (2 : ℚ) ^ (num.log2 : Int) ≤ num := by
    rw [zpow_natCast]
    exact_mod_cast Nat.log2_self_le hNum
  have hNumHigh : (num : ℚ) < 2 ^ ((num.log2 : Int) + 1) := by
    rw [← Nat.cast_succ, zpow_natCast]
    exact_mod_cast Nat.lt_log2_self
  have hDenLow : (2 : ℚ) ^ (den.log2 : Int) ≤ den := by
    rw [zpow_natCast]
    exact_mod_cast Nat.log2_self_le hDen.ne'
  have hDenHigh : (den : ℚ) < 2 ^ ((den.log2 : Int) + 1) := by
    rw [← Nat.cast_succ, zpow_natCast]
    exact_mod_cast Nat.lt_log2_self
  have hTwo : (2 : ℚ) ≠ 0 := by norm_num
  constructor
  · rw [lt_div_iff₀ hPositive]
    calc (2 : ℚ) ^ ((num.log2 : Int) - den.log2 - 1) * den
        < 2 ^ ((num.log2 : Int) - den.log2 - 1) * 2 ^ ((den.log2 : Int) + 1) := by
          gcongr
      _ = 2 ^ (num.log2 : Int) := by
          rw [← zpow_add₀ hTwo]
          congr 1
          omega
      _ ≤ num := hNumLow
  · rw [div_lt_iff₀ hPositive]
    calc (num : ℚ) < 2 ^ ((num.log2 : Int) + 1) := hNumHigh
      _ = 2 ^ ((num.log2 : Int) - den.log2 + 1) * 2 ^ (den.log2 : Int) := by
          rw [← zpow_add₀ hTwo]
          congr 1
          omega
      _ ≤ 2 ^ ((num.log2 : Int) - den.log2 + 1) * den := by
          gcongr

/- The exponent that is computed is the one of the unit. -/
theorem unitExponent_hasUnit (format : Format) (hNum : num ≠ 0) (hDen : 0 < den) :
    HasUnit format (num / den) (unitExponent format num den) := by
  rcases log2_ratio hNum hDen with ⟨hLow, hHigh⟩
  simp only [unitExponent]
  generalize hLowest :
    max format.minExponent ((num.log2 : Int) - den.log2 - format.precision) = low
  have hTest :
      (descale num den low).1 / (descale num den low).2 < Nat.pow 2 format.precision ↔
        (num / den : ℚ) < 2 ^ (low + format.precision) := by
    rw [div_lt_iff_ratio_lt (descale_pos hDen low), descale_ratio,
      div_lt_iff₀ (by positivity), zpow_add₀ (by norm_num), zpow_natCast, mul_comm]
    push_cast [Nat.pow_eq]
    rfl
  simp only [hTest]
  split
  case isTrue hBelow =>
    refine ⟨by omega, hBelow, ?_⟩
    by_cases hMin : low = format.minExponent
    · exact Or.inl hMin
    · right
      refine le_of_lt (lt_of_le_of_lt ?_ hLow)
      exact zpow_le_zpow_right₀ (by norm_num) (by omega)
  case isFalse hAbove =>
    -- The estimate is at most one too small.
    have hEnd : (num / den : ℚ) < 2 ^ (low + 1 + format.precision) := by
      refine lt_of_lt_of_le hHigh ?_
      exact zpow_le_zpow_right₀ (by norm_num) (by omega)
    refine ⟨by omega, hEnd, Or.inr ?_⟩
    rw [show low + 1 + (format.precision : Int) - 1 = low + format.precision by omega]
    exact not_lt.mp hAbove

-- Rounding

/- The rounded quotient is the quotient or the number after it. -/
theorem roundDiv_bounds (num den : Nat) :
    num / den ≤ roundDiv num den ∧ roundDiv num den ≤ num / den + 1 := by
  simp only [roundDiv]
  split
  · omega
  · split
    · omega
    · omega

theorem roundDiv_mul {factor : Nat} (hFactor : 0 < factor) (num den : Nat) :
    roundDiv (factor * num) (factor * den) = roundDiv num den := by
  have hTwice : 2 * (factor * (num % den)) = factor * (2 * (num % den)) := by
    rw [Nat.mul_left_comm]
  simp only [roundDiv, Nat.mul_div_mul_left _ _ hFactor, Nat.mul_mod_mul_left, hTwice,
    Nat.mul_lt_mul_left hFactor]

/- Only the ratio matters. -/
theorem roundDiv_congr (hDen : 0 < den) (hOtherDen : 0 < otherDen)
    (hRatio : num * otherDen = otherNum * den) :
    roundDiv num den = roundDiv otherNum otherDen :=
  calc roundDiv num den
      = roundDiv (otherDen * num) (otherDen * den) := (roundDiv_mul hOtherDen num den).symm
    _ = roundDiv (den * otherNum) (den * otherDen) := by
        rw [Nat.mul_comm otherDen num, hRatio, Nat.mul_comm otherNum den, Nat.mul_comm otherDen den]
    _ = roundDiv otherNum otherDen := roundDiv_mul hDen otherNum otherDen

theorem roundDiv_exact (number : Nat) (hDen : 0 < den) :
    roundDiv (number * den) den = number := by
  simp [roundDiv, Nat.mul_div_cancel _ hDen, hDen]

-- The nearest value

theorem cross_eq_of_ratio (hDen : 0 < den) (hOtherDen : 0 < otherDen)
    (hRatio : (num : ℚ) / den = otherNum / otherDen) :
    num * otherDen = otherNum * den := by
  have hPositive : (den : ℚ) ≠ 0 := by exact_mod_cast hDen.ne'
  have hOtherPositive : (otherDen : ℚ) ≠ 0 := by exact_mod_cast hOtherDen.ne'
  rw [div_eq_div_iff hPositive hOtherPositive] at hRatio
  exact_mod_cast hRatio

/- The nearest value depends on the ratio alone. -/
theorem nearest_congr (format : Format) (negative : Bool) (hDen : 0 < den)
    (hOtherDen : 0 < otherDen) (hRatio : (num : ℚ) / den = otherNum / otherDen) :
    nearest format negative num den = nearest format negative otherNum otherDen := by
  have hCross := cross_eq_of_ratio hDen hOtherDen hRatio
  have hZero : num = 0 ↔ otherNum = 0 := by
    constructor
    · intro hNum
      rw [hNum, Nat.zero_mul] at hCross
      exact (Nat.mul_eq_zero.mp hCross.symm).resolve_right hDen.ne'
    · intro hNum
      rw [hNum, Nat.zero_mul] at hCross
      exact (Nat.mul_eq_zero.mp hCross).resolve_right hOtherDen.ne'
  by_cases hNum : num = 0
  · simp only [nearest, if_pos hNum, if_pos (hZero.mp hNum)]
  · have hOtherNum : otherNum ≠ 0 := fun hOther => hNum (hZero.mpr hOther)
    have hExponent : unitExponent format num den = unitExponent format otherNum otherDen := by
      have hOther := unitExponent_hasUnit format hOtherNum hOtherDen
      rw [← hRatio] at hOther
      exact (unitExponent_hasUnit format hNum hDen).unique hOther
    have hRounded (exp : Int) :
        roundDiv (descale num den exp).1 (descale num den exp).2 =
          roundDiv (descale otherNum otherDen exp).1
            (descale otherNum otherDen exp).2 := by
      refine roundDiv_congr (descale_pos hDen exp) (descale_pos hOtherDen exp) ?_
      refine cross_eq_of_ratio (descale_pos hDen exp) (descale_pos hOtherDen exp) ?_
      rw [descale_ratio, descale_ratio, hRatio]
    simp only [nearest, if_neg hNum, if_neg hOtherNum, hExponent, hRounded]

/-
  The one form of a finite value: the significand is as long as
  the precision, unless the exponent is the least.
-/
structure Canonical (format : Format) (significand : Nat) (exp : Int) : Prop where
  least : format.minExponent ≤ exp
  greatest : exp ≤ format.maxExponent
  short : significand < 2 ^ format.precision
  full : exp = format.minExponent ∨ 2 ^ (format.precision - 1) ≤ significand

/- A ratio that is a value of the format is rounded to that value. -/
theorem nearest_exact (hPrecision : 0 < format.precision) (negative : Bool)
    (hCanonical : Canonical format significand exp) (hSignificand : significand ≠ 0)
    (hDen : 0 < den) (hRatio : (num : ℚ) / den = significand * 2 ^ exp) :
    nearest format negative num den = .finite negative significand exp := by
  have hNum : num ≠ 0 := by
    rintro rfl
    have hProduct : (significand : ℚ) * 2 ^ exp ≠ 0 :=
      mul_ne_zero (by exact_mod_cast hSignificand) (by positivity)
    rw [← hRatio] at hProduct
    simp at hProduct
  have hUnit : HasUnit format (num / den) exp := by
    rw [hRatio]
    refine ⟨hCanonical.least, ?_, ?_⟩
    · rw [zpow_add₀ (by norm_num), zpow_natCast, mul_comm]
      have hShort : (significand : ℚ) < 2 ^ format.precision := by
        exact_mod_cast hCanonical.short
      gcongr
    · refine hCanonical.full.imp_right ?_
      intro hFull
      have hBelow : exp + format.precision - 1 =
          exp + ((format.precision - 1 : Nat) : Int) := by omega
      rw [hBelow, zpow_add₀ (by norm_num), zpow_natCast, mul_comm]
      have hFull : (2 : ℚ) ^ (format.precision - 1) ≤ significand := by
        exact_mod_cast hFull
      gcongr
  have hExponent : unitExponent format num den = exp :=
    (unitExponent_hasUnit format hNum hDen).unique hUnit
  have hScaled : 0 < (descale num den exp).2 := descale_pos hDen exp
  have hRounded :
      roundDiv (descale num den exp).1 (descale num den exp).2 = significand := by
    have hCross :
        (descale num den exp).1 * 1 = significand * (descale num den exp).2 := by
      refine cross_eq_of_ratio hScaled Nat.one_pos ?_
      rw [descale_ratio, hRatio, Nat.cast_one]
      field_simp
    rw [Nat.mul_one] at hCross
    rw [hCross, roundDiv_exact significand hScaled]
  have hGreatest : ¬ format.maxExponent < exp := not_lt.mpr hCanonical.greatest
  simp only [nearest, if_neg hNum, hExponent, hRounded, Nat.pow_eq, if_pos hCanonical.short,
    if_neg hGreatest]

/- Every finite value that comes of rounding has the one form. -/
theorem canonical_of_nearest (hPrecision : 0 < format.precision)
    (hRange : format.minExponent ≤ format.maxExponent) {negative sign : Bool}
    (hDen : 0 < den)
    (hNearest : nearest format negative num den = .finite sign significand exp) :
    Canonical format significand exp ∧ sign = negative := by
  by_cases hNum : num = 0
  · simp only [nearest, if_pos hNum, Value.zero, Value.finite.injEq] at hNearest
    rcases hNearest with ⟨hSign, hSignificand, hExponent⟩
    refine ⟨⟨hExponent.le, hExponent ▸ hRange, ?_, Or.inl hExponent.symm⟩, hSign.symm⟩
    rw [← hSignificand]
    exact Nat.pow_pos (by decide)
  · have hUnit := unitExponent_hasUnit format hNum hDen
    simp only [nearest, if_neg hNum, Nat.pow_eq] at hNearest
    generalize unitExponent format num den = unit at hUnit hNearest
    have hBounds := roundDiv_bounds (descale num den unit).1 (descale num den unit).2
    have hScaled : 0 < (descale num den unit).2 := descale_pos hDen unit
    generalize hRounded :
      roundDiv (descale num den unit).1 (descale num den unit).2 = rounded
      at hBounds hNearest
    split at hNearest
    case isTrue hShort =>
      split at hNearest
      · cases hNearest
      · simp only [Value.finite.injEq] at hNearest
        rcases hNearest with ⟨hSign, rfl, rfl⟩
        refine ⟨⟨hUnit.least, by omega, hShort, ?_⟩, hSign.symm⟩
        refine hUnit.full.imp_right ?_
        intro hFull
        have hQuotient :
            2 ^ (format.precision - 1) ≤ (descale num den unit).1 / (descale num den unit).2 := by
          refine Nat.le_of_not_lt ?_
          have hUnitBelow : unit + format.precision - 1 =
              unit + ((format.precision - 1 : Nat) : Int) := by omega
          rw [hUnitBelow, zpow_add₀ (by norm_num), zpow_natCast] at hFull
          rw [div_lt_iff_ratio_lt hScaled, descale_ratio, div_lt_iff₀ (by positivity), not_lt,
            mul_comm]
          exact_mod_cast hFull
        omega
    case isFalse hLong =>
      split at hNearest
      · cases hNearest
      · simp only [Value.finite.injEq] at hNearest
        rcases hNearest with ⟨hSign, rfl, rfl⟩
        have hLeast := hUnit.least
        refine ⟨⟨by omega, by omega, ?_, Or.inr (Nat.le_refl _)⟩, hSign.symm⟩
        exact Nat.pow_lt_pow_right (by decide) (by omega)

end Binary

-- Formats

/- A format whose values lie well within the powers of ten that are computed. -/
structure Binary.Format.Usual (format : Binary.Format) : Prop where
  precision_pos : 0 < format.precision
  range : format.minExponent ≤ format.maxExponent
  high : format.precision + format.maxExponent ≤ 1024
  low : -1074 ≤ format.minExponent

theorem Binary.Format.usual_single : Binary.Format.single.Usual := by
  constructor <;> decide

theorem Binary.Format.usual_double : Binary.Format.double.Usual := by
  constructor <;> decide

namespace Decimal

variable {d : Decimal} {format : Binary.Format} {significand places : Nat}
variable {exp : Int} {text : List Char} {value : Binary.Value}

-- The number of a decimal

/- The number that a decimal stands for. -/
def ratio (d : Decimal) : ℚ :=
  d.digits * 10 ^ d.exp

/- A decimal within range is rounded by the number it stands for. -/
theorem nearest_of_leading (format : Binary.Format) (negative : Bool)
    (hDigits : d.digits ≠ 0) (hHigh : d.leading ≤ 400) (hLow : -400 ≤ d.leading) :
    ∃ num den : Nat, 0 < den ∧ (num : ℚ) / den = d.ratio ∧
      d.nearest format negative = Binary.nearest format negative num den := by
  unfold nearest ratio
  rw [if_neg hDigits, if_neg (by omega), if_neg (by omega)]
  split
  case isTrue hExponent =>
    refine ⟨d.digits * Nat.pow 10 d.exp.toNat, 1, Nat.one_pos, ?_, rfl⟩
    rw [Binary.zpow_of_nonneg 10 hExponent]
    push_cast [Nat.pow_eq]
    rw [div_one]
  case isFalse hExponent =>
    refine ⟨d.digits, Nat.pow 10 (-d.exp).toNat, Nat.pow_pos (by decide), ?_, rfl⟩
    rw [Binary.zpow_of_neg 10 hExponent]
    push_cast [Nat.pow_eq]
    rw [div_eq_mul_inv]

/- Decimals that stand for one number are rounded alike. -/
theorem nearest_congr (format : Binary.Format) (negative : Bool) {left right : Decimal}
    (hLeft : left.digits ≠ 0) (hRight : right.digits ≠ 0)
    (hLeading : left.leading = right.leading) (hRatio : left.ratio = right.ratio) :
    left.nearest format negative = right.nearest format negative := by
  by_cases hHigh : left.leading ≤ 400
  · by_cases hLow : -400 ≤ left.leading
    · rcases nearest_of_leading format negative hLeft hHigh hLow with
        ⟨num, den, hDen, hNum, hNearest⟩
      rcases nearest_of_leading format negative hRight (hLeading ▸ hHigh) (hLeading ▸ hLow) with
        ⟨otherNum, otherDen, hOtherDen, hOtherNum, hOtherNearest⟩
      rw [hNearest, hOtherNearest]
      refine Binary.nearest_congr format negative hDen hOtherDen ?_
      rw [hNum, hOtherNum, hRatio]
    · have hNotHigh : ¬ 400 < right.leading := by omega
      have hLow : right.leading < -400 := by omega
      simp only [nearest, hLeading, if_neg hLeft, if_neg hRight, if_neg hNotHigh, if_pos hLow]
  · have hHigh : 400 < right.leading := by omega
    simp only [nearest, hLeading, if_neg hLeft, if_neg hRight, if_pos hHigh]

/- Ten times the digits have one digit more. -/
theorem length_toDigits_ten {n : Nat} (hPositive : n ≠ 0) :
    (Nat.toDigits 10 (10 * n)).length = (Nat.toDigits 10 n).length + 1 := by
  rw [Nat.toDigits_of_base_le (by decide) (by omega), Nat.mul_div_cancel_left n (by decide)]
  simp

section

variable (format : Binary.Format) (negative : Bool)

/- A zero more, one power of ten less: the value is the same. -/
theorem nearest_ten (n : Nat) (exp : Int) :
    nearest format negative ⟨10 * n, exp⟩ = nearest format negative ⟨n, exp + 1⟩ := by
  by_cases hZero : n = 0
  · simp [nearest, hZero]
  · refine nearest_congr format negative (by simpa using hZero) hZero ?_ ?_
    · simp only [leading, digitChars, length_toDigits_ten hZero]
      omega
    · simp only [ratio]
      rw [zpow_add_one₀ (by norm_num)]
      push_cast
      ring

theorem nearest_scaled (n places : Nat) (exp : Int) :
    nearest format negative ⟨10 ^ places * n, exp⟩ =
      nearest format negative ⟨n, exp + places⟩ := by
  induction places generalizing exp with
  | zero => simp
  | succ places ih =>
    rw [pow_succ', Nat.mul_assoc, nearest_ten, ih]
    congr 2
    omega

theorem nearest_stripZeros (fuel : Nat) (d : Decimal) :
    (stripZeros fuel d).nearest format negative = d.nearest format negative := by
  induction fuel generalizing d with
  | zero => rfl
  | succ fuel ih =>
    unfold stripZeros
    split
    case isTrue hZero =>
      rw [ih, ← nearest_ten]
      congr 2
      omega
    case isFalse => rfl

end

theorem nearest_sign (negative : Bool)
    (hNearest : d.nearest format false = .finite false significand exp) :
    d.nearest format negative = .finite negative significand exp := by
  have hBinary (num den : Nat)
      (hRounded : Binary.nearest format false num den = .finite false significand exp) :
      Binary.nearest format negative num den = .finite negative significand exp := by
    simp only [Binary.nearest, Binary.Value.zero] at hRounded ⊢
    split_ifs at hRounded ⊢ <;>
      simp only [Binary.Value.finite.injEq, true_and] at hRounded ⊢ <;> exact hRounded
  unfold nearest at hNearest ⊢
  split_ifs at hNearest ⊢
  · simpa [Binary.Value.zero] using hNearest
  · simpa [Binary.Value.zero] using hNearest
  · exact hBinary _ _ hNearest
  · exact hBinary _ _ hNearest

-- The exact decimal

theorem leading_lt (hPlaces : 0 < places) (hDigits : d.digits < 10 ^ places) :
    d.leading < d.exp + places := by
  have hLength := (Nat.length_toDigits_le_iff (by decide) hPlaces).mpr hDigits
  unfold leading digitChars
  omega

theorem le_leading (hDigits : 10 ^ places ≤ d.digits) :
    d.exp + places ≤ d.leading := by
  have hLength : ¬ (Nat.toDigits 10 d.digits).length ≤ places := by
    intro hShort
    rcases Nat.eq_zero_or_pos places with hZero | hPositive
    · have hSome : 0 < (Nat.toDigits 10 d.digits).length := Nat.length_toDigits_pos
      omega
    · have hLess := (Nat.length_toDigits_le_iff (by decide) hPositive).mp hShort
      omega
  unfold leading digitChars
  omega

/- The exact decimal of a value stands for the value. -/
theorem ratio_exact (significand : Nat) (exp : Int) :
    (exact significand exp).ratio = significand * 2 ^ exp := by
  unfold exact ratio
  split
  case isTrue hExponent =>
    rw [Binary.zpow_of_nonneg 2 hExponent]
    push_cast [Nat.pow_eq]
    rw [mul_one]
  case isFalse hExponent =>
    rcases Int.exists_eq_neg_ofNat (by omega : exp ≤ 0) with ⟨places, rfl⟩
    simp only [neg_neg, Int.toNat_natCast, Nat.pow_eq, zpow_neg, zpow_natCast]
    push_cast
    rw [show (10 : ℚ) = 5 * 2 by norm_num, mul_pow]
    field_simp

/- Sixteen bits are fewer than five digits. -/
theorem two_pow_lt_ten_pow (times : Nat) {bits digits : Nat}
    (hTimes : times ≠ 0 ∧ bits ≤ 16 * times ∧ 5 * times ≤ digits) :
    2 ^ bits < 10 ^ digits :=
  calc 2 ^ bits
      ≤ 2 ^ (16 * times) := Nat.pow_le_pow_right (by decide) hTimes.2.1
    _ = (2 ^ 16) ^ times := Nat.pow_mul ..
    _ < (10 ^ 5) ^ times := Nat.pow_lt_pow_left (by decide) hTimes.1
    _ = 10 ^ (5 * times) := (Nat.pow_mul ..).symm
    _ ≤ 10 ^ digits := Nat.pow_le_pow_right (by decide) hTimes.2.2

/- A power of five is as large as that of ten after some digits are cut. -/
theorem ten_pow_le_five_pow {low : Nat} (hLow : 2 ^ places ≤ 10 ^ low) :
    10 ^ (places - low) ≤ 5 ^ places := by
  rcases Nat.lt_or_ge places low with hFew | hMany
  · rw [Nat.sub_eq_zero_of_le hFew.le]
    exact Nat.pow_pos (by decide)
  · refine Nat.le_of_mul_le_mul_right ?_ (Nat.pow_pos (by decide) : 0 < 10 ^ low)
    calc 10 ^ (places - low) * 10 ^ low
        = 10 ^ places := Nat.pow_sub_mul_pow 10 hMany
      _ = 5 ^ places * 2 ^ places := by rw [← Nat.mul_pow]
      _ ≤ 5 ^ places * 10 ^ low := Nat.mul_le_mul_left _ hLow

section

variable (hFormat : format.Usual)
variable (hCanonical : Binary.Canonical format significand exp)
include hFormat hCanonical

/- The exact decimal of a value has digits within the range that is computed. -/
theorem leading_exact (hSignificand : significand ≠ 0) :
    (exact significand exp).leading ≤ 400 ∧ -400 ≤ (exact significand exp).leading := by
  have hHigh := hFormat.high
  have hLow := hFormat.low
  have hLeast := hCanonical.least
  have hGreatest := hCanonical.greatest
  unfold exact
  split
  case isTrue hExponent =>
    have hDigits : significand * Nat.pow 2 exp.toNat < 10 ^ 401 :=
      calc significand * 2 ^ exp.toNat
          < 2 ^ format.precision * 2 ^ exp.toNat :=
            Nat.mul_lt_mul_of_pos_right hCanonical.short (Nat.pow_pos (by decide))
        _ = 2 ^ (format.precision + exp.toNat) := (Nat.pow_add ..).symm
        _ < 10 ^ 401 := two_pow_lt_ten_pow 64 (by omega)
    have hSome : 10 ^ 0 ≤ significand * Nat.pow 2 exp.toNat :=
      Nat.mul_pos (by omega) (Nat.pow_pos (by decide))
    have hBelow := leading_lt (d := ⟨_, 0⟩) (by decide) hDigits
    have hAbove := le_leading (d := ⟨_, 0⟩) hSome
    simp only at hBelow hAbove
    constructor <;> omega
  case isFalse hExponent =>
    generalize hPlaces : (-exp).toNat = places
    have hFive : 0 < 5 ^ places := Nat.pow_pos (by decide)
    have hTen : (10 : Nat) ^ places = 2 ^ places * 5 ^ places := by
      rw [← Nat.mul_pow]
    have hBits (bits : Nat) : 2 ^ (bits + places) * 5 ^ places = 2 ^ bits * 10 ^ places := by
      rw [Nat.pow_add, Nat.mul_assoc, ← hTen]
    have hDigits : significand * Nat.pow 5 places < 10 ^ (401 + places) :=
      calc significand * 5 ^ places
          < 2 ^ format.precision * 5 ^ places :=
            Nat.mul_lt_mul_of_pos_right hCanonical.short hFive
        _ ≤ 2 ^ (1024 + places) * 5 ^ places :=
            Nat.mul_le_mul_right _ (Nat.pow_le_pow_right (by decide) (by omega))
        _ = 2 ^ 1024 * 10 ^ places := hBits 1024
        _ ≤ 10 ^ 401 * 10 ^ places :=
            Nat.mul_le_mul_right _ (two_pow_lt_ten_pow 64 (by decide)).le
        _ = 10 ^ (401 + places) := by rw [Nat.pow_add]
    have hSome : 10 ^ (places - 400) ≤ significand * Nat.pow 5 places := by
      refine le_trans ?_ (Nat.le_mul_of_pos_left _ (Nat.pos_of_ne_zero hSignificand))
      exact ten_pow_le_five_pow (two_pow_lt_ten_pow 80 (by omega)).le
    have hBelow := leading_lt (d := ⟨_, exp⟩) (by omega) hDigits
    have hAbove := le_leading (d := ⟨_, exp⟩) hSome
    simp only at hBelow hAbove
    constructor <;> omega

theorem nearest_exact (hSignificand : significand ≠ 0) :
    (exact significand exp).nearest format false = .finite false significand exp := by
  have hDigits : (exact significand exp).digits ≠ 0 := by
    unfold exact
    split
    · exact Nat.mul_ne_zero hSignificand (Nat.pow_pos (by decide)).ne'
    · exact Nat.mul_ne_zero hSignificand (Nat.pow_pos (by decide)).ne'
  rcases leading_exact hFormat hCanonical hSignificand with ⟨hHigh, hLow⟩
  rcases nearest_of_leading format false hDigits hHigh hLow with ⟨num, den, hDen, hRatio, hNearest⟩
  rw [hNearest]
  rw [ratio_exact] at hRatio
  exact Binary.nearest_exact hFormat.precision_pos false hCanonical hSignificand hDen hRatio

/- The decimal that is written reads back: it is chosen so, or it is exact. -/
theorem nearest_shortest (hSignificand : significand ≠ 0) :
    (shortest format significand exp).nearest format false =
      .finite false significand exp := by
  have hCandidate {d found : Decimal} {count : Nat}
      (hFound : candidate? format (.finite false significand exp) d count = some found) :
      found.nearest format false = .finite false significand exp := by
    simp only [candidate?, Bool.and_eq_true, beq_iff_eq] at hFound
    split_ifs at hFound with hBoth hCloser hBelow hAbove <;> cases hFound
    · exact hBoth.2
    · exact hBoth.1
    · exact hBelow
    · exact hAbove
  simp only [shortest]
  generalize hSearch :
    (List.range 17).findSome? (fun n => candidate? format (.finite false significand exp)
      (exact significand exp) (n + 1)) = found
  cases found with
  | none => exact nearest_exact hFormat hCanonical hSignificand
  | some found =>
    rcases exists_of_findSome?_eq_some hSearch with ⟨n, _, hFound⟩
    exact hCandidate hFound

end

-- Texts of decimals

theorem natural?_of_digits (hNonempty : text ≠ [])
    (hDigits : ∀ c ∈ text, c.isDigit = true) :
    Numeral.natural? text = some (Nat.ofDigitChars 10 text 0) := by
  have hAll : text.all Char.isDigit = true := all_eq_true.mpr hDigits
  simp [Numeral.natural?, hNonempty, hAll]

theorem isDigit_digitChars (d : Decimal) : ∀ c ∈ d.digitChars, c.isDigit = true :=
  fun _ hChar => Nat.isDigit_of_mem_toDigits (by decide) (by decide) hChar

theorem ofDigitChars_digitChars (d : Decimal) :
    Nat.ofDigitChars 10 d.digitChars 0 = d.digits :=
  Nat.ofDigitChars_toDigits (by decide) (by decide)

/- A text with a point: the digits around it, and the exponent. -/
theorem unsigned?_point (whole fraction tail : List Char) (hNonempty : whole ≠ [])
    (hWhole : ∀ c ∈ whole, c.isDigit = true)
    (hFraction : ∀ c ∈ fraction, c.isDigit = true)
    (hTail : ∀ c ∈ tail.head?, c.isDigit = false)
    (hExponent : exponent? tail = some exp) :
    unsigned? (whole ++ '.' :: (fraction ++ tail)) =
      some ⟨Nat.ofDigitChars 10 (whole ++ fraction) 0, exp - fraction.length⟩ := by
  have hStop : tail.takeWhile Char.isDigit = [] ∧ tail.dropWhile Char.isDigit = tail := by
    cases tail with
    | nil => exact ⟨rfl, rfl⟩
    | cons c tail =>
      have hFirst := hTail c rfl
      simp [hFirst]
  have hPoint : Char.isDigit '.' = false := by decide
  have hDigits : ∀ c ∈ whole ++ fraction, c.isDigit = true :=
    forall_mem_append.mpr ⟨hWhole, hFraction⟩
  unfold unsigned?
  simp only [takeWhile_append_of_pos hWhole, dropWhile_append_of_pos hWhole,
    takeWhile_cons, dropWhile_cons, hPoint, Bool.false_eq_true, if_false,
    append_nil, takeWhile_append_of_pos hFraction,
    dropWhile_append_of_pos hFraction, hStop.1, hStop.2, hExponent,
    natural?_of_digits (by simp [hNonempty]) hDigits]
  rfl

theorem unsigned?_plain (whole tail : List Char) (hNonempty : whole ≠ [])
    (hWhole : ∀ c ∈ whole, c.isDigit = true)
    (hTail : ∀ c ∈ tail.head?, c.isDigit = false ∧ c ≠ '.')
    (hExponent : exponent? tail = some exp) :
    unsigned? (whole ++ tail) = some ⟨Nat.ofDigitChars 10 whole 0, exp⟩ := by
  have hStop : tail.takeWhile Char.isDigit = [] ∧ tail.dropWhile Char.isDigit = tail := by
    cases tail with
    | nil => exact ⟨rfl, rfl⟩
    | cons c tail =>
      have hFirst := (hTail c rfl).1
      simp [hFirst]
  unfold unsigned?
  simp only [takeWhile_append_of_pos hWhole, dropWhile_append_of_pos hWhole,
    hStop.1, hStop.2, append_nil]
  split
  · exact absurd rfl (hTail '.' rfl).2
  · simp only [append_nil, natural?_of_digits hNonempty hWhole, hExponent]
    simp

theorem ne_sign_of_isDigit {c : Char} (hDigit : c.isDigit = true) :
    c ≠ '-' ∧ c ≠ '+' := by
  constructor
  · rintro rfl
    revert hDigit
    decide
  · rintro rfl
    revert hDigit
    decide

theorem exponent?_toString (exp : Int) :
    exponent? ('e' :: (toString exp).toList) = some exp := by
  rw [Int.toString_eq_repr, Int.repr_eq_if]
  simp only [exponent?, true_or, if_true]
  by_cases hPositive : 0 ≤ exp
  · rw [if_pos hPositive, Nat.toList_repr]
    rcases hText : Nat.toDigits 10 exp.toNat with _ | ⟨c, text⟩
    · exact absurd hText Nat.toDigits_ne_nil
    · have hDigit : c.isDigit = true :=
        Nat.isDigit_of_mem_toDigits (by decide) (by decide) (hText ▸ mem_cons_self)
      rcases ne_sign_of_isDigit hDigit with ⟨hMinus, hPlus⟩
      split
      · simp_all
      · simp_all
      · rw [← hText, Numeral.natural?_toDigits]
        simp [Int.toNat_of_nonneg hPositive]
  · rw [if_neg hPositive, String.toList_append, Nat.toList_repr]
    simp only [String.reduceToList, cons_append, nil_append]
    rw [Numeral.natural?_toDigits]
    simp only [Option.bind_eq_bind, Option.bind_some, Option.pure_def, Option.map_some,
      Option.some.injEq]
    omega

/- The plain digits of a decimal are read as the number it stands for. -/
theorem unsigned?_positional (d : Decimal) :
    ∃ found, unsigned? d.positional = some found ∧
      ∀ format negative, found.nearest format negative = d.nearest format negative := by
  have hDigits := d.isDigit_digitChars
  have hNonempty : d.digitChars ≠ [] := Nat.toDigits_ne_nil
  have hZeros (count : Nat) : ∀ c ∈ List.replicate count '0', c.isDigit = true := by
    intro c hChar
    rw [eq_of_mem_replicate hChar]
    decide
  simp only [positional]
  split
  case isTrue hExponent =>
    have hWhole : ∀ c ∈ d.digitChars ++ List.replicate d.exp.toNat '0', c.isDigit = true :=
      forall_mem_append.mpr ⟨hDigits, hZeros _⟩
    have hRead := unsigned?_point (d.digitChars ++ List.replicate d.exp.toNat '0')
      ['0'] [] (by simp [hNonempty]) hWhole (hZeros 1) (by simp) rfl
    refine ⟨_, hRead, ?_⟩
    intro format negative
    have hNumber : Nat.ofDigitChars 10
        (d.digitChars ++ List.replicate d.exp.toNat '0' ++ ['0']) 0 =
          10 ^ (d.exp.toNat + 1) * d.digits := by
      rw [append_assoc, ← replicate_one, replicate_append_replicate,
        Nat.ofDigitChars_append, ofDigitChars_digitChars, Nat.ofDigitChars_replicate_zero]
    rw [hNumber, nearest_scaled]
    congr 2
    simp only [length_singleton]
    omega
  case isFalse hExponent =>
    -- The digits are those of the decimal, wherever the point stands.
    refine ⟨d, ?_, fun _ _ => rfl⟩
    generalize hPlaces : (-d.exp).toNat = places
    have hSame : d.exp = -(places : Int) := by omega
    have hFinish {text : List Char} {number : Nat} {exp : Int}
        (hRead : unsigned? text = some ⟨number, exp⟩)
        (hNumber : number = d.digits)
        (hExponent : exp = -(places : Int)) :
        unsigned? text = some d := by
      rw [hRead, hNumber, hExponent, ← hSame]
    split
    case isTrue hInside =>
      have hRead := unsigned?_point (d.digitChars.take (d.digitChars.length - places))
        (d.digitChars.drop (d.digitChars.length - places)) []
        (by simp [hNonempty]; omega)
        (fun c hChar => hDigits c (mem_of_mem_take hChar))
        (fun c hChar => hDigits c (mem_of_mem_drop hChar))
        (by simp) rfl
      rw [append_nil] at hRead
      refine hFinish hRead ?_ ?_
      · simp only [take_append_drop, ofDigitChars_digitChars]
      · simp only [length_drop]
        omega
    case isFalse hOutside =>
      have hFraction :
          ∀ c ∈ List.replicate (places - d.digitChars.length) '0' ++ d.digitChars,
            c.isDigit = true :=
        forall_mem_append.mpr ⟨hZeros _, hDigits⟩
      have hRead := unsigned?_point ['0'] _ [] (by simp) (hZeros 1) hFraction (by simp) rfl
      rw [append_nil] at hRead
      refine hFinish hRead ?_ ?_
      · rw [← append_assoc, ← replicate_one, replicate_append_replicate,
          Nat.ofDigitChars_append, Nat.ofDigitChars_replicate_zero, Nat.mul_zero,
          ofDigitChars_digitChars]
      · simp only [length_append, length_replicate]
        omega

/- One digit before the point and a power of ten: the same decimal is read. -/
theorem unsigned?_scientific (d : Decimal) : unsigned? d.scientific = some d := by
  have hDigits := d.isDigit_digitChars
  have hNumber := d.ofDigitChars_digitChars
  have hLeading : d.leading = d.exp + d.digitChars.length - 1 := rfl
  have hMark : ∀ c ∈ ('e' :: (toString d.leading).toList).head?, c.isDigit = false ∧ c ≠ '.' := by
    intro c hChar
    cases hChar
    decide
  have hExponent := exponent?_toString d.leading
  unfold scientific
  rcases hText : d.digitChars with _ | ⟨first, _ | ⟨second, rest⟩⟩
  · exact absurd hText Nat.toDigits_ne_nil
  · rw [hText] at hDigits hNumber hLeading
    have hRead := unsigned?_plain [first] _ (by simp) hDigits hMark hExponent
    simp only at hRead ⊢
    rw [hRead, hNumber, hLeading]
    simp
  · rw [hText] at hDigits hNumber hLeading
    have hRead := unsigned?_point [first] (second :: rest) _ (by simp)
      (fun c hChar => hDigits c (by simp_all)) (fun c hChar => hDigits c (by simp_all))
      (fun c hChar => (hMark c hChar).1) hExponent
    simp only [cons_append, nil_append] at hRead ⊢
    rw [hRead, hNumber, hLeading]
    simp only [length_cons]
    congr 1
    cases d
    simp only [mk.injEq, true_and]
    omega

-- Values

/- The values that a constant of a format can have. -/
def Readable (format : Binary.Format) : Binary.Value → Prop
  | .nan => True
  | .infinite _ => True
  | .finite _ significand exp => Binary.Canonical format significand exp

/- The nearest value to a decimal is one that a constant can have. -/
theorem readable_nearest (hFormat : format.Usual) (negative : Bool) (d : Decimal) :
    Readable format (d.nearest format negative) := by
  have hBinary (num : Nat) {den : Nat} (hDen : 0 < den) :
      Readable format (Binary.nearest format negative num den) := by
    cases hValue : Binary.nearest format negative num den with
    | nan | infinite sign => exact trivial
    | finite sign significand exp =>
      exact (Binary.canonical_of_nearest hFormat.precision_pos hFormat.range hDen hValue).1
  have hZero : Readable format (.zero format negative) :=
    ⟨Int.le_refl _, hFormat.range, Nat.pow_pos (by decide), Or.inl rfl⟩
  unfold nearest
  split_ifs
  · exact hZero
  · exact trivial
  · exact hZero
  · exact hBinary _ Nat.one_pos
  · exact hBinary _ (Nat.pow_pos (by decide))

/- Whatever is read is a value that a constant can have. -/
theorem readable_of_read? (hFormat : format.Usual)
    (hRead : read? format text = some value) :
    Readable format value := by
  have hMagnitude (negative : Bool) (text : List Char)
      (hText : magnitude? format negative text = some value) :
      Readable format value := by
    simp only [magnitude?] at hText
    split at hText
    · cases hText
      exact readable_nearest hFormat negative _
    · split_ifs at hText <;> cases hText <;> exact trivial
  unfold read? at hRead
  split at hRead
  · exact hMagnitude true _ hRead
  · exact hMagnitude false _ hRead
  · exact hMagnitude false _ hRead

/- The written decimal of a value is read as the value, with either sign. -/
theorem magnitude?_written (hFormat : format.Usual) (negative : Bool)
    (hCanonical : Binary.Canonical format significand exp)
    (hSignificand : significand ≠ 0) :
    let d := (shortest format significand exp).normal
    magnitude? format negative (if isPositional d.leading then d.positional else d.scientific) =
      some (.finite negative significand exp) := by
  intro d
  have hNearest : d.nearest format negative = .finite negative significand exp := by
    have hShortest := nearest_sign negative (nearest_shortest hFormat hCanonical hSignificand)
    rw [← hShortest]
    exact nearest_stripZeros format negative _ _
  unfold magnitude?
  split
  case h_1 found hFound =>
    split_ifs at hFound
    · rcases unsigned?_positional d with ⟨read, hRead, hSame⟩
      rw [hRead] at hFound
      cases hFound
      rw [hSame, hNearest]
    · rw [unsigned?_scientific] at hFound
      cases hFound
      rw [hNearest]
  case h_2 hNone =>
    split_ifs at hNone
    · rcases unsigned?_positional d with ⟨read, hRead, _⟩
      rw [hRead] at hNone
      cases hNone
    · rw [unsigned?_scientific] at hNone
      cases hNone

theorem read?_of_digit (format : Binary.Format)
    (hText : ∃ c ∈ text.head?, c.isDigit = true) :
    read? format text = magnitude? format false text := by
  rcases hText with ⟨c, hFirst, hDigit⟩
  rcases ne_sign_of_isDigit hDigit with ⟨hMinus, hPlus⟩
  unfold read?
  split
  · exact absurd (Option.some.inj hFirst).symm hMinus
  · exact absurd (Option.some.inj hFirst).symm hPlus
  · rfl

theorem head?_append_digits {digits : List Char} (hNonempty : digits ≠ [])
    (hDigits : ∀ c ∈ digits, c.isDigit = true) (text : List Char) :
    ∃ c ∈ (digits ++ text).head?, c.isDigit = true := by
  cases digits with
  | nil => exact absurd rfl hNonempty
  | cons c digits => exact ⟨c, rfl, hDigits c mem_cons_self⟩

theorem positional_digit (d : Decimal) :
    ∃ c ∈ d.positional.head?, c.isDigit = true := by
  have hDigits := d.isDigit_digitChars
  have hNonempty : d.digitChars ≠ [] := Nat.toDigits_ne_nil
  simp only [positional]
  split
  · rw [append_assoc]
    exact head?_append_digits hNonempty hDigits _
  · split
    · refine head?_append_digits ?_ (fun c hChar => hDigits c (mem_of_mem_take hChar)) _
      simp only [ne_eq, take_eq_nil_iff, not_or]
      exact ⟨by omega, hNonempty⟩
    · exact ⟨'0', rfl, by decide⟩

theorem scientific_digit (d : Decimal) :
    ∃ c ∈ d.scientific.head?, c.isDigit = true := by
  have hDigits := d.isDigit_digitChars
  simp only [scientific]
  rcases hText : d.digitChars with _ | ⟨first, _ | ⟨second, rest⟩⟩
  · exact absurd hText Nat.toDigits_ne_nil
  · exact ⟨first, rfl, hDigits first (hText ▸ mem_cons_self)⟩
  · exact ⟨first, rfl, hDigits first (hText ▸ mem_cons_self)⟩

/- Every value that a constant can have is read back from its text. -/
theorem read?_render (hFormat : format.Usual) (hValue : Readable format value) :
    read? format (render format value) = some value := by
  cases value with
  | nan => rfl
  | infinite negative => cases negative <;> rfl
  | finite negative significand exp =>
    simp only [render]
    by_cases hZero : significand = 0
    · -- A zero has the least exponent.
      have hExponent : exp = format.minExponent := by
        rcases hValue.full with hExponent | hFull
        · exact hExponent
        · have hPower : 0 < 2 ^ (format.precision - 1) := Nat.pow_pos (by decide)
          omega
      subst hZero hExponent
      cases negative <;> rfl
    · rw [if_neg hZero]
      have hWritten := magnitude?_written hFormat negative hValue hZero
      cases negative with
      | true => exact hWritten
      | false =>
        refine (read?_of_digit format ?_).trans hWritten
        simp only [Bool.false_eq_true, if_false, nil_append]
        split
        · exact positional_digit _
        · exact scientific_digit _

end Decimal

end Unboxing
