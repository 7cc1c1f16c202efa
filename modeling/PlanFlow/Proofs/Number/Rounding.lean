import Mathlib.Algebra.Order.Field.Power
import Mathlib.Algebra.Order.Field.Rat
import Mathlib.Data.Rat.Cast.Order
import Mathlib.Tactic.Linarith
import Mathlib.Tactic.NormNum
import Mathlib.Tactic.Positivity
import Mathlib.Tactic.Ring
import PlanFlow.Number.Literal

/-!
# Exact values and rounding

The exact value of a number is a rational number.  A ratio is rounded to a binary64 number that no
other one is nearer to; nothing more is needed to see that rounding keeps the order, and that it
leaves binary64 values alone.
-/

namespace PlanFlow
namespace Binary64

/-- The factor of a sign. -/
def sign (negative : Bool) : ℚ := if negative then -1 else 1

/-- The exact value. -/
def exact (x : Binary64) : ℚ := sign x.negative * (x.mantissa * 2 ^ x.exponent)

/-- The mantissa has at most 53 bits, and the exponent is not below the smallest one. -/
def Representable (x : Binary64) : Prop := x.mantissa < 2 ^ 53 ∧ minExponent ≤ x.exponent

/-- A binary64 number that no other one is nearer to. -/
def IsNearest (q : ℚ) (x : Binary64) : Prop :=
  x.Representable ∧ ∀ y : Binary64, y.Representable → |x.exact - q| ≤ |y.exact - q|

/-! ## Comparisons -/

section Comparisons

variable (x y : Binary64)

theorem ratio_pos : (0 : ℚ) < x.ratio.2 := by
  rw [ratio]
  split <;> simp

theorem ratio_div : (x.ratio.1 : ℚ) / x.ratio.2 = x.mantissa * 2 ^ x.exponent := by
  rw [ratio]
  split <;> rename_i hexponent
  · obtain ⟨k, hk⟩ : ∃ k : ℕ, x.exponent = -k := ⟨x.exponent.natAbs, by omega⟩
    simp [hk, div_eq_mul_inv]
  · obtain ⟨k, hk⟩ := Int.eq_ofNat_of_zero_le (Int.not_lt.mp hexponent)
    simp [hk]

theorem signed_div : (x.signed : ℚ) / x.ratio.2 = x.exact := by
  rw [exact, ← ratio_div, signed, sign]
  split <;> simp [neg_div]

theorem atMost_iff : x.atMost y = true ↔ x.exact ≤ y.exact := by
  rw [atMost, decide_eq_true_iff, ← signed_div, ← signed_div,
    div_le_div_iff₀ x.ratio_pos y.ratio_pos]
  exact_mod_cast Iff.rfl

theorem sameValue_iff : x.sameValue y = true ↔ x.exact = y.exact := by
  rw [sameValue, beq_iff_eq, ← signed_div, ← signed_div,
    div_eq_div_iff x.ratio_pos.ne' y.ratio_pos.ne']
  exact_mod_cast Iff.rfl

end Comparisons

/-! ## Nearest numbers -/

section Nearest

variable {a b q : ℚ} {x y z : Binary64}

/-- What is nearer to the upper of two numbers is not below their middle. -/
theorem add_le_of_abs_sub_le (hab : a < b) (hnear : |b - q| ≤ |a - q|) : a + b ≤ 2 * q := by
  rcases abs_cases (b - q) with hb | hb <;> rcases abs_cases (a - q) with ha | ha <;> linarith

theorem le_add_of_abs_sub_le (hab : a < b) (hnear : |a - q| ≤ |b - q|) : 2 * q ≤ a + b := by
  rcases abs_cases (b - q) with hb | hb <;> rcases abs_cases (a - q) with ha | ha <;> linarith

/-- Rounding keeps the order. -/
theorem IsNearest.mono (hx : IsNearest a x) (hy : IsNearest b y) (hab : a < b) :
    x.exact ≤ y.exact := by
  by_contra hlt
  have hlt : y.exact < x.exact := not_le.mp hlt
  -- Were the results the other way round, their middle would be between the two ratios.
  have hlower : y.exact + x.exact ≤ 2 * a := add_le_of_abs_sub_le hlt (hx.2 y hy.1)
  have hupper : 2 * b ≤ y.exact + x.exact := le_add_of_abs_sub_le hlt (hy.2 x hx.1)
  linarith

/-- What is a binary64 value is not rounded. -/
theorem IsNearest.eq_exact (hx : IsNearest z.exact x) (hz : z.Representable) :
    x.exact = z.exact := by
  have hnear := hx.2 z hz
  rw [sub_self, abs_zero, abs_nonpos_iff] at hnear
  exact sub_eq_zero.mp hnear

theorem Representable.isNearest (hz : z.Representable) : IsNearest z.exact z :=
  ⟨hz, fun y _ => by simp⟩

end Nearest

/-! ## Rounding to an integer -/

section Integer

variable {num den : ℕ}

theorem abs_roundDiv_sub_le (hden : 0 < den) :
    |(roundDiv num den : ℚ) - num / den| ≤ 1 / 2 := by
  have hpos : (0 : ℚ) < den := by exact_mod_cast hden
  have hsplit : (num : ℚ) / den = (num / den : ℕ) + (num % den : ℕ) / den := by
    rw [eq_comm, ← eq_sub_iff_add_eq', div_eq_iff hpos.ne', sub_mul, div_mul_cancel₀ _ hpos.ne',
      eq_sub_iff_add_eq]
    exact_mod_cast Nat.mod_add_div' num den
  have hdown (h : 2 * (num % den) ≤ den) : |((num / den : ℕ) : ℚ) - num / den| ≤ 1 / 2 := by
    have hhalf : ((num % den : ℕ) : ℚ) / den ≤ 1 / 2 := by
      rw [div_le_div_iff₀ hpos two_pos]
      exact_mod_cast (by omega : num % den * 2 ≤ 1 * den)
    have hnonneg : (0 : ℚ) ≤ ((num % den : ℕ) : ℚ) / den := by positivity
    rw [hsplit, abs_le]
    constructor <;> linarith
  have hup (h : den ≤ 2 * (num % den)) : |((num / den + 1 : ℕ) : ℚ) - num / den| ≤ 1 / 2 := by
    have hhalf : (1 : ℚ) / 2 ≤ ((num % den : ℕ) : ℚ) / den := by
      rw [div_le_div_iff₀ two_pos hpos]
      exact_mod_cast (by omega : 1 * den ≤ num % den * 2)
    have hone : ((num % den : ℕ) : ℚ) / den ≤ 1 := by
      rw [div_le_one₀ hpos]
      exact_mod_cast (Nat.mod_lt num hden).le
    rw [hsplit, abs_le]
    push_cast
    constructor <;> linarith
  rw [roundDiv]
  split
  · exact hdown (by omega)
  · split
    · exact hup (by omega)
    · split
      · exact hdown (by omega)
      · exact hup (by omega)

/-- No integer is nearer to the quotient. -/
theorem abs_roundDiv_sub_le_abs (hden : 0 < den) (k : ℤ) :
    |(roundDiv num den : ℚ) - num / den| ≤ |(k : ℚ) - num / den| := by
  by_contra hlt
  have hlt := not_le.mp hlt
  have hhalf := @abs_roundDiv_sub_le num den hden
  -- Two integers that are both nearer than a half are one.
  have hone : |((roundDiv num den : ℤ) - k : ℚ)| < 1 := by
    have htriangle := abs_sub_le (roundDiv num den : ℚ) (num / den) k
    rw [abs_sub_comm (num / den : ℚ)] at htriangle
    push_cast
    linarith
  have heq : (roundDiv num den : ℤ) = k := by
    rw [← sub_eq_zero, ← Int.abs_lt_one_iff]
    exact_mod_cast hone
  rw [← heq, Int.cast_natCast] at hlt
  exact lt_irrefl _ hlt

end Integer

/-! ## The exponent -/

section Exponent

variable {num den : ℕ}

theorem unscale_pos (hden : 0 < den) (e : ℤ) : 0 < (unscale num den e).2 := by
  rw [unscale]
  split <;> simp [hden]

theorem unscale_div (e : ℤ) :
    ((unscale num den e).1 : ℚ) / (unscale num den e).2 = num / den / 2 ^ e := by
  rw [unscale]
  split <;> rename_i hexponent
  · obtain ⟨k, hk⟩ : ∃ k : ℕ, e = -k := ⟨e.natAbs, by omega⟩
    simp [hk, div_eq_mul_inv, mul_right_comm]
  · obtain ⟨k, hk⟩ := Int.eq_ofNat_of_zero_le (Int.not_lt.mp hexponent)
    simp [hk, div_div]

/-- At the exponent the mantissa has no more than 53 bits, and no fewer unless the exponent is the
smallest one. -/
structure Scales (q : ℚ) (e : ℤ) : Prop where
  min_le : minExponent ≤ e
  lt : q < 2 ^ 53 * 2 ^ e
  le : e = minExponent ∨ 2 ^ 52 * 2 ^ e ≤ q

/-- Both numbers have a bit of their own at the top. -/
theorem div_bounds (hnum : num ≠ 0) (hden : den ≠ 0) :
    let guess : ℤ := (Nat.log2 num : ℤ) - (Nat.log2 den : ℤ) - 53
    2 ^ 52 * 2 ^ guess ≤ (num : ℚ) / den ∧ (num : ℚ) / den < 2 ^ 54 * 2 ^ guess := by
  intro guess
  have htwo : (2 : ℚ) ≠ 0 := two_ne_zero
  have hpos : (0 : ℚ) < den := by exact_mod_cast Nat.pos_of_ne_zero hden
  have hnumLow : (2 : ℚ) ^ Nat.log2 num ≤ num := by exact_mod_cast Nat.log2_self_le hnum
  have hnumHigh : (num : ℚ) < 2 ^ (Nat.log2 num + 1) := by exact_mod_cast Nat.lt_log2_self
  have hdenLow : (2 : ℚ) ^ Nat.log2 den ≤ den := by exact_mod_cast Nat.log2_self_le hden
  have hdenHigh : (den : ℚ) < 2 ^ (Nat.log2 den + 1) := by exact_mod_cast Nat.lt_log2_self
  have hguess : (2 : ℚ) ^ guess * 2 ^ (53 + Nat.log2 den) = 2 ^ Nat.log2 num := by
    rw [← zpow_natCast, ← zpow_natCast, ← zpow_add₀ htwo]
    congr 1
    push_cast
    omega
  have hunit : (0 : ℚ) < 2 ^ guess := zpow_pos two_pos _
  rw [le_div_iff₀ hpos, div_lt_iff₀ hpos]
  constructor
  · calc (2 : ℚ) ^ 52 * 2 ^ guess * den ≤ 2 ^ 52 * 2 ^ guess * 2 ^ (Nat.log2 den + 1) := by
          gcongr
      _ = 2 ^ Nat.log2 num := by rw [← hguess]; ring
      _ ≤ num := hnumLow
  · calc (num : ℚ) < 2 ^ (Nat.log2 num + 1) := hnumHigh
      _ = 2 ^ 54 * 2 ^ guess * 2 ^ Nat.log2 den := by rw [pow_succ, ← hguess]; ring
      _ ≤ 2 ^ 54 * 2 ^ guess * den := by gcongr

theorem scales_exponentFor (hnum : num ≠ 0) (hden : 0 < den) :
    Scales (num / den) (exponentFor num den) := by
  obtain ⟨hlow, hhigh⟩ := div_bounds hnum hden.ne'
  rw [exponentFor]
  set guess : ℤ := (Nat.log2 num : ℤ) - (Nat.log2 den : ℤ) - 53 with hguess
  have hunit : (0 : ℚ) < 2 ^ guess := zpow_pos two_pos _
  have hfits : (unscale num den guess).1 / (unscale num den guess).2 < Nat.pow 2 53 ↔
      (num : ℚ) / den < 2 ^ 53 * 2 ^ guess := by
    have hpos : (0 : ℚ) < (unscale num den guess).2 := by exact_mod_cast unscale_pos hden guess
    rw [← div_lt_iff₀ hunit, ← unscale_div, div_lt_iff₀ hpos,
      Nat.div_lt_iff_lt_mul (unscale_pos hden guess)]
    exact_mod_cast Iff.rfl
  -- One more bit is enough if 53 are not.
  obtain ⟨e, he, hlt, hle⟩ : ∃ e, (if (unscale num den guess).1 / (unscale num den guess).2 <
      Nat.pow 2 53 then guess else guess + 1) = e ∧ (num : ℚ) / den < 2 ^ 53 * 2 ^ e ∧
        2 ^ 52 * 2 ^ e ≤ (num : ℚ) / den := by
    split <;> rename_i hbits
    · exact ⟨guess, rfl, hfits.mp hbits, hlow⟩
    · have hmore := not_lt.mp (hfits.not.mp hbits)
      refine ⟨guess + 1, rfl, ?_, ?_⟩ <;> rw [zpow_add_one₀ two_ne_zero] <;> linarith
  simp only [he]
  refine ⟨le_max_left _ _, hlt.trans_le ?_, ?_⟩
  · exact mul_le_mul_of_nonneg_left (zpow_le_zpow_right₀ one_le_two (le_max_right _ _)) (by simp)
  · rcases max_choice minExponent e with hmin | hmax
    · exact .inl hmin
    · exact .inr (hmax.symm ▸ hle)

end Exponent

/-! ## Rounding to binary64 -/

section Binary

variable {x y : Binary64} {q : ℚ} {e : ℤ}

theorem Representable.neg (h : x.Representable) : x.neg.Representable := h

theorem exact_neg (x : Binary64) : x.neg.exact = -x.exact := by
  cases hx : x.negative <;> simp [exact, sign, neg, hx]

/-- A number is so many units of every smaller exponent. -/
theorem exists_units (he : e ≤ x.exponent) : ∃ k : ℤ, x.exact = k * 2 ^ e := by
  obtain ⟨n, hn⟩ := Int.le.dest he
  have hunit : (2 : ℚ) ^ x.exponent = 2 ^ n * 2 ^ e := by
    rw [← hn, zpow_add₀ two_ne_zero, zpow_natCast, mul_comm]
  cases hx : x.negative
  · exact ⟨x.mantissa * 2 ^ n, by simp [exact, sign, hx, hunit, mul_assoc]⟩
  · exact ⟨-(x.mantissa * 2 ^ n), by simp [exact, sign, hx, hunit, mul_assoc]⟩

theorem Representable.exact_le (h : x.Representable) : x.exact ≤ 2 ^ 53 * 2 ^ x.exponent := by
  have hmantissa : (x.mantissa : ℚ) ≤ 2 ^ 53 := by exact_mod_cast h.1.le
  have hunit : (0 : ℚ) < 2 ^ x.exponent := zpow_pos two_pos _
  have hnonneg : (0 : ℚ) ≤ x.mantissa * 2 ^ x.exponent := by positivity
  have hle : (x.mantissa : ℚ) * 2 ^ x.exponent ≤ 2 ^ 53 * 2 ^ x.exponent := by gcongr
  rw [exact, sign]
  split <;> linarith

/-- The integer nearest to the units of a scaled number is nearer than any binary64 number. -/
theorem abs_units_sub_le (hscale : Scales q e) {r : ℚ}
    (hround : ∀ k : ℤ, |r - q / 2 ^ e| ≤ |(k : ℚ) - q / 2 ^ e|) (hy : y.Representable) :
    |r * 2 ^ e - q| ≤ |y.exact - q| := by
  have hunit : (0 : ℚ) < 2 ^ e := zpow_pos two_pos e
  have hscaled (u : ℚ) : |u * 2 ^ e - q| = |u - q / 2 ^ e| * 2 ^ e := by
    rw [← abs_of_pos hunit, ← abs_mul, abs_of_pos hunit, sub_mul, div_mul_cancel₀ _ hunit.ne']
  have hnearest (k : ℤ) : |r * 2 ^ e - q| ≤ |(k : ℚ) * 2 ^ e - q| := by
    rw [hscaled, hscaled]
    exact mul_le_mul_of_nonneg_right (hround k) hunit.le
  rcases le_or_gt e y.exponent with he | he
  · obtain ⟨k, hk⟩ := exists_units he
    rw [hk]
    exact hnearest k
  -- A number of a smaller exponent is below `2 ^ 52` units, and these are not above the ratio.
  · have hle : 2 ^ 52 * 2 ^ e ≤ q :=
      hscale.le.resolve_left fun hmin => (hmin ▸ he).not_ge hy.2
    have hbelow : y.exact ≤ 2 ^ 52 * 2 ^ e := by
      refine hy.exact_le.trans ?_
      have hstep : (2 : ℚ) ^ (y.exponent + 1) ≤ 2 ^ e := zpow_le_zpow_right₀ one_le_two he
      rw [zpow_add_one₀ two_ne_zero] at hstep
      linarith
    have hpower := hnearest (2 ^ 52)
    rw [Int.cast_pow, Int.cast_ofNat] at hpower
    rw [abs_of_nonpos (sub_nonpos.mpr hle)] at hpower
    rw [abs_of_nonpos (sub_nonpos.mpr (hbelow.trans hle))]
    linarith

end Binary

section OfRatio

variable {negative : Bool} {num den : ℕ} {x : Binary64}

theorem roundDiv_le (hden : 0 < den) {k : ℕ} (h : (num : ℚ) / den ≤ k) :
    roundDiv num den ≤ k := by
  have hround := @abs_roundDiv_sub_le_abs num den hden k
  rw [Int.cast_natCast, abs_of_nonneg (sub_nonneg.mpr h)] at hround
  exact_mod_cast sub_le_sub_iff_right _ |>.mp ((le_abs_self _).trans hround)

/-- The units of its exponent that a ratio is rounded to. -/
def units (num den : ℕ) : ℕ :=
  roundDiv (unscale num den (exponentFor num den)).1 (unscale num den (exponentFor num den)).2

theorem units_le (hnum : num ≠ 0) : units num den ≤ 2 ^ 53 := by
  rcases Nat.eq_zero_or_pos den with rfl | hden
  · have hzero (e : ℤ) : (unscale num 0 e).2 = 0 := by
      rw [unscale]
      split <;> simp
    have hone (n : ℕ) : roundDiv n 0 ≤ 1 := by
      rw [roundDiv]
      repeat' split
      all_goals simp
    rw [units, hzero]
    exact (hone _).trans Nat.one_le_two_pow
  · refine roundDiv_le (unscale_pos hden _) ?_
    rw [unscale_div, div_le_iff₀ (zpow_pos two_pos _), Nat.cast_pow, Nat.cast_ofNat]
    exact (scales_exponentFor hnum hden).lt.le

theorem abs_units_sub_le_abs (hden : 0 < den) (k : ℤ) :
    |(units num den : ℚ) - num / den / 2 ^ exponentFor num den| ≤
      |(k : ℚ) - num / den / 2 ^ exponentFor num den| := by
  rw [units, ← unscale_div]
  exact abs_roundDiv_sub_le_abs (unscale_pos hden _) k

/-- When the mantissa does not fit any more, the exponent is raised. -/
theorem ofRatio_eq (hnum : num ≠ 0) : ofRatio negative num den =
    if units num den = 2 ^ 53 then
      if maxExponent < exponentFor num den + 1 then none
      else some ⟨negative, 2 ^ 52, exponentFor num den + 1⟩
    else if maxExponent < exponentFor num den then none
    else some ⟨negative, units num den, exponentFor num den⟩ := by
  rw [ofRatio, if_neg hnum]
  by_cases hfull : units num den = 2 ^ 53
  · rw [if_pos hfull]
    rw [units] at hfull
    simp only [Nat.pow_eq, hfull, if_true]
  · rw [if_neg hfull]
    rw [units] at hfull ⊢
    simp only [Nat.pow_eq, hfull, if_false]

theorem ofRatio_eq_some (hnum : num ≠ 0) (h : ofRatio negative num den = some x) :
    (units num den = 2 ^ 53 ∧ x = ⟨negative, 2 ^ 52, exponentFor num den + 1⟩) ∨
      (units num den ≠ 2 ^ 53 ∧ x = ⟨negative, units num den, exponentFor num den⟩) := by
  rw [ofRatio_eq hnum] at h
  split at h <;> rename_i hfull <;> split at h
  · cases h
  · exact .inl ⟨hfull, (Option.some.inj h).symm⟩
  · cases h
  · exact .inr ⟨hfull, (Option.some.inj h).symm⟩

/-- What a ratio is rounded to. -/
theorem exact_of_ofRatio (hnum : num ≠ 0) (h : ofRatio negative num den = some x) :
    x.exact = sign negative * (units num den * 2 ^ exponentFor num den) := by
  rcases ofRatio_eq_some hnum h with ⟨hfull, rfl⟩ | ⟨-, rfl⟩
  · rw [exact, hfull, zpow_add_one₀ two_ne_zero]
    push_cast
    ring
  · rw [exact]

theorem representable_zero (negative : Bool) : (zero negative).Representable :=
  ⟨Nat.two_pow_pos 53, le_rfl⟩

theorem representable_of_ofRatio (h : ofRatio negative num den = some x) : x.Representable := by
  by_cases hnum : num = 0
  · rw [ofRatio, if_pos hnum] at h
    exact Option.some.inj h ▸ representable_zero negative
  · have hexponent : minExponent ≤ exponentFor num den := le_max_left _ _
    rcases ofRatio_eq_some hnum h with ⟨-, rfl⟩ | ⟨hfull, rfl⟩
    · exact ⟨Nat.pow_lt_pow_right one_lt_two (by omega), by show _ ≤ _ + 1; omega⟩
    · exact ⟨lt_of_le_of_ne (units_le hnum) hfull, hexponent⟩

/-- A ratio is rounded to a nearest number. -/
theorem isNearest_of_ofRatio (hden : 0 < den) (h : ofRatio negative num den = some x) :
    IsNearest (sign negative * (num / den)) x := by
  refine ⟨representable_of_ofRatio h, fun y hy => ?_⟩
  by_cases hnum : num = 0
  · subst hnum
    rw [ofRatio, if_pos rfl] at h
    obtain rfl := Option.some.inj h
    have hzero : (zero negative).exact = 0 := by simp [exact, zero]
    rw [hzero, Nat.cast_zero, zero_div, mul_zero, sub_self, abs_zero]
    exact abs_nonneg _
  · rw [exact_of_ofRatio hnum h]
    have hscale := scales_exponentFor hnum hden
    cases negative
    · simpa [sign] using abs_units_sub_le hscale (abs_units_sub_le_abs hden) hy
    · have hneg := abs_units_sub_le hscale (abs_units_sub_le_abs hden) hy.neg
      rw [exact_neg, ← abs_neg, ← abs_neg (-y.exact - _)] at hneg
      simpa [sign, sub_eq_add_neg, add_comm] using hneg

/-- A ratio of at most 64 bits is not too large. -/
theorem exists_ofRatio (negative : Bool) (hden : 0 < den) (hle : (num : ℚ) / den ≤ 2 ^ 64) :
    ∃ x, ofRatio negative num den = some x := by
  by_cases hnum : num = 0
  · exact ⟨_, by rw [ofRatio, if_pos hnum]⟩
  · have hexponent : exponentFor num den ≤ 12 := by
      rcases (scales_exponentFor hnum hden).le with hmin | hunits
      · rw [hmin, minExponent]
        omega
      · rw [← zpow_le_zpow_iff_right₀ (one_lt_two : (1 : ℚ) < 2)]
        refine le_of_mul_le_mul_left ?_ (by positivity : (0 : ℚ) < 2 ^ 52)
        exact (hunits.trans hle).trans (by norm_num)
    have hmax : ¬maxExponent < exponentFor num den + 1 := by
      rw [maxExponent]
      omega
    have hmax' : ¬maxExponent < exponentFor num den := by
      rw [maxExponent]
      omega
    rw [ofRatio_eq hnum, if_neg hmax, if_neg hmax']
    split
    · exact ⟨_, rfl⟩
    · exact ⟨_, rfl⟩

end OfRatio

theorem sign_mul_natAbs (n : ℤ) : sign (n < 0) * n.natAbs = n := by
  rw [Nat.cast_natAbs, sign]
  by_cases hneg : n < 0
  · simp [hneg, abs_of_neg hneg]
  · simp [hneg, abs_of_nonneg (not_lt.mp hneg)]

/-- An integer of at most 64 bits is rounded to a nearest number. -/
theorem isNearest_ofInt {n : ℤ} (hn : n.natAbs ≤ 2 ^ 64) : IsNearest n (ofInt n) := by
  have hle : (n.natAbs : ℚ) / (1 : ℕ) ≤ 2 ^ 64 := by
    rw [Nat.cast_one, div_one]
    exact_mod_cast hn
  obtain ⟨x, hx⟩ := exists_ofRatio (n < 0) one_pos hle
  have hnearest := isNearest_of_ofRatio one_pos hx
  rw [Nat.cast_one, div_one, sign_mul_natAbs] at hnearest
  rw [ofInt, hx]
  exact hnearest

end Binary64

namespace Number

/-- The exact value. -/
def exact : Number → ℚ
  | .int n => n
  | .float x => x.exact

/-- Whether the number is an integer by its form. -/
def isInt : Number → Bool
  | .int _ => true
  | .float _ => false

/-- An integer has at most 64 bits, and a binary64 number is one that there is. -/
def Fits : Number → Prop
  | .int n => -2 ^ 63 ≤ n ∧ n < 2 ^ 64
  | .float x => x.Representable

section Exact

variable {m n : Number}

theorem same_iff : m.same n = true ↔ m.exact = n.exact ∧ m.isInt = n.isInt := by
  cases m <;> cases n <;> simp [same, exact, isInt, Binary64.sameValue_iff]

theorem isNearest_toBinary64 (h : n.Fits) : Binary64.IsNearest n.exact n.toBinary64 := by
  cases n with
  | int n => exact Binary64.isNearest_ofInt (by have := h.1; have := h.2; omega)
  | float x => exact Binary64.Representable.isNearest h

/-- Numbers of one value have one binary64 value. -/
theorem exact_toBinary64_congr (hm : m.Fits) (hn : n.Fits) (h : m.exact = n.exact) :
    m.toBinary64.exact = n.toBinary64.exact := by
  have hm' := isNearest_toBinary64 hm
  have hn' := isNearest_toBinary64 hn
  cases m with
  | float x =>
      rw [← h] at hn'
      exact (hn'.eq_exact hm).symm
  | int a =>
      cases n with
      | float y =>
          rw [h] at hm'
          exact hm'.eq_exact hn
      | int b =>
          obtain rfl : a = b := Int.cast_injective h
          rfl

/-- The binary64 values are in order exactly if the numbers are, or if they are rounded to one. -/
theorem exact_toBinary64_le_iff (hm : m.Fits) (hn : n.Fits) :
    m.toBinary64.exact ≤ n.toBinary64.exact ↔
      m.exact ≤ n.exact ∨ m.toBinary64.exact = n.toBinary64.exact := by
  have hm' := isNearest_toBinary64 hm
  have hn' := isNearest_toBinary64 hn
  constructor
  · intro hle
    rcases le_or_gt m.exact n.exact with h | h
    · exact .inl h
    · exact .inr (le_antisymm hle (hn'.mono hm' h))
  · rintro (h | h)
    · rcases h.lt_or_eq with h | h
      · exact hm'.mono hn' h
      · exact (exact_toBinary64_congr hm hn h).le
    · exact h.le

/-- An integer of at most 53 bits, or one more, is not rounded. -/
theorem exact_toBinary64_int {n : ℤ} (hn : n.natAbs ≤ 2 ^ 53) :
    (toBinary64 (.int n)).exact = n := by
  have hnearest := Binary64.isNearest_ofInt (n := n) (by omega)
  obtain ⟨z, hz, hvalue⟩ : ∃ z : Binary64, z.Representable ∧ z.exact = n := by
    have hmin : Binary64.minExponent ≤ 0 := by decide
    rcases hn.lt_or_eq with hlt | heq
    · refine ⟨⟨n < 0, n.natAbs, 0⟩, ⟨hlt, hmin⟩, ?_⟩
      rw [Binary64.exact, zpow_zero, mul_one]
      exact Binary64.sign_mul_natAbs n
    · refine ⟨⟨n < 0, 2 ^ 52, 1⟩, ⟨?_, hmin.trans zero_le_one⟩, ?_⟩
      · exact Nat.pow_lt_pow_right one_lt_two (by omega)
      · rw [← Binary64.sign_mul_natAbs n, heq, Binary64.exact]
        norm_num
  rw [← hvalue] at hnearest ⊢
  exact hnearest.eq_exact hz

theorem exact_toBinary64 (hn : ∀ k, n = .int k → k.natAbs ≤ 2 ^ 53) :
    n.toBinary64.exact = n.exact := by
  cases n with
  | int k => exact exact_toBinary64_int (hn k rfl)
  | float x => rfl

end Exact
end Number

/-! ## Numbers of documents -/

namespace NumberLiteral

open Binary64

theorem representable_ofNat (n : ℕ) : (ofNat n).Representable := by
  rw [ofNat]
  cases h : ofRatio false n 1 with
  | none => exact representable_zero false
  | some x => exact representable_of_ofRatio h

theorem representable_of_scaled {significand : ℕ} {exponent : ℤ} {x : Binary64}
    (h : scaled significand exponent = some x) : x.Representable := by
  simp only [scaled, divPowTen] at h
  split at h
  · obtain ⟨y, -, hy⟩ := Option.bind_eq_some_iff.mp h
    exact representable_of_ofRatio hy
  · split at h
    · exact representable_of_ofRatio h
    · split at h
      · exact Option.some.inj h ▸ representable_ofNat significand
      · cases h

theorem representable_of_magnitude {l : NumberLiteral} {x : Binary64}
    (h : l.magnitude = some x) : x.Representable := by
  simp only [magnitude] at h
  split at h
  · exact representable_of_scaled h
  · split at h
    · split at h
      · exact Option.some.inj h ▸ representable_zero false
      · cases h
    · exact representable_of_scaled h

/-- Every number of a document fits. -/
theorem fits_of_value {l : NumberLiteral} {n : Number} (h : l.value = some n) : n.Fits := by
  rw [value] at h
  split at h <;> rename_i hpositive
  · obtain rfl := Option.some.inj h
    have hmax : digitsValue l.whole ≤ 2 ^ 64 - 1 :=
      of_decide_eq_true (Bool.and_eq_true_iff.mp hpositive).2
    exact ⟨by omega, by omega⟩
  · split at h <;> rename_i hnegative
    · obtain rfl := Option.some.inj h
      have hmax : 0 < digitsValue l.whole ∧ digitsValue l.whole ≤ 2 ^ 63 :=
        of_decide_eq_true (Bool.and_eq_true_iff.mp hnegative).2
      exact ⟨by omega, by omega⟩
    · obtain ⟨x, hx, rfl⟩ := Option.map_eq_some_iff.mp h
      have hrepresentable := representable_of_magnitude hx
      show Representable (if l.negative then x.neg else x)
      split
      · exact hrepresentable.neg
      · exact hrepresentable

end NumberLiteral
end PlanFlow
