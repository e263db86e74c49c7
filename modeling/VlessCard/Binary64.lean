/-
Double precision numbers as the rationals they are: rounding to an integer,
rounding to 53 significant bits, rounding to a number of decimal places.

A result of the arithmetic is the exact result rounded to the nearest multiple
of a power of two, ties to even. Zero and the ends of the exponent range need no
care here: nothing this development computes comes near them. What is proved is
what invariants need of a rounding: it is monotone, it leaves the numbers it can
represent alone, and it is off by half a unit at most.
-/
import Mathlib

set_option autoImplicit false

namespace VlessCard

namespace Binary64

/-! ## Rounding to an integer

Ties go to the even neighbour, as IEEE 754 has it. What the later sections use is that rounding
loses half a unit at most, keeps the order and leaves integers alone. -/

/-- The nearest integer, a tie to the even one. -/
def roundEven (q : ℚ) : ℤ :=
  let f := ⌊q⌋
  if q - f < 1 / 2 then f
  else if 1 / 2 < q - f then f + 1
  else if f % 2 = 0 then f else f + 1

theorem roundEven_intCast (n : ℤ) : roundEven n = n := by
  have h : ((n : ℚ) - n) < 1 / 2 := by norm_num
  unfold roundEven
  dsimp only
  rw [Int.floor_intCast, if_pos h]

/-- The rounded number is the floor or the one after it. -/
theorem roundEven_floor (q : ℚ) : ⌊q⌋ ≤ roundEven q ∧ roundEven q ≤ ⌊q⌋ + 1 := by
  unfold roundEven
  dsimp only
  split
  · omega
  · split
    · omega
    · split <;> omega

/-- Half a unit at most is lost. -/
theorem abs_roundEven_sub (q : ℚ) : |(roundEven q : ℚ) - q| ≤ 1 / 2 := by
  have hlo := Int.floor_le q
  have hhi := Int.lt_floor_add_one q
  unfold roundEven
  dsimp only
  rw [abs_le]
  split
  · rename_i h
    constructor <;> linarith
  · split
    · rename_i h1 h2
      push_cast
      constructor <;> linarith
    · rename_i h1 h2
      have htie : q - ⌊q⌋ = 1 / 2 := le_antisymm (not_lt.mp h2) (not_lt.mp h1)
      split
      · constructor <;> linarith
      · push_cast
        constructor <;> linarith

theorem roundEven_of_lt {q : ℚ} (h : q - ⌊q⌋ < 1 / 2) : roundEven q = ⌊q⌋ := by
  unfold roundEven
  dsimp only
  rw [if_pos h]

theorem roundEven_of_gt {q : ℚ} (h : 1 / 2 < q - ⌊q⌋) : roundEven q = ⌊q⌋ + 1 := by
  unfold roundEven
  dsimp only
  rw [if_neg (not_lt.mpr h.le), if_pos h]

/-- Less than half a unit away there is only one integer. -/
theorem roundEven_eq {q : ℚ} {n : ℤ} (h : |q - n| < 1 / 2) : roundEven q = n := by
  have htri := abs_sub_le (roundEven q : ℚ) q n
  have hclose := abs_roundEven_sub q
  have hlt : |((roundEven q - n : ℤ) : ℚ)| < 1 := by
    push_cast
    linarith
  have hzero : roundEven q - n = 0 := by
    rw [← Int.abs_lt_one_iff]
    exact_mod_cast hlt
  omega

theorem roundEven_mono : Monotone roundEven := by
  intro p q hpq
  by_cases hf : ⌊p⌋ = ⌊q⌋
  · -- in one unit interval only the fraction matters
    by_cases hp : p - ⌊p⌋ < 1 / 2
    · rw [roundEven_of_lt hp, hf]
      exact (roundEven_floor q).1
    · by_cases hq : 1 / 2 < q - ⌊q⌋
      · rw [roundEven_of_gt hq, ← hf]
        exact (roundEven_floor p).2
      · -- both are the same tie
        rw [hf] at hp
        have heq : p = q := by linarith
        rw [heq]
  · have hlt : ⌊p⌋ + 1 ≤ ⌊q⌋ := by
      have := Int.floor_mono hpq
      omega
    calc roundEven p ≤ ⌊p⌋ + 1 := (roundEven_floor p).2
      _ ≤ ⌊q⌋ := hlt
      _ ≤ roundEven q := (roundEven_floor q).1

theorem roundEven_zero : roundEven 0 = 0 := by
  have h := roundEven_intCast 0
  rwa [Int.cast_zero] at h

/-! ## Rounding to a double

A double is a rational number here, and rounding to the nearest one scales by the unit in the
last place, rounds to an integer and scales back. Overflow and infinities are left to the
callers, who compare with the largest double where it matters. -/

/-- The unit in the last place of the double nearest to a number. -/
def ulp (q : ℚ) : ℚ := 2 ^ (Int.log 2 |q| - 52)

/-- The double nearest to a number. -/
def fl (q : ℚ) : ℚ := roundEven (q / ulp q) * ulp q

/-- The spacing of doubles is positive everywhere. -/
theorem ulp_pos (q : ℚ) : 0 < ulp q := by
  unfold ulp
  exact zpow_pos (by norm_num) _

/-- A number that has 53 bits before some power of two. -/
def Representable (q : ℚ) : Prop := ∃ (m k : ℤ), |m| ≤ 2 ^ 53 ∧ q = m * 2 ^ k

theorem fl_zero : fl 0 = 0 := by
  rw [fl, zero_div, roundEven_zero, Int.cast_zero, zero_mul]

/-- Half a unit in the last place at most is lost. -/
theorem abs_fl_sub (q : ℚ) : |fl q - q| ≤ ulp q / 2 := by
  have hu := ulp_pos q
  have hq : q = q / ulp q * ulp q := by field_simp
  have h : fl q - q = (roundEven (q / ulp q) - q / ulp q) * ulp q := by
    rw [sub_mul, ← hq]
    rfl
  rw [h, abs_mul, abs_of_pos hu]
  calc |(roundEven (q / ulp q) : ℚ) - q / ulp q| * ulp q ≤ 1 / 2 * ulp q :=
        mul_le_mul_of_nonneg_right (abs_roundEven_sub _) hu.le
    _ = ulp q / 2 := by ring

/-- The unit in the last place, from the power of two below. -/
theorem ulp_eq {q : ℚ} {k : ℤ} (hlo : 2 ^ k ≤ |q|) (hhi : |q| < 2 ^ (k + 1)) :
    ulp q = 2 ^ (k - 52) := by
  have hpos : 0 < |q| := lt_of_lt_of_le (zpow_pos (by norm_num) k) hlo
  have hle : k ≤ Int.log 2 |q| := (Int.zpow_le_iff_le_log (by norm_num) hpos).mp (by exact_mod_cast hlo)
  have hlt : Int.log 2 |q| < k + 1 := (Int.lt_zpow_iff_log_lt (by norm_num) hpos).mp (by exact_mod_cast hhi)
  have hlog : Int.log 2 |q| = k := by omega
  rw [ulp, hlog]

/-- The power of two below a number that is not zero. -/
theorem log_bounds {q : ℚ} (h : q ≠ 0) :
    (2 : ℚ) ^ Int.log 2 |q| ≤ |q| ∧ |q| < (2 : ℚ) ^ (Int.log 2 |q| + 1) := by
  have hpos : 0 < |q| := abs_pos.mpr h
  constructor
  · exact_mod_cast Int.zpow_log_le_self (b := 2) (by norm_num) hpos
  · exact_mod_cast Int.lt_zpow_succ_log_self (b := 2) (by norm_num) |q|

/-- A whole number of units is left alone. -/
theorem fl_of_units {q : ℚ} {z : ℤ} (h : q = z * ulp q) : fl q = q := by
  have hu := (ulp_pos q).ne'
  have hz : q / ulp q = z := by
    rw [div_eq_iff hu]
    exact h
  rw [fl, hz, roundEven_intCast]
  exact h.symm

/-- So is a number of 53 bits, wherever its point is. -/
theorem fl_of_lt {m k : ℤ} (h : |m| < 2 ^ 53) : fl (m * 2 ^ k) = m * 2 ^ k := by
  by_cases hm : m = 0
  · rw [hm, Int.cast_zero, zero_mul, fl_zero]
  have hk : (0 : ℚ) < 2 ^ k := zpow_pos (by norm_num) k
  have hq : (m : ℚ) * 2 ^ k ≠ 0 := mul_ne_zero (by exact_mod_cast hm) hk.ne'
  have habs : |(m : ℚ) * 2 ^ k| < 2 ^ (53 + k) := by
    rw [abs_mul, abs_of_pos hk, zpow_add₀ (by norm_num)]
    apply mul_lt_mul_of_pos_right _ hk
    exact_mod_cast h
  have hlog : Int.log 2 |(m : ℚ) * 2 ^ k| < 53 + k :=
    (Int.lt_zpow_iff_log_lt (by norm_num) (abs_pos.mpr hq)).mp (by exact_mod_cast habs)
  -- the unit divides the power of two the number is a multiple of
  obtain ⟨d, hd⟩ := Int.eq_ofNat_of_zero_le
    (show 0 ≤ k - (Int.log 2 |(m : ℚ) * 2 ^ k| - 52) by omega)
  apply fl_of_units (z := m * 2 ^ d)
  have hsplit : (2 : ℚ) ^ k = 2 ^ d * ulp ((m : ℚ) * 2 ^ k) := by
    rw [ulp, ← zpow_natCast, ← zpow_add₀ (by norm_num), ← hd]
    congr 1
    omega
  push_cast
  rw [mul_assoc, ← hsplit]

/-- A representable number is left alone. -/
theorem fl_of_representable {q : ℚ} (h : Representable q) : fl q = q := by
  obtain ⟨m, k, hm, rfl⟩ := h
  by_cases hlt : |m| < 2 ^ 53
  · exact fl_of_lt hlt
  · -- the largest mantissa is half of it, one power up
    have heq : |m| = 2 ^ 53 := le_antisymm hm (not_lt.mp hlt)
    have hshift (s : ℤ) : (s * 2 ^ 53 : ℚ) * 2 ^ k = (s * 2 ^ 52 : ℤ) * 2 ^ (k + 1) := by
      rw [zpow_add_one₀ (by norm_num)]
      push_cast
      ring
    rcases abs_eq (by norm_num) |>.mp heq with h | h
    · have h' : (m : ℚ) = (1 : ℤ) * 2 ^ 53 := by rw [h]; norm_num
      rw [h', hshift]
      exact fl_of_lt (by norm_num)
    · have h' : (m : ℚ) = (-1 : ℤ) * 2 ^ 53 := by rw [h]; norm_num
      rw [h', hshift]
      exact fl_of_lt (by norm_num)

theorem fl_intCast {n : ℤ} (h : |n| ≤ 2 ^ 53) : fl n = n :=
  fl_of_representable ⟨n, 0, h, by rw [zpow_zero, mul_one]⟩

theorem fl_nonneg {q : ℚ} (h : 0 ≤ q) : 0 ≤ fl q := by
  have hr : roundEven 0 ≤ roundEven (q / ulp q) := roundEven_mono (div_nonneg h (ulp_pos q).le)
  rw [roundEven_zero] at hr
  exact mul_nonneg (by exact_mod_cast hr) (ulp_pos q).le

theorem fl_nonpos {q : ℚ} (h : q ≤ 0) : fl q ≤ 0 := by
  have hr : roundEven (q / ulp q) ≤ roundEven 0 :=
    roundEven_mono (div_nonpos_of_nonpos_of_nonneg h (ulp_pos q).le)
  rw [roundEven_zero] at hr
  exact mul_nonpos_of_nonpos_of_nonneg (by exact_mod_cast hr) (ulp_pos q).le

/-- Rounding does not leave a closed interval whose ends are whole numbers of units. -/
theorem fl_le_units {q : ℚ} {z : ℤ} (h : q ≤ z * ulp q) : fl q ≤ z * ulp q := by
  have hr : roundEven (q / ulp q) ≤ roundEven z :=
    roundEven_mono ((div_le_iff₀ (ulp_pos q)).mpr h)
  rw [roundEven_intCast] at hr
  exact mul_le_mul_of_nonneg_right (by exact_mod_cast hr) (ulp_pos q).le

/-- A multiple of the spacing is not passed by rounding down. -/
theorem units_le_fl {q : ℚ} {z : ℤ} (h : z * ulp q ≤ q) : z * ulp q ≤ fl q := by
  have hr : roundEven z ≤ roundEven (q / ulp q) :=
    roundEven_mono ((le_div_iff₀ (ulp_pos q)).mpr h)
  rw [roundEven_intCast] at hr
  exact mul_le_mul_of_nonneg_right (by exact_mod_cast hr) (ulp_pos q).le

/-- The powers of two around a number, as multiples of its unit. -/
theorem units_of_power (q : ℚ) :
    (2 ^ 52 : ℤ) * ulp q = 2 ^ Int.log 2 |q| ∧ (2 ^ 53 : ℤ) * ulp q = 2 ^ (Int.log 2 |q| + 1) := by
  have h2 : (2 : ℚ) ≠ 0 := by norm_num
  constructor
  · rw [ulp, zpow_sub₀ h2]
    norm_num
    field_simp
  · rw [ulp, zpow_sub₀ h2, zpow_add_one₀ h2]
    norm_num
    field_simp
    norm_num

/-- With one unit in the last place only the rounding to an integer matters. -/
theorem fl_le_of_log_eq {p q : ℚ} (hpq : p ≤ q) (h : Int.log 2 |p| = Int.log 2 |q|) :
    fl p ≤ fl q := by
  have hu : ulp p = ulp q := by rw [ulp, ulp, h]
  rw [fl, fl, hu]
  apply mul_le_mul_of_nonneg_right _ (ulp_pos q).le
  exact_mod_cast roundEven_mono (div_le_div_of_nonneg_right hpq (ulp_pos q).le)

/-- Rounding keeps the order of positive numbers. -/
theorem fl_le_of_pos {p q : ℚ} (hp : 0 < p) (hpq : p ≤ q) : fl p ≤ fl q := by
  have hq : 0 < q := lt_of_lt_of_le hp hpq
  have hlog : Int.log 2 |p| ≤ Int.log 2 |q| := by
    rw [abs_of_pos hp, abs_of_pos hq]
    exact Int.log_mono_right hp hpq
  rcases hlog.eq_or_lt with heq | hlt
  · exact fl_le_of_log_eq hpq heq
  · -- a power of two stands between them
    have hp' : p ≤ (2 ^ 53 : ℤ) * ulp p := by
      rw [(units_of_power p).2]
      exact (le_abs_self p).trans (log_bounds hp.ne').2.le
    have hq' : (2 ^ 52 : ℤ) * ulp q ≤ q := by
      rw [(units_of_power q).1]
      exact (log_bounds hq.ne').1.trans (abs_of_pos hq).le
    calc fl p ≤ (2 ^ 53 : ℤ) * ulp p := fl_le_units hp'
      _ = 2 ^ (Int.log 2 |p| + 1) := (units_of_power p).2
      _ ≤ 2 ^ Int.log 2 |q| := zpow_le_zpow_right₀ (by norm_num) (by omega)
      _ = (2 ^ 52 : ℤ) * ulp q := (units_of_power q).1.symm
      _ ≤ fl q := units_le_fl hq'

theorem fl_le_of_neg {p q : ℚ} (hq : q < 0) (hpq : p ≤ q) : fl p ≤ fl q := by
  have hp : p < 0 := lt_of_le_of_lt hpq hq
  have hlog : Int.log 2 |q| ≤ Int.log 2 |p| := by
    rw [abs_of_neg hp, abs_of_neg hq]
    exact Int.log_mono_right (by linarith) (by linarith)
  rcases hlog.eq_or_lt with heq | hlt
  · exact fl_le_of_log_eq hpq heq.symm
  · have hp' : p ≤ (-2 ^ 52 : ℤ) * ulp p := by
      have h := (units_of_power p).1
      have hb := (log_bounds hp.ne).1
      rw [abs_of_neg hp] at hb h
      push_cast at h ⊢
      linarith
    have hq' : (-2 ^ 53 : ℤ) * ulp q ≤ q := by
      have h := (units_of_power q).2
      have hb := (log_bounds hq.ne).2
      rw [abs_of_neg hq] at hb h
      push_cast at h ⊢
      linarith
    have hpow : (2 : ℚ) ^ (Int.log 2 |q| + 1) ≤ 2 ^ Int.log 2 |p| :=
      zpow_le_zpow_right₀ (by norm_num) (by omega)
    have hmid : (-2 ^ 52 : ℤ) * ulp p ≤ (-2 ^ 53 : ℤ) * ulp q := by
      rw [← (units_of_power p).1, ← (units_of_power q).2] at hpow
      push_cast at hpow ⊢
      linarith
    calc fl p ≤ (-2 ^ 52 : ℤ) * ulp p := fl_le_units hp'
      _ ≤ (-2 ^ 53 : ℤ) * ulp q := hmid
      _ ≤ fl q := units_le_fl hq'

/-- Rounding keeps the order. -/
theorem fl_mono : Monotone fl := by
  intro p q hpq
  by_cases hp : 0 < p
  · exact fl_le_of_pos hp hpq
  · by_cases hq : q < 0
    · exact fl_le_of_neg hq hpq
    · exact (fl_nonpos (not_lt.mp hp)).trans (fl_nonneg (not_lt.mp hq))

/-- A representable bound from above stays one. -/
theorem fl_le {p q : ℚ} (hq : Representable q) (h : p ≤ q) : fl p ≤ q := by
  have hmono := fl_mono h
  rwa [fl_of_representable hq] at hmono

/-- A representable bound from below stays one. -/
theorem le_fl {p q : ℚ} (hq : Representable q) (h : q ≤ p) : q ≤ fl p := by
  have hmono := fl_mono h
  rwa [fl_of_representable hq] at hmono

theorem representable_intCast {n : ℤ} (h : |n| ≤ 2 ^ 53) : Representable n :=
  ⟨n, 0, h, by rw [zpow_zero, mul_one]⟩

/-- The relative error of one rounding. -/
theorem abs_fl_sub_le (q : ℚ) : |fl q - q| ≤ |q| / 2 ^ 53 := by
  by_cases hq : q = 0
  · rw [hq, fl_zero, sub_self, abs_zero, zero_div]
  · have hlog := (log_bounds hq).1
    have hulp : ulp q ≤ |q| / 2 ^ 52 := by
      rw [ulp, zpow_sub₀ (by norm_num : (2 : ℚ) ≠ 0), div_eq_mul_inv, div_eq_mul_inv]
      exact mul_le_mul_of_nonneg_right hlog (by positivity)
    calc |fl q - q| ≤ ulp q / 2 := abs_fl_sub q
      _ ≤ |q| / 2 ^ 52 / 2 := by linarith
      _ = |q| / 2 ^ 53 := by ring

/-- Only zero rounds to zero. -/
theorem fl_eq_zero_iff {q : ℚ} : fl q = 0 ↔ q = 0 := by
  constructor
  · intro h
    have hrel := abs_fl_sub_le q
    rw [h, zero_sub, abs_neg] at hrel
    have hnonneg := abs_nonneg q
    rw [← abs_eq_zero]
    linarith
  · intro h
    rw [h, fl_zero]

/-- A double has 53 bits. -/
theorem representable_fl (q : ℚ) : Representable (fl q) := by
  by_cases hq : q = 0
  · rw [hq, fl_zero]
    exact ⟨0, 0, by norm_num, by norm_num⟩
  · refine ⟨roundEven (q / ulp q), Int.log 2 |q| - 52, ?_, rfl⟩
    have hlt : |q / ulp q| ≤ 2 ^ 53 := by
      rw [abs_div, abs_of_pos (ulp_pos q), div_le_iff₀ (ulp_pos q)]
      have hpow : (2 : ℚ) ^ 53 * ulp q = 2 ^ (Int.log 2 |q| + 1) := by
        rw [ulp, ← zpow_natCast, ← zpow_add₀ (by norm_num : (2 : ℚ) ≠ 0)]
        congr 1
        push_cast
        ring
      rw [hpow]
      exact (log_bounds hq).2.le
    obtain ⟨hlo, hhi⟩ := abs_le.mp hlt
    have hbound : ((2 ^ 53 : ℤ) : ℚ) = 2 ^ 53 := by norm_num
    have hup := roundEven_mono (hhi.trans_eq hbound.symm)
    have hdown := roundEven_mono ((show ((-(2 ^ 53) : ℤ) : ℚ) = -2 ^ 53 by norm_num).trans_le hlo)
    rw [roundEven_intCast] at hup hdown
    exact abs_le.mpr ⟨hdown, hup⟩

/-! ## Rounding to decimal places

Python's `round(x, d)` gives the double nearest to the decimal nearest to `x`. Two roundings are
made, so the error has two parts, and only the order and the integers are kept exactly. -/

/-- The double nearest to a number rounded to `d` decimal places. -/
def roundTo (d : ℕ) (q : ℚ) : ℚ := fl (roundEven (q * 10 ^ d) / 10 ^ d)

/-- Rounding to a decimal place keeps the order. -/
theorem roundTo_mono (d : ℕ) : Monotone (roundTo d) := by
  intro p q hpq
  have hd : (0 : ℚ) < 10 ^ d := by positivity
  apply fl_mono
  apply div_le_div_of_nonneg_right _ hd.le
  exact_mod_cast roundEven_mono (mul_le_mul_of_nonneg_right hpq hd.le)

/-- An integer is not rounded to decimals. -/
theorem roundTo_intCast (d : ℕ) {n : ℤ} (h : |n| ≤ 2 ^ 53) : roundTo d n = n := by
  have hd : (0 : ℚ) < 10 ^ d := by positivity
  have hint : (n : ℚ) * 10 ^ d = ((n * 10 ^ d : ℤ) : ℚ) := by push_cast; ring
  rw [roundTo, hint, roundEven_intCast]
  push_cast
  rw [mul_div_assoc, div_self hd.ne', mul_one]
  exact fl_intCast h

theorem roundTo_nonneg (d : ℕ) {q : ℚ} (h : 0 ≤ q) : 0 ≤ roundTo d q := by
  have hmono := roundTo_mono d h
  have hzero := roundTo_intCast d (n := 0) (by norm_num)
  rw [Int.cast_zero] at hzero
  rwa [hzero] at hmono

/-- What a rounding to `d` places loses: half of the last place, and what the double
nearest to the decimal loses. -/
theorem abs_roundTo_sub (d : ℕ) (q : ℚ) :
    |roundTo d q - q| ≤ 1 / (2 * 10 ^ d) + (|q| + 1) / 2 ^ 53 := by
  have hd : (1 : ℚ) ≤ 10 ^ d := one_le_pow₀ (by norm_num)
  have hd0 : (0 : ℚ) < 10 ^ d := by linarith
  have hgrid : |(roundEven (q * 10 ^ d) : ℚ) / 10 ^ d - q| ≤ 1 / (2 * 10 ^ d) := by
    have hq : (roundEven (q * 10 ^ d) : ℚ) / 10 ^ d - q
        = (roundEven (q * 10 ^ d) - q * 10 ^ d) / 10 ^ d := by field_simp
    rw [hq, abs_div, abs_of_pos hd0, div_le_iff₀ hd0]
    calc |(roundEven (q * 10 ^ d) : ℚ) - q * 10 ^ d| ≤ 1 / 2 := abs_roundEven_sub _
      _ = 1 / (2 * 10 ^ d) * 10 ^ d := by field_simp
  -- the decimal itself is at most one unit away from the number
  have hsize : |(roundEven (q * 10 ^ d) : ℚ) / 10 ^ d| ≤ |q| + 1 := by
    have hhalf : 1 / (2 * 10 ^ d) ≤ (1 : ℚ) := by
      rw [div_le_one (by positivity)]
      linarith
    have htri := abs_sub_abs_le_abs_sub ((roundEven (q * 10 ^ d) : ℚ) / 10 ^ d) q
    linarith
  have hfl := abs_fl_sub_le ((roundEven (q * 10 ^ d) : ℚ) / 10 ^ d)
  have hfl' : |(roundEven (q * 10 ^ d) : ℚ) / 10 ^ d| / 2 ^ 53 ≤ (|q| + 1) / 2 ^ 53 :=
    div_le_div_of_nonneg_right hsize (by norm_num)
  have htri := abs_sub_le (roundTo d q) ((roundEven (q * 10 ^ d) : ℚ) / 10 ^ d) q
  rw [roundTo] at htri ⊢
  linarith

/-- Adding one and rounding takes nothing away. -/
theorem le_roundTo_add_one (d : ℕ) {x : ℚ} (hx : Representable x) (h0 : 0 ≤ x) :
    x ≤ roundTo d (fl (x + 1)) := by
  by_cases hsmall : x ≤ 2 ^ 53
  · -- an integer lies between the number and the sum
    have hceil : (⌈x⌉ : ℤ) ≤ (2 ^ 53 : ℤ) := Int.ceil_le.mpr (by exact_mod_cast hsmall)
    have habs : |⌈x⌉| ≤ 2 ^ 53 := by
      rw [abs_of_nonneg (Int.ceil_nonneg h0)]
      exact hceil
    have hsum := roundTo_mono d (fl_mono (Int.ceil_lt_add_one x).le)
    rw [fl_intCast habs, roundTo_intCast d habs] at hsum
    exact (Int.le_ceil x).trans hsum
  · -- a double beyond 2^53 is an integer
    obtain ⟨m, k, hm, rfl⟩ := hx
    -- with a negative exponent the number would be below 2^53
    have hk : 0 ≤ k := by
      by_contra hneg
      have hpow : (2 : ℚ) ^ k ≤ 1 := zpow_le_one_of_nonpos₀ (by norm_num) (by omega)
      have hle : (m : ℚ) ≤ 2 ^ 53 := by exact_mod_cast (abs_le.mp hm).2
      have hpos : (0 : ℚ) < 2 ^ k := zpow_pos (by norm_num) k
      have hprod : (m : ℚ) * 2 ^ k ≤ 2 ^ 53 * 1 := by
        calc (m : ℚ) * 2 ^ k ≤ 2 ^ 53 * 2 ^ k := mul_le_mul_of_nonneg_right hle hpos.le
          _ ≤ 2 ^ 53 * 1 := mul_le_mul_of_nonneg_left hpow (by norm_num)
      linarith
    obtain ⟨j, rfl⟩ := Int.eq_ofNat_of_zero_le hk
    have hfl : fl ((m : ℚ) * 2 ^ ((j : ℕ) : ℤ)) = (m : ℚ) * 2 ^ ((j : ℕ) : ℤ) := fl_of_representable ⟨m, j, hm, rfl⟩
    have hint : (m : ℚ) * 2 ^ ((j : ℕ) : ℤ) = ((m * 2 ^ j : ℤ) : ℚ) := by
      rw [zpow_natCast]
      push_cast
      rfl
    -- an integer is on every grid of decimals
    have hround : roundTo d ((m : ℚ) * 2 ^ ((j : ℕ) : ℤ)) = (m : ℚ) * 2 ^ ((j : ℕ) : ℤ) := by
      have hd : (0 : ℚ) < 10 ^ d := by positivity
      have hscale : (m : ℚ) * 2 ^ ((j : ℕ) : ℤ) * 10 ^ d = ((m * 2 ^ j * 10 ^ d : ℤ) : ℚ) := by
        rw [hint]
        push_cast
        rfl
      rw [roundTo, hscale, roundEven_intCast, ← hscale, mul_div_assoc, div_self hd.ne', mul_one, hfl]
    have hmono := roundTo_mono d (fl_mono (show (m : ℚ) * 2 ^ ((j : ℕ) : ℤ) ≤ m * 2 ^ ((j : ℕ) : ℤ) + 1 by linarith))
    rw [hfl, hround] at hmono
    exact hmono

end Binary64

end VlessCard
