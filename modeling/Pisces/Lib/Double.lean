import Mathlib.Algebra.Order.Archimedean.Basic
import Mathlib.Data.Int.Log
import Mathlib.Data.Rat.Floor
import Mathlib.Tactic.FieldSimp
import Mathlib.Tactic.Linarith
import Mathlib.Tactic.NormNum
import Mathlib.Tactic.Positivity

/-!
# Rounding to a double

A double has 53 bits and an exponent. Every rational is rounded to the nearest
one, from the middle to the one with an even last bit; a double itself stays as
it is, and no double is jumped over. The exponent has no bounds here, so nothing
becomes infinite and nothing that is not zero becomes zero.
-/

namespace Pisces.Lib

/-! ## To an integer -/

/-- To the nearest integer, from the middle to the even one. -/
def roundEven (q : ℚ) : ℤ :=
  let r := q - ⌊q⌋
  if r < 1 / 2 then ⌊q⌋
  else if 1 / 2 < r then ⌊q⌋ + 1
  else if ⌊q⌋ % 2 = 0 then ⌊q⌋
  else ⌊q⌋ + 1

variable {q x : ℚ} {k : ℤ}

theorem roundEven_close (x : ℚ) : |(roundEven x : ℚ) - x| ≤ 1 / 2 := by
  have hlow := Int.floor_le x
  have hhigh := Int.lt_floor_add_one x
  unfold roundEven
  simp only
  rw [abs_le]
  split
  · constructor <;> linarith
  · split
    · rw [Int.cast_add, Int.cast_one]
      constructor <;> linarith
    · split
      · constructor <;> linarith
      · rw [Int.cast_add, Int.cast_one]
        constructor <;> linarith

/-- No integer is jumped over. -/
theorem le_roundEven (h : (k : ℚ) ≤ q) : k ≤ roundEven q := by
  have hfloor : k ≤ ⌊q⌋ := Int.le_floor.mpr h
  unfold roundEven
  simp only
  split_ifs <;> omega

theorem roundEven_le (h : q ≤ (k : ℚ)) : roundEven q ≤ k := by
  have hclose := (abs_le.mp (roundEven_close q)).2
  have hless : (roundEven q : ℚ) < (k + 1 : ℤ) := by
    push_cast
    linarith
  exact Int.lt_add_one_iff.mp (by exact_mod_cast hless)

theorem roundEven_intCast (k : ℤ) : roundEven k = k :=
  le_antisymm (roundEven_le le_rfl) (le_roundEven le_rfl)

/-! ## To 53 bits -/

/-- What the last of 53 bits is worth. -/
def ulp (q : ℚ) : ℚ := 2 ^ (Int.log 2 |q| - 52)

def double (q : ℚ) : ℚ := roundEven (q / ulp q) * ulp q

/-- A number of 53 bits, or a power of two. -/
def IsDouble (q : ℚ) : Prop := ∃ m e : ℤ, |m| ≤ 2 ^ 53 ∧ q = m * 2 ^ e

theorem ulp_pos (q : ℚ) : 0 < ulp q := zpow_pos (by norm_num) _

/-- In its own unit a number has 53 bits before the point. -/
theorem ulp_bounds (hq : q ≠ 0) : 2 ^ 52 * ulp q ≤ |q| ∧ |q| < 2 ^ 53 * ulp q := by
  have htwo : (2 : ℚ) ≠ 0 := by norm_num
  have hlow : (2 : ℚ) ^ Int.log 2 |q| ≤ |q| := by
    exact_mod_cast Int.zpow_log_le_self (b := 2) (by decide) (abs_pos.mpr hq)
  have hhigh : |q| < (2 : ℚ) ^ (Int.log 2 |q| + 1) := by
    exact_mod_cast Int.lt_zpow_succ_log_self (b := 2) (by decide) |q|
  have hunit : ∀ n : ℕ, (2 : ℚ) ^ n * ulp q = 2 ^ (Int.log 2 |q| - 52 + n) := by
    intro n
    rw [ulp, ← zpow_natCast, ← zpow_add₀ htwo, add_comm]
  rw [hunit, hunit]
  push_cast
  refine ⟨?_, ?_⟩
  · rwa [sub_add_cancel]
  · rwa [show Int.log 2 |q| - 52 + 53 = Int.log 2 |q| + 1 by ring]

theorem isDouble_intCast (h : |k| ≤ 2 ^ 53) : IsDouble k :=
  ⟨k, 0, h, by rw [zpow_zero, mul_one]⟩

theorem IsDouble.mul_zpow (h : IsDouble q) (n : ℤ) : IsDouble (q * 2 ^ n) := by
  obtain ⟨m, e, hm, rfl⟩ := h
  exact ⟨m, e + n, hm, by rw [zpow_add₀ (by norm_num), mul_assoc]⟩

theorem isDouble_double (q : ℚ) : IsDouble (double q) := by
  refine ⟨roundEven (q / ulp q), Int.log 2 |q| - 52, ?_, rfl⟩
  rcases eq_or_ne q 0 with rfl | hq
  · rw [zero_div, show roundEven 0 = 0 from roundEven_intCast 0]
    decide
  · have hratio : |q / ulp q| ≤ 2 ^ 53 := by
      rw [abs_div, abs_of_pos (ulp_pos q), div_le_iff₀ (ulp_pos q)]
      exact (ulp_bounds hq).2.le
    obtain ⟨hlow, hhigh⟩ := abs_le.mp hratio
    refine abs_le.mpr ⟨le_roundEven ?_, roundEven_le ?_⟩
    · exact_mod_cast hlow
    · exact_mod_cast hhigh

/-- A double is a multiple of the unit of another number, or at most as large as
that number. -/
theorem IsDouble.unit (hx : IsDouble x) (q : ℚ) :
    (∃ k : ℤ, x = k * ulp q) ∨ |x| ≤ 2 ^ 52 * ulp q := by
  obtain ⟨m, e, hm, rfl⟩ := hx
  have htwo : (2 : ℚ) ≠ 0 := by norm_num
  rcases le_or_gt (Int.log 2 |q| - 52) e with he | he
  · obtain ⟨n, hn⟩ := Int.eq_ofNat_of_zero_le (sub_nonneg.mpr he)
    refine .inl ⟨m * 2 ^ n, ?_⟩
    rw [show e = n + (Int.log 2 |q| - 52) by omega, zpow_add₀ htwo, zpow_natCast, ulp]
    push_cast
    ring
  · right
    have hpow : (2 : ℚ) ^ e ≤ ulp q / 2 := by
      rw [ulp, div_eq_mul_inv, ← zpow_sub_one₀ htwo]
      exact zpow_le_zpow_right₀ (by norm_num) (by omega)
    have hm' : |(m : ℚ)| ≤ 2 ^ 53 := by exact_mod_cast hm
    have hpos : (0 : ℚ) < 2 ^ e := zpow_pos (by norm_num) e
    rw [abs_mul, abs_of_pos hpos]
    calc |(m : ℚ)| * 2 ^ e ≤ 2 ^ 53 * (ulp q / 2) :=
          mul_le_mul hm' hpow hpos.le (by norm_num)
      _ = 2 ^ 52 * ulp q := by ring

/-- Between a double and a larger number is a multiple of the unit of the latter. -/
theorem IsDouble.below (hx : IsDouble x) (h : x ≤ q) :
    ∃ k : ℤ, x ≤ k * ulp q ∧ k * ulp q ≤ q := by
  rcases hx.unit q with ⟨k, rfl⟩ | hsmall
  · exact ⟨k, le_rfl, h⟩
  · obtain ⟨hlow, hhigh⟩ := abs_le.mp hsmall
    rcases lt_trichotomy q 0 with hneg | rfl | hq
    · -- both are the same power of two
      have hself := (ulp_bounds hneg.ne).1
      rw [abs_of_neg hneg] at hself
      refine ⟨-2 ^ 52, ?_, ?_⟩ <;>
        · push_cast
          linarith
    · exact ⟨0, by rwa [Int.cast_zero, zero_mul], by rw [Int.cast_zero, zero_mul]⟩
    · have hself := (ulp_bounds hq.ne').1
      rw [abs_of_pos hq] at hself
      exact ⟨2 ^ 52, by exact_mod_cast hhigh, by exact_mod_cast hself⟩

theorem IsDouble.neg (hx : IsDouble x) : IsDouble (-x) := by
  obtain ⟨m, e, hm, rfl⟩ := hx
  exact ⟨-m, e, by rwa [abs_neg], by rw [Int.cast_neg, neg_mul]⟩

theorem IsDouble.above (hx : IsDouble x) (h : q ≤ x) :
    ∃ k : ℤ, q ≤ k * ulp q ∧ k * ulp q ≤ x := by
  obtain ⟨k, hlow, hhigh⟩ := hx.neg.below (neg_le_neg h)
  have hunit : ulp (-q) = ulp q := by rw [ulp, ulp, abs_neg]
  rw [hunit] at hlow hhigh
  refine ⟨-k, ?_, ?_⟩ <;>
    · rw [Int.cast_neg]
      linarith

/-- No double is jumped over. -/
theorem le_double (hx : IsDouble x) (h : x ≤ q) : x ≤ double q := by
  obtain ⟨k, hlow, hhigh⟩ := hx.below h
  refine hlow.trans (mul_le_mul_of_nonneg_right ?_ (ulp_pos q).le)
  exact_mod_cast le_roundEven ((le_div_iff₀ (ulp_pos q)).mpr hhigh)

theorem double_le (hx : IsDouble x) (h : q ≤ x) : double q ≤ x := by
  obtain ⟨k, hlow, hhigh⟩ := hx.above h
  refine le_trans (mul_le_mul_of_nonneg_right ?_ (ulp_pos q).le) hhigh
  exact_mod_cast roundEven_le ((div_le_iff₀ (ulp_pos q)).mpr hlow)

theorem double_eq (h : IsDouble q) : double q = q :=
  le_antisymm (double_le h le_rfl) (le_double h le_rfl)

theorem double_intCast (h : |k| ≤ 2 ^ 53) : double k = k := double_eq (isDouble_intCast h)

/-- A whole number stays whole. -/
theorem exists_intCast_double (k : ℤ) : ∃ z : ℤ, double k = z := by
  rcases le_or_gt |k| (2 ^ 53) with hk | hk
  · exact ⟨k, double_intCast hk⟩
  · -- the unit is a whole number too
    have hlog : 52 ≤ Int.log 2 |(k : ℚ)| := by
      refine (Int.zpow_le_iff_le_log (by decide) (abs_pos.mpr ?_)).mp ?_
      · exact Int.cast_ne_zero.mpr (abs_pos.mp (by omega))
      · have hlarge : (2 ^ 52 : ℤ) ≤ |k| := by omega
        exact_mod_cast hlarge
    obtain ⟨j, hj⟩ := Int.eq_ofNat_of_zero_le (sub_nonneg.mpr hlog)
    refine ⟨roundEven (k / ulp k) * 2 ^ j, ?_⟩
    rw [double, Int.cast_mul, ulp, hj]
    push_cast
    rfl

/-- The error is one part in 2 ^ 53 at most. -/
theorem double_close (q : ℚ) : |double q - q| ≤ |q| / 2 ^ 53 := by
  have hpos := ulp_pos q
  rcases eq_or_ne q 0 with rfl | hq
  · have hzero := double_intCast (k := 0) (by decide)
    rw [Int.cast_zero] at hzero
    rw [hzero, sub_zero, abs_zero, zero_div]
  · have hdiff : double q - q = (roundEven (q / ulp q) - q / ulp q) * ulp q := by
      rw [double, sub_mul, div_mul_cancel₀ _ hpos.ne']
    rw [hdiff, abs_mul, abs_of_pos hpos]
    calc |(roundEven (q / ulp q) : ℚ) - q / ulp q| * ulp q ≤ 1 / 2 * ulp q :=
          mul_le_mul_of_nonneg_right (roundEven_close _) hpos.le
      _ ≤ |q| / 2 ^ 53 := by
          have hself := (ulp_bounds hq).1
          linarith

end Pisces.Lib
