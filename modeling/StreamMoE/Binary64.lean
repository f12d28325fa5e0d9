import Mathlib.Algebra.BigOperators.Field
import Mathlib.Algebra.Order.BigOperators.Group.Finset
import Mathlib.Algebra.Order.Floor.Ring
import Mathlib.Data.Int.Log
import Mathlib.Data.Rat.Floor
import Mathlib.Tactic.Linarith
import Mathlib.Tactic.FieldSimp

/-! Rounding of positive rational numbers to 53 significant bits, to nearest and ties to even: the
arithmetic of binary64 as long as no result is subnormal or overflows. -/
namespace StreamMoE
namespace Binary64

/-- The nearest integer, of two the even one. -/
def roundEven (x : ℚ) : ℤ :=
  if x - ⌊x⌋ < 1 / 2 then ⌊x⌋
  else if 1 / 2 < x - ⌊x⌋ then ⌊x⌋ + 1
  else if 2 ∣ ⌊x⌋ then ⌊x⌋ else ⌊x⌋ + 1

theorem abs_roundEven_sub_le (x : ℚ) : |(roundEven x : ℚ) - x| ≤ 1 / 2 := by
  have hfloor := Int.floor_le x
  have hlt := Int.lt_floor_add_one x
  rw [abs_le, roundEven]
  split_ifs <;> push_cast <;> constructor <;> linarith

/-- The distance of neighbours at `q`. -/
def ulp (q : ℚ) : ℚ := 2 ^ (Int.log 2 q - 52)

def round64 (q : ℚ) : ℚ := if q = 0 then 0 else roundEven (q / ulp q) * ulp q

@[simp] theorem round64_zero : round64 0 = 0 := if_pos rfl

theorem ulp_pos (q : ℚ) : 0 < ulp q := zpow_pos two_pos _

theorem ulp_le {q : ℚ} (hq : 0 < q) : ulp q ≤ q / 2 ^ 52 := by
  have hlog : (2 : ℚ) ^ Int.log 2 q ≤ q := Int.zpow_log_le_self (by decide) hq
  rw [ulp, zpow_sub₀ two_ne_zero]
  exact div_le_div_of_nonneg_right hlog (by positivity)

/-- Half a unit in the last place, relative to the number. -/
def eps : ℚ := 1 / 2 ^ 53

theorem abs_round64_sub_le {q : ℚ} (hq : 0 ≤ q) : |round64 q - q| ≤ q * eps := by
  rcases hq.eq_or_lt with rfl | hq
  · simp
  · have hpos := ulp_pos q
    have hround := abs_roundEven_sub_le (q / ulp q)
    have hdiv : q / ulp q * ulp q = q := div_mul_cancel₀ q hpos.ne'
    calc |round64 q - q| = |(roundEven (q / ulp q) - q / ulp q) * ulp q| := by
          rw [round64, if_neg hq.ne', sub_mul, hdiv]
      _ = |roundEven (q / ulp q) - q / ulp q| * ulp q := by rw [abs_mul, abs_of_pos hpos]
      _ ≤ 1 / 2 * ulp q := mul_le_mul_of_nonneg_right hround hpos.le
      _ ≤ 1 / 2 * (q / 2 ^ 52) := mul_le_mul_of_nonneg_left (ulp_le hq) (by norm_num)
      _ = q * eps := by rw [eps]; ring

theorem round64_le {q : ℚ} (hq : 0 ≤ q) : round64 q ≤ q * (1 + eps) := by
  have h := (abs_le.mp (abs_round64_sub_le hq)).2
  linarith

theorem le_round64 {q : ℚ} (hq : 0 ≤ q) : q * (1 - eps) ≤ round64 q := by
  have h := (abs_le.mp (abs_round64_sub_le hq)).1
  linarith

theorem eps_lt_one : eps < 1 := by norm_num [eps]

theorem round64_nonneg {q : ℚ} (hq : 0 ≤ q) : 0 ≤ round64 q :=
  le_trans (mul_nonneg hq (by linarith [eps_lt_one])) (le_round64 hq)

/-- A proportional part `b * r / t` taken in this arithmetic, every number rounded when it is converted and
after each operation. -/
def proportion (b r t : ℕ) : ℚ :=
  round64 (round64 (round64 b * round64 r) / round64 t)

theorem proportion_nonneg (b r t : ℕ) : 0 ≤ proportion b r t := by
  have hb := round64_nonneg (Nat.cast_nonneg (α := ℚ) b)
  have hr := round64_nonneg (Nat.cast_nonneg (α := ℚ) r)
  have ht := round64_nonneg (Nat.cast_nonneg (α := ℚ) t)
  exact round64_nonneg (div_nonneg (round64_nonneg (mul_nonneg hb hr)) ht)

/-- Four roundings up and one down. -/
theorem proportion_le {b r t : ℕ} (ht : 0 < t) :
    proportion b r t ≤ (b : ℚ) * r / t * ((1 + eps) ^ 4 / (1 - eps)) := by
  have hone : 0 < 1 - eps := by linarith [eps_lt_one]
  have heps : 0 ≤ 1 + eps := by norm_num [eps]
  have htq : (0 : ℚ) < t := Nat.cast_pos.mpr ht
  have hb := round64_nonneg (Nat.cast_nonneg (α := ℚ) b)
  have hr := round64_nonneg (Nat.cast_nonneg (α := ℚ) r)
  have hden : 0 < t * (1 - eps) := mul_pos htq hone
  have hprod : round64 b * round64 r ≤ b * (1 + eps) * (r * (1 + eps)) :=
    mul_le_mul (round64_le (Nat.cast_nonneg b)) (round64_le (Nat.cast_nonneg r)) hr
      (mul_nonneg (Nat.cast_nonneg b) heps)
  have hround : round64 (round64 b * round64 r) ≤ b * r * (1 + eps) ^ 3 := by
    calc round64 (round64 b * round64 r) ≤ round64 b * round64 r * (1 + eps) :=
          round64_le (mul_nonneg hb hr)
      _ ≤ b * (1 + eps) * (r * (1 + eps)) * (1 + eps) := mul_le_mul_of_nonneg_right hprod heps
      _ = b * r * (1 + eps) ^ 3 := by ring
  have hquot : round64 (round64 b * round64 r) / round64 t ≤ b * r * (1 + eps) ^ 3 / (t * (1 - eps)) :=
    div_le_div₀ (by positivity) hround hden (le_round64 htq.le)
  have hquot₀ : 0 ≤ round64 (round64 b * round64 r) / round64 t :=
    div_nonneg (round64_nonneg (mul_nonneg hb hr)) (round64_nonneg htq.le)
  calc proportion b r t ≤ round64 (round64 b * round64 r) / round64 t * (1 + eps) := round64_le hquot₀
    _ ≤ b * r * (1 + eps) ^ 3 / (t * (1 - eps)) * (1 + eps) := mul_le_mul_of_nonneg_right hquot heps
    _ = b * r / t * ((1 + eps) ^ 4 / (1 - eps)) := by
        field_simp

/-- The whole parts of all proportions do not add up to more than the number that was divided. -/
theorem sum_floor_proportion_le {ι : Type*} (s : Finset ι) (r : ι → ℕ) {b : ℕ} (hb : b ≤ 2 ^ 50) :
    ∑ i ∈ s, ⌊proportion b (r i) (∑ j ∈ s, r j)⌋₊ ≤ b := by
  rcases Nat.eq_zero_or_pos (∑ j ∈ s, r j) with hzero | ht
  · have hnone : ∀ i ∈ s, ⌊proportion b (r i) (∑ j ∈ s, r j)⌋₊ = 0 := by
      intro i hi
      rw [Finset.sum_eq_zero_iff.mp hzero i hi, hzero]
      simp [proportion]
    rw [Finset.sum_eq_zero hnone]
    exact Nat.zero_le _
  · have htq : ((∑ j ∈ s, r j : ℕ) : ℚ) ≠ 0 := Nat.cast_ne_zero.mpr ht.ne'
    have hbq : (b : ℚ) ≤ 2 ^ 50 := by exact_mod_cast hb
    have hfactor : (1 + eps) ^ 4 / (1 - eps) ≤ 1 + 6 * eps := by norm_num [eps]
    have hsum : ((∑ i ∈ s, ⌊proportion b (r i) (∑ j ∈ s, r j)⌋₊ : ℕ) : ℚ) ≤ b * (1 + 6 * eps) := by
      calc ((∑ i ∈ s, ⌊proportion b (r i) (∑ j ∈ s, r j)⌋₊ : ℕ) : ℚ)
          = ∑ i ∈ s, (⌊proportion b (r i) (∑ j ∈ s, r j)⌋₊ : ℚ) := Nat.cast_sum s _
        _ ≤ ∑ i ∈ s, proportion b (r i) (∑ j ∈ s, r j) :=
            Finset.sum_le_sum fun i _ => Nat.floor_le (proportion_nonneg _ _ _)
        _ ≤ ∑ i ∈ s, (b : ℚ) * r i / (∑ j ∈ s, r j : ℕ) * ((1 + eps) ^ 4 / (1 - eps)) :=
            Finset.sum_le_sum fun i _ => proportion_le ht
        _ = b * ((1 + eps) ^ 4 / (1 - eps)) := by
            rw [← Finset.sum_mul, ← Finset.sum_div, ← Finset.mul_sum, ← Nat.cast_sum,
              mul_div_cancel_right₀ _ htq]
        _ ≤ b * (1 + 6 * eps) := mul_le_mul_of_nonneg_left hfactor (Nat.cast_nonneg b)
    have hslack : (b : ℚ) * (1 + 6 * eps) < b + 1 := by
      rw [eps]
      linarith
    have hlt : ((∑ i ∈ s, ⌊proportion b (r i) (∑ j ∈ s, r j)⌋₊ : ℕ) : ℚ) < ((b + 1 : ℕ) : ℚ) := by
      rw [Nat.cast_add, Nat.cast_one]
      exact lt_of_le_of_lt hsum hslack
    exact Nat.lt_succ_iff.mp (Nat.cast_lt.mp hlt)

end Binary64
end StreamMoE
