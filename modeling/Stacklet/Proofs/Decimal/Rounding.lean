import Mathlib.Algebra.Order.Field.Power
import Mathlib.Tactic.FieldSimp
import Mathlib.Tactic.Linarith
import Mathlib.Tactic.Ring
import Mathlib.Data.Rat.Cast.Order
import Mathlib.Algebra.Group.Int.Even
import Mathlib.Algebra.Order.Field.Basic
import Mathlib.Data.Nat.Log
import Stacklet.Number.General
/-!
# Rounding to significant digits

* `Number.NearestEven`: the multiple of a unit that is nearest to a number; of two that are equally
  near, the even one.
* `Number.RoundsTo`: a number rounded to significant digits.
* `Number.Ratio.pow_decimalExponent_le`, `Number.Ratio.lt_pow_decimalExponent`: the place of the
  first digit of a quotient.
* **`Number.Rounded.ofRatio_spec`**: a quotient is rounded to significant digits, also if the digits
  carry into a new one.
* `Number.Rounded.roundHalfEven_scale`: rounding the quotient again, to the place of the last digit,
  gives these digits.
-/

namespace Stacklet.Number

/-! ## Numbers rounded to multiples of a unit -/

/-- `r` is the multiple of `unit` nearest to `v`. Half way between two of them, it is an even
multiple. -/
def NearestEven (unit v r : ℚ) : Prop :=
  ∃ n : ℤ, r = n * unit ∧ |v - r| ≤ unit / 2 ∧ (|v - r| = unit / 2 → Even n)

/-- `r` is `v` rounded to `p` significant digits. The unit is that of the last of `p` digits of
`v`. -/
def RoundsTo (p : ℕ) (v r : ℚ) : Prop :=
  ∃ e : ℤ, (10 : ℚ) ^ e ≤ |v| ∧ |v| < (10 : ℚ) ^ (e + 1) ∧ NearestEven (10 ^ (e + 1 - p)) v r

theorem NearestEven.neg {unit v r : ℚ} : NearestEven unit v r → NearestEven unit (-v) (-r) := by
  rintro ⟨n, rfl, hnear, hhalf⟩
  have hdist : |-v - -(n * unit)| = |v - n * unit| := by
    rw [← abs_neg]
    ring_nf
  exact ⟨-n, by push_cast; ring, hdist ▸ hnear, fun h => (hhalf (hdist ▸ h)).neg⟩

theorem NearestEven.mul_sign {unit v r : ℚ} (negative : Bool) (h : NearestEven unit v r) :
    NearestEven unit ((if negative then -1 else 1) * v) ((if negative then -1 else 1) * r) := by
  cases negative
  · simpa using h
  · simpa using h.neg

theorem NearestEven.mul {v r u : ℚ} (hu : 0 < u) :
    NearestEven 1 v r → NearestEven u (v * u) (r * u) := by
  rintro ⟨n, rfl, hnear, hhalf⟩
  have hdist : |v * u - n * 1 * u| = |v - n * 1| * u := by rw [← sub_mul, abs_mul, abs_of_pos hu]
  have hunit : u / 2 = 1 / 2 * u := by ring
  rw [NearestEven, hdist, hunit]
  exact ⟨n, by ring, mul_le_mul_of_nonneg_right hnear hu.le,
    fun h => hhalf (mul_right_cancel₀ hu.ne' h)⟩

/-- If two multiples were nearest, then they would be neighbours, and one of them odd. -/
theorem NearestEven.unique {u v r q : ℚ} (hu : 0 < u) :
    NearestEven u v r → NearestEven u v q → r = q := by
  rintro ⟨n, rfl, hn, hn'⟩ ⟨k, rfl, hk, hk'⟩
  wlog hlt : n < k generalizing n k
  · rcases (not_lt.mp hlt).eq_or_lt with rfl | hlt
    · rfl
    · exact (this k hk hk' n hn hn' hlt).symm
  have hmul := mul_le_mul_of_nonneg_right (by exact_mod_cast hlt : (n : ℚ) + 1 ≤ k) hu.le
  rw [abs_le] at hn hk
  have hnext : k = n + 1 := by
    have : (k : ℚ) * u = (n + 1) * u := by linarith
    exact_mod_cast mul_right_cancel₀ hu.ne' this
  have heven := hn' (by rw [abs_of_pos] <;> linarith)
  have hodd := hk' (by rw [abs_of_neg] <;> linarith)
  rw [hnext, Int.even_add_one] at hodd
  exact absurd heven hodd

theorem RoundsTo.unique {p : ℕ} {v r q : ℚ} : RoundsTo p v r → RoundsTo p v q → r = q := by
  rintro ⟨e, hlow, hhigh, hr⟩ ⟨d, hlow', hhigh', hq⟩
  have hle {a b : ℤ} (ha : (10 : ℚ) ^ a ≤ |v|) (hb : |v| < (10 : ℚ) ^ (b + 1)) : a ≤ b :=
    Int.lt_add_one_iff.mp ((zpow_lt_zpow_iff_right₀ (by norm_num)).mp (ha.trans_lt hb))
  obtain rfl := Int.le_antisymm (hle hlow hhigh') (hle hlow' hhigh)
  exact hr.unique (by positivity) hq

theorem NearestEven.le_of_le {v : ℚ} {q a b : ℕ} (h : NearestEven 1 v q) (ha : (a : ℚ) ≤ v)
    (hb : v ≤ b) : a ≤ q ∧ q ≤ b := by
  obtain ⟨n, -, hnear, -⟩ := h
  rw [abs_le] at hnear
  have hlow : (a : ℚ) < (q + 1 : ℕ) := by push_cast; linarith
  have hhigh : (q : ℚ) < (b + 1 : ℕ) := by push_cast; linarith
  exact ⟨Nat.lt_succ_iff.mp (by exact_mod_cast hlow), Nat.lt_succ_iff.mp (by exact_mod_cast hhigh)⟩

/-- The quotient and its rounded value differ by at most half a unit, everything multiplied by twice
the denominator. -/
theorem roundHalfEven_bounds (num : ℕ) {den n : ℕ} (h : 0 < den) (hn : roundHalfEven num den = n) :
    2 * (n * den) ≤ 2 * num + den ∧ 2 * num ≤ 2 * (n * den) + den ∧
      (2 * (n * den) = 2 * num + den ∨ 2 * num = 2 * (n * den) + den → Even n) := by
  have hnum := Nat.div_add_mod num den
  have hmod := Nat.mod_lt num h
  rw [Nat.mul_comm] at hnum
  rw [roundHalfEven] at hn
  split at hn
  · subst hn
    omega
  · split at hn
    · subst hn
      rw [Nat.add_mul]
      omega
    · subst hn
      rcases Nat.mod_two_eq_zero_or_one (num / den) with hq | hq <;>
        rw [hq, Nat.add_mul, Nat.even_iff] <;> omega

theorem nearestEven_roundHalfEven (num : ℕ) {den : ℕ} (h : 0 < den) :
    NearestEven 1 ((num : ℚ) / den) (roundHalfEven num den) := by
  obtain ⟨n, hn⟩ : ∃ n, roundHalfEven num den = n := ⟨_, rfl⟩
  obtain ⟨hlow, hhigh, heven⟩ := roundHalfEven_bounds num h hn
  have hden : (0 : ℚ) < den := by exact_mod_cast h
  have hdist : |(num : ℚ) / den - n| = |(num : ℚ) - n * den| / den := by
    rw [div_sub' hden.ne', abs_div, abs_of_pos hden, mul_comm]
  rw [hn, NearestEven, hdist, div_le_iff₀ hden, div_eq_iff hden.ne']
  refine ⟨n, by simp, ?_, fun h => ?_⟩
  · have hlow : (2 * (n * den) : ℚ) ≤ 2 * num + den := by exact_mod_cast hlow
    have hhigh : (2 * num : ℚ) ≤ 2 * (n * den) + den := by exact_mod_cast hhigh
    rw [abs_le]
    constructor <;> linarith
  · rw [Int.even_coe_nat]
    apply heven
    rcases (abs_eq (by positivity)).mp h with h | h
    · exact .inr (by exact_mod_cast (by linarith : (2 * num : ℚ) = 2 * (n * den) + den))
    · exact .inl (by exact_mod_cast (by linarith : (2 * (n * den) : ℚ) = 2 * num + den))

/-! ## The first digit of a quotient -/

theorem digitCount_eq_log (n : ℕ) : digitCount n = Nat.log 10 n + 1 := by
  fun_induction digitCount n with
  | case1 n hn => rw [Nat.log_of_lt hn]
  | case2 n hn ih => rw [Nat.log_of_one_lt_of_le (by decide) (Nat.le_of_not_lt hn), ih]

namespace Ratio

/-- The number that a quotient stands for. -/
def value (r : Ratio) : ℚ := r.num / r.den

theorem value_scale (r : Ratio) (k : ℤ) : (r.scale k).value = r.value * 10 ^ k := by
  cases k with
  | ofNat k =>
    rw [scale, value, value, Int.ofNat_eq_natCast, zpow_natCast, div_mul_eq_mul_div, Nat.pow_eq]
    push_cast
    rfl
  | negSucc k =>
    rw [scale, value, value, zpow_negSucc, ← div_eq_mul_inv, div_div, Nat.pow_eq]
    push_cast
    rfl

theorem den_scale_pos {r : Ratio} (h : 0 < r.den) (k : ℤ) : 0 < (r.scale k).den := by
  cases k with
  | ofNat k => exact h
  | negSucc k => exact Nat.mul_pos h (Nat.pow_pos (by decide))

theorem nearestEven_scale {r : Ratio} (hden : 0 < r.den) (k : ℤ) : NearestEven (10 ^ (-k)) r.value
    (roundHalfEven (r.scale k).num (r.scale k).den * 10 ^ (-k)) := by
  have hround := (nearestEven_roundHalfEven (r.scale k).num (den_scale_pos hden k)).mul
    (by positivity : (0 : ℚ) < 10 ^ (-k))
  have hvalue : ((r.scale k).num : ℚ) / (r.scale k).den = r.value * 10 ^ k := value_scale r k
  rwa [hvalue, mul_assoc, ← zpow_add₀ (by norm_num), add_neg_cancel, zpow_zero, mul_one] at hround

section DecimalExponent

variable {r : Ratio} (hnum : 0 < r.num) (hden : 0 < r.den)

include hnum hden

theorem pow_decimalExponent_le : (10 : ℚ) ^ r.decimalExponent ≤ r.value := by
  have hden' : (0 : ℚ) < r.den := by exact_mod_cast hden
  rw [value, le_div_iff₀ hden', decimalExponent]
  split
  · next h =>
    rw [digitCount_eq_log, Nat.cast_add_one, add_sub_cancel_right, zpow_natCast]
    exact_mod_cast (Nat.le_div_iff_mul_le hden).mp (Nat.pow_log_le_self 10 (Nat.div_pos h hden).ne')
  · next h =>
    have hlt := (Nat.div_lt_iff_lt_mul hnum).mp
      (Nat.lt_pow_succ_log_self (by decide : 1 < 10) ((r.den - 1) / r.num))
    rw [Nat.succ_eq_add_one] at hlt
    rw [digitCount_eq_log, zpow_neg, zpow_natCast, ← div_eq_inv_mul, div_le_iff₀ (by positivity)]
    exact_mod_cast (by rw [Nat.mul_comm]; omega)

theorem lt_pow_decimalExponent : r.value < (10 : ℚ) ^ (r.decimalExponent + 1) := by
  have hden' : (0 : ℚ) < r.den := by exact_mod_cast hden
  rw [value, div_lt_iff₀ hden', decimalExponent]
  split
  · next h =>
    rw [digitCount_eq_log, sub_add_cancel, zpow_natCast]
    exact_mod_cast (Nat.div_lt_iff_lt_mul hden).mp
      (Nat.lt_pow_succ_log_self (by decide : 1 < 10) (r.num / r.den))
  · next h =>
    have hpos : 0 < (r.den - 1) / r.num := Nat.div_pos (by omega) hnum
    have hle := (Nat.le_div_iff_mul_le hnum).mp (Nat.pow_log_le_self 10 hpos.ne')
    rw [digitCount_eq_log, Nat.cast_add_one, neg_add_rev, neg_add_cancel_comm, zpow_neg,
      zpow_natCast, ← div_eq_inv_mul, lt_div_iff₀ (by positivity)]
    exact_mod_cast (by rw [Nat.mul_comm]; omega)

theorem scale_bounds (k : ℕ) : ((10 ^ k : ℕ) : ℚ) ≤ (r.scale (k - r.decimalExponent)).value ∧
    (r.scale (k - r.decimalExponent)).value ≤ (10 ^ (k + 1) : ℕ) := by
  have hpos : (0 : ℚ) < 10 ^ (k - r.decimalExponent) := by positivity
  have hpow (a : ℤ) (b : ℕ) (h : a + (k - r.decimalExponent) = b) :
      ((10 ^ b : ℕ) : ℚ) = 10 ^ a * 10 ^ (k - r.decimalExponent) := by
    rw [← zpow_add₀ (by norm_num), h, zpow_natCast]
    push_cast
    rfl
  rw [value_scale, hpow r.decimalExponent k (by omega), hpow (r.decimalExponent + 1) (k + 1)
    (by push_cast; omega)]
  exact ⟨mul_le_mul_of_nonneg_right (pow_decimalExponent_le hnum hden) hpos.le,
    mul_le_mul_of_nonneg_right (lt_pow_decimalExponent hnum hden).le hpos.le⟩

end DecimalExponent

end Ratio

namespace Rounded

/-- The number that `n` stands for if it has `p` digits. -/
def value (p : ℕ) (n : Rounded) : ℚ := n.digits * (10 : ℚ) ^ (n.exponent + 1 - p)

/-- The first of `p` digits is at the exponent. -/
theorem value_bounds {p : ℕ} (hp : 0 < p) {n : Rounded} (hlow : 10 ^ (p - 1) ≤ n.digits)
    (hhigh : n.digits < 10 ^ p) :
    (10 : ℚ) ^ n.exponent ≤ n.value p ∧ n.value p < (10 : ℚ) ^ (n.exponent + 1) := by
  have hpos : (0 : ℚ) < 10 ^ (n.exponent + 1 - p) := by positivity
  have hpow (a : ℤ) (b : ℕ) (h : b + (n.exponent + 1 - p) = a) :
      (10 : ℚ) ^ a = (10 ^ b : ℕ) * 10 ^ (n.exponent + 1 - p) := by
    rw [← h, zpow_add₀ (by norm_num), zpow_natCast]
    push_cast
    rfl
  rw [value, hpow n.exponent (p - 1) (by omega), hpow (n.exponent + 1) p (by omega)]
  exact ⟨mul_le_mul_of_nonneg_right (by exact_mod_cast hlow) hpos.le, mul_lt_mul_of_pos_right
    (by exact_mod_cast hhigh) hpos⟩

/-- **A quotient rounded to significant digits.** If the digits carry, the unit grows by a factor of
ten. Rounding to this unit gives the same number, to which the quotient is even nearer then. -/
theorem ofRatio_spec {p : ℕ} (hp : 0 < p) {r : Ratio} (hnum : 0 < r.num) (hden : 0 < r.den)
    {n : Rounded} (hn : ofRatio p r = n) :
    10 ^ (p - 1) ≤ n.digits ∧ n.digits < 10 ^ p ∧
      NearestEven (10 ^ (r.decimalExponent + 1 - p)) r.value (n.value p) ∧
      NearestEven (10 ^ (n.exponent + 1 - p)) r.value (n.value p) := by
  obtain ⟨k, rfl⟩ : ∃ k, p = k + 1 := ⟨p - 1, by omega⟩
  simp only [ofRatio, value, Nat.pow_eq, Nat.add_sub_cancel, Nat.cast_add_one, add_sub_cancel_right,
    add_sub_add_right_eq_sub] at hn ⊢
  have hbounds := Ratio.scale_bounds hnum hden k
  have hround := Ratio.nearestEven_scale hden (k - r.decimalExponent)
  have hscaled := Ratio.den_scale_pos hden (k - r.decimalExponent)
  rw [neg_sub] at hround
  generalize r.decimalExponent = e at *
  generalize r.scale (k - e) = s at *
  obtain ⟨q, hq⟩ : ∃ q, roundHalfEven s.num s.den = q := ⟨_, rfl⟩
  have hnear : NearestEven 1 s.value q := hq ▸ nearestEven_roundHalfEven s.num hscaled
  obtain ⟨hlow, hhigh⟩ := hnear.le_of_le hbounds.1 hbounds.2
  have hupos : (0 : ℚ) < 10 ^ (e - k) := by positivity
  rw [hq] at hround
  rw [hq] at hn
  split at hn
  · next hcarry =>
    subst hn
    have hunit : (10 : ℚ) ^ (e + 1 - k) = 10 * 10 ^ (e - k) := by
      rw [← zpow_one_add₀ (by norm_num)]
      congr 1
      omega
    have hsame : ((10 ^ k : ℕ) : ℚ) * (10 * 10 ^ (e - k)) = q * 10 ^ (e - k) := by
      rw [hcarry]
      push_cast
      ring
    have ⟨_, _, hdist, _⟩ := hround
    rw [hunit, hsame]
    refine ⟨le_rfl, Nat.pow_lt_pow_succ (by decide), hround, (10 ^ k : ℕ), ?_, by linarith,
      fun h => by linarith⟩
    exact_mod_cast hsame.symm
  · next hcarry =>
    subst hn
    exact ⟨hlow, lt_of_le_of_ne hhigh hcarry, hround, hround⟩

/-- **Rounding again.** To the place of the last digit, the quotient is rounded to the same
digits. -/
theorem roundHalfEven_scale {p : ℕ} (hp : 0 < p) {r : Ratio} (hnum : 0 < r.num) (hden : 0 < r.den)
    {n : Rounded} (hn : ofRatio p r = n) {k : ℤ} (hk : k = p - 1 - n.exponent) :
    roundHalfEven (r.scale k).num (r.scale k).den = n.digits := by
  obtain ⟨-, -, -, hlast⟩ := ofRatio_spec hp hnum hden hn
  have hround := Ratio.nearestEven_scale hden k
  have hunit : n.exponent + 1 - p = -k := by omega
  rw [value, hunit] at hlast
  have hpos : (0 : ℚ) < 10 ^ (-k) := by positivity
  exact_mod_cast mul_right_cancel₀ hpos.ne' (hround.unique hpos hlast)

theorem exponent_ofRatio (p : ℕ) (r : Ratio) :
    (ofRatio p r).exponent = r.decimalExponent ∨
      (ofRatio p r).exponent = r.decimalExponent + 1 := by
  simp only [ofRatio]
  split
  · exact .inr rfl
  · exact .inl rfl

end Rounded

end Stacklet.Number
