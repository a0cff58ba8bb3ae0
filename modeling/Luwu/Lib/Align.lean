import Mathlib.Data.Nat.Bitwise
import Mathlib.Tactic.Ring

/-!
# Rounding up to a power of two

Machine words of `w` bits round a size up by adding `2 ^ k - 1` and masking the low bits. As long as the sum
does not wrap this is the least multiple of `2 ^ k` that is not below the size.
-/

namespace Luwu.Align

/-- The least multiple of `a` that is not below `x`. -/
def up (a x : ℕ) : ℕ := (x + a - 1) / a * a

/-- What the machine computes, on words of `w` bits. -/
def maskUp (w k x : ℕ) : ℕ := (x + 2 ^ k - 1) % 2 ^ w &&& (2 ^ w - 1 - (2 ^ k - 1))

section Up

variable {a x y : ℕ}

theorem dvd_up (a x : ℕ) : a ∣ up a x := Nat.dvd_mul_left a _

theorem le_up (ha : 0 < a) : x ≤ up a x := by
  have hdiv := Nat.div_add_mod (x + a - 1) a
  have hmod := Nat.mod_lt (x + a - 1) ha
  unfold up
  rw [Nat.mul_comm]
  omega

theorem up_lt (ha : 0 < a) : up a x < x + a := by
  have hle : (x + a - 1) / a * a ≤ x + a - 1 := Nat.div_mul_le_self _ _
  unfold up
  omega

theorem up_least (ha : 0 < a) (hxy : x ≤ y) (hy : a ∣ y) : up a x ≤ y := by
  obtain ⟨q, rfl⟩ := hy
  have hlt : up a x < a * q + a := lt_of_lt_of_le (up_lt ha) (by omega)
  obtain ⟨r, hr⟩ := dvd_up a x
  rw [hr] at hlt ⊢
  have hrq : r < q + 1 := Nat.lt_of_mul_lt_mul_left (a := a) (by rw [Nat.mul_add, Nat.mul_one]; exact hlt)
  exact Nat.mul_le_mul_left a (Nat.lt_succ_iff.mp hrq)

theorem up_mono (ha : 0 < a) (hxy : x ≤ y) : up a x ≤ up a y :=
  up_least ha (hxy.trans (le_up ha)) (dvd_up a y)

theorem up_eq (ha : 0 < a) (hx : a ∣ x) : up a x = x :=
  Nat.le_antisymm (up_least ha le_rfl hx) (le_up ha)

end Up

section Mask

variable {w k x : ℕ}

theorem land_mask (hk : k ≤ w) (hx : x < 2 ^ w) : x &&& (2 ^ w - 1 - (2 ^ k - 1)) = x / 2 ^ k * 2 ^ k := by
  have hmask : 2 ^ w - 1 - (2 ^ k - 1) = (2 ^ (w - k) - 1) * 2 ^ k := by
    have hpow : 2 ^ (w - k) * 2 ^ k = 2 ^ w := by rw [← Nat.pow_add, Nat.sub_add_cancel hk]
    rw [Nat.sub_mul, hpow, Nat.one_mul]
    have := Nat.one_le_two_pow (n := k)
    omega
  apply Nat.eq_of_testBit_eq
  intro i
  rw [hmask, Nat.testBit_and, Nat.testBit_mul_two_pow, Nat.testBit_mul_two_pow, Nat.testBit_two_pow_sub_one,
    Nat.testBit_div_two_pow]
  rcases Nat.lt_or_ge i k with hik | hik
  · simp [Nat.not_le.mpr hik]
  · rw [Nat.sub_add_cancel hik]
    by_cases hiw : i < w
    · have : i - k < w - k := by omega
      simp [hik, this]
    · have hbit : x.testBit i = false :=
        Nat.testBit_lt_two_pow (hx.trans_le (Nat.pow_le_pow_right (by decide) (Nat.not_lt.mp hiw)))
      simp [hbit]

theorem maskUp_eq (hk : k ≤ w) (hx : x + 2 ^ k ≤ 2 ^ w) : maskUp w k x = up (2 ^ k) x := by
  have hpos := Nat.two_pow_pos k
  have hlt : x + 2 ^ k - 1 < 2 ^ w := by omega
  unfold maskUp up
  rw [Nat.mod_eq_of_lt hlt, land_mask hk hlt]

theorem maskUp_eq_div (hk : k ≤ w) : maskUp w k x = (x + 2 ^ k - 1) % 2 ^ w / 2 ^ k * 2 ^ k :=
  land_mask hk (Nat.mod_lt _ (Nat.two_pow_pos w))

/-- Wrapped or not, the result is a multiple, and the next multiple is in range or one past it. -/
theorem dvd_maskUp (hk : k ≤ w) (x : ℕ) : 2 ^ k ∣ maskUp w k x := by
  rw [maskUp_eq_div hk]
  exact Nat.dvd_mul_left _ _

theorem maskUp_add_le (hk : k ≤ w) (x : ℕ) : maskUp w k x + 2 ^ k ≤ 2 ^ w := by
  have hlt : maskUp w k x < 2 ^ w := by
    rw [maskUp_eq_div hk]
    exact (Nat.div_mul_le_self _ _).trans_lt (Nat.mod_lt _ (Nat.two_pow_pos w))
  obtain ⟨m, hm⟩ := dvd_maskUp hk x
  obtain ⟨n, hn⟩ := Nat.pow_dvd_pow 2 hk
  rw [hm, hn] at hlt ⊢
  have hmn : m < n := Nat.lt_of_mul_lt_mul_left hlt
  calc 2 ^ k * m + 2 ^ k = 2 ^ k * (m + 1) := by ring
    _ ≤ 2 ^ k * n := Nat.mul_le_mul_left _ hmn

/-- A sum that wraps is rounded to 0. -/
theorem maskUp_wrap (hk : k ≤ w) (hlt : x < 2 ^ w) (h : 2 ^ w < x + 2 ^ k) : maskUp w k x = 0 := by
  have hle : 2 ^ k ≤ 2 ^ w := Nat.pow_le_pow_right (by decide) hk
  have hwrap : x + 2 ^ k - 1 = 2 ^ w + (x + 2 ^ k - 1 - 2 ^ w) := by omega
  have hsmall : (x + 2 ^ k - 1) % 2 ^ w < 2 ^ k := by
    rw [hwrap, Nat.add_mod_left, Nat.mod_eq_of_lt (by omega)]
    omega
  rw [maskUp_eq_div hk, Nat.div_eq_of_lt hsmall, Nat.zero_mul]

end Mask

end Luwu.Align
