import Luwu.NumPrint.Tables
import Mathlib.Algebra.Order.Floor.Semifield

/-!
# The boundaries are exact

`roundodd` of a boundary is the exact product rounded to odd: to the integer itself, or to the odd one of the two integers around
it.  So a comparison with an even integer comes out as for the exact product.
-/

namespace Luwu.NumPrint

open Luwu.Residues

/-! ### Rounding to odd -/

section Odd

variable {x : ℚ} {m n : ℕ}

/-- The integer itself, or the odd one of two -/
def roundOdd (x : ℚ) : ℕ := if x = ⌊x⌋₊ then ⌊x⌋₊ else ⌊x⌋₊ ||| 1

theorem or_one_cases (n : ℕ) : n ||| 1 = n ∧ n % 2 = 1 ∨ n ||| 1 = n + 1 ∧ n % 2 = 0 := by
  have hmod : (n ||| 1) % 2 = 1 := by
    rw [Nat.or_mod_two_eq_one]
    exact Or.inr rfl
  have hdiv : (n ||| 1) / 2 = n / 2 := by
    rw [Nat.or_div_two]
    exact Nat.or_zero _
  omega

theorem roundOdd_natCast (n : ℕ) : roundOdd n = n := by
  unfold roundOdd
  rw [Nat.floor_natCast, if_pos rfl]

/-- Rounded to odd, a number is on the same side of an even integer. -/
theorem roundOdd_le (hx : 0 ≤ x) : roundOdd x ≤ 2 * m ↔ x ≤ (2 * m : ℕ) := by
  have hfloor := Nat.floor_le hx
  have hlt := Nat.lt_floor_add_one x
  have hle : ⌊x⌋₊ ≤ 2 * m - 1 ∧ 0 < m ↔ x < (2 * m : ℕ) := by
    rw [← Nat.floor_lt hx]
    omega
  unfold roundOdd
  split
  · next heq => rw [heq, Nat.floor_natCast, Nat.cast_le]
  · next hne =>
    have hne' : x ≠ (2 * m : ℕ) := by
      rintro rfl
      exact hne (by rw [Nat.floor_natCast])
    rw [le_iff_lt_or_eq (b := ((2 * m : ℕ) : ℚ)), or_iff_left hne', ← hle]
    rcases or_one_cases ⌊x⌋₊ with ⟨h, hodd⟩ | ⟨h, hodd⟩
    · rw [h]
      omega
    · rw [h]
      omega

theorem le_roundOdd (hx : 0 ≤ x) : 2 * m ≤ roundOdd x ↔ ((2 * m : ℕ) : ℚ) ≤ x := by
  rw [← Nat.le_floor_iff hx]
  unfold roundOdd
  split
  · rfl
  · rcases or_one_cases ⌊x⌋₊ with ⟨h, hodd⟩ | ⟨h, hodd⟩
    · rw [h]
    · rw [h]
      omega

theorem roundOdd_lt (hx : 0 ≤ x) : roundOdd x + 1 ≤ 2 * m ↔ x < (2 * m : ℕ) := by
  rw [← not_le, ← le_roundOdd hx]
  omega

theorem lt_roundOdd (hx : 0 ≤ x) : 2 * m + 1 ≤ roundOdd x ↔ ((2 * m : ℕ) : ℚ) < x := by
  rw [← not_le, ← roundOdd_le hx]
  omega

theorem roundOdd_div_four (x : ℚ) : roundOdd x / 4 = ⌊x / 4⌋₊ := by
  have hfloor : ⌊x / 4⌋₊ = ⌊x⌋₊ / 4 := Nat.floor_div_ofNat x 4
  rw [hfloor]
  unfold roundOdd
  split
  · rfl
  · rcases or_one_cases ⌊x⌋₊ with ⟨h, hodd⟩ | ⟨h, hodd⟩
    · rw [h]
    · rw [h]
      omega

end Odd

/-! ### The product -/

section Product

variable {ghi glo cp P D : ℕ} {x : ℚ}

/-- `roundodd` keeps the high word of the product, and whether the middle word is more than one. -/
theorem roundodd_eq (hghi : ghi < 2 ^ 64) (hglo : glo < 2 ^ 64) (hcp : cp < 2 ^ 64) :
    roundodd ghi glo cp = (ghi * 2 ^ 64 + glo) * cp / 2 ^ 128 |||
      if 2 ^ 65 ≤ (ghi * 2 ^ 64 + glo) * cp % 2 ^ 128 then 1 else 0 := by
  have hy : ghi * cp ≤ (2 ^ 64 - 1) * (2 ^ 64 - 1) := Nat.mul_le_mul (by omega) (by omega)
  have hx : glo * cp ≤ (2 ^ 64 - 1) * (2 ^ 64 - 1) := Nat.mul_le_mul (by omega) (by omega)
  have hsplit : (ghi * 2 ^ 64 + glo) * cp = ghi * cp * 2 ^ 64 + glo * cp := by ring
  rw [hsplit]
  unfold roundodd mul128
  dsimp only
  generalize ghi * cp = y at hy ⊢
  generalize glo * cp = x at hx ⊢
  congr 1
  · split
    · omega
    · omega
  · have hiff : 1 < (y % 2 ^ 64 + x / 2 ^ 64) % 2 ^ 64 ↔ 2 ^ 65 ≤ (y * 2 ^ 64 + x) % 2 ^ 128 := by omega
    rw [if_congr hiff rfl rfl]

/-- **A product that is a little more than the exact one is rounded to odd like it**, if the exact one has a small denominator, or the
product is not a little above an even number. -/
theorem sticky_exact (hx : 0 ≤ x) (hlow : x * 2 ^ 128 ≤ P) (hhigh : (P : ℚ) < x * 2 ^ 128 + 2 ^ 60)
    (h : (∃ D m : ℕ, 0 < D ∧ D ≤ 2 ^ 62 ∧ x * D = m) ∨ 2 ^ 65 ≤ P % 2 ^ 129) :
    (P / 2 ^ 128 ||| if 2 ^ 65 ≤ P % 2 ^ 128 then 1 else 0) = roundOdd x := by
  obtain ⟨Y, hY⟩ : ∃ Y, Y = P / 2 ^ 128 := ⟨_, rfl⟩
  obtain ⟨r, hr⟩ : ∃ r, r = P % 2 ^ 128 := ⟨_, rfl⟩
  have hP : P = 2 ^ 128 * Y + r := by
    rw [hY, hr, Nat.div_add_mod]
  have hrlt : r < 2 ^ 128 := hr ▸ Nat.mod_lt _ (by norm_num)
  have hPq : (P : ℚ) = 2 ^ 128 * Y + r := by
    rw [hP]
    push_cast
    ring
  have hrq : (r : ℚ) < 2 ^ 128 := by exact_mod_cast hrlt
  have hr0 : (0 : ℚ) ≤ r := Nat.cast_nonneg r
  rw [← hY, ← hr]
  -- above its integer part the exact product is not an integer
  have habove : (Y : ℚ) < x → roundOdd x = Y ||| 1 := by
    intro hlt
    have hfloor : ⌊x⌋₊ = Y := by
      rw [Nat.floor_eq_iff hx]
      constructor
      · exact hlt.le
      · linarith
    unfold roundOdd
    rw [hfloor, if_neg hlt.ne']
  by_cases hsticky : 2 ^ 65 ≤ r
  · rw [if_pos hsticky, habove]
    have hrq' : (2 : ℚ) ^ 65 ≤ r := by exact_mod_cast hsticky
    linarith
  · rw [if_neg hsticky, Nat.or_zero]
    rcases h with ⟨D, m, hD, hDle, hm⟩ | haway
    · -- the exact product is the integer part
      have hDq : (0 : ℚ) < D := by exact_mod_cast hD
      have hDq' : (D : ℚ) ≤ 2 ^ 62 := by exact_mod_cast hDle
      have hrq' : (r : ℚ) < 2 ^ 65 := by exact_mod_cast Nat.lt_of_not_le hsticky
      have hmD : m = Y * D := by
        have hbelow : (m : ℚ) < Y * D + 1 := by
          rw [← hm]
          nlinarith
        have habove' : ((Y * D : ℕ) : ℚ) < m + 1 := by
          rw [← hm]
          push_cast
          nlinarith
        have h1 : m < Y * D + 1 := by exact_mod_cast hbelow
        have h2 : Y * D < m + 1 := by exact_mod_cast habove'
        omega
      have hxY : x = Y := by
        apply mul_right_cancel₀ hDq.ne'
        rw [hm, hmD, Nat.cast_mul]
      rw [hxY, roundOdd_natCast]
    · have hodd : Y % 2 = 1 := by omega
      rcases lt_trichotomy (Y : ℚ) x with hlt | heq | hgt
      · rw [habove hlt]
        rcases or_one_cases Y with ⟨hor, -⟩ | ⟨-, heven⟩
        · rw [hor]
        · omega
      · rw [← heq, roundOdd_natCast]
      · obtain ⟨Z, rfl⟩ : ∃ Z, Y = Z + 1 := ⟨Y - 1, by omega⟩
        rw [Nat.cast_add, Nat.cast_one] at hgt hPq
        have hfloor : ⌊x⌋₊ = Z := by
          rw [Nat.floor_eq_iff hx]
          constructor
          · linarith
          · exact hgt
        have hne : x ≠ Z := by
          rintro rfl
          linarith
        unfold roundOdd
        rw [hfloor, if_neg hne]
        rcases or_one_cases Z with ⟨-, hodd'⟩ | ⟨hor, -⟩
        · omega
        · rw [hor]

end Product

/-! ### The boundaries -/

section Boundaries

variable {q k : ℤ} {irr : Bool} {cp : ℕ}

theorem pow10_lt (k : ℤ) : (pow10 k).1 < 2 ^ 64 ∧ (pow10 k).2 < 2 ^ 64 :=
  ⟨Nat.mod_lt _ (by norm_num), Nat.mod_lt _ (by norm_num)⟩

/-- The boundaries of a number: an even one, or one of the three of a power of two -/
def Boundary (irr : Bool) (cp : ℕ) : Prop :=
  irr = false ∧ (∃ n, cp = 2 * n ∧ 0 < n ∧ n ≤ largest) ∨ irr = true ∧ (cp = 2 ^ 54 - 1 ∨ cp = 2 ^ 54 ∨ cp = 2 ^ 54 + 2)

theorem Boundary.le (h : Boundary irr cp) : cp ≤ 2 ^ 55 + 2 := by
  rcases h with ⟨-, n, rfl, -, hn⟩ | ⟨-, rfl | rfl | rfl⟩
  · unfold largest at hn
    omega
  all_goals norm_num

/-- With an even boundary the residue is twice that of its half. -/
theorem residue_even {g n h : ℕ} (hres : 2 ^ 64 ≤ n * (g * 2 ^ h) % 2 ^ 128) : 2 ^ 65 ≤ 2 * n * (g * 2 ^ h) % 2 ^ 129 := by
  rw [Nat.mul_assoc, show (2 : ℕ) ^ 129 = 2 * 2 ^ 128 by norm_num, Nat.mul_mod_mul_left]
  omega

/-- Where the denominator is large, no boundary is a little above an even number. -/
theorem boundary_away (hk : sticky k = true) (hb : Boundary irr cp) {h : ℕ} (hh : 1 ≤ h) (hh' : h ≤ 4)
    (hexp : exponents (h - scaling k) irr = (k, (h : ℤ))) : 2 ^ 65 ≤ cp * (tabulated k * 2 ^ h) % 2 ^ 129 := by
  unfold sticky at hk
  dsimp only at hk
  rw [Bool.and_eq_true] at hk
  obtain ⟨heven, hodd⟩ := hk
  have hmem : h ∈ ([1, 2, 3, 4] : List ℕ) := by
    rcases (show h = 1 ∨ h = 2 ∨ h = 3 ∨ h = 4 by omega) with rfl | rfl | rfl | rfl <;> decide
  -- a multiple of the fraction with this shift, from the one check or from the other
  have hmultiple : ∀ n, 0 < n → n ≤ largest → irr = false ∨ n = 2 ^ 53 ∨ n = 2 ^ 53 + 1 →
      2 ^ 65 ≤ 2 * n * (tabulated k * 2 ^ h) % 2 ^ 129 := by
    intro n hn hle hirr
    rcases Bool.or_eq_true _ _ ▸ heven with hall | hall
    · obtain ⟨j, rfl⟩ : ∃ j, h = j + 1 := ⟨h - 1, by omega⟩
      have hpow : 0 < 2 ^ j := Nat.two_pow_pos j
      have hpow' : 2 ^ j ≤ 2 ^ 3 := Nat.pow_le_pow_right (by decide) (by omega)
      have hres : 2 ^ 64 ≤ n * 2 ^ j * (tabulated k * 2) % 2 ^ 128 :=
        residue_of_check (by norm_num) hall (Nat.mul_pos hn hpow) (by rw [Nat.mul_comm 8]; exact Nat.mul_le_mul hle hpow')
      apply residue_even
      rwa [show n * (tabulated k * 2 ^ (j + 1)) = n * 2 ^ j * (tabulated k * 2) by ring]
    · have hh := List.all_eq_true.mp hall h hmem
      rcases Bool.or_eq_true _ _ ▸ hh with hres | hother
      · exact residue_even (residue_of_check (by norm_num) hres hn hle)
      · simp only [Bool.and_eq_true, decide_eq_true_eq] at hother
        unfold awayAt at hother
        rw [Nat.ble_eq, Nat.ble_eq] at hother
        rcases hirr with rfl | rfl | rfl
        · exact absurd hexp hother.1.1
        · exact hother.1.2
        · exact hother.2
  rcases hb with ⟨hirr, n, rfl, hn, hle⟩ | ⟨-, rfl | rfl | rfl⟩
  · exact hmultiple n hn hle (Or.inl hirr)
  · have hh := List.all_eq_true.mp hodd h hmem
    unfold awayAt at hh
    exact Nat.ble_eq.mp hh
  · exact hmultiple (2 ^ 53) (by norm_num) (by unfold largest; norm_num) (Or.inr (Or.inl rfl))
  · exact hmultiple (2 ^ 53 + 1) (by norm_num) (by unfold largest; norm_num) (Or.inr (Or.inr rfl))

/-- **`roundodd` of a boundary is the exact product rounded to odd.** -/
theorem boundary_exact (hfit : Fitting q irr) (hb : Boundary irr cp) :
    roundodd (pow10 (exponents q irr).1).1 (pow10 (exponents q irr).1).2 (cp * 2 ^ (exponents q irr).2.toNat % 2 ^ 64) =
      roundOdd (cp * ratio q (exponents q irr).1) := by
  have hshift : (exponents q irr).2 = q + scaling (exponents q irr).1 := by
    unfold exponents scaling
    exact add_assoc _ _ _
  obtain ⟨h, hh⟩ := Int.eq_ofNat_of_zero_le (show 0 ≤ (exponents q irr).2 by have := hfit.shift_low; omega)
  have hone : 1 ≤ h := by
    have := hfit.shift_low
    omega
  have hfour : h ≤ 4 := by
    have := hfit.shift_high
    omega
  obtain ⟨hlow, hhigh⟩ := tabulated_bounds hfit.low hfit.high
  obtain ⟨hghi, hglo⟩ := pow10_lt (exponents q irr).1
  have hden := hfit.denominator
  have hexp : exponents (h - scaling (exponents q irr).1) irr = ((exponents q irr).1, (h : ℤ)) := by
    rw [show (h : ℤ) - scaling (exponents q irr).1 = q by omega, ← hh]
  have hsticky := sticky_of hfit.low hfit.high
  rw [hh, Int.toNat_natCast]
  generalize (exponents q irr).1 = k at *
  have hcp := hb.le
  have hpow : 2 ^ h ≤ 2 ^ 4 := Nat.pow_le_pow_right (by decide) hfour
  have hprod : cp * 2 ^ h < 2 ^ 60 := by
    calc cp * 2 ^ h ≤ (2 ^ 55 + 2) * 2 ^ 4 := Nat.mul_le_mul hcp hpow
      _ < 2 ^ 60 := by norm_num
  rw [Nat.mod_eq_of_lt (by omega), roundodd_eq hghi hglo (by omega)]
  show (tabulated k * (cp * 2 ^ h) / 2 ^ 128 ||| if 2 ^ 65 ≤ tabulated k * (cp * 2 ^ h) % 2 ^ 128 then 1 else 0) = _
  have hratio : ratio q k * 2 ^ 128 = 10 ^ (-k) * 2 ^ (128 - scaling k) * 2 ^ h := by
    have hq : (2 : ℚ) ^ q * 2 ^ 128 = 2 ^ (128 - scaling k) * 2 ^ h := by
      rw [← zpow_natCast, ← zpow_natCast, ← zpow_add₀ two_ne_zero, ← zpow_add₀ two_ne_zero]
      congr 1
      push_cast
      omega
    unfold ratio
    linear_combination (10 : ℚ) ^ (-k) * hq
  have hc : (0 : ℚ) ≤ cp * 2 ^ h := by positivity
  have hcq : (cp : ℚ) * 2 ^ h < 2 ^ 60 := by exact_mod_cast hprod
  apply sticky_exact
  · exact mul_nonneg (Nat.cast_nonneg _) (ratio_pos q k).le
  · calc (cp : ℚ) * ratio q k * 2 ^ 128 = 10 ^ (-k) * 2 ^ (128 - scaling k) * (cp * 2 ^ h) := by linear_combination (cp : ℚ) * hratio
      _ ≤ tabulated k * (cp * 2 ^ h) := mul_le_mul_of_nonneg_right hlow hc
      _ = _ := by push_cast; ring
  · calc ((tabulated k * (cp * 2 ^ h) : ℕ) : ℚ) = tabulated k * (cp * 2 ^ h) := by push_cast; ring
      _ ≤ (10 ^ (-k) * 2 ^ (128 - scaling k) + 1) * (cp * 2 ^ h) := mul_le_mul_of_nonneg_right hhigh.le hc
      _ < 10 ^ (-k) * 2 ^ (128 - scaling k) * (cp * 2 ^ h) + 2 ^ 60 := by linarith
      _ = _ := by linear_combination -(cp : ℚ) * hratio
  · cases hs : small k with
    | true =>
      obtain ⟨D, m, hD, hDle, hm⟩ := hden hs
      exact Or.inl ⟨D, cp * m, hD, hDle, by rw [mul_assoc, hm, Nat.cast_mul]⟩
    | false =>
      refine Or.inr ?_
      rw [show tabulated k * (cp * 2 ^ h) = cp * (tabulated k * 2 ^ h) by ring]
      exact boundary_away (hsticky hs) hb hone hfour hexp

end Boundaries

end Luwu.NumPrint
