import Luwu.Lib.Residues
import Luwu.NumPrint.Schubfach

/-!
# What the tables are

The fractions of the powers of ten are rounded up, and by less than one; the decimal exponent is the right one, and the shift small.
No product of a boundary lies so close above an even number that the low word would hide it.  All of this is computed.
-/

namespace Luwu.NumPrint

open Luwu.Residues

/-! ### The checks -/

/-- The fraction of `10 ^ -k` -/
def tabulated (k : ℤ) : ℕ := (pow10 k).1 * 2 ^ 64 + (pow10 k).2

/-- Its binary exponent -/
def scaling (k : ℤ) : ℤ := (-k * 3483294) >>> (20 : ℕ) + 1

/-- `b ^ e` is this over the same for `-e`. -/
def numerator (b : ℕ) (e : ℤ) : ℕ := Nat.pow b e.toNat

def accurate (k : ℤ) : Bool :=
  let num := numerator 10 (-k) * numerator 2 (128 - scaling k)
  let den := numerator 10 k * numerator 2 (scaling k - 128)
  let x := den * tabulated k
  Nat.ble num x && Nat.ble (x + 1) (num + den)

/-- The denominator of the scaled boundaries -/
def denominator (q k : ℤ) : ℕ := if 0 ≤ q then 5 ^ k.toNat else 2 ^ (k - q).toNat

/-- `1 ≤ x + offset ≤ size`, in natural numbers -/
def within (offset size : ℕ) (x : ℤ) : Bool := Nat.ble 1 (x.add offset).toNat && Nat.ble (x.add offset).toNat size

def small (k : ℤ) : Bool := within 28 54 k

/-- With the interval of a power of two there is an integer between its boundaries. -/
def fitting (q : ℤ) (irr : Bool) : Bool :=
  let (k, h) := exponents q irr
  let num := numerator 2 q * numerator 10 (-k)
  let den := numerator 2 (-q) * numerator 10 k
  within 0 4 h && within 325 617 k && Nat.ble den num &&
    (bif irr then
        Nat.ble (((2 ^ 54 - 1) * num + (4 * den - 1)) / (4 * den) * (4 * den)) ((2 ^ 54 + 2) * num) &&
          Nat.ble (3 * num + 1) (41 * den)
      else Nat.ble (num + 1) (10 * den)) &&
    (bif small k then Nat.ble (denominator q k) (2 ^ 62) && Nat.beq (denominator q k * num % den) 0 else true)

/-- Half of the largest boundary -/
def largest : ℕ := 2 ^ 54 + 1

/-- A multiple of the fraction, shifted by `h`, is not a little above an even number. -/
def awayAt (g cp h : ℕ) : Bool := Nat.ble (2 ^ 65) (cp * (g * 2 ^ h) % 2 ^ 129)

def sticky (k : ℤ) : Bool :=
  let g := tabulated k
  (residuesAtLeast (2 ^ 128) (g * 2) (8 * largest) (2 ^ 64) ||
    ([1, 2, 3, 4] : List ℕ).all fun h =>
      residuesAtLeast (2 ^ 128) (g * 2 ^ h) largest (2 ^ 64) ||
        (decide (exponents ((h : ℤ) - scaling k) false ≠ (k, (h : ℤ))) && awayAt g (2 ^ 54) h && awayAt g (2 ^ 54 + 2) h)) &&
    ([1, 2, 3, 4] : List ℕ).all fun h => awayAt g (2 ^ 54 - 1) h

/-- A check of the numbers from `-m` to `n - 1` -/
def everywhere (n m : ℕ) (p : ℤ → Bool) : Bool :=
  ((List.range n).all fun i => p (.ofNat i)) && (List.range m).all fun i => p (.negSucc i)

set_option maxRecDepth 10000 in
theorem all_checked :
    (everywhere 293 324 accurate && everywhere 972 1074 (fun q => fitting q false) &&
      everywhere 972 1074 (fun q => fitting q true) && everywhere 293 324 fun k => small k || sticky k) = true := by
  decide +kernel

/-! ### What was computed -/

section Computed

variable {k q : ℤ}

theorem of_everywhere {p : ℤ → Bool} {n m : ℕ} (h : everywhere n m p = true) (hlow : -m ≤ k) (hhigh : k < n) :
    p k = true := by
  unfold everywhere at h
  rw [Bool.and_eq_true] at h
  cases k with
  | ofNat i => exact List.all_eq_true.mp h.1 i (List.mem_range.mpr (Int.ofNat_lt.mp hhigh))
  | negSucc i => exact List.all_eq_true.mp h.2 i (List.mem_range.mpr (by omega))

theorem checked : everywhere 293 324 accurate = true ∧ (∀ irr, everywhere 972 1074 (fun q => fitting q irr) = true) ∧
    everywhere 293 324 (fun k => small k || sticky k) = true := by
  have h := all_checked
  rw [Bool.and_eq_true, Bool.and_eq_true, Bool.and_eq_true] at h
  refine ⟨h.1.1.1, fun irr => ?_, h.2⟩
  cases irr with
  | false => exact h.1.1.2
  | true => exact h.1.2

theorem of_within {offset size : ℕ} {x : ℤ} (h : within offset size x = true) : 1 ≤ x + offset ∧ x + offset ≤ size := by
  unfold within at h
  rw [Bool.and_eq_true, Nat.ble_eq, Nat.ble_eq] at h
  have hadd : x.add offset = x + offset := rfl
  rw [hadd] at h
  omega

theorem accurate_of (hlow : -324 ≤ k) (hhigh : k ≤ 292) : accurate k = true :=
  of_everywhere checked.1 hlow (by push_cast; omega)

theorem fitting_of (hlow : -1074 ≤ q) (hhigh : q ≤ 971) (irr : Bool) : fitting q irr = true :=
  @of_everywhere _ (fun q => fitting q irr) _ _ (checked.2.1 irr) hlow (by push_cast; omega)

theorem sticky_of (hlow : -324 ≤ k) (hhigh : k ≤ 292) (hsmall : small k = false) : sticky k = true := by
  have h : (small k || sticky k) = true := @of_everywhere _ (fun k => small k || sticky k) _ _ checked.2.2 hlow (by push_cast; omega)
  rwa [hsmall, Bool.false_or] at h

/-- `2 ^ q / 10 ^ k` -/
def ratio (q k : ℤ) : ℚ := 2 ^ q * 10 ^ (-k)

theorem ratio_pos (q k : ℤ) : 0 < ratio q k := by
  unfold ratio
  positivity

theorem numerator_pos {b : ℕ} (hb : 0 < b) (e : ℤ) : 0 < numerator b e := Nat.pow_pos hb

/-- A power is a fraction of powers whose exponents are not negative. -/
theorem zpow_eq {b : ℕ} (hb : 0 < b) (e : ℤ) : (b : ℚ) ^ e = numerator b e / numerator b (-e) := by
  have hb' : (b : ℚ) ≠ 0 := Nat.cast_ne_zero.mpr hb.ne'
  unfold numerator
  rcases le_total 0 e with he | he
  · obtain ⟨n, rfl⟩ := Int.eq_ofNat_of_zero_le he
    rw [Int.toNat_natCast, show (-(n : ℤ)).toNat = 0 by omega, zpow_natCast]
    simp
  · obtain ⟨n, hn⟩ := Int.eq_ofNat_of_zero_le (show 0 ≤ -e by omega)
    obtain rfl : e = -n := by omega
    rw [show (-(n : ℤ)).toNat = 0 by omega, neg_neg, Int.toNat_natCast, zpow_neg, zpow_natCast]
    simp

theorem ratio_eq (q k : ℤ) :
    ratio q k = (numerator 2 q * numerator 10 (-k) : ℕ) / (numerator 2 (-q) * numerator 10 k : ℕ) := by
  have h2 := zpow_eq two_pos q
  have h10 := zpow_eq (show 0 < 10 by decide) (-k)
  rw [neg_neg] at h10
  unfold ratio
  rw [Nat.cast_mul, Nat.cast_mul, ← div_mul_div_comm, ← h2, ← h10]
  norm_num

/-- **The fraction of a power of ten** is rounded up by less than one. -/
theorem tabulated_bounds (hlow : -324 ≤ k) (hhigh : k ≤ 292) :
    (10 : ℚ) ^ (-k) * 2 ^ (128 - scaling k) ≤ tabulated k ∧ (tabulated k : ℚ) < 10 ^ (-k) * 2 ^ (128 - scaling k) + 1 := by
  have h := accurate_of hlow hhigh
  unfold accurate at h
  simp only [Bool.and_eq_true, Nat.ble_eq] at h
  have h2 := zpow_eq two_pos (128 - scaling k)
  have h10 := zpow_eq (show 0 < 10 by decide) (-k)
  rw [neg_neg] at h10
  rw [neg_sub] at h2
  have hvalue : (10 : ℚ) ^ (-k) * 2 ^ (128 - scaling k) =
      (numerator 10 (-k) * numerator 2 (128 - scaling k) : ℕ) / (numerator 10 k * numerator 2 (scaling k - 128) : ℕ) := by
    rw [Nat.cast_mul, Nat.cast_mul, ← div_mul_div_comm, ← h2, ← h10]
    norm_num
  have hden : 0 < numerator 10 k * numerator 2 (scaling k - 128) :=
    Nat.mul_pos (numerator_pos (by decide) _) (numerator_pos (by decide) _)
  have hdenq : (0 : ℚ) < (numerator 10 k * numerator 2 (scaling k - 128) : ℕ) := by exact_mod_cast hden
  rw [hvalue]
  constructor
  · rw [div_le_iff₀ hdenq, mul_comm (tabulated k : ℚ)]
    exact_mod_cast h.1
  · rw [← sub_lt_iff_lt_add, lt_div_iff₀ hdenq, sub_mul, one_mul, sub_lt_iff_lt_add, mul_comm (tabulated k : ℚ)]
    exact_mod_cast h.2

/-- **The exponents** of the numbers with binary exponent `q` -/
structure Fitting (q : ℤ) (irr : Bool) : Prop where
  shift_low : 1 ≤ (exponents q irr).2
  shift_high : (exponents q irr).2 ≤ 4
  low : -324 ≤ (exponents q irr).1
  high : (exponents q irr).1 ≤ 292
  one_le : 1 ≤ ratio q (exponents q irr).1
  lt_ten : irr = false → ratio q (exponents q irr).1 < 10
  lt : irr = true → 3 * ratio q (exponents q irr).1 < 41
  between : irr = true → ∃ t : ℕ, (2 ^ 54 - 1) * ratio q (exponents q irr).1 ≤ 4 * t ∧
    4 * t ≤ (2 ^ 54 + 2) * ratio q (exponents q irr).1
  denominator : small (exponents q irr).1 = true → ∃ D m : ℕ, 0 < D ∧ D ≤ 2 ^ 62 ∧ ratio q (exponents q irr).1 * D = m

theorem fitting_bounds (hlow : -1074 ≤ q) (hhigh : q ≤ 971) (irr : Bool) : Fitting q irr := by
  have h := fitting_of hlow hhigh irr
  unfold fitting at h
  dsimp only at h
  have hvalue := ratio_eq q (exponents q irr).1
  have hden : 0 < numerator 2 (-q) * numerator 10 (exponents q irr).1 :=
    Nat.mul_pos (numerator_pos (by decide) _) (numerator_pos (by decide) _)
  generalize numerator 2 q * numerator 10 (-(exponents q irr).1) = num at h hvalue
  generalize numerator 2 (-q) * numerator 10 (exponents q irr).1 = den at h hvalue hden
  have hdenq : (0 : ℚ) < den := by exact_mod_cast hden
  simp only [Bool.and_eq_true, Nat.ble_eq] at h
  obtain ⟨⟨⟨⟨hh, hk⟩, hone⟩, hupper⟩, hsmall⟩ := h
  have hshift := of_within hh
  have hexponent := of_within hk
  refine ⟨by omega, by omega, by omega, by omega, ?_, ?_, ?_, ?_, ?_⟩
  · rw [hvalue, le_div_iff₀ hdenq, one_mul]
    exact_mod_cast hone
  · rintro rfl
    rw [cond_false, Nat.ble_eq] at hupper
    rw [hvalue, div_lt_iff₀ hdenq]
    exact_mod_cast hupper
  · rintro rfl
    rw [cond_true, Bool.and_eq_true, Nat.ble_eq, Nat.ble_eq] at hupper
    rw [hvalue, mul_div_assoc', div_lt_iff₀ hdenq]
    exact_mod_cast hupper.2
  · rintro rfl
    rw [cond_true, Bool.and_eq_true, Nat.ble_eq, Nat.ble_eq] at hupper
    refine ⟨((2 ^ 54 - 1) * num + (4 * den - 1)) / (4 * den), ?_, ?_⟩
    · rw [hvalue, mul_div_assoc', div_le_iff₀ hdenq]
      have hceil : (2 ^ 54 - 1) * num ≤ ((2 ^ 54 - 1) * num + (4 * den - 1)) / (4 * den) * (4 * den) := by
        have hdiv := Nat.div_add_mod' ((2 ^ 54 - 1) * num + (4 * den - 1)) (4 * den)
        have hmod := Nat.mod_lt ((2 ^ 54 - 1) * num + (4 * den - 1)) (show 0 < 4 * den by omega)
        omega
      calc ((2 : ℚ) ^ 54 - 1) * num = ((2 ^ 54 - 1) * num : ℕ) := by norm_num
        _ ≤ (((2 ^ 54 - 1) * num + (4 * den - 1)) / (4 * den) * (4 * den) : ℕ) := by exact_mod_cast hceil
        _ = _ := by
          push_cast
          ring
    · rw [hvalue, mul_div_assoc', le_div_iff₀ hdenq]
      calc (4 : ℚ) * (((2 ^ 54 - 1) * num + (4 * den - 1)) / (4 * den) : ℕ) * den
          = (((2 ^ 54 - 1) * num + (4 * den - 1)) / (4 * den) * (4 * den) : ℕ) := by
            push_cast
            ring
        _ ≤ ((2 ^ 54 + 2) * num : ℕ) := by exact_mod_cast hupper.1
        _ = _ := by norm_num
  · intro hs
    rw [hs, cond_true, Bool.and_eq_true, Nat.ble_eq, Nat.beq_eq] at hsmall
    obtain ⟨m, hm⟩ := Nat.dvd_of_mod_eq_zero hsmall.2
    refine ⟨denominator q (exponents q irr).1, m, ?_, hsmall.1, ?_⟩
    · unfold denominator
      split
      · exact Nat.pow_pos (by decide)
      · exact Nat.pow_pos (by decide)
    · rw [hvalue, div_mul_eq_mul_div, div_eq_iff hdenq.ne', mul_comm (m : ℚ), mul_comm (num : ℚ)]
      exact_mod_cast hm

end Computed

end Luwu.NumPrint
