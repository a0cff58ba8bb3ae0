import Luwu.Lib.FloatArith
import Luwu.NumPrint.Choice

/-!
# The decimal of a double

The decimal that `schubfach` computes is read as the double it was computed for, and it is the closest of those with its exponent
that are.  A double is given by its number: the bits without the sign.
-/

namespace Luwu.NumPrint

open Luwu.Floating

/-! ### A double and its neighbours -/

section Decomposed

variable {n c : ℕ} {q : ℤ}

/-- The double with number `n` is `c * 2 ^ q`. -/
structure Decomposed (n c : ℕ) (q : ℤ) : Prop where
  pos : 0 < c
  lt : c < 2 ^ 53
  low : -1074 ≤ q
  high : q ≤ 971
  normal : c < 2 ^ 52 → q = -1074
  parity : c % 2 = n % 2
  value : scaled 52 n = c * 2 ^ (q + 1074).toNat
  next : scaled 52 (n + 1) = (c + 1) * 2 ^ (q + 1074).toNat
  prev : 2 * scaled 52 (n - 1) = (2 * c - if c = 2 ^ 52 ∧ q ≠ -1074 then 1 else 2) * 2 ^ (q + 1074).toNat

/-- A number without the leading bit -/
theorem decompose_subnormal (hn : 0 < n) (hlt : n < 2 ^ 52) : Decomposed n n (-1074) where
  pos := hn
  lt := by omega
  low := le_rfl
  high := by norm_num
  normal _ := rfl
  parity := rfl
  value := by
    rw [scaled_of_lt hlt]
    exact (Nat.mul_one n).symm
  next := by
    rw [scaled_succ, scaled_of_lt hlt, Nat.div_eq_of_lt hlt]
    exact (Nat.mul_one _).symm
  prev := by
    rw [scaled_of_lt (by omega), if_neg (fun h => h.2 rfl)]
    show 2 * (n - 1) = (2 * n - 2) * 1
    omega

theorem decompose_normal {e f : ℕ} (hf : f < 2 ^ 52) (he : e < 2046) (hn : n = 2 ^ 52 * (e + 1) + f) :
    Decomposed n (f + 2 ^ 52) (e - 1074) := by
  have hdiv : n / 2 ^ 52 = e + 1 := by omega
  have hmod : n % 2 ^ 52 = f := by omega
  have hexp : ((e : ℤ) - 1074 + 1074).toNat = e := by omega
  have hvalue : scaled 52 n = (f + 2 ^ 52) * 2 ^ e := by
    rw [scaled_of_le (by omega), hdiv, hmod, Nat.add_sub_cancel, Nat.add_comm]
  have hprev := scaled_succ 52 (n - 1)
  rw [Nat.sub_add_cancel (by omega), hvalue] at hprev
  refine ⟨by omega, by omega, by omega, by omega, by omega, by omega, by rw [hexp, hvalue], ?_, ?_⟩
  · rw [scaled_succ, hvalue, hdiv, hexp, Nat.add_sub_cancel]
    ring
  · rw [hexp]
    by_cases hpow : f = 0
    · subst hpow
      cases e with
      | zero =>
        rw [if_neg (by omega)]
        rw [Nat.div_eq_of_lt (by omega)] at hprev
        omega
      | succ e =>
        rw [if_pos (by omega)]
        rw [show (n - 1) / 2 ^ 52 = e + 1 by omega, Nat.add_sub_cancel, Nat.pow_succ] at hprev
        rw [Nat.pow_succ]
        omega
    · rw [if_neg (by omega)]
      rw [show (n - 1) / 2 ^ 52 = e + 1 by omega, Nat.add_sub_cancel] at hprev
      rw [show 2 * (f + 2 ^ 52) - 2 = 2 * (f + 2 ^ 52 - 1) by omega, Nat.mul_assoc, Nat.sub_mul, Nat.one_mul, hprev,
        Nat.add_sub_cancel]

theorem decompose_spec (hn : 0 < n) (htop : n < Format.double.top) :
    Decomposed n (decompose (n / 2 ^ 52) (n % 2 ^ 52)).1 (decompose (n / 2 ^ 52) (n % 2 ^ 52)).2 := by
  have htop' : n < 2047 * 2 ^ 52 := htop
  have hsplit := Nat.div_add_mod n (2 ^ 52)
  have hmod := Nat.mod_lt n (show 0 < 2 ^ 52 by norm_num)
  unfold decompose
  by_cases he : n / 2 ^ 52 = 0
  · have hlt : n < 2 ^ 52 := by omega
    rw [he, Nat.mod_eq_of_lt hlt]
    exact decompose_subnormal hn hlt
  · obtain ⟨e, he'⟩ : ∃ e, n / 2 ^ 52 = e + 1 := ⟨n / 2 ^ 52 - 1, by omega⟩
    rw [he']
    have h := decompose_normal (n := n) hmod (show e < 2046 by omega) (by rw [← he', hsplit])
    rwa [show (e : ℤ) - 1074 = ((e + 1 : ℕ) : ℤ) - 1023 - 51 - 1 by push_cast; ring] at h

end Decomposed

/-! ### The interval -/

section Interval

variable {n c : ℕ} {q k : ℤ}

/-- A power of two has the number before it at half the distance, unless it is the least normal number. -/
def irregular (c : ℕ) (q : ℤ) : Bool := decide (c = 2 ^ 52 ∧ q ≠ -1074)

/-- Four times the boundaries of the interval of `c * 2 ^ q`, and of the number itself, in units of `10 ^ k` -/
def lowerBoundary (c : ℕ) (q k : ℤ) : ℚ := (4 * c - 2 + (irregular c q).toNat : ℕ) * ratio q k

def center (c : ℕ) (q k : ℤ) : ℚ := (4 * c : ℕ) * ratio q k

def upperBoundary (c : ℕ) (q k : ℤ) : ℚ := (4 * c + 2 : ℕ) * ratio q k

theorem lower_lt_center (hc : 0 < c) : lowerBoundary c q k < center c q k := by
  have hbool := Bool.toNat_le (irregular c q)
  have h : 4 * c - 2 + (irregular c q).toNat < 4 * c := by omega
  exact mul_lt_mul_of_pos_right (by exact_mod_cast h) (ratio_pos q k)

theorem center_lt_upper : center c q k < upperBoundary c q k := by
  have h : 4 * c < 4 * c + 2 := by omega
  exact mul_lt_mul_of_pos_right (by exact_mod_cast h) (ratio_pos q k)

theorem lower_pos (hc : 0 < c) : 0 < lowerBoundary c q k := by
  have h : 0 < 4 * c - 2 + (irregular c q).toNat := by omega
  exact mul_pos (by exact_mod_cast h) (ratio_pos q k)

/-- The scale between the units -/
theorem ratio_scale (hlow : -1074 ≤ q) (k : ℤ) : ratio q k * (10 ^ k * 2 ^ 1074) = 2 ^ (q + 1074).toNat := by
  have h2 : (2 : ℚ) ^ q * 2 ^ 1074 = 2 ^ (q + 1074).toNat := by
    rw [← zpow_natCast, ← zpow_natCast, ← zpow_add₀ two_ne_zero]
    congr 1
    push_cast
    omega
  have h10 : (10 : ℚ) ^ (-k) * 10 ^ k = 1 := by
    rw [← zpow_add₀ (by norm_num), neg_add_cancel, zpow_zero]
  unfold ratio
  generalize (2 : ℚ) ^ 1074 = p at h2 ⊢
  linear_combination (10 : ℚ) ^ (-k) * 10 ^ k * h2 + 2 ^ (q + 1074).toNat * h10

/-- **A decimal is read as the double when it is inside the interval.** -/
theorem reads_iff (D : Decomposed n c q) (hn : 0 < n) (htop : n < Format.double.top) (t : ℕ) (k : ℤ) :
    (Format.double.roundMag (t * 10 ^ k) : ℕ) = n ↔ Inside (c % 2) (lowerBoundary c q k) (upperBoundary c q k) t := by
  have hscale := ratio_scale D.low k
  have hunit : (0 : ℚ) < 10 ^ k * 2 ^ 1074 := by positivity
  have hprev := D.prev
  have hnext := D.next
  have hvalue := D.value
  have hparity := D.parity
  obtain ⟨m, rfl⟩ : ∃ m, n = m + 1 := ⟨n - 1, by omega⟩
  rw [Nat.add_sub_cancel] at hprev
  have hmin : (Format.double.roundMag (t * 10 ^ k) : ℕ) = m + 1 ↔ roundIndex 52 (t * 10 ^ k * 2 ^ 1074) = m + 1 := by
    show min (roundIndex 52 (t * 10 ^ k * 2 ^ 1074)) Format.double.top = m + 1 ↔ _
    omega
  have hlower : lowerBoundary c q k * (10 ^ k * 2 ^ 1074) = 4 * middle 52 m := by
    have hsum : 2 * (scaled 52 m + scaled 52 (m + 1)) = (4 * c - 2 + (irregular c q).toNat) * 2 ^ (q + 1074).toNat := by
      have hpos := D.pos
      rw [Nat.mul_add, hprev, hvalue, ← Nat.mul_assoc, ← Nat.add_mul]
      congr 1
      unfold irregular
      by_cases hi : c = 2 ^ 52 ∧ q ≠ -1074
      · rw [if_pos hi, decide_eq_true hi]
        show _ = _ + 1
        omega
      · rw [if_neg hi, decide_eq_false hi]
        show _ = _ + 0
        omega
    unfold lowerBoundary middle
    rw [mul_assoc, hscale]
    calc ((4 * c - 2 + (irregular c q).toNat : ℕ) : ℚ) * 2 ^ (q + 1074).toNat
        = ((4 * c - 2 + (irregular c q).toNat) * 2 ^ (q + 1074).toNat : ℕ) := by push_cast; ring
      _ = (2 * (scaled 52 m + scaled 52 (m + 1)) : ℕ) := by rw [hsum]
      _ = _ := by
        rw [Nat.cast_mul]
        push_cast
        ring
  have hupper : upperBoundary c q k * (10 ^ k * 2 ^ 1074) = 4 * middle 52 (m + 1) := by
    unfold upperBoundary middle
    rw [mul_assoc, hscale, hvalue, hnext]
    push_cast
    ring
  have hr : (4 * t : ℚ) * (10 ^ k * 2 ^ 1074) = 4 * (t * 10 ^ k * 2 ^ 1074) := by
    generalize (2 : ℚ) ^ 1074 = p
    ring
  have hlowlt : lowerBoundary c q k < 4 * t ↔ middle 52 m < t * 10 ^ k * 2 ^ 1074 := by
    rw [← mul_lt_mul_iff_left₀ hunit, hlower, hr, mul_lt_mul_iff_right₀ (by norm_num)]
  have hloweq : lowerBoundary c q k = 4 * t ↔ middle 52 m = t * 10 ^ k * 2 ^ 1074 := by
    rw [← mul_left_inj' hunit.ne', hlower, hr, mul_right_inj' (by norm_num)]
  have huplt : 4 * t < upperBoundary c q k ↔ t * 10 ^ k * 2 ^ 1074 < middle 52 (m + 1) := by
    rw [← mul_lt_mul_iff_left₀ hunit, hupper, hr, mul_lt_mul_iff_right₀ (by norm_num)]
  have hupeq : 4 * t = upperBoundary c q k ↔ t * 10 ^ k * 2 ^ 1074 = middle 52 (m + 1) := by
    rw [← mul_left_inj' hunit.ne', hupper, hr, mul_right_inj' (by norm_num)]
  rw [hmin, roundIndex_eq_iff (by positivity), ← hparity, ← hlowlt, ← hloweq, ← huplt, ← hupeq]
  exact ⟨fun h => ⟨h.1, h.2⟩, fun h => ⟨h.low, h.high⟩⟩

/-- The three boundaries of a double -/
theorem boundaries (D : Decomposed n c q) :
    Boundary (irregular c q) (4 * c - 2 + (irregular c q).toNat) ∧ Boundary (irregular c q) (4 * c) ∧
      Boundary (irregular c q) (4 * c + 2) := by
  have hpos := D.pos
  have hlt := D.lt
  cases hi : irregular c q with
  | false =>
    have hbound : ∀ m, 0 < m → m ≤ 2 * c + 1 → Boundary false (2 * m) := by
      intro m hm hle
      refine Or.inl ⟨rfl, m, rfl, hm, ?_⟩
      unfold largest
      omega
    refine ⟨?_, ?_, ?_⟩
    · rw [show 4 * c - 2 + false.toNat = 2 * (2 * c - 1) by show 4 * c - 2 + 0 = _; omega]
      exact hbound _ (by omega) (by omega)
    · rw [show 4 * c = 2 * (2 * c) by omega]
      exact hbound _ (by omega) (by omega)
    · rw [show 4 * c + 2 = 2 * (2 * c + 1) by omega]
      exact hbound _ (by omega) le_rfl
  | true =>
    have hc : c = 2 ^ 52 := (of_decide_eq_true hi).1
    subst hc
    exact ⟨Or.inr ⟨rfl, Or.inl rfl⟩, Or.inr ⟨rfl, Or.inr (Or.inl rfl)⟩, Or.inr ⟨rfl, Or.inr (Or.inr rfl)⟩⟩

/-- The decimal exponent of a double -/
def decimalExponent (c : ℕ) (q : ℤ) : ℤ := (exponents q (irregular c q)).1

/-- **The general path chooses by the exact boundaries.** -/
theorem general_eq (D : Decomposed n c q) :
    general c q = choose (c % 2) (roundOdd (lowerBoundary c q (decimalExponent c q)))
      (roundOdd (center c q (decimalExponent c q))) (roundOdd (upperBoundary c q (decimalExponent c q)))
      (decimalExponent c q) := by
  have hfit := fitting_bounds D.low D.high (irregular c q)
  obtain ⟨hl, hc, hu⟩ := boundaries D
  have hl' := boundary_exact hfit hl
  have hc' := boundary_exact hfit hc
  have hu' := boundary_exact hfit hu
  unfold lowerBoundary center upperBoundary decimalExponent
  rw [← hl', ← hc', ← hu']
  rfl

/-- There is a decimal inside the interval. -/
theorem inside_exists (D : Decomposed n c q) :
    ∃ t, Inside (c % 2) (lowerBoundary c q (decimalExponent c q)) (upperBoundary c q (decimalExponent c q)) t := by
  have hfit := fitting_bounds D.low D.high (irregular c q)
  have hpos := D.pos
  unfold lowerBoundary upperBoundary decimalExponent
  cases hi : irregular c q with
  | true =>
    rw [hi] at hfit
    obtain ⟨hc, -⟩ : c = 2 ^ 52 ∧ q ≠ -1074 := of_decide_eq_true hi
    obtain ⟨t, hlow, hhigh⟩ := hfit.between rfl
    have hlow' : ((4 * c - 2 + true.toNat : ℕ) : ℚ) * ratio q (exponents q true).1 ≤ 4 * t := by
      have hcast : ((4 * c - 2 + true.toNat : ℕ) : ℚ) = 2 ^ 54 - 1 := by
        rw [hc]
        norm_num
      rwa [hcast]
    have hhigh' : 4 * t ≤ ((4 * c + 2 : ℕ) : ℚ) * ratio q (exponents q true).1 := by
      have hcast : ((4 * c + 2 : ℕ) : ℚ) = 2 ^ 54 + 2 := by
        rw [hc]
        norm_num
      rwa [hcast]
    have hout : c % 2 = 0 := by
      rw [hc]
      norm_num
    exact ⟨t, hlow'.lt_or_eq.imp_right fun h => ⟨h, hout⟩, hhigh'.lt_or_eq.imp_right fun h => ⟨h, hout⟩⟩
  | false =>
    rw [hi] at hfit
    have hone := hfit.one_le
    have hcast : ((4 * c - 2 + false.toNat : ℕ) : ℚ) = 4 * c - 2 := by
      rw [show 4 * c - 2 + false.toNat = 4 * c - 2 from rfl, Nat.cast_sub (by omega)]
      push_cast
      ring
    have hcast' : ((4 * c + 2 : ℕ) : ℚ) = 4 * c + 2 := by
      push_cast
      ring
    rw [hcast, hcast']
    generalize ratio q (exponents q false).1 = a at hone ⊢
    rcases hone.lt_or_eq with hgt | heq
    · -- the nearest integer
      refine ⟨⌊(c : ℚ) * a + 1 / 2⌋₊, ?_⟩
      have hnonneg : 0 ≤ (c : ℚ) * a + 1 / 2 := by positivity
      have hfloor := Nat.floor_le hnonneg
      have hlt := Nat.lt_floor_add_one ((c : ℚ) * a + 1 / 2)
      exact ⟨Or.inl (by linarith), Or.inl (by linarith)⟩
    · refine ⟨c, ?_⟩
      rw [← heq]
      exact ⟨Or.inl (by linarith), Or.inl (by linarith)⟩

theorem center_bound (D : Decomposed n c q) : center c q (decimalExponent c q) / 4 < 10 ^ 17 - 2 := by
  have hfit := fitting_bounds D.low D.high (irregular c q)
  have hc : (c : ℚ) < 2 ^ 53 := by exact_mod_cast D.lt
  have hpos : (0 : ℚ) < c := by exact_mod_cast D.pos
  have hone := hfit.one_le
  unfold center decimalExponent
  rw [Nat.cast_mul, mul_assoc, Nat.cast_ofNat, mul_div_cancel_left₀ _ (by norm_num)]
  cases hi : irregular c q with
  | true =>
    rw [hi] at hfit
    obtain ⟨rfl, -⟩ : c = 2 ^ 52 ∧ q ≠ -1074 := of_decide_eq_true hi
    have hlt := hfit.lt rfl
    calc ((2 ^ 52 : ℕ) : ℚ) * ratio q (exponents q true).1 ≤ (2 ^ 52 : ℕ) * (41 / 3) :=
          mul_le_mul_of_nonneg_left (by linarith) (Nat.cast_nonneg _)
      _ < 10 ^ 17 - 2 := by norm_num
  | false =>
    rw [hi] at hfit
    have hlt := hfit.lt_ten rfl
    calc (c : ℚ) * ratio q (exponents q false).1 ≤ 2 ^ 53 * 10 := mul_le_mul hc.le hlt.le (ratio_pos _ _).le (by positivity)
      _ < 10 ^ 17 - 2 := by norm_num

end Interval

/-! ### The decimal -/

section Decimals

variable {n c : ℕ} {q : ℤ}

theorem Decomposed.magnitude (D : Decomposed n c q) : Format.double.magnitude n = c * 2 ^ q := by
  have hscale : (2 : ℚ) ^ q * 2 ^ 1074 = 2 ^ (q + 1074).toNat := by
    have hlow := D.low
    rw [← zpow_natCast, ← zpow_natCast, ← zpow_add₀ two_ne_zero]
    congr 1
    push_cast
    omega
  show (scaled 52 n : ℚ) / 2 ^ 1074 = c * 2 ^ q
  have hne : (2 : ℚ) ^ 1074 ≠ 0 := pow_ne_zero _ two_ne_zero
  rw [div_eq_iff hne, mul_assoc, hscale, D.value, Nat.cast_mul, Nat.cast_pow, Nat.cast_two]

theorem center_scale (D : Decomposed n c q) (k : ℤ) : center c q k * 10 ^ k = 4 * Format.double.magnitude n := by
  have h10 : (10 : ℚ) ^ (-k) * 10 ^ k = 1 := by
    rw [← zpow_add₀ (by norm_num), neg_add_cancel, zpow_zero]
  rw [D.magnitude]
  unfold center ratio
  rw [Nat.cast_mul, Nat.cast_ofNat]
  linear_combination 4 * (c : ℚ) * 2 ^ q * h10

/-- The distance of a decimal in units of `10 ^ k` -/
theorem distance_scale (D : Decomposed n c q) (k : ℤ) (t : ℕ) :
    4 * |(t : ℚ) * 10 ^ k - Format.double.magnitude n| = |((4 * t : ℕ) : ℚ) - center c q k| * 10 ^ k := by
  have h10 : (0 : ℚ) < 10 ^ k := by positivity
  rw [← abs_of_pos h10, ← abs_mul, sub_mul, abs_of_pos h10, center_scale D, ← abs_of_pos (show (0 : ℚ) < 4 by norm_num), ← abs_mul,
    abs_of_pos (show (0 : ℚ) < 4 by norm_num)]
  congr 1
  push_cast
  ring

/-- What the decimal of a double with number `n` is -/
structure Shortest (n : ℕ) (d : Decimal) : Prop where
  pos : 0 < d.s
  digits : d.s < 10 ^ 17
  reads : (Format.double.roundMag (d.s * 10 ^ d.k) : ℕ) = n
  closest : ∀ t : ℕ, (Format.double.roundMag (t * 10 ^ d.k) : ℕ) = n →
    |(d.s : ℚ) * 10 ^ d.k - Format.double.magnitude n| ≤ |(t : ℚ) * 10 ^ d.k - Format.double.magnitude n|

/-- A decimal in other units: `w` is one or ten. -/
theorem shortest_of_closest (D : Decomposed n c q) (hn : 0 < n) (htop : n < Format.double.top) {k : ℤ} {w : ℕ} {d : Decimal}
    (hw : ∀ t : ℕ, (t : ℚ) * 10 ^ d.k = ((w * t : ℕ) : ℚ) * 10 ^ k) (hdigits : d.s < 10 ^ 17)
    (h : Closest (c % 2) (lowerBoundary c q k) (center c q k) (upperBoundary c q k) w d.s) : Shortest n d where
  pos := by
    apply Nat.pos_of_ne_zero
    intro hzero
    have hlow := lower_pos (q := q) (k := k) D.pos
    rcases h.inside.low with hl | ⟨hl, -⟩
    · rw [hzero, Nat.mul_zero, Nat.cast_zero] at hl
      linarith
    · rw [hzero, Nat.mul_zero, Nat.cast_zero] at hl
      linarith
  digits := hdigits
  reads := by
    rw [hw]
    exact (reads_iff D hn htop _ k).mpr h.inside
  closest t ht := by
    rw [hw] at ht
    have h10 : (0 : ℚ) < 10 ^ k := by positivity
    have hle := mul_le_mul_of_nonneg_right (h.closest t ((reads_iff D hn htop _ k).mp ht)) h10.le
    rw [← distance_scale D k, ← distance_scale D k] at hle
    rw [hw, hw]
    linarith

/-- With boundaries at one distance a decimal outside the interval is no closer. -/
theorem closest_regular (D : Decomposed n c q) (hi : irregular c q = false) {k : ℤ} {w m : ℕ}
    (h : Closest (c % 2) (lowerBoundary c q k) (center c q k) (upperBoundary c q k) w m) (t : ℕ) :
    |((4 * (w * m) : ℕ) : ℚ) - center c q k| ≤ |((4 * (w * t) : ℕ) : ℚ) - center c q k| := by
  have hlower : lowerBoundary c q k = center c q k - 2 * ratio q k := by
    have hpos := D.pos
    unfold lowerBoundary center
    rw [hi, show 4 * c - 2 + false.toNat = 4 * c - 2 from rfl, Nat.cast_sub (by omega)]
    push_cast
    ring
  have hupper : upperBoundary c q k = center c q k + 2 * ratio q k := by
    unfold upperBoundary center
    push_cast
    ring
  have hratio := ratio_pos q k
  have hcast : ∀ a : ℕ, ((4 * a : ℕ) : ℚ) = 4 * a := fun a => by rw [Nat.cast_mul, Nat.cast_ofNat]
  by_cases hin : Inside (c % 2) (lowerBoundary c q k) (upperBoundary c q k) (w * t)
  · exact h.closest t hin
  · have hnear : |((4 * (w * m) : ℕ) : ℚ) - center c q k| ≤ 2 * ratio q k := by
      rw [abs_le, hcast]
      constructor
      · rcases h.inside.low with hl | ⟨hl, -⟩
        · linarith
        · linarith
      · rcases h.inside.high with hl | ⟨hl, -⟩
        · linarith
        · linarith
    refine hnear.trans ?_
    rw [le_abs, hcast]
    by_contra hnot
    obtain ⟨h1, h2⟩ := not_or.mp hnot
    exact hin ⟨Or.inl (by linarith), Or.inl (by linarith)⟩

/-- The decimal of the general path: its exponent is one of two. -/
theorem general_choice (D : Decomposed n c q) : (general c q).s < 10 ^ 17 ∧ ∃ w : ℕ,
    ((general c q).k = decimalExponent c q ∧ w = 1 ∨ (general c q).k = decimalExponent c q + 1 ∧ w = 10) ∧
      Closest (c % 2) (lowerBoundary c q (decimalExponent c q)) (center c q (decimalExponent c q))
        (upperBoundary c q (decimalExponent c q)) w (general c q).s := by
  obtain ⟨k, hk⟩ : ∃ k, k = decimalExponent c q := ⟨_, rfl⟩
  have hgeneral := general_eq D
  have hexists := inside_exists D
  have hbound := center_bound D
  rw [← hk] at hgeneral hexists hbound ⊢
  obtain ⟨d, hchoose, hle, hclosest⟩ :=
    choose_spec (lower_pos D.pos).le (lower_lt_center D.pos) center_lt_upper (by omega) hexists k
  rw [hgeneral, hchoose]
  have hdigits : d.s < 10 ^ 17 := by
    have hfloor : ⌊center c q k / 4⌋₊ < 10 ^ 17 - 2 := by
      rw [Nat.floor_lt (div_nonneg ((lower_pos D.pos).trans (lower_lt_center D.pos)).le (by norm_num))]
      norm_num at hbound ⊢
      exact hbound
    omega
  refine ⟨hdigits, ?_⟩
  rcases hclosest with ⟨hdk, h⟩ | ⟨hdk, h⟩
  · exact ⟨1, Or.inl ⟨hdk, rfl⟩, h⟩
  · exact ⟨10, Or.inr ⟨hdk, rfl⟩, h⟩

/-- The general path -/
theorem general_shortest (D : Decomposed n c q) (hn : 0 < n) (htop : n < Format.double.top) :
    Shortest n (general c q) ∧ (irregular c q = false → ∀ t : ℕ,
      |((general c q).s : ℚ) * 10 ^ (general c q).k - Format.double.magnitude n| ≤
        |(t : ℚ) * 10 ^ (general c q).k - Format.double.magnitude n|) := by
  obtain ⟨hdigits, w, hcase, hclosest⟩ := general_choice D
  generalize decimalExponent c q = k at hcase hclosest
  have hw : ∀ t : ℕ, (t : ℚ) * 10 ^ (general c q).k = ((w * t : ℕ) : ℚ) * 10 ^ k := by
    intro t
    rcases hcase with ⟨hdk, rfl⟩ | ⟨hdk, rfl⟩
    · rw [hdk, Nat.one_mul]
    · rw [hdk, zpow_add_one₀ (by norm_num)]
      push_cast
      ring
  refine ⟨shortest_of_closest D hn htop hw hdigits hclosest, fun hi t => ?_⟩
  have h10 : (0 : ℚ) < 10 ^ k := by positivity
  have hle' := mul_le_mul_of_nonneg_right (closest_regular D hi hclosest t) h10.le
  rw [← distance_scale D k, ← distance_scale D k] at hle'
  rw [hw, hw]
  linarith

/-- The fast path -/
theorem integer_shortest (D : Decomposed n c q) (htop : n < Format.double.top) (hint : isSmallInteger c q = true) :
    Shortest n ⟨c / 2 ^ (-q).toNat, 0⟩ ∧
      ((c / 2 ^ (-q).toNat : ℕ) : ℚ) * 10 ^ (0 : ℤ) = Format.double.magnitude n := by
  obtain ⟨hq, -, hmod⟩ := of_decide_eq_true hint
  obtain ⟨a, ha⟩ := Nat.dvd_of_mod_eq_zero hmod
  have hpow : 0 < 2 ^ (-q).toNat := Nat.two_pow_pos _
  have hdiv : c / 2 ^ (-q).toNat = a := by
    rw [ha, Nat.mul_div_cancel_left _ hpow]
  have hvalue : ((a : ℕ) : ℚ) * 10 ^ (0 : ℤ) = Format.double.magnitude n := by
    have hinv : ((2 : ℚ) ^ (-q).toNat) * 2 ^ q = 1 := by
      rw [← zpow_natCast, ← zpow_add₀ two_ne_zero, show ((-q).toNat : ℤ) + q = 0 by omega, zpow_zero]
    rw [D.magnitude, ha, zpow_zero]
    push_cast
    linear_combination -(a : ℚ) * hinv
  rw [hdiv]
  refine ⟨⟨?_, ?_, ?_, ?_⟩, hvalue⟩
  · apply Nat.pos_of_ne_zero
    rintro rfl
    have hpos := D.pos
    omega
  · show a < 10 ^ 17
    have hle : a ≤ c := by
      rw [ha]
      exact Nat.le_mul_of_pos_left _ hpow
    have hlt := D.lt
    omega
  · show (Format.double.roundMag ((a : ℚ) * 10 ^ (0 : ℤ)) : ℕ) = n
    rw [hvalue]
    exact congrArg Fin.val (Format.roundMag_magnitude ⟨n, Nat.lt_succ_of_lt htop⟩)
  · intro t _
    show |(a : ℚ) * 10 ^ (0 : ℤ) - _| ≤ _
    rw [hvalue, sub_self, abs_zero]
    exact abs_nonneg _

/-- The boundaries as they are compared: each with what it stands for -/
def compared (c : ℕ) (q : ℤ) : List (ℕ × ℚ) :=
  [(4 * c - 2 + (irregular c q).toNat, lowerBoundary c q (decimalExponent c q)), (4 * c, center c q (decimalExponent c q)),
    (4 * c + 2, upperBoundary c q (decimalExponent c q))]

theorem compared_exact (D : Decomposed n c q) {cp : ℕ} {x : ℚ} (h : (cp, x) ∈ compared c q) :
    roundodd (pow10 (decimalExponent c q)).1 (pow10 (decimalExponent c q)).2
      (cp * 2 ^ (exponents q (irregular c q)).2.toNat % 2 ^ 64) = roundOdd x := by
  have hfit := fitting_bounds D.low D.high (irregular c q)
  obtain ⟨hl, hc, hu⟩ := boundaries D
  rcases List.mem_cons.mp h with heq | h
  · obtain ⟨rfl, rfl⟩ := Prod.mk.inj heq
    exact boundary_exact hfit hl
  rcases List.mem_cons.mp h with heq | h
  · obtain ⟨rfl, rfl⟩ := Prod.mk.inj heq
    exact boundary_exact hfit hc
  · obtain ⟨rfl, rfl⟩ := Prod.mk.inj (List.mem_singleton.mp h)
    exact boundary_exact hfit hu

theorem schubfach_eq {exponent fraction : ℕ} (h : decompose exponent fraction = (c, q)) :
    schubfach exponent fraction = if isSmallInteger c q = true then ⟨c / 2 ^ (-q).toNat, 0⟩ else general c q := by
  unfold schubfach
  rw [h]

/-- **`schubfach`**: the decimal is read as the double, with rounding to the nearest and to the even one of two, it has at most 17
digits, and no decimal with the same exponent that is read as the double is closer.  Unless the double is a power of two no decimal
with the same exponent is closer at all.  The boundaries that are compared are the exact ones rounded to odd. -/
theorem schubfach_shortest (hn : 0 < n) (htop : n < Format.double.top) (hdecompose : decompose (n / 2 ^ 52) (n % 2 ^ 52) = (c, q)) :
    ∃ d, schubfach (n / 2 ^ 52) (n % 2 ^ 52) = d ∧ Shortest n d ∧
      (irregular c q = false → ∀ t : ℕ, |(d.s : ℚ) * 10 ^ d.k - Format.double.magnitude n| ≤
        |(t : ℚ) * 10 ^ d.k - Format.double.magnitude n|) ∧
      ∀ cp x, (cp, x) ∈ compared c q → roundodd (pow10 (decimalExponent c q)).1 (pow10 (decimalExponent c q)).2
          (cp * 2 ^ (exponents q (irregular c q)).2.toNat % 2 ^ 64) = roundOdd x := by
  have D := decompose_spec hn htop
  rw [hdecompose] at D
  rw [schubfach_eq hdecompose]
  by_cases hint : isSmallInteger c q = true
  · obtain ⟨hshortest, hvalue⟩ := integer_shortest D htop hint
    rw [if_pos hint]
    refine ⟨_, rfl, hshortest, fun _ t => ?_, fun cp x h => compared_exact D h⟩
    show |((c / 2 ^ (-q).toNat : ℕ) : ℚ) * 10 ^ (0 : ℤ) - Format.double.magnitude n| ≤ _
    rw [hvalue, sub_self, abs_zero]
    exact abs_nonneg _
  · obtain ⟨hshortest, hclosest⟩ := general_shortest D hn htop
    rw [if_neg hint]
    exact ⟨_, rfl, hshortest, hclosest, fun cp x h => compared_exact D h⟩

/-- `2 ^ -44` -/
theorem schubfach_power : schubfach 979 0 = ⟨5684341886080802, -29⟩ := by decide +kernel

theorem schubfach_shortest_power : ∃ d, schubfach 979 0 = d ∧ Shortest (979 * 2 ^ 52) d := by
  obtain ⟨d, hd, hshortest, -⟩ := schubfach_shortest (n := 979 * 2 ^ 52) (c := 2 ^ 52) (q := -96) (by norm_num)
    (show 979 * 2 ^ 52 < 2047 * 2 ^ 52 by norm_num) (by decide)
  exact ⟨d, hd, hshortest⟩

/-- The decimal of `2 ^ -44` is not the closest of 16 digits: the one before it is closer, but is read as another double. -/
theorem power_not_closest : ∃ t : ℕ, 10 ^ 15 ≤ t ∧ t < 10 ^ 16 ∧
    |(t : ℚ) * 10 ^ (schubfach 979 0).k - Format.double.magnitude (979 * 2 ^ 52)| <
      |((schubfach 979 0).s : ℚ) * 10 ^ (schubfach 979 0).k - Format.double.magnitude (979 * 2 ^ 52)| := by
  have D : Decomposed (979 * 2 ^ 52) (2 ^ 52) (-96) :=
    decompose_spec (by norm_num) (show 979 * 2 ^ 52 < 2047 * 2 ^ 52 by norm_num)
  refine ⟨5684341886080801, by norm_num, by norm_num, ?_⟩
  rw [schubfach_power, D.magnitude]
  norm_num

end Decimals

end Luwu.NumPrint
