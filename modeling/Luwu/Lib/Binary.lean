import Mathlib.Data.Nat.Log
import Mathlib.Tactic.Ring
import Mathlib.Tactic.Linarith

/-!
# IEEE 754 interchange formats: equality and integers

A floating-point number is its word of bits.  The top bit is the sign and the rest, read as a natural
number, is the *magnitude*; magnitudes are ordered as the values are, zero has magnitude `0`, and
everything above the magnitude of infinity is a NaN.  The comparison `==` of the C family is then
`feq`: no NaN on either side, and equal words or two zeros.

For binary64 the file adds the two conversions with integers that programs lean on: `Double.trunc`
(drop the fraction) and `Double.ofInt` (exact for `|i| < 2 ^ 53`), and that one undoes the other.
-/

namespace Luwu.Binary

section Format

variable {w : ℕ}

/-- The word without its sign bit. -/
def mag (b : BitVec (w + 1)) : ℕ := b.toNat % 2 ^ w

/-- The sign bit. -/
def neg (b : BitVec (w + 1)) : Bool := decide (2 ^ w ≤ b.toNat)

/-- Magnitudes above infinity's are NaNs. -/
def isNaN (inf : ℕ) (b : BitVec (w + 1)) : Bool := decide (inf < mag b)

/-- Floating-point equality: NaN equals nothing, and the two zeros are equal. -/
def feq (inf : ℕ) (a b : BitVec (w + 1)) : Bool :=
  !isNaN inf a && !isNaN inf b && (decide (a = b) || (decide (mag a = 0) && decide (mag b = 0)))

variable {inf : ℕ} {a b c : BitVec (w + 1)}

theorem feq_iff : feq inf a b = true ↔
    isNaN inf a = false ∧ isNaN inf b = false ∧ (a = b ∨ (mag a = 0 ∧ mag b = 0)) := by
  simp only [feq, Bool.and_eq_true, Bool.not_eq_true', Bool.or_eq_true, decide_eq_true_eq, and_assoc]

theorem feq_refl (h : isNaN inf a = false) : feq inf a a = true :=
  feq_iff.mpr ⟨h, h, Or.inl rfl⟩

theorem feq_symm (h : feq inf a b = true) : feq inf b a = true := by
  obtain ⟨ha, hb, hab⟩ := feq_iff.mp h
  exact feq_iff.mpr ⟨hb, ha, hab.imp Eq.symm And.symm⟩

theorem feq_trans (hab : feq inf a b = true) (hbc : feq inf b c = true) : feq inf a c = true := by
  obtain ⟨ha, _, h1⟩ := feq_iff.mp hab
  obtain ⟨_, hc, h2⟩ := feq_iff.mp hbc
  refine feq_iff.mpr ⟨ha, hc, ?_⟩
  rcases h1 with rfl | ⟨h1, h1'⟩
  · exact h2
  · rcases h2 with rfl | ⟨_, h2'⟩
    · exact Or.inr ⟨h1, h1'⟩
    · exact Or.inr ⟨h1, h2'⟩

/-- Equal numbers have the same magnitude. -/
theorem mag_eq_of_feq (h : feq inf a b = true) : mag a = mag b := by
  rcases (feq_iff.mp h).2.2 with h | ⟨ha, hb⟩
  · rw [h]
  · rw [ha, hb]

theorem not_nan_of_feq (h : feq inf a b = true) : isNaN inf a = false := (feq_iff.mp h).1

end Format

end Luwu.Binary

namespace Luwu

/-- An IEEE binary64 number, as its bits. -/
structure Double where
  bits : BitVec 64
deriving DecidableEq

/-- An IEEE binary32 number, as its bits. -/
structure Single where
  bits : BitVec 32
deriving DecidableEq

namespace Single

/-- The magnitude of binary32 infinity. -/
def infMag : ℕ := 255 * 2 ^ 23

def isNaN (a : Single) : Bool := Binary.isNaN (w := 31) infMag a.bits

def eq (a b : Single) : Bool := Binary.feq (w := 31) infMag a.bits b.bits

end Single

namespace Double

open Binary

/-- The magnitude of binary64 infinity. -/
def infMag : ℕ := 2047 * 2 ^ 52

def isNaN (a : Double) : Bool := Binary.isNaN (w := 63) infMag a.bits

def eq (a b : Double) : Bool := Binary.feq (w := 63) infMag a.bits b.bits

/-- The magnitude of a double. -/
def mag (a : Double) : ℕ := Binary.mag (w := 63) a.bits

def neg (a : Double) : Bool := Binary.neg (w := 63) a.bits

/-- The integer part of the absolute value. -/
def truncMag (a : Double) : ℕ :=
  if a.mag / 2 ^ 52 < 1023 then 0
  else (2 ^ 52 + a.mag % 2 ^ 52) * 2 ^ (a.mag / 2 ^ 52 - 1023) / 2 ^ 52

/-- The number with its fraction dropped. -/
def trunc (a : Double) : ℤ := if a.neg then -(a.truncMag : ℤ) else a.truncMag

/-- The bits of the magnitude of a natural number below `2 ^ 53`. -/
def magOfNat (n : ℕ) : ℕ :=
  if n = 0 then 0 else (1023 + Nat.log 2 n) * 2 ^ 52 + (n * 2 ^ (52 - Nat.log 2 n) - 2 ^ 52)

/-- An integer as a double; exact for `|i| < 2 ^ 53`. -/
def ofInt (i : ℤ) : Double :=
  ⟨BitVec.ofNat 64 ((if i < 0 then 2 ^ 63 else 0) + magOfNat i.natAbs)⟩

/-- The significand of a natural number below `2 ^ 53`, aligned to 53 bits. -/
theorem significand_bounds {n : ℕ} (hn : n ≠ 0) (hlt : n < 2 ^ 53) :
    2 ^ 52 ≤ n * 2 ^ (52 - Nat.log 2 n) ∧ n * 2 ^ (52 - Nat.log 2 n) < 2 ^ 53 := by
  have hlog : Nat.log 2 n ≤ 52 := by
    have := Nat.log_lt_of_lt_pow hn hlt
    omega
  have hlo : 2 ^ Nat.log 2 n ≤ n := Nat.pow_log_le_self 2 hn
  have hhi : n < 2 ^ (Nat.log 2 n + 1) := Nat.lt_pow_succ_log_self (by decide) n
  have hpow : (2 : ℕ) ^ Nat.log 2 n * 2 ^ (52 - Nat.log 2 n) = 2 ^ 52 := by
    rw [← pow_add]
    congr 1
    omega
  have hpow' : (2 : ℕ) ^ (Nat.log 2 n + 1) * 2 ^ (52 - Nat.log 2 n) = 2 ^ 53 := by
    rw [pow_succ, Nat.mul_assoc, Nat.mul_comm 2, ← Nat.mul_assoc, hpow]
    norm_num
  constructor
  · rw [← hpow]
    exact Nat.mul_le_mul_right _ hlo
  · rw [← hpow']
    exact Nat.mul_lt_mul_of_pos_right hhi (by positivity)

theorem magOfNat_lt {n : ℕ} (hlt : n < 2 ^ 53) : magOfNat n < infMag := by
  unfold magOfNat infMag
  split
  · norm_num
  · rename_i hn
    have hlog : Nat.log 2 n ≤ 52 := by
      have := Nat.log_lt_of_lt_pow hn hlt
      omega
    have := significand_bounds hn hlt
    omega

theorem ofInt_toNat {i : ℤ} (h : i.natAbs < 2 ^ 53) :
    (ofInt i).bits.toNat = (if i < 0 then 2 ^ 63 else 0) + magOfNat i.natAbs := by
  have := magOfNat_lt h
  unfold infMag at this
  rw [ofInt, BitVec.toNat_ofNat, Nat.mod_eq_of_lt]
  split <;> omega

theorem ofInt_mag {i : ℤ} (h : i.natAbs < 2 ^ 53) : (ofInt i).mag = magOfNat i.natAbs := by
  have := magOfNat_lt h
  unfold infMag at this
  rw [mag, Binary.mag, ofInt_toNat h]
  split <;> omega

theorem ofInt_neg {i : ℤ} (h : i.natAbs < 2 ^ 53) : (ofInt i).neg = decide (i < 0) := by
  have := magOfNat_lt h
  unfold infMag at this
  rw [neg, Binary.neg, ofInt_toNat h, decide_eq_decide]
  split
  · rename_i hi
    simp [hi]
  · rename_i hi
    simp only [hi, iff_false, not_le]
    omega

theorem ofInt_not_nan {i : ℤ} (h : i.natAbs < 2 ^ 53) : (ofInt i).isNaN = false := by
  have := magOfNat_lt h
  have hm := ofInt_mag h
  rw [mag] at hm
  rw [isNaN, Binary.isNaN, hm]
  simp only [decide_eq_false_iff_not, not_lt]
  omega

/-- The integer part of a natural number's double is the number. -/
theorem truncMag_ofInt {i : ℤ} (h : i.natAbs < 2 ^ 53) : (ofInt i).truncMag = i.natAbs := by
  rw [truncMag, ofInt_mag h]
  unfold magOfNat
  by_cases hn : i.natAbs = 0
  · simp [hn]
  · rw [if_neg hn]
    obtain ⟨hlo, hhi⟩ := significand_bounds hn h
    have hlog : Nat.log 2 i.natAbs ≤ 52 := by
      have := Nat.log_lt_of_lt_pow hn h
      omega
    generalize hL : Nat.log 2 i.natAbs = L at *
    have hdiv : ((1023 + L) * 2 ^ 52 + (i.natAbs * 2 ^ (52 - L) - 2 ^ 52)) / 2 ^ 52 = 1023 + L := by
      omega
    have hmod : ((1023 + L) * 2 ^ 52 + (i.natAbs * 2 ^ (52 - L) - 2 ^ 52)) % 2 ^ 52
        = i.natAbs * 2 ^ (52 - L) - 2 ^ 52 := by
      omega
    rw [hdiv, hmod, if_neg (by omega), show 1023 + L - 1023 = L from by omega,
      show 2 ^ 52 + (i.natAbs * 2 ^ (52 - L) - 2 ^ 52) = i.natAbs * 2 ^ (52 - L) from by omega,
      Nat.mul_assoc, ← pow_add, show 52 - L + L = 52 from by omega]
    exact Nat.mul_div_cancel _ (by positivity)

/-- **Integers survive the round trip.** -/
theorem trunc_ofInt {i : ℤ} (h : i.natAbs < 2 ^ 53) : (ofInt i).trunc = i := by
  rw [trunc, ofInt_neg h, truncMag_ofInt h]
  by_cases hi : i < 0
  · simp only [hi, decide_true, if_true]
    omega
  · simp only [hi, decide_false, Bool.false_eq_true, if_false]
    omega

/-- Equal numbers have the same integer part; the two zeros both have `0`. -/
theorem trunc_eq_of_eq {a b : Double} (h : a.eq b = true) : a.trunc = b.trunc := by
  have hm : a.mag = b.mag := mag_eq_of_feq h
  have ht : a.truncMag = b.truncMag := by
    unfold truncMag
    rw [hm]
  rcases (feq_iff.mp h).2.2 with hab | ⟨h0, _⟩
  · have : a.neg = b.neg := by
      unfold neg
      rw [hab]
    rw [trunc, trunc, this, ht]
  · have h0' : a.truncMag = 0 := by
      have : a.mag = 0 := h0
      rw [truncMag, this]
      norm_num
    rw [trunc, trunc, ← ht, h0']
    simp

theorem eq_refl {a : Double} (h : a.isNaN = false) : a.eq a = true := feq_refl h

theorem eq_symm {a b : Double} (h : a.eq b = true) : b.eq a = true := feq_symm h

theorem eq_trans {a b c : Double} (hab : a.eq b = true) (hbc : b.eq c = true) : a.eq c = true :=
  feq_trans hab hbc

theorem not_nan_of_eq {a b : Double} (h : a.eq b = true) : a.isNaN = false := not_nan_of_feq h

/-- Distinct integers are distinct doubles. -/
theorem ofInt_eq_iff {i j : ℤ} (hi : i.natAbs < 2 ^ 53) (hj : j.natAbs < 2 ^ 53) :
    (ofInt i).eq (ofInt j) = true ↔ i = j := by
  constructor
  · intro h
    have := trunc_eq_of_eq h
    rwa [trunc_ofInt hi, trunc_ofInt hj] at this
  · rintro rfl
    exact eq_refl (ofInt_not_nan hi)

end Double

namespace Single

theorem eq_refl {a : Single} (h : a.isNaN = false) : a.eq a = true := Binary.feq_refl h

theorem eq_symm {a b : Single} (h : a.eq b = true) : b.eq a = true := Binary.feq_symm h

theorem eq_trans {a b c : Single} (hab : a.eq b = true) (hbc : b.eq c = true) : a.eq c = true :=
  Binary.feq_trans hab hbc

theorem not_nan_of_eq {a b : Single} (h : a.eq b = true) : a.isNaN = false :=
  Binary.not_nan_of_feq h

end Single

end Luwu
