import Mathlib.Tactic

/-!
# Machine arithmetic with its faults

Signed arithmetic of a fixed width that stops where the result does not fit, shifts that stop where
the amount is not below the width, and the meaning of masks, fields and shifts of words.  A word is
read as bits where a field is meant and as a number where a shift is.
-/

namespace Luwu.Checked

inductive Fault
  | overflow
  | amount
deriving DecidableEq

variable {w : ℕ} {a b i : ℤ} {x y : BitVec w}

def Fits (w : ℕ) (a : ℤ) : Prop := -2 ^ (w - 1) ≤ a ∧ a < 2 ^ (w - 1)

instance : Decidable (Fits w a) := by
  unfold Fits
  infer_instance

def add (w : ℕ) (a b : ℤ) : Except Fault ℤ := if Fits w (a + b) then .ok (a + b) else .error .overflow

def sub (w : ℕ) (a b : ℤ) : Except Fault ℤ := if Fits w (a - b) then .ok (a - b) else .error .overflow

def neg (w : ℕ) (a : ℤ) : Except Fault ℤ := if Fits w (-a) then .ok (-a) else .error .overflow

def shl (x : BitVec w) (i : ℤ) : Except Fault (BitVec w) :=
  if 0 ≤ i ∧ i < w then .ok (x <<< i.toNat) else .error .amount

def shr (x : BitVec w) (i : ℤ) : Except Fault (BitVec w) :=
  if 0 ≤ i ∧ i < w then .ok (x >>> i.toNat) else .error .amount

/-- The shift of a signed word -/
def sar (x : BitVec w) (i : ℤ) : Except Fault (BitVec w) :=
  if 0 ≤ i ∧ i < w then .ok (x.sshiftRight i.toNat) else .error .amount

theorem add_ok (h : Fits w (a + b)) : add w a b = .ok (a + b) := if_pos h

theorem add_overflow (h : ¬Fits w (a + b)) : add w a b = .error .overflow := if_neg h

theorem sub_ok (h : Fits w (a - b)) : sub w a b = .ok (a - b) := if_pos h

theorem neg_ok (h : Fits w (-a)) : neg w a = .ok (-a) := if_pos h

theorem neg_overflow (h : ¬Fits w (-a)) : neg w a = .error .overflow := if_neg h

theorem shl_ok (h : 0 ≤ i ∧ i < w) : shl x i = .ok (x <<< i.toNat) := if_pos h

theorem shr_ok (h : 0 ≤ i ∧ i < w) : shr x i = .ok (x >>> i.toNat) := if_pos h

theorem sar_ok (h : 0 ≤ i ∧ i < w) : sar x i = .ok (x.sshiftRight i.toNat) := if_pos h

/-- Only the least number has no negative. -/
theorem fits_neg_iff (h : Fits w a) : Fits w (-a) ↔ a ≠ -2 ^ (w - 1) := by
  obtain ⟨hlo, hhi⟩ := h
  have hpow : (0 : ℤ) < 2 ^ (w - 1) := by positivity
  constructor
  · intro hneg heq
    have := hneg.2
    omega
  · intro hne
    exact ⟨by omega, by omega⟩

/-! ### Fields -/

/-- The `n` low bits -/
def lowMask (w n : ℕ) : BitVec w := BitVec.ofNat w (2 ^ n - 1)

@[simp] theorem getLsbD_lowMask (n k : ℕ) : (lowMask w n).getLsbD k = (decide (k < w) && decide (k < n)) := by
  rw [lowMask, BitVec.getLsbD_ofNat, Nat.testBit_two_pow_sub_one]

/-- The number in the bits `f .. f + n - 1` -/
def field (x : BitVec w) (f n : ℕ) : BitVec w := BitVec.ofNat w (x.toNat / 2 ^ f % 2 ^ n)

theorem getLsbD_field (x : BitVec w) (f n k : ℕ) :
    (field x f n).getLsbD k = (decide (k < w) && decide (k < n) && x.getLsbD (f + k)) := by
  rw [field, BitVec.getLsbD_ofNat, Nat.testBit_mod_two_pow, ← Nat.shiftRight_eq_div_pow, Nat.testBit_shiftRight,
    Bool.and_assoc]
  rfl

/-- The word `r` is `x` with the bits `f .. f + n - 1` taken from `v`. -/
def Replaced (x v : BitVec w) (f n : ℕ) (r : BitVec w) : Prop :=
  ∀ k < w, r.getLsbD k = if f ≤ k ∧ k < f + n then v.getLsbD (k - f) else x.getLsbD k

theorem shr_and_lowMask (x : BitVec w) (f n : ℕ) : x >>> f &&& lowMask w n = field x f n := by
  apply BitVec.eq_of_getLsbD_eq
  intro k hk
  rw [BitVec.getLsbD_and, BitVec.getLsbD_ushiftRight, getLsbD_lowMask, getLsbD_field]
  simp only [hk, decide_true, Bool.true_and]
  exact Bool.and_comm _ _

/-- A mask from a word of ones that is shifted up and inverted -/
theorem not_shl_allOnes (n : ℕ) (hn : 0 < n) : ~~~(BitVec.allOnes w <<< 1 <<< (n - 1)) = lowMask w n := by
  apply BitVec.eq_of_getLsbD_eq
  intro k hk
  rw [BitVec.getLsbD_not, BitVec.getLsbD_shiftLeft, BitVec.getLsbD_shiftLeft, BitVec.getLsbD_allOnes, getLsbD_lowMask]
  by_cases hkn : k < n
  · have hshift : k < n - 1 ∨ k - (n - 1) < 1 := by omega
    rcases hshift with hlt | hlt <;> simp [hk, hkn, hlt]
  · have h1 : ¬k < n - 1 := by omega
    have h2 : ¬k - (n - 1) < 1 := by omega
    have h3 : k - (n - 1) - 1 < w := by omega
    have h4 : k - (n - 1) < w := by omega
    simp [hk, hkn, h1, h2, h3, h4]

/-- A mask from a word of ones that is shifted down -/
theorem shr_allOnes (n : ℕ) (hn : n ≤ w) : BitVec.allOnes w >>> (w - n) = lowMask w n := by
  apply BitVec.eq_of_getLsbD_eq
  intro k hk
  rw [BitVec.getLsbD_ushiftRight, BitVec.getLsbD_allOnes, getLsbD_lowMask]
  simp only [hk, decide_true, Bool.true_and, decide_eq_decide]
  omega

theorem replaced_of_masks (x v : BitVec w) (f n : ℕ) :
    Replaced x v f n (x &&& ~~~(lowMask w n <<< f) ||| (v &&& lowMask w n) <<< f) := by
  intro k hk
  rw [BitVec.getLsbD_or, BitVec.getLsbD_and, BitVec.getLsbD_not, BitVec.getLsbD_shiftLeft, BitVec.getLsbD_shiftLeft,
    BitVec.getLsbD_and, getLsbD_lowMask]
  have hlt : k - f < w := by omega
  by_cases hf : f ≤ k
  · have hnot : ¬k < f := by omega
    by_cases hn : k < f + n
    · have hin : k - f < n := by omega
      simp [hk, hlt, hf, hn, hnot, hin]
    · have hin : ¬k - f < n := by omega
      simp [hk, hn, hnot, hin]
  · have hbelow : k < f := by omega
    simp [hk, hf, hbelow]

/-! ### Shifts -/

/-- The number `⌊z * 2 ^ i⌋` -/
def shifted (z i : ℤ) : ℤ := ⌊(z : ℚ) * 2 ^ i⌋

theorem shifted_natCast (z : ℤ) (k : ℕ) : shifted z k = z * 2 ^ k := by
  rw [shifted, zpow_natCast]
  exact_mod_cast Int.floor_intCast (R := ℚ) (z * 2 ^ k)

theorem shifted_neg (z : ℤ) (k : ℕ) : shifted z (-k) = z / 2 ^ k := by
  rw [shifted, zpow_neg, zpow_natCast, ← div_eq_mul_inv]
  have hfloor := Rat.floor_intCast_div_natCast z (2 ^ k)
  push_cast at hfloor
  exact hfloor

theorem shl_eq_shifted (x : BitVec w) (k : ℕ) : x <<< k = BitVec.ofInt w (shifted x.toNat k) := by
  rw [shifted_natCast]
  apply BitVec.eq_of_toNat_eq
  rw [BitVec.toNat_shiftLeft, Nat.shiftLeft_eq, BitVec.toNat_ofInt]
  have hcast : ((x.toNat : ℤ) * 2 ^ k) = ((x.toNat * 2 ^ k : ℕ) : ℤ) := by push_cast; rfl
  rw [hcast, ← Int.natCast_emod, Int.toNat_natCast]

theorem shr_eq_shifted (x : BitVec w) (k : ℕ) : x >>> k = BitVec.ofInt w (shifted x.toNat (-k)) := by
  rw [shifted_neg]
  apply BitVec.eq_of_toNat_eq
  have hcast : ((x.toNat : ℤ) / 2 ^ k) = ((x.toNat / 2 ^ k : ℕ) : ℤ) := by push_cast; rfl
  have hlt : x.toNat / 2 ^ k < 2 ^ w := lt_of_le_of_lt (Nat.div_le_self _ _) x.isLt
  rw [BitVec.toNat_ushiftRight, Nat.shiftRight_eq_div_pow, BitVec.toNat_ofInt, hcast, ← Int.natCast_emod,
    Int.toNat_natCast, Nat.mod_eq_of_lt hlt]

theorem sar_eq_shifted (x : BitVec w) (k : ℕ) : x.sshiftRight k = BitVec.ofInt w (shifted x.toInt (-k)) := by
  rw [shifted_neg, BitVec.sshiftRight_eq]
  congr 1
  exact Int.shiftRight_eq_div_pow _ _

/-- All bits are shifted out at the top. -/
theorem shifted_up_out (z : ℤ) {k : ℕ} (h : w ≤ k) : BitVec.ofInt w (shifted z k) = 0 := by
  rw [shifted_natCast]
  apply BitVec.eq_of_toNat_eq
  have hdvd : ((2 ^ w : ℕ) : ℤ) ∣ z * 2 ^ k := by
    push_cast
    exact Dvd.dvd.mul_left (pow_dvd_pow 2 h) z
  rw [BitVec.toNat_ofInt, Int.emod_eq_zero_of_dvd hdvd]
  rfl

/-- All bits are shifted out at the bottom. -/
theorem shifted_down_out {n k : ℕ} (hn : n < 2 ^ w) (h : w ≤ k) : shifted n (-k) = 0 := by
  rw [shifted_neg]
  apply Int.ediv_eq_zero_of_lt (Int.natCast_nonneg n)
  have hle : 2 ^ w ≤ 2 ^ k := Nat.pow_le_pow_right (by decide) h
  exact_mod_cast lt_of_lt_of_le hn hle

/-- Of a negative number only the sign is left. -/
theorem shifted_down_sign {x : BitVec w} {k : ℕ} (hx : x.toInt < 0) (h : w ≤ k) : shifted x.toInt (-k) = -1 := by
  rw [shifted_neg]
  have hlo := BitVec.le_toInt x
  have hle : (2 : ℤ) ^ (w - 1) ≤ 2 ^ k := pow_le_pow_right₀ (by decide) (by omega)
  have hpos : (0 : ℤ) < 2 ^ k := by positivity
  have hge : -1 ≤ x.toInt / 2 ^ k := Int.le_ediv_of_mul_le hpos (by omega)
  have hlt : x.toInt / 2 ^ k < 0 := Int.ediv_neg_of_neg_of_pos hx hpos
  omega

/-- Shifted up, a word is the same read with its sign or without. -/
theorem shifted_up_toInt (x : BitVec w) (k : ℕ) :
    BitVec.ofInt w (shifted x.toInt k) = BitVec.ofInt w (shifted x.toNat k) := by
  rw [shifted_natCast, shifted_natCast]
  apply BitVec.eq_of_toInt_eq
  rw [BitVec.toInt_ofInt, BitVec.toInt_ofInt, BitVec.toInt_eq_toNat_bmod, Int.bmod_mul_bmod]

end Luwu.Checked
