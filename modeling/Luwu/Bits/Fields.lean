import Luwu.Bits.Core
import Luwu.Table.Invariant

/-!
# Fields and displacements of `bit32` and `integer`

What each function answers is a field of its word or the word shifted, on every argument where no sum and
no negative leaves the native type; there the run stops at the overflow.
-/

namespace Luwu

open Checked

variable {α β : Type}

@[simp] theorem lift_ok (a : α) : (liftM (Except.ok a : Except Fault α) : Except ArgStop α) = .ok a := rfl

@[simp] theorem lift_error (e : Fault) :
    (liftM (Except.error e : Except Fault α) : Except ArgStop α) = .error (.undefined e) := rfl

@[simp] theorem ok_bind {ε : Type} (a : α) (f : α → Except ε β) : (Except.ok a >>= f) = f a := rfl

@[simp] theorem error_bind {ε : Type} (e : ε) (f : α → Except ε β) : (Except.error e >>= f) = .error e := rfl

/-! ### Shifts -/

@[simp] theorem trim_eq (x : BitVec 32) : trim x = x := BitVec.and_allOnes

/-- A displacement that has a negative -/
def Displacement (i : ℤ) : Prop := Fits 32 i ∧ i ≠ -2 ^ 31

theorem b_shift_eq (r : BitVec 32) {i : ℤ} (hi : Displacement i) :
    b_shift r i = .ok (BitVec.ofInt 32 (shifted r.toNat i)) := by
  obtain ⟨hfits, hleast⟩ := hi
  unfold b_shift
  split
  · next hneg =>
    obtain ⟨k, rfl⟩ : ∃ k : ℕ, i = -k := ⟨i.natAbs, by omega⟩
    rw [neg_ok ((fits_neg_iff hfits).mpr hleast), lift_ok, ok_bind, trim_eq, neg_neg]
    split
    · next hbig =>
      rw [shifted_down_out r.isLt (by unfold NBITS at hbig; omega)]
      rfl
    · next hsmall =>
      show (liftM (shr r k) : Except ArgStop (BitVec 32)) = _
      rw [shr_ok ⟨by omega, by unfold NBITS at hsmall; omega⟩, lift_ok, Int.toNat_natCast, shr_eq_shifted]
  · next hneg =>
    obtain ⟨k, rfl⟩ : ∃ k : ℕ, i = k := ⟨i.toNat, by omega⟩
    split
    · next hbig =>
      rw [shifted_up_out _ (by unfold NBITS at hbig; omega)]
      rfl
    · next hsmall =>
      rw [shl_ok ⟨by omega, by unfold NBITS at hsmall; omega⟩, lift_ok, ok_bind, Int.toNat_natCast, shl_eq_shifted,
        trim_eq]
      rfl

theorem b_shift_least (r : BitVec 32) : b_shift r (-2 ^ 31) = .error (.undefined .overflow) := by
  unfold b_shift
  rw [if_pos (by decide), neg_overflow (by decide)]
  rfl

theorem displacement_neg {i : ℤ} (hi : Displacement i) : Displacement (-i) := by
  obtain ⟨⟨hlo, hhi⟩, hleast⟩ := hi
  norm_num at hlo hhi hleast
  exact ⟨⟨by norm_num; omega, by norm_num; omega⟩, by norm_num; omega⟩

theorem displacement_iff (x : Double) : Displacement (luai_num2int x) ↔ luai_num2int x ≠ -2 ^ 31 :=
  ⟨And.right, fun h => ⟨luai_num2int_range x, h⟩⟩

theorem and_signBit (r : BitVec 32) : r &&& 0x80000000#32 = 0 ↔ 0 ≤ r.toInt := by
  have hpow : (0x80000000#32) = BitVec.twoPow 32 31 := by decide
  have hmsb : r.getLsbD 31 = decide (r.toInt < 0) := by
    rw [← BitVec.msb_eq_toInt, BitVec.msb_eq_getLsbD_last]
  rw [hpow, BitVec.and_twoPow, hmsb]
  by_cases hneg : r.toInt < 0
  · simp only [hneg, decide_true, if_true]
    constructor
    · intro h
      exact absurd h (by decide)
    · intro h
      omega
  · simp only [hneg, decide_false]
    constructor
    · intro _
      omega
    · intro _
      rfl

theorem sar_bits (r : BitVec 32) (k : ℕ) (hr : r.toInt < 0) :
    r >>> k ||| ~~~(~~~0#32 >>> k) = r.sshiftRight k := by
  have hmsb : r.msb = true := by
    rw [BitVec.msb_eq_toInt]
    exact decide_eq_true hr
  apply BitVec.eq_of_getLsbD_eq
  intro j hj
  rw [BitVec.getLsbD_or, BitVec.getLsbD_not, BitVec.getLsbD_ushiftRight, BitVec.getLsbD_ushiftRight,
    BitVec.getLsbD_not, BitVec.getLsbD_sshiftRight]
  have hle : ¬32 ≤ j := by omega
  by_cases hin : k + j < 32
  · simp [hin, hle]
  · have hout : r.getLsbD (k + j) = false := BitVec.getLsbD_of_ge r (k + j) (by omega)
    simp [hin, hj, hle, hmsb]

/-- What an arithmetic shift of a word with a clear sign bit does is what the shift of the number does. -/
theorem toInt_of_nonneg {r : BitVec 32} (hr : 0 ≤ r.toInt) : r.toInt = r.toNat := by
  have hmsb : r.msb = false := by
    rw [BitVec.msb_eq_toInt]
    exact decide_eq_false (by omega)
  exact BitVec.toInt_eq_toNat_of_msb hmsb

section Library

variable (x y : Double)

theorem b_lshift_eq (hi : Displacement (luai_num2int y)) :
    b_lshift [.number x, .number y] =
      .ok (BitVec.ofInt 32 (shifted (luai_num2unsigned x).toNat (luai_num2int y))) :=
  b_shift_eq _ hi

theorem b_rshift_eq (hi : Displacement (luai_num2int y)) :
    b_rshift [.number x, .number y] =
      .ok (BitVec.ofInt 32 (shifted (luai_num2unsigned x).toNat (-luai_num2int y))) := by
  show (liftM (neg 32 (luai_num2int y)) >>= fun i => b_shift (luai_num2unsigned x) i) = _
  rw [neg_ok (displacement_neg hi).1, lift_ok, ok_bind]
  exact b_shift_eq _ (displacement_neg hi)

theorem b_arshift_run :
    b_arshift [.number x, .number y] =
      if luai_num2int y < 0 ∨ 0 ≤ (luai_num2unsigned x).toInt then
        (liftM (neg 32 (luai_num2int y)) >>= fun i => b_shift (luai_num2unsigned x) i)
      else if NBITS ≤ luai_num2int y then .ok ALLONES
      else do
        let low ← shr (luai_num2unsigned x) (luai_num2int y)
        let ones ← shr (~~~0#32) (luai_num2int y)
        return trim (low ||| ~~~ones) := by
  simp only [← and_signBit]
  rfl

theorem b_arshift_eq (hi : Displacement (luai_num2int y)) :
    b_arshift [.number x, .number y] =
      .ok (BitVec.ofInt 32 (shifted (luai_num2unsigned x).toInt (-luai_num2int y))) := by
  rw [b_arshift_run]
  generalize luai_num2unsigned x = r
  generalize luai_num2int y = i at hi ⊢
  have hneg := displacement_neg hi
  split
  · next hcase =>
    rw [neg_ok hneg.1, lift_ok, ok_bind, b_shift_eq r hneg]
    by_cases hi0 : i < 0
    · obtain ⟨k, hk⟩ : ∃ k : ℕ, -i = k := ⟨i.natAbs, by omega⟩
      rw [hk, shifted_up_toInt]
    · rw [toInt_of_nonneg (hcase.resolve_left hi0)]
  · next hcase =>
    rw [not_or] at hcase
    obtain ⟨k, rfl⟩ : ∃ k : ℕ, i = k := ⟨i.toNat, by omega⟩
    have hr : r.toInt < 0 := by omega
    split
    · next hbig =>
      rw [shifted_down_sign hr (by unfold NBITS at hbig; omega)]
      rfl
    · next hsmall =>
      have hk : (0 : ℤ) ≤ k ∧ (k : ℤ) < (32 : ℕ) := ⟨by omega, by unfold NBITS at hsmall; omega⟩
      rw [shr_ok hk, shr_ok hk, lift_ok, ok_bind, lift_ok, ok_bind, Int.toNat_natCast, sar_bits r k hr, trim_eq,
        sar_eq_shifted]
      rfl

theorem b_lshift_least (h : luai_num2int y = -2 ^ 31) :
    b_lshift [.number x, .number y] = .error (.undefined .overflow) := by
  show b_shift (luai_num2unsigned x) (luai_num2int y) = _
  rw [h]
  exact b_shift_least _

theorem neg_least : neg 32 (-2 ^ 31) = .error .overflow := neg_overflow (by decide)

theorem b_rshift_least (h : luai_num2int y = -2 ^ 31) :
    b_rshift [.number x, .number y] = .error (.undefined .overflow) := by
  show (liftM (neg 32 (luai_num2int y)) >>= fun i => b_shift (luai_num2unsigned x) i) = _
  rw [h, neg_least]
  rfl

theorem b_arshift_least (h : luai_num2int y = -2 ^ 31) :
    b_arshift [.number x, .number y] = .error (.undefined .overflow) := by
  rw [b_arshift_run, h, if_pos (Or.inl (by decide)), neg_least]
  rfl

end Library

section Fast

variable (x y : Double) (nresults : ℤ)

theorem cast_unsigned_lt_iff : cast_unsigned (luai_num2int y) < 32 ↔ 0 ≤ luai_num2int y ∧ luai_num2int y < (32 : ℕ) := by
  have hrange := luai_num2int_range y
  unfold cast_unsigned
  omega

/-- A fast shift is the shift of the number, or it is left to the library. -/
theorem luauFShift_eq (shift : BitVec 32 → ℤ → Except Fault (BitVec 32)) (value : ℤ → BitVec 32)
    (hshift : ∀ i : ℤ, 0 ≤ i ∧ i < (32 : ℕ) → shift (luai_num2unsigned x) i = .ok (value i)) :
    luauFShift shift nresults [.number x, .number y] =
      if nresults ≤ 1 ∧ 0 ≤ luai_num2int y ∧ luai_num2int y < (32 : ℕ) then .ok (some (value (luai_num2int y)))
      else .ok none := by
  unfold luauFShift
  simp only [cast_unsigned_lt_iff]
  split
  · next hin =>
    rw [hshift _ hin.2]
    rfl
  · next hin => rfl

end Fast

/-! ### Fields -/

/-- The test of a field over the integers -/
def FieldOk (bits : ℕ) (f w : ℤ) : Prop := 0 ≤ f ∧ 0 < w ∧ f + w ≤ bits

/-- Where the field passes its own check `c` and the width is positive, their sum fits the native type. -/
def SumFits (bits : ℕ) (c : Prop) (f w : ℤ) : Prop := c → 0 < w → Fits bits (f + w)

/-- The run ends with an error of the library. -/
def Refused {α : Type} (run : Except ArgStop α) : Prop :=
  (∃ narg msg, run = .error (.argerror narg msg)) ∨ ∃ msg, run = .error (.error msg)

/-- The run answers what `good` asks where the field is one of the word, and ends with an error of the
library elsewhere. -/
def Exact {α : Type} (bits : ℕ) (f w : ℤ) (good : α → Prop) (run : Except ArgStop α) : Prop :=
  (FieldOk bits f w → ∃ a, run = .ok a ∧ good a) ∧ (¬FieldOk bits f w → Refused run)

/-- The same of a fast call, which leaves the other fields to the library -/
def FastExact {α : Type} (nresults : ℤ) (bits : ℕ) (f w : ℤ) (good : α → Prop) (run : Except Fault (Option α)) : Prop :=
  (nresults ≤ 1 ∧ FieldOk bits f w → ∃ a, run = .ok (some a) ∧ good a) ∧
    (¬(nresults ≤ 1 ∧ FieldOk bits f w) → run = .ok none)

section Guard

variable {bits narg : ℕ} {c : Prop} [Decidable c] {f w : ℤ} {k : Except ArgStop α} {good : α → Prop}

/-- The checks that come before a field is used -/
def guardField (bits narg : ℕ) (c : Prop) [Decidable c] (f w : ℤ) (k : Except ArgStop α) : Except ArgStop α :=
  if ¬c then .error (.argerror narg "field cannot be negative")
  else if ¬0 < w then .error (.argerror (narg + 1) "width must be positive")
  else liftM (add bits f w) >>= fun sum =>
    if bits < sum then .error (.error "trying to access non-existent bits") else k

theorem guardField_overflow (h : ¬SumFits bits c f w) :
    guardField bits narg c f w k = .error (.undefined .overflow) := by
  unfold SumFits at h
  push Not at h
  obtain ⟨hc, hw, hfits⟩ := h
  unfold guardField
  rw [if_neg (not_not.mpr hc), if_neg (not_not.mpr hw), add_overflow hfits]
  rfl

theorem guardField_refused (hc : c → 0 ≤ f) (hfits : SumFits bits c f w) (h : ¬FieldOk bits f w) :
    Refused (guardField bits narg c f w k) := by
  unfold guardField
  split
  · exact Or.inl ⟨narg, _, rfl⟩
  · next hnc =>
    rw [not_not] at hnc
    split
    · exact Or.inl ⟨narg + 1, _, rfl⟩
    · next hnw =>
      rw [not_not] at hnw
      have hbig : (bits : ℤ) < f + w := by
        by_contra hle
        exact h ⟨hc hnc, hnw, by omega⟩
      rw [add_ok (hfits hnc hnw), lift_ok, ok_bind, if_pos hbig]
      exact Or.inr ⟨_, rfl⟩

theorem guardField_ok (hc : FieldOk bits f w → c) (hfits : SumFits bits c f w) (h : FieldOk bits f w) :
    guardField bits narg c f w k = k := by
  have hsum : ¬(bits : ℤ) < f + w := by
    have := h.2.2
    omega
  unfold guardField
  rw [if_neg (not_not.mpr (hc h)), if_neg (not_not.mpr h.2.1), add_ok (hfits (hc h) h.2.1), lift_ok, ok_bind, if_neg hsum]

/-- A run behind the checks is exact where its sum fits, and only there. -/
theorem guardField_exact_iff (hc0 : c → 0 ≤ f) (hc : FieldOk bits f w → c) (hk : FieldOk bits f w → ∃ a, k = .ok a ∧ good a) :
    Exact bits f w good (guardField bits narg c f w k) ↔ SumFits bits c f w := by
  constructor
  · intro hexact
    by_contra hfits
    have hrun := @guardField_overflow _ _ narg _ _ _ _ k hfits
    by_cases h : FieldOk bits f w
    · obtain ⟨_, hok, _⟩ := hexact.1 h
      rw [hrun] at hok
      cases hok
    · obtain ⟨_, _, he⟩ | ⟨_, he⟩ := hexact.2 h
      · rw [hrun] at he
        cases he
      · rw [hrun] at he
        cases he
  · intro hfits
    constructor
    · intro h
      rw [guardField_ok hc hfits h]
      exact hk h
    · intro h
      exact guardField_refused hc0 hfits h

theorem guardField_bind (g : α → Except ArgStop β) :
    (guardField bits narg c f w k >>= g) = guardField bits narg c f w (k >>= g) := by
  unfold guardField
  split
  · rfl
  · split
    · rfl
    · cases add bits f w with
      | error e => rfl
      | ok sum =>
        rw [lift_ok, ok_bind, ok_bind]
        split
        · rfl
        · rfl

end Guard

theorem mask_eq {w : ℤ} (hw : 0 < w) (hle : w ≤ 32) : mask w = .ok (lowMask 32 w.toNat) := by
  unfold mask
  have hsub : Fits 32 (w - 1) := ⟨by norm_num; omega, by norm_num; omega⟩
  have htoNat : (w - 1).toNat = w.toNat - 1 := by omega
  rw [sub_ok hsub, shl_ok ⟨by decide, by decide⟩, ok_bind, ok_bind, shl_ok ⟨by omega, by push_cast; omega⟩, ok_bind,
    htoNat, ← not_shl_allOnes w.toNat (by omega)]
  rfl

theorem mask64_eq {w : ℤ} (hw : 0 < w) (hle : w ≤ 64) : mask64 w = .ok (lowMask 64 w.toNat) := by
  unfold mask64
  have hsub : Fits 64 (64 - w) := ⟨by norm_num; omega, by norm_num; omega⟩
  have htoNat : (64 - w).toNat = 64 - w.toNat := by omega
  rw [sub_ok hsub, ok_bind, shr_ok ⟨by omega, by push_cast; omega⟩, htoNat, shr_allOnes w.toNat (by omega)]

section Extract

variable (n v f : Double) (w : Option Double)

/-- The width that is passed on, if there is one -/
def widthArg (w : Option Double) : List TValue := w.toList.map .number

def widthOf (w : Option Double) : ℤ := w.elim 1 luai_num2int

theorem b_extract_run :
    b_extract (.number n :: .number f :: widthArg w) =
      guardField 32 2 (0 ≤ luai_num2int f) (luai_num2int f) (widthOf w) (do
        let low ← shr (luai_num2unsigned n) (luai_num2int f)
        let m ← mask (widthOf w)
        return low &&& m) := by
  have hf : fieldargs (.number n :: .number f :: widthArg w) 2 =
      guardField 32 2 (0 ≤ luai_num2int f) (luai_num2int f) (widthOf w) (.ok (luai_num2int f, widthOf w)) := by
    cases w <;> rfl
  show (fieldargs _ 2 >>= _) = _
  rw [hf, guardField_bind]
  rfl

theorem b_replace_run :
    b_replace (.number n :: .number v :: .number f :: widthArg w) =
      guardField 32 3 (0 ≤ luai_num2int f) (luai_num2int f) (widthOf w) (do
        let m ← mask (widthOf w)
        let up ← shl m (luai_num2int f)
        let new ← shl (luai_num2unsigned v &&& m) (luai_num2int f)
        return (luai_num2unsigned n &&& ~~~up) ||| new) := by
  have hf : fieldargs (.number n :: .number v :: .number f :: widthArg w) 3 =
      guardField 32 3 (0 ≤ luai_num2int f) (luai_num2int f) (widthOf w) (.ok (luai_num2int f, widthOf w)) := by
    cases w <;> rfl
  show (fieldargs _ 3 >>= _) = _
  rw [hf, guardField_bind]
  rfl

theorem extract_value {n : BitVec 32} {f w : ℤ} (h : FieldOk 32 f w) :
    (do
      let low ← shr n f
      let m ← mask w
      return low &&& m : Except ArgStop (BitVec 32)) = .ok (field n f.toNat w.toNat) := by
  obtain ⟨hf, hw, hsum⟩ := h
  push_cast at hsum
  rw [shr_ok ⟨hf, by push_cast; omega⟩, mask_eq hw (by omega), lift_ok, ok_bind, lift_ok, ok_bind, shr_and_lowMask]
  rfl

/-- A word with a field replaced, by masks -/
def masked {bits : ℕ} (n v : BitVec bits) (f w : ℕ) : BitVec bits :=
  n &&& ~~~(lowMask bits w <<< f) ||| (v &&& lowMask bits w) <<< f

theorem replace_value {n v : BitVec 32} {f w : ℤ} (h : FieldOk 32 f w) :
    (do
      let m ← mask w
      let up ← shl m f
      let new ← shl (v &&& m) f
      return (n &&& ~~~up) ||| new : Except ArgStop (BitVec 32)) = .ok (masked n v f.toNat w.toNat) := by
  obtain ⟨hf, hw, hsum⟩ := h
  push_cast at hsum
  rw [mask_eq hw (by omega), lift_ok, ok_bind, shl_ok ⟨hf, by push_cast; omega⟩, lift_ok, ok_bind,
    shl_ok ⟨hf, by push_cast; omega⟩, lift_ok, ok_bind]
  rfl

theorem masked_replaced {bits : ℕ} (n v : BitVec bits) (f w : ℕ) : Replaced n v f w (masked n v f w) :=
  replaced_of_masks n v f w

end Extract

section Int64

variable (n v f : BitVec 64) (w : Option (BitVec 64))

def widthArg64 (w : Option (BitVec 64)) : List TValue := w.toList.map .integer

def widthOf64 (w : Option (BitVec 64)) : ℤ := (w.getD 1).toInt

theorem int64_extract_run :
    int64_extract (.integer n :: .integer f :: widthArg64 w) =
      guardField 64 2 (0 ≤ f.toInt ∧ f.toInt ≤ 63) f.toInt (widthOf64 w) (do
        let low ← shr n f.toInt
        let m ← mask64 (widthOf64 w)
        return low &&& m) := by
  cases w <;> rfl

theorem int64_replace_run :
    int64_replace (.integer n :: .integer v :: .integer f :: widthArg64 w) =
      guardField 64 3 (0 ≤ f.toInt ∧ f.toInt ≤ 63) f.toInt (widthOf64 w) (do
        let d ← sub 64 64 (widthOf64 w)
        let baseMask ← shr (BitVec.allOnes 64) d
        let replacement ← shl (v &&& baseMask) f.toInt
        let up ← shl baseMask f.toInt
        return (n &&& (BitVec.allOnes 64 ^^^ up)) ||| replacement) := by
  cases w <;> rfl

theorem extract_value64 {n : BitVec 64} {f w : ℤ} (h : FieldOk 64 f w) :
    (do
      let low ← shr n f
      let m ← mask64 w
      return low &&& m : Except ArgStop (BitVec 64)) = .ok (field n f.toNat w.toNat) := by
  obtain ⟨hf, hw, hsum⟩ := h
  push_cast at hsum
  rw [shr_ok ⟨hf, by push_cast; omega⟩, mask64_eq hw (by omega), lift_ok, ok_bind, lift_ok, ok_bind, shr_and_lowMask]
  rfl

theorem replace_value64 {n v : BitVec 64} {f w : ℤ} (h : FieldOk 64 f w) :
    (do
      let d ← sub 64 64 w
      let baseMask ← shr (BitVec.allOnes 64) d
      let replacement ← shl (v &&& baseMask) f
      let up ← shl baseMask f
      return (n &&& (BitVec.allOnes 64 ^^^ up)) ||| replacement : Except ArgStop (BitVec 64)) =
        .ok (masked n v f.toNat w.toNat) := by
  obtain ⟨hf, hw, hsum⟩ := h
  push_cast at hsum
  have hsub : Fits 64 (64 - w) := ⟨by norm_num; omega, by norm_num; omega⟩
  have htoNat : (64 - w).toNat = 64 - w.toNat := by omega
  rw [sub_ok hsub, lift_ok, ok_bind, shr_ok ⟨by omega, by push_cast; omega⟩, lift_ok, ok_bind, htoNat,
    shr_allOnes w.toNat (by omega), shl_ok ⟨hf, by push_cast; omega⟩, lift_ok, ok_bind,
    shl_ok ⟨hf, by push_cast; omega⟩, lift_ok, ok_bind, BitVec.allOnes_xor]
  rfl

end Int64

/-! ### Fast calls -/

section FastFields

variable (n v f : Double) (w : Option Double) (nresults : ℤ)

theorem fieldInRange_overflow {f w : ℤ} (h : ¬SumFits 32 (0 ≤ f) f w) : fieldInRange f w = .error .overflow := by
  unfold SumFits at h
  push Not at h
  obtain ⟨hf, hw, hfits⟩ := h
  unfold fieldInRange
  rw [if_pos ⟨hf, hw⟩, add_overflow hfits]
  rfl

theorem fieldInRange_ok {f w : ℤ} (h : SumFits 32 (0 ≤ f) f w) :
    ∃ b, fieldInRange f w = .ok b ∧ (b = true ↔ FieldOk 32 f w) := by
  unfold fieldInRange
  split
  · next hpos =>
    rw [add_ok (h hpos.1 hpos.2)]
    refine ⟨decide (f + w ≤ 32), rfl, ?_⟩
    rw [decide_eq_true_iff]
    exact ⟨fun hle => ⟨hpos.1, hpos.2, hle⟩, fun hok => hok.2.2⟩
  · next hpos =>
    refine ⟨false, rfl, ?_⟩
    constructor
    · intro hf
      cases hf
    · intro hok
      exact absurd ⟨hok.1, hok.2.1⟩ hpos

/-- The mask of the fast calls -/
theorem fastMask {k : ℕ} (hk : 0 < k) : ~~~(0xfffffffe#32 <<< (k - 1)) = lowMask 32 k := by
  have hones : 0xfffffffe#32 = BitVec.allOnes 32 <<< 1 := by decide
  rw [hones, not_shl_allOnes k hk]

/-- The checks of a fast call with a width -/
def guardFast (nresults f w : ℤ) (k : Except Fault (Option (BitVec 32))) : Except Fault (Option (BitVec 32)) :=
  if 1 < nresults then .ok none
  else fieldInRange f w >>= fun inRange => if inRange then k else .ok none

theorem guardFast_exact_iff {f w : ℤ} {k : Except Fault (Option (BitVec 32))} {good : BitVec 32 → Prop}
    (hk : FieldOk 32 f w → ∃ a, k = .ok (some a) ∧ good a) :
    FastExact nresults 32 f w good (guardFast nresults f w k) ↔ (nresults ≤ 1 → SumFits 32 (0 ≤ f) f w) := by
  unfold guardFast
  by_cases hn : 1 < nresults
  · rw [if_pos hn]
    constructor
    · intro _ hle
      omega
    · intro _
      refine ⟨fun h => ?_, fun _ => rfl⟩
      have := h.1
      omega
  · rw [if_neg hn]
    have hle : nresults ≤ 1 := by omega
    constructor
    · intro hexact _
      by_contra hfits
      rw [fieldInRange_overflow hfits] at hexact
      by_cases h : FieldOk 32 f w
      · obtain ⟨_, hok, _⟩ := hexact.1 ⟨hle, h⟩
        cases hok
      · cases hexact.2 (fun hboth => h hboth.2)
    · intro hfits
      obtain ⟨b, hb, hiff⟩ := fieldInRange_ok (hfits hle)
      rw [hb, ok_bind]
      constructor
      · intro h
        rw [if_pos (hiff.mpr h.2)]
        exact hk h.2
      · intro h
        rw [if_neg (fun htrue => h ⟨hle, hiff.mp htrue⟩)]

theorem luauF_extract_width (x : Double) :
    luauF_extract nresults [.number n, .number f, .number x] =
      guardFast nresults (luai_num2int f) (luai_num2int x) (do
        let d ← sub 32 (luai_num2int x) 1
        let m ← shl 0xfffffffe#32 d
        let low ← shr (luai_num2unsigned n) (luai_num2int f)
        return some (low &&& ~~~m)) := by
  rfl

theorem luauF_replace_width (x : Double) :
    luauF_replace nresults [.number n, .number v, .number f, .number x] =
      guardFast nresults (luai_num2int f) (luai_num2int x) (do
        let d ← sub 32 (luai_num2int x) 1
        let m ← shl 0xfffffffe#32 d
        let up ← shl (~~~m) (luai_num2int f)
        let new ← shl (luai_num2unsigned v &&& ~~~m) (luai_num2int f)
        return some ((luai_num2unsigned n &&& ~~~up) ||| new)) := by
  rfl

theorem luauF_extract_width_iff (x : Double) :
    FastExact nresults 32 (luai_num2int f) (luai_num2int x)
        (· = field (luai_num2unsigned n) (luai_num2int f).toNat (luai_num2int x).toNat)
        (luauF_extract nresults [.number n, .number f, .number x]) ↔
      (nresults ≤ 1 → SumFits 32 (0 ≤ luai_num2int f) (luai_num2int f) (luai_num2int x)) := by
  rw [luauF_extract_width]
  apply guardFast_exact_iff
  rintro ⟨hf, hw, hsum⟩
  push_cast at hsum
  refine ⟨_, ?_, rfl⟩
  have hsub : Fits 32 (luai_num2int x - 1) := ⟨by norm_num; omega, by norm_num; omega⟩
  have htoNat : (luai_num2int x - 1).toNat = (luai_num2int x).toNat - 1 := by omega
  rw [sub_ok hsub, ok_bind, shl_ok ⟨by omega, by push_cast; omega⟩, ok_bind, shr_ok ⟨hf, by push_cast; omega⟩, ok_bind,
    htoNat, fastMask (by omega), shr_and_lowMask]
  rfl

theorem luauF_replace_width_iff (x : Double) :
    FastExact nresults 32 (luai_num2int f) (luai_num2int x)
        (Replaced (luai_num2unsigned n) (luai_num2unsigned v) (luai_num2int f).toNat (luai_num2int x).toNat)
        (luauF_replace nresults [.number n, .number v, .number f, .number x]) ↔
      (nresults ≤ 1 → SumFits 32 (0 ≤ luai_num2int f) (luai_num2int f) (luai_num2int x)) := by
  rw [luauF_replace_width]
  apply guardFast_exact_iff
  rintro ⟨hf, hw, hsum⟩
  push_cast at hsum
  refine ⟨_, ?_, masked_replaced _ _ _ _⟩
  have hsub : Fits 32 (luai_num2int x - 1) := ⟨by norm_num; omega, by norm_num; omega⟩
  have htoNat : (luai_num2int x - 1).toNat = (luai_num2int x).toNat - 1 := by omega
  rw [sub_ok hsub, ok_bind, shl_ok ⟨by omega, by push_cast; omega⟩, ok_bind, htoNat, fastMask (by omega),
    shl_ok ⟨hf, by push_cast; omega⟩, ok_bind, shl_ok ⟨hf, by push_cast; omega⟩, ok_bind]
  rfl

/-- A field of one bit, which the fast calls test by the unsigned value of its place -/
theorem bit_exact {k : Except Fault (Option (BitVec 32))} {good : BitVec 32 → Prop}
    (hk : FieldOk 32 (luai_num2int f) 1 → ∃ a, k = .ok (some a) ∧ good a) :
    FastExact nresults 32 (luai_num2int f) 1 good
      (if 1 < nresults then .ok none else if cast_unsigned (luai_num2int f) < 32 then k else .ok none) := by
  simp only [cast_unsigned_lt_iff]
  have hiff : FieldOk 32 (luai_num2int f) 1 ↔ 0 ≤ luai_num2int f ∧ luai_num2int f < (32 : ℕ) := by
    unfold FieldOk
    omega
  rw [FastExact, hiff]
  by_cases hn : 1 < nresults
  · rw [if_pos hn]
    refine ⟨fun h => ?_, fun _ => rfl⟩
    have := h.1
    omega
  · rw [if_neg hn]
    constructor
    · intro h
      rw [if_pos h.2]
      exact hk (hiff.mpr h.2)
    · intro h
      rw [if_neg (fun hin => h ⟨by omega, hin⟩)]

theorem luauF_extract_bit :
    FastExact nresults 32 (luai_num2int f) 1 (· = field (luai_num2unsigned n) (luai_num2int f).toNat 1)
      (luauF_extract nresults [.number n, .number f]) := by
  apply bit_exact
  rintro ⟨hf, _, hsum⟩
  push_cast at hsum
  refine ⟨_, ?_, rfl⟩
  have hone : (1 : BitVec 32) = lowMask 32 1 := by decide
  rw [shr_ok ⟨hf, by push_cast; omega⟩, ok_bind, hone, shr_and_lowMask]
  rfl

theorem luauF_replace_bit :
    FastExact nresults 32 (luai_num2int f) 1
      (Replaced (luai_num2unsigned n) (luai_num2unsigned v) (luai_num2int f).toNat 1)
      (luauF_replace nresults [.number n, .number v, .number f]) := by
  apply bit_exact
  rintro ⟨hf, _, hsum⟩
  push_cast at hsum
  refine ⟨_, ?_, masked_replaced _ _ _ _⟩
  have hone : (1#32) = lowMask 32 1 := by decide
  dsimp only
  rw [shl_ok ⟨hf, by push_cast; omega⟩, ok_bind, shl_ok ⟨hf, by push_cast; omega⟩, ok_bind, hone]
  rfl

/-- The constant of the compiler stands for its field. -/
theorem extractConstant_some {fc wc : Option Double} {c : ℤ} (h : extractConstant fc wc = .ok (some c)) :
    FieldOk 32 (fc.elim (-1) luai_num2int) (wc.elim (-1) luai_num2int) ∧
      c = fc.elim (-1) luai_num2int + (wc.elim (-1) luai_num2int - 1) * 32 := by
  unfold extractConstant at h
  dsimp only at h
  generalize fc.elim (-1) luai_num2int = f at h ⊢
  generalize wc.elim (-1) luai_num2int = w at h ⊢
  by_cases hfits : SumFits 32 (0 ≤ f) f w
  · obtain ⟨b, hb, hiff⟩ := fieldInRange_ok hfits
    rw [hb, ok_bind] at h
    split at h
    · next htrue =>
      have hok := hiff.mp htrue
      refine ⟨hok, ?_⟩
      obtain ⟨hf, hw, hsum⟩ := hok
      push_cast at hsum
      have hpack : f.toNat ||| (w - 1).toNat <<< 5 = f.toNat + (w - 1).toNat * 32 := by
        rw [Nat.or_comm, ← Nat.shiftLeft_add_eq_or_of_lt (by omega), Nat.shiftLeft_eq]
        omega
      injection h with h
      injection h with h
      rw [← h, hpack]
      push_cast
      omega
    · cases h
  · rw [fieldInRange_overflow hfits] at h
    cases h

theorem luauF_extractk_eq {fc wc : Option Double} {c : ℤ} (h : extractConstant fc wc = .ok (some c))
    (hn : nresults ≤ 1) :
    luauF_extractk nresults [.number n, .number (cast_num c)] =
      .ok (some (field (luai_num2unsigned n) (fc.elim (-1) luai_num2int).toNat (wc.elim (-1) luai_num2int).toNat)) := by
  obtain ⟨⟨hf, hw, hsum⟩, hc⟩ := extractConstant_some h
  generalize fc.elim (-1) luai_num2int = f at *
  generalize wc.elim (-1) luai_num2int = w at *
  push_cast at hsum
  have hint : luai_num2int (cast_num c) = c := luai_num2int_cast_num (by omega)
  have hlow : c % 32 = f := by omega
  have hhigh : c / 32 = w - 1 := by omega
  have htoNat : (w - 1).toNat = w.toNat - 1 := by omega
  show (if 1 < nresults then _ else _) = _
  rw [if_neg (by omega), hint, hlow, hhigh]
  dsimp only
  rw [shl_ok ⟨by omega, by push_cast; omega⟩, ok_bind, shr_ok ⟨hf, by push_cast; omega⟩, ok_bind, htoNat,
    fastMask (by omega), shr_and_lowMask]
  rfl

end FastFields

/-! ### The fast call of `integer` -/

theorem luauF_integerextract_run (n f : BitVec 64) (w : Option (BitVec 64)) (nresults : ℤ) :
    luauF_integerextract nresults (.integer n :: .integer f :: widthArg64 w) =
      if 1 < nresults then .ok none
      else if f.toInt < 0 ∨ 63 < f.toInt ∨ widthOf64 w < 1 ∨ 64 < widthOf64 w then .ok none
      else add 64 f.toInt (widthOf64 w) >>= fun sum =>
        if 64 < sum then .ok none else do
          let low ← shr n f.toInt
          let d ← sub 64 64 (widthOf64 w)
          let m ← shr (BitVec.allOnes 64) d
          return some (low &&& m) := by
  cases w <;> rfl

/-- Here the checks come before the sum, which then fits. -/
theorem luauF_integerextract_exact (n f : BitVec 64) (w : Option (BitVec 64)) (nresults : ℤ) :
    FastExact nresults 64 f.toInt (widthOf64 w) (· = field n f.toInt.toNat (widthOf64 w).toNat)
      (luauF_integerextract nresults (.integer n :: .integer f :: widthArg64 w)) := by
  rw [luauF_integerextract_run]
  generalize f.toInt = f
  generalize widthOf64 w = w
  by_cases hn : 1 < nresults
  · rw [if_pos hn]
    refine ⟨fun h => ?_, fun _ => rfl⟩
    have := h.1
    omega
  rw [if_neg hn]
  split
  · next hout =>
    refine ⟨fun h => ?_, fun _ => rfl⟩
    obtain ⟨hf, hw, hsum⟩ := h.2
    push_cast at hsum
    omega
  · next hin =>
    have hfits : Fits 64 (f + w) := ⟨by norm_num; omega, by norm_num; omega⟩
    rw [add_ok hfits, ok_bind]
    split
    · next hbig =>
      refine ⟨fun h => ?_, fun _ => rfl⟩
      have hsum := h.2.2.2
      push_cast at hsum
      omega
    · next hsmall =>
      have hok : FieldOk 64 f w := ⟨by omega, by omega, by push_cast; omega⟩
      refine ⟨fun _ => ⟨_, ?_, rfl⟩, fun h => absurd ⟨by omega, hok⟩ h⟩
      have hsub : Fits 64 (64 - w) := ⟨by norm_num; omega, by norm_num; omega⟩
      have htoNat : (64 - w).toNat = 64 - w.toNat := by omega
      rw [shr_ok ⟨by omega, by push_cast; omega⟩, ok_bind, sub_ok hsub, ok_bind, shr_ok ⟨by omega, by push_cast; omega⟩,
        ok_bind, htoNat, shr_allOnes w.toNat (by omega), shr_and_lowMask]
      rfl

end Luwu
