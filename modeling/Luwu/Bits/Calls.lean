import Luwu.Bits.Fields

/-!
# Calls of the field and shift functions

The calls of `bit32` and `integer` that take a field or a displacement, as library functions and as fast
calls, with what is asked of each.  Whether it is met is decided by the sum of field and width and by the
negative of the displacement.
-/

namespace Luwu

open Checked

inductive ShiftOp
  | lshift
  | rshift
  | arshift

namespace ShiftOp

def library : ShiftOp → List TValue → Except ArgStop (BitVec 32)
  | lshift => b_lshift
  | rshift => b_rshift
  | arshift => b_arshift

def fast : ShiftOp → ℤ → List TValue → Except Fault (Option (BitVec 32))
  | lshift => luauF_lshift
  | rshift => luauF_rshift
  | arshift => luauF_arshift

/-- The shifted number, as a word -/
def value (r : BitVec 32) (i : ℤ) : ShiftOp → BitVec 32
  | lshift => BitVec.ofInt 32 (shifted r.toNat i)
  | rshift => BitVec.ofInt 32 (shifted r.toNat (-i))
  | arshift => BitVec.ofInt 32 (shifted r.toInt (-i))

theorem library_eq (op : ShiftOp) (r i : Double) (hi : luai_num2int i ≠ -2 ^ 31) :
    op.library [.number r, .number i] = .ok (op.value (luai_num2unsigned r) (luai_num2int i)) := by
  have hdisp := (displacement_iff i).mpr hi
  cases op with
  | lshift => exact b_lshift_eq r i hdisp
  | rshift => exact b_rshift_eq r i hdisp
  | arshift => exact b_arshift_eq r i hdisp

theorem library_least (op : ShiftOp) (r i : Double) (hi : luai_num2int i = -2 ^ 31) :
    op.library [.number r, .number i] = .error (.undefined .overflow) := by
  cases op with
  | lshift => exact b_lshift_least r i hi
  | rshift => exact b_rshift_least r i hi
  | arshift => exact b_arshift_least r i hi

theorem fast_eq (op : ShiftOp) (nresults : ℤ) (r i : Double) :
    op.fast nresults [.number r, .number i] =
      if nresults ≤ 1 ∧ 0 ≤ luai_num2int i ∧ luai_num2int i < (32 : ℕ) then
        .ok (some (op.value (luai_num2unsigned r) (luai_num2int i)))
      else .ok none := by
  have hnat : ∀ j : ℤ, 0 ≤ j → (j.toNat : ℤ) = j := fun j hj => Int.toNat_of_nonneg hj
  cases op with
  | lshift =>
    apply luauFShift_eq r i nresults shl (fun j => value (luai_num2unsigned r) j lshift)
    intro j hj
    rw [shl_ok hj, shl_eq_shifted, hnat j hj.1]
    rfl
  | rshift =>
    apply luauFShift_eq r i nresults shr (fun j => value (luai_num2unsigned r) j rshift)
    intro j hj
    rw [shr_ok hj, shr_eq_shifted, hnat j hj.1]
    rfl
  | arshift =>
    apply luauFShift_eq r i nresults sar (fun j => value (luai_num2unsigned r) j arshift)
    intro j hj
    rw [sar_ok hj, sar_eq_shifted, hnat j hj.1]
    rfl

end ShiftOp

/-- A call with numbers or integers for its arguments -/
inductive BitCall
  | shift (op : ShiftOp) (r i : Double)
  | fastShift (op : ShiftOp) (nresults : ℤ) (r i : Double)
  | extract (n f : Double) (w : Option Double)
  | fastExtract (nresults : ℤ) (n f : Double) (w : Option Double)
  | fastExtractk (nresults : ℤ) (n : Double) (fc wc : Option Double)
  | replace (n v f : Double) (w : Option Double)
  | fastReplace (nresults : ℤ) (n v f : Double) (w : Option Double)
  | integerExtract (n f : BitVec 64) (w : Option (BitVec 64))
  | fastIntegerExtract (nresults : ℤ) (n f : BitVec 64) (w : Option (BitVec 64))
  | integerReplace (n v f : BitVec 64) (w : Option (BitVec 64))

namespace BitCall

/-- What is asked of a call: a shift answers the shifted number, a function of fields answers exactly where
the field is one of the word, and no run meets a fault. -/
def Safe : BitCall → Prop
  | shift op r i => op.library [.number r, .number i] = .ok (op.value (luai_num2unsigned r) (luai_num2int i))
  | fastShift op nresults r i =>
    op.fast nresults [.number r, .number i] = .ok none ∨
      op.fast nresults [.number r, .number i] = .ok (some (op.value (luai_num2unsigned r) (luai_num2int i)))
  | extract n f w =>
    Exact 32 (luai_num2int f) (widthOf w)
      (· = field (luai_num2unsigned n) (luai_num2int f).toNat (widthOf w).toNat)
      (b_extract (.number n :: .number f :: widthArg w))
  | fastExtract nresults n f w =>
    FastExact nresults 32 (luai_num2int f) (widthOf w)
      (· = field (luai_num2unsigned n) (luai_num2int f).toNat (widthOf w).toNat)
      (luauF_extract nresults (.number n :: .number f :: widthArg w))
  | fastExtractk nresults n fc wc =>
    ∀ c, extractConstant fc wc = .ok (some c) →
      FastExact nresults 32 (fc.elim (-1) luai_num2int) (wc.elim (-1) luai_num2int)
        (· = field (luai_num2unsigned n) (fc.elim (-1) luai_num2int).toNat (wc.elim (-1) luai_num2int).toNat)
        (luauF_extractk nresults [.number n, .number (cast_num c)])
  | replace n v f w =>
    Exact 32 (luai_num2int f) (widthOf w)
      (Replaced (luai_num2unsigned n) (luai_num2unsigned v) (luai_num2int f).toNat (widthOf w).toNat)
      (b_replace (.number n :: .number v :: .number f :: widthArg w))
  | fastReplace nresults n v f w =>
    FastExact nresults 32 (luai_num2int f) (widthOf w)
      (Replaced (luai_num2unsigned n) (luai_num2unsigned v) (luai_num2int f).toNat (widthOf w).toNat)
      (luauF_replace nresults (.number n :: .number v :: .number f :: widthArg w))
  | integerExtract n f w =>
    Exact 64 f.toInt (widthOf64 w) (· = field n f.toInt.toNat (widthOf64 w).toNat)
      (int64_extract (.integer n :: .integer f :: widthArg64 w))
  | fastIntegerExtract nresults n f w =>
    FastExact nresults 64 f.toInt (widthOf64 w) (· = field n f.toInt.toNat (widthOf64 w).toNat)
      (luauF_integerextract nresults (.integer n :: .integer f :: widthArg64 w))
  | integerReplace n v f w =>
    Exact 64 f.toInt (widthOf64 w) (Replaced n v f.toInt.toNat (widthOf64 w).toNat)
      (int64_replace (.integer n :: .integer v :: .integer f :: widthArg64 w))

/-- The displacement is not the least `int`, and a sum of field and width that is formed fits its type. -/
def InRange : BitCall → Prop
  | shift _ _ i => luai_num2int i ≠ -2 ^ 31
  | extract _ f w | replace _ _ f w => SumFits 32 (0 ≤ luai_num2int f) (luai_num2int f) (widthOf w)
  | fastExtract nresults _ f (some w) | fastReplace nresults _ _ f (some w) =>
    nresults ≤ 1 → SumFits 32 (0 ≤ luai_num2int f) (luai_num2int f) (luai_num2int w)
  | integerExtract _ f w | integerReplace _ _ f w =>
    SumFits 64 (0 ≤ f.toInt ∧ f.toInt ≤ 63) f.toInt (widthOf64 w)
  | fastShift .. | fastExtract _ _ _ none | fastExtractk .. | fastReplace _ _ _ _ none | fastIntegerExtract .. => True

end BitCall

theorem b_extract_iff (n f : Double) (w : Option Double) :
    (BitCall.extract n f w).Safe ↔ (BitCall.extract n f w).InRange := by
  unfold BitCall.Safe
  dsimp only
  rw [b_extract_run]
  apply guardField_exact_iff id And.left
  intro h
  exact ⟨_, extract_value h, rfl⟩

theorem b_replace_iff (n v f : Double) (w : Option Double) :
    (BitCall.replace n v f w).Safe ↔ (BitCall.replace n v f w).InRange := by
  unfold BitCall.Safe
  dsimp only
  rw [b_replace_run]
  apply guardField_exact_iff id And.left
  intro h
  exact ⟨_, replace_value h, masked_replaced _ _ _ _⟩

theorem field_le {f w : ℤ} (h : FieldOk 64 f w) : 0 ≤ f ∧ f ≤ 63 := by
  obtain ⟨hf, hw, hsum⟩ := h
  push_cast at hsum
  omega

theorem int64_extract_iff (n f : BitVec 64) (w : Option (BitVec 64)) :
    (BitCall.integerExtract n f w).Safe ↔ (BitCall.integerExtract n f w).InRange := by
  unfold BitCall.Safe
  dsimp only
  rw [int64_extract_run]
  apply guardField_exact_iff And.left field_le
  intro h
  exact ⟨_, extract_value64 h, rfl⟩

theorem int64_replace_iff (n v f : BitVec 64) (w : Option (BitVec 64)) :
    (BitCall.integerReplace n v f w).Safe ↔ (BitCall.integerReplace n v f w).InRange := by
  unfold BitCall.Safe
  dsimp only
  rw [int64_replace_run]
  apply guardField_exact_iff And.left field_le
  intro h
  exact ⟨_, replace_value64 h, masked_replaced _ _ _ _⟩

theorem luauF_extractk_safe (nresults : ℤ) (n : Double) (fc wc : Option Double) :
    (BitCall.fastExtractk nresults n fc wc).Safe := by
  intro c hc
  have hfield := (extractConstant_some hc).1
  constructor
  · rintro ⟨hn, _⟩
    exact ⟨_, luauF_extractk_eq n nresults hc hn, rfl⟩
  · intro hout
    have hn : 1 < nresults := by
      by_contra hle
      exact hout ⟨by omega, hfield⟩
    show (if 1 < nresults then _ else _) = _
    rw [if_pos hn]
    rfl

end Luwu
