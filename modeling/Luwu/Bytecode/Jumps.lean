import Luwu.Lib.Checked

/-!
# Jumps

An instruction is a word of 32 bits: the opcode in the low byte, and in the instructions that jump the distance from the
next instruction, with its sign, in the high half.  The builder lists each jump with its place and its target.

`foldJumps` follows the targets through unconditional jumps.  Labels are naturals; a label outside the code stops the run.
-/

namespace Luwu.Bytecode

abbrev Word := BitVec 32

def LUAU_INSN_OP (insn : Word) : ℕ := (insn &&& 0xff#32).toNat

def LUAU_INSN_D (insn : Word) : ℤ := (insn.sshiftRight 16).toInt

def LOP_RETURN : ℕ := 22

def LOP_JUMP : ℕ := 23

/-- The opcodes with a distance to jump, from `JUMP` on in the order of `isJumpD` -/
def isJumpD (op : ℕ) : Prop :=
  op ∈ [23, 25, 26, 27, 28, 29, 30, 31, 32, 56, 57, 76, 58, 59, 61, 24, 77, 78, 79, 80, 88, 90]

instance (op : ℕ) : Decidable (isJumpD op) := by
  unfold isJumpD
  infer_instance

structure Jump where
  source : ℕ
  target : ℕ
deriving DecidableEq

inductive Stop
  /-- a label outside the code -/
  | outside
  /-- out of fuel, which does not happen -/
  | loop
deriving DecidableEq

def fetch (insns : List Word) (label : ℕ) : Except Stop Word :=
  match insns[label]? with
  | some insn => .ok insn
  | none => .error .outside

def label (i : ℤ) : Except Stop ℕ := if 0 ≤ i then .ok i.toNat else .error .outside

/-- `int16_t(offset) == offset` -/
def Int16 (offset : ℤ) : Prop := -2 ^ 15 ≤ offset ∧ offset < 2 ^ 15

instance (offset : ℤ) : Decidable (Int16 offset) := by
  unfold Int16
  infer_instance

/-- `insn &= 0xffff; insn |= uint16_t(offset) << 16` -/
def patchD (insn : Word) (offset : ℤ) : Word := insn &&& 0xffff#32 ||| (BitVec.ofInt 16 offset).setWidth 32 <<< 16

/-- Through forward unconditional jumps -/
def follow (insns : List Word) : ℕ → ℕ → Except Stop ℕ
  | 0, _ => .error .loop
  | fuel + 1, targetLabel => do
    let targetInsn ← fetch insns targetLabel
    if LUAU_INSN_OP targetInsn = LOP_JUMP ∧ 0 ≤ LUAU_INSN_D targetInsn then
      follow insns fuel (targetLabel + 1 + (LUAU_INSN_D targetInsn).toNat)
    else return targetLabel

/-- The body of the loop of `foldJumps` -/
def foldJump (insns : List Word) (jump : Jump) : Except Stop (List Word × Jump) := do
  let jumpLabel := jump.source
  let jumpInsn ← fetch insns jumpLabel
  -- only forward jumps are followed, so this ends within the length of the code
  let targetLabel ← follow insns insns.length (← label (jumpLabel + 1 + LUAU_INSN_D jumpInsn))
  let targetInsn ← fetch insns targetLabel
  let offset : ℤ := targetLabel - jumpLabel - 1
  let insns :=
    if LUAU_INSN_OP jumpInsn = LOP_JUMP ∧ LUAU_INSN_OP targetInsn = LOP_RETURN then insns.set jumpLabel targetInsn
    else if Int16 offset then insns.set jumpLabel (patchD jumpInsn offset)
    else insns
  return (insns, { jump with target := targetLabel })

def foldLoop : List Word → List Jump → Except Stop (List Word × List Jump)
  | insns, [] => .ok (insns, [])
  | insns, jump :: jumps => do
    let (insns, jump) ← foldJump insns jump
    let (insns, jumps) ← foldLoop insns jumps
    return (insns, jump :: jumps)

def foldJumps (hasLongJumps : Bool) (insns : List Word) (jumps : List Jump) : Except Stop (List Word × List Jump) :=
  if hasLongJumps then .ok (insns, jumps) else foldLoop insns jumps

/-! ### Words that are patched -/

section Words

variable {insn : Word} {offset : ℤ}

theorem mask_low : 0xffff#32 = Checked.lowMask 32 16 := rfl

theorem mask_op : 0xff#32 = Checked.lowMask 32 8 := rfl

theorem getLsbD_patchD (insn : Word) (offset : ℤ) {i : ℕ} (hi : i < 32) :
    (patchD insn offset).getLsbD i =
      if i < 16 then insn.getLsbD i else (BitVec.ofInt 16 offset).getLsbD (i - 16) := by
  unfold patchD
  rw [BitVec.getLsbD_or, BitVec.getLsbD_and, mask_low, Checked.getLsbD_lowMask, BitVec.getLsbD_shiftLeft,
    BitVec.getLsbD_setWidth]
  by_cases h16 : i < 16
  · simp [h16, hi]
  · have hlt : i - 16 < 32 := by omega
    simp [h16, hi, hlt]

theorem op_patchD (insn : Word) (offset : ℤ) : LUAU_INSN_OP (patchD insn offset) = LUAU_INSN_OP insn := by
  unfold LUAU_INSN_OP
  congr 1
  apply BitVec.eq_of_getLsbD_eq
  intro i hi
  rw [BitVec.getLsbD_and, BitVec.getLsbD_and, getLsbD_patchD insn offset hi, mask_op, Checked.getLsbD_lowMask]
  by_cases h8 : i < 8
  · have h16 : i < 16 := by omega
    rw [if_pos h16]
  · simp [h8]

/-- The distance is the high half. -/
theorem sshiftRight_eq_signExtend (insn : Word) :
    insn.sshiftRight 16 = (insn.extractLsb' 16 16).signExtend 32 := by
  apply BitVec.eq_of_getLsbD_eq
  intro i hi
  rw [BitVec.getLsbD_sshiftRight, BitVec.getLsbD_signExtend, BitVec.msb_eq_getLsbD_last, BitVec.msb_eq_getLsbD_last]
  by_cases h16 : i < 16
  · have hle : ¬32 ≤ i := by omega
    have hlt : 16 + i < 32 := by omega
    simp [h16, hi, hle, hlt]
  · have hle : ¬32 ≤ i := by omega
    have hlt : ¬16 + i < 32 := by omega
    simp [h16, hi, hle, hlt]

theorem d_patchD (h : Int16 offset) (insn : Word) : LUAU_INSN_D (patchD insn offset) = offset := by
  have hhigh : (patchD insn offset).extractLsb' 16 16 = BitVec.ofInt 16 offset := by
    apply BitVec.eq_of_getLsbD_eq
    intro i hi
    have hnot : ¬16 + i < 16 := by omega
    have hback : 16 + i - 16 = i := by omega
    rw [BitVec.getLsbD_extractLsb', getLsbD_patchD insn offset (by omega), if_neg hnot, hback]
    simp [hi]
  unfold LUAU_INSN_D
  rw [sshiftRight_eq_signExtend, hhigh, BitVec.toInt_signExtend_of_le (by decide), BitVec.toInt_ofInt]
  unfold Int16 at h
  rw [Int.bmod_eq_of_le (by norm_num; omega) (by norm_num; omega)]

end Words

end Luwu.Bytecode
