import Luwu.Utf8Lib.Core

/-!
# Decoding one sequence

The bits of the first byte announce the continuation bytes, up to seven of them; the loop reads those and no others
(`contLoop_spec`).  A sequence is accepted when it is one of the grammar (`utf8_decode_spec`).
-/

namespace Luwu.Utf8Lib

open Utf8

section Bytes

/-- The number of continuation bytes that a first byte announces -/
def need (b : ℕ) : ℕ :=
  if b < 0xC0 then 0 else if b < 0xE0 then 1 else if b < 0xF0 then 2 else if b < 0xF8 then 3
  else if b < 0xFC then 4 else if b < 0xFE then 5 else if b < 0xFF then 6 else 7

theorem need_le (b : ℕ) : need b ≤ 7 := by
  unfold need
  split_ifs <;> decide

theorem need_eq_one {b : ℕ} (h : need b = 1) : 0xC0 ≤ b ∧ b < 0xE0 := by
  unfold need at h
  split_ifs at h <;> omega

theorem need_eq_two {b : ℕ} (h : need b = 2) : 0xE0 ≤ b ∧ b < 0xF0 := by
  unfold need at h
  split_ifs at h <;> omega

theorem need_eq_three {b : ℕ} (h : need b = 3) : 0xF0 ≤ b ∧ b < 0xF8 := by
  unfold need at h
  split_ifs at h <;> omega

theorem forall_byte {P : Byte → Prop} (h : ∀ n : Fin 256, P (BitVec.ofNat 8 n)) (b : Byte) : P b := by
  have hb := h ⟨b.toNat, b.isLt⟩
  rwa [show BitVec.ofNat 8 (⟨b.toNat, b.isLt⟩ : Fin 256) = b from BitVec.ofNat_toNat 8 b ▸ by simp] at hb

/-- The bits that the loop tests, up to the first one that is not set -/
theorem more_iff (b : Byte) (h : 0x80 ≤ b.toNat) {i : ℕ} (hi : i ≤ need b.toNat) :
    (b.setWidth 32 <<< i) &&& 0x40#32 ≠ 0 ↔ i < need b.toNat := by
  have hall : ∀ n : Fin 256, 0x80 ≤ (BitVec.ofNat 8 n).toNat → ∀ i : Fin 8, i.val ≤ need (BitVec.ofNat 8 n).toNat →
      (((BitVec.ofNat 8 n).setWidth 32 <<< i.val) &&& 0x40#32 ≠ 0 ↔ i.val < need (BitVec.ofNat 8 n).toNat) := by
    decide +kernel
  have hi8 : i < 8 := by
    have := need_le b.toNat
    omega
  exact forall_byte (P := fun b => 0x80 ≤ b.toNat → ∀ i : Fin 8, i.val ≤ need b.toNat →
    ((b.setWidth 32 <<< i.val) &&& 0x40#32 ≠ 0 ↔ i.val < need b.toNat)) hall b h ⟨i, hi8⟩ hi

theorem isTail_iff (b : Byte) : b &&& 0xC0#8 = 0x80#8 ↔ IsTail b.toNat := by
  have hall : ∀ n : Fin 256, ((BitVec.ofNat 8 n) &&& 0xC0#8 = 0x80#8 ↔ IsTail (BitVec.ofNat 8 n).toNat) := by
    decide +kernel
  exact forall_byte (P := fun b => b &&& 0xC0#8 = 0x80#8 ↔ IsTail b.toNat) hall b

theorem low_toNat (b : Byte) : (b &&& 0x3F#8).toNat = b.toNat % 64 := by
  rw [BitVec.toNat_and]
  exact Nat.and_two_pow_sub_one_eq_mod b.toNat 6

end Bytes

section Loop

variable {s : List Byte} {o i : ℕ} {b : Byte}

/-- The octet at a position; behind the string it is zero. -/
def oct (s : List Byte) (i : ℕ) : ℕ := (s.getD i 0).toNat

theorem oct_lt (s : List Byte) (i : ℕ) : oct s i < 256 := (s.getD i 0).isLt

theorem lt_length_of_oct (h : oct s i ≠ 0) : i < s.length := by
  by_contra hle
  apply h
  unfold oct
  rw [List.getD_eq_getElem?_getD, List.getElem?_eq_none (by omega)]
  rfl

theorem lt_length_of_isTail (h : IsTail (oct s i)) : i < s.length := by
  apply lt_length_of_oct
  have := h.1
  omega

theorem byteAt_ok (h : i ≤ s.length) : byteAt s i = .ok (s.getD i 0) := if_pos h

/-- What the bytes up to continuation byte `i` add up to -/
def tailsValue (s : List Byte) (o : ℕ) : ℕ → BitVec 32
  | 0 => 0
  | i + 1 => tailsValue s o i <<< 6 ||| (s.getD (o + (i + 1)) 0 &&& 0x3F#8).setWidth 32

/-- The continuation bytes `i + 1..k` are there. -/
def Tails (s : List Byte) (o i k : ℕ) : Prop := ∀ j, i < j → j ≤ k → IsTail (oct s (o + j))

instance (s : List Byte) (o i k : ℕ) : Decidable (Tails s o i k) :=
  decidable_of_iff (∀ j, j < k + 1 → i < j → IsTail (oct s (o + j)))
    ⟨fun h j hi hj => h j (by omega) hi, fun h j hj hi => h j hi (by omega)⟩

/-- The loop reads the continuation bytes that are announced, as long as they are ones. -/
theorem contLoop_spec {fuel : ℕ} (hb : 0x80 ≤ (s.getD o 0).toNat) (hin : o + i < s.length) (hi : i ≤ need (oct s o))
    (hfuel : fuel + i = 8) :
    contLoop s o fuel ((s.getD o 0).setWidth 32 <<< i) (tailsValue s o i) i =
      .ok (if Tails s o i (need (oct s o)) then
        some ((s.getD o 0).setWidth 32 <<< need (oct s o), tailsValue s o (need (oct s o)), need (oct s o)) else none) := by
  induction fuel generalizing i with
  | zero =>
    have := need_le (oct s o)
    omega
  | succ fuel ih =>
    have hmore := more_iff (s.getD o 0) hb hi
    unfold contLoop
    by_cases hlt : i < need (oct s o)
    · rw [if_pos (hmore.mpr hlt), byteAt_ok (by omega)]
      show (if s.getD (o + (i + 1)) 0 &&& 0xC0#8 ≠ 0x80#8 then _ else _) = _
      by_cases htail : IsTail (oct s (o + (i + 1)))
      · have htails : Tails s o i (need (oct s o)) ↔ Tails s o (i + 1) (need (oct s o)) := by
          constructor
          · exact fun h j hj hk => h j (by omega) hk
          · intro h j hj hk
            by_cases heq : j = i + 1
            · rw [heq]
              exact htail
            · exact h j (by omega) hk
        have hrec := ih (i := i + 1) (lt_length_of_isTail htail) (by omega) (by omega)
        rw [if_neg (not_not.mpr ((isTail_iff _).mpr htail)), if_congr htails rfl rfl, ← hrec, BitVec.shiftLeft_add]
        rfl
      · have hno : ¬Tails s o i (need (oct s o)) := fun h => htail (h (i + 1) (by omega) (by omega))
        rw [if_pos (fun h => htail ((isTail_iff _).mp h)), if_neg hno]
        rfl
    · have heq : i = need (oct s o) := by omega
      have hnone : Tails s o i (need (oct s o)) := fun j hj hk => by omega
      rw [if_neg (fun h => hlt (hmore.mp h)), if_pos hnone, ← heq]
      rfl

end Loop

/-! ### The value -/

section Value

variable {s : List Byte} {o k : ℕ} {r x : BitVec 32}

/-- The bits of two words that do not meet add up. -/
theorem toNat_or_of_lt {i a : ℕ} (hx : x.toNat = a * 2 ^ i) (hr : r.toNat < 2 ^ i) :
    (x ||| r).toNat = a * 2 ^ i + r.toNat := by
  rw [BitVec.toNat_or, hx, ← Nat.shiftLeft_eq, Nat.shiftLeft_add_eq_or_of_lt hr]

theorem toNat_tailsValue_succ (i : ℕ) (h : (tailsValue s o i).toNat < 2 ^ 18) :
    (tailsValue s o (i + 1)).toNat = (tailsValue s o i).toNat * 64 + oct s (o + (i + 1)) % 64 := by
  have hlow : ((s.getD (o + (i + 1)) 0 &&& 0x3F#8).setWidth 32).toNat = oct s (o + (i + 1)) % 64 := by
    rw [BitVec.toNat_setWidth, low_toNat]
    unfold oct
    omega
  have hhigh : (tailsValue s o i <<< 6).toNat = (tailsValue s o i).toNat * 2 ^ 6 := by
    rw [BitVec.toNat_shiftLeft, Nat.shiftLeft_eq]
    omega
  show (tailsValue s o i <<< 6 ||| (s.getD (o + (i + 1)) 0 &&& 0x3F#8).setWidth 32).toNat = _
  rw [toNat_or_of_lt hhigh (by rw [hlow]; omega), hlow]
  norm_num

theorem toNat_tailsValue_one : (tailsValue s o 1).toNat = oct s (o + 1) % 64 := by
  have hstep := toNat_tailsValue_succ (s := s) (o := o) 0 (show (0 : BitVec 32).toNat < 2 ^ 18 by decide)
  rw [hstep]
  exact Nat.zero_add _

theorem toNat_tailsValue_two : (tailsValue s o 2).toNat = oct s (o + 1) % 64 * 64 + oct s (o + 2) % 64 := by
  have hone := toNat_tailsValue_one (s := s) (o := o)
  rw [toNat_tailsValue_succ 1 (by omega), hone]

theorem toNat_tailsValue_three : (tailsValue s o 3).toNat =
    oct s (o + 1) % 64 * 4096 + oct s (o + 2) % 64 * 64 + oct s (o + 3) % 64 := by
  have htwo := toNat_tailsValue_two (s := s) (o := o)
  rw [toNat_tailsValue_succ 2 (by omega), htwo]
  show (oct s (o + 1) % 64 * 64 + oct s (o + 2) % 64) * 64 + oct s (o + 3) % 64 = _
  ring

/-- The first byte, with the bits that counted shifted out -/
def leadBits (s : List Byte) (o k : ℕ) : BitVec 32 := ((s.getD o 0).setWidth 32 <<< k) &&& 0x7F#32

theorem toNat_leadBits (hk : k ≤ 7) : (leadBits s o k).toNat = oct s o * 2 ^ k % 128 := by
  have hpow : 2 ^ k ≤ 2 ^ 7 := Nat.pow_le_pow_right (by decide) hk
  have hlt := oct_lt s o
  have hmul : oct s o * 2 ^ k ≤ 256 * 2 ^ 7 := Nat.mul_le_mul (by omega) hpow
  unfold leadBits
  rw [BitVec.toNat_and, BitVec.toNat_shiftLeft, BitVec.toNat_setWidth, Nat.shiftLeft_eq]
  have hmask : (0x7F#32).toNat = 2 ^ 7 - 1 := rfl
  rw [hmask, Nat.and_two_pow_sub_one_eq_mod]
  show (oct s o % 2 ^ 32 * 2 ^ k) % 2 ^ 32 % 2 ^ 7 = _
  rw [Nat.mod_eq_of_lt (show oct s o < 2 ^ 32 by omega), Nat.mod_eq_of_lt (show oct s o * 2 ^ k < 2 ^ 32 by omega)]

/-- The value of a sequence -/
def result (s : List Byte) (o k : ℕ) : BitVec 32 := tailsValue s o k ||| leadBits s o k <<< (k * 5)

theorem toNat_result {a : ℕ} (hk : k ≤ 3) (hlead : oct s o * 2 ^ k % 128 = a * 2 ^ k) (ha : a < 32)
    (htails : (tailsValue s o k).toNat < 64 ^ k) : (result s o k).toNat = a * 64 ^ k + (tailsValue s o k).toNat := by
  have hsix : (64 : ℕ) ^ k = 2 ^ (k * 6) := by
    rw [show (64 : ℕ) = 2 ^ 6 from rfl, ← Nat.pow_mul, Nat.mul_comm]
  have hhigh : (leadBits s o k <<< (k * 5)).toNat = a * 2 ^ (k * 6) := by
    have hpow : 2 ^ (k * 6) ≤ 2 ^ 18 := Nat.pow_le_pow_right (by decide) (by omega)
    have hmul : a * 2 ^ (k * 6) ≤ 32 * 2 ^ 18 := Nat.mul_le_mul (by omega) hpow
    rw [BitVec.toNat_shiftLeft, toNat_leadBits (by omega), hlead, Nat.shiftLeft_eq, Nat.mul_assoc, ← Nat.pow_add,
      show k + k * 5 = k * 6 by ring]
    exact Nat.mod_eq_of_lt (by omega)
  unfold result
  rw [BitVec.or_comm, toNat_or_of_lt hhigh (by rw [← hsix]; exact htails), hsix]

theorem surrogate_iff : r - 0xD800#32 < 0x800#32 ↔ 0xD800 ≤ r.toNat ∧ r.toNat < 0xE000 := by
  have hlt := r.isLt
  rw [BitVec.lt_def, BitVec.toNat_sub]
  have h1 : (0xD800#32).toNat = 0xD800 := rfl
  have h2 : (0x800#32).toNat = 0x800 := rfl
  rw [h1, h2]
  omega

end Value

/-! ### A sequence -/

section Sequence

variable {s : List Byte} {o : ℕ}

theorem decode_ascii (ho : o < s.length) (hb : oct s o < 0x80) :
    utf8_decode s o = .ok (some (o + 1, (s.getD o 0).setWidth 32)) := by
  have hlt : (s.getD o 0).setWidth 32 < 0x80#32 := by
    rw [BitVec.lt_def, BitVec.toNat_setWidth]
    show oct s o % 2 ^ 32 < 0x80
    omega
  unfold utf8_decode
  rw [byteAt_ok ho.le]
  show (if (s.getD o 0).setWidth 32 < 0x80#32 then _ else _) = _
  rw [if_pos hlt]
  rfl

theorem decode_multi (ho : o < s.length) (hb : 0x80 ≤ oct s o) :
    utf8_decode s o =
      if Tails s o 0 (need (oct s o)) then do
        let top ← checked (Checked.shl (leadBits s o (need (oct s o))) ((need (oct s o) : ℕ) * 5 : ℕ))
        let res := tailsValue s o (need (oct s o)) ||| top
        if 3 < need (oct s o) ∨ MAXUNICODE < res ∨ res ≤ limits.getD (need (oct s o)) 0 then return none
        if res - 0xD800#32 < 0x800#32 then return none
        return some (o + need (oct s o) + 1, res)
      else .ok none := by
  have hloop := @contLoop_spec s o 0 8 hb ho (Nat.zero_le _) rfl
  have hge : ¬(s.getD o 0).setWidth 32 < 0x80#32 := by
    rw [BitVec.lt_def, BitVec.toNat_setWidth]
    show ¬oct s o % 2 ^ 32 < 0x80
    have := oct_lt s o
    omega
  rw [BitVec.shiftLeft_zero] at hloop
  unfold utf8_decode
  rw [byteAt_ok ho.le]
  show (if (s.getD o 0).setWidth 32 < 0x80#32 then _ else _) = _
  rw [if_neg hge]
  show (contLoop s o 8 ((s.getD o 0).setWidth 32) (tailsValue s o 0) 0 >>= _) = _
  rw [hloop]
  by_cases htails : Tails s o 0 (need (oct s o))
  · rw [if_pos htails, if_pos htails]
    rfl
  · rw [if_neg htails, if_neg htails]
    rfl

/-- The limit under which a sequence of this length is too long for its value -/
def limit (k : ℕ) : ℕ := if k = 1 then 0x7F else if k = 2 then 0x7FF else 0xFFFF

/-- A sequence of one to three continuation bytes -/
theorem decode_short (ho : o < s.length) (hb : 0x80 ≤ oct s o) (hk : 1 ≤ need (oct s o) ∧ need (oct s o) ≤ 3)
    (htails : Tails s o 0 (need (oct s o))) :
    utf8_decode s o = .ok (
      if limit (need (oct s o)) < (result s o (need (oct s o))).toNat ∧ Scalar (result s o (need (oct s o))).toNat then
        some (o + need (oct s o) + 1, result s o (need (oct s o))) else none) := by
  have hshl : Checked.shl (leadBits s o (need (oct s o))) ((need (oct s o) * 5 : ℕ) : ℤ) =
      .ok (leadBits s o (need (oct s o)) <<< (need (oct s o) * 5)) := by
    rw [Checked.shl_ok ⟨by omega, by omega⟩, Int.toNat_natCast]
  have hlimit : (limits.getD (need (oct s o)) 0).toNat = limit (need (oct s o)) := by
    have hcases : need (oct s o) = 1 ∨ need (oct s o) = 2 ∨ need (oct s o) = 3 := by omega
    rcases hcases with h | h | h <;> rw [h] <;> rfl
  rw [decode_multi ho hb, if_pos htails, hshl]
  show (if 3 < need (oct s o) ∨ MAXUNICODE < result s o (need (oct s o)) ∨
    result s o (need (oct s o)) ≤ limits.getD (need (oct s o)) 0 then _ else _) = _
  have hmax : MAXUNICODE < result s o (need (oct s o)) ↔ 0x10FFFF < (result s o (need (oct s o))).toNat := BitVec.lt_def
  have hlow : result s o (need (oct s o)) ≤ limits.getD (need (oct s o)) 0 ↔
      (result s o (need (oct s o))).toNat ≤ limit (need (oct s o)) := by
    rw [BitVec.le_def, hlimit]
  by_cases hbad : 3 < need (oct s o) ∨ MAXUNICODE < result s o (need (oct s o)) ∨
      result s o (need (oct s o)) ≤ limits.getD (need (oct s o)) 0
  · rw [if_pos hbad, if_neg]
    · rfl
    · rw [hmax, hlow] at hbad
      unfold Scalar
      omega
  · rw [if_neg hbad]
    show (if result s o (need (oct s o)) - 0xD800#32 < 0x800#32 then _ else _) = _
    rw [hmax, hlow] at hbad
    by_cases hsurrogate : result s o (need (oct s o)) - 0xD800#32 < 0x800#32
    · rw [if_pos hsurrogate, if_neg]
      · rfl
      · rw [surrogate_iff] at hsurrogate
        unfold Scalar
        omega
    · rw [if_neg hsurrogate, if_pos]
      · rfl
      · rw [surrogate_iff] at hsurrogate
        unfold Scalar
        omega

/-- A sequence that announces no continuation byte, or more than three -/
theorem decode_other (ho : o < s.length) (hb : 0x80 ≤ oct s o) (hk : need (oct s o) = 0 ∨ 4 ≤ need (oct s o))
    (h7 : need (oct s o) < 7) : utf8_decode s o = .ok none := by
  rw [decode_multi ho hb]
  by_cases htails : Tails s o 0 (need (oct s o))
  · have hshl : Checked.shl (leadBits s o (need (oct s o))) ((need (oct s o) * 5 : ℕ) : ℤ) =
        .ok (leadBits s o (need (oct s o)) <<< (need (oct s o) * 5)) := by
      rw [Checked.shl_ok ⟨by omega, by omega⟩, Int.toNat_natCast]
    have hbad : 3 < need (oct s o) ∨ MAXUNICODE < result s o (need (oct s o)) ∨
        result s o (need (oct s o)) ≤ limits.getD (need (oct s o)) 0 := by
      rcases hk with h0 | h4
      · refine Or.inr (Or.inr ?_)
        have hlead := toNat_leadBits (s := s) (o := o) (Nat.zero_le 7)
        have hzero : result s o 0 = leadBits s o 0 := by
          show 0#32 ||| leadBits s o 0 <<< 0 = _
          rw [BitVec.shiftLeft_zero, BitVec.zero_or]
        rw [h0, hzero, BitVec.le_def, hlead]
        have := Nat.mod_lt (oct s o * 2 ^ 0) (show 0 < 128 by decide)
        exact (show oct s o * 2 ^ 0 % 128 ≤ 0xFF by omega)
      · exact Or.inl h4
    rw [if_pos htails, hshl]
    show (if 3 < need (oct s o) ∨ MAXUNICODE < result s o (need (oct s o)) ∨
      result s o (need (oct s o)) ≤ limits.getD (need (oct s o)) 0 then _ else _) = _
    rw [if_pos hbad]
    rfl
  · rw [if_neg htails]

/-- A first byte of ones with seven continuation bytes behind it -/
def Overlong (s : List Byte) (o : ℕ) : Prop := oct s o = 0xFF ∧ Tails s o 0 7

instance (s : List Byte) (o : ℕ) : Decidable (Overlong s o) := by
  unfold Overlong
  infer_instance

theorem decode_overlong (h : Overlong s o) : utf8_decode s o = .error (.undefined .amount) := by
  obtain ⟨hb, htails⟩ := h
  have hneed : need (oct s o) = 7 := by
    rw [hb]
    rfl
  rw [decode_multi (lt_length_of_oct (by omega)) (by omega), hneed, if_pos htails]
  rfl

/-! ### The grammar -/

/-- The octets stand at a position. -/
def Starts (s : List Byte) (o : ℕ) (xs : List ℕ) : Prop := xs <+: (s.map BitVec.toNat).drop o

theorem starts_nil (s : List Byte) (o : ℕ) : Starts s o [] := List.nil_prefix

theorem starts_cons {a : ℕ} {xs : List ℕ} :
    Starts s o (a :: xs) ↔ (o < s.length ∧ oct s o = a) ∧ Starts s (o + 1) xs := by
  unfold Starts
  by_cases ho : o < s.length
  · have hat : (s.map BitVec.toNat).drop o = oct s o :: (s.map BitVec.toNat).drop (o + 1) := by
      rw [List.drop_eq_getElem_cons (by rw [List.length_map]; exact ho), List.getElem_map]
      congr 1
      unfold oct
      rw [List.getD_eq_getElem?_getD, List.getElem?_eq_getElem ho]
      rfl
    rw [hat, List.cons_prefix_cons, and_iff_right ho, eq_comm]
  · rw [List.drop_eq_nil_of_le (by rw [List.length_map]; omega)]
    simp [ho]

theorem toNat_result_one (hn : need (oct s o) = 1) (ht : Tails s o 0 1) :
    (result s o 1).toNat = (oct s o - 0xC0) * 64 + (oct s (o + 1) - 0x80) := by
  have h1 := ht 1 (by omega) le_rfl
  have htails := toNat_tailsValue_one (s := s) (o := o)
  unfold IsTail at h1
  have hb := need_eq_one hn
  rw [toNat_result (a := oct s o - 0xC0) (by omega) (by omega) (by omega) (by rw [htails]; omega), htails]
  omega

theorem toNat_result_two (hn : need (oct s o) = 2) (ht : Tails s o 0 2) : (result s o 2).toNat =
    (oct s o - 0xE0) * 4096 + (oct s (o + 1) - 0x80) * 64 + (oct s (o + 2) - 0x80) := by
  have h1 := ht 1 (by omega) (by omega)
  have h2 := ht 2 (by omega) le_rfl
  have htails := toNat_tailsValue_two (s := s) (o := o)
  unfold IsTail at h1 h2
  have hb := need_eq_two hn
  rw [toNat_result (a := oct s o - 0xE0) (by omega) (by omega) (by omega) (by rw [htails]; omega), htails]
  omega

theorem toNat_result_three (hn : need (oct s o) = 3) (ht : Tails s o 0 3) : (result s o 3).toNat =
    (oct s o - 0xF0) * 262144 + (oct s (o + 1) - 0x80) * 4096 + (oct s (o + 2) - 0x80) * 64 + (oct s (o + 3) - 0x80) := by
  have h1 := ht 1 (by omega) (by omega)
  have h2 := ht 2 (by omega) (by omega)
  have h3 := ht 3 (by omega) le_rfl
  have htails := toNat_tailsValue_three (s := s) (o := o)
  unfold IsTail at h1 h2 h3
  have hb := need_eq_three hn
  rw [toNat_result (a := oct s o - 0xF0) (by omega) (by omega) (by omega) (by rw [htails]; omega), htails]
  omega

/-- A value that is accepted is that of the octets. -/
theorem starts_encode_result (ho : o < s.length) (hk : 1 ≤ need (oct s o) ∧ need (oct s o) ≤ 3)
    (htails : Tails s o 0 (need (oct s o))) (hlow : limit (need (oct s o)) < (result s o (need (oct s o))).toNat)
    (hscalar : Scalar (result s o (need (oct s o))).toNat) :
    Starts s o (encode (result s o (need (oct s o))).toNat) ∧
      (encode (result s o (need (oct s o))).toNat).length = need (oct s o) + 1 := by
  have hcases : need (oct s o) = 1 ∨ need (oct s o) = 2 ∨ need (oct s o) = 3 := by omega
  have hmax := hscalar.1
  rcases hcases with h | h | h <;> rw [h] at htails hlow hmax ⊢
  · have h1 := htails 1 (by omega) le_rfl
    have hval := toNat_result_one h htails
    rw [show limit 1 = 0x7F from rfl] at hlow
    have hin1 := lt_length_of_isTail h1
    unfold IsTail at h1
    have hb := need_eq_one h
    rw [hval, encode_two (by omega) (by omega) (by omega)]
    refine ⟨starts_cons.mpr ⟨⟨ho, by omega⟩, starts_cons.mpr ⟨⟨hin1, by omega⟩, starts_nil _ _⟩⟩, rfl⟩
  · have h1 := htails 1 (by omega) (by omega)
    have h2 := htails 2 (by omega) le_rfl
    have hval := toNat_result_two h htails
    rw [show limit 2 = 0x7FF from rfl] at hlow
    have hin1 := lt_length_of_isTail h1
    have hin2 := lt_length_of_isTail h2
    unfold IsTail at h1 h2
    have hb := need_eq_two h
    rw [hval, encode_three (by omega) (by omega) (by omega) (by omega)]
    exact ⟨starts_cons.mpr ⟨⟨ho, by omega⟩, starts_cons.mpr ⟨⟨hin1, by omega⟩,
      starts_cons.mpr ⟨⟨hin2, by show oct s (o + 2) = _; omega⟩, starts_nil _ _⟩⟩⟩, rfl⟩
  · have h1 := htails 1 (by omega) (by omega)
    have h2 := htails 2 (by omega) (by omega)
    have h3 := htails 3 (by omega) le_rfl
    have hval := toNat_result_three h htails
    rw [show limit 3 = 0xFFFF from rfl] at hlow
    have hin1 := lt_length_of_isTail h1
    have hin2 := lt_length_of_isTail h2
    have hin3 := lt_length_of_isTail h3
    unfold IsTail at h1 h2 h3
    have hb := need_eq_three h
    rw [hval, encode_four (by omega) (by omega) (by omega) (by omega)]
    exact ⟨starts_cons.mpr ⟨⟨ho, by omega⟩, starts_cons.mpr ⟨⟨hin1, by omega⟩,
      starts_cons.mpr ⟨⟨hin2, by show oct s (o + 2) = _; omega⟩,
        starts_cons.mpr ⟨⟨hin3, by show oct s (o + 3) = _; omega⟩, starts_nil _ _⟩⟩⟩⟩, rfl⟩

/-- A sequence whose continuation bytes are there and whose value is right is accepted. -/
theorem decode_value {v k : ℕ} (ho : o < s.length) (hn : need (oct s o) = k) (hk : 1 ≤ k ∧ k ≤ 3)
    (htails : Tails s o 0 k) (hval : (result s o k).toNat = v) (hlow : limit k < v) (hv : Scalar v) :
    utf8_decode s o = .ok (some (o + k + 1, BitVec.ofNat 32 v)) := by
  have hb : 0x80 ≤ oct s o := by
    by_contra hlt
    have : need (oct s o) = 0 := by
      unfold need
      rw [if_pos (by omega)]
    omega
  subst hn
  rw [decode_short ho hb hk htails, hval, if_pos ⟨hlow, hv⟩, ← hval, BitVec.ofNat_toNat]
  simp

/-- **A sequence of the grammar is accepted**, with its value. -/
theorem utf8_decode_accepts {v : ℕ} (hv : Scalar v) (hst : Starts s o (encode v)) :
    utf8_decode s o = .ok (some (o + (encode v).length, BitVec.ofNat 32 v)) := by
  rcases encode_cases hv.1 with ⟨hlt, he⟩ | ⟨x, y, hx, hx', hy, rfl, he⟩ | ⟨x, y, z, hx, hy, hz, rfl, hlow, he⟩ |
    ⟨x, y, z, t, hx, hy, hz, ht, rfl, hlow, he⟩ <;> rw [he] at hst ⊢
  · obtain ⟨⟨ho, h0⟩, _⟩ := starts_cons.mp hst
    rw [decode_ascii ho (by omega)]
    congr 3
    apply BitVec.eq_of_toNat_eq
    rw [BitVec.toNat_setWidth, BitVec.toNat_ofNat]
    exact congrArg (· % 2 ^ 32) h0
  · obtain ⟨⟨ho, h0⟩, hst⟩ := starts_cons.mp hst
    obtain ⟨⟨_, h1⟩, _⟩ := starts_cons.mp hst
    have hn : need (oct s o) = 1 := by
      unfold need
      rw [if_neg (by omega), if_pos (by omega)]
    have htails : Tails s o 0 1 := by
      intro j hj hj'
      obtain rfl : j = 1 := by omega
      exact ⟨by omega, by omega⟩
    have hval : (result s o 1).toNat = x * 64 + y := by
      rw [toNat_result_one hn htails]
      omega
    have hlow : limit 1 < x * 64 + y := show 0x7F < x * 64 + y by omega
    have hdecode := decode_value ho hn ⟨le_rfl, by decide⟩ htails hval hlow hv
    exact hdecode
  · obtain ⟨⟨ho, h0⟩, hst⟩ := starts_cons.mp hst
    obtain ⟨⟨_, h1⟩, hst⟩ := starts_cons.mp hst
    obtain ⟨⟨_, h2⟩, _⟩ := starts_cons.mp hst
    change oct s (o + 2) = 0x80 + z at h2
    have hn : need (oct s o) = 2 := by
      unfold need
      rw [if_neg (by omega), if_neg (by omega), if_pos (by omega)]
    have htails : Tails s o 0 2 := by
      intro j hj hj'
      have hcases : j = 1 ∨ j = 2 := by omega
      rcases hcases with rfl | rfl
      · exact ⟨by omega, by omega⟩
      · exact ⟨by omega, by omega⟩
    have hval : (result s o 2).toNat = x * 4096 + y * 64 + z := by
      rw [toNat_result_two hn htails]
      omega
    have hlow : limit 2 < x * 4096 + y * 64 + z := show 0x7FF < x * 4096 + y * 64 + z by omega
    have hdecode := decode_value ho hn ⟨by decide, by decide⟩ htails hval hlow hv
    exact hdecode
  · obtain ⟨⟨ho, h0⟩, hst⟩ := starts_cons.mp hst
    obtain ⟨⟨_, h1⟩, hst⟩ := starts_cons.mp hst
    obtain ⟨⟨_, h2⟩, hst⟩ := starts_cons.mp hst
    obtain ⟨⟨_, h3⟩, _⟩ := starts_cons.mp hst
    change oct s (o + 2) = 0x80 + z at h2
    change oct s (o + 3) = 0x80 + t at h3
    have hn : need (oct s o) = 3 := by
      unfold need
      rw [if_neg (by omega), if_neg (by omega), if_neg (by omega), if_pos (by omega)]
    have htails : Tails s o 0 3 := by
      intro j hj hj'
      have hcases : j = 1 ∨ j = 2 ∨ j = 3 := by omega
      rcases hcases with rfl | rfl | rfl
      · exact ⟨by omega, by omega⟩
      · exact ⟨by omega, by omega⟩
      · exact ⟨by omega, by omega⟩
    have hval : (result s o 3).toNat = x * 262144 + y * 4096 + z * 64 + t := by
      rw [toNat_result_three hn htails]
      omega
    have hlow : limit 3 < x * 262144 + y * 4096 + z * 64 + t := show 0xFFFF < x * 262144 + y * 4096 + z * 64 + t by omega
    have hdecode := decode_value ho hn ⟨by decide, le_rfl⟩ htails hval hlow hv
    exact hdecode

/-- **Any other sequence is rejected**, unless it is too long to be looked at. -/
theorem utf8_decode_rejects (ho : o < s.length) (hno : ¬∃ v, Scalar v ∧ Starts s o (encode v)) (hlong : ¬Overlong s o) :
    utf8_decode s o = .ok none := by
  by_cases hb : oct s o < 0x80
  · refine absurd ⟨oct s o, ⟨by omega, by omega⟩, ?_⟩ hno
    rw [encode_one hb]
    exact starts_cons.mpr ⟨⟨ho, rfl⟩, starts_nil _ _⟩
  · by_cases hk : 1 ≤ need (oct s o) ∧ need (oct s o) ≤ 3
    · by_cases htails : Tails s o 0 (need (oct s o))
      · rw [decode_short ho (by omega) hk htails, if_neg]
        rintro ⟨hlow, hscalar⟩
        exact hno ⟨_, hscalar, (starts_encode_result ho hk htails hlow hscalar).1⟩
      · rw [decode_multi ho (by omega), if_neg htails]
    · by_cases h7 : need (oct s o) < 7
      · exact decode_other ho (by omega) (by omega) h7
      · have hle := need_le (oct s o)
        have hseven : need (oct s o) = 7 := by omega
        have hff : oct s o = 0xFF := by
          have hlt := oct_lt s o
          unfold need at hseven
          split_ifs at hseven <;> omega
        rw [decode_multi ho (by omega), if_neg]
        rw [hseven]
        exact fun htails => hlong ⟨hff, htails⟩

/-- An accepted sequence is followed by the one that starts behind it. -/
theorem utf8_decode_iff {o' : ℕ} {r : BitVec 32} (ho : o < s.length) :
    utf8_decode s o = .ok (some (o', r)) ↔ ∃ v, Scalar v ∧ Starts s o (encode v) ∧ o' = o + (encode v).length ∧
      r = BitVec.ofNat 32 v := by
  constructor
  · intro h
    by_cases hv : ∃ v, Scalar v ∧ Starts s o (encode v)
    · obtain ⟨v, hv, hst⟩ := hv
      rw [utf8_decode_accepts hv hst] at h
      obtain ⟨rfl, rfl⟩ := Prod.mk.inj (Option.some.inj (Except.ok.inj h))
      exact ⟨v, hv, hst, rfl, rfl⟩
    · by_cases hlong : Overlong s o
      · rw [decode_overlong hlong] at h
        cases h
      · rw [utf8_decode_rejects ho hv hlong] at h
        cases Except.ok.inj h
  · rintro ⟨v, hv, hst, rfl, rfl⟩
    exact utf8_decode_accepts hv hst

end Sequence

end Luwu.Utf8Lib
