import Luwu.Bits.Core
import Luwu.Table.Invariant

/-!
# Bits and ranges of buffers

`buffer.readbits` and `buffer.writebits` copy the bytes around a range of bits into a word of 64 bits, up to five of them,
and write them back; `buffer.copy` moves a range of bytes.  A copy that would leave a buffer or the word, and a signed sum
that overflows, stop the run.

Arguments are numbers, and convert as on x86, which answers the least integer where the number is out of range.
-/

namespace Luwu.BufLib

open Checked

abbrev Byte := BitVec 8

def MAX_BUFFER_SIZE : ℕ := 2 ^ 30

structure Buffer where
  data : List Byte
  short : data.length ≤ MAX_BUFFER_SIZE
  immutable : Bool

inductive Stop
  | error (msg : String)
  | undefined (f : Fault)
  /-- bytes are copied from or to a place outside -/
  | outside
deriving DecidableEq

abbrev BufM := Except Stop

def checked {α : Type} : Except Fault α → BufM α := Except.mapError .undefined

def outofbounds {α : Type} : BufM α := .error (.error "buffer access out of bounds")

/-- `uint64_t(unsigned(offset)) + (accessize) > uint64_t(len)` -/
def isoutofbounds (offset : ℤ) (len accessize : ℕ) : Prop := len < cast_unsigned offset + accessize

instance (offset : ℤ) (len accessize : ℕ) : Decidable (isoutofbounds offset len accessize) := by
  unfold isoutofbounds
  infer_instance

def checkbuffermutable (buf : Buffer) : BufM Unit :=
  if buf.immutable then .error (.error "buffer is immutable") else .ok ⟨⟩

/-- `(int64_t)luaL_checknumber(..)` -/
def num2int64 (n : Double) : ℤ :=
  if n.isNaN then -2 ^ 63 else if -2 ^ 63 ≤ n.trunc ∧ n.trunc < 2 ^ 63 then n.trunc else -2 ^ 63

/-! ### Copying bytes -/

/-- The bytes as a word, the first in the lowest bits -/
def word : List Byte → BitVec 64
  | [] => 0
  | b :: bs => (word bs <<< 8) ||| b.setWidth 64

/-- `memcpy` of `n` bytes of the buffer into a word of zeroes -/
def loadword (data : List Byte) (start n : ℕ) : BufM (BitVec 64) :=
  if start + n ≤ data.length ∧ n ≤ 8 then .ok (word ((data.drop start).take n)) else .error .outside

/-- The bytes `bytes` at the place `start` -/
def overwrite (data : List Byte) (start : ℕ) (bytes : List Byte) : List Byte :=
  data.take start ++ bytes ++ data.drop (start + bytes.length)

/-- `memcpy` of `n` bytes of a word into the buffer -/
def storeword (data : List Byte) (start n : ℕ) (w : BitVec 64) : BufM (List Byte) :=
  if start + n ≤ data.length ∧ n ≤ 8 then
    .ok (overwrite data start ((List.range n).map fun i => w.extractLsb' (8 * i) 8))
  else .error .outside

/-- The first bytes of the range, and how many there are -/
def bytesof (len : ℕ) (bitoffset bitcount : ℤ) : BufM (ℕ × ℕ) := do
  if bitoffset < 0 then outofbounds
  if 32 < cast_unsigned bitcount then .error (.error "bit count is out of range of [0; 32]")
  let sum ← checked (add 64 bitoffset bitcount)
  if len * 8 < (sum % 2 ^ 64).toNat then outofbounds
  let startbyte := cast_unsigned (bitoffset / 8)
  let endbyte := cast_unsigned ((← checked (add 64 (← checked (add 64 bitoffset bitcount)) 7)) / 8)
  return (startbyte, cast_unsigned ((endbyte : ℤ) - startbyte))

def buffer_readbits (buf : Buffer) (arg2 arg3 : Double) : BufM (BitVec 32) := do
  let bitoffset := num2int64 arg2
  let bitcount := luai_num2int arg3
  let (startbyte, n) ← bytesof buf.data.length bitoffset bitcount
  let data ← loadword buf.data startbyte n
  let subbyteoffset := (bitoffset % 8).toNat
  let mask := (1#64 <<< bitcount.toNat) - 1#64
  return ((data >>> subbyteoffset) &&& mask).setWidth 32

/-- The new contents of the buffer -/
def buffer_writebits (buf : Buffer) (arg2 arg3 arg4 : Double) : BufM (List Byte) := do
  checkbuffermutable buf
  let bitoffset := num2int64 arg2
  let bitcount := luai_num2int arg3
  let value := luai_num2unsigned arg4
  let (startbyte, n) ← bytesof buf.data.length bitoffset bitcount
  let data ← loadword buf.data startbyte n
  let subbyteoffset := (bitoffset % 8).toNat
  let mask := ((1#64 <<< bitcount.toNat) - 1#64) <<< subbyteoffset
  let data := (data &&& ~~~mask) ||| ((value.setWidth 64 <<< subbyteoffset) &&& mask)
  storeword buf.data startbyte n data

/-- `memmove` of a range of bytes -/
def memmove (target source : List Byte) (toffset soffset size : ℕ) : BufM (List Byte) :=
  if soffset + size ≤ source.length ∧ toffset + size ≤ target.length then
    .ok (overwrite target toffset ((source.drop soffset).take size))
  else .error .outside

/-- The new contents of the target -/
def buffer_copy (tbuf sbuf : Buffer) (arg2 : Double) (arg4 arg5 : Option Double) : BufM (List Byte) := do
  checkbuffermutable tbuf
  let toffset := luai_num2int arg2
  let soffset := (arg4.map luai_num2int).getD 0
  let dflt ← checked (sub 32 sbuf.data.length soffset)
  let size := (arg5.map luai_num2int).getD dflt
  if size < 0 then outofbounds
  if isoutofbounds soffset sbuf.data.length (cast_unsigned size) then outofbounds
  if isoutofbounds toffset tbuf.data.length (cast_unsigned size) then outofbounds
  memmove tbuf.data sbuf.data toffset.toNat soffset.toNat size.toNat

/-! ### Bits of a list of bytes -/

section Bits

variable {data bytes : List Byte} {start n p k c : ℕ} {w : BitVec 64} {b : Byte}

/-- The bit `p` of a buffer -/
def bitAt (data : List Byte) (p : ℕ) : Bool := (data.getD (p / 8) 0).getLsbD (p % 8)

theorem bitAt_nil (p : ℕ) : bitAt [] p = false := by
  unfold bitAt
  simp

theorem bitAt_cons_of_lt (hp : p < 8) : bitAt (b :: bytes) p = b.getLsbD p := by
  unfold bitAt
  rw [Nat.div_eq_of_lt hp, Nat.mod_eq_of_lt hp, List.getD_cons_zero]

theorem bitAt_cons_of_le (hp : 8 ≤ p) : bitAt (b :: bytes) p = bitAt bytes (p - 8) := by
  have hdiv : p / 8 = (p - 8) / 8 + 1 := by omega
  have hmod : p % 8 = (p - 8) % 8 := by omega
  unfold bitAt
  rw [hdiv, hmod, List.getD_cons_succ]

theorem bitAt_of_length_le (hp : 8 * bytes.length ≤ p) : bitAt bytes p = false := by
  unfold bitAt
  rw [List.getD_eq_getElem?_getD, List.getElem?_eq_none (by omega)]
  simp

theorem bitAt_eq_of_getElem? {data' : List Byte} (h : data'[p / 8]? = data[p / 8]?) : bitAt data' p = bitAt data p := by
  unfold bitAt
  rw [List.getD_eq_getElem?_getD, List.getD_eq_getElem?_getD, h]

theorem getLsbD_word (hlen : bytes.length ≤ 8) (p : ℕ) : (word bytes).getLsbD p = bitAt bytes p := by
  induction bytes generalizing p with
  | nil =>
    rw [bitAt_nil]
    simp [word]
  | cons b bs ih =>
    rw [List.length_cons] at hlen
    unfold word
    rw [BitVec.getLsbD_or, BitVec.getLsbD_shiftLeft, BitVec.getLsbD_setWidth, ih (by omega)]
    by_cases hp : p < 8
    · have h64 : p < 64 := by omega
      rw [bitAt_cons_of_lt hp]
      simp [hp, h64]
    · have hnone : b.getLsbD p = false := BitVec.getLsbD_of_ge b p (by omega)
      rw [bitAt_cons_of_le (by omega)]
      by_cases h64 : p < 64
      · simp [hp, h64, hnone]
      · rw [bitAt_of_length_le (by omega)]
        simp [h64]

theorem bitAt_drop_take (hp : p < 8 * n) : bitAt ((data.drop start).take n) p = bitAt data (8 * start + p) := by
  have hdiv : (8 * start + p) / 8 = start + p / 8 := by omega
  have hmod : (8 * start + p) % 8 = p % 8 := by omega
  unfold bitAt
  rw [hdiv, hmod, List.getD_eq_getElem?_getD, List.getD_eq_getElem?_getD, List.getElem?_take_of_lt (by omega),
    List.getElem?_drop]

/-- A word that is loaded has the bits of the bytes, and zeroes above. -/
theorem loadword_spec (hin : start + n ≤ data.length) (hn : n ≤ 8) :
    ∃ w, loadword data start n = .ok w ∧
      ∀ k, w.getLsbD k = if k < 8 * n then bitAt data (8 * start + k) else false := by
  refine ⟨word ((data.drop start).take n), if_pos ⟨hin, hn⟩, ?_⟩
  intro k
  have hlen : ((data.drop start).take n).length = n := by
    rw [List.length_take, List.length_drop]
    omega
  rw [getLsbD_word (by omega)]
  by_cases hk : k < 8 * n
  · rw [if_pos hk, bitAt_drop_take hk]
  · rw [if_neg hk, bitAt_of_length_le (by omega)]

theorem length_overwrite (hin : start + bytes.length ≤ data.length) :
    (overwrite data start bytes).length = data.length := by
  unfold overwrite
  rw [List.length_append, List.length_append, List.length_take, List.length_drop]
  omega

/-- Bytes within the range come from the new ones, the others stay. -/
theorem getElem?_overwrite (hin : start + bytes.length ≤ data.length) (i : ℕ) :
    (overwrite data start bytes)[i]? =
      if start ≤ i ∧ i < start + bytes.length then bytes[i - start]? else data[i]? := by
  have htake : (data.take start).length = start := by
    rw [List.length_take]
    omega
  unfold overwrite
  rw [List.append_assoc]
  by_cases hlo : start ≤ i
  · rw [List.getElem?_append_right (by omega), htake]
    by_cases hhi : i < start + bytes.length
    · rw [if_pos ⟨hlo, hhi⟩, List.getElem?_append_left (by omega)]
    · rw [if_neg (fun h => hhi h.2), List.getElem?_append_right (by omega), List.getElem?_drop]
      congr 1
      omega
  · rw [if_neg (fun h => hlo h.1), List.getElem?_append_left (by omega), List.getElem?_take_of_lt (by omega)]

/-- Storing a word sets the bits of the bytes, and no others. -/
theorem storeword_spec (hin : start + n ≤ data.length) (hn : n ≤ 8) (w : BitVec 64) :
    ∃ data', storeword data start n w = .ok data' ∧ data'.length = data.length ∧
      ∀ p, bitAt data' p =
        if 8 * start ≤ p ∧ p < 8 * (start + n) then w.getLsbD (p - 8 * start) else bitAt data p := by
  have hlen : ((List.range n).map fun i => w.extractLsb' (8 * i) 8).length = n := by
    rw [List.length_map, List.length_range]
  refine ⟨overwrite data start ((List.range n).map fun i => w.extractLsb' (8 * i) 8), if_pos ⟨hin, hn⟩, ?_, ?_⟩
  · exact length_overwrite (by omega)
  · intro p
    by_cases hp : 8 * start ≤ p ∧ p < 8 * (start + n)
    · have hi : p / 8 - start < n := by omega
      have hplace : p - 8 * start = 8 * (p / 8 - start) + p % 8 := by omega
      have h8 : p % 8 < 8 := by omega
      rw [if_pos hp]
      unfold bitAt
      rw [List.getD_eq_getElem?_getD, getElem?_overwrite (by omega), if_pos (by omega), List.getElem?_map,
        List.getElem?_range hi, hplace]
      simp [h8]
    · rw [if_neg hp]
      apply bitAt_eq_of_getElem?
      rw [getElem?_overwrite (by omega), if_neg (by omega)]

/-- The mask of a count of bits -/
theorem shl_one_sub_one (hc : c < 64) : 1#64 <<< c - 1#64 = lowMask 64 c := by
  have hlt : 2 ^ c < 2 ^ 64 := Nat.pow_lt_pow_right (by decide) hc
  have hpos : 0 < 2 ^ c := Nat.two_pow_pos c
  have h1 : (1#64).toNat = 1 := rfl
  have hone : (1#64 <<< c).toNat = 2 ^ c := by
    rw [BitVec.toNat_shiftLeft, h1, Nat.shiftLeft_eq, Nat.one_mul, Nat.mod_eq_of_lt hlt]
  apply BitVec.eq_of_toNat_eq
  rw [BitVec.toNat_sub, hone, h1, lowMask, BitVec.toNat_ofNat]
  omega

end Bits

end Luwu.BufLib
