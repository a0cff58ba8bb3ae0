import Luwu.BufLib.Access

/-!
# What the accesses of a buffer do

An offset is a double that was cast, so near the top of the 64 bits it is a multiple of 1024 and the sums that find the last
byte stay in range.
-/

namespace Luwu.BufLib

open Checked

section Arguments

variable {x : Double} {off cnt i : ℤ} {len : ℕ}

theorem cast_unsigned_of_nonneg (h0 : 0 ≤ i) (h : i < 2 ^ 32) : cast_unsigned i = i.toNat := by
  unfold cast_unsigned
  rw [Int.emod_eq_of_lt h0 h]

theorem cast_unsigned_of_neg (h0 : i < 0) (h : -2 ^ 32 ≤ i) : cast_unsigned i = (i + 2 ^ 32).toNat := by
  unfold cast_unsigned
  rw [← Int.add_emod_right, Int.emod_eq_of_lt (by omega) (by omega)]

/-- The distance of the doubles below `2 ^ 63` -/
theorem significand_le {f e : ℕ} (hf : f < 2 ^ 52) (h : (2 ^ 52 + f) * 2 ^ e / 2 ^ 52 < 2 ^ 63) :
    (2 ^ 52 + f) * 2 ^ e / 2 ^ 52 ≤ 2 ^ 63 - 1024 := by
  by_cases he : e ≤ 61
  · -- the number is at most `2 ^ 62`
    have hpow : 2 ^ e ≤ 2 ^ 61 := Nat.pow_le_pow_right (by decide) he
    have hmul : (2 ^ 52 + f) * 2 ^ e ≤ 2 ^ 53 * 2 ^ 61 := Nat.mul_le_mul (by omega) hpow
    calc (2 ^ 52 + f) * 2 ^ e / 2 ^ 52 ≤ 2 ^ 53 * 2 ^ 61 / 2 ^ 52 := Nat.div_le_div_right hmul
      _ ≤ 2 ^ 63 - 1024 := by norm_num
  · obtain ⟨d, rfl⟩ : ∃ d, e = 52 + d := ⟨e - 52, by omega⟩
    have hval : (2 ^ 52 + f) * 2 ^ (52 + d) / 2 ^ 52 = (2 ^ 52 + f) * 2 ^ d := by
      rw [Nat.pow_add, Nat.mul_left_comm, Nat.mul_div_cancel_left _ (by norm_num)]
    rw [hval] at h ⊢
    by_cases hd : d = 10
    · rw [hd] at h ⊢
      omega
    · -- the number is not below `2 ^ 63`
      have hpow : 2 ^ 11 ≤ 2 ^ d := Nat.pow_le_pow_right (by decide) (by omega)
      have hmul : 2 ^ 52 * 2 ^ 11 ≤ (2 ^ 52 + f) * 2 ^ d := Nat.mul_le_mul (by omega) hpow
      omega

theorem truncMag_le (h : x.truncMag < 2 ^ 63) : x.truncMag ≤ 2 ^ 63 - 1024 := by
  unfold Double.truncMag at h ⊢
  by_cases hsmall : x.mag / 2 ^ 52 < 1023
  · rw [if_pos hsmall]
    exact Nat.zero_le _
  · rw [if_neg hsmall] at h ⊢
    exact significand_le (Nat.mod_lt _ (Nat.two_pow_pos 52)) h

theorem num2int64_range (x : Double) : -2 ^ 63 ≤ num2int64 x ∧ num2int64 x ≤ 2 ^ 63 - 1024 := by
  unfold num2int64
  split_ifs with hnan hr
  · norm_num
  · refine ⟨hr.1, ?_⟩
    unfold Double.trunc at hr ⊢
    split_ifs with hneg
    · have := Int.natCast_nonneg x.truncMag
      omega
    · rw [if_neg hneg] at hr
      have hle := truncMag_le (x := x) (by exact_mod_cast hr.2)
      omega
  · norm_num

end Arguments

/-! ### Ranges of bits -/

section Ranges

variable {data data' : List Byte} {off cnt : ℤ} {len : ℕ} {w v : BitVec 64}

/-- The bits `off .. off + cnt - 1` are in the buffer. -/
def BitsIn (len : ℕ) (off cnt : ℤ) : Prop := 0 ≤ off ∧ off + cnt ≤ 8 * len

/-- What is checked before a range of bits is looked at -/
theorem bytesof_eq (hoff : off ≤ 2 ^ 63 - 1024) (h0 : 0 ≤ off) (hc0 : 0 ≤ cnt) (hc : cnt ≤ 32) :
    bytesof len off cnt =
      if 8 * (len : ℤ) < off + cnt then outofbounds
      else .ok (cast_unsigned (off / 8),
        cast_unsigned ((cast_unsigned ((off + cnt + 7) / 8) : ℤ) - cast_unsigned (off / 8))) := by
  have hcnt : cast_unsigned cnt = cnt.toNat := cast_unsigned_of_nonneg hc0 (by omega)
  have hsum : add 64 off cnt = .ok (off + cnt) := add_ok ⟨by norm_num; omega, by norm_num; omega⟩
  have hround : add 64 (off + cnt) 7 = .ok (off + cnt + 7) := add_ok ⟨by norm_num; omega, by norm_num; omega⟩
  have hmod : (off + cnt) % 2 ^ 64 = off + cnt := Int.emod_eq_of_lt (by omega) (by omega)
  have hlen : len * 8 < (off + cnt).toNat ↔ 8 * (len : ℤ) < off + cnt := by omega
  unfold bytesof
  rw [if_neg (by omega), hcnt, if_neg (by omega), hsum]
  show ite (len * 8 < ((off + cnt) % 2 ^ 64).toNat) _ _ = _
  rw [hmod]
  by_cases hout : 8 * (len : ℤ) < off + cnt
  · rw [if_pos hout, if_pos (hlen.mpr hout)]
    rfl
  · rw [if_neg hout, if_neg (fun h => hout (hlen.mp h))]
    show (checked (add 64 (off + cnt) 7) >>= _) = _
    rw [hround]
    rfl

theorem bytesof_in (hlen : len ≤ MAX_BUFFER_SIZE) (hc0 : 0 ≤ cnt) (hc : cnt ≤ 32) (hin : BitsIn len off cnt) :
    bytesof len off cnt = .ok ((off / 8).toNat, ((off + cnt + 7) / 8 - off / 8).toNat) := by
  obtain ⟨h0, hle⟩ := hin
  unfold MAX_BUFFER_SIZE at hlen
  have hstart : cast_unsigned (off / 8) = (off / 8).toNat := cast_unsigned_of_nonneg (by omega) (by omega)
  have hend : cast_unsigned ((off + cnt + 7) / 8) = ((off + cnt + 7) / 8).toNat :=
    cast_unsigned_of_nonneg (by omega) (by omega)
  have hdiff : (((off + cnt + 7) / 8).toNat : ℤ) - (off / 8).toNat = (off + cnt + 7) / 8 - off / 8 := by omega
  rw [bytesof_eq (by omega) h0 hc0 hc, if_neg (by omega), hstart, hend, hdiff,
    cast_unsigned_of_nonneg (by omega) (by omega)]

theorem bytesof_out (hoff : off ≤ 2 ^ 63 - 1024) (hc0 : 0 ≤ cnt) (hc : cnt ≤ 32) (hout : ¬BitsIn len off cnt) :
    bytesof len off cnt = outofbounds := by
  by_cases h0 : 0 ≤ off
  · rw [bytesof_eq hoff h0 hc0 hc, if_pos]
    by_contra hle
    exact hout ⟨h0, by omega⟩
  · unfold bytesof
    rw [if_pos (by omega)]
    rfl

/-- The bytes around a range of bits, at most five -/
structure Window (len : ℕ) (off cnt : ℤ) (start n sub : ℕ) : Prop where
  inside : start + n ≤ len
  few : n ≤ 5
  place : off.toNat = 8 * start + sub
  sub_lt : sub < 8
  covers : sub + cnt.toNat ≤ 8 * n

theorem window_of_in (hc0 : 0 ≤ cnt) (hc : cnt ≤ 32) (hin : BitsIn len off cnt) :
    Window len off cnt (off / 8).toNat ((off + cnt + 7) / 8 - off / 8).toNat (off % 8).toNat := by
  obtain ⟨h0, hle⟩ := hin
  constructor <;> omega

end Ranges

/-! ### Bits that are read and written -/

section ReadWrite

variable {buf : Buffer} {x y z : Double}

theorem checkbuffermutable_ok (hm : buf.immutable = false) : checkbuffermutable buf = .ok ⟨⟩ := by
  unfold checkbuffermutable
  rw [hm]
  rfl

theorem buffer_readbits_of_load {start n : ℕ} {w : BitVec 64}
    (hbytes : bytesof buf.data.length (num2int64 x) (luai_num2int y) = .ok (start, n))
    (hload : loadword buf.data start n = .ok w) :
    buffer_readbits buf x y =
      .ok ((w >>> (num2int64 x % 8).toNat &&& (1#64 <<< (luai_num2int y).toNat - 1#64)).setWidth 32) := by
  show (bytesof buf.data.length (num2int64 x) (luai_num2int y) >>= _) = _
  rw [hbytes]
  show (loadword buf.data start n >>= _) = _
  rw [hload]
  rfl

theorem buffer_writebits_of_load {start n sub : ℕ} {w mask : BitVec 64} (hm : buf.immutable = false)
    (hbytes : bytesof buf.data.length (num2int64 x) (luai_num2int y) = .ok (start, n))
    (hload : loadword buf.data start n = .ok w) (hsub : (num2int64 x % 8).toNat = sub)
    (hmask : 1#64 <<< (luai_num2int y).toNat - 1#64 = mask) :
    buffer_writebits buf x y z = storeword buf.data start n
      (w &&& ~~~(mask <<< sub) ||| ((luai_num2unsigned z).setWidth 64 <<< sub &&& mask <<< sub)) := by
  subst hsub hmask
  show (checkbuffermutable buf >>= _) = _
  rw [checkbuffermutable_ok hm]
  show (bytesof buf.data.length (num2int64 x) (luai_num2int y) >>= _) = _
  rw [hbytes]
  show (loadword buf.data start n >>= _) = _
  rw [hload]
  rfl

/-- The bits read are those of the range. -/
theorem buffer_readbits_in (hc0 : 0 ≤ luai_num2int y) (hc : luai_num2int y ≤ 32)
    (hin : BitsIn buf.data.length (num2int64 x) (luai_num2int y)) :
    ∃ v, buffer_readbits buf x y = .ok v ∧ ∀ k, v.getLsbD k =
      if k < (luai_num2int y).toNat then bitAt buf.data ((num2int64 x).toNat + k) else false := by
  have hw := window_of_in hc0 hc hin
  have hn : ((num2int64 x + luai_num2int y + 7) / 8 - num2int64 x / 8).toNat ≤ 8 := by
    have := hw.few
    omega
  obtain ⟨w, hload, hbits⟩ := loadword_spec hw.inside hn
  refine ⟨_, buffer_readbits_of_load (bytesof_in buf.short hc0 hc hin) hload, ?_⟩
  intro k
  have hcovers := hw.covers
  have hsub := hw.sub_lt
  have hplace := hw.place
  rw [shl_one_sub_one (by omega), shr_and_lowMask, BitVec.getLsbD_setWidth, getLsbD_field, hbits]
  by_cases hk : k < (luai_num2int y).toNat
  · have hat : (num2int64 x).toNat + k = 8 * (num2int64 x / 8).toNat + ((num2int64 x % 8).toNat + k) := by omega
    have h32 : k < 32 := by omega
    have h64 : k < 64 := by omega
    rw [if_pos hk, if_pos (by omega), hat]
    simp [hk, h32, h64]
  · rw [if_neg hk]
    simp [hk]

/-- The bits of the range are those of the value, the others stay. -/
theorem buffer_writebits_in (hm : buf.immutable = false) (hc0 : 0 ≤ luai_num2int y) (hc : luai_num2int y ≤ 32)
    (hin : BitsIn buf.data.length (num2int64 x) (luai_num2int y)) :
    ∃ data', buffer_writebits buf x y z = .ok data' ∧ data'.length = buf.data.length ∧ ∀ p : ℕ, bitAt data' p =
      if num2int64 x ≤ p ∧ p < num2int64 x + luai_num2int y then
        (luai_num2unsigned z).getLsbD (p - (num2int64 x).toNat)
      else bitAt buf.data p := by
  have hw := window_of_in hc0 hc hin
  have hbytes := bytesof_in buf.short hc0 hc hin
  have hoff := hin.1
  generalize (num2int64 x / 8).toNat = start at hw hbytes
  generalize ((num2int64 x + luai_num2int y + 7) / 8 - num2int64 x / 8).toNat = n at hw hbytes
  generalize hsubdef : (num2int64 x % 8).toNat = sub at hw
  have hn : n ≤ 8 := by
    have := hw.few
    omega
  have hcovers := hw.covers
  have hsub := hw.sub_lt
  have hplace := hw.place
  have hinside := hw.inside
  obtain ⟨w, hload, hbits⟩ := loadword_spec hinside hn
  have hreplaced := replaced_of_masks w ((luai_num2unsigned z).setWidth 64) sub (luai_num2int y).toNat
  obtain ⟨data', hstore, hlength, hdata⟩ := storeword_spec hinside hn
    (w &&& ~~~(lowMask 64 (luai_num2int y).toNat <<< sub) |||
      ((luai_num2unsigned z).setWidth 64 &&& lowMask 64 (luai_num2int y).toNat) <<< sub)
  refine ⟨data', ?_, hlength, ?_⟩
  · rw [buffer_writebits_of_load hm hbytes hload hsubdef (shl_one_sub_one (by omega)), ← BitVec.shiftLeft_and_distrib]
    exact hstore
  · intro p
    rw [hdata]
    by_cases hp : 8 * start ≤ p ∧ p < 8 * (start + n)
    · -- a bit of the bytes that are written back
      rw [if_pos hp, hreplaced _ (by omega)]
      by_cases hrange : num2int64 x ≤ p ∧ p < num2int64 x + luai_num2int y
      · have hat : p - 8 * start - sub = p - (num2int64 x).toNat := by omega
        have h64 : p - (num2int64 x).toNat < 64 := by omega
        rw [if_pos hrange, if_pos (by omega), hat, BitVec.getLsbD_setWidth]
        simp [h64]
      · have hback : 8 * start + (p - 8 * start) = p := by omega
        rw [if_neg hrange, if_neg (by omega), hbits, if_pos (by omega), hback]
    · rw [if_neg hp, if_neg (by omega)]

theorem buffer_readbits_out (hc0 : 0 ≤ luai_num2int y) (hc : luai_num2int y ≤ 32)
    (hout : ¬BitsIn buf.data.length (num2int64 x) (luai_num2int y)) : buffer_readbits buf x y = outofbounds := by
  show (bytesof buf.data.length (num2int64 x) (luai_num2int y) >>= _) = _
  rw [bytesof_out (num2int64_range x).2 hc0 hc hout]
  rfl

theorem buffer_writebits_out (hm : buf.immutable = false) (hc0 : 0 ≤ luai_num2int y) (hc : luai_num2int y ≤ 32)
    (hout : ¬BitsIn buf.data.length (num2int64 x) (luai_num2int y)) : buffer_writebits buf x y z = outofbounds := by
  show (checkbuffermutable buf >>= _) = _
  rw [checkbuffermutable_ok hm]
  show (bytesof buf.data.length (num2int64 x) (luai_num2int y) >>= _) = _
  rw [bytesof_out (num2int64_range x).2 hc0 hc hout]
  rfl

end ReadWrite

/-! ### Ranges of bytes -/

section Copy

variable {tbuf sbuf : Buffer} {x : Double} {arg4 arg5 : Option Double} {off size : ℤ} {len : ℕ}

/-- The bytes `off .. off + size - 1` are in a buffer. -/
def BytesIn (len : ℕ) (off size : ℤ) : Prop := 0 ≤ off ∧ off + size ≤ len

/-- The bytes of a range become those the source had, all at once. -/
def Copied (target source : List Byte) (toffset soffset size : ℕ) (data : List Byte) : Prop :=
  data.length = target.length ∧
    ∀ i : ℕ, data[i]? = if toffset ≤ i ∧ i < toffset + size then source[soffset + (i - toffset)]? else target[i]?

/-- The test is right although it takes a negative offset for a large one. -/
theorem isoutofbounds_iff (hlen : len ≤ MAX_BUFFER_SIZE) (hoff : -2 ^ 31 ≤ off ∧ off < 2 ^ 31) (h0 : 0 ≤ size)
    (hsize : size < 2 ^ 31) : isoutofbounds off len (cast_unsigned size) ↔ ¬BytesIn len off size := by
  have hcast : cast_unsigned size = size.toNat := cast_unsigned_of_nonneg h0 (by omega)
  unfold isoutofbounds BytesIn
  unfold MAX_BUFFER_SIZE at hlen
  rw [hcast]
  by_cases hneg : off < 0
  · rw [cast_unsigned_of_neg hneg (by omega)]
    omega
  · rw [cast_unsigned_of_nonneg (by omega) (by omega)]
    omega

theorem memmove_ok {target source : List Byte} {toffset soffset size : ℕ} (hs : soffset + size ≤ source.length)
    (ht : toffset + size ≤ target.length) :
    ∃ data, memmove target source toffset soffset size = .ok data ∧ Copied target source toffset soffset size data := by
  have hlen : ((source.drop soffset).take size).length = size := by
    rw [List.length_take, List.length_drop]
    omega
  refine ⟨overwrite target toffset ((source.drop soffset).take size), if_pos ⟨hs, ht⟩, length_overwrite (by omega), ?_⟩
  intro i
  rw [getElem?_overwrite (by omega), hlen]
  by_cases hi : toffset ≤ i ∧ i < toffset + size
  · rw [if_pos hi, if_pos hi, List.getElem?_take_of_lt (by omega), List.getElem?_drop]
  · rw [if_neg hi, if_neg hi]

/-- The start of the range in the source -/
def soffsetOf (arg4 : Option Double) : ℤ := (arg4.map luai_num2int).getD 0

/-- The length of the range: by default all that the source has from there on -/
def sizeOf (slen : ℕ) (arg4 arg5 : Option Double) : ℤ := (arg5.map luai_num2int).getD (slen - soffsetOf arg4)

theorem soffsetOf_cast_num {i : ℤ} (h : -2 ^ 31 ≤ i ∧ i < 2 ^ 31) : soffsetOf (some (cast_num i)) = i :=
  luai_num2int_cast_num h

theorem soffsetOf_range (arg4 : Option Double) : -2 ^ 31 ≤ soffsetOf arg4 ∧ soffsetOf arg4 < 2 ^ 31 := by
  cases arg4 with
  | none => exact ⟨by norm_num [soffsetOf], by norm_num [soffsetOf]⟩
  | some y => exact luai_num2int_range y

theorem sizeOf_lt {slen : ℕ} (hfits : slen - soffsetOf arg4 < 2 ^ 31) : sizeOf slen arg4 arg5 < 2 ^ 31 := by
  cases arg5 with
  | none => exact hfits
  | some y => exact (luai_num2int_range y).2

theorem buffer_copy_of_fits (hm : tbuf.immutable = false) (hfits : sbuf.data.length - soffsetOf arg4 < 2 ^ 31) :
    buffer_copy tbuf sbuf x arg4 arg5 =
      if sizeOf sbuf.data.length arg4 arg5 < 0 then outofbounds
      else if isoutofbounds (soffsetOf arg4) sbuf.data.length (cast_unsigned (sizeOf sbuf.data.length arg4 arg5)) then
        outofbounds
      else if isoutofbounds (luai_num2int x) tbuf.data.length (cast_unsigned (sizeOf sbuf.data.length arg4 arg5)) then
        outofbounds
      else memmove tbuf.data sbuf.data (luai_num2int x).toNat (soffsetOf arg4).toNat
        (sizeOf sbuf.data.length arg4 arg5).toNat := by
  have hrange := soffsetOf_range arg4
  have hsub : sub 32 sbuf.data.length (soffsetOf arg4) = .ok (sbuf.data.length - soffsetOf arg4) :=
    sub_ok ⟨by norm_num; omega, by norm_num; omega⟩
  show (checkbuffermutable tbuf >>= _) = _
  rw [checkbuffermutable_ok hm]
  show (checked (sub 32 sbuf.data.length (soffsetOf arg4)) >>= _) = _
  rw [hsub]
  by_cases h0 : sizeOf sbuf.data.length arg4 arg5 < 0
  · rw [if_pos h0]
    show ite (sizeOf sbuf.data.length arg4 arg5 < 0) _ _ = _
    rw [if_pos h0]
    rfl
  · rw [if_neg h0]
    show ite (sizeOf sbuf.data.length arg4 arg5 < 0) _ _ = _
    rw [if_neg h0]
    by_cases hs : isoutofbounds (soffsetOf arg4) sbuf.data.length (cast_unsigned (sizeOf sbuf.data.length arg4 arg5))
    · rw [if_pos hs]
      show ite (isoutofbounds (soffsetOf arg4) sbuf.data.length (cast_unsigned (sizeOf sbuf.data.length arg4 arg5))) _ _ = _
      rw [if_pos hs]
      rfl
    · rw [if_neg hs]
      show ite (isoutofbounds (soffsetOf arg4) sbuf.data.length (cast_unsigned (sizeOf sbuf.data.length arg4 arg5))) _ _ = _
      rw [if_neg hs]
      show ite (isoutofbounds (luai_num2int x) tbuf.data.length _) _ _ = _
      congr 1

theorem buffer_copy_overflow (hm : tbuf.immutable = false) (hfits : ¬(sbuf.data.length - soffsetOf arg4 < 2 ^ 31)) :
    buffer_copy tbuf sbuf x arg4 arg5 = .error (.undefined .overflow) := by
  have hsub : sub 32 sbuf.data.length (soffsetOf arg4) = .error .overflow :=
    if_neg (fun h => hfits (lt_of_lt_of_eq h.2 (by norm_num)))
  show (checkbuffermutable tbuf >>= _) = _
  rw [checkbuffermutable_ok hm]
  show (checked (sub 32 sbuf.data.length (soffsetOf arg4)) >>= _) = _
  rw [hsub]
  rfl

/-- The ranges of a copy -/
def CopyIn (tbuf sbuf : Buffer) (x : Double) (arg4 arg5 : Option Double) : Prop :=
  0 ≤ sizeOf sbuf.data.length arg4 arg5 ∧
    BytesIn sbuf.data.length (soffsetOf arg4) (sizeOf sbuf.data.length arg4 arg5) ∧
    BytesIn tbuf.data.length (luai_num2int x) (sizeOf sbuf.data.length arg4 arg5)

/-- A copy within the buffers is made, another one is rejected. -/
def CopyMeets (tbuf sbuf : Buffer) (x : Double) (arg4 arg5 : Option Double) : Prop :=
  (CopyIn tbuf sbuf x arg4 arg5 → ∃ data, buffer_copy tbuf sbuf x arg4 arg5 = .ok data ∧
    Copied tbuf.data sbuf.data (luai_num2int x).toNat (soffsetOf arg4).toNat
      (sizeOf sbuf.data.length arg4 arg5).toNat data) ∧
  (¬CopyIn tbuf sbuf x arg4 arg5 → buffer_copy tbuf sbuf x arg4 arg5 = outofbounds)

theorem copyMeets_of_fits (hm : tbuf.immutable = false) (hfits : sbuf.data.length - soffsetOf arg4 < 2 ^ 31) :
    CopyMeets tbuf sbuf x arg4 arg5 := by
  have hrange := soffsetOf_range arg4
  have htrange := luai_num2int_range x
  have hlt : sizeOf sbuf.data.length arg4 arg5 < 2 ^ 31 := sizeOf_lt hfits
  unfold CopyMeets CopyIn
  rw [buffer_copy_of_fits hm hfits]
  generalize sizeOf sbuf.data.length arg4 arg5 = size at hlt ⊢
  by_cases h0 : size < 0
  · rw [if_pos h0]
    exact ⟨fun h => absurd h.1 (by omega), fun _ => rfl⟩
  · rw [if_neg h0]
    have hs := isoutofbounds_iff sbuf.short hrange (by omega) hlt
    have ht := isoutofbounds_iff tbuf.short htrange (by omega) hlt
    by_cases hsin : BytesIn sbuf.data.length (soffsetOf arg4) size
    · rw [if_neg (fun h => hs.mp h hsin)]
      by_cases htin : BytesIn tbuf.data.length (luai_num2int x) size
      · rw [if_neg (fun h => ht.mp h htin)]
        refine ⟨fun _ => ?_, fun h => absurd ⟨by omega, hsin, htin⟩ h⟩
        obtain ⟨hs0, hsle⟩ := hsin
        obtain ⟨ht0, htle⟩ := htin
        exact memmove_ok (by omega) (by omega)
      · rw [if_pos (ht.mpr htin)]
        exact ⟨fun h => absurd h.2.2 htin, fun _ => rfl⟩
    · rw [if_pos (hs.mpr hsin)]
      exact ⟨fun h => absurd h.2.1 hsin, fun _ => rfl⟩

/-- Only the default length goes wrong, for a start so far below the buffer that the length is no `int`. -/
theorem copyMeets_iff (hm : tbuf.immutable = false) :
    CopyMeets tbuf sbuf x arg4 arg5 ↔ sbuf.data.length - soffsetOf arg4 < 2 ^ 31 := by
  constructor
  · intro h
    by_contra hfits
    have hover : buffer_copy tbuf sbuf x arg4 arg5 = _ := buffer_copy_overflow hm hfits
    by_cases hin : CopyIn tbuf sbuf x arg4 arg5
    · obtain ⟨data, hdata, -⟩ := h.1 hin
      rw [hover] at hdata
      cases hdata
    · have hdata := h.2 hin
      rw [hover] at hdata
      cases hdata
  · exact copyMeets_of_fits hm

end Copy

/-! ### The calls -/

section Calls

variable {buf tbuf sbuf : Buffer} {x y z : Double} {arg4 arg5 : Option Double}

/-- A range of bits within the buffer is written and read back; another one is rejected. -/
def BitsMeet (buf : Buffer) (x y z : Double) : Prop :=
  (BitsIn buf.data.length (num2int64 x) (luai_num2int y) →
    ∃ buf' : Buffer, buffer_writebits buf x y z = .ok buf'.data ∧ buf'.data.length = buf.data.length ∧
      buffer_readbits buf' x y = .ok (BitVec.ofNat 32 ((luai_num2unsigned z).toNat % 2 ^ (luai_num2int y).toNat)) ∧
      ∀ p : ℕ, ¬(num2int64 x ≤ p ∧ p < num2int64 x + luai_num2int y) → bitAt buf'.data p = bitAt buf.data p) ∧
  (BitsIn buf.data.length (num2int64 x) (luai_num2int y) →
    ∃ v, buffer_readbits buf x y = .ok v ∧ ∀ k, v.getLsbD k =
      if k < (luai_num2int y).toNat then bitAt buf.data ((num2int64 x).toNat + k) else false) ∧
  (¬BitsIn buf.data.length (num2int64 x) (luai_num2int y) →
    buffer_writebits buf x y z = outofbounds ∧ buffer_readbits buf x y = outofbounds)

theorem bitsMeet (hm : buf.immutable = false) (hc0 : 0 ≤ luai_num2int y) (hc : luai_num2int y ≤ 32) :
    BitsMeet buf x y z := by
  refine ⟨?_, buffer_readbits_in hc0 hc, fun hout =>
    ⟨buffer_writebits_out hm hc0 hc hout, buffer_readbits_out hc0 hc hout⟩⟩
  intro hin
  obtain ⟨data', hwrite, hlength, hdata⟩ := buffer_writebits_in (z := z) hm hc0 hc hin
  refine ⟨⟨data', hlength ▸ buf.short, buf.immutable⟩, hwrite, hlength, ?_, ?_⟩
  · obtain ⟨v, hread, hv⟩ : ∃ v, buffer_readbits ⟨data', hlength ▸ buf.short, buf.immutable⟩ x y = .ok v ∧
        ∀ k, v.getLsbD k = if k < (luai_num2int y).toNat then bitAt data' ((num2int64 x).toNat + k) else false :=
      buffer_readbits_in hc0 hc (show BitsIn data'.length _ _ from hlength ▸ hin)
    rw [hread]
    congr 1
    apply BitVec.eq_of_getLsbD_eq
    intro k hk
    rw [hv, BitVec.getLsbD_ofNat, Nat.testBit_mod_two_pow]
    by_cases hlt : k < (luai_num2int y).toNat
    · have h0 := hin.1
      have hat : (num2int64 x).toNat + k - (num2int64 x).toNat = k := by omega
      rw [if_pos hlt]
      show bitAt data' _ = _
      rw [hdata, if_pos (by omega), hat]
      simp only [hk, hlt, decide_true, Bool.true_and]
      rfl
    · rw [if_neg hlt]
      simp [hlt]
  · intro p hp
    show bitAt data' p = _
    rw [hdata, if_neg hp]

/-- **Bits and ranges of bytes are accessed within the buffer or not at all**: what is written is read back, the rest of the
buffer stays, and only a copy of the default length may leave `int`. -/
theorem buffer_accesses (buf sbuf : Buffer) (x y z : Double) (arg4 arg5 : Option Double) (hm : buf.immutable = false) :
    (0 ≤ luai_num2int y → luai_num2int y ≤ 32 → BitsMeet buf x y z) ∧
      (CopyMeets buf sbuf x arg4 arg5 ↔ sbuf.data.length - soffsetOf arg4 < 2 ^ 31) :=
  ⟨bitsMeet hm, copyMeets_iff hm⟩

/-- A buffer of one byte -/
def oneByte : Buffer := ⟨[0xa5], by decide, false⟩

/-- Three bits of a byte are written and read back, and a copy within the byte is made. -/
theorem buffer_accesses_sample :
    BitsMeet oneByte (cast_num 2) (cast_num 3) (cast_num 13) ∧
      CopyMeets oneByte oneByte (cast_num 0) (some (cast_num 0)) none := by
  have h3 : luai_num2int (cast_num 3) = 3 := luai_num2int_cast_num (by norm_num)
  have h0 : soffsetOf (some (cast_num 0)) = 0 := soffsetOf_cast_num (by norm_num)
  constructor
  · exact (buffer_accesses oneByte oneByte (cast_num 2) (cast_num 3) (cast_num 13) none none rfl).1
      (by rw [h3]; norm_num) (by rw [h3]; norm_num)
  · apply (buffer_accesses oneByte oneByte (cast_num 0) (cast_num 0) (cast_num 0) (some (cast_num 0)) none rfl).2.mpr
    rw [h0]
    norm_num [oneByte]

/-- From the least start on, the default length is no `int`. -/
theorem buffer_copy_overflows :
    ¬∀ (tbuf sbuf : Buffer) (x : Double) (arg4 arg5 : Option Double), tbuf.immutable = false →
      CopyMeets tbuf sbuf x arg4 arg5 := by
  intro h
  have hstart : soffsetOf (some (cast_num (-2 ^ 31))) = -2 ^ 31 := soffsetOf_cast_num (by norm_num)
  have hfits := (copyMeets_iff rfl).mp (h oneByte oneByte (cast_num 0) (some (cast_num (-2 ^ 31))) none rfl)
  rw [hstart] at hfits
  norm_num [oneByte] at hfits

end Calls

end Luwu.BufLib
