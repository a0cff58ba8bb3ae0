import Mathlib.Data.List.TakeWhile
import Luwu.Lib.Lanes
import Luwu.StrPack.Format

/-!
# Round trips of packed strings

What `string.unpack` reads from a packed string are the arguments of `string.pack`, as the options of the format read
them.
-/

namespace Luwu.StrPack

open Floating Sccp

/-! ### Integers -/

section

variable {size n : ℕ} {l : Bool} {bytes : List Byte}

@[simp] theorem length_lowBytes (size n : ℕ) : (lowBytes size n).length = size := by
  induction size generalizing n with
  | zero => rfl
  | succ size ih => simp [lowBytes, ih]

@[simp] theorem length_endian (l : Bool) (bytes : List Byte) : (endian l bytes).length = bytes.length := by
  unfold endian
  split <;> simp

@[simp] theorem endian_endian (l : Bool) (bytes : List Byte) : endian l (endian l bytes) = bytes := by
  unfold endian
  cases l <;> simp

theorem join_lowBytes (size n : ℕ) : join (lowBytes size n) = n % 256 ^ size := by
  induction size generalizing n with
  | zero => rw [lowBytes, join, pow_zero, Nat.mod_one]
  | succ size ih =>
    rw [lowBytes, join, ih, BitVec.toNat_ofNat]
    show n % 256 + 256 * (n / 256 % 256 ^ size) = n % 256 ^ (size + 1)
    rw [pow_succ', Nat.mod_mul]

theorem lowBytes_append (j k n : ℕ) : lowBytes (j + k) n = lowBytes j n ++ lowBytes k (n / 256 ^ j) := by
  induction j generalizing n with
  | zero => rw [Nat.zero_add, pow_zero, Nat.div_one, lowBytes, List.nil_append]
  | succ j ih =>
    rw [Nat.succ_add, lowBytes, lowBytes, ih, Nat.div_div_eq_div_mul, ← pow_succ', List.cons_append]

theorem lowBytes_zero (k : ℕ) : lowBytes k 0 = List.replicate k 0 := by
  induction k with
  | zero => rfl
  | succ k ih =>
    rw [lowBytes, Nat.zero_div, ih, List.replicate_succ]
    rfl

/-- The bytes of a word: all of them, then those that only long integers have -/
theorem lowBytes_word (n : BitVec 64) (hsize : SZINT ≤ size) :
    lowBytes size n.toNat = lowBytes SZINT n.toNat ++ List.replicate (size - SZINT) 0 := by
  obtain ⟨k, rfl⟩ := Nat.exists_eq_add_of_le hsize
  have hzero : n.toNat / 256 ^ SZINT = 0 := Nat.div_eq_of_lt n.isLt
  rw [lowBytes_append, hzero, lowBytes_zero, Nat.add_sub_cancel_left]

theorem join_word (n : BitVec 64) : BitVec.ofNat 64 (join (lowBytes SZINT n.toNat)) = n := by
  have hlt : n.toNat < 256 ^ SZINT := n.isLt
  rw [join_lowBytes, Nat.mod_eq_of_lt hlt, BitVec.ofNat_toNat, BitVec.setWidth_eq]

theorem length_packint (n : BitVec 64) (l : Bool) (size : ℕ) (neg : Bool) : (packint n l size neg).length = size := by
  unfold packint
  split
  · rename_i hneg
    rw [Bool.and_eq_true, decide_eq_true_eq] at hneg
    rw [length_endian, List.length_append, List.length_take, length_lowBytes, List.length_replicate]
    omega
  · rw [length_endian, length_lowBytes]

theorem packint_plain (n : BitVec 64) (l : Bool) (size : ℕ) : packint n l size false = endian l (lowBytes size n.toNat) := by
  simp [packint]

theorem take_short (hsize : size < SZINT) (n : ℕ) : (lowBytes size n).take SZINT = lowBytes size n :=
  List.take_of_length_le (by rw [length_lowBytes]; exact hsize.le)

theorem take_word (n : BitVec 64) (hsize : SZINT ≤ size) : (lowBytes size n.toNat).take SZINT = lowBytes SZINT n.toNat := by
  rw [lowBytes_word n hsize, List.take_left' (length_lowBytes _ _)]

theorem drop_word (n : BitVec 64) (hsize : SZINT ≤ size) :
    (lowBytes size n.toNat).drop SZINT = List.replicate (size - SZINT) 0 := by
  rw [lowBytes_word n hsize, List.drop_left' (length_lowBytes _ _)]

theorem unpackint_packint (n : BitVec 64) (l : Bool) (hfits : size < SZINT → n.toNat < 2 ^ (size * 8)) :
    unpackint (packint n l size false) l size false = .ok n := by
  rw [packint_plain, unpackint, endian_endian]
  split
  · rename_i hsize
    have hlt : n.toNat < 256 ^ size := by
      have hfit := hfits hsize
      rwa [Nat.mul_comm, pow_mul] at hfit
    rw [take_short hsize, join_lowBytes, Nat.mod_eq_of_lt hlt, BitVec.ofNat_toNat, BitVec.setWidth_eq]
    rfl
  · rename_i hsize
    rw [take_word n (Nat.le_of_not_lt hsize), drop_word n (Nat.le_of_not_lt hsize), join_word]
    simp

/-- Flipping the sign bit of the low bits adds it. -/
theorem flip_sign {k x : ℕ} {a : ℤ} (h : -2 ^ k ≤ a ∧ a < 2 ^ k) (hx : (x : ℤ) = a % 2 ^ (k + 1)) :
    ((x ^^^ 2 ^ k : ℕ) : ℤ) = a + 2 ^ k := by
  have hcast : ((2 ^ k : ℕ) : ℤ) = 2 ^ k := by norm_num
  have hpow : (2 : ℤ) ^ (k + 1) = 2 * 2 ^ k := pow_succ' 2 k
  by_cases ha : 0 ≤ a
  · have hxa : (x : ℤ) = a := by rw [hx, Int.emod_eq_of_lt ha (by omega)]
    have hlt : x < 2 ^ k := by omega
    have hsplit := Lanes.bitwise_xor.split (w := k) (x := x) (y := 0) (p := 0) (q := 1) hlt (Nat.two_pow_pos k)
    rw [Nat.mul_zero, Nat.add_zero, Nat.zero_add, Nat.mul_one, Nat.xor_zero, Nat.zero_xor, Nat.mul_one] at hsplit
    rw [hsplit]
    omega
  · have hmod : a % 2 ^ (k + 1) = a + 2 ^ (k + 1) := by
      rw [← Int.add_emod_right, Int.emod_eq_of_lt (by omega) (by omega)]
    obtain ⟨r, hr⟩ : ∃ r : ℕ, (r : ℤ) = a + 2 ^ k := ⟨(a + 2 ^ k).toNat, Int.toNat_of_nonneg (by omega)⟩
    have hlt : r < 2 ^ k := by omega
    have hxr : x = r + 2 ^ k * 1 := by omega
    have hsplit := Lanes.bitwise_xor.split (w := k) (x := r) (y := 0) (p := 1) (q := 1) hlt (Nat.two_pow_pos k)
    rw [← hxr, Nat.zero_add, Nat.mul_one, Nat.xor_self, Nat.mul_zero, Nat.xor_zero, Nat.add_zero] at hsplit
    rw [hsplit, hr]

/-- Sign extension from the bit `k` -/
theorem extend_sign {k : ℕ} (hk : k < 63) {a : ℤ} (h : -2 ^ k ≤ a ∧ a < 2 ^ k) :
    (BitVec.ofNat 64 ((BitVec.ofInt 64 a).toNat % 2 ^ (k + 1)) ^^^ 1#64 <<< k) - 1#64 <<< k = BitVec.ofInt 64 a := by
  have hmask : 1#64 <<< k = BitVec.ofNat 64 (2 ^ k) := by
    refine BitVec.eq_of_toNat_eq ?_
    rw [BitVec.toNat_shiftLeft, BitVec.toNat_ofNat, BitVec.toNat_ofNat, Nat.shiftLeft_eq]
    norm_num
  have hx : (((BitVec.ofInt 64 a).toNat % 2 ^ (k + 1) : ℕ) : ℤ) = a % 2 ^ (k + 1) := by
    have hdvd : (2 : ℤ) ^ (k + 1) ∣ ((2 ^ 64 : ℕ) : ℤ) := by
      rw [Nat.cast_pow]
      exact pow_dvd_pow 2 (by omega)
    rw [Int.natCast_emod, BitVec.toNat_ofInt, Int.toNat_of_nonneg (Int.emod_nonneg _ (by decide)), Nat.cast_pow]
    exact Int.emod_emod_of_dvd a hdvd
  have hflip := flip_sign h hx
  rw [hmask, ← BitVec.ofNat_xor, ← BitVec.ofInt_natCast, hflip, BitVec.ofInt_add]
  have hcast : BitVec.ofInt 64 (2 ^ k) = BitVec.ofNat 64 (2 ^ k) := by
    rw [← BitVec.ofInt_natCast]
    norm_num
  rw [hcast, BitVec.add_sub_cancel]

theorem toInt_ofInt {a : ℤ} (h : -2 ^ 63 ≤ a ∧ a < 2 ^ 63) : (BitVec.ofInt 64 a).toInt = a := by
  rw [BitVec.toInt_ofInt, Int.bmod_eq_of_le (by omega) (by omega)]

theorem unpackint_packint_signed {a : ℤ} (l : Bool) (hsize : 0 < size) (h : -2 ^ 63 ≤ a ∧ a < 2 ^ 63)
    (hfits : size < SZINT → -2 ^ (size * 8 - 1) ≤ a ∧ a < 2 ^ (size * 8 - 1)) :
    unpackint (packint (BitVec.ofInt 64 a) l size (a < 0)) l size true = .ok (BitVec.ofInt 64 a) := by
  by_cases hshort : size < SZINT
  · have hneg : ¬(decide (a < 0) && decide (size > SZINT)) = true := by simp [Nat.le_of_lt hshort]
    have hpow : 256 ^ size = 2 ^ (size * 8 - 1 + 1) := by
      rw [Nat.sub_add_cancel (by omega), Nat.mul_comm, pow_mul]
      norm_num
    have hk : size * 8 - 1 < 63 := by
      unfold SZINT at hshort
      omega
    have hbytes : packint (BitVec.ofInt 64 a) l size (a < 0) = endian l (lowBytes size (BitVec.ofInt 64 a).toNat) := by
      unfold packint
      dsimp only
      rw [if_neg hneg]
    rw [hbytes, unpackint, endian_endian, if_pos hshort, take_short hshort, join_lowBytes, hpow]
    dsimp only
    rw [if_pos rfl, extend_sign hk (hfits hshort)]
  · have hlong := Nat.le_of_not_lt hshort
    have hbytes : packint (BitVec.ofInt 64 a) l size (a < 0) = endian l
        (lowBytes SZINT (BitVec.ofInt 64 a).toNat ++ List.replicate (size - SZINT) (if a < 0 then 0xff else 0)) := by
      unfold packint
      dsimp only
      rw [take_word _ hlong, lowBytes_word _ hlong]
      by_cases ha : a < 0
      · by_cases hmore : size > SZINT
        · simp [ha, hmore]
        · have hzero : size - SZINT = 0 := by omega
          simp [ha, hmore, hzero]
      · simp [ha]
    rw [hbytes, unpackint, endian_endian, if_neg hshort, List.take_left' (length_lowBytes _ _),
      List.drop_left' (length_lowBytes _ _), join_word, toInt_ofInt h]
    by_cases ha : a < 0
    · simp [ha, not_le.mpr ha]
    · simp [ha, not_lt.mp ha]

end

/-! ### Floating point numbers -/

theorem toFloat_ofFloat {F : Format} {width : ℕ} (hF : F.top + 2 ^ (F.fraction - 1) < 2 ^ (width - 1)) (x : Datum F) :
    toFloat F width (ofFloat width x) = x := by
  cases x with
  | nan =>
    have hpos := Nat.two_pow_pos (F.fraction - 1)
    unfold toFloat ofFloat
    rw [Nat.mod_eq_of_lt hF, dif_neg (by omega)]
  | num s m =>
    have hm := m.isLt
    have hpos := Nat.two_pow_pos (F.fraction - 1)
    have hlt : (m : ℕ) < 2 ^ (width - 1) := by omega
    have hmod : ofFloat width (.num s m) % 2 ^ (width - 1) = m := by cases s <;> simp [ofFloat, Nat.mod_eq_of_lt hlt]
    have hsign : decide (ofFloat width (.num s m) ≥ 2 ^ (width - 1)) = s := by cases s <;> simp [ofFloat, hlt]
    unfold toFloat
    simp only [hmod, hsign, hm, dite_true]

theorem ofFloat_lt {F : Format} {width : ℕ} (hF : F.top + 2 ^ (F.fraction - 1) < 2 ^ (width - 1)) (hwidth : 0 < width)
    (x : Datum F) : ofFloat width x < 2 ^ width := by
  have hpos := Nat.two_pow_pos (F.fraction - 1)
  have hpow : 2 ^ width = 2 * 2 ^ (width - 1) := by rw [← pow_succ', Nat.sub_add_cancel hwidth]
  cases x with
  | nan =>
    show F.top + 2 ^ (F.fraction - 1) < 2 ^ width
    omega
  | num s m =>
    have hm := m.isLt
    show (if s then 2 ^ (width - 1) else 0) + (m : ℕ) < 2 ^ width
    split <;> omega

/-- The number that a float option keeps -/
def asFloat (size : ℕ) (n : Number) : Number :=
  if size = 4 then (n.convert : Datum Format.single).convert else n

theorem unpackfloat_packfloat (n : Number) (l : Bool) {size : ℕ} (hsize : size = 4 ∨ size = 8) :
    unpackfloat (packfloat n l size) l size = asFloat size n := by
  have hsingle : Format.single.top + 2 ^ (Format.single.fraction - 1) < 2 ^ (32 - 1) := by decide
  have hdouble : Format.double.top + 2 ^ (Format.double.fraction - 1) < 2 ^ (64 - 1) := by decide
  unfold unpackfloat packfloat asFloat
  rw [endian_endian, join_lowBytes]
  rcases hsize with rfl | rfl
  · have hlt : ofFloat 32 (n.convert : Datum Format.single) < 256 ^ 4 := ofFloat_lt hsingle (by decide) _
    rw [if_pos rfl, if_pos rfl, if_pos rfl, Nat.mod_eq_of_lt hlt, toFloat_ofFloat hsingle]
  · have hlt : ofFloat 64 n < 256 ^ 8 := ofFloat_lt hdouble (by decide) _
    rw [if_neg (by decide), if_neg (by decide), if_neg (by decide), Nat.mod_eq_of_lt hlt, toFloat_ofFloat hdouble]

theorem length_packfloat (n : Number) (l : Bool) (size : ℕ) : (packfloat n l size).length = size := by
  rw [packfloat, length_endian, length_lowBytes]

/-! ### Options -/

theorem numeral_length (a : ℕ) (fmt : List Char) : (numeral a fmt).2.length ≤ fmt.length := by
  induction fmt generalizing a with
  | nil => exact Nat.le_refl _
  | cons c fmt ih =>
    rw [numeral]
    split
    · exact (ih _).trans (Nat.le_succ _)
    · exact Nat.le_refl _

/-- A computation that only a Lua error stops, and what holds of its value -/
def Safe {α : Type} (p : α → Prop) : PackM α → Prop
  | .ok a => p a
  | .error e => e ≠ .outside ∧ e ≠ .fuel

theorem Safe.bind {α β : Type} {p : α → Prop} {q : β → Prop} {x : PackM α} {f : α → PackM β} (hx : Safe p x)
    (hf : ∀ a, p a → Safe q (f a)) : Safe q (x >>= f) := by
  cases x with
  | error e => exact hx
  | ok a => exact hf a hx

theorem Safe.ok {α : Type} {p : α → Prop} {x : PackM α} {a : α} (hx : Safe p x) (h : x = .ok a) : p a := by
  rwa [h] at hx

theorem bind_ok {α β : Type} {x : PackM α} {f : α → PackM β} {b : β} (h : (x >>= f) = .ok b) :
    ∃ a, x = .ok a ∧ f a = .ok b := by
  cases x with
  | error e => cases h
  | ok a => exact ⟨a, rfl, h⟩

theorem getnum_spec (fmt : List Char) (df : Option ℕ) : Safe (fun r => r.2.length ≤ fmt.length) (getnum fmt df) := by
  unfold getnum
  split
  · dsimp only
    split
    · simp [Safe]
    · exact numeral_length 0 fmt
  · exact Nat.le_refl _

theorem getnumlimit_spec (fmt : List Char) (df : ℕ) :
    Safe (fun r => r.2.length ≤ fmt.length ∧ 0 < r.1) (getnumlimit fmt df) := by
  refine (getnum_spec fmt (some df)).bind ?_
  rintro ⟨n, fmt'⟩ hlength
  dsimp only
  split
  · simp [Safe]
  · exact ⟨hlength, by omega⟩

/-- An option takes a character of the format, and has a size that fits its kind. -/
structure Taken (fmt rest : List Char) (opt : KOption) (size : ℕ) : Prop where
  length : rest.length < fmt.length
  int : opt = .Kint → 0 < size
  float : opt = .Kfloat → size = 4 ∨ size = 8
  padding : opt = .Kpadding → size = 1
  none : opt = .Kpaddalign ∨ opt = .Knop ∨ opt = .Kzstr → size = 0

theorem getoption_spec (h : Header) (fmt : List Char) :
    Safe (fun r => Taken fmt r.2.2.2 r.1 r.2.1) (getoption h fmt) := by
  cases fmt with
  | nil => simp [getoption, Safe]
  | cons c fmt =>
    simp only [getoption]
    split
    all_goals first
      | refine (getnumlimit_spec _ _).bind ?_
        rintro ⟨size, fmt'⟩ ⟨hlength, hpos⟩
        show Taken _ _ _ _
        constructor <;> simp <;> omega
      | refine (getnum_spec _ _).bind ?_
        rintro ⟨size, fmt'⟩ hlength
        cases size
        · simp [Safe]
        · show Taken _ _ _ _
          constructor <;> simp
          omega
      | simp [Safe]
        done
      | show Taken _ _ _ _
        constructor <;> simp

theorem alignedTo_spec (opt : KOption) (size : ℕ) (h : Header) (fmt : List Char) :
    Safe (fun r => r.2.2.length ≤ fmt.length) (alignedTo opt size h fmt) := by
  unfold alignedTo
  split
  · split
    · simp [Safe]
    · refine (getoption_spec h fmt).bind ?_
      rintro ⟨next, align, h', fmt'⟩ htaken
      dsimp only
      split
      · simp [Safe]
      · exact htaken.length.le
  · exact Nat.le_refl _

/-- What an option is does not depend on where it comes to lie. -/
theorem placed_spec (opt : KOption) (size align totalsize : ℕ) (h : Header) (fmt : List Char) :
    Safe (fun d => d.opt = opt ∧ d.size = size ∧ d.rest = fmt ∧
      ∀ t, ∃ n, placed opt size align t h fmt = .ok { d with ntoalign := n }) (placed opt size align totalsize h fmt) := by
  unfold placed
  split
  · exact ⟨rfl, rfl, rfl, fun _ => ⟨_, rfl⟩⟩
  · generalize (if align > h.maxalign then h.maxalign else align) = align'
    dsimp only
    split
    · exact ⟨rfl, rfl, rfl, fun _ => ⟨_, rfl⟩⟩
    · simp [Safe]

theorem getdetails_spec (h : Header) (totalsize : ℕ) (fmt : List Char) :
    Safe (fun d => Taken fmt d.rest d.opt d.size ∧ ∀ t, ∃ n, getdetails h t fmt = .ok { d with ntoalign := n })
      (getdetails h totalsize fmt) := by
  unfold getdetails
  have hoption := getoption_spec h fmt
  cases hopt : getoption h fmt with
  | error e => rwa [hopt] at hoption
  | ok r =>
    obtain ⟨opt, size, h₁, fmt₁⟩ := r
    have haligned := alignedTo_spec opt size h₁ fmt₁
    have htaken := hoption.ok hopt
    simp only [bind, Except.bind]
    cases halign : alignedTo opt size h₁ fmt₁ with
    | error e => rwa [halign] at haligned
    | ok r =>
      obtain ⟨align, h₂, fmt₂⟩ := r
      have hlength := haligned.ok halign
      have hplaced := placed_spec opt size align totalsize h₂ fmt₂
      dsimp only at hplaced ⊢
      cases hd : placed opt size align totalsize h₂ fmt₂ with
      | error e => rwa [hd] at hplaced
      | ok d =>
        obtain ⟨hdopt, hdsize, hdrest, hmore⟩ := hplaced.ok hd
        refine ⟨?_, hmore⟩
        rw [hdopt, hdsize, hdrest]
        exact { htaken with length := hlength.trans_lt htaken.length }

/-! ### Values -/

section

variable (C : Coercions)

def asNumber : Value → Number
  | .number n => n
  | .string s => (C.tonumber s).getD .nan

def asString : Value → List Byte
  | .number n => C.tostring n
  | .string s => s

/-- An argument as an option reads it -/
def readValue (opt : KOption) (size : ℕ) (v : Value) : Value :=
  match opt with
  | .Kint => .number (.ofInt (toLongLong (asNumber C v)))
  | .Kuint => .number (.ofInt (BitVec.ofInt 64 (toLongLong (asNumber C v))).toNat)
  | .Kfloat => .number (asFloat size (asNumber C v))
  | .Kchar => .string (asString C v ++ List.replicate (size - (asString C v).length) LUAL_PACKPADBYTE)
  | _ => .string (asString C v)

def readArg (opt : KOption) (size : ℕ) (args : List Value) : List Value :=
  if takesArg opt then (args.head?.map (readValue C opt size)).toList else []

/-- The arguments as the options of a format read them -/
def readOptions : ℕ → Header → List Char → List Value → List Value
  | 0, _, _, _ => []
  | fuel + 1, h, fmt, args =>
    match getdetails h 0 fmt with
    | .error _ => []
    | .ok d =>
      readArg C d.opt d.size args ++ readOptions fuel d.header d.rest (if takesArg d.opt then args.tail else args)

variable {C} {args : List Value} {arg : ℕ} {d : Details} {bytes pre post : List Byte} {len : ℕ}

theorem checknumber_ok {n : Number} (h : luaL_checknumber C args arg = .ok n) :
    ∃ v, args.head? = some v ∧ asNumber C v = n := by
  unfold luaL_checknumber at h
  split at h
  · cases h
    exact ⟨_, rfl, rfl⟩
  · rename_i s rest
    cases hs : C.tonumber s with
    | none =>
      rw [hs] at h
      cases h
    | some m =>
      rw [hs] at h
      cases h
      exact ⟨_, rfl, by rw [asNumber, hs, Option.getD_some]⟩
  · cases h

theorem checklstring_ok {s : List Byte} (h : luaL_checklstring C args arg = .ok s) :
    ∃ v, args.head? = some v ∧ asString C v = s := by
  unfold luaL_checklstring at h
  split at h
  · cases h
    exact ⟨_, rfl, rfl⟩
  · cases h
    exact ⟨_, rfl, rfl⟩
  · cases h

theorem map_ok {α β : Type} {x : PackM α} {f : α → β} {b : β} (h : f <$> x = .ok b) : ∃ a, x = .ok a ∧ f a = b := by
  cases x with
  | error e => cases h
  | ok a =>
    cases h
    exact ⟨a, rfl, rfl⟩

theorem argcheck_ok {cond : Prop} [Decidable cond] {n : ℕ} {msg : String} {u : Unit} (h : argcheck cond n msg = .ok u) :
    cond := by
  unfold argcheck at h
  split at h
  · assumption
  · cases h

theorem argcheck_of {cond : Prop} [Decidable cond] (h : cond) (n : ℕ) (msg : String) : argcheck cond n msg = .ok () :=
  if_pos h

theorem read_middle (pre bytes post : List Byte) : read (pre ++ bytes ++ post) pre.length bytes.length = .ok bytes := by
  unfold read
  rw [if_pos (by simp), List.append_assoc, List.drop_left, List.take_left]

theorem read_packed (hlength : bytes.length = d.size) : read (pre ++ bytes ++ post) pre.length d.size = .ok bytes := by
  rw [← hlength]
  exact read_middle pre bytes post

theorem sizeSub_of_le {a b : ℕ} (h : b ≤ a) : sizeSub a b = a - b := if_pos h

theorem toLongLong_range (n : Number) : -2 ^ 63 ≤ toLongLong n ∧ toLongLong n < 2 ^ 63 := by
  unfold toLongLong
  split
  · decide
  · split
    · assumption
    · decide

theorem takeWhile_zero {s : List Byte} (h : (s.takeWhile (· ≠ 0)).length = s.length) (post : List Byte) :
    (s ++ 0 :: post).takeWhile (· ≠ 0) = s := by
  have hall : ∀ c ∈ s, (decide (c ≠ 0)) = true := List.takeWhile_eq_self_iff.mp
    ((List.takeWhile_prefix _).eq_of_length h)
  rw [List.takeWhile_append_of_pos hall, List.takeWhile_cons_of_neg (by simp), List.append_nil]

/-- The bytes of an option are as many as its size and its extra bytes say, and unpack to the argument. -/
theorem packValue_spec {fmt rest : List Char} (htaken : Taken fmt rest d.opt d.size)
    (h : packValue C d args arg = .ok (bytes, len)) :
    bytes.length = d.size + len ∧ (d.opt ≠ .Kstring ∧ d.opt ≠ .Kzstr → len = 0) ∧
      ∀ pre post, (pre ++ bytes ++ post).length ≤ MAXSSIZE →
        unpackValue d (pre ++ bytes ++ post) pre.length = .ok (readArg C d.opt d.size args, len) := by
  unfold packValue at h
  unfold unpackValue readArg
  split at h
  all_goals
    rename_i hopt
    rw [hopt]
  · obtain ⟨n, hn, h⟩ := bind_ok h
    obtain ⟨x, hx, rfl⟩ := map_ok hn
    obtain ⟨v, hv, rfl⟩ := checknumber_ok hx
    obtain ⟨u, hfits, h⟩ := bind_ok h
    have hlim := argcheck_ok hfits
    cases h
    have hlength := length_packint (BitVec.ofInt 64 (toLongLong (asNumber C v))) d.header.islittle d.size
      (toLongLong (asNumber C v) < 0)
    have hrange := toLongLong_range (asNumber C v)
    have hback := unpackint_packint_signed d.header.islittle (htaken.int hopt) hrange hlim
    refine ⟨hlength, fun _ => rfl, fun pre post _ => ?_⟩
    simp only [read_packed hlength, hback, hv, toInt_ofInt hrange, bind, Except.bind]
    rfl
  · obtain ⟨n, hn, h⟩ := bind_ok h
    obtain ⟨m, hm, rfl⟩ := map_ok hn
    obtain ⟨x, hx, rfl⟩ := map_ok hm
    obtain ⟨v, hv, rfl⟩ := checknumber_ok hx
    obtain ⟨u, hfits, h⟩ := bind_ok h
    have hlim := argcheck_ok hfits
    cases h
    have hlength := length_packint (BitVec.ofInt 64 (toLongLong (asNumber C v))) d.header.islittle d.size false
    refine ⟨hlength, fun _ => rfl, fun pre post _ => ?_⟩
    simp only [read_packed hlength, unpackint_packint _ _ hlim, hv, bind, Except.bind]
    rfl
  · obtain ⟨n, hn, h⟩ := bind_ok h
    obtain ⟨v, hv, rfl⟩ := checknumber_ok hn
    cases h
    have hlength := length_packfloat (asNumber C v) d.header.islittle d.size
    refine ⟨hlength, fun _ => rfl, fun pre post _ => ?_⟩
    simp only [read_packed hlength, unpackfloat_packfloat _ _ (htaken.float hopt), hv, bind, Except.bind]
    rfl
  · obtain ⟨s, hs, h⟩ := bind_ok h
    obtain ⟨v, hv, rfl⟩ := checklstring_ok hs
    obtain ⟨u, hfits, h⟩ := bind_ok h
    have hle := argcheck_ok hfits
    cases h
    have hlength : (asString C v ++ List.replicate (d.size - (asString C v).length) LUAL_PACKPADBYTE).length = d.size := by
      rw [List.length_append, List.length_replicate, Nat.add_sub_cancel' hle]
    refine ⟨hlength, fun _ => rfl, fun pre post _ => ?_⟩
    simp only [read_packed hlength, hv, bind, Except.bind]
    rfl
  · obtain ⟨s, hs, h⟩ := bind_ok h
    obtain ⟨v, hv, rfl⟩ := checklstring_ok hs
    obtain ⟨u, hfits, h⟩ := bind_ok h
    have hlim := argcheck_ok hfits
    cases h
    set s := asString C v
    set head := packint (BitVec.ofNat 64 s.length) d.header.islittle d.size false
    have hhead : head.length = d.size := length_packint _ _ _ _
    refine ⟨by rw [List.length_append, hhead], fun hno => absurd rfl hno.1, fun pre post hmax => ?_⟩
    have hdata : pre ++ (head ++ s) ++ post = pre ++ head ++ (s ++ post) := by simp only [List.append_assoc]
    have hrest : (pre ++ head ++ (s ++ post)).length = pre.length + (d.size + (s.length + post.length)) := by
      rw [List.append_assoc, List.length_append, List.length_append, List.length_append, hhead]
    rw [hdata] at hmax ⊢
    have htoNat : (BitVec.ofNat 64 s.length).toNat = s.length := by
      rw [BitVec.toNat_ofNat, Nat.mod_eq_of_lt]
      unfold MAXSSIZE at hmax
      omega
    have hback : unpackint head d.header.islittle d.size false = .ok (BitVec.ofNat 64 s.length) :=
      unpackint_packint _ _ fun hshort => by
        rw [htoNat]
        exact hlim.resolve_left (Nat.not_le.mpr hshort)
    have hroom : s.length ≤ sizeSub (sizeSub (pre ++ head ++ (s ++ post)).length pre.length) d.size := by
      rw [hrest, sizeSub_of_le (Nat.le_add_right _ _), Nat.add_sub_cancel_left, sizeSub_of_le (Nat.le_add_right _ _)]
      omega
    have hsecond := read_middle (pre ++ head) s post
    rw [List.append_assoc (pre ++ head), List.length_append, hhead] at hsecond
    simp only [read_packed hhead, hback, htoNat, argcheck_of hroom, hsecond, hv, bind, Except.bind]
    rfl
  · obtain ⟨s, hs, h⟩ := bind_ok h
    obtain ⟨v, hv, rfl⟩ := checklstring_ok hs
    obtain ⟨u, hfits, h⟩ := bind_ok h
    have hzeros := argcheck_ok hfits
    cases h
    set s := asString C v
    refine ⟨?_, fun hno => absurd rfl hno.2, fun pre post _ => ?_⟩
    · rw [htaken.none (.inr (.inr hopt)), List.length_append, Nat.zero_add, List.length_singleton]
    · have hdata : pre ++ (s ++ [0]) ++ post = pre ++ s ++ 0 :: post := by simp
      have hstring : ((pre ++ s ++ 0 :: post).drop pre.length).takeWhile (· ≠ 0) = s := by
        rw [List.append_assoc, List.drop_left, takeWhile_zero hzeros]
      have hroom : pre.length + s.length < (pre ++ s ++ 0 :: post).length := by simp
      rw [hdata]
      simp only [hstring, argcheck_of hroom, read_middle, hv, bind, Except.bind]
      rfl
  · cases h
    exact ⟨(htaken.padding hopt).symm, fun _ => rfl, fun _ _ _ => rfl⟩
  · cases h
    exact ⟨(htaken.none (.inl hopt)).symm, fun _ => rfl, fun _ _ _ => rfl⟩
  · cases h
    exact ⟨(htaken.none (.inr (.inl hopt))).symm, fun _ => rfl, fun _ _ _ => rfl⟩

/-! ### Whole formats -/

variable {fuel totalsize pos arg' : ℕ} {h : Header} {b out data : List Byte} {c : Char} {fmt : List Char}

/-- A turn of the loop of `str_pack` -/
theorem packLoop_turn (hp : packLoop C (fuel + 1) h args arg totalsize b (c :: fmt) = .ok out) :
    ∃ d bytes len arg', getdetails h totalsize (c :: fmt) = .ok d ∧ packValue C d args (arg + 1) = .ok (bytes, len) ∧
      packLoop C fuel d.header (if takesArg d.opt then args.tail else args) arg' (totalsize + d.ntoalign + d.size + len)
        (b ++ List.replicate d.ntoalign LUAL_PACKPADBYTE ++ bytes) d.rest = .ok out := by
  obtain ⟨d, hd, hp⟩ := bind_ok hp
  obtain ⟨⟨bytes, len⟩, hv, hp⟩ := bind_ok hp
  dsimp only at hp
  split at hp
  · rename_i htakes
    exact ⟨d, bytes, len, _, hd, hv, by rwa [if_pos htakes]⟩
  · rename_i htakes
    exact ⟨d, bytes, len, _, hd, hv, by rwa [if_neg htakes]⟩

theorem packLoop_nil (hp : packLoop C fuel h args arg totalsize b [] = .ok out) : out = b := by
  cases fuel <;> cases hp <;> rfl

theorem readOptions_turn (hd : getdetails h pos fmt = .ok d) :
    readOptions C (fuel + 1) h fmt args =
      readArg C d.opt d.size args ++ readOptions C fuel d.header d.rest (if takesArg d.opt then args.tail else args) := by
  obtain ⟨n, hd⟩ := ((getdetails_spec h pos fmt).ok hd).2 0
  rw [readOptions, hd]

theorem unpackLoop_packLoop (hmax : out.length ≤ MAXSSIZE) (hp : packLoop C fuel h args arg b.length b fmt = .ok out) :
    b <+: out ∧ ∀ values,
      unpackLoop out fuel h b.length values fmt = .ok (values ++ readOptions C fuel h fmt args, out.length) := by
  induction fuel generalizing h args arg b fmt with
  | zero =>
    cases fmt with
    | nil =>
      rw [packLoop_nil hp]
      exact ⟨List.prefix_rfl, fun values => by rw [unpackLoop, readOptions, List.append_nil]⟩
    | cons c fmt => cases hp
  | succ fuel ih =>
    cases fmt with
    | nil =>
      have hnone : readOptions C (fuel + 1) h [] args = [] := rfl
      rw [packLoop_nil hp]
      exact ⟨List.prefix_rfl, fun values => by rw [unpackLoop, hnone, List.append_nil]⟩
    | cons c fmt =>
      obtain ⟨d, bytes, len, arg', hd, hv, hp⟩ := packLoop_turn hp
      obtain ⟨hlength, -, hback⟩ := packValue_spec ((getdetails_spec _ _ _).ok hd).1 hv
      set pre := b ++ List.replicate d.ntoalign LUAL_PACKPADBYTE
      have hpre : pre.length = b.length + d.ntoalign := by
        rw [List.length_append, List.length_replicate]
      have hnext : (pre ++ bytes).length = b.length + d.ntoalign + d.size + len := by
        rw [List.length_append, hpre, hlength, ← Nat.add_assoc]
      rw [← hnext] at hp
      obtain ⟨⟨more, hout⟩, hrest⟩ := ih hp
      have hlong : out.length = b.length + d.ntoalign + d.size + len + more.length := by
        rw [← hout, List.length_append, hnext]
      have hroom : d.ntoalign + d.size ≤ sizeSub out.length b.length := by
        rw [sizeSub_of_le (by omega)]
        omega
      have hvalue := hback pre more (by rwa [hout])
      rw [hpre, hout] at hvalue
      refine ⟨(List.prefix_append _ _).trans ⟨bytes ++ more, by rw [← List.append_assoc, hout]⟩, fun values => ?_⟩
      simp only [unpackLoop, hd, argcheck_of hroom, hvalue, bind, Except.bind]
      rw [← hnext, hrest, readOptions_turn hd, List.append_assoc]

theorem packLoop_packsizeLoop {n : ℕ} (hn : packsizeLoop fuel h b.length fmt = .ok n)
    (hp : packLoop C fuel h args arg b.length b fmt = .ok out) : out.length = n := by
  induction fuel generalizing h args arg b fmt with
  | zero =>
    cases fmt with
    | nil =>
      cases hn
      rw [packLoop_nil hp]
    | cons c fmt => cases hp
  | succ fuel ih =>
    cases fmt with
    | nil =>
      cases hn
      rw [packLoop_nil hp]
    | cons c fmt =>
      obtain ⟨d, bytes, len, arg', hd, hv, hp⟩ := packLoop_turn hp
      obtain ⟨d', hd', hn⟩ := bind_ok hn
      obtain rfl : d = d' := Except.ok.inj (hd.symm.trans hd')
      obtain ⟨u, hkind, hn⟩ := bind_ok hn
      obtain ⟨u, hsmall, hn⟩ := bind_ok hn
      obtain ⟨hlength, hlen, -⟩ := packValue_spec ((getdetails_spec _ _ _).ok hd).1 hv
      have hnext : (b ++ List.replicate d.ntoalign LUAL_PACKPADBYTE ++ bytes).length =
          b.length + (d.size + d.ntoalign) := by
        rw [List.length_append, List.length_append, List.length_replicate, hlength, hlen (argcheck_ok hkind)]
        omega
      have hsize : b.length + d.ntoalign + d.size + len = b.length + (d.size + d.ntoalign) := by
        rw [hlen (argcheck_ok hkind)]
        omega
      rw [hsize, ← hnext] at hp
      rw [← hnext] at hn
      exact ih hn hp

/-- The size of a format is that of all strings packed by it. -/
theorem str_packsize_length (C : Coercions) (fmt : List Char) (args : List Value) (out : List Byte) (n : ℕ)
    (hn : str_packsize fmt = .ok n) (hp : str_pack C fmt args = .ok out) : out.length = n :=
  packLoop_packsizeLoop (b := []) hn hp

theorem str_packsize_length_sample : ([1, 2, 0, 0, 0, 0, 0, 0] : List Byte).length = 8 :=
  str_packsize_length ⟨fun _ => none, fun _ => []⟩ ['!', 'c', '3', 'X', 'd'] [.string [1, 2]] _ 8 rfl rfl

/-! ### Data that was not packed -/

theorem argcheck_safe {cond : Prop} [Decidable cond] {n : ℕ} {msg : String} : Safe (fun _ => cond) (argcheck cond n msg) := by
  unfold argcheck
  split
  · assumption
  · simp [Safe]

theorem read_safe {size : ℕ} (h : pos + size ≤ data.length) : Safe (fun _ => True) (read data pos size) := by
  rw [read, if_pos h]
  trivial

theorem unpackint_safe (str : List Byte) (l : Bool) (size : ℕ) (s : Bool) :
    Safe (fun _ => True) (unpackint str l size s) := by
  unfold unpackint
  dsimp only
  split
  · trivial
  · split
    all_goals
      split
      · trivial
      · simp [Safe]

/-- A value is read from inside of the data, and ends there. -/
theorem unpackValue_safe {rest : List Char} (htaken : Taken fmt rest d.opt d.size) (hpos : pos + d.size ≤ data.length) :
    Safe (fun r => pos + d.size + r.2 ≤ data.length) (unpackValue d data pos) := by
  have hread := read_safe hpos
  unfold unpackValue
  split
  · exact hread.bind fun _ _ => (unpackint_safe _ _ _ _).bind fun _ _ => hpos
  · exact hread.bind fun _ _ => (unpackint_safe _ _ _ _).bind fun _ _ => hpos
  · exact hread.bind fun _ _ => hpos
  · exact hread.bind fun _ _ => hpos
  · refine hread.bind fun _ _ => (unpackint_safe _ _ _ _).bind fun n _ => argcheck_safe.bind fun _ hroom => ?_
    rw [sizeSub_of_le (a := data.length) (b := pos) (by omega), sizeSub_of_le (by omega)] at hroom
    have hend : pos + d.size + n.toNat ≤ data.length := by omega
    exact (read_safe hend).bind fun _ _ => hend
  · rename_i hopt
    have hsize := htaken.none (.inr (.inr hopt))
    refine argcheck_safe.bind fun _ hroom => (read_safe hroom.le).bind fun _ _ => ?_
    show pos + d.size + (_ + 1) ≤ data.length
    omega
  · exact hpos
  · exact hpos
  · exact hpos

theorem unpackLoop_safe {values : List Value} (hfuel : fmt.length ≤ fuel) (hpos : pos ≤ data.length) :
    Safe (fun r => r.2 ≤ data.length) (unpackLoop data fuel h pos values fmt) := by
  induction fuel generalizing h pos values fmt with
  | zero =>
    rw [List.length_eq_zero_iff.mp (Nat.le_zero.mp hfuel)]
    exact hpos
  | succ fuel ih =>
    cases fmt with
    | nil => exact hpos
    | cons c fmt =>
      refine (getdetails_spec h pos (c :: fmt)).bind fun d hd => argcheck_safe.bind fun _ hroom => ?_
      have htaken := hd.1
      have hlength := htaken.length
      rw [sizeSub_of_le hpos] at hroom
      refine (unpackValue_safe htaken (by omega)).bind fun r hend => ih ?_ hend
      exact Nat.le_of_lt_succ (hlength.trans_le hfuel)

/-- No byte outside of the data is ever read, and the next position is at most the one after it. -/
theorem str_unpack_safe (fmt : List Char) (data : List Byte) (init : ℤ) :
    Safe (fun r => r.2 ≤ data.length + 1) (str_unpack fmt data init) :=
  argcheck_safe.bind fun _ hpos => (unpackLoop_safe (Nat.le_refl _) hpos).bind fun _ hend => Nat.succ_le_succ hend

end

end Luwu.StrPack
