import Mathlib.Tactic
import Mathlib.Data.List.DropRight

/-!
# Doubles to decimals

`schubfach`, with its tables.  A word of 64 bits is a natural number, and what overflows it is cut off; a shift to the right of a
negative `int` rounds down.
-/

namespace Luwu.NumPrint

/-! ### Tables -/

def kPow10TableMin : ℤ := -292

def kPow10TableMax : ℤ := 324

def kPow5Table : List ℕ :=
  [ 0x8000000000000000, 0xa000000000000000, 0xc800000000000000, 0xfa00000000000000, 0x9c40000000000000, 0xc350000000000000,
    0xf424000000000000, 0x9896800000000000, 0xbebc200000000000, 0xee6b280000000000, 0x9502f90000000000, 0xba43b74000000000,
    0xe8d4a51000000000, 0x9184e72a00000000, 0xb5e620f480000000, 0xe35fa931a0000000]

def kPow10Table : List (ℕ × ℕ × ℕ) :=
  [ (0xff77b1fcbebcdc4f, 0x25e8e89c13bb0f7b, 0x333443443333443b), (0x8dd01fad907ffc3b, 0xae3da7d97f6792e4, 0xbbb3ab3cb3ba3cbc),
    (0x9d71ac8fada6c9b5, 0x6f773fc3603db4aa, 0x4ba4bc4bb4bb4bcc), (0xaecc49914078536d, 0x58fae9f773886e19, 0x3ba3bc33b43b43bb),
    (0xc21094364dfb5636, 0x985915fc12f542e5, 0x33b43b43a33b33cb), (0xd77485cb25823ac7, 0x7d633293366b828c, 0x34b44c444343443c),
    (0xef340a98172aace4, 0x86fb897116c87c35, 0x333343333343334b), (0x84c8d4dfd2c63f3b, 0x29ecd9f40041e074, 0xccaccbbcbcbb4bbc),
    (0x936b9fcebb25c995, 0xcab10dd900beec35, 0x3ab3ab3ab3bb3bbb), (0xa3ab66580d5fdaf5, 0xc13e60d0d2e0ebbb, 0x4cc3dc4db4db4dbb),
    (0xb5b5ada8aaff80b8, 0x0d819992132456bb, 0x33b33a34c33b34ab), (0xc9bcff6034c13052, 0xfc89b393dd02f0b6, 0x33c33b44b43c34bc),
    (0xdff9772470297ebd, 0x59787e2b93bc56f8, 0x43b444444443434c), (0xf8a95fcf88747d94, 0x75a44c6397ce912b, 0x443334343443343b),
    (0x8a08f0f8bf0f156b, 0x1b8e9ecb641b5900, 0xbbabab3aa3ab4ccc), (0x993fe2c6d07b7fab, 0xe546a8038efe402a, 0x4cb4bc4db4db4bcc),
    (0xaa242499697392d2, 0xdde50bd1d5d0b9ea, 0x3ba3ba3bb33b33bc), (0xbce5086492111aea, 0x88f4bb1ca6bcf585, 0x44b44c44c44c43cb),
    (0xd1b71758e219652b, 0xd3c36113404ea4a9, 0x44c44c44c444443b), (0xe8d4a51000000000, 0x0000000000000000, 0x444444444444444c),
    (0x813f3978f8940984, 0x4000000000000000, 0xcccccccccccccccc), (0x8f7e32ce7bea5c6f, 0xe4820023a2000000, 0xbba3bc4cc4cc4ccc),
    (0x9f4f2726179a2245, 0x01d762422c946591, 0x4aa3bb3aa3ba3bab), (0xb0de65388cc8ada8, 0x3b25a55f43294bcc, 0x3ca33b33b44b43bc),
    (0xc45d1df942711d9a, 0x3ba5d0bd324f8395, 0x44c44c34c44b44cb), (0xda01ee641a708de9, 0xe80e6f4820cc9496, 0x33b33b343333333c),
    (0xf209787bb47d6b84, 0xc0678c5dbd23a49b, 0x443444444443443b), (0x865b86925b9bc5c2, 0x0b8a2392ba45a9b3, 0xdbccbcccb4cb3bbb),
    (0x952ab45cfa97a0b2, 0xdd945a747bf26184, 0x3bc4bb4ab3ca3cbc), (0xa59bc234db398c25, 0x43fab9837e699096, 0x3bb3ac3ab3bb33ac),
    (0xb7dcbf5354e9bece, 0x0c11ed6d538aeb30, 0x33b43b43b34c34dc), (0xcc20ce9bd35c78a5, 0x31ec038df7b441f5, 0x34c44c43c44b44cb),
    (0xe2a0b5dc971f303a, 0x2e44ae64840fd61e, 0x333333333333333c), (0xfb9b7cd9a4a7443c, 0x169840ef017da3b2, 0x433344443333344c),
    (0x8bab8eefb6409c1a, 0x1ad089b6c2f7548f, 0xdcbdcc3cc4cc4bcb), (0x9b10a4e5e9913128, 0xca7cf2b4191c8327, 0x3ab3cb3bc3bb4bbb),
    (0xac2820d9623bf429, 0x546345fa9fbdcd45, 0x3bb3cc43c43c43cb), (0xbf21e44003acdd2c, 0xe0470a63e6bd56c4, 0x44b34a43b44c44bc),
    (0xd433179d9c8cb841, 0x5fa60692a46151ec, 0x43a33a33a333333c)]

/-! ### Products -/

/-- The low and the high word of a product -/
def mul128 (x y : ℕ) : ℕ × ℕ := (x * y % 2 ^ 64, x * y / 2 ^ 64)

def mul192hi (xhi xlo y : ℕ) : ℕ × ℕ :=
  let (z1, z2) := mul128 xhi y
  let (_, z1c) := mul128 xlo y
  let z1 := (z1 + z1c) % 2 ^ 64
  (z1, (z2 + if z1 < z1c then 1 else 0) % 2 ^ 64)

def roundodd (ghi glo cp : ℕ) : ℕ :=
  let (_, xhi) := mul128 glo cp
  let (ylo, yhi) := mul128 ghi cp
  let z := (ylo + xhi) % 2 ^ 64
  (yhi + if z < xhi then 1 else 0) % 2 ^ 64 ||| if 1 < z then 1 else 0

structure Decimal where
  s : ℕ
  k : ℤ
deriving DecidableEq

/-- The fraction of `10 ^ -k` from the tables: the scale is one bit, and the offset is applied without a carry. -/
def pow10 (k : ℤ) : ℕ × ℕ :=
  let gtoff := (-k - kPow10TableMin).toNat
  let gt := kPow10Table.getD (gtoff / 16) (0, 0, 0)
  let (glo, ghi) := mul192hi gt.1 gt.2.1 (kPow5Table.getD (gtoff % 16) 0)
  let gterr := gt.2.2 / 2 ^ (gtoff % 16 * 4) % 16
  let gtscale := gterr / 8
  let ghi := ghi * 2 ^ gtscale % 2 ^ 64
  let ghi := (ghi + glo / 2 ^ 63 % 2 * gtscale) % 2 ^ 64
  let glo := glo * 2 ^ gtscale % 2 ^ 64
  let glo := (glo + 2 ^ 64 + 4 - gterr % 8) % 2 ^ 64
  (ghi, glo)

/-! ### The algorithm -/

/-- The decimal exponent and the shift for a binary exponent -/
def exponents (q : ℤ) (irr : Bool) : ℤ × ℤ :=
  let k := (q * 315652 + if irr then -131008 else 0) >>> (20 : ℕ)
  (k, q + (-k * 3483294) >>> (20 : ℕ) + 1)

/-- The choice, given the boundaries -/
def choose (out vbl vb vbr : ℕ) (k : ℤ) : Decimal :=
  let s := vb / 4
  let uin := decide (vbl + out ≤ 4 * s)
  let win := decide (4 * s + 4 + out ≤ vbr)
  let rup := decide (4 * s + 2 + 1 - s % 2 ≤ vb)
  let near : Decimal := ⟨s + (if uin != win then win else rup).toNat, k⟩
  if 10 ≤ s then
    let sp := s / 10
    let upin := decide (vbl + out ≤ 40 * sp)
    let wpin := decide (40 * sp + 40 + out ≤ vbr)
    if upin != wpin then ⟨sp + wpin.toNat, k + 1⟩ else near
  else near

/-- What follows the fast path -/
def general (c : ℕ) (q : ℤ) : Decimal :=
  let irr := decide (c = 2 ^ 52 ∧ q ≠ -1074)
  let out := c % 2
  let cbl := 4 * c - 2 + irr.toNat
  let cb := 4 * c
  let cbr := 4 * c + 2
  let (k, h) := exponents q irr
  let (ghi, glo) := pow10 k
  let vbl := roundodd ghi glo (cbl * 2 ^ h.toNat % 2 ^ 64)
  let vb := roundodd ghi glo (cb * 2 ^ h.toNat % 2 ^ 64)
  let vbr := roundodd ghi glo (cbr * 2 ^ h.toNat % 2 ^ 64)
  choose out vbl vb vbr k

/-- `c * 2 ^ q` is an integer of less than 53 bits. -/
def isSmallInteger (c : ℕ) (q : ℤ) : Bool := decide (0 ≤ -q ∧ -q < 53 ∧ c % 2 ^ (-q).toNat = 0)

/-- The integers `c` and `q` of a double -/
def decompose (exponent fraction : ℕ) : ℕ × ℤ :=
  let q := (exponent : ℤ) - 1023 - 51
  if exponent ≠ 0 then (fraction + 2 ^ 52, q - 1) else (fraction, q)

def schubfach (exponent fraction : ℕ) : Decimal :=
  let (c, q) := decompose exponent fraction
  if isSmallInteger c q then ⟨c / 2 ^ (-q).toNat, 0⟩ else general c q

end Luwu.NumPrint

/-!
## Printing a number

`luai_num2str` over two buffers.  A pointer is a position in its buffer.  A write or a read that leaves the buffer stops the run,
as does an assertion; what the buffers hold before is arbitrary.
-/

namespace Luwu.NumPrint

/-! ### Buffers -/

def write (buf : List UInt8) (pos : ℕ) (bytes : List UInt8) : Option (List UInt8) :=
  if pos + bytes.length ≤ buf.length then some (buf.take pos ++ bytes ++ buf.drop (pos + bytes.length)) else none

def read (buf : List UInt8) (pos len : ℕ) : Option (List UInt8) :=
  if pos + len ≤ buf.length then some ((buf.drop pos).take len) else none

/-- Writing in front of a position -/
def writeBefore (buf : List UInt8) (pos : ℕ) (bytes : List UInt8) : Option (List UInt8) :=
  if bytes.length ≤ pos then write buf (pos - bytes.length) bytes else none

/-- So many bytes are needed, and this many are copied. -/
def fastmemcpy (buf : List UInt8) (dst : ℕ) (from_ : List UInt8) (src size sizefast : ℕ) : Option (List UInt8) :=
  if size ≤ sizefast then
    match read from_ src sizefast with
    | none => none
    | some bytes => write buf dst bytes
  else none

def fastmemset (buf : List UInt8) (dst : ℕ) (val : UInt8) (size sizefast : ℕ) : Option (List UInt8) :=
  if size ≤ sizefast then write buf dst (List.replicate sizefast val) else none

/-! ### Digits -/

def digit (d : ℕ) : UInt8 := UInt8.ofNat (48 + d)

/-- The entry of `kDigitTable` for a number below 100 -/
def pair (v : ℕ) : List UInt8 := [digit (v / 10), digit (v % 10)]

/-- The second loop and what follows it -/
def printrest (buf : List UInt8) (end_ rest : ℕ) : Option (List UInt8 × ℕ) :=
  if 10 ≤ rest then
    match writeBefore buf end_ (pair (rest % 100)) with
    | none => none
    | some buf => printrest buf (end_ - 2) (rest / 100)
  else if rest ≠ 0 then (writeBefore buf end_ [digit rest]).map fun buf => (buf, end_ - 1)
  else some (buf, end_)
termination_by rest

def printunsignedrev (buf : List UInt8) (end_ num : ℕ) : Option (List UInt8 × ℕ) :=
  if 10000 ≤ num then
    let tail := num % 10000
    match writeBefore buf end_ (pair (tail / 100) ++ pair (tail % 100)) with
    | none => none
    | some buf => printunsignedrev buf (end_ - 4) (num / 10000)
  else printrest buf end_ num
termination_by num

def printexp (buf : List UInt8) (pos : ℕ) (num : ℤ) : Option (List UInt8 × ℕ) := do
  let buf ← write buf pos ['e'.toUInt8, if num < 0 then '-'.toUInt8 else '+'.toUInt8]
  let pos := pos + 2
  let v := num.natAbs
  if 100 ≤ v then
    let buf ← write buf pos [digit (v / 100)]
    let buf ← write buf (pos + 1) (pair (v % 100))
    return (buf, pos + 1 + 2)
  else
    let buf ← write buf pos (pair v)
    return (buf, pos + 2)

def trimzero (buf : List UInt8) : ℕ → Option ℕ
  | 0 => none
  | end_ + 1 =>
    match buf[end_]? with
    | none => none
    | some c => if c = '0'.toUInt8 then trimzero buf end_ else some (end_ + 1)

/-! ### Numbers -/

def LUAI_MAXNUM2STR : ℕ := 48

def printspecial (buf : List UInt8) (pos sign fraction : ℕ) : Option (List UInt8 × ℕ) :=
  if fraction = 0 then
    (write buf pos (((['-', 'i', 'n', 'f'].map Char.toUInt8 ++ [0]).drop (1 - sign)).take 4)).map fun buf => (buf, pos + 3 + sign)
  else (write buf pos (['n', 'a', 'n'].map Char.toUInt8 ++ [0])).map fun buf => (buf, pos + 3)

/-- The decimal in one of its forms; `dec` is where its digits are. -/
def printdecimal (buf : List UInt8) (pos : ℕ) (decbuf : List UInt8) (dec declen : ℕ) (dot : ℤ) : Option (List UInt8 × ℕ) :=
  if -5 ≤ dot ∧ dot ≤ 21 then
    if dot ≤ 0 then do
      -- fixed point format
      let buf ← write buf pos ['0'.toUInt8, '.'.toUInt8]
      let buf ← fastmemset buf (pos + 2) '0'.toUInt8 (-dot).toNat 5
      let buf ← fastmemcpy buf (pos + 2 + (-dot).toNat) decbuf dec declen 17
      let end_ ← trimzero buf (pos + 2 + (-dot).toNat + declen)
      return (buf, end_)
    else if dot = declen then do
      -- no dot
      let buf ← fastmemcpy buf pos decbuf dec dot.toNat 17
      return (buf, pos + dot.toNat)
    else if dot < declen then do
      -- dot in the middle
      let buf ← fastmemcpy buf pos decbuf dec dot.toNat 16
      let buf ← write buf (pos + dot.toNat) ['.'.toUInt8]
      let buf ← fastmemcpy buf (pos + dot.toNat + 1) decbuf (dec + dot.toNat) (declen - dot.toNat) 16
      let end_ ← trimzero buf (pos + declen + 1)
      return (buf, end_)
    else do
      -- no dot, zero padding
      let buf ← fastmemcpy buf pos decbuf dec declen 17
      let buf ← fastmemset buf (pos + declen) '0'.toUInt8 (dot.toNat - declen) 8
      return (buf, pos + dot.toNat)
  else do
    -- scientific format
    let first ← read decbuf dec 1
    let buf ← write buf pos first
    let buf ← write buf (pos + 1) ['.'.toUInt8]
    let buf ← fastmemcpy buf (pos + 2) decbuf (dec + 1) (declen - 1) 16
    let exp ← trimzero buf (pos + declen + 1)
    let last ← read buf (exp - 1) 1
    printexp buf (if last = ['.'.toUInt8] then exp - 1 else exp) (dot - 1)

def luai_num2str (buf decbuf : List UInt8) (bits : BitVec 64) : Option (List UInt8 × ℕ) := do
  let sign := bits.toNat / 2 ^ 63
  let exponent := bits.toNat / 2 ^ 52 % 2048
  let fraction := bits.toNat % 2 ^ 52
  if exponent = 0x7ff then printspecial buf 0 sign fraction
  else
    let buf ← write buf 0 ['-'.toUInt8]
    let pos := sign
    if exponent = 0 ∧ fraction = 0 then
      let buf ← write buf pos ['0'.toUInt8]
      return (buf, pos + 1)
    else
      let d := schubfach exponent fraction
      if 10 ^ 17 ≤ d.s then none
      else
        let (decbuf, dec) ← printunsignedrev decbuf 20 d.s
        let declen := 20 - dec
        if 17 < declen then none
        else printdecimal buf pos decbuf dec declen (declen + d.k)

end Luwu.NumPrint

/-!
## What the buffers hold

A text is in a buffer when it is a prefix of it.  Each write adds to such a text; what a copy of fixed length leaves behind it is not
looked at.
-/

namespace Luwu.NumPrint

/-! ### Writes -/

section Writes

variable {buf decbuf pre good bytes ds rest : List UInt8} {pos n : ℕ}

/-- **A write behind a text** adds what its bytes begin with. -/
theorem write_prefix (bytes : List UInt8) (hpre : pre <+: buf) (hpos : pos = pre.length) (hroom : pos + bytes.length ≤ buf.length) (hgood : good <+: bytes) :
    ∃ buf', write buf pos bytes = some buf' ∧ buf'.length = buf.length ∧ pre ++ good <+: buf' := by
  refine ⟨_, if_pos hroom, ?_, ?_⟩
  · rw [List.length_append, List.length_append, List.length_take, List.length_drop]
    omega
  · obtain ⟨junk, rfl⟩ := hgood
    rw [hpos, List.prefix_iff_eq_take.mp hpre, List.length_take_of_le hpre.length_le, List.append_assoc, List.append_assoc,
      ← List.append_assoc]
    exact List.prefix_append _ _

/-- A read of a text that is in a buffer -/
theorem read_prefix {i m : ℕ} (hbuf : decbuf.drop pos = ds ++ rest) (hm : i + m ≤ ds.length) (hmn : m ≤ n)
    (hroom : pos + i + n ≤ decbuf.length) : ∃ bytes, read decbuf (pos + i) n = some bytes ∧ bytes.length = n ∧
      (ds.drop i).take m <+: bytes := by
  refine ⟨_, if_pos hroom, ?_, ?_⟩
  · rw [List.length_take, List.length_drop]
    omega
  · rw [← List.drop_drop, hbuf, List.drop_append_of_le_length (by omega)]
    obtain ⟨j, rfl⟩ : ∃ j, n = m + j := ⟨n - m, by omega⟩
    have htake : ((ds.drop i ++ rest).take (m + j)).take m = (ds.drop i).take m := by
      rw [List.take_take, Nat.min_eq_left (Nat.le_add_right m j), List.take_append_of_le_length (by rw [List.length_drop]; omega)]
    rw [← htake]
    exact List.take_prefix _ _

/-- `fastmemcpy` adds what is needed. -/
theorem fastmemcpy_prefix (i size sizefast : ℕ) (hpre : pre <+: buf) (hpos : pos = pre.length) {src : ℕ}
    (hbuf : decbuf.drop src = ds ++ rest) (hsize : i + size ≤ ds.length) (hfast : size ≤ sizefast)
    (hread : src + i + sizefast ≤ decbuf.length) (hroom : pos + sizefast ≤ buf.length) :
    ∃ buf', fastmemcpy buf pos decbuf (src + i) size sizefast = some buf' ∧ buf'.length = buf.length ∧
      pre ++ (ds.drop i).take size <+: buf' := by
  obtain ⟨bytes, hbytes, hlen, hgood⟩ := read_prefix hbuf hsize hfast hread
  unfold fastmemcpy
  rw [if_pos hfast, hbytes]
  exact write_prefix bytes hpre hpos (by rw [hlen]; exact hroom) hgood

theorem fastmemset_prefix (val : UInt8) (size sizefast : ℕ) (hpre : pre <+: buf) (hpos : pos = pre.length) (hfast : size ≤ sizefast)
    (hroom : pos + sizefast ≤ buf.length) :
    ∃ buf', fastmemset buf pos val size sizefast = some buf' ∧ buf'.length = buf.length ∧ pre ++ List.replicate size val <+: buf' := by
  unfold fastmemset
  rw [if_pos hfast]
  refine write_prefix _ hpre hpos (by rwa [List.length_replicate]) ?_
  obtain ⟨j, rfl⟩ : ∃ j, sizefast = size + j := ⟨sizefast - size, by omega⟩
  rw [List.replicate_add]
  exact List.prefix_append _ _

/-- A text without the zeros at its end -/
def trim (l : List UInt8) : List UInt8 := l.rdropWhile (· == '0'.toUInt8)

theorem trim_nil : trim [] = [] := List.rdropWhile_nil _

theorem trim_snoc_zero (l : List UInt8) : trim (l ++ ['0'.toUInt8]) = trim l := List.rdropWhile_concat_pos _ _ _ rfl

theorem trim_snoc {l : List UInt8} {c : UInt8} (hc : c ≠ '0'.toUInt8) : trim (l ++ [c]) = l ++ [c] :=
  List.rdropWhile_concat_neg _ _ _ fun h => hc (eq_of_beq h)

theorem trim_le (l : List UInt8) : trim l <+: l := List.rdropWhile_prefix _ _

theorem byte_of_initial {d : UInt8} (h : pre ++ [d] <+: buf) : buf[pre.length]? = some d := by
  obtain ⟨t, rfl⟩ := h
  rw [List.append_assoc, List.getElem?_append_right le_rfl, Nat.sub_self]
  rfl

/-- **`trimzero`** stops behind what is left of the text that follows a byte other than zero. -/
theorem trimzero_eq {c : UInt8} (hc : c ≠ '0'.toUInt8) (f : List UInt8) (hpre : pre ++ [c] ++ f <+: buf)
    (hpos : pos = (pre ++ [c] ++ f).length) : trimzero buf pos = some (pre ++ [c] ++ trim f).length := by
  induction f using List.reverseRecOn generalizing pos with
  | nil =>
    rw [List.append_nil] at hpre hpos
    rw [trim_nil, List.append_nil, hpos, List.length_append, List.length_singleton, trimzero, byte_of_initial hpre]
    exact if_neg hc
  | append_singleton f d ih =>
    rw [← List.append_assoc] at hpre hpos
    have hprefix : pre ++ [c] ++ f <+: buf := (List.prefix_append _ [d]).trans hpre
    have hpos' : pos = (pre ++ [c] ++ f).length + 1 := by
      rw [hpos, List.length_append, List.length_singleton]
    rw [hpos', trimzero, byte_of_initial hpre]
    dsimp only
    by_cases hd : d = '0'.toUInt8
    · rw [if_pos hd, hd, trim_snoc_zero]
      exact ih hprefix rfl
    · have hlen : (pre ++ [c] ++ f ++ [d]).length = (pre ++ [c] ++ f).length + 1 := List.length_append
      rw [if_neg hd, trim_snoc hd, ← List.append_assoc, hlen]

end Writes

/-! ### Digits -/

section Digits

variable {buf bytes : List UInt8} {end_ : ℕ}

/-- The digits of a number, without leading zeros -/
def decimal (n : ℕ) : List UInt8 := (Nat.digits 10 n).reverse.map digit

theorem decimal_zero : decimal 0 = [] := by
  unfold decimal
  rw [Nat.digits_zero]
  rfl

theorem decimal_step {n : ℕ} (hn : n ≠ 0) : decimal n = decimal (n / 10) ++ [digit (n % 10)] := by
  unfold decimal
  rw [Nat.digits_def' (by norm_num) (Nat.pos_of_ne_zero hn), List.reverse_cons, List.map_append]
  rfl

theorem decimal_pair {n : ℕ} (hn : 10 ≤ n) : decimal n = decimal (n / 100) ++ pair (n % 100) := by
  rw [decimal_step (by omega), decimal_step (show n / 10 ≠ 0 by omega), List.append_assoc, Nat.div_div_eq_div_mul]
  unfold pair
  rw [show n % 100 / 10 = n / 10 % 10 by omega, show n % 100 % 10 = n % 10 by omega]
  rfl

theorem decimal_four {n : ℕ} (hn : 10000 ≤ n) :
    decimal n = decimal (n / 10000) ++ (pair (n % 10000 / 100) ++ pair (n % 10000 % 100)) := by
  rw [decimal_pair (by omega), decimal_pair (show 10 ≤ n / 100 by omega), List.append_assoc, Nat.div_div_eq_div_mul]
  rw [show n % 10000 / 100 = n / 100 % 100 by omega, show n % 10000 % 100 = n % 100 by omega]

theorem writeBefore_spec (hlen : bytes.length ≤ end_) (hend : end_ ≤ buf.length) :
    ∃ buf', writeBefore buf end_ bytes = some buf' ∧ buf'.length = buf.length ∧
      buf'.drop (end_ - bytes.length) = bytes ++ buf.drop end_ := by
  have hroom : end_ - bytes.length + bytes.length ≤ buf.length := by omega
  unfold writeBefore write
  rw [if_pos hlen, if_pos hroom]
  refine ⟨_, rfl, ?_, ?_⟩
  · rw [List.length_append, List.length_append, List.length_take, List.length_drop]
    omega
  · rw [List.append_assoc, List.drop_append_of_le_length (by rw [List.length_take]; omega), Nat.sub_add_cancel hlen,
      List.drop_of_length_le (by rw [List.length_take]; omega), List.nil_append]

theorem printrest_spec (rest : ℕ) : ∀ (buf : List UInt8) (end_ : ℕ), (decimal rest).length ≤ end_ → end_ ≤ buf.length →
    ∃ buf', printrest buf end_ rest = some (buf', end_ - (decimal rest).length) ∧ buf'.length = buf.length ∧
      buf'.drop (end_ - (decimal rest).length) = decimal rest ++ buf.drop end_ := by
  induction rest using Nat.strongRecOn with
  | ind rest ih =>
    intro buf end_ hlen hend
    rw [printrest]
    by_cases hten : 10 ≤ rest
    · have hdecimal := decimal_pair hten
      have hlength : (decimal rest).length = (decimal (rest / 100)).length + 2 := by
        rw [hdecimal, List.length_append]
        rfl
      obtain ⟨buf', hwrite, hlen', hdrop⟩ :=
        writeBefore_spec (show (pair (rest % 100)).length ≤ end_ from show 2 ≤ end_ by omega) hend
      change buf'.drop (end_ - 2) = _ at hdrop
      obtain ⟨buf'', hrun, hlen'', hdrop'⟩ := ih (rest / 100) (by omega) buf' (end_ - 2) (by omega) (by omega)
      rw [if_pos hten, hwrite]
      have hpos : end_ - 2 - (decimal (rest / 100)).length = end_ - (decimal rest).length := by omega
      rw [hpos] at hrun hdrop'
      refine ⟨buf'', hrun, hlen''.trans hlen', ?_⟩
      rw [hdrop', hdrop, ← List.append_assoc, ← hdecimal]
    · rw [if_neg hten]
      by_cases hzero : rest = 0
      · subst hzero
        rw [if_neg (by simp), decimal_zero]
        exact ⟨buf, rfl, rfl, rfl⟩
      · have hdecimal : decimal rest = [digit rest] := by
          rw [decimal_step hzero, Nat.div_eq_of_lt (by omega), decimal_zero, Nat.mod_eq_of_lt (by omega)]
          rfl
        rw [hdecimal] at hlen ⊢
        obtain ⟨buf', hwrite, hlen', hdrop⟩ := writeBefore_spec hlen hend
        rw [if_pos hzero, hwrite]
        exact ⟨buf', rfl, hlen', hdrop⟩

/-- **The digits of a number** end up in front of the position. -/
theorem printunsignedrev_spec (num : ℕ) : ∀ (buf : List UInt8) (end_ : ℕ), (decimal num).length ≤ end_ → end_ ≤ buf.length →
    ∃ buf', printunsignedrev buf end_ num = some (buf', end_ - (decimal num).length) ∧ buf'.length = buf.length ∧
      buf'.drop (end_ - (decimal num).length) = decimal num ++ buf.drop end_ := by
  induction num using Nat.strongRecOn with
  | ind num ih =>
    intro buf end_ hlen hend
    rw [printunsignedrev]
    by_cases hbig : 10000 ≤ num
    · have hdecimal := decimal_four hbig
      have hlength : (decimal num).length = (decimal (num / 10000)).length + 4 := by
        rw [hdecimal, List.length_append]
        rfl
      obtain ⟨buf', hwrite, hlen', hdrop⟩ :=
        writeBefore_spec (show (pair (num % 10000 / 100) ++ pair (num % 10000 % 100)).length ≤ end_ from
          show 4 ≤ end_ by omega) hend
      change buf'.drop (end_ - 4) = _ at hdrop
      obtain ⟨buf'', hrun, hlen'', hdrop'⟩ := ih (num / 10000) (by omega) buf' (end_ - 4) (by omega) (by omega)
      rw [if_pos hbig]
      dsimp only
      rw [hwrite]
      have hpos : end_ - 4 - (decimal (num / 10000)).length = end_ - (decimal num).length := by omega
      rw [hpos] at hrun hdrop'
      refine ⟨buf'', hrun, hlen''.trans hlen', ?_⟩
      rw [hdrop', hdrop, ← List.append_assoc, ← hdecimal]
    · rw [if_neg hbig]
      exact printrest_spec num buf end_ hlen hend

/-- A number below a power of ten has at most so many digits, and none only if it is zero. -/
theorem length_decimal_le {n k : ℕ} (h : n < 10 ^ k) : (decimal n).length ≤ k := by
  unfold decimal
  rw [List.length_map, List.length_reverse]
  exact (Nat.digits_length_le_iff (by norm_num) n).mpr h

theorem le_length_decimal {n k : ℕ} (h : 10 ^ k ≤ n) : k < (decimal n).length := by
  unfold decimal
  rw [List.length_map, List.length_reverse]
  exact (Nat.lt_digits_length_iff (by norm_num) n).mpr h

end Digits

end Luwu.NumPrint
