import Luwu.Lib.FloatInt
import Luwu.Sccp.Machine

/-!
# Packed strings

`string.pack`, `string.packsize` and `string.unpack`.  A format is read option by option; a character stands for a byte,
and the end of the format for the zero after it.  Machine words have 64 bits and their lowest byte first.
-/

namespace Luwu.StrPack

open Floating Sccp

abbrev Byte := BitVec 8

inductive Value
  | number (n : Number)
  | string (s : List Byte)

inductive Stop
  | error (msg : String)
  | argerror (arg : ℕ) (extramsg : String)
  | typeerror (arg : ℕ) (tname : String)
  /-- A byte outside of the data is read. -/
  | outside
  /-- A loop has no turns left. -/
  | fuel

abbrev PackM := Except Stop

def MAXINTSIZE : ℕ := 16

def SZINT : ℕ := 8

def MAXALIGN : ℕ := 8

def MAXSSIZE : ℕ := 2 ^ 30

def INT_MAX : ℕ := 2 ^ 31 - 1

def LUAL_PACKPADBYTE : Byte := 0

structure Header where
  islittle : Bool
  maxalign : ℕ

def nativeLittle : Bool := true

def initheader : Header := ⟨nativeLittle, 1⟩

inductive KOption
  | Kint
  | Kuint
  | Kfloat
  | Kchar
  | Kstring
  | Kzstr
  | Kpadding
  | Kpaddalign
  | Knop
deriving DecidableEq

/-! ### Options of a format -/

def digit (c : Char) : Bool := '0' ≤ c && c ≤ '9'

def startsDigit : List Char → Bool
  | [] => false
  | c :: _ => digit c

/-- The loop over the digits of a numeral -/
def numeral (a : ℕ) : List Char → ℕ × List Char
  | [] => (a, [])
  | c :: fmt => if digit c && a ≤ (INT_MAX - 9) / 10 then numeral (a * 10 + (c.toNat - '0'.toNat)) fmt else (a, c :: fmt)

def getnum (fmt : List Char) (df : Option ℕ) : PackM (Option ℕ × List Char) :=
  if startsDigit fmt then
    let (a, fmt) := numeral 0 fmt
    if a > MAXSSIZE || startsDigit fmt then .error (.error "size specifier is too large") else .ok (some a, fmt)
  else .ok (df, fmt)

def getnumlimit (fmt : List Char) (df : ℕ) : PackM (ℕ × List Char) := do
  let (sz, fmt) ← getnum fmt (some df)
  let sz := sz.getD df
  if sz > MAXINTSIZE ∨ sz = 0 then .error (.error s!"integral size ({sz}) out of limits [1,{MAXINTSIZE}]")
  else .ok (sz, fmt)

/-- The next option with its size, and what it makes of the header -/
def getoption (h : Header) : List Char → PackM (KOption × ℕ × Header × List Char)
  | [] => .error (.error "invalid format option ''")
  | opt :: fmt =>
    match opt with
    | 'b' => .ok (.Kint, 1, h, fmt)
    | 'B' => .ok (.Kuint, 1, h, fmt)
    | 'h' => .ok (.Kint, 2, h, fmt)
    | 'H' => .ok (.Kuint, 2, h, fmt)
    | 'l' => .ok (.Kint, 8, h, fmt)
    | 'L' => .ok (.Kuint, 8, h, fmt)
    | 'j' => .ok (.Kint, 4, h, fmt)
    | 'J' => .ok (.Kuint, 4, h, fmt)
    | 'T' => .ok (.Kuint, 4, h, fmt)
    | 'f' => .ok (.Kfloat, 4, h, fmt)
    | 'd' => .ok (.Kfloat, 8, h, fmt)
    | 'n' => .ok (.Kfloat, 8, h, fmt)
    | 'i' => do
      let (size, fmt) ← getnumlimit fmt 4
      .ok (.Kint, size, h, fmt)
    | 'I' => do
      let (size, fmt) ← getnumlimit fmt 4
      .ok (.Kuint, size, h, fmt)
    | 's' => do
      let (size, fmt) ← getnumlimit fmt 4
      .ok (.Kstring, size, h, fmt)
    | 'c' => do
      let (size, fmt) ← getnum fmt none
      match size with
      | none => .error (.error "missing size for format option 'c'")
      | some size => .ok (.Kchar, size, h, fmt)
    | 'z' => .ok (.Kzstr, 0, h, fmt)
    | 'x' => .ok (.Kpadding, 1, h, fmt)
    | 'X' => .ok (.Kpaddalign, 0, h, fmt)
    | ' ' => .ok (.Knop, 0, h, fmt)
    | '<' => .ok (.Knop, 0, { h with islittle := true }, fmt)
    | '>' => .ok (.Knop, 0, { h with islittle := false }, fmt)
    | '=' => .ok (.Knop, 0, { h with islittle := nativeLittle }, fmt)
    | '!' => do
      let (maxalign, fmt) ← getnumlimit fmt MAXALIGN
      .ok (.Knop, 0, { h with maxalign := maxalign }, fmt)
    | c => .error (.error s!"invalid format option '{c}'")

structure Details where
  opt : KOption
  size : ℕ
  ntoalign : ℕ
  header : Header
  rest : List Char

/-- 'X' gets its alignment from the option that follows, which it skips. -/
def alignedTo (opt : KOption) (size : ℕ) (h : Header) (fmt : List Char) : PackM (ℕ × Header × List Char) :=
  if opt = .Kpaddalign then
    if fmt = [] then .error (.argerror 1 "invalid next option for option 'X'")
    else do
      let (next, align, h, fmt) ← getoption h fmt
      if next = .Kchar ∨ align = 0 then .error (.argerror 1 "invalid next option for option 'X'") else .ok (align, h, fmt)
  else .ok (size, h, fmt)

def toalign (align totalsize : ℕ) : ℕ := (align - (totalsize &&& (align - 1))) &&& (align - 1)

/-- An option at its place; only small alignments and 'c' need none. -/
def placed (opt : KOption) (size align totalsize : ℕ) (h : Header) (fmt : List Char) : PackM Details :=
  if align ≤ 1 ∨ opt = .Kchar then .ok ⟨opt, size, 0, h, fmt⟩
  else
    let align := if align > h.maxalign then h.maxalign else align
    if align &&& (align - 1) = 0 then .ok ⟨opt, size, toalign align totalsize, h, fmt⟩
    else .error (.argerror 1 "format asks for alignment not power of 2")

def getdetails (h : Header) (totalsize : ℕ) (fmt : List Char) : PackM Details := do
  let (opt, size, h, fmt) ← getoption h fmt
  let (align, h, fmt) ← alignedTo opt size h fmt
  placed opt size align totalsize h fmt

/-! ### Bytes of numbers -/

/-- The lowest bytes of a number, the lowest first -/
def lowBytes : ℕ → ℕ → List Byte
  | 0, _ => []
  | size + 1, n => BitVec.ofNat 8 n :: lowBytes size (n / 256)

def endian (islittle : Bool) (bytes : List Byte) : List Byte := if islittle then bytes else bytes.reverse

def packint (n : BitVec 64) (islittle : Bool) (size : ℕ) (neg : Bool) : List Byte :=
  let bytes := lowBytes size n.toNat
  -- the extra bytes of a negative number
  endian islittle (if neg && size > SZINT then bytes.take SZINT ++ List.replicate (size - SZINT) 0xff else bytes)

def join : List Byte → ℕ
  | [] => 0
  | b :: bytes => b.toNat + 256 * join bytes

def unpackint (str : List Byte) (islittle : Bool) (size : ℕ) (issigned : Bool) : PackM (BitVec 64) :=
  let str := endian islittle str
  let res := BitVec.ofNat 64 (join (str.take SZINT))
  if size < SZINT then
    let mask := 1#64 <<< (size * 8 - 1)
    .ok (if issigned then (res ^^^ mask) - mask else res)
  else
    let mask : Byte := if !issigned || res.toInt ≥ 0 then 0 else 0xff
    if (str.drop SZINT).all (· == mask) then .ok res
    else .error (.error s!"{size}-byte integer does not fit into Lua Integer")

/-- The bits of a floating point number; the bits of NaN are those of a quiet one. -/
def ofFloat {F : Format} (width : ℕ) : Datum F → ℕ
  | .nan => F.top + 2 ^ (F.fraction - 1)
  | .num neg mag => (if neg then 2 ^ (width - 1) else 0) + mag

def toFloat (F : Format) (width bits : ℕ) : Datum F :=
  let mag := bits % 2 ^ (width - 1)
  if h : mag < F.top + 1 then .num (decide (bits ≥ 2 ^ (width - 1))) ⟨mag, h⟩ else .nan

/-- `(long long)n`; numbers out of range give the least integer. -/
def toLongLong (n : Number) : ℤ :=
  match n with
  | .nan => -2 ^ 63
  | n => if -2 ^ 63 ≤ n.truncate ∧ n.truncate < 2 ^ 63 then n.truncate else -2 ^ 63

def packfloat (n : Number) (islittle : Bool) (size : ℕ) : List Byte :=
  endian islittle (lowBytes size (if size = 4 then ofFloat 32 (n.convert : Datum Format.single) else ofFloat 64 n))

def unpackfloat (str : List Byte) (islittle : Bool) (size : ℕ) : Number :=
  let bits := join (endian islittle str)
  if size = 4 then (toFloat Format.single 32 bits).convert else toFloat Format.double 64 bits

/-! ### The functions of the library -/

/-- How strings become numbers and numbers become strings -/
structure Coercions where
  tonumber : List Byte → Option Number
  tostring : Number → List Byte

section

variable (C : Coercions)

/-- The next argument, which has this number -/
def luaL_checknumber (args : List Value) (arg : ℕ) : PackM Number :=
  match args with
  | .number n :: _ => .ok n
  | .string s :: _ =>
    match C.tonumber s with
    | some n => .ok n
    | none => .error (.typeerror arg "number")
  | [] => .error (.typeerror arg "number")

def luaL_checklstring (args : List Value) (arg : ℕ) : PackM (List Byte) :=
  match args with
  | .number n :: _ => .ok (C.tostring n)
  | .string s :: _ => .ok s
  | [] => .error (.typeerror arg "string")

def argcheck (cond : Prop) [Decidable cond] (arg : ℕ) (extramsg : String) : PackM Unit :=
  if cond then .ok () else .error (.argerror arg extramsg)

def takesArg : KOption → Bool
  | .Kpadding | .Kpaddalign | .Knop => false
  | _ => true

/-- The bytes of an option, and how many there are past its size -/
def packValue (d : Details) (args : List Value) (arg : ℕ) : PackM (List Byte × ℕ) :=
  match d.opt with
  | .Kint => do
    let n ← toLongLong <$> luaL_checknumber C args arg
    let lim : ℤ := 2 ^ (d.size * 8 - 1)
    argcheck (d.size < SZINT → -lim ≤ n ∧ n < lim) arg "integer overflow"
    .ok (packint (BitVec.ofInt 64 n) d.header.islittle d.size (n < 0), 0)
  | .Kuint => do
    let n ← BitVec.ofInt 64 <$> toLongLong <$> luaL_checknumber C args arg
    argcheck (d.size < SZINT → n.toNat < 2 ^ (d.size * 8)) arg "unsigned overflow"
    .ok (packint n d.header.islittle d.size false, 0)
  | .Kfloat => do
    let n ← luaL_checknumber C args arg
    .ok (packfloat n d.header.islittle d.size, 0)
  | .Kchar => do
    let s ← luaL_checklstring C args arg
    argcheck (s.length ≤ d.size) arg "string longer than given size"
    .ok (s ++ List.replicate (d.size - s.length) LUAL_PACKPADBYTE, 0)
  | .Kstring => do
    let s ← luaL_checklstring C args arg
    argcheck (d.size ≥ 8 ∨ s.length < 2 ^ (d.size * 8)) arg "string length does not fit in given size"
    .ok (packint (BitVec.ofNat 64 s.length) d.header.islittle d.size false ++ s, s.length)
  | .Kzstr => do
    let s ← luaL_checklstring C args arg
    argcheck ((s.takeWhile (· ≠ 0)).length = s.length) arg "string contains zeros"
    .ok (s ++ [0], s.length + 1)
  | .Kpadding => .ok ([LUAL_PACKPADBYTE], 0)
  | .Kpaddalign => .ok ([], 0)
  | .Knop => .ok ([], 0)

/-- The loop of `str_pack`, with fuel for its turns; `args` are the arguments from number `arg + 1` on. -/
def packLoop : ℕ → Header → List Value → ℕ → ℕ → List Byte → List Char → PackM (List Byte)
  | _, _, _, _, _, b, [] => .ok b
  | 0, _, _, _, _, _, _ => .error .fuel
  | fuel + 1, h, args, arg, totalsize, b, fmt => do
    let d ← getdetails h totalsize fmt
    let (bytes, len) ← packValue C d args (arg + 1)
    let b := b ++ List.replicate d.ntoalign LUAL_PACKPADBYTE ++ bytes
    let totalsize := totalsize + d.ntoalign + d.size + len
    if takesArg d.opt then packLoop fuel d.header args.tail (arg + 1) totalsize b d.rest
    else packLoop fuel d.header args arg totalsize b d.rest

def str_pack (fmt : List Char) (args : List Value) : PackM (List Byte) :=
  packLoop C fmt.length initheader args 1 0 [] fmt

end

def packsizeLoop : ℕ → Header → ℕ → List Char → PackM ℕ
  | _, _, totalsize, [] => .ok totalsize
  | 0, _, _, _ => .error .fuel
  | fuel + 1, h, totalsize, fmt => do
    let d ← getdetails h totalsize fmt
    argcheck (d.opt ≠ .Kstring ∧ d.opt ≠ .Kzstr) 1 "variable-length format"
    let size := d.size + d.ntoalign
    argcheck (totalsize + size ≤ MAXSSIZE) 1 "format result too large"
    packsizeLoop fuel d.header (totalsize + size) d.rest

def str_packsize (fmt : List Char) : PackM ℕ := packsizeLoop fmt.length initheader 0 fmt

/-- The difference of two sizes, which are words without a sign -/
def sizeSub (a b : ℕ) : ℕ := if b ≤ a then a - b else 2 ^ 64 + a - b

/-- Bytes that are read at a place -/
def read (data : List Byte) (pos size : ℕ) : PackM (List Byte) :=
  if pos + size ≤ data.length then .ok ((data.drop pos).take size) else .error .outside

/-- The value of an option, and how many bytes it has past its size -/
def unpackValue (d : Details) (data : List Byte) (pos : ℕ) : PackM (List Value × ℕ) :=
  match d.opt with
  | .Kint => do
    let res ← unpackint (← read data pos d.size) d.header.islittle d.size true
    .ok ([.number (.ofInt res.toInt)], 0)
  | .Kuint => do
    let res ← unpackint (← read data pos d.size) d.header.islittle d.size false
    .ok ([.number (.ofInt res.toNat)], 0)
  | .Kfloat => do
    let str ← read data pos d.size
    .ok ([.number (unpackfloat str d.header.islittle d.size)], 0)
  | .Kchar => do
    let str ← read data pos d.size
    .ok ([.string str], 0)
  | .Kstring => do
    let len ← unpackint (← read data pos d.size) d.header.islittle d.size false
    argcheck (len.toNat ≤ sizeSub (sizeSub data.length pos) d.size) 2 "data string too short"
    let str ← read data (pos + d.size) len.toNat
    .ok ([.string str], len.toNat)
  | .Kzstr => do
    let len := ((data.drop pos).takeWhile (· ≠ 0)).length
    argcheck (pos + len < data.length) 2 "unfinished string for format 'z'"
    let str ← read data pos len
    .ok ([.string str], len + 1)
  | .Kpaddalign | .Kpadding | .Knop => .ok ([], 0)

/-- The loop of `str_unpack`, with the values before the next position -/
def unpackLoop (data : List Byte) : ℕ → Header → ℕ → List Value → List Char → PackM (List Value × ℕ)
  | _, _, pos, values, [] => .ok (values, pos)
  | 0, _, _, _, _ => .error .fuel
  | fuel + 1, h, pos, values, fmt => do
    let d ← getdetails h pos fmt
    argcheck (d.ntoalign + d.size ≤ sizeSub data.length pos) 2 "data string too short"
    let (value, len) ← unpackValue d data (pos + d.ntoalign)
    unpackLoop data fuel d.header (pos + d.ntoalign + d.size + len) (values ++ value) d.rest

def posrelat (pos : ℤ) (len : ℕ) : ℤ :=
  let pos := if pos < 0 then pos + len + 1 else pos
  if pos ≥ 0 then pos else 0

/-- `string.unpack(fmt, data, init)`: the values and the next position -/
def str_unpack (fmt : List Char) (data : List Byte) (init : ℤ) : PackM (List Value × ℕ) := do
  let pos := (posrelat init data.length - 1).toNat
  argcheck (pos ≤ data.length) 3 "initial position out of string"
  let (values, pos) ← unpackLoop data fmt.length initheader pos [] fmt
  .ok (values, pos + 1)

end Luwu.StrPack
