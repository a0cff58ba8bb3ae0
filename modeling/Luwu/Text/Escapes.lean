import Luwu.Lib.Utf8

/-!
# Escapes in a quoted string

`fixupQuotedString` decodes the escapes of a string in place: it reads at `i` and writes at `write`.  What a string stands for
is given by its pieces, bytes and code points, and by a rule for the digits of a code point; the code has its own rule.
-/

namespace Luwu.Escapes

open Luwu.Utf8

abbrev Byte := UInt8

/-! ### Characters -/

def isDigit (ch : Byte) : Bool := ch - '0'.toUInt8 < 10

def isHexDigit (ch : Byte) : Bool := ch - '0'.toUInt8 < 10 || (ch ||| ' '.toUInt8) - 'a'.toUInt8 < 6

def isSpace (ch : Byte) : Bool :=
  ch = ' '.toUInt8 || ch = '\t'.toUInt8 || ch = '\r'.toUInt8 || ch = '\n'.toUInt8 || ch = 11 || ch = 12

def unescape (ch : Byte) : Byte :=
  if ch = 'a'.toUInt8 then 7
  else if ch = 'b'.toUInt8 then 8
  else if ch = 'f'.toUInt8 then 12
  else if ch = 'n'.toUInt8 then '\n'.toUInt8
  else if ch = 'r'.toUInt8 then '\r'.toUInt8
  else if ch = 't'.toUInt8 then '\t'.toUInt8
  else if ch = 'v'.toUInt8 then 11
  else ch

/-- The value of a hexadecimal digit -/
def hexDigit (ch : Byte) : UInt32 :=
  if isDigit ch then (ch - '0'.toUInt8).toUInt32 else ((ch ||| ' '.toUInt8) - 'a'.toUInt8).toUInt32 + 10

/-- `char(code)` -/
def octet (code : UInt32) : Byte := code.toUInt8

/-- What `toUtf8` writes; nothing when the code is too large -/
def toUtf8 (code : UInt32) : List Byte :=
  let tail (shifted : UInt32) : Byte := octet ((0x80 : UInt32) ||| (shifted &&& 0x3F))
  if code < 0x80 then [octet code]
  else if code < 0x800 then [octet ((0xC0 : UInt32) ||| (code >>> 6)), tail code]
  else if code < 0x10000 then [octet ((0xE0 : UInt32) ||| (code >>> 12)), tail (code >>> 6), tail code]
  else if code < 0x110000 then
    [octet ((0xF0 : UInt32) ||| (code >>> 18)), tail (code >>> 12), tail (code >>> 6), tail code]
  else []

/-! ### The loop -/

structure Fixup where
  data : List Byte
  i : ℕ
  write : ℕ

/-- `data[pos]` -/
def charAt (data : List Byte) (pos : ℕ) : Byte := data.getD pos 0

/-- Bytes are written one after another at `write`. -/
def Fixup.emit (s : Fixup) : List Byte → Fixup
  | [] => s
  | b :: bytes => Fixup.emit { s with data := s.data.set s.write b, write := s.write + 1 } bytes

section Loops

variable (data : List Byte)

/-- The loop over the two digits of `\x` -/
def hexLoop : ℕ → ℕ → UInt32 → Option UInt32
  | 0, _, code => some code
  | n + 1, i, code =>
    if !isHexDigit (charAt data i) then none else hexLoop n (i + 1) (16 * code + hexDigit (charAt data i))

/-- `while (i < size && isSpace(data[i]))` -/
def spaceLoop : ℕ → ℕ → ℕ
  | 0, i => i
  | n + 1, i => if i < data.length && isSpace (charAt data i) then spaceLoop n (i + 1) else i

/-- The loop over the digits of `\u` -/
def unicodeLoop : ℕ → ℕ → UInt32 → Option (ℕ × UInt32)
  | 0, i, code => some (i, code)
  | n + 1, i, code =>
    if i = data.length then none
    else if charAt data i = '}'.toUInt8 then some (i, code)
    else if !isHexDigit (charAt data i) then none
    else unicodeLoop n (i + 1) (16 * code + hexDigit (charAt data i))

/-- The loop over the second and third digit of a decimal escape -/
def decimalLoop : ℕ → ℕ → ℕ → ℕ × ℕ
  | 0, i, code => (i, code)
  | n + 1, i, code =>
    if i = data.length || !isDigit (charAt data i) then (i, code)
    else decimalLoop n (i + 1) (10 * code + (charAt data i - '0'.toUInt8).toNat)

end Loops

/-- `case 'x'` -/
def Fixup.hex (s : Fixup) : Option Fixup :=
  if s.i + 2 > s.data.length then none
  else
    match hexLoop s.data 2 s.i 0 with
    | none => none
    | some code =>
      let s := s.emit [octet code]
      some { s with i := s.i + 2 }

/-- `case 'u'` -/
def Fixup.unicode (s : Fixup) : Option Fixup :=
  if s.i + 3 > s.data.length then none
  else if charAt s.data s.i ≠ '{'.toUInt8 then none
  else if charAt s.data (s.i + 1) = '}'.toUInt8 then none
  else
    match unicodeLoop s.data 16 (s.i + 1) 0 with
    | none => none
    | some (i, code) =>
      if i = s.data.length || charAt s.data i ≠ '}'.toUInt8 then none
      else
        let s := { s with i := i + 1 }
        if (toUtf8 code).length = 0 then none else some (s.emit (toUtf8 code))

/-- `default` -/
def Fixup.other (s : Fixup) (escape : Byte) : Option Fixup :=
  if isDigit escape then
    let (i, code) := decimalLoop s.data 2 s.i (escape - '0'.toUInt8).toNat
    let s := { s with i := i }
    if code > 255 then none else some (s.emit [UInt8.ofNat code])
  else some (s.emit [unescape escape])

/-- One turn of the loop; nothing when it returns false. -/
def Fixup.turn (s : Fixup) : Option Fixup :=
  if charAt s.data s.i ≠ '\\'.toUInt8 then
    let s := s.emit [charAt s.data s.i]
    some { s with i := s.i + 1 }
  else if s.i + 1 = s.data.length then none
  else
    let escape := charAt s.data (s.i + 1)
    let s := { s with i := s.i + 2 }
    if escape = '\n'.toUInt8 then some (s.emit ['\n'.toUInt8])
    else if escape = '\r'.toUInt8 then
      let s := s.emit ['\n'.toUInt8]
      if s.i < s.data.length && charAt s.data s.i = '\n'.toUInt8 then some { s with i := s.i + 1 } else some s
    else if escape = 0 then none
    else if escape = 'x'.toUInt8 then s.hex
    else if escape = 'z'.toUInt8 then some { s with i := spaceLoop s.data (s.data.length - s.i) s.i }
    else if escape = 'u'.toUInt8 then s.unicode
    else s.other escape

/-- The loop, with no more turns than there are bytes -/
def Fixup.loop : ℕ → Fixup → Option (List Byte)
  | n, s =>
    if s.i < s.data.length then
      match n with
      | 0 => none
      | n + 1 =>
        match s.turn with
        | none => none
        | some s => s.loop n
    else some (s.data.take s.write)

/-- The string afterwards, when the result is true -/
def fixupQuotedString (data : List Byte) : Option (List Byte) :=
  if data.isEmpty || !data.contains '\\'.toUInt8 then some data
  else Fixup.loop data.length ⟨data, 0, 0⟩

/-! ### What a string stands for -/

inductive Piece where
  | bytes (out : List Byte)
  | unicode (digits : List Byte)

def hexValue (digits : List Byte) : ℕ := digits.foldl (fun value ch => 16 * value + (hexDigit ch).toNat) 0

def decimalValue (digits : List Byte) : ℕ := digits.foldl (fun value ch => 10 * value + (ch - '0'.toUInt8).toNat) 0

/-- `\u{X}`, from the brace on: one or more digits -/
def unicodeEscape : List Byte → Option (Piece × List Byte)
  | [] => none
  | c :: rest =>
    if c = '{'.toUInt8 ∧ rest.takeWhile isHexDigit ≠ [] then
      match rest.dropWhile isHexDigit with
      | [] => none
      | d :: rest' => if d = '}'.toUInt8 then some (.unicode (rest.takeWhile isHexDigit), rest') else none
    else none

/-- `\xHH`, from the digits on -/
def hexEscape : List Byte → Option (Piece × List Byte)
  | c :: d :: rest =>
    if isHexDigit c && isHexDigit d then some (.bytes [UInt8.ofNat (hexValue [c, d])], rest) else none
  | _ => none

/-- One to three decimal digits -/
def decimalEscape (text : List Byte) : Option (Piece × List Byte) :=
  let digits := (text.take 3).takeWhile isDigit
  if decimalValue digits ≤ 255 then some (.bytes [UInt8.ofNat (decimalValue digits)], text.drop digits.length) else none

/-- An escape, from behind the backslash on -/
def escape : List Byte → Option (Piece × List Byte)
  | [] => none
  | c :: rest =>
    if c = '\n'.toUInt8 then some (.bytes ['\n'.toUInt8], rest)
    else if c = '\r'.toUInt8 then
      some (.bytes ['\n'.toUInt8], if rest.head? = some '\n'.toUInt8 then rest.tail else rest)
    else if c = 0 then none
    else if c = 'x'.toUInt8 then hexEscape rest
    else if c = 'z'.toUInt8 then some (.bytes [], rest.dropWhile isSpace)
    else if c = 'u'.toUInt8 then unicodeEscape rest
    else if isDigit c then decimalEscape (c :: rest)
    else some (.bytes [unescape c], rest)

def piece : List Byte → Option (Piece × List Byte)
  | [] => none
  | c :: rest => if c = '\\'.toUInt8 then escape rest else some (.bytes [c], rest)

/-- The pieces of a string, in which all escapes have the right form -/
inductive Pieces : List Byte → List Piece → Prop where
  | nil : Pieces [] []
  | cons {text rest : List Byte} {p : Piece} {ps : List Piece} (h : piece text = some (p, rest)) (hs : Pieces rest ps) :
      Pieces text (p :: ps)

/-- What a piece stands for, with a rule for code points -/
def Piece.decode (rule : ℕ → List Byte → Option ℕ) : Piece → Option (List Byte)
  | .bytes out => some out
  | .unicode digits => (rule (hexValue digits) digits).map fun code => (encode code).map UInt8.ofNat

@[simp] theorem Piece.decode_bytes (rule : ℕ → List Byte → Option ℕ) (out : List Byte) :
    (Piece.bytes out).decode rule = some out := rfl

@[simp] theorem Piece.decode_unicode (rule : ℕ → List Byte → Option ℕ) (digits : List Byte) :
    (Piece.unicode digits).decode rule =
      (rule (hexValue digits) digits).map fun code => (encode code).map UInt8.ofNat := rfl

/-- The rule of the language: the value of the digits is that of a code point. -/
def languageRule (value : ℕ) (_ : List Byte) : Option ℕ := if value < 0x110000 then some value else none

/-- The rule of the code: there are at most sixteen digits, and their value is taken modulo `2 ^ 32`. -/
def codeRule (value : ℕ) (digits : List Byte) : Option ℕ :=
  if digits.length ≤ 16 ∧ value % 2 ^ 32 < 0x110000 then some (value % 2 ^ 32) else none

/-- All escapes of the string are well formed, and it stands for `out`. -/
def Decodes (rule : ℕ → List Byte → Option ℕ) (data out : List Byte) : Prop :=
  ∃ ps outs, Pieces data ps ∧ ps.mapM (Piece.decode rule) = some outs ∧ out = outs.flatten

/-! ### Code points -/

section CodePoints

variable {code : UInt32} {n : ℕ}

theorem octet_eq (h : code.toNat = n) : octet code = UInt8.ofNat n := by
  rw [← h]
  rfl

theorem or_tail : ∀ x < 64, 0x80 ||| x = 0x80 + x := by decide

theorem or_two : ∀ x < 32, 0xC0 ||| x = 0xC0 + x := by decide

theorem or_three : ∀ x < 16, 0xE0 ||| x = 0xE0 + x := by decide

theorem or_four : ∀ x < 8, 0xF0 ||| x = 0xF0 + x := by decide

theorem toNat_low (code : UInt32) : (code &&& 0x3F).toNat = code.toNat % 64 := by
  rw [UInt32.toNat_and]
  exact Nat.and_two_pow_sub_one_eq_mod code.toNat 6

theorem toNat_shift (code : UInt32) {k : UInt32} (hk : k.toNat < 32) : (code >>> k).toNat = code.toNat / 2 ^ k.toNat := by
  rw [UInt32.toNat_shiftRight, Nat.mod_eq_of_lt hk, Nat.shiftRight_eq_div_pow]

theorem tail_eq (code : UInt32) : octet ((0x80 : UInt32) ||| (code &&& 0x3F)) = UInt8.ofNat (0x80 + code.toNat % 64) := by
  apply octet_eq
  rw [UInt32.toNat_or, toNat_low]
  exact or_tail _ (Nat.mod_lt _ (by omega))

theorem toUtf8_eq (h : code.toNat < 0x110000) : toUtf8 code = (encode code.toNat).map UInt8.ofNat := by
  have hlt : ∀ k : UInt32, code < k ↔ code.toNat < k.toNat := fun k => UInt32.lt_iff_toNat_lt
  have h6 : (code >>> 6).toNat = code.toNat / 64 := toNat_shift code (k := 6) (by decide)
  have h12 : (code >>> 12).toNat = code.toNat / 4096 := toNat_shift code (k := 12) (by decide)
  have h18 : (code >>> 18).toNat = code.toNat / 262144 := toNat_shift code (k := 18) (by decide)
  unfold toUtf8 encode
  simp only [hlt, tail_eq, h6, h12]
  have h7 : (0x80 : UInt32).toNat = 0x80 := rfl
  have h11 : (0x800 : UInt32).toNat = 0x800 := rfl
  have h16 : (0x10000 : UInt32).toNat = 0x10000 := rfl
  have h21 : (0x110000 : UInt32).toNat = 0x110000 := rfl
  rw [h7, h11, h16, h21]
  split_ifs with h1 h2 h3
  · rw [octet_eq rfl]
    rfl
  · have hfirst : ((0xC0 : UInt32) ||| (code >>> 6)).toNat = 0xC0 + code.toNat / 64 := by
      rw [UInt32.toNat_or, h6]
      exact or_two _ (by omega)
    rw [octet_eq hfirst]
    rfl
  · have hfirst : ((0xE0 : UInt32) ||| (code >>> 12)).toNat = 0xE0 + code.toNat / 4096 := by
      rw [UInt32.toNat_or, h12]
      exact or_three _ (by omega)
    rw [octet_eq hfirst]
    rfl
  · have hfirst : ((0xF0 : UInt32) ||| (code >>> 18)).toNat = 0xF0 + code.toNat / 262144 := by
      rw [UInt32.toNat_or, h18]
      exact or_four _ (by omega)
    rw [octet_eq hfirst]
    rfl

theorem toUtf8_nil (h : ¬ code.toNat < 0x110000) : toUtf8 code = [] := by
  have hge : ∀ k : UInt32, k.toNat ≤ 0x110000 → ¬ code < k := by
    intro k hk hlt
    have := UInt32.lt_iff_toNat_lt.mp hlt
    omega
  unfold toUtf8
  rw [if_neg (hge _ (by decide)), if_neg (hge _ (by decide)), if_neg (hge _ (by decide)), if_neg (hge _ (by decide))]

theorem encode_length_pos (n : ℕ) : 0 < (encode n).length ∧ (encode n).length ≤ 4 := by
  unfold encode
  split_ifs <;> simp

end CodePoints

end Luwu.Escapes
