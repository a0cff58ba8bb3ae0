import Luwu.Lib.Checked
import Luwu.Lib.Utf8

/-!
# The UTF-8 library

Strings are bytes with a terminator behind them; a read behind the terminator and a write outside the buffer stop the run, and
so does a shift by the width or more.  The numbers among the arguments are ints, an optional one that is missing is `none`.
-/

namespace Luwu.Utf8Lib

open Checked (Fault)

abbrev Byte := BitVec 8

inductive Stop
  | error (msg : String)
  | argerror (arg : ℕ) (extramsg : String)
  | undefined (f : Fault)
  /-- a place outside a string or a buffer -/
  | outside
deriving DecidableEq

abbrev LibM := Except Stop

def checked {α : Type} : Except Fault α → LibM α := Except.mapError .undefined

def argcheck (cond : Prop) [Decidable cond] (arg : ℕ) (extramsg : String) : LibM Unit :=
  if cond then .ok ⟨⟩ else .error (.argerror arg extramsg)

theorem argcheck_ok {cond : Prop} [Decidable cond] (h : cond) (arg : ℕ) (extramsg : String) :
    argcheck cond arg extramsg = .ok ⟨⟩ := if_pos h

def MAXUNICODE : BitVec 32 := 0x10FFFF

def INT_MAX : ℤ := 2147483647

/-- The slots of the stack that a C function can use -/
def LUAI_MAXCSTACK : ℤ := 8000

/-- The byte at a position -/
def byteAt (s : List Byte) (i : ℕ) : LibM Byte := if i ≤ s.length then .ok (s.getD i 0) else .error .outside

def iscont (s : List Byte) (i : ℕ) : LibM Bool := return (← byteAt s i) &&& 0xC0#8 = 0x80#8

def u_posrelat (pos : ℤ) (len : ℕ) : ℤ := if 0 ≤ pos then pos else if (len : ℤ) < -pos then 0 else len + pos + 1

/-! ### Decoding -/

def limits : List (BitVec 32) := [0xFF, 0x7F, 0x7FF, 0xFFFF]

/-- The loop of `utf8_decode` over the continuation bytes; `none` is an invalid sequence. -/
def contLoop (s : List Byte) (o : ℕ) : ℕ → BitVec 32 → BitVec 32 → ℕ → LibM (Option (BitVec 32 × BitVec 32 × ℕ))
  | 0, _, _, _ => .error .outside
  | fuel + 1, c, res, count =>
    if c &&& 0x40#32 ≠ 0 then do -- still have continuation bytes?
      let cc ← byteAt s (o + (count + 1)) -- read next byte
      if cc &&& 0xC0#8 ≠ 0x80#8 then return none -- not a continuation byte?
      -- add lower 6 bits from cont. byte, and test next bit
      contLoop s o fuel (c <<< 1) (res <<< 6 ||| (cc &&& 0x3F#8).setWidth 32) (count + 1)
    else return some (c, res, count)

/-- The position behind the sequence at `o` and its value, or `none` for an invalid sequence -/
def utf8_decode (s : List Byte) (o : ℕ) : LibM (Option (ℕ × BitVec 32)) := do
  let c := (← byteAt s o).setWidth 32
  if c < 0x80#32 then return some (o + 1, c) -- ascii?
  -- a byte has seven bits to count continuation bytes with
  match ← contLoop s o 8 c 0 0 with
  | none => return none
  | some (c, res, count) =>
    let res := res ||| (← checked (Checked.shl (c &&& 0x7F#32) (count * 5))) -- add first byte
    if 3 < count ∨ MAXUNICODE < res ∨ res ≤ limits.getD count 0 then return none -- invalid byte sequence
    if res - 0xD800#32 < 0x800#32 then return none -- surrogate
    return some (o + count + 1, res)

/-- The loop of `utflen`; where a sequence is invalid, the position. -/
def lenLoop (s : List Byte) (posj : ℤ) : ℕ → ℕ → ℤ → LibM (ℤ ⊕ ℤ)
  | 0, _, _ => .error .outside
  | fuel + 1, posi, n => do
    if (posi : ℤ) ≤ posj then
      match ← utf8_decode s posi with
      | none => return .inr (posi + 1)
      | some (s1, _) => lenLoop s posj fuel s1 (n + 1)
    else return .inl n

/-- The number of characters, or nil and the position of the byte that is invalid -/
def utflen (s : List Byte) (arg2 arg3 : Option ℤ) : LibM (ℤ ⊕ ℤ) := do
  let posi := u_posrelat (arg2.getD 1) s.length
  let posj := u_posrelat (arg3.getD (-1)) s.length
  argcheck (1 ≤ posi ∧ posi - 1 ≤ s.length) 2 "initial position out of string"
  argcheck (posj - 1 < s.length) 3 "final position out of string"
  -- a sequence has a byte at least
  lenLoop s (posj - 1) (s.length + 1) (posi - 1).toNat 0

def codepointLoop (s : List Byte) (se : ℤ) : ℕ → ℕ → LibM (List (BitVec 32))
  | 0, _ => .error .outside
  | fuel + 1, o => do
    if (o : ℤ) < se then
      match ← utf8_decode s o with
      | none => .error (.error "invalid UTF-8 code")
      | some (o', code) => return code :: (← codepointLoop s se fuel o')
    else return []

/-- `top` slots of the stack are in use: the arguments. -/
def luaL_checkstack (top space : ℤ) (mes : String) : LibM Unit :=
  if LUAI_MAXCSTACK < space ∨ LUAI_MAXCSTACK < top + space then .error (.error ("stack overflow (" ++ mes ++ ")"))
  else .ok ⟨⟩

def codepoint (s : List Byte) (arg2 arg3 : Option ℤ) (top : ℤ) : LibM (List (BitVec 32)) := do
  let posi := u_posrelat (arg2.getD 1) s.length
  let pose := u_posrelat (arg3.getD posi) s.length
  argcheck (1 ≤ posi) 2 "out of range"
  argcheck (pose ≤ s.length) 3 "out of range"
  if pose < posi then return [] -- empty interval; return no values
  if INT_MAX ≤ pose - posi then .error (.error "string slice too long")
  luaL_checkstack top (pose - posi + 1) "string slice too long"
  codepointLoop s pose (s.length + 1) (posi - 1).toNat

/-! ### Encoding -/

/-- The loop of `luaO_utf8esc`, with the places of the buffer that are left and what was put behind them -/
def escLoop : ℕ → ℕ → BitVec 32 → List Byte → LibM (List Byte)
  | 0, _, _, _ => .error .outside
  | room + 1, x, mfb, buff =>
    let buff := BitVec.ofNat 8 (0x80 ||| (x &&& 0x3f)) :: buff
    let x := x >>> 6 -- remove added bits
    let mfb := mfb >>> 1 -- now there is one less bit available in first byte
    if mfb.toNat < x then escLoop room x mfb buff -- still needs continuation byte?
    else if room = 0 then .error .outside
    else .ok (BitVec.ofNat 8 ((~~~mfb <<< 1).toNat ||| x) :: buff) -- add first byte

/-- The bytes that are put at the end of a buffer of `UTF8BUFFSZ` -/
def luaO_utf8esc (x : ℕ) : LibM (List Byte) := if x < 0x80 then .ok [BitVec.ofNat 8 x] else escLoop 8 x 0x3f []

/-- The arguments from number `arg` on -/
def utfcharLoop : ℕ → List ℤ → LibM (List Byte)
  | _, [] => .ok []
  | arg, code :: codes => do
    argcheck (0 ≤ code ∧ code ≤ MAXUNICODE.toNat) arg "value out of range"
    let charstr ← luaO_utf8esc code.toNat
    return charstr ++ (← utfcharLoop (arg + 1) codes)

def utfchar (codes : List ℤ) : LibM (List Byte) := utfcharLoop 1 codes

/-! ### Positions -/

/-- `do posi--; while (posi > 0 && iscont(s + posi))`, from a position that is not the first -/
def previous (s : List Byte) : ℕ → LibM ℕ
  | 0 => .error .outside
  | posi + 1 => do
    if 0 < posi then
      if ← iscont s posi then previous s posi else return posi
    else return posi

/-- `do posi++; while (iscont(s + posi))` -/
def next (s : List Byte) : ℕ → ℕ → LibM ℕ
  | 0, _ => .error .outside
  | fuel + 1, posi => do
    if ← iscont s (posi + 1) then next s fuel (posi + 1) else return posi + 1

/-- The beginning of the byte sequence at a position -/
def beginning (s : List Byte) : ℕ → LibM ℕ
  | 0 => return 0
  | posi + 1 => do
    if ← iscont s (posi + 1) then beginning s posi else return posi + 1

/-- The loop that moves back; the answer is the position and how many characters are missing. -/
def moveBack (s : List Byte) : ℕ → ℕ → LibM (ℕ × ℕ)
  | posi, 0 => return (posi, 0)
  | posi, n + 1 => do
    if 0 < posi then moveBack s (← previous s posi) n else return (posi, n + 1)

/-- The loop that moves on -/
def moveOn (s : List Byte) : ℕ → ℕ → LibM (ℕ × ℕ)
  | posi, 0 => return (posi, 0)
  | posi, n + 1 => do
    if posi < s.length then moveOn s (← next s (s.length + 1) posi) n else return (posi, n + 1)

/-- The position of a character, or nil -/
def byteoffset (s : List Byte) (n : ℤ) (arg3 : Option ℤ) : LibM (Option ℤ) := do
  let posi := u_posrelat (arg3.getD (if 0 ≤ n then 1 else s.length + 1)) s.length
  argcheck (1 ≤ posi ∧ posi - 1 ≤ s.length) 3 "position out of range"
  let posi := (posi - 1).toNat
  let (posi, n) ←
    if n = 0 then pure (← beginning s posi, 0)
    else do
      if ← iscont s posi then .error (.error "initial position is a continuation byte")
      if n < 0 then moveBack s posi (-n).toNat
      else moveOn s posi (n - 1).toNat -- do not move for 1st character
  return if n = 0 then some (posi + 1) else none

end Luwu.Utf8Lib
