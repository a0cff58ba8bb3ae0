import Luwu.Lib.Checked
import Luwu.Table.Core

/-!
# Bit fields and shifts of the libraries

`bit32` and `integer` as the library functions compute them, and the functions that the fast calls use.
An operation that C leaves undefined (a signed sum or negative that overflows, a shift by the width or
more) stops the run with its fault.
-/

namespace Luwu

open Checked

inductive ArgTag
  | number
  | integer
deriving DecidableEq

/-- What ends a library function other than its result -/
inductive ArgStop
  | tag_error (narg : ℕ) (tag : ArgTag)
  | argerror (narg : ℕ) (extramsg : String)
  | error (msg : String)
  | undefined (f : Fault)
deriving DecidableEq

instance : MonadLift (Except Fault) (Except ArgStop) := ⟨Except.mapError .undefined⟩

/-- The argument `narg`; one that is missing reads as nil. -/
def stackArg (args : List TValue) (narg : ℕ) : TValue := args.getD (narg - 1) .nil

/-- `luai_num2unsigned`: by way of `long long`, where x86 answers the least number out of range -/
def luai_num2unsigned (n : Double) : BitVec 32 :=
  if n.isNaN then 0
  else if -2 ^ 63 ≤ n.trunc ∧ n.trunc < 2 ^ 63 then BitVec.ofInt 32 n.trunc else 0

def luaL_checkunsigned (args : List TValue) (narg : ℕ) : Except ArgStop (BitVec 32) :=
  match stackArg args narg with
  | .number n => .ok (luai_num2unsigned n)
  | _ => .error (.tag_error narg .number)

def luaL_checkinteger (args : List TValue) (narg : ℕ) : Except ArgStop ℤ :=
  match stackArg args narg with
  | .number n => .ok (luai_num2int n)
  | _ => .error (.tag_error narg .number)

def luaL_optinteger (args : List TValue) (narg : ℕ) (dflt : ℤ) : Except ArgStop ℤ :=
  if (stackArg args narg).isNil then .ok dflt else luaL_checkinteger args narg

def luaL_checkinteger64 (args : List TValue) (narg : ℕ) : Except ArgStop (BitVec 64) :=
  match stackArg args narg with
  | .integer l => .ok l
  | _ => .error (.tag_error narg .integer)

def luaL_optinteger64 (args : List TValue) (narg : ℕ) (dflt : BitVec 64) : Except ArgStop (BitVec 64) :=
  if (stackArg args narg).isNil then .ok dflt else luaL_checkinteger64 args narg

/-! ### `bit32` -/

def NBITS : ℤ := 32

def ALLONES : BitVec 32 := BitVec.allOnes 32

def trim (x : BitVec 32) : BitVec 32 := x &&& ALLONES

/-- A number with `n` ones -/
def mask (n : ℤ) : Except Fault (BitVec 32) := do
  return ~~~(← shl (← shl ALLONES 1) (← sub 32 n 1))

def b_shift (r : BitVec 32) (i : ℤ) : Except ArgStop (BitVec 32) := do
  if i < 0 then
    let i ← neg 32 i
    let r := trim r
    if NBITS ≤ i then return 0 else return ← shr r i
  else
    if NBITS ≤ i then return trim 0 else return trim (← shl r i)

def b_lshift (args : List TValue) : Except ArgStop (BitVec 32) := do
  b_shift (← luaL_checkunsigned args 1) (← luaL_checkinteger args 2)

def b_rshift (args : List TValue) : Except ArgStop (BitVec 32) := do
  b_shift (← luaL_checkunsigned args 1) (← neg 32 (← luaL_checkinteger args 2))

def b_arshift (args : List TValue) : Except ArgStop (BitVec 32) := do
  let r ← luaL_checkunsigned args 1
  let i ← luaL_checkinteger args 2
  if i < 0 ∨ r &&& (← shl 1 (NBITS - 1)) = 0 then
    b_shift r (← neg 32 i)
  else if NBITS ≤ i then return ALLONES
  else return trim ((← shr r i) ||| ~~~(← shr (~~~0) i))

def fieldargs (args : List TValue) (farg : ℕ) : Except ArgStop (ℤ × ℤ) := do
  let f ← luaL_checkinteger args farg
  let w ← luaL_optinteger args (farg + 1) 1
  if ¬0 ≤ f then throw (.argerror farg "field cannot be negative")
  if ¬0 < w then throw (.argerror (farg + 1) "width must be positive")
  if NBITS < (← add 32 f w) then throw (.error "trying to access non-existent bits")
  return (f, w)

def b_extract (args : List TValue) : Except ArgStop (BitVec 32) := do
  let r ← luaL_checkunsigned args 1
  let (f, w) ← fieldargs args 2
  return (← shr r f) &&& (← mask w)

def b_replace (args : List TValue) : Except ArgStop (BitVec 32) := do
  let r ← luaL_checkunsigned args 1
  let v ← luaL_checkunsigned args 2
  let (f, w) ← fieldargs args 3
  let m ← mask w
  let v := v &&& m
  return (r &&& ~~~(← shl m f)) ||| (← shl v f)

/-! ### `integer` -/

def mask64 (w : ℤ) : Except Fault (BitVec 64) := do
  shr (BitVec.allOnes 64) (← sub 64 64 w)

def int64_extract (args : List TValue) : Except ArgStop (BitVec 64) := do
  let n ← luaL_checkinteger64 args 1
  let f := (← luaL_checkinteger64 args 2).toInt
  let w := (← luaL_optinteger64 args 3 1).toInt
  if ¬(0 ≤ f ∧ f ≤ 63) then throw (.argerror 2 "field cannot be negative")
  if ¬0 < w then throw (.argerror 3 "width must be positive")
  if 64 < (← add 64 f w) then throw (.error "trying to access non-existent bits")
  return (← shr n f) &&& (← mask64 w)

def int64_replace (args : List TValue) : Except ArgStop (BitVec 64) := do
  let n ← luaL_checkinteger64 args 1
  let r ← luaL_checkinteger64 args 2
  let f := (← luaL_checkinteger64 args 3).toInt
  let w := (← luaL_optinteger64 args 4 1).toInt
  if ¬(0 ≤ f ∧ f ≤ 63) then throw (.argerror 3 "field cannot be negative")
  if ¬0 < w then throw (.argerror 4 "width must be positive")
  if 64 < (← add 64 f w) then throw (.error "trying to access non-existent bits")
  let baseMask ← shr (BitVec.allOnes 64) (← sub 64 64 w)
  let replacement ← shl (r &&& baseMask) f
  let mask := BitVec.allOnes 64 ^^^ (← shl baseMask f)
  return (n &&& mask) ||| replacement

/-! ### Fast calls

Nothing is returned where the fast call leaves the work to the library function. -/

/-- A shift by an amount below the width -/
def luauFShift (shift : BitVec 32 → ℤ → Except Fault (BitVec 32)) (nresults : ℤ) :
    List TValue → Except Fault (Option (BitVec 32))
  | .number a1 :: .number a2 :: _ => do
    let u := luai_num2unsigned a1
    let s := luai_num2int a2
    if nresults ≤ 1 ∧ cast_unsigned s < 32 then return some (← shift u s) else return none
  | _ => return none

def luauF_lshift : ℤ → List TValue → Except Fault (Option (BitVec 32)) := luauFShift shl

def luauF_rshift : ℤ → List TValue → Except Fault (Option (BitVec 32)) := luauFShift shr

def luauF_arshift : ℤ → List TValue → Except Fault (Option (BitVec 32)) := luauFShift sar

/-- `f >= 0 && w > 0 && f + w <= 32` -/
def fieldInRange (f w : ℤ) : Except Fault Bool :=
  if 0 ≤ f ∧ 0 < w then return decide ((← add 32 f w) ≤ 32) else return false

def luauF_extract (nresults : ℤ) : List TValue → Except Fault (Option (BitVec 32))
  | .number a1 :: .number a2 :: rest => do
    if 1 < nresults then return none
    let n := luai_num2unsigned a1
    let f := luai_num2int a2
    match rest with
    | [] => if cast_unsigned f < 32 then return some ((← shr n f) &&& 1) else return none
    | .number a3 :: _ =>
      let w := luai_num2int a3
      if ← fieldInRange f w then
        let m := ~~~(← shl 0xfffffffe#32 (← sub 32 w 1))
        return some ((← shr n f) &&& m)
      else return none
    | _ => return none
  | _ => return none

def luauF_replace (nresults : ℤ) : List TValue → Except Fault (Option (BitVec 32))
  | .number a1 :: .number a2 :: .number a3 :: rest => do
    if 1 < nresults then return none
    let n := luai_num2unsigned a1
    let v := luai_num2unsigned a2
    let f := luai_num2int a3
    match rest with
    | [] =>
      if cast_unsigned f < 32 then
        let m := 1#32
        return some ((n &&& ~~~(← shl m f)) ||| (← shl (v &&& m) f))
      else return none
    | .number a4 :: _ =>
      let w := luai_num2int a4
      if ← fieldInRange f w then
        let m := ~~~(← shl 0xfffffffe#32 (← sub 32 w 1))
        return some ((n &&& ~~~(← shl m f)) ||| (← shl (v &&& m) f))
      else return none
    | _ => return none
  | _ => return none

/-- The constant that the compiler makes of a constant field and width; nothing where it does not use
`LBF_BIT32_EXTRACTK`. -/
def extractConstant (fc wc : Option Double) : Except Fault (Option ℤ) := do
  let fi := fc.elim (-1) luai_num2int
  let wi := wc.elim (-1) luai_num2int
  if ← fieldInRange fi wi then return some (fi.toNat ||| (wi - 1).toNat <<< 5 : ℕ) else return none

def luauF_extractk (nresults : ℤ) : List TValue → Except Fault (Option (BitVec 32))
  | .number a1 :: .number a2 :: _ => do
    if 1 < nresults then return none
    let n := luai_num2unsigned a1
    let fw := luai_num2int a2
    -- `fw & 31` and `fw >> 5`
    let f := fw % 32
    let w1 := fw / 32
    let m := ~~~(← shl 0xfffffffe#32 w1)
    return some ((← shr n f) &&& m)
  | _ => return none

def luauF_integerextract (nresults : ℤ) (params : List TValue) : Except Fault (Option (BitVec 64)) :=
  match params with
  | .integer n :: .integer f :: rest => do
    let w ← match rest with
      | [] => pure (some 1)
      | .integer w :: _ => pure (some w.toInt)
      | _ => pure none
    match w with
    | none => return none
    | some w =>
      if 1 < nresults then return none
      let f := f.toInt
      if f < 0 ∨ 63 < f ∨ w < 1 ∨ 64 < w then return none
      if 64 < (← add 64 f w) then return none
      return some ((← shr n f) &&& (← shr (BitVec.allOnes 64) (← sub 64 64 w)))
  | _ => return none

end Luwu
