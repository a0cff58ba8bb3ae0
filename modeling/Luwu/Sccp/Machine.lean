import Luwu.Lib.FloatInt
import Luwu.VM.Strings

/-!
# Arithmetic instructions of the virtual machine

Numbers are of double precision. Vectors have `d` components of a format `V`, as the machine is built. What a metamethod
does, what a string reads as, and the functions of the mathematical library are those of a given machine.
-/

namespace Luwu.Sccp

open Floating

abbrev Text := List Char

abbrev Number := Datum Format.double

inductive Value (V : Format) (d : ℕ) where
  | nil
  | boolean (b : Bool)
  | number (n : Number)
  | integer (i : BitVec 64)
  | vector (v : Fin d → Datum V)
  | string (s : Text)
  | userdata (id : ℕ)
  -- tables, functions, threads and the like
  | object (id : ℕ)

inductive TMS where
  | add
  | sub
  | mul
  | div
  | idiv
  | mod
  | pow
  | unm
  deriving DecidableEq, Repr

/-- What an instruction leaves: a value in its target register, or an error. -/
inductive Outcome (V : Format) (d : ℕ) where
  | value (v : Value V d)
  | error (message : Text)

structure Machine (V : Format) (d : ℕ) where
  pow : Number → Number → Number
  sqrt : Number → Number
  /-- `luaO_str2d` -/
  str2d : Text → Option Number
  /-- `luaT_objtypename` -/
  objtypename : Value V d → Text
  /-- `luaT_gettmbyobj` -/
  gettmbyobj : Value V d → TMS → Option (Value V d)
  /-- The metamethod is a function of C. -/
  isC : Value V d → Bool
  /-- `callTMres` -/
  callTM : Value V d → Value V d → Value V d → Outcome V d
  /-- `luaV_callTM` with one argument -/
  callUnaryTM : Value V d → Value V d → Outcome V d

/-- `luaT_eventname`, without the underscores -/
def TMS.eventname : TMS → Text
  | add => "add".toList
  | sub => "sub".toList
  | mul => "mul".toList
  | div => "div".toList
  | idiv => "idiv".toList
  | mod => "mod".toList
  | pow => "pow".toList
  | unm => "unm".toList

/-- `luai_numidiv` -/
def numidiv {F : Format} (a b : Datum F) : Datum F := Datum.floor (Datum.div a b)

/-- `luai_nummod` -/
def nummod (a b : Number) : Number := Datum.sub a (Datum.mul (Datum.floor (Datum.div a b)) b)

namespace Machine

variable {V : Format} {d : ℕ} (m : Machine V d)

def numArith (op : TMS) (b c : Number) : Number :=
  match op with
  | .add => Datum.add b c
  | .sub => Datum.sub b c
  | .mul => Datum.mul b c
  | .div => Datum.div b c
  | .idiv => numidiv b c
  | .mod => nummod b c
  | .pow => m.pow b c
  | .unm => Datum.neg b

/-- The operation on components that vectors have with vectors -/
def vecArith (op : TMS) : Option (Datum V → Datum V → Datum V) :=
  match op with
  | .add => some Datum.add
  | .sub => some Datum.sub
  | .mul => some Datum.mul
  | .div => some Datum.div
  | .idiv => some numidiv
  | .unm => some fun b _ => Datum.neg b
  | _ => none

/-- The operation on components that vectors have with numbers -/
def scaleArith (op : TMS) : Option (Datum V → Datum V → Datum V) :=
  match op with
  | .mul => some Datum.mul
  | .div => some Datum.div
  | .idiv => some numidiv
  | _ => none

/-- `luaV_tonumber` -/
def tonumber : Value V d → Option Number
  | .number n => some n
  | .string s => m.str2d s
  | _ => none

/-- `call_binTM` -/
def callBinTM (op : TMS) (p1 p2 : Value V d) : Option (Outcome V d) :=
  match m.gettmbyobj p1 op with
  | some tm => some (m.callTM tm p1 p2)
  | none => (m.gettmbyobj p2 op).map fun tm => m.callTM tm p1 p2

/-- `luaG_aritherror` -/
def arithError (op : TMS) (p1 p2 : Value V d) : Text :=
  if m.objtypename p1 = m.objtypename p2 then
    "attempt to perform arithmetic (".toList ++ op.eventname ++ ") on ".toList ++ m.objtypename p1
  else
    "attempt to perform arithmetic (".toList ++ op.eventname ++ ") on ".toList ++ m.objtypename p1 ++ " and ".toList ++
      m.objtypename p2

/-- The operations on vectors of `luaV_doarithimpl` -/
def vectorArith (op : TMS) (rb rc : Value V d) : Option (Fin d → Datum V) :=
  match rb, rc with
  | .vector vb, .vector vc => (vecArith op).map fun f i => f (vb i) (vc i)
  | .vector vb, rc => (m.tonumber rc).bind fun c => (scaleArith op).map fun f i => f (vb i) c.convert
  | rb, .vector vc => (m.tonumber rb).bind fun b => (scaleArith op).map fun f i => f b.convert (vc i)
  | _, _ => none

/-- The end of `luaV_doarithimpl`, for operands that are no numbers -/
def fallback (op : TMS) (rb rc : Value V d) : Outcome V d :=
  match m.callBinTM op rb rc with
  | some outcome => outcome
  | none => .error (m.arithError op rb rc)

/-- `luaV_doarithimpl` -/
def doarith (op : TMS) (rb rc : Value V d) : Outcome V d :=
  match m.vectorArith op rb rc with
  | some v => .value (.vector v)
  | none =>
    match m.tonumber rb, m.tonumber rc with
    | some b, some c => .value (.number (m.numArith op b c))
    | _, _ => m.fallback op rb rc

/-- The metamethod that the instructions call themselves: of a userdata, and a function of C -/
def fastTM (op : TMS) (x : Value V d) : Option (Value V d) :=
  match x with
  | .userdata _ => (m.gettmbyobj x op).filter m.isC
  | _ => none

/-- `LOP_ADD` and `LOP_SUB` -/
def addSub (op : TMS) (rb rc : Value V d) : Outcome V d :=
  match rb, rc with
  | .number b, .number c => .value (.number (m.numArith op b c))
  | .vector _, .vector _ => m.doarith op rb rc
  | _, _ =>
    match m.fastTM op rb with
    | some fn => m.callTM fn rb rc
    | none => m.doarith op rb rc

/-- `LOP_MUL`, `LOP_DIV` and `LOP_IDIV` -/
def mulDiv (op : TMS) (rb rc : Value V d) : Outcome V d :=
  match rb, rc with
  | .number b, .number c => .value (.number (m.numArith op b c))
  | .number _, rc =>
    match m.fastTM op rc with
    | some fn => m.callTM fn rb rc
    | none => m.doarith op rb rc
  | rb, rc =>
    match m.fastTM op rb with
    | some fn => m.callTM fn rb rc
    | none => m.doarith op rb rc

/-- `LOP_MOD` and `LOP_POW`; also the end of the forms with a constant that have no other -/
def numOnly (op : TMS) (rb rc : Value V d) : Outcome V d :=
  match rb, rc with
  | .number b, .number c => .value (.number (m.numArith op b c))
  | _, _ => m.doarith op rb rc

/-- `LOP_MINUS` -/
def minus (rb : Value V d) : Outcome V d :=
  match rb with
  | .number b => .value (.number (Datum.neg b))
  | .vector vb => .value (.vector fun i => Datum.neg (vb i))
  | rb =>
    match m.fastTM .unm rb with
    | some fn => m.callUnaryTM fn rb
    | none => m.doarith .unm rb rb

end Machine

end Luwu.Sccp

/-!
## Conditional jumps of the virtual machine

What a conditional jump does on the values of its operands: it goes on to one of its two successors, or calls a
metamethod first, or raises an error.  Which objects have metamethods is given.
-/

namespace Luwu.Sccp

open Floating

namespace Floats

variable {F : Format}

/-- The comparison `<` -/
def less : Datum F → Datum F → Bool
  | .num s m, .num s' m' => (Datum.num s m).value < (Datum.num s' m').value
  | _, _ => false

/-- The comparison `<=` -/
def lessEqual : Datum F → Datum F → Bool
  | .num s m, .num s' m' => (Datum.num s m).value ≤ (Datum.num s' m').value
  | _, _ => false

end Floats

namespace Jumps

/-- The kinds of objects that are compared by their address -/
inductive Tag where
  | table
  | function
  | userdata
  | thread
  | buffer
  | luaclass
  | luaobject
  deriving DecidableEq

/-- The values of the machine, with the tags of objects -/
inductive Value (V : Format) (d : ℕ) where
  | nil
  | boolean (b : Bool)
  | lightuserdata (p : BitVec 64) (tag : BitVec 32)
  | number (n : Number)
  | integer (i : BitVec 64)
  | vector (v : Fin d → Datum V)
  | symnone
  | string (s : List UInt8)
  | object (tag : Tag) (id : ℕ)

inductive Order where
  | lt
  | le
  deriving DecidableEq

/-- Which operands have a metamethod -/
structure Metamethods (V : Format) (d : ℕ) where
  /-- `get_compTM`, and the metamethod of class instances -/
  compTM : Tag → ℕ → ℕ → Bool
  /-- `call_orderTM` finds a function. -/
  orderTM : Order → Value V d → Value V d → Bool

/-- What a comparison comes to -/
inductive Test where
  | answers (b : Bool)
  | calls
  | raises
  deriving DecidableEq

def Test.negate : Test → Test
  | answers b => answers (!b)
  | t => t

variable {V : Format} {d : ℕ}

def Value.ttype : Value V d → ℕ
  | nil => 0
  | boolean _ => 1
  | lightuserdata _ _ => 2
  | number _ => 3
  | integer _ => 4
  | vector _ => 5
  | symnone => 6
  | string _ => 7
  | object tag _ => 8 + tag.ctorIdx

/-- `l_isfalse` -/
def l_isfalse : Value V d → Bool
  | .nil => true
  | .boolean b => !b
  | .symnone => true
  | _ => false

/-- Objects that may have an `__eq` metamethod -/
def Tag.comparable : Tag → Bool
  | table => true
  | userdata => true
  | luaobject => true
  | _ => false

def luai_veceq (a b : Fin d → Datum V) : Bool := decide (∀ i, Datum.equal (a i) (b i) = true)

section

variable (m : Metamethods V d)

/-- The test of `LOP_JUMPIFEQ`; values of different types are not equal. -/
def equalTest (ra rb : Value V d) : Test :=
  match ra, rb with
  | .nil, .nil => .answers true
  | .symnone, .symnone => .answers true
  | .boolean a, .boolean b => .answers (a == b)
  | .lightuserdata p a, .lightuserdata q b => .answers (p == q && a == b)
  | .number a, .number b => .answers (Datum.equal a b)
  | .integer a, .integer b => .answers (a == b)
  | .vector a, .vector b => .answers (luai_veceq a b)
  | .string a, .string b => .answers (a == b)
  | .object tag a, .object tag' b =>
    if tag = tag' then if tag.comparable && m.compTM tag a b then .calls else .answers (a == b)
    else .answers false
  | _, _ => .answers false

/-- `luaV_lessequal` also tries the metamethod of `<`. -/
def orderFallback (op : Order) (ra rb : Value V d) : Test :=
  if ra.ttype ≠ rb.ttype then .raises
  else if m.orderTM op ra rb then .calls
  else if op = .le ∧ m.orderTM .lt rb ra then .calls
  else .raises

/-- The tests of `LOP_JUMPIFLT` and `LOP_JUMPIFLE` -/
def orderTest (op : Order) (ra rb : Value V d) : Test :=
  match ra, rb with
  | .number a, .number b =>
    match op with
    | .lt => .answers (Floats.less a b)
    | .le => .answers (Floats.lessEqual a b)
  | .string a, .string b =>
    match op with
    | .lt => .answers (luaV_strcmp a b < 0)
    | .le => .answers (luaV_strcmp a b ≤ 0)
  | ra, rb => orderFallback m op ra rb

end

end Jumps

end Luwu.Sccp
