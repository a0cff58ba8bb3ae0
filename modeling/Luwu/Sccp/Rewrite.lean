import Luwu.Sccp.Machine

/-!
# Arithmetic instructions of a function graph

Instructions whose operands are known are folded, and those of which one operand is known take a form with a constant
or none at all.
-/

namespace Luwu.Sccp

open Floating

inductive LuauOpcode where
  | move
  | loadk
  | loadkx
  | loadn
  | loadb
  | loadnil
  | getupval
  | add
  | sub
  | mul
  | div
  | idiv
  | mod
  | pow
  | addk
  | subk
  | mulk
  | divk
  | modk
  | powk
  | subrk
  | divrk
  | minus
  | not
  | length
  | other (code : ℕ)
  deriving DecidableEq, Repr

inductive BcOp where
  | none
  | imm (index : ℕ)
  | inst (index : ℕ)
  | block (index : ℕ)
  | phi (index : ℕ)
  | proj (index : ℕ)
  | vmReg (index : ℕ)
  | vmConst (index : ℕ)
  | vmUpvalue (index : ℕ)
  deriving DecidableEq, Repr

inductive BcImm where
  | boolean (b : Bool)
  | int (i : BitVec 32)
  deriving DecidableEq, Repr

inductive BcVmConst where
  | nil
  | boolean (b : Bool)
  | number (n : Number)
  | integer (i : BitVec 64)
  | string (s : Text)
  -- the kinds that no arithmetic reads
  | other (id : ℕ)
  deriving DecidableEq

/-- `operator==`, which compares numbers as numbers -/
def BcVmConst.equal : BcVmConst → BcVmConst → Bool
  | .number a, .number b => Datum.equal a b
  | a, b => a = b

structure BcInst where
  op : LuauOpcode
  ops : List BcOp
  uses : List BcOp
  block : ℕ
  deriving DecidableEq, Repr

structure BcFunction where
  instructions : List BcInst
  /-- The uses of every phi -/
  phis : List (List BcOp)
  immediates : List BcImm
  constants : List BcVmConst
  /-- The instructions of every block -/
  blocks : List (List BcOp)

inductive ConstnessLattice where
  | undetermined
  | notAConstant
  | vmConstant (op : BcOp)
  | immConstant (imm : BcImm)
  deriving DecidableEq, Repr

/-- `std::bad_optional_access` -/
inductive BadOptionalAccess where
  | mk
  deriving DecidableEq, Repr

/-- `vmConst.value()` -/
def ConstnessLattice.vmConst : ConstnessLattice → Except BadOptionalAccess BcOp
  | .vmConstant op => .ok op
  | _ => .error .mk

namespace BcFunction

variable (func : BcFunction)

def inst (i : ℕ) : BcInst := func.instructions.getD i ⟨.other 0, [], [], 0⟩

def modifyInst (i : ℕ) (f : BcInst → BcInst) : BcFunction :=
  { func with instructions := func.instructions.modify i f }

def constOp : BcOp → BcVmConst
  | .vmConst k => func.constants.getD k .nil
  | _ => .nil

def immOp : BcOp → BcImm
  | .imm k => func.immediates.getD k (.boolean false)
  | _ => .boolean false

/-- `addImm` appends the immediate, which this names. -/
def nextImm : BcOp := .imm func.immediates.length

def addImm (imm : BcImm) : BcFunction := { func with immediates := func.immediates ++ [imm] }

def recordUse (usedOp user : BcOp) : BcFunction :=
  match usedOp with
  | .inst i => func.modifyInst i fun inst => { inst with uses := inst.uses ++ [user] }
  | .phi i => { func with phis := func.phis.modify i fun uses => uses ++ [user] }
  | _ => func

def eraseUse (userOp usedOp : BcOp) : BcFunction :=
  match usedOp with
  | .inst i => func.modifyInst i fun inst => { inst with uses := inst.uses.filter (· ≠ userOp) }
  | .phi i => { func with phis := func.phis.modify i fun uses => uses.filter (· ≠ userOp) }
  | _ => func

/-- `setOps`, with the opcode that is set before it -/
def setInst (i : ℕ) (op : LuauOpcode) (newOps : List BcOp) : BcFunction :=
  let erased := (func.inst i).ops.foldl (fun f oldOp => f.eraseUse (.inst i) oldOp) func
  let set := erased.modifyInst i fun inst => { inst with op := op, ops := newOps }
  newOps.foldl (fun f newOp => f.recordUse newOp (.inst i)) set

/-- `eraseOp` -/
def eraseOp (i : ℕ) : BcFunction :=
  { func with blocks := func.blocks.modify (func.inst i).block fun ops => ops.filter (· ≠ .inst i) }

end BcFunction

/-- `SccpState`: what is known of every operand, which is nothing at first -/
abbrev SccpState := BcOp → ConstnessLattice

def SccpState.operandLattice (state : SccpState) : BcOp → ConstnessLattice
  | .proj _ => .notAConstant
  | .vmReg _ => .notAConstant
  | .vmUpvalue _ => .notAConstant
  | op => state op

/-! ### Forms with a constant -/

def arithToKOpcode : LuauOpcode → Option LuauOpcode
  | .add => some .addk
  | .sub => some .subk
  | .mul => some .mulk
  | .div => some .divk
  | .mod => some .modk
  | .pow => some .powk
  | _ => none

def isPureProducer : LuauOpcode → Bool
  | .loadk | .loadkx | .loadn | .loadb | .loadnil | .getupval => true
  | _ => false

def isArithmeticConstant (func : BcFunction) (op : BcOp) : Bool :=
  match func.constOp op with
  | .number _ => true
  | _ => false

/-- `asNumber`, which asserts that the constant is a number -/
def asNumber (func : BcFunction) (op : BcOp) : Number :=
  match func.constOp op with
  | .number n => n
  | _ => Datum.ofInt 0

def isConstNumber (func : BcFunction) : ConstnessLattice → Bool
  | .vmConstant op => isArithmeticConstant func op
  | _ => false

/-- What was chosen for an instruction: the operand that is no constant, what is known of the other, the opcode, and
whether the constant comes first. -/
structure KForm where
  nonConstantOp : BcOp
  constantK : ConstnessLattice
  kOpcode : LuauOpcode
  rk : Bool
  deriving DecidableEq, Repr

/-- The choice of `arithToK`. A constant before an operation that has no form for it leaves the operand and the
constant unset. -/
def chooseK (func : BcFunction) (op kOpcode : LuauOpcode) (lhs rhs : BcOp) (lhsLat rhsLat : ConstnessLattice) :
    Option KForm :=
  if isConstNumber func rhsLat ∧ lhsLat = .notAConstant then some ⟨lhs, rhsLat, kOpcode, false⟩
  else if isConstNumber func lhsLat ∧ rhsLat = .notAConstant then
    match op with
    | .add | .mul => some ⟨rhs, lhsLat, kOpcode, false⟩
    | .sub => some ⟨rhs, lhsLat, .subrk, true⟩
    | .div => some ⟨rhs, lhsLat, .divrk, true⟩
    | _ => some ⟨.none, .undetermined, kOpcode, false⟩
  else none

/-- The rewriting of one instruction in `arithToK` -/
def applyK (func : BcFunction) (i : ℕ) (form : KForm) : Except BadOptionalAccess BcFunction := do
  let constant ← form.constantK.vmConst
  let valueNumber := asNumber func constant
  let op := (func.inst i).op
  if Datum.equal valueNumber (Datum.ofInt 0) then
    if op = .add ∨ op = .sub then return func.setInst i .move [form.nonConstantOp]
    else if op = .mul then return (func.addImm (.int 0)).setInst i .loadn [func.nextImm]
    else if op = .pow then return (func.addImm (.int 1)).setInst i .loadn [func.nextImm]
    else return func
  else if Datum.equal valueNumber (Datum.ofInt 1) then
    if op = .mul ∨ op = .pow ∨ op = .div then return func.setInst i .move [form.nonConstantOp]
    else return func
  else if form.rk then return func.setInst i form.kOpcode [constant, form.nonConstantOp]
  else return func.setInst i form.kOpcode [form.nonConstantOp, constant]

/-- One turn of the loop of `arithToK`, and the operand that the loop remembers to erase -/
def arithStep (state : SccpState) (func : BcFunction) (i : ℕ) :
    Except BadOptionalAccess (BcFunction × Option BcOp) :=
  match arithToKOpcode (func.inst i).op, (func.inst i).ops with
  | some kOpcode, [lhs, rhs] =>
    match chooseK func (func.inst i).op kOpcode lhs rhs (state.operandLattice lhs) (state.operandLattice rhs) with
    | none => return (func, none)
    | some form => do
      let prevConstOperand := if form.nonConstantOp = lhs then rhs else lhs
      let func ← applyK func i form
      return (func, some prevConstOperand)
  | _, _ => return (func, none)

def eraseDeadProducer (func : BcFunction) : BcOp → BcFunction
  | .inst i =>
    if isPureProducer (func.inst i).op ∧ (func.inst i).uses = [] then func.eraseOp i else func
  | _ => func

def arithOps (state : SccpState) : List BcOp → BcFunction × List BcOp → Except BadOptionalAccess (BcFunction × List BcOp)
  | [], acc => return acc
  | .inst i :: ops, (func, toErase) => do
    let (func, erased) ← arithStep state func i
    arithOps state ops (func, toErase ++ erased.toList)
  | _ :: ops, acc => arithOps state ops acc

def arithBlock (state : SccpState) (blockUses : ℕ → List BcOp) (func : BcFunction) (blockidx : ℕ) :
    Except BadOptionalAccess BcFunction :=
  if blockUses blockidx = [] then return func
  else do
    let (func, toErase) ← arithOps state (func.blocks.getD blockidx []) (func, [])
    return toErase.foldl eraseDeadProducer func

def arithToK (state : SccpState) (blockUses : ℕ → List BcOp) (func : BcFunction) :
    Except BadOptionalAccess BcFunction :=
  (List.range func.blocks.length).foldlM (arithBlock state blockUses) func

/-! ### Folding -/

/-- `findOrAddConst`: the constants, and the name of the one -/
def findOrAddConst (constants : List BcVmConst) (value : BcVmConst) : List BcVmConst × BcOp :=
  match constants.findIdx? (·.equal value) with
  | some i => (constants, .vmConst i)
  | none => (constants ++ [value], .vmConst constants.length)

section Folding

variable {V : Format} {d : ℕ} (m : Machine V d)

/-- `BcVmConstImpl::evaluate` on two numbers -/
def evaluateNumbers (op : LuauOpcode) (a b : Number) : Option Number :=
  match op with
  | .add => some (Datum.add a b)
  | .sub => some (Datum.sub a b)
  | .mul => some (Datum.mul a b)
  | .div => some (Datum.div a b)
  | .mod =>
    if Datum.equal b (Datum.ofInt 0) then none
    else some (Datum.sub a (Datum.mul (Datum.floor (Datum.div a b)) b))
  | .pow => some (m.pow a b)
  | .idiv => some (Datum.floor (Datum.div a b))
  | _ => none

/-- `BcVmConstImpl::evaluate` -/
def evaluateConsts (constants : List BcVmConst) (op : LuauOpcode) (lhs rhs : BcVmConst) :
    Option (List BcVmConst × BcOp) :=
  match lhs, rhs with
  | .number a, .number b => (evaluateNumbers m op a b).map fun r => findOrAddConst constants (.number r)
  | _, _ => none

/-- The folding of `evaluateArith` on two integers, in 64 bits -/
def evaluateImms (op : LuauOpcode) (lv rv : ℤ) : Option ℤ :=
  if rv = 0 ∧ (op = .div ∨ op = .mod ∨ op = .idiv) then none
  else if op = .div ∨ op = .pow then none
  else
    match op with
    | .add => some (lv + rv)
    | .sub => some (lv - rv)
    | .mul => some (lv * rv)
    | .mod =>
      let remainder := lv.tmod rv
      if remainder ≠ 0 ∧ (lv < 0) ≠ (rv < 0) then some (remainder + rv) else some remainder
    | .idiv =>
      let result := lv.tdiv rv
      if result < 0 ∧ lv.tmod rv ≠ 0 then some (result - 1) else some result
    | _ => none

/-- The result of `LOADN` has 16 bits. -/
def fitsLoadn (result : ℤ) : Bool := -32768 ≤ result && result ≤ 32767

/-- `evaluateArith`, and the constants that it leaves -/
def evaluateArith (func : BcFunction) (opcode : LuauOpcode) (lhs rhs : ConstnessLattice) :
    ConstnessLattice × List BcVmConst :=
  match lhs, rhs with
  | .immConstant (.int lv), .immConstant (.int rv) =>
    match evaluateImms opcode lv.toInt rv.toInt with
    | some result =>
      if fitsLoadn result then (.immConstant (.int (BitVec.ofInt 32 result)), func.constants)
      else (.notAConstant, func.constants)
    | none => (.notAConstant, func.constants)
  | .vmConstant lhs, .vmConstant rhs =>
    match evaluateConsts m func.constants opcode (func.constOp lhs) (func.constOp rhs) with
    | some (constants, op) => (.vmConstant op, constants)
    | none => (.notAConstant, func.constants)
  | .undetermined, .undetermined => (.undetermined, func.constants)
  | _, _ => (.notAConstant, func.constants)

/-- `rewriteToLoad` -/
def rewriteToLoad (func : BcFunction) (i : ℕ) (lattice : ConstnessLattice) : BcFunction :=
  let erased := (func.inst i).ops.foldl (fun f usedOp => f.eraseUse (.inst i) usedOp) func
  match lattice with
  | .vmConstant op => erased.modifyInst i fun inst => { inst with op := .loadk, ops := [op] }
  | .immConstant (.boolean b) =>
    (erased.addImm (.boolean b)).modifyInst i fun inst => { inst with op := .loadb, ops := [func.nextImm] }
  | .immConstant (.int n) =>
    (erased.addImm (.int n)).modifyInst i fun inst => { inst with op := .loadn, ops := [func.nextImm] }
  | _ => func

end Folding

/-! ### Meaning -/

section Meaning

variable {V : Format} {d : ℕ} (m : Machine V d)

def constValue : BcVmConst → Value V d
  | .nil => .nil
  | .boolean b => .boolean b
  | .number n => .number n
  | .integer i => .integer i
  | .string s => .string s
  | .other id => .object id

def immValue : BcImm → Value V d
  | .boolean b => .boolean b
  | .int i => .number (Datum.ofInt i.toInt)

/-- `LOP_POWK` on numbers, with its three special cases -/
def powk (b k : Number) : Number :=
  if Datum.equal k (Datum.ofInt 2) then Datum.mul b b
  else if Datum.equal k (Datum.div (Datum.ofInt 1) (Datum.ofInt 2)) then m.sqrt b
  else if Datum.equal k (Datum.ofInt 3) then Datum.mul (Datum.mul b b) b
  else m.pow b k

/-- What the machine does at an instruction whose operands have the values `val` -/
def exec (func : BcFunction) (val : BcOp → Value V d) (inst : BcInst) : Option (Outcome V d) :=
  match inst.op, inst.ops with
  | .move, [a] => some (.value (val a))
  | .loadk, [.vmConst k] => some (.value (constValue (func.constOp (.vmConst k))))
  | .loadn, [.imm k] => some (.value (immValue (func.immOp (.imm k))))
  | .loadb, [.imm k] => some (.value (immValue (func.immOp (.imm k))))
  | .add, [a, b] => some (m.addSub .add (val a) (val b))
  | .sub, [a, b] => some (m.addSub .sub (val a) (val b))
  | .mul, [a, b] => some (m.mulDiv .mul (val a) (val b))
  | .div, [a, b] => some (m.mulDiv .div (val a) (val b))
  | .idiv, [a, b] => some (m.mulDiv .idiv (val a) (val b))
  | .mod, [a, b] => some (m.numOnly .mod (val a) (val b))
  | .pow, [a, b] => some (m.numOnly .pow (val a) (val b))
  | .addk, [a, k] => some (m.numOnly .add (val a) (constValue (func.constOp k)))
  | .subk, [a, k] => some (m.numOnly .sub (val a) (constValue (func.constOp k)))
  | .mulk, [a, k] => some (m.mulDiv .mul (val a) (constValue (func.constOp k)))
  | .divk, [a, k] => some (m.mulDiv .div (val a) (constValue (func.constOp k)))
  | .modk, [a, k] => some (m.numOnly .mod (val a) (constValue (func.constOp k)))
  | .powk, [a, k] =>
    match val a, func.constOp k with
    | .number b, .number k => some (.value (.number (powk m b k)))
    | a, k => some (m.numOnly .pow a (constValue k))
  | .subrk, [k, a] => some (m.numOnly .sub (constValue (func.constOp k)) (val a))
  | .divrk, [k, a] => some (m.numOnly .div (constValue (func.constOp k)) (val a))
  | .minus, [a] => some (m.minus (val a))
  | _, _ => none

end Meaning

end Luwu.Sccp
