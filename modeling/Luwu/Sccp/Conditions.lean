import Luwu.Sccp.Rewrite
import Luwu.Sccp.Machine

/-!
# Conditions that the pass decides

The pass is generic over the representation of constants.  `VmConstOps` has the operations that the decisions use, on
the indices of constants; the constants of a bytecode file and those of a loaded function are its two instances.
Assertions are not part of a release build, so the comparisons have an answer where they assert.
-/

namespace Luwu.Sccp.Jumps

open Floating

variable {V : Format} {d : ℕ}

/-- `BcImm` -/
inductive Imm where
  | boolean (b : Bool)
  | int (i : BitVec 32)
  | imported (id : BitVec 32)
  deriving DecidableEq

/-- `ConstnessLattice`, where a constant is named by its index -/
inductive Lattice where
  | undetermined
  | notAConstant
  | vmConstant (k : ℕ)
  | immConstant (imm : Imm)
  deriving DecidableEq

structure VmConstOps where
  falsey : ℕ → Bool
  cmp : ℕ → ℕ → ℤ
  cmpImm : ℕ → Imm → ℤ
  isOrderable : ℕ → Bool
  kindEquals : ℕ → ℕ → Bool
  /-- `kindEquals` with a constant of `makeNil` -/
  kindNil : ℕ → Bool
  eq : ℕ → ℕ → Option Bool
  eqImm : ℕ → Imm → Option Bool
  eqInt : ℕ → BitVec 32 → Option Bool

/-! ### Three-way comparisons -/

def threeWay (gt lt : Bool) : ℤ := gt.toNat - lt.toNat

def threeWayNumber (a b : Number) : ℤ := threeWay (Floats.less b a) (Floats.less a b)

def threeWayInt {w : ℕ} (a b : BitVec w) : ℤ := threeWay (b.slt a) (a.slt b)

/-! ### Constants of a bytecode file -/

/-- A constant; of a vector the components that the machine is built with -/
inductive BcVmConst (d : ℕ) where
  | nil
  | boolean (b : Bool)
  | number (n : Number)
  | vectorf (v : Fin d → Datum Format.single)
  | vectord (v : Fin d → Datum Format.double)
  | string (s : List UInt8)
  | imported (id : BitVec 32)
  | table (id : BitVec 32)
  | closure (id : BitVec 32)
  | integer (i : BitVec 64)
  | classShape (id : BitVec 32)

/-- `BcVmConstKind` -/
def BcVmConst.kind : BcVmConst d → ℕ
  | nil => 0
  | boolean _ => 1
  | number _ => 2
  | vectorf _ => 3
  | vectord _ => 4
  | string _ => 5
  | imported _ => 6
  | table _ => 7
  | closure _ => 8
  | integer _ => 9
  | classShape _ => 10

namespace BcVmConstImpl

section

variable (constants : List (BcVmConst d))

def constOp (k : ℕ) : BcVmConst d := constants.getD k .nil

def falsey (k : ℕ) : Bool :=
  match constOp constants k with
  | .nil => true
  | .boolean b => !b
  | _ => false

def cmp (l r : ℕ) : ℤ :=
  match constOp constants l, constOp constants r with
  | .number a, .number b => threeWayNumber a b
  | .integer a, .integer b => threeWayInt a b
  | .boolean a, .boolean b => if a = b then 0 else 1
  | .string a, .string b => (compareBytes a b).sign
  | _, _ => 0

def cmpImm (l : ℕ) (rhs : Imm) : ℤ :=
  match rhs, constOp constants l with
  | .int i, .number a => threeWayNumber a (Datum.ofInt i.toInt)
  | .int i, .integer a => threeWayInt a (i.signExtend 64)
  | .boolean b, .boolean a => if a = b then 0 else 1
  | _, _ => 0

def isOrderable (k : ℕ) : Bool :=
  match constOp constants k with
  | .number _ => true
  | .integer _ => true
  | .string _ => true
  | _ => false

def kindEquals (l r : ℕ) : Bool := (constOp constants l).kind == (constOp constants r).kind

def eq (l r : ℕ) : Option Bool :=
  match constOp constants l, constOp constants r with
  | .number a, .number b => some (Datum.equal a b)
  | .integer a, .integer b => some (a == b)
  | .number a, .integer b => some (Datum.equal a (Datum.ofInt b.toInt))
  | .integer a, .number b => some (Datum.equal (Datum.ofInt a.toInt) b)
  | .string a, .string b => some (a == b)
  | _, _ => none

def eqImm (l : ℕ) (rhs : Imm) : Option Bool :=
  match constOp constants l, rhs with
  | .boolean a, .boolean b => some (a == b)
  | _, _ => none

def eqInt (l : ℕ) (rhs : BitVec 32) : Option Bool :=
  match constOp constants l with
  | .number a => some (Datum.equal (Datum.ofInt rhs.toInt) a)
  | .integer a => some (rhs.signExtend 64 == a)
  | _ => none

def ops : VmConstOps where
  falsey := falsey constants
  cmp := cmp constants
  cmpImm := cmpImm constants
  isOrderable := isOrderable constants
  kindEquals := kindEquals constants
  kindNil k := (constOp constants k).kind == (BcVmConst.nil : BcVmConst d).kind
  eq := eq constants
  eqImm := eqImm constants
  eqInt := eqInt constants

end

end BcVmConstImpl

/-! ### Constants of a loaded function -/

namespace TValueVmConstImpl

section

variable (constants : List (Value V d))

def constOp (k : ℕ) : Value V d := constants.getD k .nil

def falsey (k : ℕ) : Bool := l_isfalse (constOp constants k)

def cmp (l r : ℕ) : ℤ :=
  match constOp constants l, constOp constants r with
  | .number a, .number b => if Floats.less a b then -1 else if Floats.less b a then 1 else 0
  | .boolean a, .boolean b => if a = b then 0 else 1
  | .string a, .string b => (compareBytes a b).sign
  | _, _ => 0

def cmpImm (l : ℕ) (rhs : Imm) : ℤ :=
  match rhs, constOp constants l with
  | .int i, .number a =>
    if Floats.less a (Datum.ofInt i.toInt) then -1 else if Floats.less (Datum.ofInt i.toInt) a then 1 else 0
  | .boolean b, .boolean a => if a = b then 0 else 1
  | _, _ => 0

def isOrderable (k : ℕ) : Bool :=
  match constOp constants k with
  | .number _ => true
  | .string _ => true
  | _ => false

def kindEquals (l r : ℕ) : Bool := (constOp constants l).ttype == (constOp constants r).ttype

def eq (l r : ℕ) : Option Bool :=
  match constOp constants l, constOp constants r with
  | .number a, .number b => some (Datum.equal a b)
  | .string a, .string b => some (a == b)
  | _, _ => none

def eqImm (l : ℕ) (rhs : Imm) : Option Bool :=
  match constOp constants l, rhs with
  | .boolean a, .boolean b => some (a == b)
  | _, _ => none

def eqInt (l : ℕ) (rhs : BitVec 32) : Option Bool :=
  match constOp constants l with
  | .number a => some (Datum.equal (Datum.ofInt rhs.toInt) a)
  | _ => none

def ops : VmConstOps where
  falsey := falsey constants
  cmp := cmp constants
  cmpImm := cmpImm constants
  isOrderable := isOrderable constants
  kindEquals := kindEquals constants
  kindNil k := (constOp constants k).ttype == (Value.nil : Value V d).ttype
  eq := eq constants
  eqImm := eqImm constants
  eqInt := eqInt constants

end

end TValueVmConstImpl

/-! ### The decisions -/

inductive ConditionState where
  | unknown
  | alwaysTrue
  | alwaysFalse
  deriving DecidableEq

def ConditionState.of (b : Bool) : ConditionState := if b then .alwaysTrue else .alwaysFalse

inductive CompareOp where
  | eq
  | order (op : Order)
  deriving DecidableEq

/-- The conditional jumps; those with `NOT` are negated. -/
inductive Jump where
  | jumpif (negated : Bool) (val : Lattice)
  | jumpifcmp (op : CompareOp) (negated : Bool) (lhs rhs : Lattice)
  | jumpxeqknil (negated : Bool) (val : Lattice)
  | jumpxeqkb (negated : Bool) (val : Lattice) (b : Bool)
  | jumpxeqkn (negated : Bool) (val : Lattice) (k : ℕ)
  | jumpxeqks (negated : Bool) (val : Lattice) (k : ℕ)
  deriving DecidableEq

def Jump.negated : Jump → Bool
  | jumpif negated _ => negated
  | jumpifcmp _ negated _ _ => negated
  | jumpxeqknil negated _ => negated
  | jumpxeqkb negated _ _ => negated
  | jumpxeqkn negated _ _ => negated
  | jumpxeqks negated _ _ => negated

def applyOp (cmp : ℤ) : CompareOp → Bool
  | .eq => cmp = 0
  | .order .lt => cmp < 0
  | .order .le => cmp ≤ 0

section

variable (impl : VmConstOps)

def isOrderableLattice : Lattice → Bool
  | .vmConstant k => impl.isOrderable k
  | .immConstant (.int _) => true
  | _ => false

def evaluateCondition : Lattice → ConditionState
  | .vmConstant k => if impl.falsey k then .alwaysFalse else .alwaysTrue
  | .immConstant (.boolean b) => .of b
  | _ => .unknown

def evaluateComparisonCondition (op : CompareOp) (lhs rhs : Lattice) : ConditionState :=
  if op ≠ .eq ∧ ¬(isOrderableLattice impl lhs ∧ isOrderableLattice impl rhs) then .unknown
  else
    match lhs, rhs with
    | .vmConstant l, .vmConstant r => if impl.kindEquals l r then .of (applyOp (impl.cmp l r) op) else .unknown
    | .immConstant (.int l), .immConstant (.int r) => .of (applyOp (threeWayInt l r) op)
    | .immConstant (.boolean l), .immConstant (.boolean r) => .of (applyOp (if l = r then 0 else 1) op)
    | .vmConstant l, .immConstant r => .of (applyOp (impl.cmpImm l r) op)
    | .immConstant l, .vmConstant r => .of (applyOp (-impl.cmpImm r l) op)
    | _, _ => .unknown

/-- An answer of `eq` that may be missing -/
def ofAnswer : Option Bool → ConditionState
  | some b => .of b
  | none => .unknown

/-- For a boolean immediate `LOP_JUMPXEQKB` reads the constant that is not there. -/
def evaluateXeqkCondition : Jump → Except BadOptionalAccess ConditionState
  | .jumpxeqknil _ val =>
    match val with
    | .vmConstant k =>
      if impl.falsey k && impl.kindNil k then .ok .alwaysTrue
      else if impl.kindNil k then .ok .unknown
      else .ok .alwaysFalse
    | .immConstant _ => .ok .alwaysFalse
    | _ => .ok .unknown
  | .jumpxeqkb _ val b =>
    match val with
    | .immConstant (.boolean _) => .error .mk
    | .vmConstant k => .ok (ofAnswer (impl.eqImm k (.boolean b)))
    | _ => .ok .unknown
  | .jumpxeqkn _ val cmpConst =>
    match val with
    | .vmConstant k => .ok (ofAnswer (impl.eq k cmpConst))
    | .immConstant (.int i) => .ok (ofAnswer (impl.eqInt cmpConst i))
    | _ => .ok .unknown
  | .jumpxeqks _ val cmpConst =>
    match val with
    | .vmConstant k => .ok (ofAnswer (impl.eq k cmpConst))
    | _ => .ok .unknown
  | _ => .ok .unknown

def Jump.condition : Jump → Except BadOptionalAccess ConditionState
  | jumpif _ val => .ok (evaluateCondition impl val)
  | jumpifcmp op _ lhs rhs => .ok (evaluateComparisonCondition impl op lhs rhs)
  | j => evaluateXeqkCondition impl j

/-- `takesJump` of `evaluate`; `none` where the condition is not known -/
def Jump.takesJump (j : Jump) : Except BadOptionalAccess (Option Bool) := do
  match ← j.condition impl with
  | .unknown => return none
  | .alwaysTrue => return some (true != j.negated)
  | .alwaysFalse => return some (false != j.negated)

end

end Luwu.Sccp.Jumps
