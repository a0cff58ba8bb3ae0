import Luwu.CostModel.Costs
import Luwu.Unroll.TripCount

/-!
# The cost visitor

`CostVisitor` and the entry points of `CostModel.cpp`.  The visitor is written over an arithmetic of costs: the code's
packs the lanes of a cost into a word.
-/

namespace Luwu.CostModel

open Floating Unroll Sccp

/-- The address of a local -/
abbrev Local := ℕ

mutual

/-- Expressions; the first argument of a constructor is the address of the node, where it is looked up. -/
inductive Expr
  | group (node : ℕ) (expr : Expr)
  | literal (node : ℕ)
  | local (node : ℕ) (local' : Local)
  | global (node : ℕ)
  | varargs (node : ℕ)
  | call (node : ℕ) (func : Expr) (args : List Expr)
  | indexName (node : ℕ) (expr : Expr)
  | indexExpr (node : ℕ) (expr index : Expr)
  | function (node : ℕ)
  | table (node : ℕ) (items : List Item)
  | unary (node : ℕ) (expr : Expr)
  | binary (node : ℕ) (left right : Expr)
  | typeAssertion (node : ℕ) (expr : Expr)
  | ifElse (node : ℕ) (condition trueExpr falseExpr : Expr)
  | interpString (node : ℕ) (expressions : List Expr)
  | instantiate (node : ℕ) (expr : Expr)

inductive Item
  | keyed (key value : Expr)
  | plain (value : Expr)

end

inductive Stat
  | block (body : List Stat)
  | ifStat (condition : Expr) (thenbody : Stat) (elsebody : Option Stat)
  | whileStat (condition : Expr) (body : Stat)
  | repeatStat (body : Stat) (condition : Expr)
  | breakStat
  | continueStat
  | returnStat (list : List Expr)
  | localStat (vars : List Local) (values : List Expr)
  | forStat (from' to' : Expr) (step : Option Expr) (body : Stat)
  | forIn (values : List Expr) (body : Stat)
  | assign (vars values : List Expr)
  | compoundAssign (var value : Expr)
  /-- A statement that the visitor does not know, with the expressions in it -/
  | other (exprs : List Expr)

def Expr.node : Expr → ℕ
  | .group n _ | .literal n | .local n _ | .global n | .varargs n | .call n _ _ | .indexName n _ | .indexExpr n _ _ => n
  | .function n | .table n _ | .unary n _ | .binary n _ _ | .typeAssertion n _ | .ifElse n _ _ _ => n
  | .interpString n _ | .instantiate n _ => n

inductive Constant
  | unknown
  | nil
  | boolean (valueBoolean : Bool)
  | number (valueNumber : Number)
  /-- Integers, vectors, strings and tables -/
  | truthy

def Constant.isTruthful : Constant → Bool
  | .nil | .boolean false => false
  | _ => true

structure Tables where
  builtins : ℕ → Option ℤ
  constants : ℕ → Option Constant

/-! ### Costs -/

def kLiteral : Word := BitVec.allOnes 64

structure Cost where
  model : Word
  constant : Word

def Cost.ofInt (cost : ℤ) (constant : Word) : Cost := ⟨BitVec.ofInt 64 (if cost < 0x7f then cost else 0x7f), constant⟩

def Cost.plus (x y : Cost) : Cost := ⟨parallelAddSat x.model y.model, 0⟩

def Cost.times (x : Cost) (other : ℤ) : Cost := ⟨parallelMulSat x.model other, 0⟩

def Cost.fold (x y : Cost) : Cost :=
  let newmodel := parallelAddSat x.model y.model
  let newconstant := x.constant &&& y.constant
  let extra := if newconstant = kLiteral then 0 else 1 ||| (0x0101010101010101#64 &&& newconstant)
  ⟨parallelAddSat newmodel extra, newconstant⟩

/-- What the visitor does with costs -/
structure Arith (κ : Type) where
  ofInt : ℤ → Word → κ
  constant : κ → Word
  /-- The cost is zero, for every choice of constant arguments. -/
  isZero : κ → Bool
  plus : κ → κ → κ
  times : κ → ℤ → κ
  fold : κ → κ → κ

/-- The arithmetic of the code -/
def words : Arith Cost := ⟨Cost.ofInt, Cost.constant, fun c => c.model == 0, Cost.plus, Cost.times, Cost.fold⟩

section

variable {κ : Type} (A : Arith κ) (T : Tables)

/-- `Cost(cost)` -/
def Arith.num (cost : ℕ) : κ := A.ofInt cost 0

def LBF_NONE : ℤ := 0

def Tables.isBuiltin (node : ℕ) : Bool := match T.builtins node with
  | some bfid => bfid != LBF_NONE
  | none => false

/-- What an argument of a call adds to its cost -/
def argCost (builtinShort : Bool) (ac : κ) : κ := if A.isZero ac && !builtinShort then A.num 1 else ac

mutual

def model (vars : Local → Option Word) (e : Expr) : κ :=
  if (T.constants e.node).isSome then A.ofInt 0 kLiteral
  else match e with
    | .group _ expr => model vars expr
    | .literal _ => A.ofInt 0 kLiteral
    -- locals typically don't require extra instructions to compute
    | .local _ l => A.ofInt 0 ((vars l).getD 0)
    | .global _ => A.num 1
    | .varargs _ => A.num 3
    | .call node func args =>
      let builtin := T.isBuiltin node
      let builtinShort := builtin && args.length ≤ 3
      let cost := A.num (if builtin then 2 else 3)
      let cost := if !builtin then A.plus cost (model vars func) else cost
      (models vars args).foldl (fun cost ac => A.plus cost (argCost A builtinShort ac)) cost
    | .indexName _ expr => A.plus (model vars expr) (A.num 1)
    | .indexExpr _ expr index => A.plus (A.plus (model vars expr) (model vars index)) (A.num 1)
    | .function _ => A.num 10
    | .table _ items => modelItems vars items (A.num 10)
    | .unary _ expr => A.fold (model vars expr) (A.ofInt 0 kLiteral)
    | .binary _ left right => A.fold (model vars left) (model vars right)
    | .typeAssertion _ expr => model vars expr
    | .ifElse _ condition trueExpr falseExpr =>
      A.plus (A.plus (A.plus (model vars condition) (model vars trueExpr)) (model vars falseExpr)) (A.num 2)
    | .interpString _ expressions => (models vars expressions).foldl A.plus (A.num 3)
    | .instantiate _ expr => model vars expr

def models (vars : Local → Option Word) : List Expr → List κ
  | [] => []
  | e :: es => model vars e :: models vars es

def modelItem (vars : Local → Option Word) (cost : κ) : Item → κ
  | .keyed key value => A.plus (A.plus (A.plus cost (model vars key)) (model vars value)) (A.num 1)
  | .plain value => A.plus (A.plus cost (model vars value)) (A.num 1)

def modelItems (vars : Local → Option Word) : List Item → κ → κ
  | [], cost => cost
  | item :: items, cost => modelItems vars items (modelItem vars cost item)

end

/-! ### Statements -/

/-- The state of the visitor -/
structure Visit (κ : Type) where
  vars : Local → Option Word
  result : κ

def isConstantTrue (node : Expr) : Bool := match T.constants node.node with
  | none | some .unknown => false
  | some cv => cv.isTruthful

def isConstantFalse (node : Expr) : Bool := match T.constants node.node with
  | none | some .unknown => false
  | some cv => !cv.isTruthful

mutual

def alwaysTerminates : Stat → Bool
  | .block body => anyTerminates body
  | .returnStat _ | .breakStat | .continueStat => true
  | .ifStat condition thenbody none => isConstantTrue T condition && alwaysTerminates thenbody
  | .ifStat condition thenbody (some elsebody) =>
    if isConstantTrue T condition then alwaysTerminates thenbody
    else if isConstantFalse T condition then alwaysTerminates elsebody
    else alwaysTerminates thenbody && alwaysTerminates elsebody
  | _ => false

def anyTerminates : List Stat → Bool
  | [] => false
  | stat :: stats => alwaysTerminates stat || anyTerminates stats

end

def getNumber (node : Expr) : Option Number := match T.constants node.node with
  | some (.number valueNumber) => some valueNumber
  | _ => none

/-- The number of times that the visitor takes a numeric loop to run -/
def tripCount (from' to' : Expr) (step : Option Expr) : ℤ :=
  match getNumber T from', getNumber T to', step.elim (some (Datum.ofInt 1)) (getNumber T) with
  | some f, some t, some s => (getTripCount f t s).toOption.getD (-1)
  | _, _, _ => -1

def add (c : κ) (v : Visit κ) : Visit κ := { v with result := A.plus v.result c }

/-- `visit(AstExpr*)` -/
def visitExpr (node : Expr) (v : Visit κ) : Visit κ := add A (model A T v.vars node) v

def visitExprs (nodes : List Expr) (v : Visit κ) : Visit κ := nodes.foldl (fun v node => visitExpr A T node v) v

def setMask (l : Local) (m : Word) (v : Visit κ) : Visit κ := { v with vars := Function.update v.vars l (some m) }

/-- An assigned variable is not discounted any more. -/
def assign (expr : Expr) (v : Visit κ) : Visit κ := match expr with
  | .local _ l => if (v.vars l).isSome then setMask l 0 v else v
  | _ => v

def visitLocal : List Local → List Expr → Visit κ → Visit κ
  | _, [], v => v
  | vars, value :: values, v =>
    let arg := model A T v.vars value
    -- the constant mask of the expression goes to the variable, if there is one
    let v := match vars with
      | [] => v
      | l :: _ => if A.constant arg ≠ 0 then setMask l (A.constant arg) v else v
    visitLocal vars.tail values (add A arg v)

/-- The costs of an assignment, in pairs of a variable and a value where there are both -/
def visitPairs : List Expr → List Expr → Visit κ → Visit κ
  | [], values, v => values.foldl (fun v value => pair (A.plus (A.num 0) (model A T v.vars value)) v) v
  | var :: vars, values, v =>
    let ac := A.plus (A.num 0) (model A T v.vars var)
    let ac := match values with
      | [] => ac
      | value :: _ => A.plus ac (model A T v.vars value)
    visitPairs vars values.tail (pair ac v)
where
  /-- local->local or constant->local assignment is not free -/
  pair (ac : κ) : Visit κ → Visit κ := add A (if A.isZero ac then A.num 1 else ac)

/-- `loop` around a visit of the body -/
def loop (body : Visit κ → Visit κ) (iterCost : κ) (factor : ℤ) (v : Visit κ) : Visit κ :=
  let before := v.result
  let v := body { v with result := A.num 0 }
  { v with result := A.plus before (A.times (A.plus v.result iterCost) factor) }

mutual

def visit : Stat → Visit κ → Visit κ
  | .block body, v => visitBlock body v
  | .ifStat condition thenbody elsebody, v =>
    if isConstantFalse T condition then
      match elsebody with
      | some elsebody => visit elsebody v
      | none => v
    else if isConstantTrue T condition then visit thenbody v
    else match elsebody with
      | none => visit thenbody (visitExpr A T condition (add A (A.num 1) v))
      -- an unconditional 'else' may require a jump after the 'if' body
      | some elsebody =>
        visit elsebody (visit thenbody (visitExpr A T condition (add A (A.num (if isIf elsebody then 1 else 2)) v)))
  | .whileStat condition body, v => loop A (visit body) (model A T v.vars condition) 3 v
  | .repeatStat body condition, v => loop A (visit body) (model A T v.vars condition) 3 v
  | .breakStat, v => add A (A.num 1) v
  | .continueStat, v => add A (A.num 1) v
  | .returnStat list, v => visitExprs A T list v
  | .localStat vars values, v => visitLocal A T vars values v
  | .forStat from' to' step body, v =>
    let v := visitExpr A T to' (visitExpr A T from' v)
    let v := match step with
      | some step => visitExpr A T step v
      | none => v
    let tripCount := tripCount T from' to' step
    loop A (visit body) (A.num 1) (if tripCount < 0 then 3 else tripCount) v
  | .forIn values body, v => loop A (visit body) (A.num 1) 3 (visitExprs A T values v)
  | .assign vars values, v => visitPairs A T vars values (vars.foldl (fun v expr => assign expr v) v)
  | .compoundAssign var value, v =>
    visitExpr A T value (visitExpr A T var (add A (A.num (if isLocal var then 1 else 2)) (assign var v)))
  | .other exprs, v => visitExprs A T exprs v
where
  isIf : Stat → Bool
    | .ifStat _ _ _ => true
    | _ => false
  isLocal : Expr → Bool
    | .local _ _ => true
    | _ => false

def visitBlock : List Stat → Visit κ → Visit κ
  | [], v => v
  | stat :: stats, v => if alwaysTerminates T stat then visit stat v else visitBlock stats (visit stat v)

end

/-- The masks of the first seven variables -/
def argMasks : ℕ → List Local → (Local → Option Word) → Local → Option Word
  | _, [], masks => masks
  | i, l :: ls, masks =>
    if i < 7 then argMasks (i + 1) ls (Function.update masks l (some (0xff#64 <<< (i * 8 + 8)))) else masks

def start (vars : List Local) : Visit κ := ⟨argMasks 0 vars fun _ => none, A.num 0⟩

end

def modelCost (T : Tables) (root : Stat) (vars : List Local) : Word := (visit words T root (start words vars)).result.model

/-- `cost -= int((model >> (i * 8 + 8)) & 0x7f) * varsConst[i]`, for every variable from `i` on -/
def discounted (model : Word) : ℕ → List Bool → ℤ → ℤ
  | _, [], cost => cost
  | i, c :: varsConst, cost =>
    if i < 7 then
      discounted model (i + 1) varsConst (cost - ((model >>> (i * 8 + 8)) &&& 0x7f).toNat * if c then 1 else 0)
    else cost

def computeCost (model : Word) (varsConst : List Bool) : ℤ :=
  let cost := (model &&& 0x7f).toNat
  -- don't apply discounts to what is likely a saturated sum
  if cost = 0x7f then cost else discounted model 0 varsConst cost

end Luwu.CostModel
