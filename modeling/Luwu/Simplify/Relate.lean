import Luwu.Lib.Asking
import Luwu.Simplify.Types

/-!
# Relating two types

`relate`, the cheap and approximate subtype test, with its set of pairs seen.  One call is a step that asks for
the relations of other pairs; a pair that was seen before is answered with coincident.
-/

namespace Luwu.Simplify

open Luwu.Normal (PrimitiveType SingletonType)
open Luwu.Questions

inductive Relation where
  | disjoint
  | coincident
  | intersects
  | subset
  | superset
  deriving DecidableEq

def Relation.flip : Relation → Relation
  | .subset => .superset
  | .superset => .subset
  | rel => rel

variable {Class Fn : Type}

namespace Ty

def isNever : Ty Class Fn → Bool
  | .never => true
  | _ => false

def isUnknown : Ty Class Fn → Bool
  | .unknown => true
  | _ => false

def isAny : Ty Class Fn → Bool
  | .any => true
  | _ => false

def isError : Ty Class Fn → Bool
  | .error => true
  | _ => false

def isUnion : Ty Class Fn → Bool
  | .union _ => true
  | _ => false

def isIntersection : Ty Class Fn → Bool
  | .intersection _ => true
  | _ => false

/-- `get<NegationType>`, with the type that is negated -/
def negated? : Ty Class Fn → Option TypeId
  | .negation t => some t
  | _ => none

end Ty

/-- What a call of `relate` asks for. -/
abbrev Ask := Asking (TypeId × TypeId) Relation Relation

/-- `flip(relate(right, left, seen))` -/
def flipped (left right : TypeId) : Ask := .ask (right, left) fun r => .done r.flip

section Tables

variable (K : Classes Class)

/-- The loop over the properties of the table -/
def relateTableToProps (cls : Class) : Props → Ask
  | [] => .done .superset
  | (name, readTy) :: props =>
    match K.lookupExternTypeProp cls name with
    | none => relateTableToProps cls props
    | some propInExternType =>
      .ask (readTy, propInExternType) fun
        | .disjoint => .done .disjoint
        | .coincident => relateTableToProps cls props
        | .intersects => .done .intersects
        | .subset => .done .intersects
        | .superset => relateTableToProps cls props

def relateTableToExternType (table : Props) (cls : Class) : Ask :=
  if K.hasIndexer cls then .done .intersects else relateTableToProps K cls table

/-- The relationship between the single property on the right and its corresponding property in the left table. -/
def relateTableToProp (leftTable : Props) (propName : String) (rightProp : TypeId) : Ask :=
  match leftTable.lookup propName with
  | none => .done .intersects
  | some leftProp =>
    .ask (leftProp, rightProp) fun
      | .disjoint => .done .disjoint
      | .coincident => .done .coincident
      | .subset => .done .subset
      | .superset => .done .intersects
      | .intersects => .done .intersects

/-- The loop over the properties of the right table -/
def relateProps (leftTable : Props) (hasSubset : Bool) : Props → Ask
  | [] => .done (if hasSubset then .subset else .coincident)
  | (rightName, rightProp) :: props =>
    (relateTableToProp leftTable rightName rightProp).bind fun
      | .disjoint => .done .disjoint
      | .superset => .done .intersects
      | .intersects => .done .intersects
      | .subset => relateProps leftTable true props
      | .coincident => relateProps leftTable hasSubset props

def relateTables (leftTable rightTable : Props) : Ask :=
  match leftTable, rightTable with
  | leftTable, [(name, prop)] =>
    (relateTableToProp leftTable name prop).map fun res => if res = .coincident then .subset else res
  | [(name, prop)], rightTable =>
    (relateTableToProp rightTable name prop).map fun res =>
      if res.flip = .coincident then .superset else res.flip
  | leftTable, rightTable =>
    if leftTable.length != rightTable.length then .done .intersects else relateProps leftTable false rightTable

end Tables

section Step

/-- `for (TypeId part : ut)` with a union on the left -/
def relateUnion (right : TypeId) : List TypeId → Ask
  | [] => .done .intersects
  | part :: parts =>
    .ask (part, right) fun r => if r = .superset ∨ r = .coincident then .done .superset else relateUnion right parts

/-- `for (TypeId part : ut)` with a union on the right -/
def relateToUnion (left : TypeId) : List TypeId → Ask
  | [] => .done .intersects
  | part :: parts =>
    .ask (left, part) fun r => if r = .subset ∨ r = .coincident then .done .subset else relateToUnion left parts

/-- `relate` of `left` and the negation of `ty` -/
def relateNegation (left ty : TypeId) (leftNegation : Bool) : Ask :=
  .ask (left, ty) fun
    | .coincident => .done .disjoint
    | .disjoint => .done (if leftNegation then .intersects else .subset)
    | .intersects => .done .intersects
    | .subset => .done .disjoint
    | .superset => .done .intersects

def relatePrimitive (lp : PrimitiveType) : Ty Class Fn → Ask
  | .primitive rp => .done (if lp = rp then .coincident else .disjoint)
  | .singleton (.string _) => .done (if lp = .string then .superset else .disjoint)
  | .singleton (.boolean _) => .done (if lp = .boolean then .superset else .disjoint)
  | .function _ => .done (if lp = .function then .superset else .disjoint)
  | .table _ => .done (if lp = .table then .superset else .disjoint)
  | _ => .done .disjoint

variable [DecidableEq Class] (K : Classes Class) (A : Arena Class Fn)

/-- The types that are neither tops or bottoms nor made of others. -/
def relateConcrete (left right : TypeId) : Ask :=
  match A.ty left with
  | .primitive lp => relatePrimitive lp (A.ty right)
  | .singleton ls =>
    match A.ty right with
    | .primitive _ => flipped left right
    | .singleton rs => .done (if ls = rs then .coincident else .disjoint)
    | _ => .done .disjoint
  | .function _ =>
    match A.ty right with
    | .primitive rp => .done (if rp = .function then .subset else .disjoint)
    | _ => .done .intersects
  | .table lt =>
    match A.ty right with
    | .primitive rp => .done (if rp = .table then .subset else .disjoint)
    | .table rt => relateTables lt rt
    | .externType re => relateTableToExternType K lt re
    | _ => .done .disjoint
  | .externType ct =>
    match A.ty right with
    | .externType rct =>
      .done (if K.isSubclass ct rct then .subset else if K.isSubclass rct ct then .superset else .disjoint)
    | .table tbl => (relateTableToExternType K tbl ct).map Relation.flip
    | _ => .done .disjoint
  | _ => .done .intersects

/-- `relate` of two types that are not the same and were not seen -/
def relateStep (left right : TypeId) : Ask :=
  if (A.ty left).isUnknown then
    .done <|
      if (A.ty right).isAny then .subset
      else if (A.ty right).isUnknown then .coincident
      else if (A.ty right).isError then .disjoint
      else .superset
  else if (A.ty right).isUnknown then flipped left right
  else if (A.ty left).isAny then .done (if (A.ty right).isAny then .coincident else .superset)
  else if (A.ty right).isAny then flipped left right
  else if (A.ty left).isError then .done (if (A.ty right).isError then .coincident else .disjoint)
  else if (A.ty right).isError then flipped left right
  else if (A.ty left).isNever then .done (if (A.ty right).isNever then .coincident else .subset)
  else if (A.ty right).isNever then flipped left right
  else if (A.ty left).isIntersection || (A.ty right).isIntersection then .done .intersects
  else if (A.ty left).isUnion then relateUnion right (A.eachOption left)
  else if (A.ty right).isUnion then relateToUnion left (A.eachOption right)
  else
    match (A.ty right).negated? with
    | some ty => relateNegation left ty (A.ty left).negated?.isSome
    | none => if (A.ty left).negated?.isSome then flipped left right else relateConcrete K A left right

end Step

variable [DecidableEq Class] (K : Classes Class) (A : Arena Class Fn)

/-- `left == right` -/
def relateSame (p : TypeId × TypeId) : Option Relation := if p.1 = p.2 then some .coincident else none

/-- The relation, and the pairs that were met on the way, the last one first. -/
def relateRun (left right : TypeId) : Option (Relation × List (TypeId × TypeId)) :=
  search (fun p => relateStep K A p.1 p.2) relateSame .coincident (A.length * A.length + 1) (left, right) []

/-- There is always a relation. -/
def relate (left right : TypeId) : Relation :=
  match relateRun K A left right with
  | some (r, _) => r
  | none => .intersects

end Luwu.Simplify
