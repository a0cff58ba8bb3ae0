import Luwu.Dense.Ops

/-!
# Subtyping reasonings

Why a subtyping test fails: a set of `SubtypingReasoning`s in a `DenseHashSet`.  Merging two results looks reasonings up and inserts them;
the other operations write over the reasonings that a loop over the set comes to, where they lie.
-/

namespace Luwu.Subtyping

open Function Luwu.Dense Luwu.DenseHash

inductive TypeField where
  | Table
  | Metatable
  | LowerBound
  | UpperBound
  | IndexLookup
  | IndexResult
  | Negated
  | Variadic
  deriving DecidableEq

inductive PackField where
  | Arguments
  | Returns
  | Tail
  deriving DecidableEq

/-- A type and a pack are where they lie in memory. -/
inductive Component where
  | property (name : String) (isRead : Bool)
  | index (index : BitVec 64)
  | typeField (field : TypeField)
  | packField (field : PackField)
  | packSlice (start_index : BitVec 64)
  | reduction (resultType : BitVec 64)
  | genericPackMapping (mappedType : BitVec 64)
  deriving DecidableEq

abbrev Path := List Component

def kEmpty : Path := []

/-- `Path::push_front` -/
def Path.push_front (p : Path) (component : Component) : Path := component :: p

inductive SubtypingVariance where
  | Invalid
  | Covariant
  | Contravariant
  | Invariant
  deriving DecidableEq

structure SubtypingReasoning where
  subPath : Path
  superPath : Path
  variance : SubtypingVariance := .Covariant
  isAccessModifierViolation : Bool := false
  deriving DecidableEq

def kEmptyReasoning : SubtypingReasoning := { subPath := kEmpty, superPath := kEmpty, variance := .Invalid }

/-! ### Hashes -/

/-- `std::hash`, of strings and of addresses -/
structure StdHash where
  string : String → BitVec 64
  address : BitVec 64 → BitVec 64

def TypeField.toSize : TypeField → BitVec 64
  | .Table => 0
  | .Metatable => 1
  | .LowerBound => 2
  | .UpperBound => 3
  | .IndexLookup => 4
  | .IndexResult => 5
  | .Negated => 6
  | .Variadic => 7

def PackField.toSize : PackField → BitVec 64
  | .Arguments => 0
  | .Returns => 1
  | .Tail => 2

def SubtypingVariance.toSize : SubtypingVariance → BitVec 64
  | .Invalid => 0
  | .Covariant => 1
  | .Contravariant => 2
  | .Invariant => 3

def boolSize (b : Bool) : BitVec 64 := if b then 1 else 0

namespace StdHash

variable (S : StdHash)

/-- `PathHash` of a component -/
def component : Component → BitVec 64
  | .property name isRead => S.string name ^^^ boolSize isRead
  | .index index => index
  | .typeField field => field.toSize
  | .packField field => field.toSize
  | .packSlice start_index => start_index
  | .reduction resultType => S.address resultType
  | .genericPackMapping mappedType => S.address mappedType

/-- `PathHash` of a path -/
def path (p : Path) : BitVec 64 := p.foldl (fun hash c => hash ^^^ S.component c) 0

/-- `SubtypingReasoningHash` -/
def reasoning (r : SubtypingReasoning) : BitVec 64 :=
  S.path r.subPath ^^^ (S.path r.superPath <<< 1) ^^^ (r.variance.toSize <<< 1) ^^^
    (boolSize r.isAccessModifierViolation <<< 2)

/-- `DenseHashSet<SubtypingReasoning, SubtypingReasoningHash>` -/
def traits : Traits SubtypingReasoning Unit SubtypingReasoning :=
  setTraits S.reasoning fun _ _ h => by rw [eq_of_beq h]

end StdHash

abbrev SubtypingReasonings := Table SubtypingReasoning SubtypingReasoning

/-! ### Sets -/

section Sets

variable (S : StdHash) (room : ℕ → Bool)

def contains (t : SubtypingReasonings) (r : SubtypingReasoning) : DenseM Bool := do
  let found ← t.find S.traits r
  return found.isSome

/-- The body of `for (auto& r : reasoning) r = f(r)`, from an iterator on. -/
def editFrom (f : SubtypingReasoning → SubtypingReasoning) : ℕ → ℕ → SubtypingReasonings → DenseM SubtypingReasonings
  | 0, _, t => .ok t
  | fuel + 1, index, t =>
    if index < t.capacity then do
      let r ← orFault (t.data index)
      let t := t.storeItem index (f r)
      let next ← t.advance S.traits t.capacity (index + 1)
      editFrom f fuel next t
    else .ok t

def edit (f : SubtypingReasoning → SubtypingReasoning) (t : SubtypingReasonings) : DenseM SubtypingReasonings := do
  let start ← t.advance S.traits t.capacity 0
  editFrom S f t.capacity start t

/-- The reasoning that a covariant or contravariant one cancels out with -/
def inverseReasoning (r : SubtypingReasoning) : SubtypingReasoning :=
  { subPath := r.subPath, superPath := r.superPath,
    variance := if r.variance = .Covariant then .Contravariant else .Covariant }

/-- What `mergeReasonings` does with a reasoning of one set, given the other one. -/
def mergeOne (other result : SubtypingReasonings) (r : SubtypingReasoning) : DenseM SubtypingReasonings :=
  match r.variance with
  | .Invariant => do
    let (result, _) ← result.insert S.traits room r
    return result
  | .Invalid => .ok result
  | _ => do
    if ← contains S other (inverseReasoning r) then do
      let (result, _) ← result.insert S.traits room
        { subPath := r.subPath, superPath := r.superPath, variance := .Invariant }
      return result
    else do
      let (result, _) ← result.insert S.traits room r
      return result

/-- A loop of `mergeReasonings`, and whether it ended at the limit. -/
def mergeLoop (limit : ℕ) (other : SubtypingReasonings) :
    List SubtypingReasoning → SubtypingReasonings → DenseM (SubtypingReasonings × Bool)
  | [], result => .ok (result, false)
  | r :: rs, result => do
    let result ← mergeOne S room other result r
    if limit ≤ result.count then return (result, true)
    else mergeLoop limit other rs result

def mergeReasonings (limit : ℕ) (a b : SubtypingReasonings) : DenseM SubtypingReasonings := do
  let (result, full) ← mergeLoop S room limit b (← a.items S.traits) (Table.bare kEmptyReasoning)
  if full then return result
  else do
    let (result, _) ← mergeLoop S room limit a (← b.items S.traits) result
    return result

end Sets

/-! ### Results -/

structure SubtypingResult where
  isSubtype : Bool := false
  reasoning : SubtypingReasonings := Table.bare kEmptyReasoning

namespace SubtypingResult

variable (S : StdHash) (room : ℕ → Bool) (limit : ℕ)

def andAlso (self other : SubtypingResult) : DenseM SubtypingResult := do
  let reasoning ←
    if other.isSubtype = false then
      if self.isSubtype then pure other.reasoning
      else mergeReasonings S room limit self.reasoning other.reasoning
    else pure self.reasoning
  return { isSubtype := self.isSubtype && other.isSubtype, reasoning := reasoning }

def orElse (self other : SubtypingResult) : DenseM SubtypingResult := do
  let reasoning ←
    if self.isSubtype = false then
      if other.isSubtype then pure (self.reasoning.clear S.traits 32)
      else mergeReasonings S room limit self.reasoning other.reasoning
    else pure self.reasoning
  return { isSubtype := self.isSubtype || other.isSubtype, reasoning := reasoning }

/-- `if (reasoning.empty()) reasoning.insert(fresh); else for (auto& r : reasoning) r = f(r);` -/
def insertOrEdit (fresh : SubtypingReasoning) (f : SubtypingReasoning → SubtypingReasoning)
    (self : SubtypingResult) : DenseM SubtypingResult :=
  if self.reasoning.count = 0 then do
    let (reasoning, _) ← self.reasoning.insert S.traits room fresh
    return { self with reasoning := reasoning }
  else do
    let reasoning ← edit S f self.reasoning
    return { self with reasoning := reasoning }

def withSubComponent (component : Component) : SubtypingResult → DenseM SubtypingResult :=
  insertOrEdit S room { subPath := [component], superPath := kEmpty }
    fun r => { r with subPath := Path.push_front r.subPath component }

def withSuperComponent (component : Component) : SubtypingResult → DenseM SubtypingResult :=
  insertOrEdit S room { subPath := kEmpty, superPath := [component] }
    fun r => { r with superPath := Path.push_front r.superPath component }

def withSubPath (path : Path) : SubtypingResult → DenseM SubtypingResult :=
  insertOrEdit S room { subPath := path, superPath := kEmpty } fun r => { r with subPath := path ++ r.subPath }

def withSuperPath (path : Path) : SubtypingResult → DenseM SubtypingResult :=
  insertOrEdit S room { subPath := kEmpty, superPath := path } fun r => { r with superPath := path ++ r.superPath }

def withAccessModifierViolation (self : SubtypingResult) : DenseM SubtypingResult := do
  let reasoning ← edit S (fun r => { r with isAccessModifierViolation := true }) self.reasoning
  return { self with reasoning := reasoning }

/-- What `isContravariantWith` does to the reasonings of the test the other way around -/
def contravariant : SubtypingResult → DenseM SubtypingResult :=
  insertOrEdit S room { subPath := kEmpty, superPath := kEmpty, variance := .Contravariant } fun r =>
    { r with
      subPath := r.superPath, superPath := r.subPath
      variance := match r.variance with
        | .Covariant => .Contravariant
        | .Contravariant => .Covariant
        | v => v }

/-- What `isInvariantWith` does to the reasonings of the tests both ways -/
def invariant : SubtypingResult → DenseM SubtypingResult :=
  insertOrEdit S room { subPath := kEmpty, superPath := kEmpty, variance := .Invariant } fun r =>
    { r with variance := .Invariant }

end SubtypingResult

/-! ### Combinations -/

/-- An operation on one result -/
inductive Edit where
  | withSubComponent (component : Component)
  | withSuperComponent (component : Component)
  | withSubPath (path : Path)
  | withSuperPath (path : Path)
  | withAccessModifierViolation
  | contravariant
  | invariant

def Edit.exec (S : StdHash) (room : ℕ → Bool) : Edit → SubtypingResult → DenseM SubtypingResult
  | .withSubComponent component => SubtypingResult.withSubComponent S room component
  | .withSuperComponent component => SubtypingResult.withSuperComponent S room component
  | .withSubPath path => SubtypingResult.withSubPath S room path
  | .withSuperPath path => SubtypingResult.withSuperPath S room path
  | .withAccessModifierViolation => SubtypingResult.withAccessModifierViolation S
  | .contravariant => SubtypingResult.contravariant S room
  | .invariant => SubtypingResult.invariant S room

/-- A tree of combinations of results, from results that carry no reasonings -/
inductive Combination where
  | result (isSubtype : Bool)
  | edit (e : Edit) (a : Combination)
  | andAlso (a b : Combination)
  | orElse (a b : Combination)

namespace Combination

def withBothComponent (component : Component) (a : Combination) : Combination :=
  .edit (.withSuperComponent component) (.edit (.withSubComponent component) a)

def withBothPath (path : Path) (a : Combination) : Combination :=
  .edit (.withSuperPath path) (.edit (.withSubPath path) a)

/-- `isInvariantWith`, from the tests both ways -/
def isInvariantWith (covariant reversed : Combination) : Combination :=
  .edit .invariant (.andAlso covariant (.edit .contravariant reversed))

def eval (S : StdHash) (room : ℕ → Bool) (limit : ℕ) : Combination → DenseM SubtypingResult
  | .result isSubtype => .ok { isSubtype := isSubtype }
  | .edit e a => do
    let a ← a.eval S room limit
    e.exec S room a
  | .andAlso a b => do
    let a ← a.eval S room limit
    let b ← b.eval S room limit
    a.andAlso S room limit b
  | .orElse a b => do
    let a ← a.eval S room limit
    let b ← b.eval S room limit
    a.orElse S room limit b

end Combination

end Luwu.Subtyping
