import Luwu.Normal.Types

/-!
# Normal forms

The normal form of `Normalize.h` without the parts for type variables, function types and table types, which
the types here do not have: of the tables there is only `table`, of the functions only `function`.  The
operations on the string part and on the extern part are parameters, as are the nominal roots.  No run here
meets a resource limit, and `integer` has its part (LuauIntegerType2).
-/

namespace Luwu.Normal

variable {Class : Type}

namespace Ty

def isNever : Ty Class → Bool
  | .never => true
  | _ => false

def isUnknown : Ty Class → Bool
  | .unknown => true
  | _ => false

def isAny : Ty Class → Bool
  | .any => true
  | _ => false

def isError : Ty Class → Bool
  | .error => true
  | _ => false

/-- `isPrim(ty, type)` -/
def isPrim (t : Ty Class) (p : PrimitiveType) : Bool :=
  match t with
  | .primitive q => q == p
  | _ => false

/-- The value of a boolean singleton. -/
def booleanSingleton? : Ty Class → Option Bool
  | .singleton (.boolean b) => some b
  | _ => none

end Ty

/-- The keys of the map; the type of a key is its singleton. -/
structure NormalizedStringType where
  isCofinite : Bool
  singletons : List String

namespace NormalizedStringType

def never : NormalizedStringType := ⟨false, []⟩

/-- `resetToString` -/
def string : NormalizedStringType := ⟨true, []⟩

def isNever (s : NormalizedStringType) : Bool := !s.isCofinite && s.singletons.isEmpty

def isString (s : NormalizedStringType) : Bool := s.isCofinite && s.singletons.isEmpty

def includes (s : NormalizedStringType) (str : String) : Bool :=
  if s.isString then true
  else if !s.isCofinite && s.singletons.contains str then true
  else if s.isCofinite && !s.singletons.contains str then true
  else false

def insert (s : NormalizedStringType) (str : String) : NormalizedStringType :=
  { s with singletons := s.singletons.insert str }

def erase (s : NormalizedStringType) (str : String) : NormalizedStringType :=
  { s with singletons := s.singletons.filter (· != str) }

end NormalizedStringType

/-- The classes with their negations, in the order of `ordering`. -/
structure NormalizedExternType (Class : Type) where
  externTypes : List (Class × List Class)

namespace NormalizedExternType

def never : NormalizedExternType Class := ⟨[]⟩

def isNever (e : NormalizedExternType Class) : Bool := e.externTypes.isEmpty

/-- `resetToTop` -/
def top (nominalRoots : List Class) : NormalizedExternType Class := ⟨nominalRoots.map fun root => (root, [])⟩

def isTop [DecidableEq Class] (nominalRoots : List Class) (e : NormalizedExternType Class) : Bool :=
  e.externTypes.length == nominalRoots.length && nominalRoots.all fun root => e.externTypes.lookup root == some []

/-- `pushPair` of a class that is not there -/
def single (c : Class) : NormalizedExternType Class := ⟨[(c, [])]⟩

end NormalizedExternType

/-- `functionTop` is `isTop` of the function part, which has no other parts; `tables` has `table` or nothing. -/
structure NormalizedType (Class : Type) where
  tops : Ty Class
  booleans : Ty Class
  externTypes : NormalizedExternType Class
  errors : Ty Class
  nils : Ty Class
  numbers : Ty Class
  integers : Ty Class
  strings : NormalizedStringType
  threads : Ty Class
  buffers : Ty Class
  nones : Ty Class
  tables : List (Ty Class)
  functionTop : Bool

/-- `NormalizedType norm{builtinTypes}`, and what `clearNormal` makes of any normal form -/
def NormalizedType.never : NormalizedType Class where
  tops := .never
  booleans := .never
  externTypes := .never
  errors := .never
  nils := .never
  numbers := .never
  integers := .never
  strings := .never
  threads := .never
  buffers := .never
  nones := .never
  tables := []
  functionTop := false

/-- `norm.tops = tops` in a normal form that is never -/
def NormalizedType.top (tops : Ty Class) : NormalizedType Class := { NormalizedType.never with tops := tops }

/-- `oneTableWithExtern` is the flag LuauAllowIntersectionOfOneTableWithExtern, in the new solver.
`negateExternTypes` is the loop of `negateNormal` over classes that are there. -/
structure Normalizer (Class : Type) where
  nominalRoots : List Class
  oneTableWithExtern : Bool
  unionExternTypesWithExternType : NormalizedExternType Class → Class → NormalizedExternType Class
  unionExternTypes : NormalizedExternType Class → NormalizedExternType Class → NormalizedExternType Class
  intersectExternTypesWithExternType : NormalizedExternType Class → Class → NormalizedExternType Class
  intersectExternTypes : NormalizedExternType Class → NormalizedExternType Class → NormalizedExternType Class
  negateExternTypes : NormalizedExternType Class → NormalizedExternType Class
  unionStrings : NormalizedStringType → NormalizedStringType → NormalizedStringType
  intersectStrings : NormalizedStringType → NormalizedStringType → NormalizedStringType

namespace Normalizer

/-! ### Unions -/

def unionOfTops (here there : Ty Class) : Ty Class := if here.isNever || there.isAny then there else here

def unionOfBools (here there : Ty Class) : Ty Class :=
  if here.isNever then there
  else if there.isNever then here
  else match here.booleanSingleton?, there.booleanSingleton? with
    | some hbool, some tbool => if hbool == tbool then here else .primitive .boolean
    | _, _ => .primitive .boolean

/-- `get<NeverType>(there) ? here : there` -/
def unionOfParts (here there : Ty Class) : Ty Class := if there.isNever then here else there

def unionTables (heres : List (Ty Class)) : List (Ty Class) → List (Ty Class)
  | [] => heres
  | there :: theres => if there.isPrim .table then [there] else unionTables (heres ++ [there]) theres

variable (N : Normalizer Class)

def unionNormals (here there : NormalizedType Class) : NormalizedType Class :=
  let tops := unionOfTops here.tops there.tops
  let tops := if tops.isUnknown && (here.errors.isError || there.errors.isError) then .any else tops
  if !tops.isNever then .top tops
  else
    { tops := here.tops
      booleans := unionOfBools here.booleans there.booleans
      externTypes := N.unionExternTypes here.externTypes there.externTypes
      errors := unionOfParts here.errors there.errors
      nils := unionOfParts here.nils there.nils
      numbers := unionOfParts here.numbers there.numbers
      integers := unionOfParts here.integers there.integers
      strings := N.unionStrings here.strings there.strings
      threads := unionOfParts here.threads there.threads
      buffers := unionOfParts here.buffers there.buffers
      nones := unionOfParts here.nones there.nones
      tables := unionTables here.tables there.tables
      functionTop := here.functionTop || there.functionTop }

/-! ### Negations -/

/-- `get<NeverType>(here) ? type : never` -/
def negateOfPart (here : Ty Class) (p : PrimitiveType) : Ty Class := if here.isNever then .primitive p else .never

def negateBools (here : Ty Class) : Ty Class :=
  match here with
  | .never => .primitive .boolean
  | .singleton (.boolean b) => .singleton (.boolean !b)
  | _ => .never

def negateNormal (here : NormalizedType Class) : Option (NormalizedType Class) :=
  if !here.tops.isNever then some .never
  else if !here.errors.isNever then some { NormalizedType.never with errors := here.errors }
  else do
    let tables ←
      if here.tables.isEmpty then some [.primitive .table]
      else if here.tables.length == 1 && here.tables.all (·.isPrim .table) then some []
      else none
    return {
      tops := .never
      booleans := negateBools here.booleans
      externTypes :=
        if here.externTypes.isNever then .top N.nominalRoots else N.negateExternTypes here.externTypes
      errors := .never
      nils := negateOfPart here.nils .nilType
      numbers := negateOfPart here.numbers .number
      integers := negateOfPart here.integers .integer
      strings := { here.strings with isCofinite := !here.strings.isCofinite }
      threads := negateOfPart here.threads .thread
      buffers := negateOfPart here.buffers .buffer
      nones := negateOfPart here.nones .noneType
      tables := tables
      functionTop := !here.functionTop }

def subtractPrimitive (here : NormalizedType Class) : PrimitiveType → NormalizedType Class
  | .nilType => { here with nils := .never }
  | .boolean => { here with booleans := .never }
  | .number => { here with numbers := .never }
  | .integer => { here with integers := .never }
  | .string => { here with strings := .never }
  | .thread => { here with threads := .never }
  | .buffer => { here with buffers := .never }
  | .noneType => { here with nones := .never }
  | .function => { here with functionTop := false }
  | .table => { here with tables := [] }

def subtractBoolean (here : Ty Class) (b : Bool) : Ty Class :=
  match here with
  | .never => .never
  | .primitive _ => .singleton (.boolean !b)
  | .singleton (.boolean b') => if b == b' then .never else here
  | _ => here

def subtractSingleton (here : NormalizedType Class) : SingletonType → NormalizedType Class
  | .string s =>
    { here with strings := if here.strings.isCofinite then here.strings.insert s else here.strings.erase s }
  | .boolean b => { here with booleans := subtractBoolean here.booleans b }

/-! ### Intersections -/

def intersectionOfTops (here there : Ty Class) : Ty Class :=
  if here.isNever || there.isNever then .never
  else if here.isAny || there.isAny then .any
  else .unknown

def intersectionOfBools (here there : Ty Class) : Ty Class :=
  if here.isNever then here
  else if there.isNever then there
  else match here.booleanSingleton? with
    | some hbool =>
      match there.booleanSingleton? with
      | some tbool => if hbool == tbool then here else .never
      | none => here
    | none => there

/-- `get<NeverType>(there) ? there : here` -/
def intersectionOfParts (here there : Ty Class) : Ty Class := if there.isNever then there else here

/-- `intersectTables` of lists that have nothing but `table` -/
def intersectTables (heres theres : List (Ty Class)) : List (Ty Class) := if theres.isEmpty then [] else heres

def intersectNormals (here there : NormalizedType Class) : NormalizedType Class :=
  if !there.tops.isNever then { here with tops := intersectionOfTops here.tops there.tops }
  else if !here.tops.isNever then N.unionNormals .never there
  else
    { tops := here.tops
      booleans := intersectionOfBools here.booleans there.booleans
      externTypes := N.intersectExternTypes here.externTypes there.externTypes
      errors := intersectionOfParts here.errors there.errors
      nils := intersectionOfParts here.nils there.nils
      numbers := intersectionOfParts here.numbers there.numbers
      integers := intersectionOfParts here.integers there.integers
      strings := N.intersectStrings here.strings there.strings
      threads := intersectionOfParts here.threads there.threads
      buffers := intersectionOfParts here.buffers there.buffers
      nones := intersectionOfParts here.nones there.nones
      tables := intersectTables here.tables there.tables
      functionTop := here.functionTop && there.functionTop }

/-! ### Types that are not made of others -/

/-- `unionNormalWithTy` with `any` or `unknown` -/
def unionNormalWithTop (here : NormalizedType Class) (there : Ty Class) : NormalizedType Class :=
  let tops := unionOfTops here.tops there
  .top (if tops.isUnknown && here.errors.isError then .any else tops)

def unionNormalWithPrimitive (here : NormalizedType Class) (p : PrimitiveType) : NormalizedType Class :=
  match p with
  | .boolean => { here with booleans := .primitive p }
  | .nilType => { here with nils := .primitive p }
  | .number => { here with numbers := .primitive p }
  | .integer => { here with integers := .primitive p }
  | .string => { here with strings := .string }
  | .thread => { here with threads := .primitive p }
  | .buffer => { here with buffers := .primitive p }
  | .noneType => { here with nones := .primitive p }
  | .function => { here with functionTop := true }
  | .table => { here with tables := [.primitive p] }

def unionNormalWithSingleton (here : NormalizedType Class) : SingletonType → NormalizedType Class
  | .boolean b => { here with booleans := unionOfBools here.booleans (.singleton (.boolean b)) }
  | .string s =>
    { here with strings := if here.strings.isCofinite then here.strings.erase s else here.strings.insert s }

def intersectNormalWithPrimitive (here : NormalizedType Class) (p : PrimitiveType) : NormalizedType Class :=
  match p with
  | .boolean => { NormalizedType.never with booleans := here.booleans }
  | .nilType => { NormalizedType.never with nils := here.nils }
  | .number => { NormalizedType.never with numbers := here.numbers }
  | .integer => { NormalizedType.never with integers := here.integers }
  | .string => { NormalizedType.never with strings := here.strings }
  | .thread => { NormalizedType.never with threads := here.threads }
  | .buffer => { NormalizedType.never with buffers := here.buffers }
  | .noneType => { NormalizedType.never with nones := here.nones }
  | .function => { NormalizedType.never with functionTop := here.functionTop }
  | .table => { NormalizedType.never with tables := here.tables }

def intersectNormalWithSingleton (here : NormalizedType Class) : SingletonType → NormalizedType Class
  | .boolean b =>
    { NormalizedType.never with booleans := intersectionOfBools here.booleans (.singleton (.boolean b)) }
  | .string s =>
    { NormalizedType.never with
      strings := if here.strings.includes s then NormalizedStringType.never.insert s else .never }

/-- A `table` in the new solver is taken for a shape of the class. -/
def intersectNormalWithExtern (here : NormalizedType Class) (c : Class) : NormalizedType Class :=
  if N.oneTableWithExtern then
    if here.tables.length == 0 then
      { NormalizedType.never with externTypes := N.intersectExternTypesWithExternType here.externTypes c }
    else if here.tables.length == 1 then
      { NormalizedType.never with
        externTypes :=
          if here.externTypes.isNever then .single c
          else N.intersectExternTypesWithExternType here.externTypes c }
    else .never
  else { NormalizedType.never with externTypes := N.intersectExternTypesWithExternType here.externTypes c }

/-! ### Normalizing -/

def isUnknown [DecidableEq Class] (norm : NormalizedType Class) : Bool :=
  norm.tops.isUnknown ||
    (norm.errors.isNever && norm.booleans.isPrim .boolean && norm.nils.isPrim .nilType &&
      norm.numbers.isPrim .number && norm.strings.isString && norm.threads.isPrim .thread &&
      norm.buffers.isPrim .buffer && norm.nones.isPrim .noneType && norm.integers.isPrim .integer &&
      norm.externTypes.isTop N.nominalRoots && norm.tables.any (·.isPrim .table) && norm.functionTop)

/-- The end of `normalize` -/
def normalized [DecidableEq Class] (norm : NormalizedType Class) : NormalizedType Class :=
  if N.isUnknown norm then .top .unknown else norm

/-- The end of `intersectNormalWithNegationTy`, with the normal form of the type to negate -/
def intersectNormalWithNegated (here toNegate : NormalizedType Class) : Option (NormalizedType Class) := do
  let negated ← N.negateNormal toNegate
  return N.intersectNormals here negated

variable [DecidableEq Class]

mutual

def unionNormalWithTy (here : NormalizedType Class) (there : Ty Class) : Option (NormalizedType Class) :=
  match there with
  | .any => some (unionNormalWithTop here .any)
  | .unknown => some (unionNormalWithTop here .unknown)
  | .never => some here
  | .error =>
    if here.tops.isAny then some here
    else if here.tops.isUnknown then some { here with tops := .any }
    else some { here with errors := .error }
  | .union options => if here.tops.isAny then some here else unionNormalWithOptions here options
  | .intersection parts =>
    if here.tops.isAny then some here
    else do
      let norm ← intersectNormalWithParts (.top .unknown) parts
      return N.unionNormals here norm
  | .externType c =>
    if here.tops.isAny || here.tops.isUnknown then some here
    else some { here with externTypes := N.unionExternTypesWithExternType here.externTypes c }
  | .primitive p =>
    if here.tops.isAny || here.tops.isUnknown then some here
    else some (unionNormalWithPrimitive here p)
  | .singleton s =>
    if here.tops.isAny || here.tops.isUnknown then some here
    else some (unionNormalWithSingleton here s)
  | .negation ty =>
    if here.tops.isAny || here.tops.isUnknown then some here
    else do
      let norm ← unionNormalWithTy .never ty
      let negated ← N.negateNormal (N.normalized norm)
      return N.unionNormals here negated
termination_by (sizeOf there, 0)

/-- The iterator of a union yields the options of a union among them. -/
def unionNormalWithOptions (here : NormalizedType Class) (options : List (Ty Class)) :
    Option (NormalizedType Class) :=
  match options with
  | [] => some here
  | .union inner :: options => do
    let here ← unionNormalWithOptions here inner
    unionNormalWithOptions here options
  | option :: options => do
    let here ← unionNormalWithTy here option
    unionNormalWithOptions here options
termination_by (sizeOf options, 0)

def intersectNormalWithTy (here : NormalizedType Class) (there : Ty Class) : Option (NormalizedType Class) :=
  match there with
  | .any => some { here with tops := intersectionOfTops here.tops .any }
  | .unknown => some { here with tops := intersectionOfTops here.tops .unknown }
  | there =>
    if !here.tops.isNever then unionNormalWithTy .never there
    else match there with
      | .union options => do
        let norm ← unionNormalWithOptions .never options
        return N.intersectNormals here norm
      | .intersection parts => intersectNormalWithParts here parts
      | .externType c => some (N.intersectNormalWithExtern here c)
      | .error => some { NormalizedType.never with errors := .error }
      | .primitive p => some (intersectNormalWithPrimitive here p)
      | .singleton s => some (intersectNormalWithSingleton here s)
      | .negation ty => intersectNormalWithNegationOf here ty
      -- `never` clears nothing but the classes
      | _ => some { here with externTypes := .never }
termination_by (sizeOf there, 1)

/-- The branch of `intersectNormalWithTy` for a negation.  Of an intersection it is not implemented. -/
def intersectNormalWithNegationOf (here : NormalizedType Class) (ty : Ty Class) :
    Option (NormalizedType Class) :=
  match ty with
  | .primitive p => some (subtractPrimitive here p)
  | .singleton s => some (subtractSingleton here s)
  | .externType c => do
    let norm ← unionNormalWithTy .never (.externType c)
    N.intersectNormalWithNegated here (N.normalized norm)
  | .union options => intersectNormalWithNegations here options
  | .any => some here
  | .never => some here
  | .unknown => some .never
  | .error => some { NormalizedType.never with errors := .error }
  | .negation ty => intersectNormalWithTy here ty
  | .intersection _ => some here
termination_by (sizeOf ty, 1)

/-- `for (TypeId part : itv->options)` -/
def intersectNormalWithNegations (here : NormalizedType Class) (options : List (Ty Class)) :
    Option (NormalizedType Class) :=
  match options with
  | [] => some here
  | part :: options => do
    let norm ← unionNormalWithTy .never part
    let here ← N.intersectNormalWithNegated here (N.normalized norm)
    intersectNormalWithNegations here options
termination_by (sizeOf options, 0)

def intersectNormalWithParts (here : NormalizedType Class) (parts : List (Ty Class)) :
    Option (NormalizedType Class) :=
  match parts with
  | [] => some here
  | .intersection inner :: parts => do
    let here ← intersectNormalWithParts here inner
    intersectNormalWithParts here parts
  | part :: parts => do
    let here ← intersectNormalWithTy here part
    intersectNormalWithParts here parts
termination_by (sizeOf parts, 0)

end

def normalize (ty : Ty Class) : Option (NormalizedType Class) := do
  let norm ← N.unionNormalWithTy .never ty
  return N.normalized norm

/-! ### Back to types -/

/-- The part of a union, unless it is never -/
def typeOfPart (t : Ty Class) : List (Ty Class) := if t.isNever then [] else [t]

def typeOfExtern (p : Class × List Class) : Ty Class :=
  if p.2.isEmpty then .externType p.1 else .intersection (.externType p.1 :: p.2.map fun n => .negation (.externType n))

def typesOfExterns (e : NormalizedExternType Class) : List (Ty Class) :=
  if e.isTop N.nominalRoots then N.nominalRoots.map .externType
  else match e.externTypes.map typeOfExtern with
    | [] => []
    | [t] => [t]
    | parts => [.union parts]

def typesOfStrings (s : NormalizedStringType) : List (Ty Class) :=
  if s.isString then [.primitive .string]
  else if !s.isCofinite then s.singletons.map fun str => .singleton (.string str)
  else [.intersection (.primitive .string :: s.singletons.map fun str => .negation (.singleton (.string str)))]

def typeFromNormal (norm : NormalizedType Class) : Ty Class :=
  if !norm.tops.isNever then norm.tops
  else
    let result := typeOfPart norm.booleans ++ N.typesOfExterns norm.externTypes ++ typeOfPart norm.errors ++
      (if norm.functionTop then [.primitive .function] else []) ++ typeOfPart norm.nils ++
      typeOfPart norm.numbers ++ typeOfPart norm.integers ++ typesOfStrings norm.strings ++
      (if norm.threads.isNever then [] else [.primitive .thread]) ++
      (if norm.buffers.isNever then [] else [.primitive .buffer]) ++
      (if norm.nones.isNever then [] else [.primitive .noneType]) ++ norm.tables
    match result with
    | [] => .never
    | [t] => t
    | _ => .union result

end Normalizer

end Luwu.Normal

/-!
## The meaning of normal forms

A normal form has the values of its parts (`NormalizedType.Has`).  `Normalized` is what the comments of
`Normalize.h` say of the parts, and `Exact` that the operations on strings and classes are those on sets.
-/

namespace Luwu.Normal

variable {Class Obj : Type}

def NormalizedStringType.Has (n : NormalizedStringType) (s : String) : Prop :=
  if n.isCofinite then s ∉ n.singletons else s ∈ n.singletons

section Meaning

variable (W : Classes Class Obj)

def NormalizedExternType.Has (e : NormalizedExternType Class) (o : Obj) : Prop :=
  ∃ p ∈ e.externTypes, W.instanceOf o p.1 ∧ ∀ n ∈ p.2, ¬ W.instanceOf o n

/-- The values of a normal form. -/
def NormalizedType.Has (n : NormalizedType Class) (v : Value Obj) : Prop :=
  n.tops.Has W v ∨ n.booleans.Has W v ∨ (∃ o, v = .object o ∧ n.externTypes.Has W o) ∨ n.errors.Has W v ∨
    n.nils.Has W v ∨ n.numbers.Has W v ∨ n.integers.Has W v ∨ (∃ s, v = .string s ∧ n.strings.Has s) ∨
    n.threads.Has W v ∨ n.buffers.Has W v ∨ n.nones.Has W v ∨ Ty.HasSome W n.tables v ∨
    (n.functionTop = true ∧ PrimitiveType.function.Has v)

/-- The operations on the string part and on the extern part are those on sets. -/
structure Exact (N : Normalizer Class) : Prop where
  roots : N.nominalRoots = W.roots
  unionExternTypesWithExternType : ∀ e c o,
    (N.unionExternTypesWithExternType e c).Has W o ↔ e.Has W o ∨ W.instanceOf o c
  unionExternTypes : ∀ e e' o, (N.unionExternTypes e e').Has W o ↔ e.Has W o ∨ e'.Has W o
  intersectExternTypesWithExternType : ∀ e c o,
    (N.intersectExternTypesWithExternType e c).Has W o ↔ e.Has W o ∧ W.instanceOf o c
  intersectExternTypes : ∀ e e' o, (N.intersectExternTypes e e').Has W o ↔ e.Has W o ∧ e'.Has W o
  negateExternTypes : ∀ e : NormalizedExternType Class, e.isNever = false →
    ∀ o, (N.negateExternTypes e).Has W o ↔ ¬ e.Has W o
  unionStrings : ∀ n n' s, (N.unionStrings n n').Has s ↔ n.Has s ∨ n'.Has s
  intersectStrings : ∀ n n' s, (N.intersectStrings n n').Has s ↔ n.Has s ∧ n'.Has s

end Meaning

/-- A part is never, or the type of its kind. -/
def IsPart (kind t : Ty Class) : Prop := t = .never ∨ t = kind

def IsBools (t : Ty Class) : Prop := IsPart (.primitive .boolean) t ∨ ∃ b, t = .singleton (.boolean b)

/-- What the comments of the fields say, and `assertInvariant` checks. -/
structure Normalized (n : NormalizedType Class) : Prop where
  tops : n.tops = .never ∨ n.tops = .unknown ∨ n.tops = .any
  booleans : IsBools n.booleans
  errors : IsPart .error n.errors
  nils : IsPart (.primitive .nilType) n.nils
  numbers : IsPart (.primitive .number) n.numbers
  integers : IsPart (.primitive .integer) n.integers
  threads : IsPart (.primitive .thread) n.threads
  buffers : IsPart (.primitive .buffer) n.buffers
  nones : IsPart (.primitive .noneType) n.nones
  tables : n.tables = [] ∨ n.tables = [.primitive .table]
  alone : n.tops ≠ .never → n = .top n.tops

variable {W : Classes Class Obj} {N : Normalizer Class} {n here there : NormalizedType Class}
  {p : PrimitiveType} {t u : Ty Class} {v : Value Obj}

/-! ### The parts one by one -/

theorem IsPart.has {kind : Ty Class} (h : IsPart kind t) (hv : t.Has W v) : kind.Has W v := by
  obtain rfl | rfl := h
  · exact absurd hv id
  · exact hv

theorem IsBools.has (h : IsBools t) (hv : t.Has W v) : ∃ b, v = .boolean b := by
  obtain hpart | ⟨b, rfl⟩ := h
  · have hp : PrimitiveType.boolean.Has v := hpart.has hv
    cases v with
    | boolean b => exact ⟨b, rfl⟩
    | _ => exact absurd hp id
  · have hs : (SingletonType.boolean b).Has v := hv
    cases v with
    | boolean b' => exact ⟨b', rfl⟩
    | _ => exact absurd hs id

/-! ### The values of a normal form, kind by kind -/

/-- The part of a normal form for a value, the tops apart. -/
def NormalizedType.Part (W : Classes Class Obj) (n : NormalizedType Class) : Value Obj → Prop
  | .nil => n.nils.Has W .nil
  | .none => n.nones.Has W .none
  | .boolean b => n.booleans.Has W (.boolean b)
  | .number i => n.numbers.Has W (.number i)
  | .integer i => n.integers.Has W (.integer i)
  | .string s => n.strings.Has s
  | .thread i => n.threads.Has W (.thread i)
  | .buffer i => n.buffers.Has W (.buffer i)
  | .function _ => n.functionTop = true
  | .table i => Ty.HasSome W n.tables (.table i)
  | .object o => n.externTypes.Has W o
  | .error => n.errors.Has W .error

theorem Normalized.has_iff (h : Normalized n) : n.Has W v ↔ n.tops.Has W v ∨ n.Part W v := by
  have hbool : n.booleans.Has W v → _ := h.booleans.has
  have hnil : n.nils.Has W v → PrimitiveType.nilType.Has v := h.nils.has
  have hnumber : n.numbers.Has W v → PrimitiveType.number.Has v := h.numbers.has
  have hinteger : n.integers.Has W v → PrimitiveType.integer.Has v := h.integers.has
  have hthread : n.threads.Has W v → PrimitiveType.thread.Has v := h.threads.has
  have hbuffer : n.buffers.Has W v → PrimitiveType.buffer.Has v := h.buffers.has
  have hnone : n.nones.Has W v → PrimitiveType.noneType.Has v := h.nones.has
  have herror : n.errors.Has W v → v = .error := h.errors.has
  have htable : Ty.HasSome W n.tables v → PrimitiveType.table.Has v := by
    intro hv
    obtain ⟨t, ht, hv⟩ := hasSome_iff.mp hv
    obtain he | he := h.tables
    · rw [he] at ht
      cases ht
    · rw [he, List.mem_singleton] at ht
      rw [ht] at hv
      exact hv
  unfold NormalizedType.Has
  cases v <;> simp_all [NormalizedType.Part, PrimitiveType.Has]

end Luwu.Normal
