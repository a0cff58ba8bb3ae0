import Luwu.Dense.Ops

/-!
# The constants of a function

`addConstant` and the functions that call it, with the hash maps of `DenseHash.h`.  A number, an integer and the components of
a vector are their bits; a string is its bytes, or the null pointer.  Indices of strings, and so the words of a key, are
natural numbers.
-/

namespace Luwu.Bytecode

open Luwu.Dense Luwu.DenseHash

/-! ### Constants and their keys -/

inductive ConstantType
  | Type_Nil
  | Type_Boolean
  | Type_Number
  | Type_Integer
  | Type_Vectorf
  | Type_Vectord
  | Type_String
  | Type_Import
  | Type_Table
  | Type_Closure
  | Type_ClassShape
deriving DecidableEq

def ConstantType.toWord : ConstantType → BitVec 32
  | .Type_Nil => 0
  | .Type_Boolean => 1
  | .Type_Number => 2
  | .Type_Integer => 3
  | .Type_Vectorf => 4
  | .Type_Vectord => 5
  | .Type_String => 6
  | .Type_Import => 7
  | .Type_Table => 8
  | .Type_Closure => 9
  | .Type_ClassShape => 10

inductive Constant
  | Type_Nil
  | Type_Boolean (valueBoolean : Bool)
  | Type_Number (valueNumber : BitVec 64)
  | Type_Integer (valueInteger64 : BitVec 64)
  | Type_Vectorf (x y z w : BitVec 32)
  | Type_Vectord (x y z w : BitVec 64)
  | Type_String (valueString : ℕ)
  | Type_Import (valueImport : BitVec 32)
  | Type_Table (valueTable : ℕ)
  | Type_Closure (valueClosure : BitVec 32)
  | Type_ClassShape (valueClassShape : ℕ)
deriving DecidableEq

structure ConstantKey where
  type : ConstantType
  value : ℕ
  extra1 : ℕ := 0
  extra2 : ℕ := 0
  extra3 : ℕ := 0
deriving DecidableEq

abbrev StringRef := Option (List (BitVec 8))

/-- The entries of the arrays from the length on mean nothing. -/
structure TableShape where
  keys : ℕ → BitVec 32
  constants : ℕ → BitVec 32
  length : ℕ
  hasConstants : Bool

/-- `memcmp` of so many entries -/
def sameEntries (length : ℕ) (a b : ℕ → BitVec 32) : Bool := (List.range length).all fun i => a i == b i

def TableShape.beq (a other : TableShape) : Bool :=
  let equal := a.length == other.length && sameEntries a.length a.keys other.keys && a.hasConstants == other.hasConstants
  if a.hasConstants then equal && sameEntries a.length a.constants other.constants else equal

instance : BEq TableShape := ⟨TableShape.beq⟩

/-! ### Hashes -/

/-- FNV-1a -/
def hashStep (hash : BitVec 32) (x : BitVec 32) : BitVec 32 := (hash ^^^ x) * 16777619

def hashRange (data : List (BitVec 8)) : BitVec 32 := data.foldl (fun hash c => hashStep hash (c.setWidth 32)) 2166136261

def StringRefHash (v : StringRef) : BitVec 64 := (hashRange (v.getD [])).setWidth 64

def TableShapeHash (v : TableShape) : BitVec 64 :=
  ((List.range v.length).foldl (fun hash i =>
    let hash := hashStep hash (v.keys i)
    if v.hasConstants then hashStep hash (v.constants i) else hash) 2166136261).setWidth 64

def ConstantKeyHash (key : ConstantKey) : BitVec 64 :=
  if key.type = .Type_Vectorf then
    let scramble (x : ℕ) : BitVec 32 := BitVec.ofNat 32 x ^^^ BitVec.ofNat 32 x >>> 17
    (scramble key.value * 73856093 ^^^ scramble (key.value / 2 ^ 32) * 19349663 ^^^
      scramble key.extra1 * 83492791 ^^^ scramble (key.extra1 / 2 ^ 32) * 39916801).setWidth 64
  else if key.type = .Type_Vectord then
    let scramble (x : ℕ) : BitVec 64 := BitVec.ofNat 64 x ^^^ BitVec.ofNat 64 x >>> 32
    ((scramble key.value * 73856093).setWidth 32 ^^^ (scramble key.extra1 * 19349663).setWidth 32 ^^^
      (scramble key.extra2 * 83492791).setWidth 32 ^^^ (scramble key.extra3 * 39916801).setWidth 32 : BitVec 32).setWidth 64
  else
    -- finalizer from MurmurHash64B
    let m : BitVec 32 := 0x5bd1e995
    let h1 := BitVec.ofNat 32 key.value
    let h2 := BitVec.ofNat 32 (key.value / 2 ^ 32) ^^^ key.type.toWord * m
    let h1 := (h1 ^^^ h2 >>> 18) * m
    let h2 := (h2 ^^^ h1 >>> 22) * m
    let h1 := (h1 ^^^ h2 >>> 17) * m
    let h2 := (h2 ^^^ h1 >>> 19) * m
    h2.setWidth 64

/-! ### Equal shapes -/

/-- What a shape lists -/
def TableShape.listed (v : TableShape) : List (BitVec 32) × Option (List (BitVec 32)) :=
  ((List.range v.length).map v.keys, if v.hasConstants then some ((List.range v.length).map v.constants) else none)

theorem sameEntries_iff (length : ℕ) (a b : ℕ → BitVec 32) :
    sameEntries length a b = true ↔ (List.range length).map a = (List.range length).map b := by
  unfold sameEntries
  rw [List.all_eq_true, List.map_inj_left]
  constructor
  · exact fun h i hi => eq_of_beq (h i hi)
  · exact fun h i hi => beq_iff_eq.mpr (h i hi)

/-- **Shapes are equal when they list the same keys and constants** in the same order. -/
theorem shape_beq_iff (a b : TableShape) : (a == b) = true ↔ a.listed = b.listed := by
  show a.beq b = true ↔ _
  unfold TableShape.beq TableShape.listed
  constructor
  · intro h
    cases hc : a.hasConstants with
    | true =>
      rw [hc] at h
      simp only [Bool.and_eq_true, beq_iff_eq, if_true, sameEntries_iff] at h
      obtain ⟨⟨⟨hlen, hkeys⟩, hconst⟩, hconstants⟩ := h
      rw [← hconst, ← hlen, hkeys, if_pos rfl, if_pos rfl, hconstants]
    | false =>
      rw [hc] at h
      simp only [Bool.and_eq_true, beq_iff_eq, Bool.false_eq_true, if_false, sameEntries_iff] at h
      obtain ⟨⟨hlen, hkeys⟩, hconst⟩ := h
      rw [← hconst, ← hlen, hkeys]
      simp
  · intro h
    obtain ⟨hkeys, hconstants⟩ := Prod.mk.inj h
    have hlen : a.length = b.length := by
      have := congrArg List.length hkeys
      rwa [List.length_map, List.length_map, List.length_range, List.length_range] at this
    cases hc : a.hasConstants with
    | true =>
      cases hc' : b.hasConstants with
      | true =>
        rw [hc, hc', if_pos rfl, if_pos rfl, ← hlen] at hconstants
        rw [← hlen] at hkeys
        simp [hlen, (sameEntries_iff _ _ _).mpr (hlen ▸ hkeys), (sameEntries_iff _ _ _).mpr (hlen ▸ Option.some.inj hconstants)]
      | false => simp [hc, hc'] at hconstants
    | false =>
      cases hc' : b.hasConstants with
      | true => simp [hc, hc'] at hconstants
      | false =>
        rw [← hlen] at hkeys
        simp [hlen, (sameEntries_iff _ _ _).mpr (hlen ▸ hkeys)]

instance : EquivBEq TableShape where
  rfl {a} := (shape_beq_iff a a).mpr rfl
  symm {a b} h := (shape_beq_iff b a).mpr ((shape_beq_iff a b).mp h).symm
  trans {a b c} h h' := (shape_beq_iff a c).mpr (((shape_beq_iff a b).mp h).trans ((shape_beq_iff b c).mp h'))

/-- The hash reads what the shape lists. -/
theorem TableShapeHash_eq (a b : TableShape) (h : (a == b) = true) : TableShapeHash a = TableShapeHash b := by
  obtain ⟨hkeys, hconstants⟩ := Prod.mk.inj ((shape_beq_iff a b).mp h)
  have hlen : a.length = b.length := by
    have := congrArg List.length hkeys
    rwa [List.length_map, List.length_map, List.length_range, List.length_range] at this
  have hconst : a.hasConstants = b.hasConstants := by
    cases hc : a.hasConstants <;> cases hc' : b.hasConstants <;> simp [hc, hc'] at hconstants ⊢
  rw [← hlen, List.map_inj_left] at hkeys
  unfold TableShapeHash
  rw [← hlen, ← hconst]
  refine congrArg (BitVec.setWidth 64) (List.foldl_ext _ _ _ ?_)
  intro hash i hi
  dsimp only
  rw [hkeys i hi]
  cases hc : a.hasConstants with
  | true =>
    rw [← hconst, hc, if_pos rfl, if_pos rfl, ← hlen] at hconstants
    rw [List.map_inj_left.mp (Option.some.inj hconstants) i hi]
  | false => rw [if_neg Bool.false_ne_true, if_neg Bool.false_ne_true]

theorem hash_congr {κ : Type} [BEq κ] [LawfulBEq κ] (hash : κ → BitVec 64) (k k' : κ) (h : (k == k') = true) : hash k = hash k' :=
  congrArg hash (eq_of_beq h)

def constantTraits : Traits ConstantKey ℤ (ConstantKey × ℤ) := mapTraits ConstantKeyHash (hash_congr ConstantKeyHash)

def stringTraits : Traits StringRef ℕ (StringRef × ℕ) := mapTraits StringRefHash (hash_congr StringRefHash)

def shapeTraits : Traits TableShape ℤ (TableShape × ℤ) := mapTraits TableShapeHash TableShapeHash_eq

/-! ### The builder -/

def kMaxConstantCount : ℕ := 2 ^ 23

/-- The part of the builder that holds constants; a class shape is what it is. -/
structure BytecodeBuilder (ClassShape : Type) where
  constants : List Constant
  tableShapes : List TableShape
  classShapes : List ClassShape
  constantMap : Table ConstantKey (ConstantKey × ℤ)
  tableShapeMap : Table TableShape (TableShape × ℤ)
  stringTable : Table StringRef (StringRef × ℕ)

namespace BytecodeBuilder

variable {ClassShape : Type} (room : ℕ → Bool) (b : BytecodeBuilder ClassShape)

/-- The key of the empty buckets; no constant has it. -/
def emptyKey : ConstantKey := ⟨.Type_Nil, 2 ^ 64 - 1, 0, 0, 0⟩

def emptyShape : TableShape := ⟨fun _ => 0, fun _ => 0, 0, false⟩

def make : BytecodeBuilder ClassShape := ⟨[], [], [], .bare emptyKey, .bare emptyShape, .bare none⟩

def addConstant (key : ConstantKey) (value : Constant) : DenseM (ℤ × BytecodeBuilder ClassShape) := do
  match ← b.constantMap.lookup constantTraits key with
  | some cache => return (cache.2, b)
  | none =>
    let id := b.constants.length
    if kMaxConstantCount ≤ id then return (-1, b)
    let constantMap ← b.constantMap.assign constantTraits room key (id : ℤ)
    return (id, { b with constantMap := constantMap, constants := b.constants ++ [value] })

def addStringTableEntry (value : StringRef) : DenseM (ℕ × BytecodeBuilder ClassShape) := do
  let (stringTable, bucket) ← b.stringTable.insert stringTraits room value
  let index ← orFault (stringTable.data bucket)
  -- 0 is reserved to mean nil
  if index.2 = 0 then
    let size := stringTable.count
    let stringTable ← stringTable.store stringTraits bucket size
    return (size, { b with stringTable := stringTable })
  else return (index.2, { b with stringTable := stringTable })

def addConstantNil : DenseM (ℤ × BytecodeBuilder ClassShape) := b.addConstant room ⟨.Type_Nil, 0, 0, 0, 0⟩ .Type_Nil

def addConstantBoolean (value : Bool) : DenseM (ℤ × BytecodeBuilder ClassShape) :=
  b.addConstant room ⟨.Type_Boolean, value.toNat, 0, 0, 0⟩ (.Type_Boolean value)

def addConstantNumber (value : BitVec 64) : DenseM (ℤ × BytecodeBuilder ClassShape) :=
  b.addConstant room ⟨.Type_Number, value.toNat, 0, 0, 0⟩ (.Type_Number value)

def addConstantInteger (value : BitVec 64) : DenseM (ℤ × BytecodeBuilder ClassShape) :=
  b.addConstant room ⟨.Type_Integer, value.toNat, 0, 0, 0⟩ (.Type_Integer value)

def addConstantVectorf (x y z w : BitVec 32) : DenseM (ℤ × BytecodeBuilder ClassShape) :=
  b.addConstant room ⟨.Type_Vectorf, x.toNat + 2 ^ 32 * y.toNat, z.toNat + 2 ^ 32 * w.toNat, 0, 0⟩ (.Type_Vectorf x y z w)

def addConstantVectord (x y z w : BitVec 64) : DenseM (ℤ × BytecodeBuilder ClassShape) :=
  b.addConstant room ⟨.Type_Vectord, x.toNat, y.toNat, z.toNat, w.toNat⟩ (.Type_Vectord x y z w)

def addConstantString (value : StringRef) : DenseM (ℤ × BytecodeBuilder ClassShape) := do
  let (index, b) ← b.addStringTableEntry room value
  b.addConstant room ⟨.Type_String, index, 0, 0, 0⟩ (.Type_String index)

def addImport (iid : BitVec 32) : DenseM (ℤ × BytecodeBuilder ClassShape) :=
  b.addConstant room ⟨.Type_Import, iid.toNat, 0, 0, 0⟩ (.Type_Import iid)

def addConstantTable (shape : TableShape) : DenseM (ℤ × BytecodeBuilder ClassShape) := do
  match ← b.tableShapeMap.lookup shapeTraits shape with
  | some cache => return (cache.2, b)
  | none =>
    let id := b.constants.length
    if kMaxConstantCount ≤ id then return (-1, b)
    let tableShapeMap ← b.tableShapeMap.assign shapeTraits room shape (id : ℤ)
    return (id, { b with
      tableShapeMap := tableShapeMap
      tableShapes := b.tableShapes ++ [shape]
      constants := b.constants ++ [.Type_Table b.tableShapes.length] })

def addConstantClosure (fid : BitVec 32) : DenseM (ℤ × BytecodeBuilder ClassShape) :=
  b.addConstant room ⟨.Type_Closure, fid.toNat, 0, 0, 0⟩ (.Type_Closure fid)

def addClassShape (shape : ClassShape) : ℤ × BytecodeBuilder ClassShape :=
  let id := b.constants.length
  if kMaxConstantCount ≤ id then (-1, b)
  else (id, { b with
    classShapes := b.classShapes ++ [shape]
    constants := b.constants ++ [.Type_ClassShape b.classShapes.length] })

/-- `DenseHashMap::clear` destroys larger arrays. -/
def thresholdToDestroy : ℕ := 32

/-- The end of a function; the strings stay. -/
def endFunction : BytecodeBuilder ClassShape :=
  { b with
    constants := []
    tableShapes := []
    constantMap := b.constantMap.clear constantTraits thresholdToDestroy
    tableShapeMap := b.tableShapeMap.clear shapeTraits thresholdToDestroy }

end BytecodeBuilder

/-! ### Programs -/

/-- A constant that is asked for -/
inductive Request
  | nil
  | boolean (value : Bool)
  | number (value : BitVec 64)
  | integer (value : BitVec 64)
  | vectorf (x y z w : BitVec 32)
  | vectord (x y z w : BitVec 64)
  | string (value : StringRef)
  | importId (iid : BitVec 32)
  | table (shape : TableShape)
  | closure (fid : BitVec 32)

inductive Call (ClassShape : Type)
  | add (r : Request)
  | classShape (shape : ClassShape)

variable {ClassShape : Type}

def BytecodeBuilder.request (room : ℕ → Bool) (b : BytecodeBuilder ClassShape) :
    Request → DenseM (ℤ × BytecodeBuilder ClassShape)
  | .nil => b.addConstantNil room
  | .boolean value => b.addConstantBoolean room value
  | .number value => b.addConstantNumber room value
  | .integer value => b.addConstantInteger room value
  | .vectorf x y z w => b.addConstantVectorf room x y z w
  | .vectord x y z w => b.addConstantVectord room x y z w
  | .string value => b.addConstantString room value
  | .importId iid => b.addImport room iid
  | .table shape => b.addConstantTable room shape
  | .closure fid => b.addConstantClosure room fid

def BytecodeBuilder.call (room : ℕ → Bool) (b : BytecodeBuilder ClassShape) :
    Call ClassShape → DenseM (ℤ × BytecodeBuilder ClassShape)
  | .add r => b.request room r
  | .classShape shape => .ok (b.addClassShape shape)

/-- The calls, each with what the allocator says then, and the indices that they answer with -/
def BytecodeBuilder.run : List (Call ClassShape × (ℕ → Bool)) → BytecodeBuilder ClassShape →
    DenseM (List ℤ × BytecodeBuilder ClassShape)
  | [], b => .ok ([], b)
  | (c, room) :: calls, b => do
    let (id, b) ← b.call room c
    let (ids, b) ← BytecodeBuilder.run calls b
    return (id :: ids, b)

end Luwu.Bytecode
