import Mathlib.Logic.Function.Basic
import Luwu.Dense.BitSet
import Luwu.Dense.Memory

/-!
# DenseHashTable2

The hash table of `DenseHash2.h`: linear probing over a bit set of the buckets in use, Fibonacci hashing, and
deletion by moving items back.  Reading what is not there, an undefined shift, an assertion that fails and a
loop without end are faults.
-/

namespace Luwu.DenseHash2

open Function Luwu.Dense

/-- The template arguments: `Hash`, and the item interface of a set or a map.  `Eq` is `==`. -/
structure Traits (Key Value Item : Type) [BEq Key] [Inhabited Value] where
  hasher : Key → BitVec 64
  getKey : Item → Key
  setKey : Key → Item
  getValue : Item → Value
  setValue : Item → Value → Item
  hasher_eq : ∀ k k', (k == k') = true → hasher k = hasher k'
  getKey_setKey : ∀ k, getKey (setKey k) = k
  getValue_setKey : ∀ k, getValue (setKey k) = default
  getKey_setValue : ∀ a v, getKey (setValue a v) = getKey a
  getValue_setValue : ∀ a v, getValue (setValue a v) = v

/-- `ItemInterfaceSet2`; the item of a set has no value. -/
def setTraits {Key : Type} [BEq Key] (hasher : Key → BitVec 64)
    (hasher_eq : ∀ k k', (k == k') = true → hasher k = hasher k') : Traits Key Unit Key where
  hasher := hasher
  getKey := id
  setKey := id
  getValue := fun _ => ⟨⟩
  setValue := fun a _ => a
  hasher_eq := hasher_eq
  getKey_setKey := fun k => @rfl Key k
  getValue_setKey := fun _ => rfl
  getKey_setValue := fun a _ => @rfl Key a
  getValue_setValue := fun _ _ => rfl

theorem mapTraits_default {Key Value : Type} [Inhabited Value] (k : Key) : (k, (default : Value)).2 = default := rfl

theorem mapTraits_key {Key Value : Type} (a : Key × Value) (v : Value) : (a.1, v).1 = a.1 := rfl

/-- `ItemInterfaceMap2` -/
def mapTraits {Key Value : Type} [BEq Key] [Inhabited Value] (hasher : Key → BitVec 64)
    (hasher_eq : ∀ k k', (k == k') = true → hasher k = hasher k') : Traits Key Value (Key × Value) where
  hasher := hasher
  getKey := Prod.fst
  setKey := fun key => (key, default)
  getValue := Prod.snd
  setValue := fun a v => (a.1, v)
  hasher_eq := hasher_eq
  getKey_setKey := fun k => @rfl Key k
  getValue_setKey := mapTraits_default
  getKey_setValue := mapTraits_key
  getValue_setValue := fun _ v => @rfl Value v

/-- `data` has an item where one is constructed. -/
structure Table (Item : Type) where
  data : ℕ → Option Item
  usedTable : BitSet
  capacity : ℕ
  count : ℕ
  hashShift : ℕ

structure BucketResult where
  bucket : ℕ
  found : Bool

/-- The subtraction of `size_t`. -/
def sub64 (a b : ℕ) : ℕ := (a + 2 ^ 64 - b) % 2 ^ 64

namespace Table

variable {Key Value Item : Type} [BEq Key] [Inhabited Value]

/-- What a table is after `destroy`, or when it was moved from. -/
def empty : Table Item := ⟨fun _ => none, BitSet.make 0, 0, 0, 64⟩

/-- `DenseHashTable2(buckets)`; `buckets` has to be power-of-two or zero. -/
def make (room : ℕ → Bool) (buckets : ℕ) : DenseM (Table Item) := do
  assertion ((buckets &&& (buckets - 1)) == 0)
  if buckets = 0 then return empty
  else do
    operatorNew room buckets
    return ⟨fun _ => none, BitSet.make buckets, buckets, 0, 64 - (BitVec.ofNat 64 buckets).ctz.toNat⟩

variable (T : Traits Key Value Item)

/-- A shift by the whole width is undefined. -/
def doHash (t : Table Item) (key : Key) : DenseM ℕ :=
  if t.hashShift < 64 then .ok ((T.hasher key * 11400714819323198485) >>> t.hashShift).toNat
  else .error .fault

def getBucketLoop (t : Table Item) (key : Key) : ℕ → ℕ → DenseM BucketResult
  | 0, _ => .error .fault
  | fuel + 1, bucket =>
    match t.usedTable.contains bucket with
    | none => .error .fault
    | some false => .ok ⟨bucket, false⟩
    | some true =>
      match t.data bucket with
      | none => .error .fault
      | some item =>
        if T.getKey item == key then .ok ⟨bucket, true⟩
        else getBucketLoop t key fuel ((bucket + 1) &&& (t.capacity - 1))

/-- The bucket where `key` was found, or the first empty bucket. -/
def getBucket (t : Table Item) (key : Key) : DenseM BucketResult := do
  assertion (t.count < t.capacity)
  let bucket ← t.doHash T key
  t.getBucketLoop T key t.capacity bucket

/-- `std::move(data[j])` into `data[i]`, with the bits of both. -/
def moveItem (t : Table Item) (i j : ℕ) (item : Item) : DenseM (Table Item) := do
  let used ← orFault (t.usedTable.set i true)
  let used ← orFault (used.set j false)
  return { t with usedTable := used, data := update (update t.data i (some item)) j none }

/-- The end of `doErase`. -/
def eraseLast (t : Table Item) (i : ℕ) : DenseM (Table Item) := do
  let used ← orFault (t.usedTable.set i false)
  return { t with usedTable := used, data := update t.data i none, count := t.count - 1 }

/-- Whether the item with home `r` moves from `j` to `i`. -/
def moves (t : Table Item) (i j r : ℕ) : Bool :=
  (sub64 i r &&& (t.capacity - 1)) < (sub64 j r &&& (t.capacity - 1))

def doEraseLoop : ℕ → Table Item → ℕ → ℕ → DenseM (Table Item)
  | 0, _, _, _ => .error .fault
  | fuel + 1, t, i, j =>
    let j := (j + 1) &&& (t.capacity - 1)
    match t.usedTable.contains j with
    | none => .error .fault
    | some false => t.eraseLast i
    | some true =>
      match t.data j with
      | none => .error .fault
      | some curr => do
        let r ← t.doHash T (T.getKey curr)
        if t.moves i j r then do
          let t ← t.moveItem i j curr
          doEraseLoop fuel t j j
        else doEraseLoop fuel t i j

def doErase (t : Table Item) (bucket : ℕ) : DenseM (Table Item) := doEraseLoop T t.capacity t bucket bucket

def erase (t : Table Item) (key : Key) : DenseM (Table Item) :=
  if t.count = 0 then .ok t
  else do
    let result ← t.getBucket T key
    if result.found then t.doErase T result.bucket else return t

/-- A new item in an empty bucket. -/
def addItem (t : Table Item) (bucket : ℕ) (item : Item) : DenseM (Table Item) := do
  let used ← orFault (t.usedTable.set bucket true)
  return { t with usedTable := used, data := update t.data bucket (some item), count := t.count + 1 }

/-- The bucket of the item is what the pointer says. -/
def insert_unsafe (t : Table Item) (key : Key) : DenseM (Table Item × ℕ) := do
  let result ← t.getBucket T key
  if result.found then return (t, result.bucket)
  else do
    let t ← t.addItem result.bucket (T.setKey key)
    return (t, result.bucket)

def find (t : Table Item) (key : Key) : DenseM (Option ℕ) :=
  if t.count = 0 then .ok none
  else do
    let result ← t.getBucket T key
    return if result.found then some result.bucket else none

/-- The items of the old table go into the new one. -/
def growLoop (t : Table Item) : List ℕ → Table Item → DenseM (Table Item)
  | [], newtable => .ok newtable
  | bucket :: buckets, newtable => do
    let item ← orFault (t.data bucket)
    let result ← newtable.getBucket T (T.getKey item)
    assertion !result.found
    let newtable ← newtable.addItem result.bucket item
    growLoop t buckets newtable

def grow (room : ℕ → Bool) (t : Table Item) : DenseM (Table Item) := do
  let newtable ← make room (if t.capacity = 0 then 16 else t.capacity * 2)
  let newtable ← growLoop T t t.usedTable.indices newtable
  assertion (t.count == newtable.count)
  return { newtable with count := t.count }

def growUnless (room : ℕ → Bool) (t : Table Item) : Option ℕ → DenseM (Table Item)
  | some _ => .ok t
  | none => grow T room t

def rehash_if_full (room : ℕ → Bool) (t : Table Item) (key : Key) : DenseM (Table Item) :=
  if t.capacity * 3 / 4 ≤ t.count then do
    let found ← t.find T key
    growUnless T room t found
  else .ok t

def clear (t : Table Item) (thresholdToDestroy : ℕ) : Table Item :=
  if t.count = 0 then t
  else if thresholdToDestroy < t.capacity then empty
  else { t with data := fun _ => none, usedTable := t.usedTable.clear, count := 0 }

/-- The items of the other table, one by one. -/
def copyLoop (other : Table Item) : List ℕ → Table Item → DenseM (Table Item)
  | [], t => .ok t
  | bucket :: buckets, t => do
    let item ← orFault (other.data bucket)
    let used ← orFault (t.usedTable.set bucket true)
    copyLoop other buckets { t with usedTable := used, data := update t.data bucket (some item) }

/-- `DenseHashTable2(const DenseHashTable2& other)` -/
def copy (room : ℕ → Bool) (other : Table Item) : DenseM (Table Item) :=
  if other.capacity = 0 then .ok ⟨fun _ => none, BitSet.make 0, 0, other.count, other.hashShift⟩
  else do
    operatorNew room other.capacity
    copyLoop other other.usedTable.indices
      ⟨fun _ => none, BitSet.make other.capacity, other.capacity, other.count, other.hashShift⟩

/-! ### Iteration -/

/-- `while (index < capacity && !usedTable.contains(index)) index++` -/
def advance (t : Table Item) : ℕ → ℕ → DenseM ℕ
  | 0, index => .ok index
  | fuel + 1, index =>
    if index < t.capacity then
      match t.usedTable.contains index with
      | none => .error .fault
      | some true => .ok index
      | some false => advance t fuel (index + 1)
    else .ok index

/-- The items from an iterator on. -/
def itemsFrom (t : Table Item) : ℕ → ℕ → DenseM (List Item)
  | 0, _ => .ok []
  | fuel + 1, index =>
    if index < t.capacity then do
      let item ← orFault (t.data index)
      let next ← t.advance t.capacity (index + 1)
      let items ← itemsFrom t fuel next
      return item :: items
    else .ok []

/-- `for (auto& item : table)` -/
def items (t : Table Item) : DenseM (List Item) := do
  let start ← t.advance t.capacity 0
  t.itemsFrom t.capacity start

/-! ### Sets and maps -/

/-- `DenseHashSet2::insert`, and `DenseHashMap2::operator[]`, which answers a reference to the item. -/
def insert (room : ℕ → Bool) (t : Table Item) (key : Key) : DenseM (Table Item × ℕ) := do
  let t ← t.rehash_if_full T room key
  t.insert_unsafe T key

/-- A value is stored through a reference. -/
def store (t : Table Item) (bucket : ℕ) (v : Value) : DenseM (Table Item) := do
  let item ← orFault (t.data bucket)
  return { t with data := update t.data bucket (some (T.setValue item v)) }

/-- `table[key] = v` -/
def assign (room : ℕ → Bool) (t : Table Item) (key : Key) (v : Value) : DenseM (Table Item) := do
  let (t, bucket) ← t.insert T room key
  t.store T bucket v

/-- `try_insert`, and whether the value is fresh -/
def try_insert (room : ℕ → Bool) (t : Table Item) (key : Key) (v : Value) :
    DenseM (Table Item × Bool) := do
  let t ← t.rehash_if_full T room key
  let before := t.count
  let (t, slot) ← t.insert_unsafe T key
  if before < t.count then do
    let t ← t.store T slot v
    return (t, true)
  else return (t, false)

/-- The item that `find` points to. -/
def lookup (t : Table Item) (key : Key) : DenseM (Option Item) := do
  match ← t.find T key with
  | none => return none
  | some bucket => return some (← orFault (t.data bucket))

/-- A value is stored through what `find` points to. -/
def change (t : Table Item) (key : Key) (v : Value) : DenseM (Table Item) := do
  match ← t.find T key with
  | none => return t
  | some bucket => t.store T bucket v

end Table

end Luwu.DenseHash2
