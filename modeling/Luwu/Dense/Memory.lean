import Mathlib.Algebra.Group.Nat.Defs
import Mathlib.Data.List.Perm.Basic
import Mathlib.Logic.Function.Basic

/-!
# The hash tables of the compiler and the analyzer

What both share: faults, memory, and the answers of their operations.  An allocation fails when `room` says
so, and always when the array would be larger than any object can be.
-/

namespace Luwu.Dense

inductive DenseError where
  | fault
  | badalloc
  deriving DecidableEq

abbrev DenseM := Except DenseError

def orFault {α : Type} : Option α → DenseM α
  | some a => .ok a
  | none => .error .fault

/-- `LUAU_ASSERT` -/
def assertion (b : Bool) : DenseM Unit := if b then .ok ⟨⟩ else .error .fault

/-- No array has more buckets. -/
def maxBuckets : ℕ := 2 ^ 62

/-- `::operator new(sizeof(Item) * buckets)` -/
def operatorNew (room : ℕ → Bool) (buckets : ℕ) : DenseM Unit :=
  if buckets ≤ maxBuckets ∧ room buckets = true then .ok ⟨⟩ else .error .badalloc

inductive DenseAnswer (Item : Type) where
  | done
  | item (a : Option Item)
  | fresh (b : Bool)
  | size (n : ℕ)
  | items (l : List Item)
  | badalloc

/-- The answer is the one of the finite map, the items in any order. -/
def DenseAnswer.Is {Item : Type} : DenseAnswer Item → DenseAnswer Item → Prop
  | .items l, .items l' => l.Perm l'
  | a, a' => a = a'

end Luwu.Dense

/-!
## DenseHashTable

The insert-only hash table of `DenseHash.h`: quadratic probing, and a key that marks the buckets that are
empty.  The triangular steps are taken modulo the capacity.
-/

namespace Luwu.DenseHash

open Function Luwu.Dense

/-- The template arguments: `Hash`, and the item interface of a set or a map.  `Eq` is `==`. -/
structure Traits (Key Value Item : Type) [BEq Key] [Inhabited Value] where
  hasher : Key → BitVec 64
  getKey : Item → Key
  setKey : Item → Key → Item
  /-- an item that `fill` makes -/
  filler : Key → Item
  getValue : Item → Value
  setValue : Item → Value → Item
  hasher_eq : ∀ k k', (k == k') = true → hasher k = hasher k'
  getKey_setKey : ∀ a k, getKey (setKey a k) = k
  getValue_setKey : ∀ a k, getValue (setKey a k) = getValue a
  getKey_filler : ∀ k, getKey (filler k) = k
  getValue_filler : ∀ k, getValue (filler k) = default
  getKey_setValue : ∀ a v, getKey (setValue a v) = getKey a
  getValue_setValue : ∀ a v, getValue (setValue a v) = v
  ext : ∀ a b, getKey a = getKey b → getValue a = getValue b → a = b

/-- `ItemInterfaceSet`; the item of a set has no value. -/
def setTraits {Key : Type} [BEq Key] (hasher : Key → BitVec 64)
    (hasher_eq : ∀ k k', (k == k') = true → hasher k = hasher k') : Traits Key Unit Key where
  hasher := hasher
  getKey := id
  setKey := fun _ k => k
  filler := id
  getValue := fun _ => ⟨⟩
  setValue := fun a _ => a
  hasher_eq := hasher_eq
  getKey_setKey := fun _ _ => rfl
  getValue_setKey := fun _ _ => rfl
  getKey_filler := fun _ => rfl
  getValue_filler := fun _ => rfl
  getKey_setValue := fun _ _ => rfl
  getValue_setValue := fun _ _ => rfl
  ext := fun _ _ h _ => h

/-- `ItemInterfaceMap` -/
def mapTraits {Key Value : Type} [BEq Key] [Inhabited Value] (hasher : Key → BitVec 64)
    (hasher_eq : ∀ k k', (k == k') = true → hasher k = hasher k') : Traits Key Value (Key × Value) where
  hasher := hasher
  getKey := Prod.fst
  setKey := fun a k => (k, a.2)
  filler := fun k => (k, default)
  getValue := Prod.snd
  setValue := fun a v => (a.1, v)
  hasher_eq := hasher_eq
  getKey_setKey := fun _ _ => rfl
  getValue_setKey := fun _ _ => rfl
  getKey_filler := fun _ => rfl
  getValue_filler := fun _ => rfl
  getKey_setValue := fun _ _ => rfl
  getValue_setValue := fun _ _ => rfl
  ext := fun _ _ h h' => Prod.ext h h'

/-- `data` has an item in every bucket of the array. -/
structure Table (Key Item : Type) where
  data : ℕ → Option Item
  capacity : ℕ
  count : ℕ
  empty_key : Key

namespace Table

variable {Key Value Item : Type} [BEq Key] [Inhabited Value] (T : Traits Key Value Item)

/-- A table without an array. -/
def bare (empty_key : Key) : Table Key Item := ⟨fun _ => none, 0, 0, empty_key⟩

/-- `ItemInterface::fill` -/
def fill (count : ℕ) (key : Key) : ℕ → Option Item := fun i => if i < count then some (T.filler key) else none

/-- `DenseHashTable(empty_key, buckets)`; `buckets` has to be power-of-two or zero. -/
def make (room : ℕ → Bool) (empty_key : Key) (buckets : ℕ) : DenseM (Table Key Item) := do
  assertion (empty_key == empty_key)
  assertion ((buckets &&& (buckets - 1)) == 0)
  if buckets = 0 then return bare empty_key
  else do
    operatorNew room buckets
    return ⟨fill T buckets empty_key, buckets, 0, empty_key⟩

/-- `hasher(key) & hashmod` -/
def start (t : Table Key Item) (key : Key) : ℕ := (T.hasher key).toNat &&& (t.capacity - 1)

/-- Where the probing of `insert_unsafe` ends, and whether the bucket is empty. -/
def insertLoop (t : Table Key Item) (key : Key) : ℕ → ℕ → ℕ → DenseM (ℕ × Bool)
  | 0, _, _ => .error .fault
  | fuel + 1, probe, bucket =>
    match t.data bucket with
    | none => .error .fault
    | some probe_item =>
      if T.getKey probe_item == t.empty_key then .ok (bucket, true)
      else if T.getKey probe_item == key then .ok (bucket, false)
      else insertLoop t key fuel (probe + 1) ((bucket + probe + 1) &&& (t.capacity - 1))

/-- The bucket of the item is what the pointer says. -/
def insert_unsafe (t : Table Key Item) (key : Key) : DenseM (Table Key Item × ℕ) := do
  assertion !(key == t.empty_key)
  let (bucket, empty) ← t.insertLoop T key t.capacity 0 (t.start T key)
  if empty then do
    let probe_item ← orFault (t.data bucket)
    return ({ t with data := update t.data bucket (some (T.setKey probe_item key)), count := t.count + 1 }, bucket)
  else return (t, bucket)

def findLoop (t : Table Key Item) (key : Key) : ℕ → ℕ → ℕ → DenseM (Option ℕ)
  | 0, _, _ => .error .fault
  | fuel + 1, probe, bucket =>
    match t.data bucket with
    | none => .error .fault
    | some probe_item =>
      if T.getKey probe_item == key then .ok (some bucket)
      else if T.getKey probe_item == t.empty_key then .ok none
      else findLoop t key fuel (probe + 1) ((bucket + probe + 1) &&& (t.capacity - 1))

def find (t : Table Key Item) (key : Key) : DenseM (Option ℕ) :=
  if t.count = 0 then .ok none
  else if key == t.empty_key then .ok none
  else t.findLoop T key t.capacity 0 (t.start T key)

/-- `*item = std::move(data[i])` -/
def storeItem (t : Table Key Item) (bucket : ℕ) (item : Item) : Table Key Item :=
  { t with data := update t.data bucket (some item) }

/-- The items of the old table go into the new one. -/
def rehashLoop (t : Table Key Item) : List ℕ → Table Key Item → DenseM (Table Key Item)
  | [], newtable => .ok newtable
  | i :: is, newtable => do
    let item ← orFault (t.data i)
    if T.getKey item == t.empty_key then rehashLoop t is newtable
    else do
      let (newtable, bucket) ← newtable.insert_unsafe T (T.getKey item)
      rehashLoop t is (newtable.storeItem bucket item)

def rehash (room : ℕ → Bool) (t : Table Key Item) : DenseM (Table Key Item) := do
  let newtable ← make T room t.empty_key (if t.capacity = 0 then 16 else t.capacity * 2)
  let newtable ← rehashLoop T t (List.range t.capacity) newtable
  assertion (t.count == newtable.count)
  return { t with data := newtable.data, capacity := newtable.capacity }

def rehashUnless (room : ℕ → Bool) (t : Table Key Item) : Option ℕ → DenseM (Table Key Item)
  | some _ => .ok t
  | none => rehash T room t

def rehash_if_full (room : ℕ → Bool) (t : Table Key Item) (key : Key) : DenseM (Table Key Item) :=
  if t.capacity * 3 / 4 ≤ t.count then do
    let found ← t.find T key
    rehashUnless T room t found
  else .ok t

def clear (t : Table Key Item) (thresholdToDestroy : ℕ) : Table Key Item :=
  if t.count = 0 then t
  else if thresholdToDestroy < t.capacity then bare t.empty_key
  else { t with data := fill T t.capacity t.empty_key, count := 0 }

/-- `DenseHashTable(const DenseHashTable& other)` -/
def copy (room : ℕ → Bool) (other : Table Key Item) : DenseM (Table Key Item) :=
  if other.capacity = 0 then .ok ⟨fun _ => none, 0, other.count, other.empty_key⟩
  else do
    operatorNew room other.capacity
    return ⟨fun i => if i < other.capacity then other.data i else none, other.capacity, other.count, other.empty_key⟩

/-! ### Iteration -/

/-- `while (index < capacity && eq(getKey(data[index]), empty_key)) index++` -/
def advance (t : Table Key Item) : ℕ → ℕ → DenseM ℕ
  | 0, index => .ok index
  | fuel + 1, index =>
    if index < t.capacity then
      match t.data index with
      | none => .error .fault
      | some item => if T.getKey item == t.empty_key then advance t fuel (index + 1) else .ok index
    else .ok index

/-- The items from an iterator on. -/
def itemsFrom (t : Table Key Item) : ℕ → ℕ → DenseM (List Item)
  | 0, _ => .ok []
  | fuel + 1, index =>
    if index < t.capacity then do
      let item ← orFault (t.data index)
      let next ← t.advance T t.capacity (index + 1)
      let items ← itemsFrom t fuel next
      return item :: items
    else .ok []

/-- `for (auto& item : table)` -/
def items (t : Table Key Item) : DenseM (List Item) := do
  let start ← t.advance T t.capacity 0
  t.itemsFrom T t.capacity start

/-! ### Sets and maps -/

/-- `DenseHashSet::insert`, and `DenseHashMap::operator[]`, which answers a reference to the item. -/
def insert (room : ℕ → Bool) (t : Table Key Item) (key : Key) : DenseM (Table Key Item × ℕ) := do
  let t ← t.rehash_if_full T room key
  t.insert_unsafe T key

/-- A value is stored through a reference. -/
def store (t : Table Key Item) (bucket : ℕ) (v : Value) : DenseM (Table Key Item) := do
  let item ← orFault (t.data bucket)
  return t.storeItem bucket (T.setValue item v)

/-- `table[key] = v` -/
def assign (room : ℕ → Bool) (t : Table Key Item) (key : Key) (v : Value) : DenseM (Table Key Item) := do
  let (t, bucket) ← t.insert T room key
  t.store T bucket v

/-- `try_insert`, and whether the value is fresh -/
def try_insert (room : ℕ → Bool) (t : Table Key Item) (key : Key) (v : Value) :
    DenseM (Table Key Item × Bool) := do
  let t ← t.rehash_if_full T room key
  let before := t.count
  let (t, slot) ← t.insert_unsafe T key
  if before < t.count then do
    let t ← t.store T slot v
    return (t, true)
  else return (t, false)

/-- The item that `find` points to. -/
def lookup (t : Table Key Item) (key : Key) : DenseM (Option Item) := do
  match ← t.find T key with
  | none => return none
  | some bucket => return some (← orFault (t.data bucket))

/-- A value is stored through what `find` points to. -/
def change (t : Table Key Item) (key : Key) (v : Value) : DenseM (Table Key Item) := do
  match ← t.find T key with
  | none => return t
  | some bucket => t.store T bucket v

end Table

end Luwu.DenseHash
