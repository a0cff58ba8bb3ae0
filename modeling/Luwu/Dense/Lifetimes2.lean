import Luwu.Dense.Run2

/-!
# The lifetimes of items in DenseHashTable2

The operations again, with what they construct and destroy.  Each array has its slots: a slot is raw or has an item in it, which may
have been moved from, and the slots count constructions and destructions.
-/

namespace Luwu.DenseHash2

open Function Luwu.Dense Luwu.Association Luwu.OpenAddressing Luwu.Probing

/-- `proper` as long as all constructions were on raw slots and all destructions on live ones. -/
structure Slots where
  live : ℕ → Bool
  constructions : ℕ
  destructions : ℕ
  proper : Bool

namespace Slots

/-- An array from `operator new` -/
def raw : Slots := ⟨fun _ => false, 0, 0, true⟩

/-- `new (&data[b]) Item(..)` -/
def construct (s : Slots) (b : ℕ) : Slots :=
  ⟨update s.live b true, s.constructions + 1, s.destructions, s.proper && !s.live b⟩

/-- `data[b].~Item()` -/
def destroy (s : Slots) (b : ℕ) : Slots :=
  ⟨update s.live b false, s.constructions, s.destructions + 1, s.proper && s.live b⟩

/-- `for (size_t bucket : usedTable) data[bucket].~Item();` -/
def destroyAll (s : Slots) (buckets : List ℕ) : Slots := buckets.foldl destroy s

/-- Nothing was constructed over an item or destroyed without one, and nothing is left. -/
def Settled (s : Slots) : Prop := s.proper = true ∧ s.constructions = s.destructions

end Slots

/-- A table and the slots of its array -/
structure Tracked (Item : Type) where
  table : Table Item
  slots : Slots

namespace Tracked

variable {Key Value Item : Type} [BEq Key] [Inhabited Value]

def empty : Tracked Item := ⟨.empty, .raw⟩

def make (room : ℕ → Bool) (buckets : ℕ) : DenseM (Tracked Item) := do
  let table ← Table.make room buckets
  return ⟨table, .raw⟩

/-- The slots of the array that `destroy` gives back -/
def destroyed (t : Tracked Item) : Slots := t.slots.destroyAll t.table.usedTable.indices

variable (T : Traits Key Value Item)

def doEraseLoop : ℕ → Tracked Item → ℕ → ℕ → DenseM (Tracked Item)
  | 0, _, _, _ => .error .fault
  | fuel + 1, t, i, j =>
    let j := (j + 1) &&& (t.table.capacity - 1)
    match t.table.usedTable.contains j with
    | none => .error .fault
    | some false => do
      let table ← t.table.eraseLast i
      return ⟨table, t.slots.destroy i⟩
    | some true =>
      match t.table.data j with
      | none => .error .fault
      | some curr => do
        let r ← t.table.doHash T (T.getKey curr)
        if t.table.moves i j r then do
          let table ← t.table.moveItem i j curr
          doEraseLoop fuel ⟨table, t.slots.construct i⟩ j j
        else doEraseLoop fuel t i j

def doErase (t : Tracked Item) (bucket : ℕ) : DenseM (Tracked Item) := doEraseLoop T t.table.capacity t bucket bucket

def erase (t : Tracked Item) (key : Key) : DenseM (Tracked Item) :=
  if t.table.count = 0 then .ok t
  else do
    let result ← t.table.getBucket T key
    if result.found then t.doErase T result.bucket else return t

def addItem (t : Tracked Item) (bucket : ℕ) (item : Item) : DenseM (Tracked Item) := do
  let table ← t.table.addItem bucket item
  return ⟨table, t.slots.construct bucket⟩

def insert_unsafe (t : Tracked Item) (key : Key) : DenseM (Tracked Item × ℕ) := do
  let result ← t.table.getBucket T key
  if result.found then return (t, result.bucket)
  else do
    let t ← t.addItem result.bucket (T.setKey key)
    return (t, result.bucket)

def growLoop (t : Table Item) : List ℕ → Tracked Item → DenseM (Tracked Item)
  | [], newtable => .ok newtable
  | bucket :: buckets, newtable => do
    let item ← orFault (t.data bucket)
    let result ← newtable.table.getBucket T (T.getKey item)
    assertion !result.found
    let newtable ← newtable.addItem result.bucket item
    growLoop t buckets newtable

/-- The arrays are swapped, and `newtable` is destroyed with the old one. -/
def grow (room : ℕ → Bool) (t : Tracked Item) : DenseM (Tracked Item × List Slots) := do
  let newtable ← make room (if t.table.capacity = 0 then 16 else t.table.capacity * 2)
  let newtable ← growLoop T t.table t.table.usedTable.indices newtable
  assertion (t.table.count == newtable.table.count)
  return (⟨{ newtable.table with count := t.table.count }, newtable.slots⟩, [t.destroyed])

def growUnless (room : ℕ → Bool) (t : Tracked Item) : Option ℕ → DenseM (Tracked Item × List Slots)
  | some _ => .ok (t, [])
  | none => grow T room t

def rehash_if_full (room : ℕ → Bool) (t : Tracked Item) (key : Key) : DenseM (Tracked Item × List Slots) :=
  if t.table.capacity * 3 / 4 ≤ t.table.count then do
    let found ← t.table.find T key
    growUnless T room t found
  else .ok (t, [])

def clear (t : Tracked Item) (thresholdToDestroy : ℕ) : Tracked Item × List Slots :=
  if t.table.count = 0 then (t, [])
  else if thresholdToDestroy < t.table.capacity then (⟨t.table.clear thresholdToDestroy, .raw⟩, [t.destroyed])
  else (⟨t.table.clear thresholdToDestroy, t.destroyed⟩, [])

def copyLoop (other : Table Item) : List ℕ → Tracked Item → DenseM (Tracked Item)
  | [], t => .ok t
  | bucket :: buckets, t => do
    let item ← orFault (other.data bucket)
    let used ← orFault (t.table.usedTable.set bucket true)
    copyLoop other buckets
      ⟨{ t.table with usedTable := used, data := update t.table.data bucket (some item) }, t.slots.construct bucket⟩

def copy (room : ℕ → Bool) (other : Table Item) : DenseM (Tracked Item) :=
  if other.capacity = 0 then .ok ⟨⟨fun _ => none, BitSet.make 0, 0, other.count, other.hashShift⟩, .raw⟩
  else do
    operatorNew room other.capacity
    copyLoop other other.usedTable.indices
      ⟨⟨fun _ => none, BitSet.make other.capacity, other.capacity, other.count, other.hashShift⟩, .raw⟩

def insert (room : ℕ → Bool) (t : Tracked Item) (key : Key) : DenseM ((Tracked Item × ℕ) × List Slots) := do
  let (t, gone) ← t.rehash_if_full T room key
  let result ← t.insert_unsafe T key
  return (result, gone)

/-- A value is assigned to the one that is there. -/
def store (t : Tracked Item) (bucket : ℕ) (v : Value) : DenseM (Tracked Item) := do
  let table ← t.table.store T bucket v
  return ⟨table, t.slots⟩

def assign (room : ℕ → Bool) (t : Tracked Item) (key : Key) (v : Value) : DenseM (Tracked Item × List Slots) := do
  let ((t, bucket), gone) ← t.insert T room key
  let t ← t.store T bucket v
  return (t, gone)

def try_insert (room : ℕ → Bool) (t : Tracked Item) (key : Key) (v : Value) :
    DenseM ((Tracked Item × Bool) × List Slots) := do
  let (t, gone) ← t.rehash_if_full T room key
  let before := t.table.count
  let (t, slot) ← t.insert_unsafe T key
  if before < t.table.count then do
    let t ← t.store T slot v
    return ((t, true), gone)
  else return ((t, false), gone)

def change (t : Tracked Item) (key : Key) (v : Value) : DenseM (Tracked Item) := do
  match ← t.table.find T key with
  | none => return t
  | some bucket => t.store T bucket v

/-! ### The operations are those of the tables -/

variable {T} {t : Tracked Item} {key : Key} {item : Item} {b i j fuel : ℕ} {v : Value} {room : ℕ → Bool}

theorem map_bind {α β γ : Type} (x : DenseM α) (f : α → DenseM β) (g : β → γ) :
    (x >>= f).map g = x >>= fun a => (f a).map g := by
  cases x with
  | ok a => rfl
  | error e => rfl

theorem bind_map {α β γ : Type} (x : DenseM α) (f : α → β) (g : β → DenseM γ) :
    (x.map f >>= g) = x >>= fun a => g (f a) := by
  cases x with
  | ok a => rfl
  | error e => rfl

theorem doEraseLoop_table : (doEraseLoop T fuel t i j).map table = Table.doEraseLoop T fuel t.table i j := by
  induction fuel generalizing t i j with
  | zero => rfl
  | succ fuel ih =>
    rw [doEraseLoop, Table.doEraseLoop]
    cases hc : t.table.usedTable.contains ((j + 1) &&& (t.table.capacity - 1)) with
    | none => rfl
    | some used =>
      cases used with
      | false =>
        simp only [map_bind]
        cases t.table.eraseLast i with
        | ok t' => rfl
        | error e => rfl
      | true =>
        cases ha : t.table.data ((j + 1) &&& (t.table.capacity - 1)) with
        | none => rfl
        | some curr =>
          simp only [map_bind]
          congr 1
          funext r
          by_cases hm : t.table.moves i ((j + 1) &&& (t.table.capacity - 1)) r = true
          · rw [if_pos hm, if_pos hm, map_bind]
            congr 1
            funext table
            exact ih
          · rw [if_neg hm, if_neg hm]
            exact ih

theorem erase_table : (t.erase T key).map table = t.table.erase T key := by
  unfold erase Table.erase
  by_cases hzero : t.table.count = 0
  · rw [if_pos hzero, if_pos hzero]
    rfl
  · rw [if_neg hzero, if_neg hzero, map_bind]
    congr 1
    funext result
    cases result.found with
    | true => exact doEraseLoop_table
    | false => rfl

theorem addItem_table : (t.addItem b item).map table = t.table.addItem b item := by
  unfold addItem
  cases t.table.addItem b item with
  | ok t' => rfl
  | error e => rfl

theorem insert_unsafe_table :
    (t.insert_unsafe T key).map (fun r => (r.1.table, r.2)) = t.table.insert_unsafe T key := by
  unfold insert_unsafe Table.insert_unsafe
  rw [map_bind]
  congr 1
  funext result
  cases result.found with
  | true => rfl
  | false =>
    simp only [Bool.false_eq_true, if_false]
    rw [← addItem_table, map_bind, bind_map]
    rfl

theorem growLoop_table {bs : List ℕ} {old : Table Item} :
    (growLoop T old bs t).map table = Table.growLoop T old bs t.table := by
  induction bs generalizing t with
  | nil => rfl
  | cons b bs ih =>
    rw [growLoop, Table.growLoop, map_bind]
    congr 1
    funext item
    rw [map_bind]
    congr 1
    funext result
    rw [map_bind]
    congr 1
    funext _
    rw [map_bind, ← addItem_table, bind_map]
    congr 1
    funext t'
    exact ih

theorem grow_table : (t.grow T room).map (fun r => r.1.table) = t.table.grow T room := by
  unfold grow Table.grow make
  rw [map_bind]
  cases Table.make room (if t.table.capacity = 0 then 16 else t.table.capacity * 2) with
  | error e => rfl
  | ok n =>
    show (growLoop T t.table t.table.usedTable.indices ⟨n, .raw⟩ >>= _).map _ = _
    rw [map_bind]
    show _ = (Table.growLoop T t.table t.table.usedTable.indices (Tracked.mk n Slots.raw).table >>= _)
    rw [← growLoop_table, bind_map]
    congr 1
    funext n'
    rw [map_bind]
    rfl

theorem rehash_if_full_table :
    (t.rehash_if_full T room key).map (fun r => r.1.table) = t.table.rehash_if_full T room key := by
  unfold rehash_if_full Table.rehash_if_full
  by_cases hfull : t.table.capacity * 3 / 4 ≤ t.table.count
  · rw [if_pos hfull, if_pos hfull, map_bind]
    congr 1
    funext found
    cases found with
    | some b => rfl
    | none => exact grow_table
  · rw [if_neg hfull, if_neg hfull]
    rfl

theorem insert_table :
    (t.insert T room key).map (fun r => (r.1.1.table, r.1.2)) = t.table.insert T room key := by
  unfold insert Table.insert
  rw [map_bind, ← rehash_if_full_table, bind_map]
  congr 1
  funext r
  rw [map_bind, ← insert_unsafe_table]
  cases Tracked.insert_unsafe T r.1 key with
  | ok x => rfl
  | error e => rfl

theorem store_table : (t.store T b v).map table = t.table.store T b v := by
  unfold store
  cases t.table.store T b v with
  | ok t' => rfl
  | error e => rfl

theorem assign_table : (t.assign T room key v).map (fun r => r.1.table) = t.table.assign T room key v := by
  unfold assign Table.assign
  rw [map_bind, ← insert_table, bind_map]
  congr 1
  funext r
  rw [map_bind]
  show _ = r.1.1.table.store T r.1.2 v
  rw [← store_table]
  cases r.1.1.store T r.1.2 v with
  | ok t' => rfl
  | error e => rfl

theorem try_insert_table :
    (t.try_insert T room key v).map (fun r => (r.1.1.table, r.1.2)) = t.table.try_insert T room key v := by
  unfold try_insert Table.try_insert
  rw [map_bind, ← rehash_if_full_table, bind_map]
  congr 1
  funext r
  rw [map_bind, ← insert_unsafe_table, bind_map]
  congr 1
  funext x
  by_cases hnew : r.1.table.count < x.1.table.count
  · simp only [if_pos hnew]
    rw [map_bind, ← store_table, bind_map]
    rfl
  · simp only [if_neg hnew]
    rfl

theorem change_table : (t.change T key v).map table = t.table.change T key v := by
  unfold change Table.change
  rw [map_bind]
  congr 1
  funext found
  cases found with
  | none => rfl
  | some b => exact store_table

theorem clear_table (threshold : ℕ) : (t.clear threshold).1.table = t.table.clear threshold := by
  unfold clear
  by_cases hzero : t.table.count = 0
  · rw [if_pos hzero]
    unfold Table.clear
    rw [if_pos hzero]
  · rw [if_neg hzero]
    split
    · rfl
    · rfl

theorem copyLoop_table {bs : List ℕ} {other : Table Item} :
    (copyLoop other bs t).map table = Table.copyLoop other bs t.table := by
  induction bs generalizing t with
  | nil => rfl
  | cons b bs ih =>
    rw [copyLoop, Table.copyLoop, map_bind]
    congr 1
    funext item
    rw [map_bind]
    congr 1
    funext used
    exact ih

theorem copy_table {other : Table Item} : (copy room other).map table = other.copy room := by
  unfold copy Table.copy
  by_cases hzero : other.capacity = 0
  · rw [if_pos hzero, if_pos hzero]
    rfl
  · rw [if_neg hzero, if_neg hzero, map_bind]
    congr 1
    funext _
    exact copyLoop_table

end Tracked

end Luwu.DenseHash2
