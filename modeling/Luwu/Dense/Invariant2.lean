import Luwu.Lib.Probing
import Luwu.Dense.Table2

/-!
# The invariant of DenseHashTable2

A table that is well formed is an open addressing layout over the buckets in use (`Wellformed`), and its load
leaves a bucket empty (`TableOk`).  The search of the code is the search of the layout, so a bucket of the key
or a free one is found.
-/

namespace Luwu.DenseHash2

open Function Luwu.Dense Luwu.Association Luwu.OpenAddressing Luwu.Probing

namespace Table

variable {Key Value Item : Type} [BEq Key] [Inhabited Value]

/-- The items that are in use. -/
def slots (t : Table Item) (b : ℕ) : Option Item := if t.usedTable.has b then t.data b else none

/-- The items in the order of their buckets. -/
def contents (t : Table Item) : List Item := entries t.capacity t.slots

/-- The bucket that the search for a key begins at. -/
def home (T : Traits Key Value Item) (t : Table Item) (key : Key) : ℕ :=
  ((T.hasher key * 11400714819323198485) >>> t.hashShift).toNat

def path (T : Traits Key Value Item) (t : Table Item) (key : Key) : ℕ → ℕ :=
  linear t.capacity (t.home T key)

end Table

section Invariant

variable {Key Value Item : Type} [BEq Key] [Inhabited Value]

/-- The buckets in use are in the array and hold items. -/
structure Stored (t : Table Item) : Prop where
  covers : t.usedTable.Covers t.capacity
  inside : ∀ b, t.usedTable.has b = true → b < t.capacity
  constructed : ∀ b, t.usedTable.has b = true → t.data b ≠ none

/-- A power of two of buckets, and the shift that goes with it; or no buckets. -/
def Shaped (t : Table Item) : Prop :=
  t.capacity = 0 ∨ ∃ e ≤ 62, t.capacity = 2 ^ e ∧ t.hashShift = 64 - e

structure Wellformed (T : Traits Key Value Item) (t : Table Item) : Prop where
  shaped : Shaped t
  stored : Stored t
  layout : Layout t.capacity (t.path T) T.getKey t.slots
  size : t.count = t.contents.length

structure TableOk (T : Traits Key Value Item) (t : Table Item) : Prop extends Wellformed T t where
  load : t.count ≤ t.capacity * 3 / 4

variable {T : Traits Key Value Item} {t t' : Table Item} {key : Key} {item : Item} {b e n fuel : ℕ}
  {room : ℕ → Bool}

/-! ### The buckets -/

theorem slots_of_free (h : t.usedTable.has b = false) : t.slots b = none := by
  unfold Table.slots
  rw [h]
  rfl

theorem slots_of_used (h : t.usedTable.has b = true) : t.slots b = t.data b := by
  unfold Table.slots
  rw [h]
  rfl

theorem Stored.has_of_some (h : t.slots b = some item) : t.usedTable.has b = true := by
  by_contra hno
  rw [slots_of_free (Bool.not_eq_true _ ▸ hno)] at h
  cases h

/-- A table with an empty bucket and one that is not. -/
theorem Shaped.live (h : Shaped t) (h2 : 2 ≤ t.capacity) :
    ∃ e, 1 ≤ e ∧ e ≤ 62 ∧ t.capacity = 2 ^ e ∧ t.hashShift = 64 - e := by
  cases h with
  | inl h0 => omega
  | inr h =>
    obtain ⟨e, he, hcap, hshift⟩ := h
    refine ⟨e, ?_, he, hcap, hshift⟩
    by_contra hzero
    rw [show e = 0 by omega] at hcap
    omega

theorem home_lt (h : Shaped t) (h2 : 0 < t.capacity) (key : Key) : t.home T key < t.capacity := by
  cases h with
  | inl h0 => omega
  | inr h =>
    obtain ⟨e, he, hcap, hshift⟩ := h
    unfold Table.home
    rw [hshift, hcap, BitVec.toNat_ushiftRight, Nat.shiftRight_eq_div_pow]
    apply Nat.div_lt_of_lt_mul
    rw [← Nat.pow_add, show 64 - e + e = 64 by omega]
    exact BitVec.isLt _

theorem home_congr {key' : Key} (hk : (key == key') = true) : t.home T key = t.home T key' := by
  unfold Table.home
  rw [T.hasher_eq key key' hk]

theorem paths_ok (h : Shaped t) (h2 : 0 < t.capacity) : Paths t.capacity (t.path T) :=
  paths_linear h2 (home_lt h h2) fun _ _ hk => home_congr hk

theorem doHash_ok (h : Shaped t) (h2 : 2 ≤ t.capacity) (key : Key) :
    t.doHash T key = .ok (t.home T key) := by
  obtain ⟨e, he, _, _, hshift⟩ := h.live h2
  unfold Table.doHash
  rw [if_pos (by omega)]
  rfl

/-- The mask takes the remainder. -/
theorem Shaped.mask (h : Shaped t) (h2 : 0 < t.capacity) (x : ℕ) :
    x &&& (t.capacity - 1) = x % t.capacity := by
  cases h with
  | inl h0 => omega
  | inr h =>
    obtain ⟨e, _, hcap, _⟩ := h
    rw [hcap, Nat.and_two_pow_sub_one_eq_mod]

/-! ### The search -/

/-- What the code makes of the end of a search. -/
def bucketResult : Probe → DenseM BucketResult
  | .found b => .ok ⟨b, true⟩
  | .free b => .ok ⟨b, false⟩
  | .exhausted => .error .fault

/-- The loop of the code along any sequence of buckets that it steps through. -/
theorem getBucketLoop_probe (hs : Stored t) (key : Key) {path : ℕ → ℕ} (hlt : ∀ n, path n < t.capacity)
    (hnext : ∀ n, (path n + 1) &&& (t.capacity - 1) = path (n + 1)) (fuel n : ℕ) :
    t.getBucketLoop T key fuel (path n) =
      bucketResult (probe t.slots (fun a => T.getKey a == key) path fuel n) := by
  induction fuel generalizing n with
  | zero => rfl
  | succ fuel ih =>
    rw [Table.getBucketLoop, probe, BitSet.contains_eq hs.covers (hlt n)]
    cases hused : t.usedTable.has (path n) with
    | false =>
      rw [slots_of_free hused]
      rfl
    | true =>
      rw [slots_of_used hused]
      obtain ⟨a, ha⟩ := Option.ne_none_iff_exists'.mp (hs.constructed _ hused)
      simp only [ha, hnext]
      split
      · rfl
      · exact ih (n + 1)

theorem path_next (h : Shaped t) (h2 : 0 < t.capacity) (key : Key) (n : ℕ) :
    (t.path T key n + 1) &&& (t.capacity - 1) = t.path T key (n + 1) := by
  rw [h.mask h2]
  exact (linear_succ _ _ _).symm

theorem getBucketLoop_eq (h : Shaped t) (hs : Stored t) (h2 : 0 < t.capacity) (key : Key) (fuel n : ℕ) :
    t.getBucketLoop T key fuel (t.path T key n) =
      bucketResult (probe t.slots (fun a => T.getKey a == key) (t.path T key) fuel n) :=
  getBucketLoop_probe hs key ((paths_ok h h2).bound key) (path_next h h2 key) fuel n

theorem getBucket_eq (h : Wellformed T t) (hlt : t.count < t.capacity) (h2 : 2 ≤ t.capacity) (key : Key) :
    t.getBucket T key =
      bucketResult (probe t.slots (fun a => T.getKey a == key) (t.path T key) t.capacity 0) := by
  have hstart : t.path T key 0 = t.home T key :=
    Nat.mod_eq_of_lt (home_lt h.shaped (by omega) key)
  unfold Table.getBucket
  rw [decide_eq_true hlt, doHash_ok h.shaped h2]
  show t.getBucketLoop T key t.capacity (t.home T key) = _
  rw [← hstart]
  exact getBucketLoop_eq h.shaped h.stored (by omega) key _ 0

variable [EquivBEq Key]

/-- The search ends, at the item of the key or at a bucket for it. -/
theorem getBucket_ok (h : Wellformed T t) (hlt : t.count < t.capacity) (h2 : 2 ≤ t.capacity) (key : Key) :
    (∃ b a, t.getBucket T key = .ok ⟨b, true⟩ ∧ t.slots b = some a ∧ (T.getKey a == key) = true) ∨
      ∃ b, t.getBucket T key = .ok ⟨b, false⟩ ∧ Vacant (t.path T) T.getKey t.slots key b := by
  have hp : Paths t.capacity (t.path T) := paths_ok h.shaped (by omega)
  rw [getBucket_eq h hlt h2]
  cases probe_cases hp h.layout (h.size ▸ hlt) key with
  | inl hfound =>
    obtain ⟨b, a, hprobe, hb, hk⟩ := hfound
    rw [hprobe]
    exact Or.inl ⟨b, a, rfl, hb, hk⟩
  | inr hfree =>
    obtain ⟨b, hprobe, hv⟩ := hfree
    rw [hprobe]
    exact Or.inr ⟨b, rfl, hv⟩

theorem load_lt (hload : t.count ≤ t.capacity * 3 / 4) (hne : t.count ≠ 0) :
    t.count < t.capacity ∧ 2 ≤ t.capacity := by
  omega

/-- The item of a key, in the finite map that the table is. -/
theorem find_ok (h : TableOk T t) (key : Key) :
    (∃ b a, t.find T key = .ok (some b) ∧ t.slots b = some a ∧ (T.getKey a == key) = true ∧
        get T.getKey t.contents key = some a) ∨
      (t.find T key = .ok none ∧ get T.getKey t.contents key = none) := by
  unfold Table.find
  by_cases hzero : t.count = 0
  · right
    rw [if_pos hzero]
    refine ⟨rfl, ?_⟩
    have hnil : t.contents = [] := List.length_eq_zero_iff.mp (h.size.symm.trans hzero)
    rw [hnil]
    rfl
  · rw [if_neg hzero]
    obtain ⟨hlt, h2⟩ := load_lt h.load hzero
    cases getBucket_ok h.toWellformed hlt h2 key with
    | inl hfound =>
      obtain ⟨b, a, hget, hb, hk⟩ := hfound
      left
      refine ⟨b, a, ?_, hb, hk, h.layout.get_some hb hk⟩
      rw [hget]
      rfl
    | inr hfree =>
      obtain ⟨b, hget, hfree⟩ := hfree
      right
      refine ⟨?_, Layout.get_none hfree.absent⟩
      rw [hget]
      rfl

/-! ### Writing a bucket -/

/-- The table is the same but for its buckets and their number. -/
structure Written (t t' : Table Item) (slots : ℕ → Option Item) (count : ℕ) : Prop where
  capacity : t'.capacity = t.capacity
  hashShift : t'.hashShift = t.hashShift
  stored : Stored t'
  slots : t'.slots = slots
  count : t'.count = count

omit [EquivBEq Key] in
theorem Written.path {slots : ℕ → Option Item} {count : ℕ} (h : Written t t' slots count) :
    t'.path T = t.path T := by
  unfold Table.path Table.home
  rw [h.capacity, h.hashShift]

omit [BEq Key] [Inhabited Value] [EquivBEq Key] in
theorem Written.shaped {slots : ℕ → Option Item} {count : ℕ} (h : Written t t' slots count)
    (hs : Shaped t) : Shaped t' := by
  unfold Shaped at hs ⊢
  rw [h.capacity, h.hashShift]
  exact hs

omit [EquivBEq Key] in
theorem Written.wellformed {slots : ℕ → Option Item} {count : ℕ} (h : Written t t' slots count)
    (hs : Shaped t) (hl : Layout t.capacity (t.path T) T.getKey slots)
    (hc : count = (entries t.capacity slots).length) : Wellformed T t' where
  shaped := h.shaped hs
  stored := h.stored
  layout := by
    rw [h.capacity, h.path, h.slots]
    exact hl
  size := by
    unfold Table.contents
    rw [h.count, h.capacity, h.slots]
    exact hc

omit [BEq Key] [Inhabited Value] [EquivBEq Key] in
theorem addItem_written (hs : Stored t) (hb : b < t.capacity) (item : Item) :
    ∃ t', t.addItem b item = .ok t' ∧ Written t t' (update t.slots b (some item)) (t.count + 1) := by
  obtain ⟨used, hset, hcov, hhas⟩ := BitSet.set_some hs.covers hb true
  refine ⟨{ t with usedTable := used, data := update t.data b (some item), count := t.count + 1 }, ?_, rfl, rfl,
    ⟨hcov, fun b' hb' => ?_, fun b' hb' => ?_⟩, ?_, rfl⟩
  · unfold Table.addItem
    rw [hset]
    rfl
  · rw [show used.has b' = _ from hhas b'] at hb'
    by_cases he : b' = b
    · rw [he]
      exact hb
    · rw [if_neg he] at hb'
      exact hs.inside b' hb'
  · show update t.data b (some item) b' ≠ none
    by_cases he : b' = b
    · rw [he, update_self]
      exact Option.some_ne_none item
    · rw [update_of_ne he]
      rw [show used.has b' = _ from hhas b', if_neg he] at hb'
      exact hs.constructed b' hb'
  · funext b'
    show (if used.has b' then update t.data b (some item) b' else none) = _
    rw [hhas b']
    by_cases he : b' = b
    · rw [he, if_pos rfl, update_self, update_self]
      rfl
    · rw [if_neg he, update_of_ne he, update_of_ne he]
      rfl

/-- A new item comes to the bucket that the search found. -/
theorem addItem_ok (h : Wellformed T t) (hcap : 0 < t.capacity) (hfree : Vacant (t.path T) T.getKey t.slots (T.getKey item) b) :
    ∃ t', t.addItem b item = .ok t' ∧ Wellformed T t' ∧ t'.capacity = t.capacity ∧
      t'.count = t.count + 1 ∧ t'.slots b = some item ∧ t'.contents.Perm (item :: t.contents) := by
  obtain ⟨n, hn, _⟩ := hfree.reach
  have hp : Paths t.capacity (t.path T) := paths_ok h.shaped hcap
  have hb : b < t.capacity := by
    rw [← hn]
    exact hp.bound _ n
  obtain ⟨t', hadd, hw⟩ := addItem_written h.stored hb item
  have hperm := entries_place hb hfree.empty item
  refine ⟨t', hadd, hw.wellformed h.shaped (h.layout.place hp hfree) ?_, hw.capacity,
    hw.count, ?_, ?_⟩
  · rw [hperm.length_eq, List.length_cons, h.size]
    rfl
  · rw [hw.slots, update_self]
  · unfold Table.contents
    rw [hw.capacity, hw.slots]
    exact hperm

end Invariant

end Luwu.DenseHash2
