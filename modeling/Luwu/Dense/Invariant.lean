import Luwu.Lib.Probing
import Luwu.Dense.Memory

/-!
# The invariant of DenseHashTable

A bucket with the empty key is free.  What is in the others is an open addressing layout along the triangular
steps (`Wellformed`), and its load leaves a bucket empty (`TableOk`).  A free bucket has no value of its own,
so an item that comes into it begins with the default.
-/

namespace Luwu.DenseHash

open Function Luwu.Dense Luwu.Association Luwu.OpenAddressing Luwu.Probing

namespace Table

variable {Key Value Item : Type} [BEq Key] [Inhabited Value]

/-- The items that are not empty. -/
def slots (T : Traits Key Value Item) (t : Table Key Item) (b : ℕ) : Option Item :=
  (t.data b).bind fun item => if T.getKey item == t.empty_key then none else some item

/-- The items in the order of their buckets. -/
def contents (T : Traits Key Value Item) (t : Table Key Item) : List Item := entries t.capacity (t.slots T)

def path (T : Traits Key Value Item) (t : Table Key Item) (key : Key) : ℕ → ℕ :=
  triangular t.capacity (T.hasher key).toNat

end Table

section Invariant

variable {Key Value Item : Type} [BEq Key] [Inhabited Value]

/-- A power of two of buckets, or none. -/
def Shaped (t : Table Key Item) : Prop := t.capacity = 0 ∨ ∃ e ≤ 62, t.capacity = 2 ^ e

/-- Every bucket of the array has an item; an empty one has no value. -/
structure Stored (T : Traits Key Value Item) (t : Table Key Item) : Prop where
  constructed : ∀ b, b < t.capacity ↔ t.data b ≠ none
  blank : ∀ b item, t.data b = some item → (T.getKey item == t.empty_key) = true → T.getValue item = default

structure Wellformed (T : Traits Key Value Item) (t : Table Key Item) : Prop where
  shaped : Shaped t
  stored : Stored T t
  layout : Layout t.capacity (t.path T) T.getKey (t.slots T)
  size : t.count = (t.contents T).length

structure TableOk (T : Traits Key Value Item) (t : Table Key Item) : Prop extends Wellformed T t where
  load : t.count ≤ t.capacity * 3 / 4

/-- The item of a new key. -/
def Traits.newItem (T : Traits Key Value Item) (key : Key) : Item := T.setKey (T.filler key) key

variable {T : Traits Key Value Item} {t t' : Table Key Item} {key : Key} {item a : Item} {b : ℕ} {v : Value}

/-! ### The buckets -/

theorem slots_of_empty (h : t.data b = some item) (he : (T.getKey item == t.empty_key) = true) :
    t.slots T b = none := by
  unfold Table.slots
  rw [h, Option.bind_some, if_pos he]

theorem slots_of_item (h : t.data b = some item) (he : (T.getKey item == t.empty_key) = false) :
    t.slots T b = some item := by
  unfold Table.slots
  rw [h, Option.bind_some, he]
  rfl

theorem data_of_slots (h : t.slots T b = some a) :
    t.data b = some a ∧ (T.getKey a == t.empty_key) = false := by
  unfold Table.slots at h
  obtain ⟨item, hitem, hcase⟩ := Option.bind_eq_some_iff.mp h
  split at hcase
  · cases hcase
  · next hne =>
    obtain rfl := Option.some.inj hcase
    exact ⟨hitem, Bool.not_eq_true _ ▸ hne⟩

/-- A key of the table is not the empty key. -/
theorem contents_ne (ha : a ∈ t.contents T) : (T.getKey a == t.empty_key) = false := by
  obtain ⟨b, _, hb⟩ := mem_entries.mp ha
  exact (data_of_slots hb).2

theorem paths_ok (h : Shaped t) (hpos : 0 < t.capacity) : Paths t.capacity (t.path T) := by
  cases h with
  | inl h0 => omega
  | inr h =>
    obtain ⟨e, _, hcap⟩ := h
    unfold Table.path
    rw [hcap]
    exact paths_triangular fun k k' hk => by rw [T.hasher_eq k k' hk]

omit [BEq Key] in
/-- The mask takes the remainder. -/
theorem Shaped.mask (h : Shaped t) (hpos : 0 < t.capacity) (x : ℕ) :
    x &&& (t.capacity - 1) = x % t.capacity := by
  cases h with
  | inl h0 => omega
  | inr h =>
    obtain ⟨e, _, hcap⟩ := h
    rw [hcap, Nat.and_two_pow_sub_one_eq_mod]

theorem path_next (h : Shaped t) (hpos : 0 < t.capacity) (key : Key) (n : ℕ) :
    (t.path T key n + n + 1) &&& (t.capacity - 1) = t.path T key (n + 1) := by
  rw [h.mask hpos]
  exact (triangular_succ _ _ _).symm

theorem path_start (h : Shaped t) (hpos : 0 < t.capacity) (key : Key) : t.start T key = t.path T key 0 := by
  unfold Table.start
  rw [h.mask hpos]
  rfl

omit [BEq Key] in
theorem load_lt (hload : t.count ≤ t.capacity * 3 / 4) (hne : t.count ≠ 0) : t.count < t.capacity := by
  omega

/-! ### The search -/

/-- What `insert_unsafe` makes of the end of a search. -/
def insertResult : Probe → DenseM (ℕ × Bool)
  | .found b => .ok (b, false)
  | .free b => .ok (b, true)
  | .exhausted => .error .fault

/-- What `find` makes of it. -/
def findResult : Probe → DenseM (Option ℕ)
  | .found b => .ok (some b)
  | .free _ => .ok none
  | .exhausted => .error .fault

section Loops

variable (hs : Stored T t) {path : ℕ → ℕ} (hlt : ∀ n, path n < t.capacity)
  (hnext : ∀ n, (path n + n + 1) &&& (t.capacity - 1) = path (n + 1))

include hs hlt hnext

/-- The loop of the code along any sequence of buckets that it steps through. -/
theorem insertLoop_probe (key : Key) (fuel n : ℕ) : t.insertLoop T key fuel n (path n) =
    insertResult (probe (t.slots T) (fun a => T.getKey a == key) path fuel n) := by
  induction fuel generalizing n with
  | zero => rfl
  | succ fuel ih =>
    obtain ⟨item, hitem⟩ := Option.ne_none_iff_exists'.mp ((hs.constructed (path n)).mp (hlt n))
    rw [Table.insertLoop, probe]
    simp only [hitem, hnext]
    cases hempty : T.getKey item == t.empty_key with
    | true =>
      rw [slots_of_empty hitem hempty]
      rfl
    | false =>
      rw [slots_of_item hitem hempty]
      simp only [Bool.false_eq_true, if_false]
      split
      · rfl
      · exact ih (n + 1)

theorem findLoop_probe [EquivBEq Key] {key : Key} (hkey : (key == t.empty_key) = false) (fuel n : ℕ) :
    t.findLoop T key fuel n (path n) =
      findResult (probe (t.slots T) (fun a => T.getKey a == key) path fuel n) := by
  induction fuel generalizing n with
  | zero => rfl
  | succ fuel ih =>
    obtain ⟨item, hitem⟩ := Option.ne_none_iff_exists'.mp ((hs.constructed (path n)).mp (hlt n))
    rw [Table.findLoop, probe]
    simp only [hitem, hnext]
    cases hempty : T.getKey item == t.empty_key with
    | true =>
      have hother : (T.getKey item == key) = false := by
        by_contra hk
        have hsame := BEq.trans (BEq.symm (Bool.not_eq_false _ ▸ hk)) hempty
        rw [hkey] at hsame
        cases hsame
      rw [slots_of_empty hitem hempty, hother]
      rfl
    | false =>
      rw [slots_of_item hitem hempty]
      simp only [Bool.false_eq_true, if_false]
      split
      · rfl
      · exact ih (n + 1)

end Loops

variable [EquivBEq Key]

/-- The item of a key, in the finite map that the table is. -/
theorem find_ok (h : TableOk T t) (key : Key) :
    (∃ b a, t.find T key = .ok (some b) ∧ t.slots T b = some a ∧ (T.getKey a == key) = true ∧
        get T.getKey (t.contents T) key = some a) ∨
      (t.find T key = .ok none ∧ get T.getKey (t.contents T) key = none) := by
  unfold Table.find
  by_cases hzero : t.count = 0
  · right
    rw [if_pos hzero]
    refine ⟨rfl, ?_⟩
    have hnil : t.contents T = [] := List.length_eq_zero_iff.mp (h.size.symm.trans hzero)
    rw [hnil]
    rfl
  · rw [if_neg hzero]
    have hlt := load_lt h.load hzero
    cases hkey : key == t.empty_key with
    | true =>
      right
      refine ⟨rfl, get_none_iff.mpr fun a ha => ?_⟩
      by_contra hk
      have hsame := BEq.trans (Bool.not_eq_false _ ▸ hk) hkey
      rw [contents_ne ha] at hsame
      cases hsame
    | false =>
      have hpos : 0 < t.capacity := by omega
      have hp : Paths t.capacity (t.path T) := paths_ok h.shaped hpos
      rw [if_neg Bool.false_ne_true, path_start h.shaped hpos,
        findLoop_probe h.stored (hp.bound key) (path_next h.shaped hpos key) hkey]
      cases probe_cases hp h.layout (h.size ▸ hlt) key with
      | inl hfound =>
        obtain ⟨b, a, hprobe, hb, hk⟩ := hfound
        rw [hprobe]
        exact Or.inl ⟨b, a, rfl, hb, hk, h.layout.get_some hb hk⟩
      | inr hfree =>
        obtain ⟨b, hprobe, hv⟩ := hfree
        rw [hprobe]
        exact Or.inr ⟨rfl, Layout.get_none hv.absent⟩

/-! ### Writing a bucket -/

/-- The table is the same but for its buckets and their number. -/
structure Written (T : Traits Key Value Item) (t t' : Table Key Item) (slots : ℕ → Option Item)
    (count : ℕ) : Prop where
  capacity : t'.capacity = t.capacity
  empty_key : t'.empty_key = t.empty_key
  stored : Stored T t'
  slots : t'.slots T = slots
  count : t'.count = count

omit [EquivBEq Key] in
theorem Written.wellformed {slots : ℕ → Option Item} {count : ℕ} (h : Written T t t' slots count)
    (hs : Shaped t) (hl : Layout t.capacity (t.path T) T.getKey slots)
    (hc : count = (entries t.capacity slots).length) : Wellformed T t' where
  shaped := by
    unfold Shaped at hs ⊢
    rw [h.capacity]
    exact hs
  stored := h.stored
  layout := by
    have hpath : t'.path T = t.path T := by
      unfold Table.path
      rw [h.capacity]
    rw [h.capacity, hpath, h.slots]
    exact hl
  size := by
    unfold Table.contents
    rw [h.count, h.capacity, h.slots]
    exact hc

omit [EquivBEq Key] in
/-- An item with a key that is not the empty one comes into a bucket of the array. -/
theorem item_written (hs : Stored T t) (hb : b < t.capacity) (hkey : (T.getKey item == t.empty_key) = false)
    (count : ℕ) :
    Written T t { t with data := update t.data b (some item), count := count }
      (update (t.slots T) b (some item)) count := by
  refine ⟨rfl, rfl, ⟨fun b' => ?_, fun b' item' hitem' hempty => ?_⟩, ?_, rfl⟩
  · show b' < t.capacity ↔ update t.data b (some item) b' ≠ none
    by_cases he : b' = b
    · rw [he, update_self]
      exact ⟨fun _ => Option.some_ne_none item, fun _ => hb⟩
    · rw [update_of_ne he]
      exact hs.constructed b'
  · by_cases he : b' = b
    · subst he
      obtain rfl : item = item' := Option.some.inj ((update_self b' (some item) t.data).symm.trans hitem')
      rw [show (T.getKey item == t.empty_key) = true from hempty] at hkey
      cases hkey
    · exact hs.blank b' item' ((update_of_ne he _ _).symm.trans hitem') hempty
  · funext b'
    show (update t.data b (some item) b').bind _ = _
    by_cases he : b' = b
    · rw [he, update_self, update_self, Option.bind_some, hkey]
      rfl
    · rw [update_of_ne he, update_of_ne he]
      rfl

end Invariant

end Luwu.DenseHash
