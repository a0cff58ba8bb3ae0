import Mathlib.Logic.Function.Basic
import Mathlib.Data.List.Perm.Basic
import Mathlib.Data.Nat.Find
import Mathlib.Order.Basic
import Luwu.Lib.Association

/-!
# Open addressing

Items lie in the buckets of an array, each somewhere on the probe path of its key: `path k n` is the bucket
that a search for `k` looks at after `n` others.  A search ends at the item or at the first empty bucket.
The layout that makes this right (`Layout`) is that all buckets on the way to an item are taken; then the
array is a finite map, in the order of its buckets (`entries`).
-/

namespace Luwu.OpenAddressing

open Function Luwu.Association

variable {κ α : Type*} [BEq κ] {cap : ℕ} {path : κ → ℕ → ℕ} {key : α → κ} {slots : ℕ → Option α}
  {a a' : α} {b b' : ℕ} {k : κ}

/-! ### Paths -/

/-- The paths of keys stay in the array, visit every bucket, and are those of equal keys. -/
structure Paths (cap : ℕ) (path : κ → ℕ → ℕ) : Prop where
  bound : ∀ k n, path k n < cap
  cover : ∀ k b, b < cap → ∃ n < cap, path k n = b
  congr : ∀ k k', (k == k') = true → path k = path k'

/-- The first buckets of a path are taken. -/
def Taken (slots : ℕ → Option α) (path : ℕ → ℕ) (n : ℕ) : Prop := ∀ m < n, slots (path m) ≠ none

structure Layout (cap : ℕ) (path : κ → ℕ → ℕ) (key : α → κ) (slots : ℕ → Option α) : Prop where
  bound : ∀ b a, slots b = some a → b < cap
  reach : ∀ b a, slots b = some a → ∃ n, path (key a) n = b ∧ Taken slots (path (key a)) n
  distinct : ∀ b b' a a', slots b = some a → slots b' = some a' → (key a == key a') = true → b = b'

theorem layout_empty : Layout cap path key (fun _ => none) where
  bound := fun b a h => by cases h
  reach := fun b a h => by cases h
  distinct := fun b b' a a' h => by cases h

omit [BEq κ] in
/-- The first visit of a bucket. -/
theorem exists_first {p : ℕ → ℕ} {n : ℕ} (h : p n = b) (ht : Taken slots p n) :
    ∃ m ≤ n, p m = b ∧ Taken slots p m ∧ ∀ i < m, p i ≠ b := by
  classical
  have hex : ∃ m, p m = b := ⟨n, h⟩
  have hle : Nat.find hex ≤ n := Nat.find_min' hex h
  exact ⟨Nat.find hex, hle, Nat.find_spec hex, fun i hi => ht i (lt_of_lt_of_le hi hle),
    fun i hi => Nat.find_min hex hi⟩

/-! ### Searching -/

inductive Probe where
  | found (b : ℕ)
  | free (b : ℕ)
  | exhausted
  deriving DecidableEq

/-- The search from the bucket after `n` others. -/
def probe (slots : ℕ → Option α) (is : α → Bool) (path : ℕ → ℕ) : ℕ → ℕ → Probe
  | 0, _ => .exhausted
  | fuel + 1, n =>
    match slots (path n) with
    | none => .free (path n)
    | some a => if is a then .found (path n) else probe slots is path fuel (n + 1)

omit [BEq κ] in
/-- The search passes the buckets that hold something else. -/
theorem probe_pass {is : α → Bool} {p : ℕ → ℕ} {fuel n N : ℕ} (hn : n ≤ N) (hN : N < n + fuel)
    (hpass : ∀ m, n ≤ m → m < N → ∃ a, slots (p m) = some a ∧ is a = false) :
    probe slots is p fuel n = probe slots is p (n + fuel - N) N := by
  induction fuel generalizing n with
  | zero => omega
  | succ fuel ih =>
    by_cases he : n = N
    · rw [he, Nat.add_sub_cancel_left]
    · obtain ⟨a, ha, his⟩ := hpass n le_rfl (by omega)
      have hstep : probe slots is p (fuel + 1) n = probe slots is p fuel (n + 1) := by
        rw [probe, ha]
        simp only [his, Bool.false_eq_true, if_false]
      rw [hstep, ih (by omega) (by omega) fun m hm hmN => hpass m (by omega) hmN]
      congr 1
      omega

variable [EquivBEq κ]

/-- A key that is there is found, where its item lies. -/
theorem probe_found (hp : Paths cap path) (h : Layout cap path key slots) (hb : slots b = some a)
    (hk : (key a == k) = true) : probe slots (fun a => key a == k) (path k) cap 0 = .found b := by
  obtain ⟨n, hn, ht⟩ := h.reach b a hb
  rw [hp.congr _ _ hk] at hn ht
  obtain ⟨N, _, hN, hT, hfirst⟩ := exists_first hn ht
  have hcap : N < cap := by
    obtain ⟨j, hj, hjb⟩ := hp.cover k b (h.bound b a hb)
    by_contra hlt
    exact hfirst j (by omega) hjb
  rw [probe_pass (Nat.zero_le N) (by omega) fun m _ hm => ?_]
  · obtain ⟨fuel, hfuel⟩ : ∃ fuel, 0 + cap - N = fuel + 1 := ⟨cap - N - 1, by omega⟩
    rw [hfuel, probe, hN, hb]
    simp only [hk, if_true]
  · obtain ⟨a', ha'⟩ := Option.ne_none_iff_exists'.mp (hT m hm)
    refine ⟨a', ha', ?_⟩
    by_contra htrue
    have hk' : (key a' == k) = true := Bool.not_eq_false _ ▸ htrue
    exact hfirst m hm (h.distinct _ _ a' a ha' hb (BEq.trans hk' (BEq.symm hk)))

omit [EquivBEq κ] in
/-- A key that is not there leads to an empty bucket at the end of a taken path. -/
theorem probe_free (hp : Paths cap path) (hfree : ∃ b < cap, slots b = none)
    (habsent : ∀ b a, slots b = some a → (key a == k) = false) :
    ∃ b n, probe slots (fun a => key a == k) (path k) cap 0 = .free b ∧ slots b = none ∧
      path k n = b ∧ Taken slots (path k) n := by
  classical
  obtain ⟨e, he, hempty⟩ := hfree
  obtain ⟨j, hj, hje⟩ := hp.cover k e he
  have hex : ∃ n, slots (path k n) = none := ⟨j, by rw [hje]; exact hempty⟩
  have hlt : Nat.find hex < cap := lt_of_le_of_lt (Nat.find_min' hex (by rw [hje]; exact hempty)) hj
  refine ⟨path k (Nat.find hex), Nat.find hex, ?_, Nat.find_spec hex, rfl, fun m hm => Nat.find_min hex hm⟩
  rw [probe_pass (N := Nat.find hex) (Nat.zero_le _) (by omega) fun m _ hm => ?_]
  · obtain ⟨fuel, hfuel⟩ : ∃ fuel, 0 + cap - Nat.find hex = fuel + 1 := ⟨cap - Nat.find hex - 1, by omega⟩
    rw [hfuel, probe, Nat.find_spec hex]
  · obtain ⟨a, ha⟩ := Option.ne_none_iff_exists'.mp (Nat.find_min hex hm)
    exact ⟨a, ha, habsent _ a ha⟩

/-! ### The items -/

omit [BEq κ] [EquivBEq κ] in
/-- The items in the order of their buckets. -/
def entries (cap : ℕ) (slots : ℕ → Option α) : List α := (List.range cap).filterMap slots

omit [BEq κ] [EquivBEq κ] in
theorem mem_entries : a ∈ entries cap slots ↔ ∃ b < cap, slots b = some a := by
  unfold entries
  rw [List.mem_filterMap]
  constructor
  · rintro ⟨b, hb, ha⟩
    exact ⟨b, List.mem_range.mp hb, ha⟩
  · rintro ⟨b, hb, ha⟩
    exact ⟨b, List.mem_range.mpr hb, ha⟩

omit [BEq κ] [EquivBEq κ] in
/-- The buckets around one bucket. -/
theorem range_split (hb : b < cap) :
    List.range cap = List.range b ++ b :: (List.range (cap - b - 1)).map (b + 1 + ·) := by
  obtain ⟨m, rfl⟩ : ∃ m, cap = b + (m + 1) := ⟨cap - b - 1, by omega⟩
  rw [List.range_add, show b + (m + 1) - b - 1 = m by omega, List.range_succ_eq_map, List.map_cons, List.map_map]
  congr 2
  apply List.map_congr_left
  intro i _
  show b + (i + 1) = b + 1 + i
  omega

omit [BEq κ] [EquivBEq κ] in
/-- What the other buckets hold, before and after. -/
theorem entries_split (hb : b < cap) (slots : ℕ → Option α) :
    ∃ pre post, ∀ v, entries cap (update slots b v) = pre ++ v.toList ++ post := by
  refine ⟨(List.range b).filterMap slots,
    ((List.range (cap - b - 1)).map (b + 1 + ·)).filterMap slots, fun v => ?_⟩
  have hsame : ∀ xs : List ℕ, (∀ x ∈ xs, x ≠ b) → xs.filterMap (update slots b v) = xs.filterMap slots := by
    intro xs hxs
    apply List.filterMap_congr
    intro x hx
    exact update_of_ne (hxs x hx) _ _
  unfold entries
  rw [range_split hb, List.filterMap_append, List.filterMap_cons, update_self,
    hsame _ fun x hx => Nat.ne_of_lt (List.mem_range.mp hx), hsame]
  · cases v with
    | none => exact (List.append_nil _ ▸ rfl)
    | some a => exact List.append_cons _ _ _
  · intro x hx
    obtain ⟨i, _, rfl⟩ := List.mem_map.mp hx
    omega

omit [BEq κ] [EquivBEq κ] in
/-- An item comes into an empty bucket. -/
theorem entries_place (hb : b < cap) (hfree : slots b = none) (a : α) :
    (entries cap (update slots b (some a))).Perm (a :: entries cap slots) := by
  obtain ⟨pre, post, h⟩ := entries_split hb slots
  have hnone := h none
  rw [update_eq_self_iff.mpr hfree.symm] at hnone
  rw [h (some a), hnone]
  show (pre ++ [a] ++ post).Perm (a :: (pre ++ [] ++ post))
  rw [List.append_assoc, List.append_nil]
  exact List.perm_middle

omit [BEq κ] [EquivBEq κ] in
/-- A bucket is emptied. -/
theorem entries_clear (hb : b < cap) (ha : slots b = some a) :
    (entries cap slots).Perm (a :: entries cap (update slots b none)) := by
  have hplace := entries_place hb (update_self b none slots) a
  rw [update_idem, update_eq_self_iff.mpr ha.symm] at hplace
  exact hplace

omit [BEq κ] [EquivBEq κ] in
theorem bucket_unique (h : (entries cap slots).Nodup) (hlt : b < cap) (hlt' : b' < cap) (hb : slots b = some a)
    (hb' : slots b' = some a) : b = b' := by
  by_contra hne
  have hmem : a ∈ entries cap (update slots b none) := by
    refine mem_entries.mpr ⟨b', hlt', ?_⟩
    rw [update_of_ne (Ne.symm hne)]
    exact hb'
  have hnodup := ((entries_clear hlt hb).nodup_iff).mp h
  exact (List.nodup_cons.mp hnodup).1 hmem

omit [BEq κ] [EquivBEq κ] in
/-- Fewer items than buckets leave a bucket empty. -/
theorem exists_free (h : (entries cap slots).length < cap) : ∃ b < cap, slots b = none := by
  have hlt : (entries cap slots).length < (List.range cap).length := by
    rw [List.length_range]
    exact h
  obtain ⟨b, hb, hnone⟩ := List.length_filterMap_lt_length_iff_exists.mp hlt
  exact ⟨b, List.mem_range.mp hb, hnone⟩

omit [EquivBEq κ] in
theorem Layout.distinct_entries (h : Layout cap path key slots) : Distinct key (entries cap slots) := by
  apply List.pairwise_filterMap.mpr
  apply List.Pairwise.imp _ (List.nodup_range (n := cap))
  intro b b' hne a ha a' ha'
  by_contra htrue
  exact hne (h.distinct b b' a a' ha ha' (Bool.not_eq_false _ ▸ htrue))

theorem Layout.get_some (h : Layout cap path key slots) (hb : slots b = some a) (hk : (key a == k) = true) :
    get key (entries cap slots) k = some a :=
  (get_some_iff h.distinct_entries).mpr ⟨mem_entries.mpr ⟨b, h.bound b a hb, hb⟩, hk⟩

omit [EquivBEq κ] in
theorem Layout.get_none (habsent : ∀ b a, slots b = some a → (key a == k) = false) :
    get key (entries cap slots) k = none := by
  apply get_none_iff.mpr
  intro a ha
  obtain ⟨b, _, hb⟩ := mem_entries.mp ha
  exact habsent b a hb

/-! ### The end of a search -/

/-- An empty bucket where an item of the key belongs. -/
structure Vacant (path : κ → ℕ → ℕ) (key : α → κ) (slots : ℕ → Option α) (k : κ) (b : ℕ) : Prop where
  empty : slots b = none
  absent : ∀ b' a, slots b' = some a → (key a == k) = false
  reach : ∃ n, path k n = b ∧ Taken slots (path k) n

/-- With an empty bucket a search ends, at the item of the key or where it belongs. -/
theorem probe_cases (hp : Paths cap path) (h : Layout cap path key slots)
    (hsize : (entries cap slots).length < cap) (k : κ) :
    (∃ b a, probe slots (fun a => key a == k) (path k) cap 0 = .found b ∧ slots b = some a ∧
      (key a == k) = true) ∨
      ∃ b, probe slots (fun a => key a == k) (path k) cap 0 = .free b ∧ Vacant path key slots k b := by
  by_cases hex : ∃ b a, slots b = some a ∧ (key a == k) = true
  · obtain ⟨b, a, hb, hk⟩ := hex
    exact Or.inl ⟨b, a, probe_found hp h hb hk, hb, hk⟩
  · right
    have habsent : ∀ b a, slots b = some a → (key a == k) = false := by
      intro b a hb
      by_contra hk
      exact hex ⟨b, a, hb, Bool.not_eq_false _ ▸ hk⟩
    obtain ⟨b, n, hprobe, hb, hn, ht⟩ := probe_free hp (exists_free hsize) habsent
    exact ⟨b, hprobe, hb, habsent, n, hn, ht⟩

/-! ### Changing a bucket -/

/-- An item comes where the search for its key ended. -/
theorem Layout.place (hp : Paths cap path) (h : Layout cap path key slots)
    (hv : Vacant path key slots (key a) b) : Layout cap path key (update slots b (some a)) := by
  obtain ⟨hfree, habsent, n, hn, ht⟩ := hv
  have htaken : ∀ p m, Taken slots p m → Taken (update slots b (some a)) p m := by
    intro p m hm i hi
    by_cases he : p i = b
    · rw [he, update_self]
      exact Option.some_ne_none a
    · rw [update_of_ne he]
      exact hm i hi
  refine ⟨fun b' a' hb' => ?_, fun b' a' hb' => ?_, fun b₁ b₂ a₁ a₂ h₁ h₂ hk => ?_⟩
  · by_cases he : b' = b
    · rw [he, ← hn]
      exact hp.bound _ _
    · exact h.bound b' a' ((update_of_ne he _ _).symm.trans hb')
  · by_cases he : b' = b
    · subst he
      obtain rfl : a = a' := Option.some.inj ((update_self b' (some a) slots).symm.trans hb')
      exact ⟨n, hn, htaken _ _ ht⟩
    · obtain ⟨m, hm, htm⟩ := h.reach b' a' ((update_of_ne he _ _).symm.trans hb')
      exact ⟨m, hm, htaken _ _ htm⟩
  · by_cases he₁ : b₁ = b
    · by_cases he₂ : b₂ = b
      · exact he₁.trans he₂.symm
      · subst he₁
        obtain rfl : a = a₁ := Option.some.inj ((update_self b₁ (some a) slots).symm.trans h₁)
        have hfalse := habsent b₂ a₂ ((update_of_ne he₂ _ _).symm.trans h₂)
        rw [BEq.comm, hk] at hfalse
        cases hfalse
    · by_cases he₂ : b₂ = b
      · subst he₂
        obtain rfl : a = a₂ := Option.some.inj ((update_self b₂ (some a) slots).symm.trans h₂)
        have hfalse := habsent b₁ a₁ ((update_of_ne he₁ _ _).symm.trans h₁)
        rw [hk] at hfalse
        cases hfalse
      · exact h.distinct b₁ b₂ a₁ a₂ ((update_of_ne he₁ _ _).symm.trans h₁)
          ((update_of_ne he₂ _ _).symm.trans h₂) hk

omit [EquivBEq κ] in
/-- An item is written over, its key kept. -/
theorem Layout.rewrite (h : Layout cap path key slots) (hb : slots b = some a) (hkey : key a' = key a) :
    Layout cap path key (update slots b (some a')) := by
  have hold : ∀ b₁ a₁, update slots b (some a') b₁ = some a₁ → ∃ a₂, slots b₁ = some a₂ ∧ key a₂ = key a₁ := by
    intro b₁ a₁ h₁
    by_cases he : b₁ = b
    · subst he
      obtain rfl : a' = a₁ := Option.some.inj ((update_self b₁ (some a') slots).symm.trans h₁)
      exact ⟨a, hb, hkey.symm⟩
    · exact ⟨a₁, (update_of_ne he _ _).symm.trans h₁, rfl⟩
  have htaken : ∀ p m, Taken slots p m → Taken (update slots b (some a')) p m := by
    intro p m hm i hi
    by_cases he : p i = b
    · rw [he, update_self]
      exact Option.some_ne_none a'
    · rw [update_of_ne he]
      exact hm i hi
  refine ⟨fun b₁ a₁ h₁ => ?_, fun b₁ a₁ h₁ => ?_, fun b₁ b₂ a₁ a₂ h₁ h₂ hk => ?_⟩
  · obtain ⟨a₂, h₂, _⟩ := hold b₁ a₁ h₁
    exact h.bound b₁ a₂ h₂
  · obtain ⟨a₂, h₂, hk⟩ := hold b₁ a₁ h₁
    obtain ⟨m, hm, htm⟩ := h.reach b₁ a₂ h₂
    rw [hk] at hm htm
    exact ⟨m, hm, htaken _ _ htm⟩
  · obtain ⟨c₁, hc₁, hk₁⟩ := hold b₁ a₁ h₁
    obtain ⟨c₂, hc₂, hk₂⟩ := hold b₂ a₂ h₂
    exact h.distinct b₁ b₂ c₁ c₂ hc₁ hc₂ (by rw [hk₁, hk₂]; exact hk)

/-- Writing an item over changes the finite map at its key. -/
theorem entries_rewrite (h : Layout cap path key slots) (hb : slots b = some a) (hk : (key a == k) = true)
    (f : α → α) : entries cap (update slots b (some (f a))) = modify key (entries cap slots) k f := by
  obtain ⟨pre, post, hs⟩ := entries_split (h.bound b a hb) slots
  have hsome := hs (some a)
  rw [update_eq_self_iff.mpr hb.symm] at hsome
  replace hsome : entries cap slots = pre ++ a :: post := hsome.trans (List.append_cons pre a post).symm
  have hd := h.distinct_entries
  rw [hsome] at hd
  rw [hs (some (f a)), hsome, modify_eq_of_append hd hk]
  exact (List.append_cons pre (f a) post).symm

/-! ### Changing items where they lie -/

omit [BEq κ] [EquivBEq κ] in
theorem entries_map (f : α → α) : entries cap (fun b => (slots b).map f) = (entries cap slots).map f :=
  (List.map_filterMap).symm

omit [BEq κ] [EquivBEq κ] in
theorem taken_map (f : α → α) {p : ℕ → ℕ} {n : ℕ} : Taken (fun b => (slots b).map f) p n ↔ Taken slots p n := by
  unfold Taken
  simp only [ne_eq, Option.map_eq_none_iff]

/-- A search for the key comes to the bucket by buckets that are taken. -/
def Leads (path : κ → ℕ → ℕ) (slots : ℕ → Option α) (k : κ) (b : ℕ) : Prop :=
  ∃ n, path k n = b ∧ Taken slots (path k) n

omit [EquivBEq κ] in
/-- Items that change where they lie are a layout again when searches for their new keys lead to them. -/
theorem Layout.map_iff (h : Layout cap path key slots) (f : α → α) :
    Layout cap path key (fun b => (slots b).map f) ↔
      (∀ b a, slots b = some a → Leads path slots (key (f a)) b) ∧
        ∀ b b' a a', slots b = some a → slots b' = some a' → (key (f a) == key (f a')) = true → b = b' := by
  constructor
  · intro hmap
    refine ⟨fun b a hb => ?_, fun b b' a a' hb hb' => ?_⟩
    · obtain ⟨n, hn, ht⟩ := hmap.reach b (f a) (Option.map_eq_some_iff.mpr ⟨a, hb, rfl⟩)
      exact ⟨n, hn, (taken_map f).mp ht⟩
    · exact hmap.distinct b b' (f a) (f a') (Option.map_eq_some_iff.mpr ⟨a, hb, rfl⟩)
        (Option.map_eq_some_iff.mpr ⟨a', hb', rfl⟩)
  · rintro ⟨hleads, hdistinct⟩
    refine ⟨fun b a hb => ?_, fun b a hb => ?_, fun b b' a a' hb hb' hk => ?_⟩
    · obtain ⟨a₀, ha₀, rfl⟩ := Option.map_eq_some_iff.mp hb
      exact h.bound b a₀ ha₀
    · obtain ⟨a₀, ha₀, rfl⟩ := Option.map_eq_some_iff.mp hb
      obtain ⟨n, hn, ht⟩ := hleads b a₀ ha₀
      exact ⟨n, hn, (taken_map f).mpr ht⟩
    · obtain ⟨a₀, ha₀, rfl⟩ := Option.map_eq_some_iff.mp hb
      obtain ⟨a₁, ha₁, rfl⟩ := Option.map_eq_some_iff.mp hb'
      exact hdistinct b b' a₀ a₁ ha₀ ha₁ hk

omit [BEq κ] [EquivBEq κ] in
/-- A search that finds an item came to it by buckets that are taken. -/
theorem leads_of_found {is : α → Bool} {k : κ} {fuel n : ℕ} (h : probe slots is (path k) fuel n = .found b)
    (ht : Taken slots (path k) n) : Leads path slots k b ∧ ∃ a, slots b = some a ∧ is a = true := by
  induction fuel generalizing n with
  | zero => cases h
  | succ fuel ih =>
    rw [probe] at h
    cases ha : slots (path k n) with
    | none =>
      rw [ha] at h
      cases h
    | some a =>
      rw [ha] at h
      cases his : is a with
      | true =>
        simp only [his, if_true] at h
        cases h
        exact ⟨⟨n, rfl, ht⟩, a, ha, his⟩
      | false =>
        simp only [his, Bool.false_eq_true, if_false] at h
        refine ih h fun m hm => ?_
        rcases Nat.lt_succ_iff_lt_or_eq.mp hm with hlt | rfl
        · exact ht m hlt
        · rw [ha]
          exact Option.some_ne_none a

omit [EquivBEq κ] in
/-- Distinct items that a search for their keys finds are a layout. -/
theorem layout_of_found (hbound : ∀ b a, slots b = some a → b < cap)
    (hdistinct : ∀ b b' a a', slots b = some a → slots b' = some a' → (key a == key a') = true → b = b')
    (hfound : ∀ b a, slots b = some a →
      ∃ b' fuel, probe slots (fun a' => key a' == key a) (path (key a)) fuel 0 = .found b') :
    Layout cap path key slots where
  bound := hbound
  reach := by
    intro b a hb
    obtain ⟨b', fuel, hfound⟩ := hfound b a hb
    obtain ⟨hleads, a', hb', hk⟩ := leads_of_found hfound fun m hm => absurd hm (Nat.not_lt_zero m)
    obtain rfl := hdistinct b' b a' a hb' hb hk
    exact hleads
  distinct := hdistinct

/-! ### Moving an item -/

omit [BEq κ] [EquivBEq κ] in
theorem entries_move (hb : b < cap) (hb' : b' < cap) (hfree : slots b = none) (ha : slots b' = some a) :
    (entries cap (update (update slots b (some a)) b' none)).Perm (entries cap slots) := by
  have hne : b ≠ b' := by
    rintro rfl
    rw [hfree] at ha
    cases ha
  rw [update_comm hne]
  have hplace : (entries cap (update (update slots b' none) b (some a))).Perm
      (a :: entries cap (update slots b' none)) := by
    apply entries_place hb
    rw [update_of_ne hne]
    exact hfree
  exact hplace.trans (entries_clear hb' ha).symm

omit [EquivBEq κ] in
theorem distinct_move (ha : slots b' = some a)
    (h : ∀ b b' a a', slots b = some a → slots b' = some a' → (key a == key a') = true → b = b') :
    ∀ b₁ b₂ a₁ a₂, update (update slots b (some a)) b' none b₁ = some a₁ →
      update (update slots b (some a)) b' none b₂ = some a₂ → (key a₁ == key a₂) = true → b₁ = b₂ := by
  -- where the item of a bucket was before
  have hold : ∀ c x, update (update slots b (some a)) b' none c = some x →
      c ≠ b' ∧ slots (if c = b then b' else c) = some x := by
    intro c x hc
    have hne : c ≠ b' := by
      rintro rfl
      rw [update_self] at hc
      cases hc
    rw [update_of_ne hne] at hc
    refine ⟨hne, ?_⟩
    by_cases he : c = b
    · subst he
      rw [update_self] at hc
      rw [if_pos rfl, ← hc]
      exact ha
    · rw [update_of_ne he] at hc
      rw [if_neg he]
      exact hc
  intro b₁ b₂ a₁ a₂ h₁ h₂ hk
  obtain ⟨hne₁, h₁⟩ := hold b₁ a₁ h₁
  obtain ⟨hne₂, h₂⟩ := hold b₂ a₂ h₂
  have hsame := h _ _ a₁ a₂ h₁ h₂ hk
  split at hsame <;> split at hsame <;> omega

end Luwu.OpenAddressing
