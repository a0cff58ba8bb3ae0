import Luwu.Subtyping.Reasonings

/-!
# Reasonings that form a set

What the loop over a set makes of it, when the edited table is a table of the hash set again, and what the two loops of
`mergeReasonings` bring together.
-/

namespace Luwu.Subtyping

open Function Luwu.Dense Luwu.DenseHash Luwu.Association Luwu.OpenAddressing

section Sets

variable {S : StdHash} {room : ℕ → Bool} {t t' : SubtypingReasonings} {r x : SubtypingReasoning}
  {f : SubtypingReasoning → SubtypingReasoning}

/-- Iterating gives distinct reasonings, `contains` finds each of them, and the size is how many there are. -/
def IsSet (S : StdHash) (t : SubtypingReasonings) : Prop :=
  ∃ l, t.items S.traits = .ok l ∧ l.Nodup ∧ (∀ r ∈ l, contains S t r = .ok true) ∧ t.count = l.dedup.length

/-! ### Looking up -/

theorem beq_key (r k : SubtypingReasoning) : (S.traits.getKey r == k) = decide (r = k) := by
  by_cases h : r = k
  · rw [decide_eq_true h]
    exact beq_iff_eq.mpr h
  · rw [decide_eq_false h]
    exact beq_eq_false_iff_ne.mpr h

theorem distinct_iff_nodup {l : List SubtypingReasoning} : Distinct S.traits.getKey l ↔ l.Nodup := by
  constructor
  · intro h
    exact h.imp fun hab => beq_eq_false_iff_ne.mp hab
  · intro h
    exact h.imp fun hab => beq_eq_false_iff_ne.mpr hab

theorem mem_of_get {l : List SubtypingReasoning} (h : get S.traits.getKey l r = some x) : r ∈ l := by
  have hmem : x ∈ l := List.mem_of_find?_eq_some h
  have hx : x = r := eq_of_beq (List.find?_some (p := fun a => S.traits.getKey a == r) h)
  rw [← hx]
  exact hmem

theorem not_mem_of_get {l : List SubtypingReasoning} (h : get S.traits.getKey l r = none) : r ∉ l := by
  intro hmem
  have hne := get_none_iff.mp h r hmem
  rw [show (S.traits.getKey r == r) = true from BEq.rfl] at hne
  cases hne

theorem contains_ok (h : TableOk S.traits t) (r : SubtypingReasoning) :
    contains S t r = .ok (decide (r ∈ t.contents S.traits)) := by
  unfold contains
  cases find_ok h r with
  | inl hfound =>
    obtain ⟨b, a, hfind, _, _, hget⟩ := hfound
    rw [hfind, decide_eq_true (mem_of_get hget)]
    rfl
  | inr hnone =>
    obtain ⟨hfind, hget⟩ := hnone
    rw [hfind, decide_eq_false (not_mem_of_get hget)]
    rfl

theorem isSet_of_ok (h : TableOk S.traits t) : IsSet S t := by
  have hnodup := distinct_iff_nodup.mp h.layout.distinct_entries
  refine ⟨_, items_ok h, hnodup, fun r hr => ?_, ?_⟩
  · rw [contains_ok h r, decide_eq_true hr]
  · rw [h.size]
    exact congrArg List.length hnodup.dedup.symm

/-! ### Inserting -/

theorem mem_put {l : List SubtypingReasoning} :
    x ∈ put S.traits.getKey l r (S.traits.newItem r) ↔ x ∈ l ∨ x = r := by
  unfold put
  split
  · next hsome =>
    obtain ⟨a, ha⟩ := Option.isSome_iff_exists.mp hsome
    constructor
    · exact Or.inl
    · rintro (hx | rfl)
      · exact hx
      · exact mem_of_get ha
  · rw [List.mem_cons]
    exact or_comm

theorem insert_mem (h : TableOk S.traits t) (room : ℕ → Bool) (hr : r ≠ t.empty_key) :
    t.insert S.traits room r = .error .badalloc ∨ ∃ t' b, t.insert S.traits room r = .ok (t', b) ∧
      TableOk S.traits t' ∧ t'.empty_key = t.empty_key ∧
      ∀ x, x ∈ t'.contents S.traits ↔ x ∈ t.contents S.traits ∨ x = r := by
  cases insert_ok h room (beq_eq_false_iff_ne.mpr hr) with
  | inl hbad => exact Or.inl hbad
  | inr hins =>
    obtain ⟨t', b, a, hrun, hok, hempty, _, _, hperm⟩ := hins
    refine Or.inr ⟨t', b, hrun, hok, hempty, fun x => ?_⟩
    rw [hperm.mem_iff]
    exact mem_put

/-! ### Editing -/

/-- The table after a loop that edits the buckets from an index on -/
def editedFrom (f : SubtypingReasoning → SubtypingReasoning) (t : SubtypingReasonings) (i : ℕ) : SubtypingReasonings :=
  { t with data := fun b => if i ≤ b then (t.data b).map fun r => if r = t.empty_key then r else f r else t.data b }

theorem advance_skips {fuel i k : ℕ} (h : t.advance S.traits fuel i = .ok k) {b : ℕ} (hb : i ≤ b) (hk : b < k) :
    t.slots S.traits b = none := by
  induction fuel generalizing i with
  | zero =>
    cases h
    omega
  | succ fuel ih =>
    rw [Table.advance] at h
    split at h
    · split at h
      · cases h
      · next r hr =>
        split at h
        · next hempty =>
          rcases Nat.eq_or_lt_of_le hb with rfl | hlt
          · exact slots_of_empty hr hempty
          · exact ih h hlt
        · cases h
          omega
    · cases h
      omega

theorem editedFrom_skip {i k : ℕ} (hik : i ≤ k)
    (h : ∀ b, i ≤ b → b < k → t.slots S.traits b = none) : editedFrom f t k = editedFrom f t i := by
  unfold editedFrom
  congr 1
  funext b
  by_cases hk : k ≤ b
  · rw [if_pos hk, if_pos (hik.trans hk)]
  · rw [if_neg hk]
    by_cases hi : i ≤ b
    · rw [if_pos hi]
      cases hdata : t.data b with
      | none => rfl
      | some r =>
        have hempty : r = t.empty_key := by
          by_contra hne
          have hslot := slots_of_item (T := S.traits) hdata (beq_eq_false_iff_ne.mpr hne)
          rw [h b hi (by omega)] at hslot
          cases hslot
        rw [Option.map_some, if_pos hempty]
    · rw [if_neg hi]

theorem editFrom_ok {fuel i : ℕ} (hs : Stored S.traits t) (hf : ∀ r, r ≠ t.empty_key → f r ≠ t.empty_key)
    (hfuel : t.capacity - i ≤ fuel) (hi : i < t.capacity → t.slots S.traits i ≠ none) :
    editFrom S f fuel i t = .ok (editedFrom f t i) := by
  have hend : ∀ {t : SubtypingReasonings} {i : ℕ}, Stored S.traits t → t.capacity ≤ i → t = editedFrom f t i := by
    intro t i hs hle
    unfold editedFrom
    have hdata : ∀ b, i ≤ b → t.data b = none := by
      intro b hb
      by_contra hne
      have := (hs.constructed b).mpr hne
      omega
    have hsame : (fun b => if i ≤ b then (t.data b).map fun r => if r = t.empty_key then r else f r else t.data b) =
        t.data := by
      funext b
      split
      · next hb => rw [hdata b hb, Option.map_none]
      · rfl
    rw [hsame]
  induction fuel generalizing i t with
  | zero =>
    rw [editFrom]
    exact congrArg Except.ok (hend hs (by omega))
  | succ fuel ih =>
    rw [editFrom]
    by_cases hlt : i < t.capacity
    · obtain ⟨r, hslot⟩ := Option.ne_none_iff_exists'.mp (hi hlt)
      obtain ⟨hdata, hne⟩ := data_of_slots hslot
      have hr : r ≠ t.empty_key := beq_eq_false_iff_ne.mp hne
      have hw := @item_written _ _ _ _ _ S.traits t (f r) _ hs hlt
        (beq_eq_false_iff_ne.mpr (hf r hr)) t.count
      have hs₁ : Stored S.traits (t.storeItem i (f r)) := hw.stored
      have hstart : (t.storeItem i (f r)).capacity - (i + 1) ≤ t.capacity := Nat.sub_le _ _
      obtain ⟨k, hrun, hle, hk, _⟩ := advance_ok hs₁ hstart
      rw [if_pos hlt, hdata]
      simp only [orFault, bind, Except.bind]
      rw [show (t.storeItem i (f r)).advance S.traits (t.storeItem i (f r)).capacity (i + 1) = .ok k from hrun]
      simp only
      rw [ih hs₁ hf (show t.capacity - k ≤ fuel by omega) hk,
        editedFrom_skip hle fun b hb hbk => advance_skips hrun hb hbk]
      -- the bucket itself is the one that the loop wrote
      unfold editedFrom Table.storeItem
      congr 2
      funext b
      rcases Nat.lt_trichotomy b i with hlt' | rfl | hgt
      · rw [if_neg (by omega), if_neg (by omega)]
        exact update_of_ne (by omega) _ _
      · rw [if_neg (by omega), if_pos le_rfl, hdata, Option.map_some, if_neg hr]
        exact update_self _ _ _
      · rw [if_pos (by omega), if_pos (by omega)]
        exact congrArg _ (update_of_ne (by omega) _ _)
    · rw [if_neg hlt]
      exact congrArg Except.ok (hend hs (by omega))

/-- Every reasoning of the set changes where it lies. -/
structure Edited (S : StdHash) (f : SubtypingReasoning → SubtypingReasoning) (t t' : SubtypingReasonings) : Prop where
  written : Written S.traits t t' (fun b => (t.slots S.traits b).map f) t.count

theorem edit_ok (hs : Stored S.traits t) (hf : ∀ r, r ≠ t.empty_key → f r ≠ t.empty_key) :
    ∃ t', edit S f t = .ok t' ∧ Edited S f t t' := by
  obtain ⟨k, hrun, hle, hk, _⟩ := advance_ok hs (Nat.sub_le t.capacity 0)
  refine ⟨editedFrom f t 0, ?_, ⟨rfl, rfl, ⟨fun b => ?_, fun _ _ _ _ => rfl⟩, ?_, rfl⟩⟩
  · unfold edit
    rw [hrun]
    show editFrom S f t.capacity k t = _
    rw [editFrom_ok hs hf (by omega) hk,
      editedFrom_skip hle fun b hb hbk => advance_skips hrun hb hbk]
  · rw [show (editedFrom f t 0).capacity = t.capacity from rfl, hs.constructed b]
    unfold editedFrom
    simp only [Nat.zero_le, if_true, ne_eq, Option.map_eq_none_iff]
  · funext b
    unfold editedFrom Table.slots
    simp only [Nat.zero_le, if_true]
    cases t.data b with
    | none => rfl
    | some r =>
      simp only [Option.map_some, Option.bind_some]
      by_cases hr : r = t.empty_key
      · rw [if_pos hr, beq_key, decide_eq_true hr]
        rfl
      · rw [if_neg hr, beq_key, beq_key, decide_eq_false hr, decide_eq_false (hf r hr)]
        rfl

namespace Edited

theorem contents (h : Edited S f t t') : t'.contents S.traits = (t.contents S.traits).map f := by
  unfold Table.contents
  rw [h.written.slots, h.written.capacity, entries_map]

theorem path (h : Edited S f t t') : t'.path S.traits = t.path S.traits := by
  unfold Table.path
  rw [h.written.capacity]

/-- The edited table is a table of the hash set again when the searches lead to the reasonings and no two become one. -/
def Kept (S : StdHash) (f : SubtypingReasoning → SubtypingReasoning) (t : SubtypingReasonings) : Prop :=
  (∀ b r, t.slots S.traits b = some r → Leads (t.path S.traits) (t.slots S.traits) (f r) b) ∧
    ∀ r ∈ t.contents S.traits, ∀ r' ∈ t.contents S.traits, f r = f r' → r = r'

theorem layout_iff (h : Edited S f t t') (hok : TableOk S.traits t) :
    Layout t'.capacity (t'.path S.traits) S.traits.getKey (t'.slots S.traits) ↔ Kept S f t := by
  rw [h.path, h.written.capacity, h.written.slots, hok.layout.map_iff f]
  unfold Kept
  refine and_congr Iff.rfl ⟨fun hd r hr r' hr' he => ?_, fun hi b b' r r' hb hb' he => ?_⟩
  · obtain ⟨b, _, hb⟩ := mem_entries.mp hr
    obtain ⟨b', _, hb'⟩ := mem_entries.mp hr'
    obtain rfl := hd b b' r r' hb hb' (beq_iff_eq.mpr he)
    exact Option.some.inj (hb.symm.trans hb')
  · have hmem : ∀ {b r}, t.slots S.traits b = some r → r ∈ t.contents S.traits := fun hb =>
      mem_entries.mpr ⟨_, hok.layout.bound _ _ hb, hb⟩
    have hsame := hi r (hmem hb) r' (hmem hb') (eq_of_beq he)
    exact hok.layout.distinct b b' r r' hb hb' (beq_iff_eq.mpr hsame)

theorem ok (h : Edited S f t t') (hok : TableOk S.traits t) (hkept : Kept S f t) : TableOk S.traits t' := by
  have hl := (h.layout_iff hok).mpr hkept
  rw [h.written.capacity, h.path, h.written.slots] at hl
  refine ⟨h.written.wellformed hok.shaped hl ?_, ?_⟩
  · rw [entries_map, List.length_map]
    exact hok.size
  · rw [h.written.count, h.written.capacity]
    exact hok.load

/-- Finding every reasoning of the edited table takes the layout. -/
theorem kept_of_isSet (h : Edited S f t t') (hok : TableOk S.traits t) (hset : IsSet S t') : Kept S f t := by
  apply (h.layout_iff hok).mp
  obtain ⟨l, hitems, hnodup, hfind, _⟩ := hset
  rw [items_stored h.written.stored] at hitems
  cases hitems
  have hbound : ∀ b r, t'.slots S.traits b = some r → b < t'.capacity := fun b r hb =>
    (h.written.stored.constructed b).mpr ((data_of_slots hb).1 ▸ Option.some_ne_none r)
  have hmem : ∀ b r, t'.slots S.traits b = some r → r ∈ t'.contents S.traits := fun b r hb =>
    mem_entries.mpr ⟨b, hbound b r hb, hb⟩
  apply layout_of_found hbound
  · intro b b' r r' hb hb' he
    obtain rfl : r = r' := eq_of_beq he
    exact bucket_unique hnodup (hbound b r hb) (hbound b' r hb') hb hb'
  · intro b r hb
    have hpos : 0 < t'.capacity := Nat.lt_of_le_of_lt (Nat.zero_le b) (hbound b r hb)
    have hshaped : Shaped t' := by
      unfold Shaped
      rw [h.written.capacity]
      exact hok.shaped
    have hp := paths_ok (T := S.traits) hshaped hpos
    have hrun := hfind r (hmem b r hb)
    unfold contains Table.find at hrun
    have hcount : t'.count ≠ 0 := by
      intro hzero
      rw [if_pos hzero] at hrun
      cases hrun
    rw [if_neg hcount] at hrun
    have hne : (r == t'.empty_key) = false := contents_ne (T := S.traits) (hmem b r hb)
    rw [hne, if_neg Bool.false_ne_true, path_start hshaped hpos,
      findLoop_probe h.written.stored (hp.bound r) (path_next hshaped hpos r) hne] at hrun
    cases hprobe : probe (t'.slots S.traits) (fun a => S.traits.getKey a == r) (t'.path S.traits r) t'.capacity 0 with
    | found b' => exact ⟨b', t'.capacity, hprobe⟩
    | free b' =>
      rw [hprobe] at hrun
      cases hrun
    | exhausted =>
      rw [hprobe] at hrun
      cases hrun

end Edited

/-! ### Merging -/

/-- What a reasoning becomes in a merge with the other set -/
def merged (other : SubtypingReasonings) (S : StdHash) (r : SubtypingReasoning) : SubtypingReasoning :=
  if (r.variance = .Covariant ∨ r.variance = .Contravariant) ∧ inverseReasoning r ∈ other.contents S.traits then
    { subPath := r.subPath, superPath := r.superPath, variance := .Invariant }
  else r

variable {other result a b : SubtypingReasonings} {limit : ℕ}

/-- The table of a hash set of reasonings that arise -/
structure Genuine (S : StdHash) (t : SubtypingReasonings) : Prop extends TableOk S.traits t where
  empty_key : t.empty_key = kEmptyReasoning
  valid : ∀ r ∈ t.contents S.traits, r.variance ≠ .Invalid

theorem ne_empty_of_valid (h : r.variance ≠ .Invalid) : r ≠ kEmptyReasoning := by
  rintro rfl
  exact h rfl

theorem merged_valid (h : r.variance ≠ .Invalid) : (merged other S r).variance ≠ .Invalid := by
  unfold merged
  split
  · exact SubtypingVariance.noConfusion
  · exact h

/-- A reasoning is inserted into a set of them. -/
theorem insert_genuine (h : Genuine S t) (room : ℕ → Bool) (hr : r.variance ≠ .Invalid) :
    t.insert S.traits room r = .error .badalloc ∨ ∃ t' b, t.insert S.traits room r = .ok (t', b) ∧ Genuine S t' ∧
      ∀ x, x ∈ t'.contents S.traits ↔ x ∈ t.contents S.traits ∨ x = r := by
  cases insert_mem h.toTableOk room (h.empty_key ▸ ne_empty_of_valid hr) with
  | inl hbad => exact Or.inl hbad
  | inr hins =>
    obtain ⟨t', b, hrun, hok, hempty, hmem⟩ := hins
    refine Or.inr ⟨t', b, hrun, ⟨hok, hempty.trans h.empty_key, fun x hx => ?_⟩, hmem⟩
    rcases (hmem x).mp hx with hx | rfl
    · exact h.valid x hx
    · exact hr

theorem mergeOne_eq (hother : Genuine S other) (hr : r.variance ≠ .Invalid) :
    mergeOne S room other result r = do
      let (result, _) ← result.insert S.traits room (merged other S r)
      return result := by
  have hcontains := contains_ok hother.toTableOk (inverseReasoning r)
  unfold mergeOne merged
  cases hv : r.variance with
  | Invalid => exact absurd hv hr
  | Invariant =>
    simp only [reduceCtorEq, or_self, false_and, if_false]
  | Covariant =>
    simp only [hcontains, true_or, true_and, bind, Except.bind]
    by_cases hin : inverseReasoning r ∈ other.contents S.traits
    · simp only [decide_eq_true hin, if_true, if_pos hin]
    · simp only [decide_eq_false hin, Bool.false_eq_true, if_false, if_neg hin]
  | Contravariant =>
    simp only [hcontains, or_true, true_and, bind, Except.bind]
    by_cases hin : inverseReasoning r ∈ other.contents S.traits
    · simp only [decide_eq_true hin, if_true, if_pos hin]
    · simp only [decide_eq_false hin, Bool.false_eq_true, if_false, if_neg hin]

theorem mergeOne_ok (hother : Genuine S other) (hresult : Genuine S result) (hr : r.variance ≠ .Invalid) :
    mergeOne S room other result r = .error .badalloc ∨ ∃ result', mergeOne S room other result r = .ok result' ∧
      Genuine S result' ∧
      ∀ x, x ∈ result'.contents S.traits ↔ x ∈ result.contents S.traits ∨ x = merged other S r := by
  rw [mergeOne_eq hother hr]
  cases insert_genuine hresult room (@merged_valid S _ other hr) with
  | inl hbad =>
    left
    rw [hbad]
    rfl
  | inr hins =>
    obtain ⟨result', b, hrun, hgen, hmem⟩ := hins
    right
    rw [hrun]
    exact ⟨result', rfl, hgen, hmem⟩

theorem mergeLoop_ok {l : List SubtypingReasoning} (hother : Genuine S other) (hresult : Genuine S result)
    (hl : ∀ r ∈ l, r.variance ≠ .Invalid) :
    mergeLoop S room limit other l result = .error .badalloc ∨
      ∃ result' full, mergeLoop S room limit other l result = .ok (result', full) ∧ Genuine S result' ∧
        (∀ x ∈ result'.contents S.traits, x ∈ result.contents S.traits ∨ ∃ r ∈ l, x = merged other S r) ∧
        (full = true → limit ≤ result'.count) ∧
        (full = false → ∀ x, (x ∈ result.contents S.traits ∨ ∃ r ∈ l, x = merged other S r) →
          x ∈ result'.contents S.traits) := by
  induction l generalizing result with
  | nil =>
    refine Or.inr ⟨result, false, rfl, hresult, fun x hx => Or.inl hx, fun h => (by cases h), fun _ x hx => ?_⟩
    rcases hx with hx | ⟨r, hr, _⟩
    · exact hx
    · cases hr
  | cons r l ih =>
    rw [mergeLoop]
    cases @mergeOne_ok S room _ _ _ hother hresult (hl r List.mem_cons_self) with
    | inl hbad =>
      left
      rw [hbad]
      rfl
    | inr hone =>
      obtain ⟨result₁, hrun, hgen, hmem⟩ := hone
      rw [hrun]
      simp only [bind, Except.bind]
      by_cases hlimit : limit ≤ result₁.count
      · rw [if_pos hlimit]
        refine Or.inr ⟨result₁, true, rfl, hgen, fun x hx => ?_, fun _ => hlimit, fun h => (by cases h)⟩
        rcases (hmem x).mp hx with hx | hx
        · exact Or.inl hx
        · exact Or.inr ⟨r, List.mem_cons_self, hx⟩
      · rw [if_neg hlimit]
        cases ih hgen fun r' hr' => hl r' (List.mem_cons_of_mem r hr') with
        | inl hbad => exact Or.inl hbad
        | inr hrest =>
          obtain ⟨result', full, hrun', hgen', hsub, hfull, hall⟩ := hrest
          refine Or.inr ⟨result', full, hrun', hgen', fun x hx => ?_, hfull, fun hf x hx => hall hf x ?_⟩
          · rcases hsub x hx with hx | ⟨r', hr', hx⟩
            · rcases (hmem x).mp hx with hx | hx
              · exact Or.inl hx
              · exact Or.inr ⟨r, List.mem_cons_self, hx⟩
            · exact Or.inr ⟨r', List.mem_cons_of_mem r hr', hx⟩
          · rcases hx with hx | ⟨r', hr', hx⟩
            · exact Or.inl ((hmem x).mpr (Or.inl hx))
            · rcases List.mem_cons.mp hr' with rfl | hr'
              · exact Or.inl ((hmem x).mpr (Or.inr hx))
              · exact Or.inr ⟨r', hr', hx⟩

theorem bare_genuine (S : StdHash) : Genuine S (Table.bare kEmptyReasoning) :=
  ⟨bare_ok S.traits kEmptyReasoning, rfl, fun r hr => by cases hr⟩

/-- The reasonings of a merge -/
def MergedFrom (S : StdHash) (a b : SubtypingReasonings) (x : SubtypingReasoning) : Prop :=
  (∃ r ∈ a.contents S.traits, x = merged b S r) ∨ ∃ r ∈ b.contents S.traits, x = merged a S r

theorem mergeReasonings_ok (ha : Genuine S a) (hb : Genuine S b) :
    mergeReasonings S room limit a b = .error .badalloc ∨ ∃ t, mergeReasonings S room limit a b = .ok t ∧
      Genuine S t ∧ (∀ x ∈ t.contents S.traits, MergedFrom S a b x) ∧
      (t.count < limit → ∀ x, MergedFrom S a b x → x ∈ t.contents S.traits) := by
  unfold mergeReasonings
  rw [items_ok ha.toTableOk, items_ok hb.toTableOk]
  simp only [bind, Except.bind]
  have hnil : (@Table.bare _ SubtypingReasoning kEmptyReasoning).contents S.traits = [] := rfl
  cases @mergeLoop_ok S room _ _ limit _ hb (bare_genuine S) ha.valid with
  | inl hbad =>
    left
    rw [hbad]
  | inr hfirst =>
    obtain ⟨t₁, full, hrun, hgen, hsub, hfull, hall⟩ := hfirst
    rw [hrun]
    rw [hnil] at hsub hall
    simp only
    cases hcase : full with
    | true =>
      rw [if_pos rfl]
      refine Or.inr ⟨t₁, rfl, hgen, fun x hx => ?_, fun hlt => absurd (hfull hcase) (Nat.not_le.mpr hlt)⟩
      rcases hsub x hx with hx | hx
      · cases hx
      · exact Or.inl hx
    | false =>
      rw [if_neg Bool.false_ne_true]
      cases @mergeLoop_ok S room _ _ limit _ ha hgen hb.valid with
      | inl hbad =>
        left
        rw [hbad]
      | inr hsecond =>
        obtain ⟨t₂, full₂, hrun₂, hgen₂, hsub₂, hfull₂, hall₂⟩ := hsecond
        rw [hrun₂]
        refine Or.inr ⟨t₂, rfl, hgen₂, fun x hx => ?_, fun hlt x hx => ?_⟩
        · rcases hsub₂ x hx with hx | hx
          · rcases hsub x hx with hx | hx
            · cases hx
            · exact Or.inl hx
          · exact Or.inr hx
        · have hnot : full₂ = false := by
            cases hf : full₂ with
            | false => rfl
            | true => exact absurd (hfull₂ hf) (Nat.not_le.mpr hlt)
          apply hall₂ hnot x
          rcases hx with hx | hx
          · exact Or.inl (hall hcase x (Or.inr hx))
          · exact Or.inr hx

end Sets

end Luwu.Subtyping
