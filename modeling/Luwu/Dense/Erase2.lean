import Luwu.Dense.Invariant2

/-!
# Erasing from DenseHashTable2

`doErase` keeps the items behind the hole reachable: its comparison of `left` and `right` asks whether the
hole is on the path to the item.  It ends at the empty bucket that the load leaves.
-/

namespace Luwu.DenseHash2

open Function Luwu.Dense Luwu.Association Luwu.OpenAddressing Luwu.Probing

section Erase

variable {Key Value Item : Type} [BEq Key] [Inhabited Value] {T : Traits Key Value Item}
  {t t' : Table Item} {key : Key} {item a : Item} {b i j e r fuel : ℕ}

/-! ### Writing buckets -/

omit [BEq Key] [Inhabited Value] in
theorem eraseLast_written (hs : Stored t) (hi : i < t.capacity) :
    ∃ t', t.eraseLast i = .ok t' ∧ Written t t' (update t.slots i none) (t.count - 1) := by
  obtain ⟨used, hset, hcov, hhas⟩ := BitSet.set_some hs.covers hi false
  have hother : ∀ b, used.has b = true → b ≠ i ∧ t.usedTable.has b = true := by
    intro b hb
    rw [hhas b] at hb
    split at hb
    · cases hb
    · next hne => exact ⟨hne, hb⟩
  refine ⟨{ t with usedTable := used, data := update t.data i none, count := t.count - 1 }, ?_, rfl, rfl,
    ⟨hcov, fun b hb => hs.inside b (hother b hb).2, fun b hb => ?_⟩, ?_, rfl⟩
  · unfold Table.eraseLast
    rw [hset]
    rfl
  · show update t.data i none b ≠ none
    rw [update_of_ne (hother b hb).1]
    exact hs.constructed b (hother b hb).2
  · funext b
    show (if used.has b then update t.data i none b else none) = _
    rw [hhas b]
    by_cases he : b = i
    · rw [he, if_pos rfl, update_self, update_self]
      rfl
    · rw [if_neg he, update_of_ne he, update_of_ne he]
      rfl

omit [BEq Key] [Inhabited Value] in
theorem moveItem_written (hs : Stored t) (hi : i < t.capacity) (hj : j < t.capacity) (item : Item) :
    ∃ t', t.moveItem i j item = .ok t' ∧
      Written t t' (update (update t.slots i (some item)) j none) t.count := by
  obtain ⟨used, hset, hcov, hhas⟩ := BitSet.set_some hs.covers hi true
  obtain ⟨used', hset', hcov', hhas'⟩ := BitSet.set_some hcov hj false
  have hother : ∀ b, used'.has b = true → b ≠ j ∧ (b = i ∨ b ≠ i ∧ t.usedTable.has b = true) := by
    intro b hb
    rw [hhas' b] at hb
    split at hb
    · cases hb
    · next hne =>
      rw [hhas b] at hb
      split at hb
      · next he => exact ⟨hne, Or.inl he⟩
      · next he => exact ⟨hne, Or.inr ⟨he, hb⟩⟩
  refine ⟨{ t with usedTable := used', data := update (update t.data i (some item)) j none }, ?_, rfl, rfl,
    ⟨hcov', fun b hb => ?_, fun b hb => ?_⟩, ?_, rfl⟩
  · unfold Table.moveItem
    rw [hset]
    show (orFault (used.set j false) >>= _) = _
    rw [hset']
    rfl
  · cases (hother b hb).2 with
    | inl he =>
      rw [he]
      exact hi
    | inr hold => exact hs.inside b hold.2
  · show update (update t.data i (some item)) j none b ≠ none
    rw [update_of_ne (hother b hb).1]
    cases (hother b hb).2 with
    | inl he =>
      rw [he, update_self]
      exact Option.some_ne_none item
    | inr hold =>
      rw [update_of_ne hold.1]
      exact hs.constructed b hold.2
  · funext b
    show (if used'.has b then update (update t.data i (some item)) j none b else none) = _
    rw [hhas' b, hhas b]
    by_cases hbj : b = j
    · rw [hbj, if_pos rfl, update_self, update_self]
      rfl
    · rw [if_neg hbj, update_of_ne hbj, update_of_ne hbj]
      by_cases hbi : b = i
      · rw [hbi, if_pos rfl, update_self, update_self]
        rfl
      · rw [if_neg hbi, update_of_ne hbi, update_of_ne hbi]
        rfl

/-! ### The comparison -/

omit [BEq Key] [Inhabited Value] in
/-- The masked difference is the distance around the end. -/
theorem sub64_mask (h : Shaped t) {x y : ℕ} (hx : x < t.capacity) (hy : y < t.capacity) :
    sub64 y x &&& (t.capacity - 1) = dist t.capacity x y := by
  cases h with
  | inl h0 => omega
  | inr h =>
    obtain ⟨e, he, hcap, _⟩ := h
    have hpow : 2 ^ 64 = 2 ^ e * 2 ^ (64 - e) := by
      rw [← Nat.pow_add, show e + (64 - e) = 64 by omega]
    have hone : 1 ≤ 2 ^ (64 - e) := Nat.one_le_two_pow
    have hsum : y + 2 ^ 64 - x = (y + 2 ^ e - x) + 2 ^ e * (2 ^ (64 - e) - 1) := by
      rw [hpow, Nat.mul_sub, Nat.mul_one]
      have : 2 ^ e ≤ 2 ^ e * 2 ^ (64 - e) := Nat.le_mul_of_pos_right _ hone
      omega
    unfold sub64 Probing.dist
    rw [hcap, Nat.and_two_pow_sub_one_eq_mod, Nat.mod_mod_of_dvd _ ⟨_, hpow⟩, hsum, Nat.add_mul_mod_self_left]

omit [BEq Key] [Inhabited Value] in
theorem moves_eq (h : Shaped t) (hi : i < t.capacity) (hj : j < t.capacity) (hr : r < t.capacity) :
    t.moves i j r = decide (dist t.capacity r i < dist t.capacity r j) := by
  unfold Table.moves
  rw [sub64_mask h hr hi, sub64_mask h hr hj]

/-! ### The loop -/

/-- The hole is at `i`, the loop has come to `j`, and will end at `e`. -/
structure Erasing (T : Traits Key Value Item) (t : Table Item) (i j e : ℕ) : Prop where
  shaped : Shaped t
  stored : Stored t
  two : 2 ≤ t.capacity
  hole : Hole t.capacity (fun a => t.home T (T.getKey a)) (update t.slots i none) i j
  distinct : ∀ b b' a a', update t.slots i none b = some a → update t.slots i none b' = some a' →
    (T.getKey a == T.getKey a') = true → b = b'
  bounds : i < t.capacity ∧ j < t.capacity ∧ e < t.capacity
  free : t.slots e = none
  apart : e ≠ i ∧ j ≠ e

/-- The table with the hole filled up. -/
structure Erased (T : Traits Key Value Item) (t t' : Table Item) (i : ℕ) : Prop where
  capacity : t'.capacity = t.capacity
  hashShift : t'.hashShift = t.hashShift
  stored : Stored t'
  reached : Reached t.capacity (fun a => t.home T (T.getKey a)) t'.slots
  distinct : ∀ b b' a a', t'.slots b = some a → t'.slots b' = some a' →
    (T.getKey a == T.getKey a') = true → b = b'
  count : t'.count = t.count - 1
  contents : (entries t.capacity t'.slots).Perm (entries t.capacity (update t.slots i none))

theorem Erasing.bound (h : Erasing T t i j e) :
    ∀ b a, update t.slots i none b = some a → b < t.capacity := by
  intro b a hb
  have hne : b ≠ i := by
    rintro rfl
    rw [update_self] at hb
    cases hb
  rw [update_of_ne hne] at hb
  exact h.stored.inside b (Stored.has_of_some hb)

/-- The loop ends at an empty bucket. -/
theorem Erasing.last (h : Erasing T t i j e) (hne : (j + 1) % t.capacity ≠ i)
    (hempty : t.slots ((j + 1) % t.capacity) = none) :
    ∃ t', t.eraseLast i = .ok t' ∧ Erased T t t' i := by
  obtain ⟨t', hlast, hw⟩ := eraseLast_written h.stored h.bounds.1
  have hreach : Reached t.capacity (fun a => t.home T (T.getKey a)) (update t.slots i none) := by
    apply h.hole.done h.bound h.bounds.1 h.bounds.2.1 rfl hne
    · rw [update_of_ne hne]
      exact hempty
    · exact fun a => home_lt h.shaped (by have := h.two; omega) _
  refine ⟨t', hlast, hw.capacity, hw.hashShift, hw.stored, ?_, ?_, hw.count, ?_⟩
  · rw [hw.slots]
    exact hreach
  · rw [hw.slots]
    exact h.distinct
  · rw [hw.slots]

/-- The next item moves into the hole. -/
theorem Erasing.move (h : Erasing T t i j e) (hne : (j + 1) % t.capacity ≠ i)
    (ha : t.slots ((j + 1) % t.capacity) = some a)
    (hmove : dist t.capacity (t.home T (T.getKey a)) i <
      dist t.capacity (t.home T (T.getKey a)) ((j + 1) % t.capacity)) :
    ∃ t', t.moveItem i ((j + 1) % t.capacity) a = .ok t' ∧
      Erasing T t' ((j + 1) % t.capacity) ((j + 1) % t.capacity) e ∧
      t'.capacity = t.capacity ∧ t'.hashShift = t.hashShift ∧ t'.count = t.count ∧
      (entries t.capacity (update t'.slots ((j + 1) % t.capacity) none)).Perm
        (entries t.capacity (update t.slots i none)) := by
  generalize hj' : (j + 1) % t.capacity = j' at *
  have hlt : j' < t.capacity := h.stored.inside j' (Stored.has_of_some ha)
  have ha' : update t.slots i none j' = some a := by
    rw [update_of_ne hne]
    exact ha
  obtain ⟨t', hrun, hw⟩ := moveItem_written h.stored h.bounds.1 hlt a
  have hslots : update t'.slots j' none = update (update (update t.slots i none) i (some a)) j' none := by
    rw [hw.slots, update_idem, update_idem]
  have hshift := h.hole.shift h.bound h.bounds.1 hne ha' hmove
  have hhome : t'.home T = t.home T := by
    unfold Table.home
    rw [hw.hashShift]
  have hej : e ≠ j' := by
    rintro rfl
    rw [h.free] at ha
    cases ha
  refine ⟨t', hrun, ⟨hw.shaped h.shaped, hw.stored, ?_, ?_, ?_, ?_, ?_, hej, hej.symm⟩, hw.capacity, hw.hashShift,
    hw.count, ?_⟩
  · rw [hw.capacity]
    exact h.two
  · rw [hw.capacity, hhome, hslots]
    exact hshift
  · rw [hslots]
    exact distinct_move ha' h.distinct
  · rw [hw.capacity]
    exact ⟨hlt, hlt, h.bounds.2.2⟩
  · rw [hw.slots, update_of_ne hej, update_of_ne h.apart.1]
    exact h.free
  · rw [hslots]
    exact entries_move h.bounds.1 hlt (update_self i none t.slots) ha'

theorem Erased.trans {t₁ : Table Item} {i' : ℕ} (h : Erased T t₁ t' i') (hcap : t₁.capacity = t.capacity)
    (hshift : t₁.hashShift = t.hashShift) (hcount : t₁.count = t.count)
    (hperm : (entries t.capacity (update t₁.slots i' none)).Perm (entries t.capacity (update t.slots i none))) :
    Erased T t t' i where
  capacity := h.capacity.trans hcap
  hashShift := h.hashShift.trans hshift
  stored := h.stored
  reached := by
    have hreach := h.reached
    have hhome : t₁.home T = t.home T := by
      unfold Table.home
      rw [hshift]
    rw [hcap, hhome] at hreach
    exact hreach
  distinct := h.distinct
  count := by rw [h.count, hcount]
  contents := by
    have hcontents := h.contents
    rw [hcap] at hcontents
    exact hcontents.trans hperm

section Turn

variable {j' : ℕ} (hj' : (j + 1) &&& (t.capacity - 1) = j')

include hj'

theorem doEraseLoop_last (hc : t.usedTable.contains j' = some false) :
    Table.doEraseLoop T (fuel + 1) t i j = t.eraseLast i := by
  rw [Table.doEraseLoop]
  simp only [hj', hc]

theorem doEraseLoop_move (hc : t.usedTable.contains j' = some true) (ha : t.data j' = some a)
    (hr : t.doHash T (T.getKey a) = .ok r) (hm : t.moves i j' r = true) (hrun : t.moveItem i j' a = .ok t') :
    Table.doEraseLoop T (fuel + 1) t i j = Table.doEraseLoop T fuel t' j' j' := by
  rw [Table.doEraseLoop]
  simp only [hj', hc, ha, hr, hm, hrun, bind, Except.bind, if_true]

theorem doEraseLoop_keep (hc : t.usedTable.contains j' = some true) (ha : t.data j' = some a)
    (hr : t.doHash T (T.getKey a) = .ok r) (hm : t.moves i j' r = false) :
    Table.doEraseLoop T (fuel + 1) t i j = Table.doEraseLoop T fuel t i j' := by
  rw [Table.doEraseLoop]
  simp only [hj', hc, ha, hr, hm, bind, Except.bind, Bool.false_eq_true, if_false]

end Turn

/-- The next item stays. -/
theorem Erasing.keep (h : Erasing T t i j e) (hne : (j + 1) % t.capacity ≠ i)
    (ha : t.slots ((j + 1) % t.capacity) = some a)
    (hstay : dist t.capacity (t.home T (T.getKey a)) ((j + 1) % t.capacity) ≤
      dist t.capacity (t.home T (T.getKey a)) i) : Erasing T t i ((j + 1) % t.capacity) e := by
  have hlt : (j + 1) % t.capacity < t.capacity := h.stored.inside _ (Stored.has_of_some ha)
  have ha' : update t.slots i none ((j + 1) % t.capacity) = some a := by
    rw [update_of_ne hne]
    exact ha
  refine ⟨h.shaped, h.stored, h.two, ?_, h.distinct, ⟨h.bounds.1, hlt, h.bounds.2.2⟩, h.free, h.apart.1, ?_⟩
  · exact h.hole.keep h.bound h.bounds.1 h.bounds.2.1 rfl hne ha' (home_lt h.shaped (by omega) _) hstay
  · intro he
    rw [he, h.free] at ha
    cases ha

/-- Each turn comes one bucket nearer to the empty one. -/
theorem doEraseLoop_ok (h : Erasing T t i j e) (hfuel : dist t.capacity j e ≤ fuel) :
    ∃ t', Table.doEraseLoop T fuel t i j = .ok t' ∧ Erased T t t' i := by
  induction fuel generalizing t i j with
  | zero =>
    have hstep := dist_step h.bounds.2.1 h.bounds.2.2 h.apart.2
    omega
  | succ fuel ih =>
    have hpos : 0 < t.capacity := by
      have := h.two
      omega
    have hmask : (j + 1) &&& (t.capacity - 1) = (j + 1) % t.capacity := h.shaped.mask hpos _
    have hempty : update t.slots i none e = none := by
      rw [update_of_ne h.apart.1]
      exact h.free
    have hne : (j + 1) % t.capacity ≠ i :=
      h.hole.next_ne h.bounds.1 h.bounds.2.1 h.bounds.2.2 hempty h.apart.1 rfl
    have hlt : (j + 1) % t.capacity < t.capacity := Nat.mod_lt _ hpos
    have hstep := dist_step h.bounds.2.1 h.bounds.2.2 h.apart.2
    have hcontains := BitSet.contains_eq h.stored.covers hlt
    cases hused : t.usedTable.has ((j + 1) % t.capacity) with
    | false =>
      rw [hused] at hcontains
      rw [doEraseLoop_last hmask hcontains]
      exact h.last hne (slots_of_free hused)
    | true =>
      rw [hused] at hcontains
      obtain ⟨a, ha⟩ := Option.ne_none_iff_exists'.mp (h.stored.constructed _ hused)
      have hslot : t.slots ((j + 1) % t.capacity) = some a := (slots_of_used hused).trans ha
      have hr := doHash_ok (T := T) h.shaped h.two (T.getKey a)
      have hmoves := moves_eq h.shaped h.bounds.1 hlt (home_lt (T := T) h.shaped hpos (T.getKey a))
      by_cases hmove : dist t.capacity (t.home T (T.getKey a)) i <
          dist t.capacity (t.home T (T.getKey a)) ((j + 1) % t.capacity)
      · rw [decide_eq_true hmove] at hmoves
        obtain ⟨t₁, hrun, h₁, hcap, hshift, hcount, hperm⟩ := h.move hne hslot hmove
        obtain ⟨t', hrest, h'⟩ := ih h₁ (by rw [hcap]; omega)
        rw [doEraseLoop_move hmask hcontains ha hr hmoves hrun]
        exact ⟨t', hrest, h'.trans hcap hshift hcount hperm⟩
      · rw [decide_eq_false hmove] at hmoves
        rw [doEraseLoop_keep hmask hcontains ha hr hmoves]
        exact ih (h.keep hne hslot (Nat.le_of_not_lt hmove)) (by omega)

/-! ### erase -/

variable [EquivBEq Key]

omit [EquivBEq Key] in
/-- The loop starts at the bucket of an item, before an empty one. -/
theorem erasing_start (h : TableOk T t) (hb : t.slots b = some a) : ∃ e < t.capacity, Erasing T t b b e := by
  have hlt := h.layout.bound b a hb
  have hsize : t.count = (entries t.capacity (update t.slots b none)).length + 1 := by
    rw [h.size]
    exact (entries_clear hlt hb).length_eq
  obtain ⟨hcap, h2⟩ := load_lt h.load (by omega)
  obtain ⟨e, he, hfree⟩ := exists_free (show (entries t.capacity t.slots).length < t.capacity from h.size ▸ hcap)
  have heb : e ≠ b := by
    rintro rfl
    rw [hfree] at hb
    cases hb
  refine ⟨e, he, h.shaped, h.stored, h2, ?_, ?_, ⟨hlt, hlt, he⟩, hfree, heb, heb.symm⟩
  · exact Hole.start h.layout.bound (reached_of_layout (home_lt h.shaped (by omega)) h.layout) hlt
  · intro b₁ b₂ a₁ a₂ h₁ h₂ hk
    have hold : ∀ c x, update t.slots b none c = some x → t.slots c = some x := by
      intro c x hc
      have hne : c ≠ b := by
        rintro rfl
        rw [update_self] at hc
        cases hc
      exact (update_of_ne hne _ _).symm.trans hc
    exact h.layout.distinct b₁ b₂ a₁ a₂ (hold b₁ a₁ h₁) (hold b₂ a₂ h₂) hk

theorem doErase_ok (h : TableOk T t) (hb : t.slots b = some a) (hk : (T.getKey a == key) = true) :
    ∃ t', t.doErase T b = .ok t' ∧ TableOk T t' ∧ t'.contents.Perm (drop T.getKey t.contents key) := by
  have hlt := h.layout.bound b a hb
  have hclear := entries_clear hlt hb
  have hsize : t.count = (entries t.capacity (update t.slots b none)).length + 1 := by
    rw [h.size]
    exact hclear.length_eq
  have hhome : ∀ k, t.home T k < t.capacity := home_lt h.shaped (by omega)
  obtain ⟨e, _, hstart⟩ := erasing_start h hb
  obtain ⟨t', hrun, hw⟩ := doEraseLoop_ok hstart (Nat.le_of_lt (dist_lt (by omega)))
  have hperm : t'.contents.Perm (entries t.capacity (update t.slots b none)) := by
    unfold Table.contents
    rw [hw.capacity]
    exact hw.contents
  refine ⟨t', hrun, ⟨⟨?_, hw.stored, ?_, ?_⟩, ?_⟩, ?_⟩
  · have hs := h.shaped
    unfold Shaped at hs ⊢
    rw [hw.capacity, hw.hashShift]
    exact hs
  · have hpath : t'.path T = t.path T := by
      unfold Table.path Table.home
      rw [hw.capacity, hw.hashShift]
    rw [hw.capacity, hpath]
    apply layout_of_reached hhome _ hw.reached hw.distinct
    intro b' a' hb'
    rw [← hw.capacity]
    exact hw.stored.inside b' (Stored.has_of_some hb')
  · rw [hw.count, hperm.length_eq]
    omega
  · rw [hw.count, hw.capacity]
    have := h.load
    omega
  · have hdrop := drop_cons_of_get (h.layout.distinct_entries.perm hclear) hk
    rw [← hdrop] at hperm
    exact hperm.trans (drop_perm hclear.symm key)

theorem erase_ok (h : TableOk T t) (key : Key) :
    ∃ t', t.erase T key = .ok t' ∧ TableOk T t' ∧ t'.contents.Perm (drop T.getKey t.contents key) := by
  unfold Table.erase
  by_cases hzero : t.count = 0
  · rw [if_pos hzero]
    refine ⟨t, rfl, h, ?_⟩
    have hnil : t.contents = [] := List.length_eq_zero_iff.mp (h.size.symm.trans hzero)
    rw [hnil]
    exact List.Perm.refl _
  · rw [if_neg hzero]
    obtain ⟨hlt, h2⟩ := load_lt h.load hzero
    cases getBucket_ok h.toWellformed hlt h2 key with
    | inl hfound =>
      obtain ⟨b, a, hget, hb, hk⟩ := hfound
      obtain ⟨t', hrun, hok, hperm⟩ := doErase_ok h hb hk
      refine ⟨t', ?_, hok, hperm⟩
      rw [hget]
      exact hrun
    | inr hfree =>
      obtain ⟨b, hget, hfree⟩ := hfree
      refine ⟨t, ?_, h, ?_⟩
      · rw [hget]
        rfl
      · have hnone : get T.getKey t.contents key = none := Layout.get_none hfree.absent
        rw [drop_of_get_none hnone]

end Erase

end Luwu.DenseHash2
