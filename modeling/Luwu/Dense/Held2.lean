import Luwu.Dense.Lifetimes2

/-!
# Tables whose slots are in order

In a table that holds (`Held`) the live slots are the buckets in use.  Every operation keeps that but for an erase that moves an
item back: the item is constructed over one that is there.
-/

namespace Luwu.DenseHash2

open Function Luwu.Dense Luwu.Association Luwu.OpenAddressing Luwu.Probing

/-! ### Slots -/

namespace Slots

variable {s : Slots} {bs : List ℕ}

theorem destroyAll_eq (hnodup : bs.Nodup) (hlive : ∀ b ∈ bs, s.live b = true) :
    s.destroyAll bs =
      ⟨fun b => if b ∈ bs then false else s.live b, s.constructions, s.destructions + bs.length, s.proper⟩ := by
  induction bs generalizing s with
  | nil =>
    unfold destroyAll
    rw [List.foldl_nil]
    simp only [List.not_mem_nil, if_false, List.length_nil, Nat.add_zero]
  | cons b bs ih =>
    obtain ⟨hb, hrest⟩ := List.nodup_cons.mp hnodup
    have hlive' : ∀ b' ∈ bs, (s.destroy b).live b' = true := by
      intro b' hb'
      have hne : b' ≠ b := fun h => hb (h ▸ hb')
      show update s.live b false b' = true
      rw [update_of_ne hne]
      exact hlive b' (List.mem_cons_of_mem b hb')
    show (s.destroy b).destroyAll bs = _
    rw [ih hrest hlive']
    simp only [destroy, hlive b List.mem_cons_self, Bool.and_true, List.length_cons]
    congr 1
    · funext b'
      by_cases he : b' = b
      · rw [he, if_pos List.mem_cons_self, update_self]
        exact ite_self false
      · rw [update_of_ne he]
        exact if_congr (by rw [List.mem_cons]; exact ⟨Or.inr, fun h => h.resolve_left he⟩) rfl rfl
    · omega

theorem proper_of_construct {b : ℕ} (h : (s.construct b).proper = true) : s.proper = true ∧ s.live b = false := by
  have hboth := Bool.and_eq_true_iff.mp h
  exact ⟨hboth.1, Bool.not_eq_true' _ ▸ hboth.2⟩

theorem proper_of_destroy {b : ℕ} (h : (s.destroy b).proper = true) : s.proper = true :=
  (Bool.and_eq_true_iff.mp h).1

theorem proper_of_destroyAll (h : (s.destroyAll bs).proper = true) : s.proper = true := by
  induction bs generalizing s with
  | nil => exact h
  | cons b bs ih => exact proper_of_destroy (ih h)

end Slots

theorem BitSet.set_has {s s' : BitSet} {b : ℕ} {v : Bool} (h : s.set b v = some s') (b' : ℕ) :
    s'.has b' = if b' = b then v else s.has b' := by
  have hlt : b / 64 < s.data.length := by
    by_contra hge
    unfold BitSet.set at h
    rw [BitSet.word_index, List.getElem?_eq_none (by omega)] at h
    cases h
  obtain ⟨s'', hset, _, hhas⟩ := @BitSet.set_some s _ (b + 1)
    (fun i hi => lt_of_le_of_lt (Nat.div_le_div_right (Nat.lt_succ_iff.mp hi)) hlt) (Nat.lt_succ_self b) v
  obtain rfl := Option.some.inj (hset.symm.trans h)
  exact hhas b'

theorem BitSet.contains_has {s : BitSet} {b : ℕ} {v : Bool} (h : s.contains b = some v) : s.has b = v := by
  have hlt : b / 64 < s.data.length := by
    by_contra hge
    unfold BitSet.contains at h
    rw [BitSet.word_index, List.getElem?_eq_none (by omega)] at h
    cases h
  have heq := @BitSet.contains_eq s _ (b + 1)
    (fun i hi => lt_of_le_of_lt (Nat.div_le_div_right (Nat.lt_succ_iff.mp hi)) hlt) (Nat.lt_succ_self b)
  exact Option.some.inj (heq.symm.trans h)

/-! ### Tables that hold -/

namespace Tracked

section Holding

variable {Key Value Item : Type} [BEq Key] [Inhabited Value] {T : Traits Key Value Item} {t t' : Tracked Item}
  {key : Key} {item : Item} {b i j n fuel : ℕ} {v : Value} {room : ℕ → Bool} {gone : List Slots}

/-- The slots of the array are those of the buckets in use. -/
structure Held (t : Tracked Item) : Prop where
  live : ∀ b, t.slots.live b = t.table.usedTable.has b
  proper : t.slots.proper = true
  balance : t.slots.constructions = t.slots.destructions + t.table.count

theorem held_empty : Held (empty : Tracked Item) where
  live := fun b => (BitSet.has_make 0 b).symm
  proper := rfl
  balance := rfl

theorem indices_length {t : Table Item} (h : TableOk T t) : t.usedTable.indices.length = t.count := by
  rw [h.size, ← indices_contents h.stored]
  symm
  apply List.filterMap_length_eq_length.mpr
  intro b hb
  have hused := BitSet.mem_indices.mp hb
  rw [slots_of_used hused]
  exact Option.isSome_iff_ne_none.mpr (h.stored.constructed b hused)

theorem Held.destroyed_eq (h : Held t) : t.destroyed =
    ⟨fun _ => false, t.slots.constructions, t.slots.destructions + t.table.usedTable.indices.length, true⟩ := by
  unfold destroyed
  rw [Slots.destroyAll_eq (BitSet.nodup_indices _) fun b hb => (h.live b).trans (BitSet.mem_indices.mp hb), h.proper]
  congr 1
  funext b
  split
  · rfl
  · next hb =>
    rw [h.live b]
    exact Bool.not_eq_true _ ▸ fun hused => hb (BitSet.mem_indices.mpr hused)

/-- Destroying a table that holds settles its slots. -/
theorem Held.settled (h : Held t) (hok : TableOk T t.table) : t.destroyed.Settled := by
  rw [h.destroyed_eq]
  exact ⟨rfl, by rw [indices_length hok]; exact h.balance⟩

theorem proper_of_settled (h : t.destroyed.Settled) : t.slots.proper = true := Slots.proper_of_destroyAll h.1

/-! ### Constructing -/

theorem addItem_held (h : Held t) (hfree : t.table.usedTable.has b = false) (hrun : t.addItem b item = .ok t') : Held t' := by
  unfold addItem Table.addItem at hrun
  cases hset : t.table.usedTable.set b true with
  | none =>
    rw [hset] at hrun
    cases hrun
  | some used =>
    rw [hset] at hrun
    cases hrun
    refine ⟨fun b' => ?_, ?_, ?_⟩
    · show update t.slots.live b true b' = used.has b'
      rw [BitSet.set_has hset]
      by_cases he : b' = b
      · rw [he, update_self, if_pos rfl]
      · rw [update_of_ne he, if_neg he]
        exact h.live b'
    · show (t.slots.proper && !t.slots.live b) = true
      rw [h.proper, h.live b, hfree]
      rfl
    · show t.slots.constructions + 1 = t.slots.destructions + (t.table.count + 1)
      rw [h.balance]
      omega

theorem getBucketLoop_free {t : Table Item} (h : t.getBucketLoop T key fuel b = .ok ⟨n, false⟩) :
    t.usedTable.has n = false := by
  induction fuel generalizing b with
  | zero => cases h
  | succ fuel ih =>
    rw [Table.getBucketLoop] at h
    split at h
    · cases h
    · next hc =>
      cases h
      exact BitSet.contains_has hc
    · split at h
      · cases h
      · split at h
        · cases h
        · exact ih h

theorem getBucket_free {t : Table Item} (h : t.getBucket T key = .ok ⟨n, false⟩) : t.usedTable.has n = false := by
  unfold Table.getBucket assertion at h
  by_cases hlt : t.count < t.capacity
  · rw [if_pos (decide_eq_true hlt)] at h
    cases hh : t.doHash T key with
    | error e =>
      simp only [bind, Except.bind, hh] at h
      cases h
    | ok bucket =>
      simp only [bind, Except.bind, hh] at h
      exact getBucketLoop_free h
  · rw [if_neg fun hd => hlt (of_decide_eq_true hd)] at h
    cases h

theorem insert_unsafe_held (h : Held t) (hrun : t.insert_unsafe T key = .ok (t', b)) : Held t' := by
  unfold insert_unsafe at hrun
  cases hget : t.table.getBucket T key with
  | error e =>
    rw [hget] at hrun
    cases hrun
  | ok result =>
    obtain ⟨bucket, found⟩ := result
    rw [hget] at hrun
    cases found with
    | true =>
      cases hrun
      exact h
    | false =>
      cases hadd : t.addItem bucket (T.setKey key) with
      | error e =>
        simp only [bind, Except.bind, Bool.false_eq_true, if_false, hadd] at hrun
        cases hrun
      | ok t₁ =>
        simp only [bind, Except.bind, Bool.false_eq_true, if_false, hadd] at hrun
        cases hrun
        exact addItem_held h (getBucket_free hget) hadd

theorem growLoop_held {old : Table Item} {bs : List ℕ} (h : Held t) (hrun : growLoop T old bs t = .ok t') : Held t' := by
  induction bs generalizing t with
  | nil =>
    cases hrun
    exact h
  | cons b bs ih =>
    rw [growLoop] at hrun
    cases hitem : old.data b with
    | none =>
      rw [hitem] at hrun
      cases hrun
    | some item =>
      rw [hitem] at hrun
      simp only [orFault, bind, Except.bind] at hrun
      cases hget : t.table.getBucket T (T.getKey item) with
      | error e =>
        rw [hget] at hrun
        cases hrun
      | ok result =>
        obtain ⟨bucket, found⟩ := result
        rw [hget] at hrun
        cases found with
        | true => cases hrun
        | false =>
          cases hadd : t.addItem bucket item with
          | error e =>
            simp only [assertion, Bool.not_false, if_true, hadd] at hrun
            cases hrun
          | ok t₁ =>
            simp only [assertion, Bool.not_false, if_true, hadd] at hrun
            exact ih (addItem_held h (getBucket_free hget) hadd) hrun

theorem make_held {buckets : ℕ} (hrun : make room buckets = .ok t) : Held t := by
  unfold make Table.make at hrun
  cases ha : assertion ((buckets &&& (buckets - 1)) == 0) with
  | error e =>
    rw [ha] at hrun
    cases hrun
  | ok u =>
    rw [ha] at hrun
    simp only [bind, Except.bind] at hrun
    by_cases hzero : buckets = 0
    · rw [if_pos hzero] at hrun
      cases hrun
      exact held_empty
    · rw [if_neg hzero] at hrun
      cases hroom : operatorNew room buckets with
      | error e =>
        rw [hroom] at hrun
        cases hrun
      | ok u =>
        rw [hroom] at hrun
        cases hrun
        exact ⟨fun b => (BitSet.has_make buckets b).symm, rfl, rfl⟩

/-- The arrays that an operation gives back are settled. -/
def AllSettled (gone : List Slots) : Prop := ∀ s ∈ gone, s.Settled

theorem allSettled_nil : AllSettled [] := fun _ h => by cases h

theorem grow_held (h : Held t) (hok : TableOk T t.table) (hrun : t.grow T room = .ok (t', gone)) :
    Held t' ∧ AllSettled gone := by
  unfold grow at hrun
  cases hmake : (make room (if t.table.capacity = 0 then 16 else t.table.capacity * 2) : DenseM (Tracked Item)) with
  | error e =>
    rw [hmake] at hrun
    cases hrun
  | ok n =>
    rw [hmake] at hrun
    simp only [bind, Except.bind] at hrun
    cases hloop : growLoop T t.table t.table.usedTable.indices n with
    | error e =>
      rw [hloop] at hrun
      cases hrun
    | ok n' =>
      rw [hloop] at hrun
      have hn := growLoop_held (make_held hmake) hloop
      by_cases hcount : t.table.count = n'.table.count
      · simp only [assertion, beq_iff_eq, hcount, if_true] at hrun
        cases hrun
        refine ⟨⟨hn.live, hn.proper, hn.balance⟩, fun s hs => ?_⟩
        rw [List.mem_singleton.mp hs]
        exact h.settled hok
      · simp only [assertion, beq_iff_eq, hcount, if_false] at hrun
        cases hrun

theorem rehash_if_full_held (h : Held t) (hok : TableOk T t.table) (hrun : t.rehash_if_full T room key = .ok (t', gone)) :
    Held t' ∧ AllSettled gone := by
  unfold rehash_if_full at hrun
  by_cases hfull : t.table.capacity * 3 / 4 ≤ t.table.count
  · rw [if_pos hfull] at hrun
    cases hfind : t.table.find T key with
    | error e =>
      rw [hfind] at hrun
      cases hrun
    | ok found =>
      rw [hfind] at hrun
      cases found with
      | some b =>
        cases hrun
        exact ⟨h, allSettled_nil⟩
      | none => exact grow_held h hok hrun
  · rw [if_neg hfull] at hrun
    cases hrun
    exact ⟨h, allSettled_nil⟩

theorem store_held (h : Held t) (hrun : t.store T b v = .ok t') : Held t' := by
  unfold store Table.store at hrun
  cases hdata : t.table.data b with
  | none =>
    rw [hdata] at hrun
    cases hrun
  | some item =>
    rw [hdata] at hrun
    cases hrun
    exact ⟨h.live, h.proper, h.balance⟩

theorem insert_held (h : Held t) (hok : TableOk T t.table) (hrun : t.insert T room key = .ok ((t', b), gone)) :
    Held t' ∧ AllSettled gone := by
  unfold insert at hrun
  cases hre : t.rehash_if_full T room key with
  | error e =>
    rw [hre] at hrun
    cases hrun
  | ok r =>
    obtain ⟨t₁, gone₁⟩ := r
    obtain ⟨h₁, hgone⟩ := rehash_if_full_held h hok hre
    rw [hre] at hrun
    cases hins : t₁.insert_unsafe T key with
    | error e =>
      simp only [bind, Except.bind, hins] at hrun
      cases hrun
    | ok x =>
      simp only [bind, Except.bind, hins] at hrun
      cases hrun
      exact ⟨insert_unsafe_held h₁ hins, hgone⟩

theorem assign_held (h : Held t) (hok : TableOk T t.table) (hrun : t.assign T room key v = .ok (t', gone)) :
    Held t' ∧ AllSettled gone := by
  unfold assign at hrun
  cases hins : t.insert T room key with
  | error e =>
    rw [hins] at hrun
    cases hrun
  | ok r =>
    obtain ⟨⟨t₁, b⟩, gone₁⟩ := r
    obtain ⟨h₁, hgone⟩ := insert_held h hok hins
    rw [hins] at hrun
    cases hstore : t₁.store T b v with
    | error e =>
      simp only [bind, Except.bind, hstore] at hrun
      cases hrun
    | ok t₂ =>
      simp only [bind, Except.bind, hstore] at hrun
      cases hrun
      exact ⟨store_held h₁ hstore, hgone⟩

theorem try_insert_held {fresh : Bool} (h : Held t) (hok : TableOk T t.table)
    (hrun : t.try_insert T room key v = .ok ((t', fresh), gone)) : Held t' ∧ AllSettled gone := by
  unfold try_insert at hrun
  cases hre : t.rehash_if_full T room key with
  | error e =>
    rw [hre] at hrun
    cases hrun
  | ok r =>
    obtain ⟨t₁, gone₁⟩ := r
    obtain ⟨h₁, hgone⟩ := rehash_if_full_held h hok hre
    rw [hre] at hrun
    cases hins : t₁.insert_unsafe T key with
    | error e =>
      simp only [bind, Except.bind, hins] at hrun
      cases hrun
    | ok x =>
      obtain ⟨t₂, slot⟩ := x
      have h₂ := insert_unsafe_held h₁ hins
      simp only [bind, Except.bind, hins] at hrun
      by_cases hnew : t₁.table.count < t₂.table.count
      · rw [if_pos hnew] at hrun
        cases hstore : t₂.store T slot v with
        | error e =>
          rw [hstore] at hrun
          cases hrun
        | ok t₃ =>
          rw [hstore] at hrun
          cases hrun
          exact ⟨store_held h₂ hstore, hgone⟩
      · rw [if_neg hnew] at hrun
        cases hrun
        exact ⟨h₂, hgone⟩

theorem change_held (h : Held t) (hrun : t.change T key v = .ok t') : Held t' := by
  unfold change at hrun
  cases hfind : t.table.find T key with
  | error e =>
    rw [hfind] at hrun
    cases hrun
  | ok found =>
    rw [hfind] at hrun
    cases found with
    | none =>
      cases hrun
      exact h
    | some b => exact store_held h hrun

theorem clear_held (h : Held t) (hok : TableOk T t.table) (threshold : ℕ) :
    Held (t.clear threshold).1 ∧ AllSettled (t.clear threshold).2 := by
  have hsettled := h.settled hok
  have heq := h.destroyed_eq
  unfold clear
  by_cases hzero : t.table.count = 0
  · rw [if_pos hzero]
    exact ⟨h, allSettled_nil⟩
  · rw [if_neg hzero]
    by_cases hbig : threshold < t.table.capacity
    · rw [if_pos hbig]
      unfold Table.clear
      rw [if_neg hzero, if_pos hbig]
      refine ⟨held_empty, fun s hs => ?_⟩
      rw [List.mem_singleton.mp hs]
      exact hsettled
    · rw [if_neg hbig]
      unfold Table.clear
      rw [if_neg hzero, if_neg hbig]
      refine ⟨⟨fun b => ?_, hsettled.1, hsettled.2⟩, allSettled_nil⟩
      rw [heq]
      exact (BitSet.has_clear _ b).symm

/-- The copy constructs an item for every bucket of the list. -/
theorem copyLoop_held {other : Table Item} {bs : List ℕ} (hnodup : bs.Nodup)
    (hfree : ∀ b ∈ bs, t.table.usedTable.has b = false) (hlive : ∀ b, t.slots.live b = t.table.usedTable.has b)
    (hproper : t.slots.proper = true) (hrun : copyLoop other bs t = .ok t') :
    (∀ b, t'.slots.live b = t'.table.usedTable.has b) ∧ t'.slots.proper = true ∧
      t'.slots.constructions = t.slots.constructions + bs.length ∧ t'.slots.destructions = t.slots.destructions ∧
      t'.table.count = t.table.count := by
  induction bs generalizing t with
  | nil =>
    cases hrun
    exact ⟨hlive, hproper, rfl, rfl, rfl⟩
  | cons b bs ih =>
    obtain ⟨hb, hrest⟩ := List.nodup_cons.mp hnodup
    rw [copyLoop] at hrun
    cases hitem : other.data b with
    | none =>
      rw [hitem] at hrun
      cases hrun
    | some item =>
      rw [hitem] at hrun
      simp only [orFault, bind, Except.bind] at hrun
      cases hset : t.table.usedTable.set b true with
      | none =>
        rw [hset] at hrun
        cases hrun
      | some used =>
        rw [hset] at hrun
        have hfree' : ∀ b' ∈ bs, used.has b' = false := by
          intro b' hb'
          rw [BitSet.set_has hset, if_neg fun he : b' = b => hb (he ▸ hb')]
          exact hfree b' (List.mem_cons_of_mem b hb')
        have hlive₁ : ∀ b', update t.slots.live b true b' = used.has b' := by
          intro b'
          rw [BitSet.set_has hset]
          by_cases he : b' = b
          · rw [he, update_self, if_pos rfl]
          · rw [update_of_ne he, if_neg he]
            exact hlive b'
        have hproper₁ : (t.slots.proper && !t.slots.live b) = true := by
          rw [hproper, hlive b, hfree b List.mem_cons_self]
          rfl
        obtain ⟨hlive', hproper', hc, hd, hcount⟩ := ih hrest hfree' hlive₁ hproper₁ hrun
        refine ⟨hlive', hproper', ?_, hd, hcount⟩
        rw [hc, List.length_cons]
        show t.slots.constructions + 1 + bs.length = t.slots.constructions + (bs.length + 1)
        omega

theorem copy_held {other : Table Item} (hok : TableOk T other) (hrun : copy room other = .ok t) : Held t := by
  unfold copy at hrun
  by_cases hzero : other.capacity = 0
  · rw [if_pos hzero] at hrun
    cases hrun
    have hcount : other.count = 0 := by
      have := hok.load
      omega
    refine ⟨fun b => (BitSet.has_make 0 b).symm, rfl, ?_⟩
    show 0 = 0 + other.count
    omega
  · rw [if_neg hzero] at hrun
    cases hroom : operatorNew room other.capacity with
    | error e =>
      rw [hroom] at hrun
      cases hrun
    | ok u =>
      rw [hroom] at hrun
      replace hrun : copyLoop other other.usedTable.indices
        ⟨⟨fun _ => none, BitSet.make other.capacity, other.capacity, other.count, other.hashShift⟩, .raw⟩ = .ok t := hrun
      generalize hstart : (⟨⟨fun _ => none, BitSet.make other.capacity, other.capacity, other.count, other.hashShift⟩, .raw⟩ :
        Tracked Item) = start at hrun
      have hfree : ∀ b, start.table.usedTable.has b = false := by
        intro b
        rw [← hstart]
        exact BitSet.has_make other.capacity b
      obtain ⟨hlive, hproper, hc, hd, hcount⟩ := copyLoop_held (BitSet.nodup_indices other.usedTable)
        (fun b _ => hfree b) (fun b => by rw [hfree, ← hstart]; rfl) (by rw [← hstart]; rfl) hrun
      rw [← hstart] at hc hd hcount
      refine ⟨hlive, hproper, ?_⟩
      rw [hc, hd, hcount, indices_length hok]
      rfl

/-! ### Erasing -/

/-- No item between the bucket and the next free one is to move into the bucket. -/
def Stays (T : Traits Key Value Item) (t : Table Item) (bucket : ℕ) : Prop :=
  ∀ n, (∀ m ≤ n, t.usedTable.has (linear t.capacity bucket (m + 1)) = true) →
    ∀ item, t.data (linear t.capacity bucket (n + 1)) = some item →
      t.moves bucket (linear t.capacity bucket (n + 1)) (t.home T (T.getKey item)) = false

/-- The same from the bucket that the loop has come to -/
def StaysFrom (T : Traits Key Value Item) (t : Table Item) (bucket n : ℕ) : Prop :=
  ∀ k ≥ n, (∀ m ≤ k, n ≤ m → t.usedTable.has (linear t.capacity bucket (m + 1)) = true) →
    ∀ item, t.data (linear t.capacity bucket (k + 1)) = some item →
      t.moves bucket (linear t.capacity bucket (k + 1)) (t.home T (T.getKey item)) = false

theorem staysFrom_zero {t : Table Item} : StaysFrom T t b 0 ↔ Stays T t b :=
  ⟨fun h n hn => h n (Nat.zero_le n) fun m hm _ => hn m hm, fun h k _ hk => h k fun m hm => hk m hm (Nat.zero_le m)⟩

theorem staysFrom_free {t : Table Item} (hfree : t.usedTable.has (linear t.capacity b (n + 1)) = false) :
    StaysFrom T t b n := by
  intro k hk hused
  have := hused n hk le_rfl
  rw [hfree] at this
  cases this

theorem staysFrom_step {t : Table Item} (hused : t.usedTable.has (linear t.capacity b (n + 1)) = true)
    (hitem : t.data (linear t.capacity b (n + 1)) = some item) :
    StaysFrom T t b n ↔ t.moves b (linear t.capacity b (n + 1)) (t.home T (T.getKey item)) = false ∧
      StaysFrom T t b (n + 1) := by
  constructor
  · intro h
    refine ⟨h n le_rfl (fun m hm hnm => ?_) item hitem, fun k hk hall => h k (by omega) fun m hm hnm => ?_⟩
    · rw [Nat.le_antisymm hm hnm]
      exact hused
    · rcases Nat.eq_or_lt_of_le hnm with rfl | hlt
      · exact hused
      · exact hall m hm hlt
  · rintro ⟨hfirst, hrest⟩ k hk hall item' hitem'
    rcases Nat.eq_or_lt_of_le hk with rfl | hlt
    · rw [hitem] at hitem'
      cases hitem'
      exact hfirst
    · exact hrest k hlt (fun m hm hnm => hall m hm (by omega)) item' hitem'

theorem ok_of_table {x : DenseM (Tracked Item)} {table' : Table Item} (h : x.map table = .ok table') :
    ∃ t', x = .ok t' ∧ t'.table = table' := by
  cases x with
  | error e => cases h
  | ok t' => exact ⟨t', rfl, Except.ok.inj h⟩

/-- A loop that ends properly was proper before. -/
theorem doEraseLoop_proper (hrun : doEraseLoop T fuel t i j = .ok t') (h : t'.slots.proper = true) :
    t.slots.proper = true := by
  induction fuel generalizing t i j with
  | zero => cases hrun
  | succ fuel ih =>
    rw [doEraseLoop] at hrun
    split at hrun
    · cases hrun
    · cases hlast : t.table.eraseLast i with
      | error e =>
        rw [hlast] at hrun
        cases hrun
      | ok table' =>
        rw [hlast] at hrun
        cases hrun
        exact Slots.proper_of_destroy h
    · split at hrun
      · cases hrun
      · next curr hcurr =>
        cases hhash : t.table.doHash T (T.getKey curr) with
        | error e =>
          simp only [bind, Except.bind, hhash] at hrun
          cases hrun
        | ok r =>
          simp only [bind, Except.bind, hhash] at hrun
          split at hrun
          · cases hmove : t.table.moveItem i ((j + 1) &&& (t.table.capacity - 1)) curr with
            | error e =>
              simp only [hmove] at hrun
              cases hrun
            | ok table' =>
              simp only [hmove] at hrun
              exact (Slots.proper_of_construct (ih hrun)).1
          · exact ih hrun

section Turn

variable {j' r : ℕ} (hj' : (j + 1) &&& (t.table.capacity - 1) = j')

include hj'

theorem doEraseLoop_last (hc : t.table.usedTable.contains j' = some false) :
    doEraseLoop T (fuel + 1) t i j = do
      let table ← t.table.eraseLast i
      return ⟨table, t.slots.destroy i⟩ := by
  rw [doEraseLoop]
  simp only [hj', hc]

theorem doEraseLoop_move {a : Item} {table' : Table Item} (hc : t.table.usedTable.contains j' = some true)
    (ha : t.table.data j' = some a) (hr : t.table.doHash T (T.getKey a) = .ok r) (hm : t.table.moves i j' r = true)
    (hrun : t.table.moveItem i j' a = .ok table') :
    doEraseLoop T (fuel + 1) t i j = doEraseLoop T fuel ⟨table', t.slots.construct i⟩ j' j' := by
  rw [doEraseLoop]
  simp only [hj', hc, ha, hr, hm, hrun, bind, Except.bind, if_true]

theorem doEraseLoop_keep {a : Item} (hc : t.table.usedTable.contains j' = some true)
    (ha : t.table.data j' = some a) (hr : t.table.doHash T (T.getKey a) = .ok r) (hm : t.table.moves i j' r = false) :
    doEraseLoop T (fuel + 1) t i j = doEraseLoop T fuel t i j' := by
  rw [doEraseLoop]
  simp only [hj', hc, ha, hr, hm, bind, Except.bind, Bool.false_eq_true, if_false]

end Turn

/-- The loop destroys the item of its bucket and nothing else, when no item moves; the first one that moves is constructed over it. -/
theorem doEraseLoop_stays {e : ℕ} (h : Erasing T t.table b (linear t.table.capacity b n) e)
    (hfuel : dist t.table.capacity (linear t.table.capacity b n) e ≤ fuel) (hlive : t.slots.live b = true) :
    ∃ t', doEraseLoop T fuel t b (linear t.table.capacity b n) = .ok t' ∧
      (StaysFrom T t.table b n → t.table.eraseLast b = .ok t'.table ∧ t'.slots = t.slots.destroy b) ∧
      (t'.slots.proper = true → StaysFrom T t.table b n) := by
  induction fuel generalizing n with
  | zero =>
    have hstep := dist_step h.bounds.2.1 h.bounds.2.2 h.apart.2
    omega
  | succ fuel ih =>
    have hpos : 0 < t.table.capacity := by
      have := h.two
      omega
    have hnext : (linear t.table.capacity b n + 1) % t.table.capacity = linear t.table.capacity b (n + 1) :=
      (linear_succ _ _ _).symm
    have hmask : (linear t.table.capacity b n + 1) &&& (t.table.capacity - 1) = linear t.table.capacity b (n + 1) := by
      rw [h.shaped.mask hpos, hnext]
    have hempty : update t.table.slots b none e = none := by
      rw [update_of_ne h.apart.1]
      exact h.free
    have hne : linear t.table.capacity b (n + 1) ≠ b :=
      h.hole.next_ne h.bounds.1 h.bounds.2.1 h.bounds.2.2 hempty h.apart.1 hnext.symm
    have hlt : linear t.table.capacity b (n + 1) < t.table.capacity := Nat.mod_lt _ hpos
    have hstep := dist_step h.bounds.2.1 h.bounds.2.2 h.apart.2
    have hcontains := BitSet.contains_eq h.stored.covers hlt
    obtain ⟨table', hrun, _⟩ := Luwu.DenseHash2.doEraseLoop_ok h hfuel
    obtain ⟨t', htracked, htable⟩ := ok_of_table (doEraseLoop_table.trans hrun)
    cases hused : t.table.usedTable.has (linear t.table.capacity b (n + 1)) with
    | false =>
      rw [hused] at hcontains
      have hlast := htracked
      rw [doEraseLoop_last hmask hcontains] at hlast
      refine ⟨t', htracked, fun _ => ?_, fun _ => staysFrom_free hused⟩
      cases herase : t.table.eraseLast b with
      | error e =>
        rw [herase] at hlast
        cases hlast
      | ok table₁ =>
        rw [herase] at hlast
        cases hlast
        exact ⟨rfl, rfl⟩
    | true =>
      rw [hused] at hcontains
      obtain ⟨a, ha⟩ := Option.ne_none_iff_exists'.mp (h.stored.constructed _ hused)
      have hslot : t.table.slots (linear t.table.capacity b (n + 1)) = some a := (slots_of_used hused).trans ha
      have hr := doHash_ok (T := T) h.shaped h.two (T.getKey a)
      have hiff := staysFrom_step (T := T) hused ha
      cases hmoves : t.table.moves b (linear t.table.capacity b (n + 1)) (t.table.home T (T.getKey a)) with
      | true =>
        rw [hmoves] at hiff
        refine ⟨t', htracked, fun hstays => ?_, fun hproper => ?_⟩
        · have := (hiff.mp hstays).1
          cases this
        · -- the slot of the erased item is live
          have hdist := moves_eq h.shaped h.bounds.1 hlt (home_lt (T := T) h.shaped hpos (T.getKey a))
          rw [hmoves] at hdist
          obtain ⟨table₁, hmove, _⟩ := h.move (by rw [hnext]; exact hne) (by rw [hnext]; exact hslot)
            (by rw [hnext]; exact of_decide_eq_true hdist.symm)
          rw [hnext] at hmove
          rw [doEraseLoop_move hmask hcontains ha hr hmoves hmove] at htracked
          have hbad := (Slots.proper_of_construct (doEraseLoop_proper htracked hproper)).2
          rw [hlive] at hbad
          cases hbad
      | false =>
        rw [hmoves] at hiff
        have hdist := moves_eq h.shaped h.bounds.1 hlt (home_lt (T := T) h.shaped hpos (T.getKey a))
        rw [hmoves] at hdist
        have hkeep := h.keep (by rw [hnext]; exact hne) (by rw [hnext]; exact hslot)
          (by rw [hnext]; exact Nat.le_of_not_lt (of_decide_eq_false hdist.symm))
        rw [hnext] at hkeep hstep
        obtain ⟨t₁, hrun₁, hstays₁, hproper₁⟩ := ih hkeep (by omega)
        rw [doEraseLoop_keep hmask hcontains ha hr hmoves]
        exact ⟨t₁, hrun₁, fun hstays => hstays₁ (hiff.mp hstays).2, fun hproper => hiff.mpr ⟨rfl, hproper₁ hproper⟩⟩

theorem eraseLast_held {table' : Table Item} (h : Held t) (hb : t.table.usedTable.has b = true) (hcount : t.table.count ≠ 0)
    (hrun : t.table.eraseLast b = .ok table') : Held ⟨table', t.slots.destroy b⟩ := by
  unfold Table.eraseLast at hrun
  cases hset : t.table.usedTable.set b false with
  | none =>
    rw [hset] at hrun
    cases hrun
  | some used =>
    rw [hset] at hrun
    cases hrun
    refine ⟨fun b' => ?_, ?_, ?_⟩
    · show update t.slots.live b false b' = used.has b'
      rw [BitSet.set_has hset]
      by_cases he : b' = b
      · rw [he, update_self, if_pos rfl]
      · rw [update_of_ne he, if_neg he]
        exact h.live b'
    · show (t.slots.proper && t.slots.live b) = true
      rw [h.proper, h.live b, hb]
      rfl
    · show t.slots.constructions = t.slots.destructions + 1 + (t.table.count - 1)
      rw [h.balance]
      omega

variable [EquivBEq Key]

/-- The item of the key, if there is one, leaves a bucket that no other item is to move into. -/
def Erases (T : Traits Key Value Item) (t : Table Item) (key : Key) : Prop :=
  ∀ bucket, t.count ≠ 0 → t.getBucket T key = .ok ⟨bucket, true⟩ → Stays T t bucket

theorem erase_held (h : Held t) (hok : TableOk T t.table) (hrun : t.erase T key = .ok t') :
    (Erases T t.table key → Held t') ∧ (t'.slots.proper = true → Erases T t.table key) := by
  unfold erase at hrun
  by_cases hzero : t.table.count = 0
  · rw [if_pos hzero] at hrun
    cases hrun
    exact ⟨fun _ => h, fun _ _ hcount => absurd hzero hcount⟩
  · rw [if_neg hzero] at hrun
    obtain ⟨hlt, h2⟩ := load_lt hok.load hzero
    cases getBucket_ok hok.toWellformed hlt h2 key with
    | inl hfound =>
      obtain ⟨bucket, a, hget, hb, hk⟩ := hfound
      rw [hget] at hrun
      replace hrun : doEraseLoop T t.table.capacity t bucket bucket = .ok t' := hrun
      obtain ⟨e, he, hstart⟩ := erasing_start hok hb
      have hused := Stored.has_of_some hb
      have hself : linear t.table.capacity bucket 0 = bucket := Nat.mod_eq_of_lt hstart.bounds.1
      obtain ⟨t₁, hrun₁, hstays, hproper⟩ := @doEraseLoop_stays _ _ _ _ _ _ _ _ 0 t.table.capacity _
        (by rw [hself]; exact hstart) (Nat.le_of_lt (dist_lt (by omega))) ((h.live bucket).trans hused)
      rw [hself] at hrun₁
      obtain rfl := Except.ok.inj (hrun.symm.trans hrun₁)
      refine ⟨fun herases => ?_, fun hp bucket' _ hget' => ?_⟩
      · obtain ⟨hlast, hslots⟩ := hstays (staysFrom_zero.mpr (herases bucket hzero hget))
        have hheld := eraseLast_held h hused hzero hlast
        rw [← hslots] at hheld
        exact hheld
      · rw [hget] at hget'
        cases hget'
        exact staysFrom_zero.mp (hproper hp)
    | inr hfree =>
      obtain ⟨bucket, hget, _⟩ := hfree
      rw [hget] at hrun
      cases hrun
      refine ⟨fun _ => h, fun _ bucket' _ hget' => ?_⟩
      rw [hget] at hget'
      cases hget'

end Holding

end Tracked

end Luwu.DenseHash2
