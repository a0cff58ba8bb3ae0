import Luwu.Dense.Erase2

/-!
# The operations of DenseHashTable2

What each operation makes of the finite map that a table is.  An operation fails only for want of memory.
-/

namespace Luwu.DenseHash2

open Function Luwu.Dense Luwu.Association Luwu.OpenAddressing

section Ops

variable {Key Value Item : Type} [BEq Key] [Inhabited Value] {T : Traits Key Value Item}
  {t t' newtable : Table Item} {key : Key} {item a : Item} {b e : ℕ} {room : ℕ → Bool} {v : Value}

/-! ### Making a table -/

/-- A power of two has its exponent as trailing zeroes. -/
theorem ctz_two_pow (he : e < 64) : (BitVec.ofNat 64 (2 ^ e)).ctz.toNat = e := by
  have hlt : 2 ^ e < 2 ^ 64 := Nat.pow_lt_pow_right (by omega) he
  have hbit : ∀ i, (BitVec.ofNat 64 (2 ^ e)).getLsbD i = decide (e = i) := by
    intro i
    show (BitVec.ofNat 64 (2 ^ e)).toNat.testBit i = _
    rw [BitVec.toNat_ofNat, Nat.mod_eq_of_lt hlt, Nat.testBit_two_pow]
  have hne : BitVec.ofNat 64 (2 ^ e) ≠ 0 := by
    intro h0
    have hset := hbit e
    rw [h0] at hset
    simp at hset
  have htrue := BitVec.getLsbD_true_ctz_of_ne_zero hne
  rw [hbit, decide_eq_true_eq] at htrue
  exact htrue.symm

omit [BEq Key] [Inhabited Value] in
theorem slots_make (capacity : ℕ) (data : ℕ → Option Item) (cap count shift : ℕ) :
    (⟨data, BitSet.make capacity, cap, count, shift⟩ : Table Item).slots = fun _ => none := by
  funext b
  exact slots_of_free (BitSet.has_make capacity b)

omit [BEq Key] [Inhabited Value] in
theorem stored_make (e : ℕ) (data : ℕ → Option Item) (count shift : ℕ) :
    Stored (⟨data, BitSet.make (2 ^ e), 2 ^ e, count, shift⟩ : Table Item) where
  covers := BitSet.covers_make e
  inside := by
    intro b hb
    rw [BitSet.has_make] at hb
    cases hb
  constructed := by
    intro b hb
    rw [BitSet.has_make] at hb
    cases hb

omit [BEq Key] [Inhabited Value] in
theorem entries_none (cap : ℕ) : entries cap (fun _ => (none : Option Item)) = [] :=
  List.filterMap_eq_nil_iff.mpr fun _ _ => rfl

/-- A table without buckets. -/
theorem empty_ok (T : Traits Key Value Item) : TableOk T (Table.empty : Table Item) where
  shaped := Or.inl rfl
  stored :=
    { covers := fun b hb => absurd hb (Nat.not_lt_zero b)
      inside := by
        intro b hb
        rw [show (Table.empty : Table Item).usedTable.has b = false from BitSet.has_make 0 b] at hb
        cases hb
      constructed := by
        intro b hb
        rw [show (Table.empty : Table Item).usedTable.has b = false from BitSet.has_make 0 b] at hb
        cases hb }
  layout := by
    rw [show (Table.empty : Table Item).slots = fun _ => none from slots_make 0 _ _ _ _]
    exact layout_empty
  size := rfl
  load := Nat.zero_le _

theorem make_pow_ok (T : Traits Key Value Item) (room : ℕ → Bool) (e : ℕ) :
    (Table.make room (2 ^ e) : DenseM (Table Item)) = .error .badalloc ∨
      ∃ t : Table Item, Table.make room (2 ^ e) = .ok t ∧ TableOk T t ∧ t.capacity = 2 ^ e ∧ t.count = 0 ∧
        t.contents = [] := by
  have hassert : ((2 ^ e &&& (2 ^ e - 1)) == 0) = true := by
    rw [Nat.and_two_pow_sub_one_eq_mod, Nat.mod_self]
    rfl
  unfold Table.make operatorNew assertion
  rw [hassert, if_pos rfl, if_neg (Nat.two_pow_pos e).ne']
  simp only [bind, Except.bind]
  by_cases hroom : 2 ^ e ≤ maxBuckets ∧ room (2 ^ e) = true
  · right
    have he : e ≤ 62 := by
      by_contra hlarge
      have : 2 ^ 62 < 2 ^ e := Nat.pow_lt_pow_right (by omega) (by omega)
      have hmax : 2 ^ e ≤ 2 ^ 62 := hroom.1
      omega
    rw [if_pos hroom]
    refine ⟨_, rfl, ⟨⟨Or.inr ⟨e, he, rfl, ?_⟩, stored_make e _ _ _, ?_, ?_⟩, Nat.zero_le _⟩, rfl, rfl, ?_⟩
    · show 64 - (BitVec.ofNat 64 (2 ^ e)).ctz.toNat = 64 - e
      rw [ctz_two_pow (by omega)]
    · rw [slots_make]
      exact layout_empty
    · unfold Table.contents
      rw [slots_make, entries_none]
      rfl
    · unfold Table.contents
      rw [slots_make, entries_none]
  · left
    rw [if_neg hroom]

/-! ### Growing -/

omit [BEq Key] [Inhabited Value] in
/-- The iteration over the bit set meets the items in the order of their buckets. -/
theorem indices_contents (h : Stored t) : t.usedTable.indices.filterMap t.slots = t.contents := by
  have hlen : t.capacity ≤ 64 * t.usedTable.data.length := by
    by_contra hlt
    have := h.covers (t.capacity - 1) (by omega)
    omega
  rw [BitSet.indices_eq, List.filterMap_filter]
  have hfun : (fun b => if t.usedTable.has b = true then t.slots b else none) = t.slots := by
    funext b
    cases hb : t.usedTable.has b with
    | false => exact (slots_of_free hb).symm
    | true => rfl
  rw [hfun]
  obtain ⟨m, hm⟩ := Nat.exists_eq_add_of_le hlen
  unfold Table.contents entries
  rw [hm, List.range_add, List.filterMap_append]
  have hrest : ((List.range m).map (t.capacity + ·)).filterMap t.slots = [] := by
    apply List.filterMap_eq_nil_iff.mpr
    intro b hb
    obtain ⟨i, _, rfl⟩ := List.mem_map.mp hb
    apply slots_of_free
    by_contra hused
    have := h.inside _ (Bool.not_eq_false _ ▸ hused)
    omega
  rw [hrest, List.append_nil]

variable [EquivBEq Key]

/-- Every item finds a free bucket in the new table. -/
theorem growLoop_ok {bs : List ℕ} (hused : ∀ b ∈ bs, t.usedTable.has b = true) (hs : Stored t)
    (h : Wellformed T newtable) (hcap : newtable.count + bs.length < newtable.capacity)
    (h2 : 2 ≤ newtable.capacity)
    (hd : Distinct T.getKey (bs.filterMap t.slots ++ newtable.contents)) :
    ∃ t', Table.growLoop T t bs newtable = .ok t' ∧ Wellformed T t' ∧ t'.capacity = newtable.capacity ∧
      t'.contents.Perm (bs.filterMap t.slots ++ newtable.contents) := by
  induction bs generalizing newtable with
  | nil => exact ⟨newtable, rfl, h, rfl, List.Perm.refl _⟩
  | cons b bs ih =>
    have hb := hused b List.mem_cons_self
    obtain ⟨item, hitem⟩ := Option.ne_none_iff_exists'.mp (hs.constructed b hb)
    have hslot : t.slots b = some item := (slots_of_used hb).trans hitem
    rw [List.filterMap_cons_some hslot] at hd
    rw [List.length_cons] at hcap
    have hfree : ∃ d, newtable.getBucket T (T.getKey item) = .ok ⟨d, false⟩ ∧
        Vacant (newtable.path T) T.getKey newtable.slots (T.getKey item) d := by
      cases getBucket_ok h (by omega) h2 (T.getKey item) with
      | inl hfound =>
        obtain ⟨d, a, _, ha, hk⟩ := hfound
        have hmem : a ∈ newtable.contents := mem_entries.mpr ⟨d, h.layout.bound d a ha, ha⟩
        have hfalse := (List.pairwise_cons.mp hd).1 a (List.mem_append_right _ hmem)
        rw [BEq.comm, hk] at hfalse
        cases hfalse
      | inr hfree => exact hfree
    obtain ⟨d, hget, hfree⟩ := hfree
    obtain ⟨t₁, hadd, h₁, hcap₁, hcount₁, _, hperm₁⟩ := addItem_ok h (by omega) hfree
    have hmid : (item :: (bs.filterMap t.slots ++ newtable.contents)).Perm
        (bs.filterMap t.slots ++ t₁.contents) :=
      List.perm_middle.symm.trans (List.Perm.append_left _ hperm₁.symm)
    obtain ⟨t', hrun, h', hcap', hperm'⟩ := ih (fun b' hb' => hused b' (List.mem_cons_of_mem b hb')) h₁
      (by rw [hcount₁, hcap₁]; omega) (by rw [hcap₁]; exact h2) (hd.perm hmid)
    refine ⟨t', ?_, h', hcap'.trans hcap₁, ?_⟩
    · rw [Table.growLoop]
      simp only [orFault, hitem, hget, assertion, hadd, bind, Except.bind, Bool.not_false, if_true]
      exact hrun
    · rw [List.filterMap_cons_some hslot]
      exact hperm'.trans hmid.symm

/-- The old table goes into one that is twice as large. -/
theorem grow_ok (h : TableOk T t) (room : ℕ → Bool) :
    t.grow T room = .error .badalloc ∨ ∃ t', t.grow T room = .ok t' ∧ TableOk T t' ∧
      t'.contents.Perm t.contents ∧ t'.count + 1 ≤ t'.capacity * 3 / 4 := by
  obtain ⟨e, hsize, he⟩ : ∃ e, (if t.capacity = 0 then 16 else t.capacity * 2) = 2 ^ e ∧
      t.count + 1 ≤ 2 ^ e * 3 / 4 := by
    have hload := h.load
    cases h.shaped with
    | inl h0 =>
      rw [if_pos h0]
      rw [h0] at hload
      exact ⟨4, rfl, by omega⟩
    | inr hpow =>
      obtain ⟨e, _, hcap, _⟩ := hpow
      have hpos := Nat.two_pow_pos e
      rw [if_neg (by omega)]
      refine ⟨e + 1, by rw [hcap, pow_succ], ?_⟩
      rw [pow_succ]
      omega
  unfold Table.grow
  rw [hsize]
  cases make_pow_ok T room e with
  | inl hbad =>
    left
    rw [hbad]
    rfl
  | inr hmake =>
    obtain ⟨n, hmake, hn, hcap, hcount, hnil⟩ := hmake
    right
    have hlen : t.usedTable.indices.length = t.count := by
      rw [h.size, ← indices_contents h.stored]
      symm
      apply List.filterMap_length_eq_length.mpr
      intro b hb
      have hb := BitSet.mem_indices.mp hb
      rw [slots_of_used hb]
      exact Option.isSome_iff_ne_none.mpr (h.stored.constructed b hb)
    obtain ⟨t', hrun, h', hcap', hperm⟩ := growLoop_ok (fun b hb => BitSet.mem_indices.mp hb) h.stored
      hn.toWellformed (by omega) (by omega)
      (by rw [indices_contents h.stored, hnil, List.append_nil]; exact h.layout.distinct_entries)
    rw [indices_contents h.stored, hnil, List.append_nil] at hperm
    have hcount' : t.count = t'.count := by
      rw [h.size, h'.size, hperm.length_eq]
    refine ⟨t', ?_, ⟨h', ?_⟩, hperm, ?_⟩
    · rw [hmake]
      show (Table.growLoop T t t.usedTable.indices n >>= _) = _
      rw [hrun, hcount']
      simp only [bind, Except.bind, assertion, beq_self_eq_true, if_true]
      rfl
    · rw [hcap', hcap]
      omega
    · rw [hcap', hcap]
      omega

/-- There is room for the key when it is new; where it is an item of the table, nothing moves. -/
theorem rehash_if_full_ok (h : TableOk T t) (room : ℕ → Bool) (key : Key) :
    t.rehash_if_full T room key = .error .badalloc ∨ ∃ t', t.rehash_if_full T room key = .ok t' ∧
      TableOk T t' ∧ t'.contents.Perm t.contents ∧
      (get T.getKey t.contents key = none → t'.count + 1 ≤ t'.capacity * 3 / 4) ∧
      (get T.getKey t.contents key ≠ none → t' = t) := by
  unfold Table.rehash_if_full
  by_cases hfull : t.capacity * 3 / 4 ≤ t.count
  · rw [if_pos hfull]
    cases find_ok h key with
    | inl hfound =>
      obtain ⟨b, a, hfind, _, _, hget⟩ := hfound
      right
      refine ⟨t, ?_, h, List.Perm.refl _, fun hnone => ?_, fun _ => rfl⟩
      · rw [hfind]
        rfl
      · rw [hget] at hnone
        cases hnone
    | inr hnone =>
      obtain ⟨hfind, hget⟩ := hnone
      rw [hfind]
      cases grow_ok h room with
      | inl hbad => exact Or.inl hbad
      | inr hgrow =>
        obtain ⟨t', hgrow, h', hperm, hroom⟩ := hgrow
        exact Or.inr ⟨t', hgrow, h', hperm, fun _ => hroom, fun hsome => absurd hget hsome⟩
  · rw [if_neg hfull]
    exact Or.inr ⟨t, rfl, h, List.Perm.refl _, fun _ => by omega, fun _ => rfl⟩

/-! ### Inserting -/

/-- The item of the key, new or not. -/
theorem insert_unsafe_ok (h : TableOk T t)
    (hroom : get T.getKey t.contents key = none → t.count + 1 ≤ t.capacity * 3 / 4) :
    ∃ t' b a, t.insert_unsafe T key = .ok (t', b) ∧ TableOk T t' ∧ t'.slots b = some a ∧
      (T.getKey a == key) = true ∧ t'.contents.Perm (put T.getKey t.contents key (T.setKey key)) ∧
      t'.count = if (get T.getKey t.contents key).isSome then t.count else t.count + 1 := by
  have hlive : t.count < t.capacity ∧ 2 ≤ t.capacity := by
    by_cases hzero : t.count = 0
    · have hnil : t.contents = [] := List.length_eq_zero_iff.mp (h.size.symm.trans hzero)
      have := hroom (by rw [hnil]; rfl)
      omega
    · exact load_lt h.load hzero
  unfold Table.insert_unsafe
  cases getBucket_ok h.toWellformed hlive.1 hlive.2 key with
  | inl hfound =>
    obtain ⟨b, a, hget, hb, hk⟩ := hfound
    have hsome := h.layout.get_some hb hk
    replace hsome : get T.getKey t.contents key = some a := hsome
    refine ⟨t, b, a, ?_, h, hb, hk, ?_, ?_⟩
    · rw [hget]
      rfl
    · unfold put
      rw [hsome]
      exact List.Perm.refl _
    · rw [hsome]
      rfl
  | inr hfree =>
    obtain ⟨b, hget, hfree⟩ := hfree
    have hnone : get T.getKey t.contents key = none := Layout.get_none hfree.absent
    rw [← T.getKey_setKey key] at hfree
    obtain ⟨t', hadd, h', hcap, hcount, hslot, hperm⟩ := addItem_ok h.toWellformed (by omega) hfree
    refine ⟨t', b, T.setKey key, ?_, ⟨h', ?_⟩, hslot, ?_, ?_, ?_⟩
    · rw [hget]
      show (t.addItem b (T.setKey key) >>= _) = _
      rw [hadd]
      rfl
    · rw [hcap, hcount]
      exact hroom hnone
    · rw [T.getKey_setKey]
      exact BEq.rfl
    · unfold put
      rw [hnone]
      exact hperm
    · rw [hcount, hnone]
      rfl

/-- A value is stored in an item. -/
theorem store_ok (h : TableOk T t) (hb : t.slots b = some a) (hk : (T.getKey a == key) = true) (v : Value) :
    ∃ t', t.store T b v = .ok t' ∧ TableOk T t' ∧
      t'.contents = modify T.getKey t.contents key fun item => T.setValue item v := by
  have hused := Stored.has_of_some hb
  have hdata : t.data b = some a := (slots_of_used hused).symm.trans hb
  have hw : Written t { t with data := update t.data b (some (T.setValue a v)) }
      (update t.slots b (some (T.setValue a v))) t.count := by
    refine ⟨rfl, rfl, ⟨h.stored.covers, h.stored.inside, fun b' hb' => ?_⟩, ?_, rfl⟩
    · show update t.data b _ b' ≠ none
      by_cases he : b' = b
      · rw [he, update_self]
        exact Option.some_ne_none _
      · rw [update_of_ne he]
        exact h.stored.constructed b' hb'
    · funext b'
      show (if t.usedTable.has b' then update t.data b _ b' else none) = _
      by_cases he : b' = b
      · rw [he, hused, update_self, update_self]
        rfl
      · rw [update_of_ne he, update_of_ne he]
        rfl
  have hcontents := entries_rewrite h.layout hb hk fun item => T.setValue item v
  refine ⟨_, ?_, ⟨hw.wellformed h.shaped (h.layout.rewrite hb (T.getKey_setValue a v)) ?_, h.load⟩, ?_⟩
  · unfold Table.store
    rw [hdata]
    rfl
  · rw [hcontents, h.size]
    exact (List.length_map _).symm
  · unfold Table.contents
    rw [hw.slots]
    exact hcontents

theorem insert_ok (h : TableOk T t) (room : ℕ → Bool) (key : Key) :
    t.insert T room key = .error .badalloc ∨ ∃ t' b a, t.insert T room key = .ok (t', b) ∧ TableOk T t' ∧
      t'.slots b = some a ∧ (T.getKey a == key) = true ∧
      t'.contents.Perm (put T.getKey t.contents key (T.setKey key)) := by
  unfold Table.insert
  cases rehash_if_full_ok h room key with
  | inl hbad =>
    left
    rw [hbad]
    rfl
  | inr hre =>
    obtain ⟨t₁, hre, h₁, hperm₁, hnew, _⟩ := hre
    have hget := get_perm h₁.layout.distinct_entries hperm₁ key
    replace hget : get T.getKey t₁.contents key = get T.getKey t.contents key := hget
    obtain ⟨t', b, a, hins, h', hb, hk, hperm, _⟩ := insert_unsafe_ok h₁ (fun hnone => hnew (hget ▸ hnone))
    right
    refine ⟨t', b, a, ?_, h', hb, hk, hperm.trans (put_perm h₁.layout.distinct_entries hperm₁)⟩
    rw [hre]
    exact hins

theorem assign_ok (h : TableOk T t) (room : ℕ → Bool) (key : Key) (v : Value) :
    t.assign T room key v = .error .badalloc ∨ ∃ t', t.assign T room key v = .ok t' ∧ TableOk T t' ∧
      t'.contents.Perm (modify T.getKey (put T.getKey t.contents key (T.setKey key)) key
        fun item => T.setValue item v) := by
  unfold Table.assign
  cases insert_ok h room key with
  | inl hbad =>
    left
    rw [hbad]
    rfl
  | inr hins =>
    obtain ⟨t₁, b, a, hins, h₁, hb, hk, hperm⟩ := hins
    obtain ⟨t', hstore, h', hcontents⟩ := store_ok h₁ hb hk v
    right
    refine ⟨t', ?_, h', ?_⟩
    · rw [hins]
      exact hstore
    · rw [hcontents]
      exact modify_perm hperm key _

/-- The value is stored when the key is new. -/
theorem try_insert_ok (h : TableOk T t) (room : ℕ → Bool) (key : Key) (v : Value) :
    t.try_insert T room key v = .error .badalloc ∨ ∃ t', t.try_insert T room key v =
        .ok (t', !(get T.getKey t.contents key).isSome) ∧ TableOk T t' ∧
      t'.contents.Perm (if (get T.getKey t.contents key).isSome then t.contents
        else modify T.getKey (put T.getKey t.contents key (T.setKey key)) key fun item => T.setValue item v) := by
  unfold Table.try_insert
  cases rehash_if_full_ok h room key with
  | inl hbad =>
    left
    rw [hbad]
    rfl
  | inr hre =>
    obtain ⟨t₁, hre, h₁, hperm₁, hnew, _⟩ := hre
    have hget : get T.getKey t₁.contents key = get T.getKey t.contents key :=
      get_perm h₁.layout.distinct_entries hperm₁ key
    obtain ⟨t₂, b, a, hins, h₂, hb, hk, hperm, hcount⟩ := insert_unsafe_ok h₁ (fun hnone => hnew (hget ▸ hnone))
    have hperm₂ := hperm.trans (put_perm h₁.layout.distinct_entries hperm₁)
    right
    rw [hre]
    simp only [bind, Except.bind, hins]
    rw [hget] at hcount
    cases hsome : (get T.getKey t.contents key).isSome with
    | true =>
      rw [hsome, if_pos rfl] at hcount
      rw [if_neg (by omega), if_pos rfl]
      refine ⟨t₂, rfl, h₂, ?_⟩
      unfold put at hperm₂
      rw [hsome, if_pos rfl] at hperm₂
      exact hperm₂
    | false =>
      rw [hsome, if_neg Bool.false_ne_true] at hcount
      rw [if_pos (by omega), if_neg Bool.false_ne_true]
      obtain ⟨t', hstore, h', hcontents⟩ := store_ok h₂ hb hk v
      refine ⟨t', ?_, h', ?_⟩
      · rw [hstore]
        rfl
      · rw [hcontents]
        exact modify_perm hperm₂ key _

/-! ### Looking up -/

theorem lookup_ok (h : TableOk T t) (key : Key) :
    t.lookup T key = .ok (get T.getKey t.contents key) := by
  unfold Table.lookup
  cases find_ok h key with
  | inl hfound =>
    obtain ⟨b, a, hfind, hb, _, hget⟩ := hfound
    have hdata : t.data b = some a := (slots_of_used (Stored.has_of_some hb)).symm.trans hb
    rw [hfind, hget]
    simp only [bind, Except.bind, hdata, orFault]
    rfl
  | inr hnone =>
    obtain ⟨hfind, hget⟩ := hnone
    rw [hfind, hget]
    rfl

theorem change_ok (h : TableOk T t) (key : Key) (v : Value) :
    ∃ t', t.change T key v = .ok t' ∧ TableOk T t' ∧
      t'.contents = modify T.getKey t.contents key fun item => T.setValue item v := by
  unfold Table.change
  cases find_ok h key with
  | inl hfound =>
    obtain ⟨b, a, hfind, hb, hk, hget⟩ := hfound
    rw [hfind]
    exact store_ok h hb hk v
  | inr hnone =>
    obtain ⟨hfind, hget⟩ := hnone
    rw [hfind]
    exact ⟨t, rfl, h, (modify_of_get_none hget _).symm⟩

/-! ### Clearing and copying -/

omit [EquivBEq Key] in
theorem clear_ok (h : TableOk T t) (thresholdToDestroy : ℕ) :
    TableOk T (t.clear thresholdToDestroy) ∧ (t.clear thresholdToDestroy).contents = [] := by
  unfold Table.clear
  split
  · next hzero => exact ⟨h, List.length_eq_zero_iff.mp (h.size.symm.trans hzero)⟩
  · split
    · exact ⟨empty_ok T, rfl⟩
    · have hfree : ∀ b, ({ t with data := fun _ => none, usedTable := t.usedTable.clear, count := 0 } :
          Table Item).usedTable.has b = false := BitSet.has_clear t.usedTable
      have hslots : ({ t with data := fun _ => none, usedTable := t.usedTable.clear, count := 0 } :
          Table Item).slots = fun _ => none := by
        funext b
        exact slots_of_free (hfree b)
      have hcontents : ({ t with data := fun _ => none, usedTable := t.usedTable.clear, count := 0 } :
          Table Item).contents = [] := by
        unfold Table.contents
        rw [hslots, entries_none]
      refine ⟨⟨⟨h.shaped, ⟨BitSet.covers_clear h.stored.covers, fun b hb => ?_, fun b hb => ?_⟩, ?_, ?_⟩,
        Nat.zero_le _⟩, hcontents⟩
      · rw [hfree b] at hb
        cases hb
      · rw [hfree b] at hb
        cases hb
      · rw [hslots]
        exact layout_empty
      · rw [hcontents]
        rfl

omit [BEq Key] [Inhabited Value] [EquivBEq Key] in
/-- The copy has the items of the buckets gone through so far. -/
theorem copyLoop_ok {bs : List ℕ} (hused : ∀ b ∈ bs, t.usedTable.has b = true) (hs : Stored t)
    (h : Stored newtable) (hcap : newtable.capacity = t.capacity) :
    ∃ t', Table.copyLoop t bs newtable = .ok t' ∧ Stored t' ∧ t'.capacity = newtable.capacity ∧
      t'.hashShift = newtable.hashShift ∧ t'.count = newtable.count ∧
      ∀ b, t'.slots b = if b ∈ bs then t.slots b else newtable.slots b := by
  induction bs generalizing newtable with
  | nil => exact ⟨newtable, rfl, h, rfl, rfl, rfl, fun b => (if_neg List.not_mem_nil).symm⟩
  | cons b bs ih =>
    have hb := hused b List.mem_cons_self
    obtain ⟨item, hitem⟩ := Option.ne_none_iff_exists'.mp (hs.constructed b hb)
    have hlt : b < newtable.capacity := by
      rw [hcap]
      exact hs.inside b hb
    obtain ⟨n, hadd, hw⟩ := addItem_written h hlt item
    obtain ⟨used, hset, hn⟩ : ∃ used, newtable.usedTable.set b true = some used ∧
        n = { newtable with usedTable := used, data := update newtable.data b (some item), count := newtable.count + 1 } := by
      unfold Table.addItem at hadd
      cases hset : newtable.usedTable.set b true with
      | none =>
        rw [hset] at hadd
        cases hadd
      | some used =>
        rw [hset] at hadd
        exact ⟨used, rfl, (Except.ok.inj hadd).symm⟩
    subst hn
    have hn : Stored { newtable with usedTable := used, data := update newtable.data b (some item) } :=
      ⟨hw.stored.covers, hw.stored.inside, hw.stored.constructed⟩
    obtain ⟨t', hrun, h', hcap', hshift', hcount', hslots'⟩ :=
      ih (fun b' hb' => hused b' (List.mem_cons_of_mem b hb')) hn hcap
    refine ⟨t', ?_, h', hcap', hshift', hcount', fun b' => ?_⟩
    · rw [Table.copyLoop, hitem, hset]
      exact hrun
    · have hslots : ({ newtable with usedTable := used, data := update newtable.data b (some item) } :
          Table Item).slots = update newtable.slots b (some item) := hw.slots
      rw [hslots' b', hslots]
      by_cases he : b' = b
      · subst he
        rw [update_self, if_pos List.mem_cons_self]
        split
        · rfl
        · exact ((slots_of_used hb).trans hitem).symm
      · rw [update_of_ne he]
        have hiff : b' ∈ b :: bs ↔ b' ∈ bs := by
          rw [List.mem_cons]
          exact ⟨fun hm => hm.resolve_left he, Or.inr⟩
        simp only [hiff]

omit [EquivBEq Key] in
theorem copy_ok (h : TableOk T t) (room : ℕ → Bool) :
    t.copy room = .error .badalloc ∨ ∃ t', t.copy room = .ok t' ∧ TableOk T t' ∧ t'.contents = t.contents := by
  unfold Table.copy operatorNew
  by_cases hzero : t.capacity = 0
  · right
    rw [if_pos hzero]
    have hcount : t.count = 0 := by
      have := h.load
      omega
    have hnil : t.contents = [] := List.length_eq_zero_iff.mp (h.size.symm.trans hcount)
    rw [hcount, hnil]
    have hslots := @slots_make Item 0 (fun _ => none) 0 0 t.hashShift
    refine ⟨_, rfl, ⟨⟨Or.inl rfl, ⟨fun b hb => absurd hb (Nat.not_lt_zero b), fun b hb => ?_, fun b hb => ?_⟩, ?_,
      rfl⟩, Nat.zero_le _⟩, rfl⟩
    · rw [show BitSet.has _ b = false from BitSet.has_make 0 b] at hb
      cases hb
    · rw [show BitSet.has _ b = false from BitSet.has_make 0 b] at hb
      cases hb
    · rw [hslots]
      exact layout_empty
  · rw [if_neg hzero]
    by_cases hroom : t.capacity ≤ maxBuckets ∧ room t.capacity = true
    · right
      rw [if_pos hroom]
      obtain ⟨e, _, hcap, _⟩ := h.shaped.resolve_left hzero
      have hmade := @stored_make Item e (fun _ => none) t.count t.hashShift
      rw [← hcap] at hmade
      obtain ⟨t', hrun, h', hcap', hshift', hcount', hslots'⟩ :=
        copyLoop_ok (fun b hb => BitSet.mem_indices.mp hb) h.stored hmade rfl
      have hslots : t'.slots = t.slots := by
        funext b
        rw [hslots' b, slots_make]
        split
        · rfl
        · next hb =>
          have hno : t.usedTable.has b = false :=
            Bool.not_eq_true _ ▸ fun htrue => hb (BitSet.mem_indices.mpr htrue)
          exact (slots_of_free hno).symm
      have hw : Written t t' t.slots t.count := ⟨hcap', hshift', h', hslots, hcount'⟩
      refine ⟨t', hrun, ⟨hw.wellformed h.shaped h.layout h.size, ?_⟩, ?_⟩
      · rw [hcap', hcount']
        exact h.load
      · unfold Table.contents
        rw [hcap', hslots]
    · left
      rw [if_neg hroom]
      rfl

/-! ### Iteration -/

omit [BEq Key] [Inhabited Value] [EquivBEq Key] in
/-- The items from a bucket on. -/
theorem range'_step {i : ℕ} (hi : i < t.capacity) :
    List.range' i (t.capacity - i) = i :: List.range' (i + 1) (t.capacity - (i + 1)) := by
  rw [show t.capacity - i = t.capacity - (i + 1) + 1 by omega, List.range'_succ]

omit [BEq Key] [Inhabited Value] [EquivBEq Key] in
/-- The iterator skips free buckets. -/
theorem advance_ok (hs : Stored t) {fuel i : ℕ} (hfuel : t.capacity - i ≤ fuel) :
    ∃ k, t.advance fuel i = .ok k ∧ i ≤ k ∧ (k < t.capacity → t.usedTable.has k = true) ∧
      (List.range' i (t.capacity - i)).filterMap t.slots = (List.range' k (t.capacity - k)).filterMap t.slots := by
  induction fuel generalizing i with
  | zero => exact ⟨i, rfl, Nat.le_refl i, fun hlt => by omega, rfl⟩
  | succ fuel ih =>
    rw [Table.advance]
    by_cases hlt : i < t.capacity
    · rw [if_pos hlt, BitSet.contains_eq hs.covers hlt]
      cases hused : t.usedTable.has i with
      | true => exact ⟨i, rfl, Nat.le_refl i, fun _ => hused, rfl⟩
      | false =>
        obtain ⟨k, hrun, hle, hk, hrest⟩ := ih (i := i + 1) (by omega)
        refine ⟨k, hrun, by omega, hk, ?_⟩
        rw [range'_step hlt, List.filterMap_cons_none (slots_of_free hused), hrest]
    · rw [if_neg hlt]
      exact ⟨i, rfl, Nat.le_refl i, fun h => absurd h hlt, rfl⟩

omit [BEq Key] [Inhabited Value] [EquivBEq Key] in
theorem itemsFrom_ok (hs : Stored t) {fuel i : ℕ} (hfuel : t.capacity - i ≤ fuel)
    (hi : i < t.capacity → t.usedTable.has i = true) :
    t.itemsFrom fuel i = .ok ((List.range' i (t.capacity - i)).filterMap t.slots) := by
  induction fuel generalizing i with
  | zero =>
    rw [show t.capacity - i = 0 by omega]
    rfl
  | succ fuel ih =>
    rw [Table.itemsFrom]
    by_cases hlt : i < t.capacity
    · obtain ⟨item, hitem⟩ := Option.ne_none_iff_exists'.mp (hs.constructed i (hi hlt))
      have hstart : t.capacity - (i + 1) ≤ t.capacity := Nat.sub_le _ _
      obtain ⟨k, hrun, hle, hk, hrest⟩ := advance_ok hs hstart
      rw [if_pos hlt, range'_step hlt, List.filterMap_cons_some ((slots_of_used (hi hlt)).trans hitem), hrest]
      simp only [orFault, hitem, hrun, ih (i := k) (by omega) hk, bind, Except.bind]
      rfl
    · rw [if_neg hlt, show t.capacity - i = 0 by omega]
      rfl

omit [EquivBEq Key] in
/-- Iteration visits every item once. -/
theorem items_ok (h : TableOk T t) : t.items = .ok t.contents := by
  obtain ⟨k, hrun, _, hk, hrest⟩ := advance_ok h.stored (Nat.sub_le t.capacity 0)
  unfold Table.items
  rw [hrun]
  show t.itemsFrom t.capacity k = _
  rw [itemsFrom_ok h.stored (by omega) hk, ← hrest, Nat.sub_zero]
  unfold Table.contents entries
  rw [List.range_eq_range']

end Ops

end Luwu.DenseHash2
