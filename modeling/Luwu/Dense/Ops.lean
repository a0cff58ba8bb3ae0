import Luwu.Dense.Invariant

/-!
# The operations of DenseHashTable

What each operation makes of the finite map that a table is.  An operation fails only for want of memory.
-/

namespace Luwu.DenseHash

open Function Luwu.Dense Luwu.Association Luwu.OpenAddressing

section Ops

variable {Key Value Item : Type} [BEq Key] [Inhabited Value] {T : Traits Key Value Item}
  {t t' newtable : Table Key Item} {key empty_key : Key} {item a : Item} {b e : ℕ} {room : ℕ → Bool} {v : Value}

theorem entries_none (cap : ℕ) : entries cap (fun _ => (none : Option Item)) = [] :=
  List.filterMap_eq_nil_iff.mpr fun _ _ => rfl

theorem getKey_newItem (key : Key) : T.getKey (T.newItem key) = key := T.getKey_setKey _ _

/-! ### Making a table -/

theorem bare_ok (T : Traits Key Value Item) (empty_key : Key) : TableOk T (Table.bare empty_key) where
  shaped := Or.inl rfl
  stored := ⟨fun b => ⟨fun hb => absurd hb (Nat.not_lt_zero b), fun hb => absurd rfl hb⟩,
    fun b item hitem => by cases hitem⟩
  layout := layout_empty
  size := rfl
  load := Nat.zero_le _

section Filled

variable [EquivBEq Key]

/-- Filled buckets hold nothing. -/
theorem slots_fill (T : Traits Key Value Item) (n cap count : ℕ) (empty_key : Key) :
    (⟨Table.fill T n empty_key, cap, count, empty_key⟩ : Table Key Item).slots T = fun _ => none := by
  funext b
  show (Table.fill T n empty_key b).bind _ = none
  unfold Table.fill
  split
  · rw [Option.bind_some, if_pos]
    rw [T.getKey_filler]
    exact BEq.rfl
  · rfl

omit [EquivBEq Key] in
theorem stored_fill (T : Traits Key Value Item) (n count : ℕ) (empty_key : Key) :
    Stored T (⟨Table.fill T n empty_key, n, count, empty_key⟩ : Table Key Item) where
  constructed := by
    intro b
    show b < n ↔ Table.fill T n empty_key b ≠ none
    unfold Table.fill
    split
    · next hlt => exact ⟨fun _ => Option.some_ne_none _, fun _ => hlt⟩
    · next hge => exact ⟨fun hlt => absurd hlt hge, fun hne => absurd rfl hne⟩
  blank := by
    intro b item hitem _
    replace hitem : Table.fill T n empty_key b = some item := hitem
    unfold Table.fill at hitem
    split at hitem
    · obtain rfl := Option.some.inj hitem
      exact T.getValue_filler empty_key
    · cases hitem

/-- A filled array is an empty table. -/
theorem fill_ok (T : Traits Key Value Item) (empty_key : Key) {n : ℕ} (hn : n = 0 ∨ ∃ e ≤ 62, n = 2 ^ e) :
    TableOk T (⟨Table.fill T n empty_key, n, 0, empty_key⟩ : Table Key Item) ∧
      (⟨Table.fill T n empty_key, n, 0, empty_key⟩ : Table Key Item).contents T = [] := by
  have hcontents : (⟨Table.fill T n empty_key, n, 0, empty_key⟩ : Table Key Item).contents T = [] := by
    unfold Table.contents
    rw [slots_fill, entries_none]
  refine ⟨⟨⟨hn, stored_fill T n 0 empty_key, ?_, ?_⟩, Nat.zero_le _⟩, hcontents⟩
  · rw [slots_fill]
    exact layout_empty
  · rw [hcontents]
    rfl

theorem make_pow_ok (T : Traits Key Value Item) (room : ℕ → Bool) (empty_key : Key) (e : ℕ) :
    Table.make T room empty_key (2 ^ e) = .error .badalloc ∨
      ∃ t, Table.make T room empty_key (2 ^ e) = .ok t ∧ TableOk T t ∧ t.capacity = 2 ^ e ∧ t.count = 0 ∧
        t.empty_key = empty_key ∧ t.contents T = [] := by
  have hassert : ((2 ^ e &&& (2 ^ e - 1)) == 0) = true := by
    rw [Nat.and_two_pow_sub_one_eq_mod, Nat.mod_self]
    rfl
  have hself : (empty_key == empty_key) = true := BEq.rfl
  unfold Table.make operatorNew assertion
  rw [hassert, hself, if_pos rfl, if_neg (Nat.two_pow_pos e).ne']
  simp only [bind, Except.bind]
  by_cases hroom : 2 ^ e ≤ maxBuckets ∧ room (2 ^ e) = true
  · right
    have he : e ≤ 62 := by
      by_contra hlarge
      have : 2 ^ 62 < 2 ^ e := Nat.pow_lt_pow_right (by omega) (by omega)
      have hmax : 2 ^ e ≤ 2 ^ 62 := hroom.1
      omega
    obtain ⟨hok, hnil⟩ := fill_ok T empty_key (Or.inr ⟨e, he, rfl⟩)
    rw [if_pos hroom]
    exact ⟨_, rfl, hok, rfl, rfl, rfl, hnil⟩
  · left
    rw [if_neg hroom]

theorem make_zero (T : Traits Key Value Item) (room : ℕ → Bool) (empty_key : Key) :
    Table.make T room empty_key 0 = .ok (Table.bare empty_key) := by
  have hself : (empty_key == empty_key) = true := BEq.rfl
  unfold Table.make assertion
  rw [hself]
  rfl

end Filled

/-! ### Inserting -/

/-- An item comes to where the search for its key ended. -/
theorem place_ok [EquivBEq Key] (h : Wellformed T t) (hpos : 0 < t.capacity)
    (hkey : (T.getKey item == t.empty_key) = false)
    (hv : Vacant (t.path T) T.getKey (t.slots T) (T.getKey item) b) :
    Wellformed T { t with data := update t.data b (some item), count := t.count + 1 } ∧
      Table.slots T { t with data := update t.data b (some item), count := t.count + 1 } b = some item ∧
      (Table.contents T { t with data := update t.data b (some item), count := t.count + 1 }).Perm
        (item :: t.contents T) := by
  obtain ⟨n, hn, _⟩ := hv.reach
  have hp : Paths t.capacity (t.path T) := paths_ok h.shaped hpos
  have hb : b < t.capacity := by
    rw [← hn]
    exact hp.bound _ n
  have hw := item_written h.stored hb hkey (t.count + 1)
  have hperm := entries_place hb hv.empty item
  refine ⟨hw.wellformed h.shaped (h.layout.place hp hv) ?_, ?_, ?_⟩
  · rw [hperm.length_eq, List.length_cons, h.size]
    rfl
  · rw [hw.slots, update_self]
  · unfold Table.contents
    rw [hw.slots]
    exact hperm

/-- The key is there, or its item comes into an empty bucket. -/
theorem insert_unsafe_cases [EquivBEq Key] (h : Wellformed T t) (hlt : t.count < t.capacity)
    (hkey : (key == t.empty_key) = false) :
    (∃ b a, t.insert_unsafe T key = .ok (t, b) ∧ t.slots T b = some a ∧ (T.getKey a == key) = true) ∨
      ∃ b, t.insert_unsafe T key =
          .ok ({ t with data := update t.data b (some (T.newItem key)), count := t.count + 1 }, b) ∧
        Vacant (t.path T) T.getKey (t.slots T) key b := by
  have hpos : 0 < t.capacity := by omega
  have hp : Paths t.capacity (t.path T) := paths_ok h.shaped hpos
  have hloop := insertLoop_probe h.stored (hp.bound key) (path_next h.shaped hpos key) key t.capacity 0
  unfold Table.insert_unsafe
  rw [hkey, path_start h.shaped hpos, hloop]
  cases probe_cases hp h.layout (h.size ▸ hlt) key with
  | inl hfound =>
    obtain ⟨b, a, hprobe, hb, hk⟩ := hfound
    rw [hprobe]
    exact Or.inl ⟨b, a, rfl, hb, hk⟩
  | inr hfree =>
    obtain ⟨b, hprobe, hv⟩ := hfree
    rw [hprobe]
    right
    obtain ⟨n, hn, _⟩ := hv.reach
    have hb : b < t.capacity := by
      rw [← hn]
      exact hp.bound _ n
    obtain ⟨item, hitem⟩ := Option.ne_none_iff_exists'.mp ((h.stored.constructed b).mp hb)
    have hempty : (T.getKey item == t.empty_key) = true := by
      by_contra hne
      have hsome := slots_of_item (T := T) hitem (Bool.not_eq_true _ ▸ hne)
      rw [hv.empty] at hsome
      cases hsome
    -- the bucket has no value of its own
    have hnew : T.setKey item key = T.newItem key := by
      apply T.ext
      · rw [T.getKey_setKey, getKey_newItem]
      · unfold Traits.newItem
        rw [T.getValue_setKey, T.getValue_setKey, T.getValue_filler, h.stored.blank b item hitem hempty]
    refine ⟨b, ?_, hv⟩
    simp only [insertResult, bind, Except.bind, assertion, Bool.not_false, if_true, orFault, hitem, hnew]
    rfl

theorem insert_unsafe_ok [EquivBEq Key] (h : TableOk T t) (hkey : (key == t.empty_key) = false)
    (hroom : get T.getKey (t.contents T) key = none → t.count + 1 ≤ t.capacity * 3 / 4) :
    ∃ t' b a, t.insert_unsafe T key = .ok (t', b) ∧ TableOk T t' ∧ t'.empty_key = t.empty_key ∧
      t'.slots T b = some a ∧ (T.getKey a == key) = true ∧
      (t'.contents T).Perm (put T.getKey (t.contents T) key (T.newItem key)) ∧
      t'.count = if (get T.getKey (t.contents T) key).isSome then t.count else t.count + 1 := by
  have hlt : t.count < t.capacity := by
    by_cases hzero : t.count = 0
    · have hnil : t.contents T = [] := List.length_eq_zero_iff.mp (h.size.symm.trans hzero)
      have := hroom (by rw [hnil]; rfl)
      omega
    · exact load_lt h.load hzero
  cases insert_unsafe_cases h.toWellformed hlt hkey with
  | inl hfound =>
    obtain ⟨b, a, hrun, hb, hk⟩ := hfound
    have hsome : get T.getKey (t.contents T) key = some a := h.layout.get_some hb hk
    refine ⟨t, b, a, hrun, h, rfl, hb, hk, ?_, ?_⟩
    · unfold put
      rw [hsome]
      exact List.Perm.refl _
    · rw [hsome]
      rfl
  | inr hfree =>
    obtain ⟨b, hrun, hv⟩ := hfree
    have hnone : get T.getKey (t.contents T) key = none := Layout.get_none hv.absent
    have hkey' : (T.getKey (T.newItem key) == t.empty_key) = false := by
      rw [getKey_newItem]
      exact hkey
    rw [← getKey_newItem (T := T) key] at hv
    obtain ⟨h', hslot, hperm⟩ := place_ok h.toWellformed (by omega) hkey' hv
    refine ⟨_, b, T.newItem key, hrun, ⟨h', hroom hnone⟩, rfl, hslot, ?_, ?_, ?_⟩
    · rw [getKey_newItem]
      exact BEq.rfl
    · unfold put
      rw [hnone]
      exact hperm
    · rw [hnone]
      rfl

/-! ### Rehashing -/

/-- Every item finds a free bucket in the new table. -/
theorem rehashLoop_ok [EquivBEq Key] {is : List ℕ} (hin : ∀ i ∈ is, i < t.capacity) (hs : Stored T t)
    (h : Wellformed T newtable) (hempty : newtable.empty_key = t.empty_key)
    (hcap : newtable.count + (is.filterMap (t.slots T)).length < newtable.capacity)
    (hd : Distinct T.getKey (is.filterMap (t.slots T) ++ newtable.contents T)) :
    ∃ t', Table.rehashLoop T t is newtable = .ok t' ∧ Wellformed T t' ∧ t'.capacity = newtable.capacity ∧
      t'.empty_key = t.empty_key ∧ (t'.contents T).Perm (is.filterMap (t.slots T) ++ newtable.contents T) := by
  induction is generalizing newtable with
  | nil => exact ⟨newtable, rfl, h, rfl, hempty, List.Perm.refl _⟩
  | cons i is ih =>
    have hrest : ∀ i ∈ is, i < t.capacity := fun j hj => hin j (List.mem_cons_of_mem i hj)
    obtain ⟨item, hitem⟩ := Option.ne_none_iff_exists'.mp ((hs.constructed i).mp (hin i List.mem_cons_self))
    cases hkey : T.getKey item == t.empty_key with
    | true =>
      have hslot := slots_of_empty (T := T) hitem hkey
      rw [List.filterMap_cons_none hslot] at hcap hd ⊢
      obtain ⟨t', hrun, h', hcap', hempty', hperm'⟩ := ih hrest h hempty hcap hd
      refine ⟨t', ?_, h', hcap', hempty', hperm'⟩
      rw [Table.rehashLoop, hitem]
      simp only [orFault, bind, Except.bind, hkey, if_true]
      exact hrun
    | false =>
      have hslot := slots_of_item (T := T) hitem hkey
      rw [List.filterMap_cons_some hslot] at hcap hd ⊢
      rw [List.length_cons] at hcap
      have hkey' : (T.getKey item == newtable.empty_key) = false := by
        rw [hempty]
        exact hkey
      have hfree : ∃ b, newtable.insert_unsafe T (T.getKey item) =
            .ok ({ newtable with data := update newtable.data b (some (T.newItem (T.getKey item))), count := newtable.count + 1 }, b) ∧
          Vacant (newtable.path T) T.getKey (newtable.slots T) (T.getKey item) b := by
        cases insert_unsafe_cases h (by omega) hkey' with
        | inl hfound =>
          obtain ⟨b, a, _, ha, hk⟩ := hfound
          have hmem : a ∈ newtable.contents T := mem_entries.mpr ⟨b, h.layout.bound b a ha, ha⟩
          have hfalse := (List.pairwise_cons.mp hd).1 a (List.mem_append_right _ hmem)
          rw [BEq.comm, hk] at hfalse
          cases hfalse
        | inr hfree => exact hfree
      obtain ⟨b, hins, hv⟩ := hfree
      obtain ⟨h₁, _, hperm₁⟩ := place_ok h (by omega) hkey' hv
      have hmid : (item :: (is.filterMap (t.slots T) ++ newtable.contents T)).Perm
          (is.filterMap (t.slots T) ++ Table.contents T
            { newtable with data := update newtable.data b (some item), count := newtable.count + 1 }) :=
        List.perm_middle.symm.trans (List.Perm.append_left _ hperm₁.symm)
      have hcap₁ : newtable.count + 1 + (is.filterMap (t.slots T)).length < newtable.capacity := by omega
      obtain ⟨t', hrun, h', hcap', hempty', hperm'⟩ := ih hrest h₁ hempty hcap₁ (hd.perm hmid)
      refine ⟨t', ?_, h', hcap', hempty', hperm'.trans hmid.symm⟩
      rw [Table.rehashLoop, hitem]
      simp only [orFault, bind, Except.bind, hkey, Bool.false_eq_true, if_false, hins]
      unfold Table.storeItem
      simp only [update_idem]
      exact hrun

/-- The old table goes into one that is twice as large. -/
theorem rehash_ok [EquivBEq Key] (h : TableOk T t) (room : ℕ → Bool) :
    t.rehash T room = .error .badalloc ∨ ∃ t', t.rehash T room = .ok t' ∧ TableOk T t' ∧
      t'.empty_key = t.empty_key ∧ (t'.contents T).Perm (t.contents T) ∧ t'.count + 1 ≤ t'.capacity * 3 / 4 := by
  obtain ⟨e, hsize, he⟩ : ∃ e, (if t.capacity = 0 then 16 else t.capacity * 2) = 2 ^ e ∧
      t.count + 1 ≤ 2 ^ e * 3 / 4 := by
    have hload := h.load
    cases h.shaped with
    | inl h0 =>
      rw [if_pos h0]
      rw [h0] at hload
      exact ⟨4, rfl, by omega⟩
    | inr hpow =>
      obtain ⟨e, _, hcap⟩ := hpow
      have hpos := Nat.two_pow_pos e
      rw [if_neg (by omega)]
      refine ⟨e + 1, by rw [hcap, pow_succ], ?_⟩
      rw [pow_succ]
      omega
  unfold Table.rehash
  rw [hsize]
  cases make_pow_ok T room t.empty_key e with
  | inl hbad =>
    left
    rw [hbad]
    rfl
  | inr hmake =>
    obtain ⟨n, hmake, hn, hcap, hcount, hempty, hnil⟩ := hmake
    right
    have hsizes : t.count = ((List.range t.capacity).filterMap (t.slots T)).length := h.size
    have hd : Distinct T.getKey ((List.range t.capacity).filterMap (t.slots T) ++ n.contents T) := by
      rw [hnil, List.append_nil]
      exact h.layout.distinct_entries
    obtain ⟨t', hrun, h', hcap', hempty', hperm⟩ := rehashLoop_ok (fun i hi => List.mem_range.mp hi) h.stored
      hn.toWellformed hempty (by omega) hd
    rw [hnil, List.append_nil] at hperm
    have hcount' : t.count = t'.count := by
      rw [h.size, h'.size, hperm.length_eq]
      rfl
    refine ⟨t', ?_, ⟨h', ?_⟩, hempty', hperm, ?_⟩
    · rw [hmake]
      show (Table.rehashLoop T t (List.range t.capacity) n >>= _) = _
      rw [hrun, hcount']
      simp only [bind, Except.bind, assertion, beq_self_eq_true, if_true]
      rw [← hcount', ← hempty', hcount']
      rfl
    · rw [hcap', hcap]
      omega
    · rw [hcap', hcap]
      omega

/-- There is room for the key when it is new; where it is an item of the table, nothing moves. -/
theorem rehash_if_full_ok [EquivBEq Key] (h : TableOk T t) (room : ℕ → Bool) (key : Key) :
    t.rehash_if_full T room key = .error .badalloc ∨ ∃ t', t.rehash_if_full T room key = .ok t' ∧
      TableOk T t' ∧ t'.empty_key = t.empty_key ∧ (t'.contents T).Perm (t.contents T) ∧
      (get T.getKey (t.contents T) key = none → t'.count + 1 ≤ t'.capacity * 3 / 4) ∧
      (get T.getKey (t.contents T) key ≠ none → t' = t) := by
  unfold Table.rehash_if_full
  by_cases hfull : t.capacity * 3 / 4 ≤ t.count
  · rw [if_pos hfull]
    cases find_ok h key with
    | inl hfound =>
      obtain ⟨b, a, hfind, _, _, hget⟩ := hfound
      right
      refine ⟨t, ?_, h, rfl, List.Perm.refl _, fun hnone => ?_, fun _ => rfl⟩
      · rw [hfind]
        rfl
      · rw [hget] at hnone
        cases hnone
    | inr hnone =>
      obtain ⟨hfind, hget⟩ := hnone
      rw [hfind]
      cases rehash_ok h room with
      | inl hbad => exact Or.inl hbad
      | inr hre =>
        obtain ⟨t', hre, h', hempty, hperm, hroom⟩ := hre
        exact Or.inr ⟨t', hre, h', hempty, hperm, fun _ => hroom, fun hsome => absurd hget hsome⟩
  · rw [if_neg hfull]
    exact Or.inr ⟨t, rfl, h, rfl, List.Perm.refl _, fun _ => by omega, fun _ => rfl⟩

/-! ### Sets and maps -/

/-- A value is stored in an item. -/
theorem store_ok [EquivBEq Key] (h : TableOk T t) (hb : t.slots T b = some a) (hk : (T.getKey a == key) = true)
    (v : Value) : ∃ t', t.store T b v = .ok t' ∧ TableOk T t' ∧ t'.empty_key = t.empty_key ∧
      t'.contents T = modify T.getKey (t.contents T) key fun item => T.setValue item v := by
  obtain ⟨hdata, hne⟩ := data_of_slots hb
  have hlt : b < t.capacity := h.layout.bound b a hb
  have hw := @item_written _ _ _ _ _ _ _ (T.setValue a v) _ h.stored hlt (by rw [T.getKey_setValue]; exact hne) t.count
  have hcontents := entries_rewrite h.layout hb hk fun item => T.setValue item v
  refine ⟨t.storeItem b (T.setValue a v), ?_, ⟨hw.wellformed h.shaped
    (h.layout.rewrite hb (T.getKey_setValue a v)) ?_, h.load⟩, rfl, ?_⟩
  · unfold Table.store
    rw [hdata]
    rfl
  · rw [hcontents, h.size]
    exact (List.length_map _).symm
  · unfold Table.contents
    rw [show (t.storeItem b (T.setValue a v)).slots T = _ from hw.slots]
    exact hcontents

theorem insert_ok [EquivBEq Key] (h : TableOk T t) (room : ℕ → Bool) (hkey : (key == t.empty_key) = false) :
    t.insert T room key = .error .badalloc ∨ ∃ t' b a, t.insert T room key = .ok (t', b) ∧ TableOk T t' ∧
      t'.empty_key = t.empty_key ∧ t'.slots T b = some a ∧ (T.getKey a == key) = true ∧
      (t'.contents T).Perm (put T.getKey (t.contents T) key (T.newItem key)) := by
  unfold Table.insert
  cases rehash_if_full_ok h room key with
  | inl hbad =>
    left
    rw [hbad]
    rfl
  | inr hre =>
    obtain ⟨t₁, hre, h₁, hempty₁, hperm₁, hnew, _⟩ := hre
    have hget : get T.getKey (t₁.contents T) key = get T.getKey (t.contents T) key :=
      get_perm h₁.layout.distinct_entries hperm₁ key
    obtain ⟨t', b, a, hins, h', hempty', hb, hk, hperm, _⟩ :=
      insert_unsafe_ok h₁ (by rw [hempty₁]; exact hkey) (fun hnone => hnew (hget ▸ hnone))
    right
    refine ⟨t', b, a, ?_, h', hempty'.trans hempty₁, hb, hk,
      hperm.trans (put_perm h₁.layout.distinct_entries hperm₁)⟩
    rw [hre]
    exact hins

theorem assign_ok [EquivBEq Key] (h : TableOk T t) (room : ℕ → Bool) (hkey : (key == t.empty_key) = false)
    (v : Value) : t.assign T room key v = .error .badalloc ∨ ∃ t', t.assign T room key v = .ok t' ∧ TableOk T t' ∧
      t'.empty_key = t.empty_key ∧ (t'.contents T).Perm (modify T.getKey
        (put T.getKey (t.contents T) key (T.newItem key)) key fun item => T.setValue item v) := by
  unfold Table.assign
  cases insert_ok h room hkey with
  | inl hbad =>
    left
    rw [hbad]
    rfl
  | inr hins =>
    obtain ⟨t₁, b, a, hins, h₁, hempty₁, hb, hk, hperm⟩ := hins
    obtain ⟨t', hstore, h', hempty', hcontents⟩ := store_ok h₁ hb hk v
    right
    refine ⟨t', ?_, h', hempty'.trans hempty₁, ?_⟩
    · rw [hins]
      exact hstore
    · rw [hcontents]
      exact modify_perm hperm key _

/-- The value is stored when the key is new. -/
theorem try_insert_ok [EquivBEq Key] (h : TableOk T t) (room : ℕ → Bool) (hkey : (key == t.empty_key) = false)
    (v : Value) : t.try_insert T room key v = .error .badalloc ∨ ∃ t', t.try_insert T room key v =
        .ok (t', !(get T.getKey (t.contents T) key).isSome) ∧ TableOk T t' ∧ t'.empty_key = t.empty_key ∧
      (t'.contents T).Perm (if (get T.getKey (t.contents T) key).isSome then t.contents T
        else modify T.getKey (put T.getKey (t.contents T) key (T.newItem key)) key
          fun item => T.setValue item v) := by
  unfold Table.try_insert
  cases rehash_if_full_ok h room key with
  | inl hbad =>
    left
    rw [hbad]
    rfl
  | inr hre =>
    obtain ⟨t₁, hre, h₁, hempty₁, hperm₁, hnew, _⟩ := hre
    have hget : get T.getKey (t₁.contents T) key = get T.getKey (t.contents T) key :=
      get_perm h₁.layout.distinct_entries hperm₁ key
    obtain ⟨t₂, b, a, hins, h₂, hempty₂, hb, hk, hperm, hcount⟩ :=
      insert_unsafe_ok h₁ (by rw [hempty₁]; exact hkey) (fun hnone => hnew (hget ▸ hnone))
    have hperm₂ := hperm.trans (put_perm h₁.layout.distinct_entries hperm₁)
    right
    rw [hre]
    simp only [bind, Except.bind, hins]
    rw [hget] at hcount
    cases hsome : (get T.getKey (t.contents T) key).isSome with
    | true =>
      rw [hsome, if_pos rfl] at hcount
      rw [if_neg (by omega), if_pos rfl]
      refine ⟨t₂, rfl, h₂, hempty₂.trans hempty₁, ?_⟩
      unfold put at hperm₂
      rw [hsome, if_pos rfl] at hperm₂
      exact hperm₂
    | false =>
      rw [hsome, if_neg Bool.false_ne_true] at hcount
      rw [if_pos (by omega), if_neg Bool.false_ne_true]
      obtain ⟨t', hstore, h', hempty', hcontents⟩ := store_ok h₂ hb hk v
      refine ⟨t', ?_, h', hempty'.trans (hempty₂.trans hempty₁), ?_⟩
      · rw [hstore]
        rfl
      · rw [hcontents]
        exact modify_perm hperm₂ key _

theorem lookup_ok [EquivBEq Key] (h : TableOk T t) (key : Key) :
    t.lookup T key = .ok (get T.getKey (t.contents T) key) := by
  unfold Table.lookup
  cases find_ok h key with
  | inl hfound =>
    obtain ⟨b, a, hfind, hb, _, hget⟩ := hfound
    rw [hfind, hget]
    simp only [bind, Except.bind, (data_of_slots hb).1, orFault]
    rfl
  | inr hnone =>
    obtain ⟨hfind, hget⟩ := hnone
    rw [hfind, hget]
    rfl

theorem change_ok [EquivBEq Key] (h : TableOk T t) (key : Key) (v : Value) :
    ∃ t', t.change T key v = .ok t' ∧ TableOk T t' ∧ t'.empty_key = t.empty_key ∧
      t'.contents T = modify T.getKey (t.contents T) key fun item => T.setValue item v := by
  unfold Table.change
  cases find_ok h key with
  | inl hfound =>
    obtain ⟨b, a, hfind, hb, hk, hget⟩ := hfound
    rw [hfind]
    exact store_ok h hb hk v
  | inr hnone =>
    obtain ⟨hfind, hget⟩ := hnone
    rw [hfind]
    exact ⟨t, rfl, h, rfl, (modify_of_get_none hget _).symm⟩

/-! ### Clearing and copying -/

theorem clear_ok [EquivBEq Key] (h : TableOk T t) (thresholdToDestroy : ℕ) :
    TableOk T (t.clear T thresholdToDestroy) ∧ (t.clear T thresholdToDestroy).contents T = [] ∧
      (t.clear T thresholdToDestroy).empty_key = t.empty_key := by
  unfold Table.clear
  split
  · next hzero => exact ⟨h, List.length_eq_zero_iff.mp (h.size.symm.trans hzero), rfl⟩
  · split
    · exact ⟨bare_ok T t.empty_key, rfl, rfl⟩
    · obtain ⟨hok, hnil⟩ := fill_ok T t.empty_key h.shaped
      exact ⟨hok, hnil, rfl⟩

theorem copy_ok (h : TableOk T t) (room : ℕ → Bool) :
    t.copy room = .error .badalloc ∨ ∃ t', t.copy room = .ok t' ∧ TableOk T t' ∧ t'.empty_key = t.empty_key ∧
      t'.contents T = t.contents T := by
  have hdata : (fun i => if i < t.capacity then t.data i else none) = t.data := by
    funext i
    split
    · rfl
    · next hge =>
      by_contra hne
      exact hge ((h.stored.constructed i).mpr (Ne.symm hne))
  unfold Table.copy operatorNew
  rw [hdata]
  by_cases hzero : t.capacity = 0
  · right
    have hnone : (fun _ => none) = t.data := by
      funext i
      by_contra hne
      have := (h.stored.constructed i).mpr (Ne.symm hne)
      omega
    rw [if_pos hzero, hnone, ← hzero]
    exact ⟨t, rfl, h, rfl, rfl⟩
  · rw [if_neg hzero]
    by_cases hroom : t.capacity ≤ maxBuckets ∧ room t.capacity = true
    · right
      rw [if_pos hroom]
      exact ⟨t, rfl, h, rfl, rfl⟩
    · left
      rw [if_neg hroom]
      rfl

/-! ### Iteration -/

omit [BEq Key] in
theorem range'_step {i : ℕ} (hi : i < t.capacity) :
    List.range' i (t.capacity - i) = i :: List.range' (i + 1) (t.capacity - (i + 1)) := by
  rw [show t.capacity - i = t.capacity - (i + 1) + 1 by omega, List.range'_succ]

/-- The iterator skips empty buckets. -/
theorem advance_ok (hs : Stored T t) {fuel i : ℕ} (hfuel : t.capacity - i ≤ fuel) :
    ∃ k, t.advance T fuel i = .ok k ∧ i ≤ k ∧ (k < t.capacity → t.slots T k ≠ none) ∧
      (List.range' i (t.capacity - i)).filterMap (t.slots T) =
        (List.range' k (t.capacity - k)).filterMap (t.slots T) := by
  induction fuel generalizing i with
  | zero => exact ⟨i, rfl, Nat.le_refl i, fun hlt => by omega, rfl⟩
  | succ fuel ih =>
    rw [Table.advance]
    by_cases hlt : i < t.capacity
    · obtain ⟨item, hitem⟩ := Option.ne_none_iff_exists'.mp ((hs.constructed i).mp hlt)
      rw [if_pos hlt, hitem]
      cases hkey : T.getKey item == t.empty_key with
      | true =>
        obtain ⟨k, hrun, hle, hk, hrest⟩ := ih (i := i + 1) (by omega)
        simp only [hkey, if_true]
        refine ⟨k, hrun, by omega, hk, ?_⟩
        rw [range'_step hlt, List.filterMap_cons_none (slots_of_empty hitem hkey), hrest]
      | false =>
        simp only [hkey, Bool.false_eq_true, if_false]
        refine ⟨i, rfl, Nat.le_refl i, fun _ => ?_, rfl⟩
        rw [slots_of_item hitem hkey]
        exact Option.some_ne_none item
    · rw [if_neg hlt]
      exact ⟨i, rfl, Nat.le_refl i, fun h => absurd h hlt, rfl⟩

theorem itemsFrom_ok (hs : Stored T t) {fuel i : ℕ} (hfuel : t.capacity - i ≤ fuel)
    (hi : i < t.capacity → t.slots T i ≠ none) :
    t.itemsFrom T fuel i = .ok ((List.range' i (t.capacity - i)).filterMap (t.slots T)) := by
  induction fuel generalizing i with
  | zero =>
    rw [show t.capacity - i = 0 by omega]
    rfl
  | succ fuel ih =>
    rw [Table.itemsFrom]
    by_cases hlt : i < t.capacity
    · obtain ⟨item, hitem⟩ := Option.ne_none_iff_exists'.mp (hi hlt)
      have hstart : t.capacity - (i + 1) ≤ t.capacity := Nat.sub_le _ _
      obtain ⟨k, hrun, hle, hk, hrest⟩ := advance_ok hs hstart
      rw [if_pos hlt, range'_step hlt, List.filterMap_cons_some hitem, hrest, (data_of_slots hitem).1]
      simp only [orFault, hrun, ih (i := k) (by omega) hk, bind, Except.bind]
      rfl
    · rw [if_neg hlt, show t.capacity - i = 0 by omega]
      rfl

theorem items_stored (hs : Stored T t) : t.items T = .ok (t.contents T) := by
  obtain ⟨k, hrun, _, hk, hrest⟩ := advance_ok hs (Nat.sub_le t.capacity 0)
  unfold Table.items
  rw [hrun]
  show t.itemsFrom T t.capacity k = _
  rw [itemsFrom_ok hs (by omega) hk, ← hrest, Nat.sub_zero]
  unfold Table.contents entries
  rw [List.range_eq_range']

/-- Iteration visits every item once. -/
theorem items_ok (h : TableOk T t) : t.items T = .ok (t.contents T) := items_stored h.stored

end Ops

end Luwu.DenseHash
