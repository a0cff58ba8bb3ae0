import Luwu.Table.Insert

/-!
# The finite map a table denotes

`lookup` is the map: what `luaH_get` points at.  `Holds t k v` says the same as a relation — the slot of
`k` has the value `v`, which is not nil — and is the form in which the operations are specified, since a
relation can be split over the two parts of the table and over the slots of a loop.  `lookup_eq_iff`
connects the two.

The two primitive effects on the map are here: storing through the slot of a key (`holds_slotSet`), and
an insertion, which by itself changes nothing (`Inserted.holds_iff`): a new key starts out with nil.
-/

namespace Luwu

open Links

/-- `s` is the slot in which `k` lives. -/
def LuaTable.SlotOf (t : LuaTable) (k : TValue) : Slot → Prop
  | .nilobject => False
  | .array i => arrayslot t.sizearray k = some i
  | .node i => luaO_rawequalObj (t.gkey i) k = true

/-- The table maps `k` to the value `v`, which is not nil. -/
def LuaTable.Holds (t : LuaTable) (k v : TValue) : Prop :=
  v ≠ .nil ∧ ∃ s, t.SlotOf k s ∧ t.slotGet s = v

/-- The value `luaH_get` points at. -/
def lookup (E : Env) (t : LuaTable) (k : TValue) : TValue := (luaH_get E t k).elim .nil t.slotGet

section Map

variable {E : Env} {t t' : LuaTable} {k v : TValue} {s : Slot}

namespace Inv

/-- **`luaH_get` returns the slot of the key.** -/
theorem get_of_slotOf (h : Inv E t) (hk : k.ValidKey) (hs : t.SlotOf k s) :
    luaH_get E t k = some s := by
  rw [h.get_eq hk]
  cases s with
  | nilobject => exact hs.elim
  | array i =>
    have hs : arrayslot t.sizearray k = some i := hs
    rw [hs]
  | node i =>
    have hs : luaO_rawequalObj (t.gkey i) k = true := hs
    rw [← arrayslot_congr hs, h.hashOnly i (keyed_of_rawequal hk hs)]
    exact h.getgeneric_found hk hs

/-- A key has a slot, or `luaH_get` answers `luaO_nilobject`. -/
theorem get_cases (h : Inv E t) (hk : k.ValidKey) :
    (∃ s, t.SlotOf k s ∧ luaH_get E t k = some s) ∨
      (luaH_get E t k = some .nilobject ∧ ∀ s, ¬ t.SlotOf k s) := by
  by_cases hex : ∃ s, t.SlotOf k s
  · obtain ⟨s, hs⟩ := hex
    exact Or.inl ⟨s, hs, h.get_of_slotOf hk hs⟩
  · refine Or.inr ⟨?_, fun s hs => hex ⟨s, hs⟩⟩
    have hno : arrayslot t.sizearray k = none := by
      by_contra hne
      obtain ⟨i, hi⟩ := Option.ne_none_iff_exists'.mp hne
      exact hex ⟨.array i, hi⟩
    rw [h.get_eq hk, hno]
    refine h.getgeneric_absent fun j => ?_
    rw [← Bool.not_eq_true]
    exact fun hj => hex ⟨.node j, hj⟩

theorem slotOf_unique (h : Inv E t) (hk : k.ValidKey) {s' : Slot} (hs : t.SlotOf k s)
    (hs' : t.SlotOf k s') : s = s' :=
  Option.some.inj ((h.get_of_slotOf hk hs).symm.trans (h.get_of_slotOf hk hs'))

/-- The map and the relation agree. -/
theorem lookup_eq_iff (h : Inv E t) (hk : k.ValidKey) (hv : v ≠ .nil) :
    lookup E t k = v ↔ t.Holds k v := by
  unfold lookup
  rcases h.get_cases hk with ⟨s, hs, hget⟩ | ⟨hget, hno⟩
  · rw [hget]
    constructor
    · intro he
      exact ⟨hv, s, hs, he⟩
    · rintro ⟨_, s', hs', he⟩
      rw [← h.slotOf_unique hk hs hs'] at he
      exact he
  · rw [hget]
    constructor
    · intro he
      exact absurd he.symm hv
    · rintro ⟨_, s, hs, _⟩
      exact absurd hs (hno s)

theorem lookup_eq_nil_iff (h : Inv E t) (hk : k.ValidKey) :
    lookup E t k = .nil ↔ ∀ v, ¬ t.Holds k v := by
  constructor
  · intro hn v hv
    have := (h.lookup_eq_iff hk hv.1).mpr hv
    exact hv.1 (this.symm.trans hn)
  · intro hno
    by_contra hne
    exact hno _ ((h.lookup_eq_iff hk hne).mp rfl)

/-- Two tables that hold the same entries are the same map. -/
theorem lookup_congr (h : Inv E t) (h' : Inv E t') (hk : k.ValidKey)
    (he : ∀ v, t.Holds k v ↔ t'.Holds k v) : lookup E t k = lookup E t' k := by
  by_cases hn : lookup E t' k = .nil
  · rw [hn, h.lookup_eq_nil_iff hk]
    exact fun v hv => (h'.lookup_eq_nil_iff hk).mp hn v ((he v).mp hv)
  · exact (h.lookup_eq_iff hk hn).mpr ((he _).mpr ((h'.lookup_eq_iff hk hn).mp rfl))

end Inv

theorem slotOf_congr {k' : TValue} (he : luaO_rawequalObj k k' = true) :
    t.SlotOf k s ↔ t.SlotOf k' s := by
  cases s with
  | nilobject => exact Iff.rfl
  | array i => simp only [LuaTable.SlotOf, arrayslot_congr he]
  | node i =>
    simp only [LuaTable.SlotOf]
    rw [rawequal_comm _ k, rawequal_comm _ k', rawequal_congr he]

theorem holds_congr {k' : TValue} (he : luaO_rawequalObj k k' = true) :
    t.Holds k v ↔ t.Holds k' v := by
  unfold LuaTable.Holds
  simp only [slotOf_congr he]

/-! ### Storing through a slot -/

section SlotSet

theorem slotOf_valid (hs : t.SlotOf k s) (hk : k.ValidKey) (h : Inv E t) :
    (∃ i, s = .array i ∧ i < t.sizearray ∧ i < t.array.length) ∨
      (∃ i, s = .node i ∧ t.Keyed i ∧ i < t.nodeCount) := by
  cases s with
  | nilobject => exact hs.elim
  | array i =>
    have hi := ((arrayslot_eq_some_iff h.sizeMax).mp hs).2
    exact Or.inl ⟨i, rfl, hi, hi.trans_le h.arrayLen⟩
  | node i =>
    have hki := Inv.keyed_of_rawequal hk hs
    exact Or.inr ⟨i, rfl, hki, Inv.keyed_lt hki⟩

/-- A store changes the value of one slot. -/
theorem slotGet_slotSet (hs : t.SlotOf k s) (hk : k.ValidKey) (h : Inv E t) (s' : Slot) :
    (t.slotSet v s).slotGet s' = if s' = s then v else t.slotGet s' := by
  rcases slotOf_valid hs hk h with ⟨i, rfl, _, hlen⟩ | ⟨i, rfl, _, hlt⟩
  · cases s' with
    | nilobject => simp [LuaTable.slotGet]
    | array j =>
      simp only [LuaTable.slotGet, LuaTable.slotSet, LuaTable.arr, List.getD_eq_getElem?_getD,
        Slot.array.injEq]
      by_cases hj : j = i
      · subst hj
        simp [hlen]
      · simp [hj, List.getElem?_set_ne (Ne.symm hj)]
    | node j => simp [LuaTable.slotGet, LuaTable.slotSet, LuaTable.gval, LuaTable.gnode]
  · cases s' with
    | nilobject => simp [LuaTable.slotGet]
    | array j => simp [LuaTable.slotGet, LuaTable.slotSet, LuaTable.arr, LuaTable.setVal]
    | node j =>
      simp only [LuaTable.slotGet, LuaTable.slotSet, Slot.node.injEq]
      exact LuaTable.gval_setVal v hlt

/-- A store leaves the keys, the links and the sizes alone. -/
theorem slotSet_frame (hs : t.SlotOf k s) (hk : k.ValidKey) (h : Inv E t) :
    (∀ j, (t.slotSet v s).gkey j = t.gkey j) ∧ (t.slotSet v s).link = t.link ∧
    (∀ j, (t.slotSet v s).gnext j = t.gnext j) ∧
    (t.slotSet v s).sizearray = t.sizearray ∧ (t.slotSet v s).array.length = t.array.length ∧
    (t.slotSet v s).nodeCount = t.nodeCount ∧ (t.slotSet v s).lsizenode = t.lsizenode ∧
    (t.slotSet v s).lastfree = t.lastfree ∧ ((t.slotSet v s).node = none ↔ t.node = none) := by
  rcases slotOf_valid hs hk h with ⟨i, rfl, _, hlen⟩ | ⟨i, rfl, _, hlt⟩
  · exact ⟨fun _ => rfl, rfl, fun _ => rfl, rfl, by simp [LuaTable.slotSet], rfl, rfl, rfl, Iff.rfl⟩
  · exact ⟨fun _ => LuaTable.gkey_setVal v hlt, LuaTable.link_setVal v hlt,
      fun _ => LuaTable.gnext_setVal v hlt, rfl, rfl, LuaTable.nodeCount_setVal v, rfl, rfl,
      by simp [LuaTable.slotSet, LuaTable.setVal, LuaTable.setNode]⟩

theorem slotOf_slotSet (hs : t.SlotOf k s) (hk : k.ValidKey) (h : Inv E t) (k' : TValue) (s' : Slot) :
    (t.slotSet v s).SlotOf k' s' ↔ t.SlotOf k' s' := by
  obtain ⟨hkey, _, _, hsize, _⟩ := slotSet_frame (v := v) hs hk h
  cases s' with
  | nilobject => exact Iff.rfl
  | array j => simp only [LuaTable.SlotOf, hsize]
  | node j => simp only [LuaTable.SlotOf, hkey]

/-- **Storing keeps the representation invariant.** -/
theorem Inv.slotSet (h : Inv E t) (hk : k.ValidKey) (hs : t.SlotOf k s) (v : TValue) :
    Inv E (t.slotSet v s) := by
  obtain ⟨hkey, hlink, hnext, hsize, hlen, hcount, hls, hlf, hnode⟩ := slotSet_frame (v := v) hs hk h
  have hKeyed : ∀ i, (t.slotSet v s).Keyed i ↔ t.Keyed i := fun i => by
    unfold LuaTable.Keyed
    rw [hkey]
  have hmain : ∀ x, mainposition E (t.slotSet v s) x = mainposition E t x := fun x => by
    unfold mainposition hashpow2 LuaTable.sizenode
    rw [hls]
  -- a slot that holds no valid key is not the one stored to
  have hval : ∀ i, ¬ t.Keyed i → (t.slotSet v s).gval i = t.gval i := by
    intro i hi
    have := slotGet_slotSet (v := v) hs hk h (.node i)
    rw [if_neg] at this
    · exact this
    · intro he
      rw [← he] at hs
      exact hi (Inv.keyed_of_rawequal hk hs)
  refine
    { arrayLen := by rw [hsize, hlen]; exact h.arrayLen
      sizeMax := by rw [hsize]; exact h.sizeMax
      dummySize := fun hn => by rw [hls]; exact h.dummySize (hnode.mp hn)
      nodeSize := fun hn => ?_
      offset := fun i => by rw [hnext]; exact h.offset i
      inRange := by rw [hlink, hcount]; exact h.inRange
      ranked := by rw [hlink]; exact h.ranked
      unshared := by rw [hlink]; exact h.unshared
      unused := fun i hi => ?_
      keys := fun i => ?_
      reach := fun i hi => ?_
      unique := fun i j hi hj he => ?_
      head := fun i hi => ?_
      hashOnly := fun i hi => ?_
      boundary := fun i hi => ?_
      freeBelow := fun i hi => by rw [hkey, hlf]; exact h.freeBelow i (hcount ▸ hi)
      freeMax := by rw [hlf, hcount]; exact h.freeMax
      aboundary := by rw [hlf, hsize]; exact h.aboundary }
  · unfold LuaTable.sizenode
    rw [hcount, hls]
    exact h.nodeSize fun hn' => hn (hnode.mpr hn')
  · rw [hkey] at hi
    rw [hval i (fun hki => hki.ne_nil hi), hlink]
    exact h.unused i hi
  · rw [hKeyed, hkey]
    rcases h.keys i with hk' | hk' | hk'
    · exact Or.inl hk'
    · exact Or.inr (Or.inl hk')
    · have hnk : ¬ t.Keyed i := fun hki => by
        rw [hki.not_dead] at hk'
        cases hk'.1
      rw [hval i hnk]
      exact Or.inr (Or.inr hk')
  · rw [hlink, hmain, hkey]
    exact h.reach i ((hKeyed i).mp hi)
  · rw [hkey, hkey] at he
    exact h.unique i j ((hKeyed i).mp hi) ((hKeyed j).mp hj) he
  · rw [hkey, hmain, hkey, hKeyed, hmain]
    exact h.head i ((hKeyed i).mp hi)
  · rw [hkey, hsize]
    exact h.hashOnly i ((hKeyed i).mp hi)
  · rw [hkey, hsize]
    exact h.boundary i ((hKeyed i).mp hi)

/-- **Storing through the slot of `k` updates the map at `k`.** -/
theorem holds_slotSet (h : Inv E t) (hk : k.ValidKey) (hs : t.SlotOf k s) {k' w : TValue}
    (hk' : k'.ValidKey) :
    (t.slotSet v s).Holds k' w ↔
      if luaO_rawequalObj k k' = true then w ≠ .nil ∧ w = v else t.Holds k' w := by
  unfold LuaTable.Holds
  simp only [slotOf_slotSet hs hk h, slotGet_slotSet hs hk h]
  split
  · rename_i he
    have hs' := (slotOf_congr he).mp hs
    constructor
    · rintro ⟨hw, s', hs'', hget⟩
      rw [if_pos (h.slotOf_unique hk' hs'' hs')] at hget
      exact ⟨hw, hget.symm⟩
    · rintro ⟨hw, rfl⟩
      exact ⟨hw, s, hs', if_pos rfl⟩
  · rename_i he
    have hne : ∀ s', t.SlotOf k' s' → s' ≠ s := by
      rintro s' hs' rfl
      cases s' with
      | nilobject => exact hs
      | array i =>
        have h1 := ((arrayslot_eq_some_iff h.sizeMax).mp hs).1
        have h2 := ((arrayslot_eq_some_iff h.sizeMax).mp hs').1
        exact he (rawequal_of_isNumberEq h1 h2)
      | node i => exact he (rawequal_trans (rawequal_symm hs) hs')
    constructor
    · rintro ⟨hw, s', hs', hget⟩
      rw [if_neg (hne s' hs')] at hget
      exact ⟨hw, s', hs', hget⟩
    · rintro ⟨hw, s', hs', hget⟩
      exact ⟨hw, s', hs', by rw [if_neg (hne s' hs')]; exact hget⟩

end SlotSet

/-! ### Insertion and the map -/

section InsertMap

variable {key : TValue} {i : ℕ}

theorem Inserted.frame (hi : Inserted E t key t' i) : SameFrame t t' := by
  cases hi <;> assumption

/-- The slot an insertion returns holds the new key and no value. -/
theorem Inserted.new_slot (h : Inv E t) (hi : Inserted E t key t' i) :
    t'.gkey i = key ∧ t'.gval i = .nil := by
  cases hi with
  | intoMain frame lf empty inside gkey gval link offset =>
    exact ⟨by rw [gkey, if_pos rfl], by rw [gval]; exact empty⟩
  | moved frame lf above inside ninside free taken out rel edit =>
    exact ⟨by rw [edit.gkey, if_pos rfl], by rw [edit.gval, if_pos rfl]⟩
  | chained frame lf above ninside free taken home edit =>
    exact ⟨by rw [edit.gkey, if_pos rfl], by rw [edit.gval]; exact (h.unused _ free).1⟩

/-- Every slot with a value keeps key and value, possibly under another number; and every slot of the
new table other than the new one comes from such a slot. -/
theorem Inserted.slots (h : Inv E t) (hi : Inserted E t key t' i) :
    (∀ j, t.gval j ≠ .nil → ∃ j', j' ≠ i ∧ t'.gkey j' = t.gkey j ∧ t'.gval j' = t.gval j) ∧
    (∀ j', j' ≠ i → ∃ j, t'.gkey j' = t.gkey j ∧ t'.gval j' = t.gval j) := by
  cases hi with
  | intoMain frame lf empty inside gkey gval link offset =>
    constructor
    · intro j hj
      have hjm : j ≠ mainposition E t key := fun he => hj (he ▸ empty)
      exact ⟨j, hjm, by rw [gkey, if_neg hjm], gval j⟩
    · intro j hj
      exact ⟨j, by rw [gkey, if_neg hj], gval j⟩
  | @moved p n frame lf above inside ninside free taken out rel edit =>
    have hmn := rel.mn
    constructor
    · intro j hj
      by_cases hjm : j = mainposition E t key
      · refine ⟨n, hmn.symm, ?_, ?_⟩
        · rw [edit.gkey, if_neg hmn.symm, if_pos rfl, hjm]
        · rw [edit.gval, if_neg hmn.symm, if_pos rfl, hjm]
      · have hjn : j ≠ n := fun he => hj (he ▸ (h.unused n free).1)
        refine ⟨j, hjm, ?_, ?_⟩
        · rw [edit.gkey, if_neg hjm, if_neg hjn]
        · rw [edit.gval, if_neg hjm, if_neg hjn]
    · intro j hj
      by_cases hjn : j = n
      · refine ⟨mainposition E t key, ?_, ?_⟩
        · rw [edit.gkey, if_neg hj, if_pos hjn]
        · rw [edit.gval, if_neg hj, if_pos hjn]
      · refine ⟨j, ?_, ?_⟩
        · rw [edit.gkey, if_neg hj, if_neg hjn]
        · rw [edit.gval, if_neg hj, if_neg hjn]
  | chained frame lf above ninside free taken home edit =>
    constructor
    · intro j hj
      have hji : j ≠ i := fun he => hj (he ▸ (h.unused i free).1)
      exact ⟨j, hji, by rw [edit.gkey, if_neg hji], edit.gval j⟩
    · intro j hj
      exact ⟨j, by rw [edit.gkey, if_neg hj], edit.gval j⟩

/-- **Inserting a key changes no entry.** -/
theorem Inserted.holds_iff (h : Inv E t) (hi : Inserted E t key t' i) :
    t'.Holds k v ↔ t.Holds k v := by
  have hf := hi.frame
  obtain ⟨hold, hnew⟩ := hi.slots h
  unfold LuaTable.Holds
  refine and_congr_right fun hv => ?_
  constructor
  · rintro ⟨s, hs, hget⟩
    cases s with
    | nilobject => exact hs.elim
    | array j =>
      refine ⟨.array j, ?_, ?_⟩
      · rw [LuaTable.SlotOf, ← hf.sizearray]
        exact hs
      · rw [LuaTable.slotGet, LuaTable.arr, ← hf.array]
        exact hget
    | node j' =>
      have hget : t'.gval j' = v := hget
      have hj' : j' ≠ i := by
        rintro rfl
        exact hv (hget ▸ (hi.new_slot h).2)
      obtain ⟨j, hkey, hval⟩ := hnew j' hj'
      have hs : luaO_rawequalObj (t'.gkey j') k = true := hs
      exact ⟨.node j, show luaO_rawequalObj (t.gkey j) k = true from hkey ▸ hs,
        show t.gval j = v from hval ▸ hget⟩
  · rintro ⟨s, hs, hget⟩
    cases s with
    | nilobject => exact hs.elim
    | array j =>
      refine ⟨.array j, ?_, ?_⟩
      · rw [LuaTable.SlotOf, hf.sizearray]
        exact hs
      · rw [LuaTable.slotGet, LuaTable.arr, hf.array]
        exact hget
    | node j =>
      have hget : t.gval j = v := hget
      obtain ⟨j', _, hkey, hval⟩ := hold j (hget ▸ hv)
      have hs : luaO_rawequalObj (t.gkey j) k = true := hs
      exact ⟨.node j', show luaO_rawequalObj (t'.gkey j') k = true from hkey ▸ hs,
        show t'.gval j' = v from hval ▸ hget⟩

end InsertMap

end Map

end Luwu
