import Luwu.Table.Sizes
import Luwu.Table.Dead

/-!
# Assignment

`newkey` at full strength: it either inserts into the node vector it finds, or rebuilds the table with
`rehash` and then inserts.  The sizes that `rehash` chooses leave room for the new key, so the second
insertion never rehashes again: `newkey` calls itself to a depth of two.

`Wellformed` is the state between operations: the representation invariant, and an array block of
exactly `sizearray` slots.  Every operation here either succeeds and keeps `Wellformed` and the map, or
raises "table overflow" and keeps them as well, or fails to allocate, which is described by `Short`.
-/

namespace Luwu

open Links

/-- A table between two operations. -/
structure Wellformed (E : Env) (t : LuaTable) : Prop where
  inv : Inv E t
  full : t.array.length = t.sizearray

/-- `t'` is a well-formed table with the entries of `t`, and no dead key has moved in front. -/
structure SameMap (E : Env) (t t' : LuaTable) : Prop where
  wf : Wellformed E t'
  holds : ∀ k w, k.ValidKey → (t'.Holds k w ↔ t.Holds k w)
  dead : DeadBehind E t → DeadBehind E t'

section Assign

variable {E : Env} {t t' : LuaTable} {key : TValue}

theorem SameMap.refl (h : Wellformed E t) : SameMap E t t := ⟨h, fun _ _ _ => Iff.rfl, id⟩

theorem SameMap.trans {t₁ t₂ t₃ : LuaTable} (h : SameMap E t₁ t₂) (h' : SameMap E t₂ t₃) :
    SameMap E t₁ t₃ :=
  ⟨h'.wf, fun k w hk => (h'.holds k w hk).trans (h.holds k w hk), fun hd => h'.dead (h.dead hd)⟩

/-- A table filled by `resize` holds no dead key. -/
theorem Filling.deadBehind (h : Filling E t) : DeadBehind E t := by
  refine deadBehind_of_none fun j p hj => ?_
  have hv := h.live j (by rw [hj]; simp)
  have hk := h.inv.keyed_of_val hv
  unfold LuaTable.Keyed at hk
  rw [hj] at hk
  exact hk.elim

theorem Resized.sameMap {nasize nhsize : ℕ} (h : Resized E t nasize nhsize t') : SameMap E t t' :=
  ⟨⟨h.fill.inv, h.arrayLen.trans h.sizearray.symm⟩, h.holds, fun _ => h.fill.deadBehind⟩

/-- The free pointer may go to its end when every slot is in use. -/
theorem Wellformed.growing (h : Wellformed E t)
    (hlf : t.growing key = t ∨
      (t.growing key = { t with lastfree := min t.lastfree 0 } ∧ ∀ j, j < t.nodeCount → t.gkey j ≠ .nil)) :
    SameMap E t (t.growing key) := by
  rcases hlf with heq | ⟨heq, hused⟩ <;> rw [heq]
  · exact SameMap.refl h
  · have hmax := h.inv.freeMax
    have hbound := h.inv.aboundary
    exact ⟨⟨{ h.inv with
      freeBelow := fun i hi _ => hused i hi
      freeMax := by
        show min t.lastfree 0 ≤ (t.nodeCount : ℤ)
        omega
      aboundary := by
        show -(min t.lastfree 0) ≤ (t.sizearray : ℤ)
        omega }, h.full⟩, fun _ _ _ => Iff.rfl, fun hd => hd⟩

/-- No key of the hash part is one of `1..nasize + 1`, except for dead ones. -/
def Unshadowed (t : LuaTable) (nasize : ℕ) : Prop :=
  ∀ i, t.Keyed i → arrayslot nasize (t.gkey i) = none ∧ isNumberEq (t.gkey i) (nasize + 1) = false

theorem arr_of_ge (hlen : t.array.length = t.sizearray) {i : ℕ} (hi : t.sizearray ≤ i) :
    t.arr i = .nil := by
  unfold LuaTable.arr
  rw [List.getD_eq_getElem?_getD, List.getElem?_eq_none (by omega)]
  rfl

theorem arr_grown {nasize : ℕ} (hlen : t.array.length = t.sizearray) (i : ℕ) : (t.grown nasize).arr i = t.arr i :=
  @arr_newParts t nasize 0 hlen i

/-- The array part may grow over keys that are absent. -/
theorem Wellformed.grown (h : Wellformed E t) {nasize : ℕ} (hu : Unshadowed t nasize) (hle : t.sizearray ≤ nasize)
    (hmax : nasize ≤ MAXSIZE) : SameMap E t (t.grown nasize) := by
  have hlen : (t.grown nasize).array.length = nasize := by
    unfold LuaTable.grown
    rw [List.length_append, List.length_replicate, h.full]
    omega
  have hinv := h.inv
  have hbound := hinv.aboundary
  have hinv' : Inv E (t.grown nasize) := { hinv with
    arrayLen := hlen.ge
    sizeMax := hmax
    hashOnly := fun i hi => (hu i hi).1
    boundary := fun i hi => (hu i hi).2
    aboundary := by
      show -t.lastfree ≤ (nasize : ℤ)
      omega }
  refine ⟨⟨hinv', hlen⟩, fun k w _ => ?_, fun hd => hd⟩
  rw [holds_iff_entries hmax, holds_iff_entries hinv.sizeMax]
  refine and_congr_right fun hw => or_congr_left ?_
  constructor
  · rintro ⟨i, _, hget, hi⟩
    rw [arr_grown h.full] at hget
    refine ⟨i, ?_, hget, hi⟩
    by_contra hge
    exact hw (hget.symm.trans (arr_of_ge h.full (not_lt.mp hge)))
  · rintro ⟨i, hlt, hget, hi⟩
    exact ⟨i, hlt.trans_le hle, (arr_grown h.full i).trans hget, hi⟩

/-- A table that `rehash` has just rebuilt for the key. -/
structure Rehashed (E : Env) (t : LuaTable) (key : TValue) (t' : LuaTable) : Prop where
  same : SameMap E t t'
  live : t'.AllLive
  room : arrayslot t'.sizearray key = none → 0 < t'.room
  notNext : isNumberEq key (t'.sizearray + 1) = false

theorem rehash_run {ins : Inserter} {na nh : ℕ} (hsizes : rehashSizes t key = some (na, nh)) :
    rehash E ins key t = resize E ins na nh t := by
  unfold rehash
  rw [TableM.get_bind, hsizes]
  rfl

/-- Within the limits, the table is rebuilt with room for the new key, or an allocation failed. -/
theorem rehash_outcomes (h : Wellformed E t) {ins : Inserter} (hcall : Inserts E ins) {na nh : ℕ}
    (hsizes : rehashSizes t key = some (na, nh)) (hna : na ≤ MAXSIZE) (hnh : nh ≤ MAXSIZE) :
    (∃ t', rehash E ins key t = .ok ⟨⟩ t' ∧ Rehashed E t key t' ∧ t'.sizearray = na) ∨
      ∃ t', rehash E ins key t = .error .errmem t' ∧ Short E t na nh t' := by
  obtain ⟨_, _, hsizes', hcount, hnext⟩ := rehashSizes_spec h.inv key
  obtain ⟨rfl, rfl⟩ := Prod.mk.inj (Option.some.inj (hsizes.symm.trans hsizes'))
  have hcap := le_capacity nh
  have houtside := hcount hna
  have hM : MAXSIZE = 2 ^ 26 := rfl
  have habsent : ∀ k w, isNumberEq k (na + 1) = true → ¬ t.Holds k w := by
    intro k w hk hh
    obtain ⟨k', hmem, hk'⟩ := (h.inv.holds_int_iff (by omega) hk).mp ⟨w, hh⟩
    have hmem' : k' ∈ t.rehashKeys (some key) := List.mem_append_right _ hmem
    rw [hnext k' hmem'] at hk'
    cases hk'
  rw [rehash_run hsizes]
  rcases resize_outcomes h.inv h.full hna hnh (by omega) habsent hcall with ⟨t', hok, hres⟩ | hshort
  · refine Or.inl ⟨t', hok, ⟨hres.sameMap, hres.fill.live, fun hslot => ?_, ?_⟩, hres.sizearray⟩
    · rw [hres.sizearray] at hslot
      rw [if_pos hslot] at houtside
      have := hres.room
      omega
    · rw [hres.sizearray]
      exact hnext key (List.mem_append_left _ (List.mem_singleton_self key))
  · exact Or.inr hshort

/-- What an allocation that fails while `newkey` grows the table leaves of it. -/
def GrowShort (E : Env) (t : LuaTable) (key : TValue) (t' : LuaTable) : Prop :=
  SameMap E t (t.growing key) ∧
    ∃ na nh, rehashSizes (t.growing key) key = some (na, nh) ∧ Short E (t.growing key) na nh t'

/-- What an insertion leaves behind: the same map, and the slot of the key. -/
structure Placed (E : Env) (t : LuaTable) (key : TValue) (s : Slot) (t' : LuaTable) : Prop where
  same : SameMap E t t'
  slot : t'.SlotOf key s

theorem placed_of_inserted (h : Wellformed E t) {i : ℕ} (hi : Inserted E t key t' i)
    (hins : Insertable t key) : Placed E t key (.node i) t' := by
  have hframe := hi.frame
  refine ⟨⟨⟨hi.inv h.inv hins, ?_⟩, fun k w _ => hi.holds_iff h.inv,
    fun hd => hi.deadBehind h.inv hd hins⟩, ?_⟩
  · rw [hframe.array, hframe.sizearray]
    exact h.full
  · show luaO_rawequalObj (t'.gkey i) key = true
    rw [(hi.new_slot h.inv).1]
    exact rawequal_refl hins.valid

/-- The second insertion finds the room `rehash` made. -/
theorem arrayornewkey_rehashed (hr : Rehashed E t key t') (hk : key.ValidKey)
    (hno : ∀ w, ¬ t.Holds key w) {ins : Inserter} (hcall : Inserts E ins) :
    ∃ s t'', arrayornewkey ins key t' = .ok s t'' ∧ Placed E t key s t'' := by
  unfold arrayornewkey
  cases ha : arrayslot t'.sizearray key with
  | some i =>
    refine ⟨.array i, t', ?_, hr.same, ha⟩
    rw [TableM.get_bind, ha]
    rfl
  | none =>
    obtain ⟨t'', i, hrun, hins⟩ := hcall hr.same.wf.inv hr.notNext (hr.room ha)
    have habsent := hr.live.absent hk fun w hh => hno w ((hr.same.holds _ _ hk).mp hh)
    have hplaced := placed_of_inserted hr.same.wf hins ⟨hk, habsent, ha, hr.notNext⟩
    refine ⟨.node i, t'', ?_, hr.same.trans hplaced.same, hplaced.slot⟩
    rw [TableM.get_bind, ha]
    exact hrun

/-- The outcomes of looking for the place of a key: a slot, or the error "table overflow" and the same map, or what
an allocation that failed has left. -/
def Places (E : Env) (t : LuaTable) (key : TValue) (r : EStateM.Result TableError LuaTable Slot) : Prop :=
  (∃ s t', r = .ok s t' ∧ Placed E t key s t') ∨
    (∃ t', r = .error (.runerror "table overflow") t' ∧ SameMap E t t') ∨
    ∃ t', r = .error .errmem t' ∧ GrowShort E t key t'

/-- **`newkey`** gives a new key a slot, or raises "table overflow"; the map stays as it is.  Or an allocation
failed. -/
theorem newkey_places (h : Wellformed E t) (hk : key.ValidKey) (hnew : ∀ s, ¬ t.SlotOf key s) :
    Places E t key (newkey E newkeyFuel key t) := by
  have hslot : arrayslot t.sizearray key = none := by
    by_contra hne
    obtain ⟨i, hi⟩ := Option.ne_none_iff_exists'.mp hne
    exact hnew (.array i) hi
  have habsent : ∀ j, luaO_rawequalObj (t.gkey j) key = false := fun j => by
    rw [← Bool.not_eq_true]
    exact hnew (.node j)
  unfold newkeyFuel
  rw [newkey_eq_newkeyOr]
  rcases newkeyOr_cases h.inv (growtable E (newkey E 2)) key with ⟨t', i, hrun, hins, hnext⟩ | ⟨hgrow, hlf, _⟩
  · exact Or.inl ⟨.node i, t', hrun, placed_of_inserted h hins ⟨hk, habsent, hslot, hnext⟩⟩
  · have hsame := h.growing hlf
    have hno : ∀ w, ¬(t.growing key).Holds key w := by
      intro w hw
      obtain ⟨_, s, hs, _⟩ := (hsame.holds key w hk).mp hw
      exact hnew s hs
    rw [hgrow]
    unfold growtable
    obtain ⟨na, nh, hsizes, _⟩ := rehashSizes_spec hsame.wf.inv key
    by_cases hmax : MAXSIZE < na ∨ MAXSIZE < nh
    · refine Or.inr (Or.inl ⟨t.growing key, ?_, hsame⟩)
      rw [TableM.bind_error _ ((rehash_run hsizes).trans (resize_overflow _ hmax))]
    · rw [not_or, not_lt, not_lt] at hmax
      rcases rehash_outcomes hsame.wf (inserts_newkey E 1) hsizes hmax.1 hmax.2 with
        ⟨t', hrun, hr, _⟩ | ⟨t', hrun, hshort⟩
      · obtain ⟨s, t'', hrun', hplaced⟩ := arrayornewkey_rehashed hr hk hno (inserts_newkey E 1)
        refine Or.inl ⟨s, t'', ?_, hsame.trans hplaced.same, hplaced.slot⟩
        rw [TableM.bind_ok _ hrun]
        exact hrun'
      · refine Or.inr (Or.inr ⟨t', ?_, hsame, na, nh, hsizes, hshort⟩)
        rw [TableM.bind_error _ hrun]

/-! ### The `luaH_set` family -/

/-- The common shape: the slot that was found, or a new one. -/
theorem getornewkey_places (h : Wellformed E t) (hk : key.ValidKey) {found : Option Slot}
    (hfound : found = luaH_get E t key) {new : TableM Slot} (hnew : new t = newkey E newkeyFuel key t) :
    Places E t key (getornewkey found new t) := by
  unfold getornewkey
  rw [hfound]
  rcases h.inv.get_cases hk with ⟨s, hs, hget⟩ | ⟨hget, hno⟩
  · refine Or.inl ⟨s, t, ?_, SameMap.refl h, hs⟩
    rw [hget]
    cases s with
    | nilobject => exact hs.elim
    | _ => rfl
  · rw [hget]
    show Places E t key (new t)
    rw [hnew]
    exact newkey_places h hk hno

theorem luaH_newkey_eq (hk : key.ValidKey) : luaH_newkey E key = newkey E newkeyFuel key := by
  unfold luaH_newkey
  cases key with
  | nil => exact hk.elim
  | number n =>
    have hn : ¬ n.isNaN = true := Bool.not_eq_true _ ▸ hk
    exact if_neg hn
  | vector x y z =>
    have hn : ¬ luai_vecisnan x y z = true := Bool.not_eq_true _ ▸ hk
    exact if_neg hn
  | _ => rfl

theorem luaH_set_places (h : Wellformed E t) (hk : key.ValidKey) : Places E t key (luaH_set E key t) := by
  unfold luaH_set
  rw [TableM.get_bind]
  exact getornewkey_places h hk rfl (by rw [luaH_newkey_eq hk])

theorem luaH_setnum_places (h : Wellformed E t) {i : ℤ} (hi : -2 ^ 31 ≤ i ∧ i < 2 ^ 31) :
    Places E t (.number (cast_num i)) (luaH_setnum E i t) := by
  have hk : (TValue.number (cast_num i)).ValidKey :=
    validKey_of_isNumberEq (isNumberEq_cast_num hi)
  unfold luaH_setnum
  rw [TableM.get_bind]
  by_cases hc : cast_unsigned (i - 1) < t.sizearray
  · rw [if_pos hc]
    refine Or.inl ⟨_, t, rfl, SameMap.refl h, ?_⟩
    show arrayslot t.sizearray (.number (cast_num i)) = some (i - 1).toNat
    have hrefl : (cast_num i).eq (cast_num i) = true := isNumberEq_cast_num hi
    unfold arrayslot
    simp only [luai_num2int_cast_num hi]
    rw [if_pos ⟨hrefl, hc⟩]
  · rw [if_neg hc]
    exact getornewkey_places h hk (h.inv.getnum_eq_get hi) rfl

theorem luaH_setstr_places (h : Wellformed E t) (p : GCPtr) :
    Places E t (.gc .string p) (luaH_setstr E p t) := by
  unfold luaH_setstr
  rw [TableM.get_bind]
  have hk : (TValue.gc .string p).ValidKey := trivial
  exact getornewkey_places h hk rfl rfl

end Assign

end Luwu
