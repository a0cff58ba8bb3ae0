import Luwu.Table.Assign

/-!
# The boundary of the array part

`luaH_getn` only looks at the array part: by `Inv.boundary` the key just behind it is absent, so the
array part always contains a boundary.  `Boundary` is that notion for array slots, and `boundary_holds`
translates it to the map.

`luaH_getn` has three sources of an answer: a cached boundary that still is one, one next to it
(`updateaboundary`), and a binary search.  The search keeps a window whose left end is a value (or the
start) and whose right end, or the slot before it, is nil (`boundarySearch_spec`).
-/

namespace Luwu

section Boundary

variable {E : Env} {t : LuaTable}

/-- `n` is a boundary of the array part. -/
structure Boundary (t : LuaTable) (n : ℕ) : Prop where
  le : n ≤ t.sizearray
  last : 0 < n → t.arr (n - 1) ≠ .nil
  next : n < t.sizearray → t.arr n = .nil

theorem isNil_ne {v : TValue} : (!v.isNil) = true ↔ v ≠ .nil := by
  rw [Bool.not_eq_true', TValue.isNil_eq_false_iff]

/-- The binary search of `luaH_getn`: `base` is `0` or a slot with a value, and the search window ends
with nil, or with a value in front of nil. -/
theorem boundarySearch_spec {base rest : ℕ} (hrest : 0 < rest) (hend : base + rest ≤ t.sizearray)
    (hlow : 0 < base → t.arr base ≠ .nil)
    (hhigh : t.arr (base + rest - 1) = .nil ∨ (base + rest < t.sizearray ∧ t.arr (base + rest) = .nil)) :
    Boundary t (boundarySearch t base rest) := by
  induction rest using Nat.strong_induction_on generalizing base with
  | _ rest ih =>
    unfold boundarySearch
    dsimp only
    by_cases hhalf : rest / 2 = 0
    · rw [if_pos hhalf]
      have hone : rest = 1 := by omega
      subst hone
      rw [Nat.add_sub_cancel] at hhigh
      by_cases hv : t.arr base = .nil
      · rw [TValue.isNil_iff.mpr hv, if_pos rfl, Nat.zero_add]
        refine ⟨by omega, fun h0 => absurd hv (hlow h0), fun _ => hv⟩
      · rw [TValue.isNil_eq_false_iff.mpr hv, if_neg Bool.false_ne_true]
        obtain ⟨_, hnext⟩ := hhigh.resolve_left hv
        refine ⟨by omega, fun _ => ?_, fun _ => ?_⟩
        · rw [Nat.add_sub_cancel_left]
          exact hv
        · rw [Nat.add_comm]
          exact hnext
    · rw [if_neg hhalf]
      by_cases hv : t.arr (base + rest / 2) = .nil
      · rw [TValue.isNil_iff.mpr hv, if_pos rfl]
        refine ih _ (by omega) (by omega) (by omega) hlow ?_
        -- the window is cut behind the slot just probed, or in front of it
        by_cases hpar : base + (rest - rest / 2) = base + rest / 2
        · exact Or.inr ⟨by omega, hpar ▸ hv⟩
        · left
          rw [show base + (rest - rest / 2) - 1 = base + rest / 2 from by omega]
          exact hv
      · rw [TValue.isNil_eq_false_iff.mpr hv, if_neg Bool.false_ne_true]
        refine ih _ (by omega) (by omega) (by omega) (fun _ => hv) ?_
        rw [show base + rest / 2 + (rest - rest / 2) = base + rest from by omega]
        exact hhigh

/-- The table after a length query: a boundary may have been cached. -/
def Cached (t t' : LuaTable) : Prop := t' = t ∨ ∃ b, b ≤ t.sizearray ∧ t' = t.maybesetaboundary b

theorem updateaboundary_spec (b : ℕ) :
    (updateaboundary t b).1 = 0 ∨
      (Boundary t (updateaboundary t b).1 ∧ Cached t (updateaboundary t b).2) := by
  unfold updateaboundary
  by_cases hlow : b < t.sizearray ∧ (t.arr (b - 1)).isNil = true
  · rw [if_pos hlow]
    by_cases hprev : 2 ≤ b ∧ (!(t.arr (b - 2)).isNil) = true
    · rw [if_pos hprev]
      refine Or.inr ⟨⟨by dsimp only; omega, fun _ => ?_, fun _ => TValue.isNil_iff.mp hlow.2⟩,
        Or.inr ⟨b - 1, by omega, rfl⟩⟩
      rw [Nat.sub_sub]
      exact isNil_ne.mp hprev.2
    · rw [if_neg hprev]
      exact Or.inl rfl
  · rw [if_neg hlow]
    by_cases hhigh : b + 1 < t.sizearray ∧ (!(t.arr b).isNil) = true ∧ (t.arr (b + 1)).isNil = true
    · rw [if_pos hhigh]
      refine Or.inr ⟨⟨by dsimp only; omega, fun _ => ?_, fun _ => TValue.isNil_iff.mp hhigh.2.2⟩,
        Or.inr ⟨b + 1, by omega, rfl⟩⟩
      exact isNil_ne.mp hhigh.2.1
    · rw [if_neg hhigh]
      exact Or.inl rfl

/-- **`luaH_getn`** answers a boundary of the array part. -/
theorem luaH_getn_spec (t : LuaTable) : Boundary t (luaH_getn t).1 ∧ Cached t (luaH_getn t).2 := by
  -- the last resort: the end of the array, or the binary search
  have hsearch : ∀ r : ℕ × LuaTable,
      r = (if 0 < t.sizearray ∧ (t.arr (t.sizearray - 1)).isNil = true then
        (boundarySearch t 0 t.sizearray, t.maybesetaboundary (boundarySearch t 0 t.sizearray))
        else (t.sizearray, t)) → Boundary t r.1 ∧ Cached t r.2 := by
    rintro r rfl
    by_cases hnil : 0 < t.sizearray ∧ (t.arr (t.sizearray - 1)).isNil = true
    · rw [if_pos hnil]
      have hb : Boundary t (boundarySearch t 0 t.sizearray) :=
        boundarySearch_spec hnil.1 (by omega) (by omega)
          (Or.inl (by rw [Nat.zero_add]; exact TValue.isNil_iff.mp hnil.2))
      exact ⟨hb, Or.inr ⟨_, hb.le, rfl⟩⟩
    · rw [if_neg hnil]
      refine ⟨⟨le_rfl, fun h0 => ?_, fun h => absurd h (lt_irrefl _)⟩, Or.inl rfl⟩
      intro hv
      exact hnil ⟨h0, TValue.isNil_iff.mpr hv⟩
  unfold luaH_getn
  dsimp only
  by_cases hb : 0 < t.getaboundary
  · rw [if_pos hb]
    by_cases hfull : (!(t.arr (t.sizearray - 1)).isNil) = true ∧ t.node = none
    · rw [if_pos hfull]
      exact ⟨⟨le_rfl, fun _ => isNil_ne.mp hfull.1, fun h => absurd h (lt_irrefl _)⟩, Or.inl rfl⟩
    · rw [if_neg hfull]
      by_cases hcached : t.getaboundary < t.sizearray ∧
          (!(t.arr (t.getaboundary - 1)).isNil) = true ∧ (t.arr t.getaboundary).isNil = true
      · rw [if_pos hcached]
        exact ⟨⟨hcached.1.le, fun _ => isNil_ne.mp hcached.2.1, fun _ => TValue.isNil_iff.mp hcached.2.2⟩,
          Or.inl rfl⟩
      · rw [if_neg hcached]
        split
        · exact hsearch _ rfl
        · rename_i found t' hne heq
          rcases updateaboundary_spec (t := t) t.getaboundary with h0 | h
          · rw [heq] at h0
            exact absurd h0 hne
          · rw [heq] at h
            exact h
  · rw [if_neg hb]
    exact hsearch _ rfl

/-! ### The union of `lastfree` and `aboundary` -/

/-- Caching a boundary keeps the table what it was: the field is only overwritten when it names no free
position, and then no slot is unused. -/
theorem Wellformed.maybesetaboundary (h : Wellformed E t) {b : ℕ} (hb : b ≤ t.sizearray) :
    SameMap E t (t.maybesetaboundary b) := by
  unfold LuaTable.maybesetaboundary
  by_cases hlf : t.lastfree ≤ 0
  · rw [if_pos hlf]
    refine ⟨⟨{ h.inv with
      freeBelow := fun i hi _ => h.inv.freeBelow i hi (by omega)
      freeMax := ?_
      aboundary := ?_ }, h.full⟩, fun _ _ _ => Iff.rfl, fun hd => hd⟩
    · show -(b : ℤ) ≤ (t.nodeCount : ℤ)
      omega
    · show -(-(b : ℤ)) ≤ (t.sizearray : ℤ)
      omega
  · rw [if_neg hlf]
    exact SameMap.refl h

theorem Wellformed.cached (h : Wellformed E t) {t' : LuaTable} (hc : Cached t t') : SameMap E t t' := by
  rcases hc with rfl | ⟨b, hb, rfl⟩
  · exact SameMap.refl h
  · exact h.maybesetaboundary hb

/-- What the union field means.  A negative value is an index of the array part.  A positive value is a
position of the hash part.  When it is not positive there is no unused node, so `getfreepos`, which
answers "none" and leaves the field alone, misses nothing; when it is positive, the boundary code neither
reads nor writes it. -/
structure UnionConsistent (t : LuaTable) : Prop where
  boundary : t.lastfree < 0 → t.getaboundary ≤ t.sizearray
  noHash : t.node = none → t.lastfree ≤ 0
  position : t.lastfree ≤ t.nodeCount
  noFree : t.lastfree ≤ 0 → getfreepos t = .ok none t ∧ ∀ i, i < t.nodeCount → t.gkey i ≠ .nil
  notBoundary : 0 < t.lastfree → t.getaboundary = t.sizearray ∧ ∀ b, t.maybesetaboundary b = t

theorem Inv.unionConsistent (h : Inv E t) : UnionConsistent t := by
  have habound := h.aboundary
  refine ⟨fun hneg => ?_, fun hn => ?_, h.freeMax, fun hlf => ⟨?_, fun i hi => ?_⟩, fun hpos => ⟨?_, fun b => ?_⟩⟩
  · unfold LuaTable.getaboundary
    rw [if_pos hneg]
    omega
  · have hmax := h.freeMax
    have hzero : t.nodeCount = 0 := by
      unfold LuaTable.nodeCount
      rw [hn]
      rfl
    omega
  · unfold getfreepos
    rw [TableM.get_bind, if_pos hlf]
    rfl
  · exact h.freeBelow i hi (by omega)
  · unfold LuaTable.getaboundary
    rw [if_neg (by omega)]
  · unfold LuaTable.maybesetaboundary
    rw [if_neg (by omega)]

/-! ### The boundary as a fact about the map -/

theorem holds_int (h : Inv E t) {n : ℕ} (hn : n < t.sizearray) {w : TValue} :
    t.Holds (.number (cast_num (n + 1))) w ↔ w ≠ .nil ∧ t.arr n = w := by
  have hM : MAXSIZE = 2 ^ 26 := rfl
  have hmax := h.sizeMax
  have hself : isNumberEq (.number (cast_num (n + 1))) (n + 1) = true := isNumberEq_cast_num (by omega)
  have hslot : t.SlotOf (.number (cast_num (n + 1))) (.array n) :=
    (arrayslot_eq_some_iff hmax).mpr ⟨hself, hn⟩
  refine and_congr_right fun _ => ?_
  constructor
  · rintro ⟨s, hs, hget⟩
    rw [h.slotOf_unique (validKey_of_isNumberEq hself) hs hslot] at hget
    exact hget
  · exact fun hget => ⟨_, hslot, hget⟩

/-- The key just behind the array part has no entry. -/
theorem Inv.boundary_absent (h : Inv E t) {k w : TValue} (hk : isNumberEq k (t.sizearray + 1) = true) :
    ¬ t.Holds k w := by
  have hM : MAXSIZE = 2 ^ 26 := rfl
  have hmax := h.sizeMax
  rintro ⟨_, s, hs, _⟩
  cases s with
  | nilobject => exact hs
  | array i =>
    obtain ⟨he, hi⟩ := (arrayslot_eq_some_iff hmax).mp hs
    have := isNumberEq_inj (by omega) (by omega) hk he
    omega
  | node j =>
    have hj : luaO_rawequalObj (t.gkey j) k = true := hs
    have hb := h.boundary j (Inv.keyed_of_rawequal (validKey_of_isNumberEq hk) hj)
    rw [isNumberEq_congr hj, hk] at hb
    cases hb

/-- **A boundary of the array part is a border of the map.** -/
theorem Boundary.lookup (h : Inv E t) {n : ℕ} (hb : Boundary t n) :
    (n = 0 ∨ lookup E t (.number (cast_num n)) ≠ .nil) ∧
      Luwu.lookup E t (.number (cast_num (n + 1))) = .nil := by
  have hM : MAXSIZE = 2 ^ 26 := rfl
  have hmax := h.sizeMax
  have hle := hb.le
  have hvalid : ∀ i : ℤ, -2 ^ 31 ≤ i ∧ i < 2 ^ 31 → (TValue.number (cast_num i)).ValidKey := fun i hi =>
    validKey_of_isNumberEq (isNumberEq_cast_num hi)
  constructor
  · rcases Nat.eq_zero_or_pos n with h0 | hpos
    · exact Or.inl h0
    · right
      intro hnil
      have hlast := hb.last hpos
      have hholds := (holds_int h (show n - 1 < t.sizearray by omega)).mpr ⟨hlast, rfl⟩
      rw [show ((n - 1 : ℕ) : ℤ) + 1 = n from by omega] at hholds
      exact (h.lookup_eq_nil_iff (hvalid n (by omega))).mp hnil _ hholds
  · rw [h.lookup_eq_nil_iff (hvalid (n + 1) (by omega))]
    intro w hw
    by_cases hlt : n < t.sizearray
    · obtain ⟨hw, hget⟩ := (holds_int h hlt).mp hw
      exact hw (hget.symm.trans (hb.next hlt))
    · have heq : n = t.sizearray := by omega
      rw [heq] at hw
      exact h.boundary_absent (isNumberEq_cast_num (by omega)) hw

end Boundary

end Luwu

/-!
## Arrays under an allocator that may refuse

A table whose numbers are all in the array part can be appended to whatever the allocator answers:
`luaH_setnum` at the key behind the last element gives that key an array slot, or throws and leaves
every element where it is.  When the second of the two allocations of `resize` is refused the array
part has already grown; that loses nothing as long as no number is in the hash part (`Packed`).
-/

namespace Luwu

/-- No key of the hash part is a number. -/
def Packed (t : LuaTable) : Prop := ∀ j d, t.gkey j ≠ .number d

section Append

variable {E : Env} {t t' : LuaTable} {n nasize nhsize : ℕ}

/-! ### Numbers in the array part -/

theorem arrayslot_of_packed (hp : Packed t) (j : ℕ) : arrayslot n (t.gkey j) = none := by
  have := hp j
  cases h : t.gkey j with
  | number d => exact absurd h (this d)
  | _ => rfl

theorem isNumberEq_of_packed (hp : Packed t) (j : ℕ) (i : ℤ) : isNumberEq (t.gkey j) i = false := by
  have := hp j
  cases h : t.gkey j with
  | number d => exact absurd h (this d)
  | _ => rfl

theorem unshadowed_of_packed (hp : Packed t) : Unshadowed t nasize :=
  fun j _ => ⟨arrayslot_of_packed hp j, isNumberEq_of_packed hp j _⟩

/-- The elements of a packed table are where its array says. -/
theorem holds_number_iff (h : Wellformed E t) (hp : Packed t) {i : ℕ} (hi : i + 1 < 2 ^ 31)
    {w : TValue} : t.Holds (.number (cast_num (i + 1))) w ↔ w ≠ .nil ∧ t.arr i = w := by
  have hM : MAXSIZE = 2 ^ 26 := rfl
  have hmax := h.inv.sizeMax
  rcases Nat.lt_or_ge i t.sizearray with hlt | hge
  · exact holds_int h.inv hlt
  · rw [arr_of_ge h.full hge]
    refine ⟨?_, fun ⟨h1, h2⟩ => absurd h2.symm h1⟩
    rintro ⟨hw, s, hs, hget⟩
    cases s with
    | nilobject => exact hs.elim
    | array j =>
      obtain ⟨he, hj⟩ := (arrayslot_eq_some_iff hmax).mp hs
      have := isNumberEq_inj (by omega) (by omega) (isNumberEq_cast_num (by omega)) he
      omega
    | node j =>
      have hj : luaO_rawequalObj (t.gkey j) (.number (cast_num (i + 1))) = true := hs
      have hk := hp j
      cases hkey : t.gkey j with
      | number d => exact absurd hkey (hk d)
      | _ =>
        rw [hkey] at hj
        cases hj

/-- A rebuilt table whose elements are all in the array part is packed. -/
theorem packed_of_live (hwf : Wellformed E t) (hlive : t.AllLive)
    (hno : ∀ d w, t.Holds (.number d) w → ∃ i, i < t.sizearray ∧
      isNumberEq (.number d) (i + 1) = true) : Packed t := by
  intro j d hj
  have hval := hlive j (by rw [hj]; simp)
  have hkey := hwf.inv.keyed_of_val hval
  have hself : luaO_rawequalObj (t.gkey j) (.number d) = true := by
    rw [← hj]
    exact rawequal_refl hkey
  obtain ⟨i, hi, he⟩ := hno d _ ⟨hval, .node j, hself, rfl⟩
  have hslot := hwf.inv.hashOnly j hkey
  rw [hj, (arrayslot_eq_some_iff hwf.inv.sizeMax).mpr ⟨he, hi⟩] at hslot
  cases hslot

/-- Elements of a packed table, from a key that is a number. -/
theorem number_of_holds (h : Wellformed E t) (hp : Packed t) {d : Double} {w : TValue}
    (hh : t.Holds (.number d) w) :
    ∃ i, i < t.sizearray ∧ isNumberEq (.number d) (i + 1) = true ∧ t.arr i = w ∧ w ≠ .nil := by
  obtain ⟨hw, s, hs, hget⟩ := hh
  cases s with
  | nilobject => exact hs.elim
  | array i =>
    obtain ⟨he, hi⟩ := (arrayslot_eq_some_iff h.inv.sizeMax).mp hs
    exact ⟨i, hi, he, hget, hw⟩
  | node j =>
    have hj : luaO_rawequalObj (t.gkey j) (.number d) = true := hs
    have hk := hp j
    cases hkey : t.gkey j with
    | number d' => exact absurd hkey (hk d')
    | _ =>
      rw [hkey] at hj
      cases hj

/-! ### Appending -/

/-- `t'` has the elements of `t`, all in its array part. -/
structure SameArray (E : Env) (t t' : LuaTable) : Prop where
  wf : Wellformed E t'
  packed : Packed t'
  arr : ∀ i, t'.arr i = t.arr i
  grows : t.sizearray ≤ t'.sizearray

theorem SameArray.refl (h : Wellformed E t) (hp : Packed t) : SameArray E t t :=
  ⟨h, hp, fun _ => rfl, le_rfl⟩

theorem resized_sameArray {nh : ℕ} (h : Wellformed E t) (hp : Packed t)
    (hle : t.sizearray ≤ nasize) (hna : nasize ≤ MAXSIZE) (hr : Resized E t nasize nh t') :
    SameArray E t t' := by
  have hM : MAXSIZE = 2 ^ 26 := rfl
  have hwf : Wellformed E t' := ⟨hr.fill.inv, hr.arrayLen.trans hr.sizearray.symm⟩
  have hpacked : Packed t' := by
    refine packed_of_live hwf hr.fill.live (fun d w hh => ?_)
    have hk : (TValue.number d).ValidKey := by
      obtain ⟨_, s, hs, _⟩ := hh
      cases s with
      | nilobject => exact hs.elim
      | array i => exact validKey_of_isNumberEq ((arrayslot_eq_some_iff hwf.inv.sizeMax).mp hs).1
      | node j =>
        have hj : luaO_rawequalObj (t'.gkey j) (.number d) = true := hs
        cases hkey : t'.gkey j with
        | number d' =>
          rw [hkey] at hj
          exact Double.not_nan_of_eq (Double.eq_symm hj)
        | _ =>
          rw [hkey] at hj
          cases hj
    obtain ⟨i, hi, he, _⟩ := number_of_holds h hp ((hr.holds _ _ hk).mp hh)
    exact ⟨i, by rw [hr.sizearray]; omega, he⟩
  refine ⟨hwf, hpacked, fun i => ?_, by rw [hr.sizearray]; exact hle⟩
  rcases Nat.lt_or_ge i nasize with hlt | hge
  · have hi : i + 1 < 2 ^ 31 := by omega
    have hvalid : (TValue.number (cast_num (i + 1))).ValidKey :=
      validKey_of_isNumberEq (isNumberEq_cast_num (by omega))
    have hiff : ∀ w, (w ≠ .nil ∧ t'.arr i = w) ↔ (w ≠ .nil ∧ t.arr i = w) := fun w => by
      rw [← holds_number_iff hwf hpacked hi, ← holds_number_iff h hp hi]
      exact hr.holds _ _ hvalid
    by_cases hnil : t.arr i = .nil
    · rw [hnil]
      by_contra hne
      have := (hiff _).mp ⟨hne, rfl⟩
      exact hne (this.2.symm.trans hnil)
    · exact ((hiff _).mpr ⟨hnil, rfl⟩).2
  · rw [arr_of_ge h.full (by omega), arr_of_ge hwf.full (by rw [hr.sizearray]; exact hge)]

/-- A number outside the array part is in neither part. -/
theorem getnum_absent (h : Inv E t) (hp : Packed t) {i : ℤ} (hr : -2 ^ 31 ≤ i ∧ i < 2 ^ 31)
    (hi : t.sizearray ≤ cast_unsigned (i - 1)) : luaH_getnum t i = some .nilobject := by
  have harr : arrayslot t.sizearray (.number (cast_num i)) = none := by
    refine if_neg (fun hc => ?_)
    rw [luai_num2int_cast_num hr] at hc
    exact absurd hc.2 (not_lt.mpr hi)
  rw [h.getnum_eq hr, harr]
  refine h.getgeneric_absent (fun j => ?_)
  cases hk : t.gkey j with
  | number d => exact absurd hk (hp j d)
  | _ => rfl

/-- **`luaH_setnum` behind the last element** gives it an array slot, or throws; either way the elements
stay. -/
theorem luaH_setnum_append (E : Env) (h : Wellformed E t) (hp : Packed t) (hn : n ≤ t.sizearray)
    (hfull : ∀ i, i < n → t.arr i ≠ .nil) :
    (∃ t', luaH_setnum E (n + 1) t = .ok (.array n) t' ∧ SameArray E t t' ∧ n < t'.sizearray) ∨
      ∃ e t', luaH_setnum E (n + 1) t = .error e t' ∧
        (e = .errmem ∨ e = .runerror "table overflow") ∧ SameArray E t t' := by
  have hM : MAXSIZE = 2 ^ 26 := rfl
  have hmax := h.inv.sizeMax
  have hrange : -2 ^ 31 ≤ (n + 1 : ℤ) ∧ (n + 1 : ℤ) < 2 ^ 31 := by omega
  have hcast : cast_unsigned ((n : ℤ) + 1 - 1) = n := by
    unfold cast_unsigned
    omega
  unfold luaH_setnum
  rw [TableM.get_bind, hcast]
  rcases Nat.lt_or_ge n t.sizearray with hlt | hge
  · rw [if_pos hlt]
    refine Or.inl ⟨t, ?_, SameArray.refl h hp, hlt⟩
    rw [show ((n : ℤ) + 1 - 1).toNat = n from by omega]
    rfl
  · obtain rfl : n = t.sizearray := by omega
    rw [if_neg (lt_irrefl _)]
    set key : TValue := .number (cast_num (t.sizearray + 1)) with hkey
    have hkeyeq : isNumberEq key (t.sizearray + 1) = true := isNumberEq_cast_num hrange
    have hget : luaH_getnum t (t.sizearray + 1) = some .nilobject :=
      getnum_absent h.inv hp hrange (by rw [hcast])
    have hrun : getornewkey (luaH_getnum t (t.sizearray + 1)) (newkey E newkeyFuel key) t
        = growtable E (newkey E 2) key t := by
      have hnew : newkey E (2 + 1) key t = growtable E (newkey E 2) key t := by
        rw [newkey, TableM.get_bind, if_pos hkeyeq]
      have habsent : ∀ new : TableM Slot, getornewkey (some .nilobject) new t = new t :=
        fun _ => rfl
      rw [hget, habsent, newkeyFuel, hnew]
    rw [hrun]
    obtain ⟨na, nh, hsizes, hcount, hnext⟩ := rehashSizes_spec h.inv key
    have hrehash : rehash E (newkey E 2) key t = resize E (newkey E 2) na nh t := by
      unfold rehash
      rw [TableM.get_bind, hsizes]
      rfl
    unfold growtable
    by_cases hbig : MAXSIZE < na ∨ MAXSIZE < nh
    · exact Or.inr ⟨_, t, TableM.bind_error _ (hrehash.trans (resize_overflow _ hbig)),
        Or.inr rfl, SameArray.refl h hp⟩
    · rw [not_or, not_lt, not_lt] at hbig
      -- the keys 1..sizearray and the new one are counted, so the array part reaches the new one
      have hgrow : t.sizearray < na := by
        by_contra hna
        rw [not_lt] at hna
        rcases Nat.lt_or_ge na t.sizearray with hlt | hge'
        · obtain ⟨k, hmem, hk⟩ := (h.inv.holds_int_iff (i := na) (by omega)
            (isNumberEq_cast_num (by omega))).mp
            ⟨_, (holds_number_iff h hp (by omega)).mpr ⟨hfull na hlt, rfl⟩⟩
          have := hnext k (List.mem_append_right _ hmem)
          rw [this] at hk
          cases hk
        · have he : na = t.sizearray := by omega
          have := hnext key (List.mem_append_left _ (List.mem_singleton_self key))
          rw [he, hkeyeq] at this
          cases this
      have habsent : ∀ k w, isNumberEq k (na + 1) = true → ¬t.Holds k w := by
        intro k w hk hh
        obtain ⟨k', hmem, hk'⟩ := (h.inv.holds_int_iff (by omega) hk).mp ⟨w, hh⟩
        have := hnext k' (List.mem_append_right _ hmem)
        rw [this] at hk'
        cases hk'
      have hcap := le_capacity nh
      have houtside := hcount hbig.1
      rcases resize_outcomes (E := E) h.inv h.full hbig.1 hbig.2 (by omega) habsent (inserts_newkey E 1) with
        ⟨t₂, hok, hres⟩ | ⟨t', herr, hshort⟩
      · have hsame := resized_sameArray h hp hgrow.le hbig.1 hres
        refine Or.inl ⟨t₂, ?_, hsame, by rw [hres.sizearray]; exact hgrow⟩
        rw [TableM.bind_ok _ (hrehash.trans hok)]
        have hslot : arrayslot t₂.sizearray key = some t.sizearray :=
          (arrayslot_eq_some_iff hsame.wf.inv.sizeMax).mpr
            ⟨hkeyeq, by rw [hres.sizearray]; exact hgrow⟩
        unfold arrayornewkey
        rw [TableM.get_bind, hslot]
        rfl
      · refine Or.inr ⟨.errmem, t', TableM.bind_error _ (hrehash.trans herr), Or.inl rfl, ?_⟩
        cases hshort with
        | array => exact SameArray.refl h hp
        | nodes =>
          unfold LuaTable.widened
          rw [if_pos hgrow]
          exact ⟨(h.grown (unshadowed_of_packed hp) hgrow.le hbig.1).wf, hp, arr_grown h.full, hgrow.le⟩
        | shrunk shrinks => omega

end Append

end Luwu
