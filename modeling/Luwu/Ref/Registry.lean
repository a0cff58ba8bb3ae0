import Luwu.Lib.Run
import Luwu.Lib.Chain
import Luwu.Table.Boundary
import Luwu.Ref.Core

/-!
# References in a registry table

The references of a registry are the elements `1..n` of its array part.  An element is the value its
reference was made for, nil once that value was collected, or the number that links a released slot to
the next.  As long as no value was collected all elements are there, so the length of the table is `n`
and a new reference is a new number; `registryref_spec` needs that only where it asks for the length.
-/

namespace Luwu

open Function Luwu.Run Luwu.SlotStore

/-- What a reference was made for, and whether that was collected. -/
abbrev RefLedger := Ledger ℤ (TValue × Bool)

/-- The link that a free list pointer or a released slot holds. -/
def reflink (d : ℤ) : Option ℤ := if d = 0 then none else some d

/-- The content of the slot of a reference. -/
def LuaTable.refslot (t : LuaTable) (r : ℤ) : TValue := t.arr (r - 1).toNat

/-- The slot that a slot links to. -/
def LuaTable.refnext (t : LuaTable) (r : ℤ) : Option ℤ :=
  match t.refslot r with
  | .number d => reflink (luai_num2int d)
  | _ => none

/-- Strings hash as given, and memory never runs out. -/
def hashEnv (strhash : GCPtr → BitVec 32) : Env := ⟨strhash, fun _ _ => true⟩

/-- A registry with the references of a ledger. -/
structure RegistryOk (strhash : GCPtr → BitVec 32) (t : LuaTable) (free : ℤ) (L : RefLedger)
    (n : ℕ) : Prop where
  wf : Wellformed (hashEnv strhash) t
  packed : Packed t
  fits : n ≤ t.sizearray
  issued : ∀ r, L r ≠ .unused ↔ 1 ≤ r ∧ r ≤ n
  rest : ∀ i, n ≤ i → t.arr i = .nil
  held : ∀ r v c, L r = .held (v, c) → v ≠ .nil ∧ t.refslot r = if c then .nil else v
  released : ∀ r, L r = .released →
    ∃ d : ℤ, 0 ≤ d ∧ d < 2 ^ 31 ∧ t.refslot r = .number (cast_num d)
  free_range : 0 ≤ free ∧ free < 2 ^ 31
  threads : ∃ xs, Threads L t.refnext (reflink free) xs

section Registry

variable {strhash : GCPtr → BitVec 32} {t t' : LuaTable} {free : ℤ} {L : RefLedger} {n : ℕ}
  {E : Env} {k : RegistryKind} {h : Host} {p v : TValue} {r : ℤ} {c : Bool}

/-! ### The environment -/

theorem sameHashes_of_strhash {E E' : Env} (he : E'.strhash = E.strhash) : SameHashes E E' t := by
  intro i _
  cases t.gkey i with
  | gc tt p => cases tt <;> simp [keyhash, he]
  | _ => rfl

theorem Wellformed.ofHash {E E' : Env} (h : Wellformed E t) (he : E'.strhash = E.strhash) :
    Wellformed E' t := ⟨h.inv.sameHashes (sameHashes_of_strhash he), h.full⟩

/-! ### Slots -/

theorem RegistryOk.in_array (hok : RegistryOk strhash t free L n) (hr : L r ≠ .unused) :
    1 ≤ r ∧ r ≤ n ∧ cast_unsigned (r - 1) < t.sizearray ∧ (r - 1).toNat < t.sizearray := by
  obtain ⟨h1, h2⟩ := (hok.issued r).mp hr
  have hM : MAXSIZE = 2 ^ 26 := rfl
  have hmax := hok.wf.inv.sizeMax
  have hfits := hok.fits
  refine ⟨h1, h2, ?_, by omega⟩
  unfold cast_unsigned
  omega

theorem RegistryOk.getnum (hok : RegistryOk strhash t free L n) (hr : L r ≠ .unused) :
    luaH_getnum t r = some (.array (r - 1).toNat) := by
  unfold luaH_getnum
  rw [if_pos (hok.in_array hr).2.2.1]

theorem RegistryOk.setnum (hok : RegistryOk strhash t free L n) (hr : L r ≠ .unused) (E : Env) :
    luaH_setnum E r t = .ok (.array (r - 1).toNat) t := by
  unfold luaH_setnum
  rw [TableM.get_bind, if_pos (hok.in_array hr).2.2.1]
  rfl

/-- A store through an array slot. -/
def LuaTable.setref (t : LuaTable) (r : ℤ) (v : TValue) : LuaTable :=
  t.slotSet v (.array (r - 1).toNat)

theorem refslot_setref_self (hlt : (r - 1).toNat < t.array.length) : (t.setref r v).refslot r = v := by
  show (t.array.set (r - 1).toNat v).getD (r - 1).toNat .nil = v
  rw [List.getD_eq_getElem?_getD, List.getElem?_set_self hlt]
  rfl

theorem arr_setref_of_ne {i : ℕ} (hi : i ≠ (r - 1).toNat) : (t.setref r v).arr i = t.arr i := by
  show (t.array.set (r - 1).toNat v).getD i .nil = t.array.getD i .nil
  rw [List.getD_eq_getElem?_getD, List.getD_eq_getElem?_getD, List.getElem?_set_ne (Ne.symm hi)]

theorem Wellformed.setref {E : Env} (hwf : Wellformed E t) : Wellformed E (t.setref r v) :=
  ⟨{ hwf.inv with
      arrayLen := by
        show t.sizearray ≤ (t.array.set (r - 1).toNat v).length
        rw [List.length_set]
        exact hwf.inv.arrayLen },
    by
      show (t.array.set (r - 1).toNat v).length = t.sizearray
      rw [List.length_set]
      exact hwf.full⟩

/-- The slots of different references are different. -/
theorem refslot_setref_of_ne {r' : ℤ} (h1 : 1 ≤ r) (h2 : 1 ≤ r') (hne : r' ≠ r) :
    (t.setref r v).refslot r' = t.refslot r' :=
  arr_setref_of_ne (by omega)

theorem refnext_congr (hs : t'.refslot r = t.refslot r) : t'.refnext r = t.refnext r := by
  unfold LuaTable.refnext
  rw [hs]

/-! ### Edits -/

/-- The elements move to another table. -/
theorem RegistryOk.move (hok : RegistryOk strhash t free L n) (hs : SameArray (hashEnv strhash) t t') :
    RegistryOk strhash t' free L n where
  wf := hs.wf
  packed := hs.packed
  fits := hok.fits.trans hs.grows
  issued := hok.issued
  rest := fun i hi => (hs.arr i).trans (hok.rest i hi)
  held := fun r v c hr => by
    obtain ⟨hv, hslot⟩ := hok.held r v c hr
    exact ⟨hv, (hs.arr _).trans hslot⟩
  released := fun r hr => by
    obtain ⟨d, h1, h2, hslot⟩ := hok.released r hr
    exact ⟨d, h1, h2, (hs.arr _).trans hslot⟩
  free_range := hok.free_range
  threads := by
    obtain ⟨xs, hxs⟩ := hok.threads
    exact ⟨xs, hxs.edit (fun _ => Iff.rfl) (fun r _ => refnext_congr (hs.arr _))⟩

theorem luai_num2int_link {d : ℤ} (h1 : 0 ≤ d) (h2 : d < 2 ^ 31) : luai_num2int (cast_num d) = d :=
  luai_num2int_cast_num (by omega)

/-- The slots other than the one written keep their content. -/
theorem RegistryOk.others (hok : RegistryOk strhash t free L n) (hr : 1 ≤ r) {r' : ℤ}
    (hr' : L r' ≠ .unused) (hne : r' ≠ r) : (t.setref r v).refslot r' = t.refslot r' :=
  refslot_setref_of_ne hr ((hok.issued r').mp hr').1 hne

/-- A released slot is used again. -/
theorem RegistryOk.reuse (hok : RegistryOk strhash t r L n) (hr : r ≠ 0) (hp : p ≠ .nil) :
    ∃ d : ℤ, L r = .released ∧ t.refslot r = .number (cast_num d) ∧
      luai_num2int (cast_num d) = d ∧
      RegistryOk strhash (t.setref r p) d (update L r (.held (p, false))) n := by
  obtain ⟨xs, hxs⟩ := hok.threads
  have hlink : reflink r = some r := if_neg hr
  rw [hlink] at hxs
  obtain ⟨hrel, _⟩ := hxs.uncons
  have hused : L r ≠ .unused := by
    rw [hrel]
    exact fun h => by cases h
  obtain ⟨h1, h2, _, hlt⟩ := hok.in_array hused
  obtain ⟨d, hd1, hd2, hslot⟩ := hok.released r hrel
  have hd := luai_num2int_link hd1 hd2
  have hnext : t.refnext r = reflink d := by
    unfold LuaTable.refnext
    rw [hslot]
    exact congrArg reflink hd
  have hoth : ∀ r' v', L r' ≠ .unused → r' ≠ r → (t.setref r v').refslot r' = t.refslot r' :=
    fun r' v' hr' hne => hok.others h1 hr' hne
  have hnu : ∀ r', L r' = .released → L r' ≠ .unused := fun r' he h => by
    rw [he] at h
    cases h
  refine ⟨d, hrel, hslot, hd, hok.wf.setref, hok.packed, hok.fits, fun r' => ?_, fun i hi => ?_,
    fun r' v c hr' => ?_, fun r' hr' => ?_, ⟨hd1, hd2⟩, ?_⟩
  · by_cases he : r' = r
    · subst he
      rw [update_self]
      exact iff_of_true (fun h => by cases h) ⟨h1, h2⟩
    · rw [update_of_ne he]
      exact hok.issued r'
  · rw [arr_setref_of_ne (by omega)]
    exact hok.rest i hi
  · by_cases he : r' = r
    · subst he
      rw [update_self] at hr'
      obtain ⟨rfl, rfl⟩ := Prod.mk.inj (Holding.held.inj hr')
      exact ⟨hp, refslot_setref_self (by rw [hok.wf.full]; exact hlt)⟩
    · rw [update_of_ne he] at hr'
      rw [hoth r' p (by rw [hr']; exact fun h => by cases h) he]
      exact hok.held r' v c hr'
  · by_cases he : r' = r
    · subst he
      rw [update_self] at hr'
      cases hr'
    · rw [update_of_ne he] at hr'
      rw [hoth r' p (hnu r' hr') he]
      exact hok.released r' hr'
  · -- the rest of the free list
    have hedit : Threads L (fun r' => if r' = r then t.refnext r' else (t.setref r p).refnext r')
        (some r) xs := by
      refine hxs.edit (fun _ => Iff.rfl) (fun r' hr' => ?_)
      by_cases he : r' = r
      · exact if_pos he
      · rw [if_neg he]
        exact refnext_congr (hoth r' p (hnu r' hr') he)
    obtain ⟨ys, hys⟩ := hedit.reuse (a := (p, false))
      (fun r' hne => (if_neg hne).symm)
    rw [if_pos rfl, hnext] at hys
    exact ⟨ys, hys⟩

/-- A new slot behind the last element. -/
theorem RegistryOk.issue (hok : RegistryOk strhash t 0 L n) (hlt : n < t.sizearray)
    (hp : p ≠ .nil) :
    L (n + 1) = .unused ∧
      RegistryOk strhash (t.setref (n + 1) p) 0 (update L (n + 1) (.held (p, false))) (n + 1) := by
  have hunused : L (n + 1) = .unused := by
    by_contra hne
    have := ((hok.issued _).mp hne).2
    omega
  have hidx : ((n : ℤ) + 1 - 1).toNat = n := by omega
  have hoth : ∀ r', L r' ≠ .unused → (t.setref (n + 1) p).refslot r' = t.refslot r' := by
    intro r' hr'
    refine hok.others (by omega) hr' (fun he => ?_)
    rw [he] at hr'
    exact hr' hunused
  have hne : ∀ {r' : ℤ} {x : Holding (TValue × Bool)}, L r' = x → x ≠ .unused → r' ≠ n + 1 :=
    fun he hx h => hx (by rw [← he, h, hunused])
  refine ⟨hunused, hok.wf.setref, hok.packed, hlt, fun r' => ?_, fun i hi => ?_,
    fun r' v c hr' => ?_, fun r' hr' => ?_, hok.free_range, ?_⟩
  · by_cases he : r' = n + 1
    · subst he
      rw [update_self]
      exact iff_of_true (fun h => by cases h) ⟨by omega, by push_cast; omega⟩
    · rw [update_of_ne he, hok.issued]
      push_cast
      omega
  · rw [arr_setref_of_ne (by omega)]
    exact hok.rest i (by omega)
  · by_cases he : r' = n + 1
    · subst he
      rw [update_self] at hr'
      obtain ⟨rfl, rfl⟩ := Prod.mk.inj (Holding.held.inj hr')
      exact ⟨hp, refslot_setref_self (by rw [hok.wf.full, hidx]; exact hlt)⟩
    · rw [update_of_ne he] at hr'
      rw [hoth r' (by rw [hr']; exact fun h => by cases h)]
      exact hok.held r' v c hr'
  · by_cases he : r' = n + 1
    · subst he
      rw [update_self] at hr'
      cases hr'
    · rw [update_of_ne he] at hr'
      rw [hoth r' (by rw [hr']; exact fun h => by cases h)]
      exact hok.released r' hr'
  · obtain ⟨xs, hxs⟩ := hok.threads
    have hedit : Threads L (t.setref (n + 1) p).refnext (reflink 0) xs :=
      hxs.edit (fun _ => Iff.rfl) (fun r' hr' =>
        refnext_congr (hoth r' (by rw [hr']; exact fun h => by cases h)))
    exact ⟨xs, hedit.issue hunused (fun _ _ => rfl)⟩

/-- A slot in use is given back. -/
theorem RegistryOk.release (hok : RegistryOk strhash t free L n) {a : TValue × Bool}
    (hr : L r = .held a) :
    RegistryOk strhash (t.setref r (.number (cast_num free))) r (update L r .released) n := by
  have hused : L r ≠ .unused := by
    rw [hr]
    exact fun h => by cases h
  obtain ⟨h1, h2, _, hlt⟩ := hok.in_array hused
  have hM : MAXSIZE = 2 ^ 26 := rfl
  have hmax := hok.wf.inv.sizeMax
  have hfits := hok.fits
  have hself : (t.setref r (.number (cast_num free))).refslot r = .number (cast_num free) :=
    refslot_setref_self (by rw [hok.wf.full]; exact hlt)
  have hoth : ∀ r', L r' ≠ .unused → r' ≠ r →
      (t.setref r (.number (cast_num free))).refslot r' = t.refslot r' :=
    fun r' hr' hne => hok.others h1 hr' hne
  refine ⟨hok.wf.setref, hok.packed, hok.fits, fun r' => ?_, fun i hi => ?_, fun r' v c hr' => ?_,
    fun r' hr' => ?_, ⟨by omega, by omega⟩, ?_⟩
  · by_cases he : r' = r
    · subst he
      rw [update_self]
      exact iff_of_true (fun h => by cases h) ⟨h1, h2⟩
    · rw [update_of_ne he]
      exact hok.issued r'
  · rw [arr_setref_of_ne (by omega)]
    exact hok.rest i hi
  · by_cases he : r' = r
    · subst he
      rw [update_self] at hr'
      cases hr'
    · rw [update_of_ne he] at hr'
      rw [hoth r' (by rw [hr']; exact fun h => by cases h) he]
      exact hok.held r' v c hr'
  · by_cases he : r' = r
    · subst he
      exact ⟨free, hok.free_range.1, hok.free_range.2, hself⟩
    · rw [update_of_ne he] at hr'
      rw [hoth r' (by rw [hr']; exact fun h => by cases h) he]
      exact hok.released r' hr'
  · obtain ⟨xs, hxs⟩ := hok.threads
    have hnext : (t.setref r (.number (cast_num free))).refnext r = reflink free := by
      unfold LuaTable.refnext
      rw [hself]
      exact congrArg reflink (luai_num2int_link hok.free_range.1 hok.free_range.2)
    have hedit : Threads L
        (fun r' => if r' = r then reflink free else (t.setref r (.number (cast_num free))).refnext r')
        (reflink free) xs := by
      refine hxs.edit (fun _ => Iff.rfl) (fun r' hr' => ?_)
      have hne : r' ≠ r := fun he => by
        rw [he, hr] at hr'
        cases hr'
      rw [if_neg hne]
      exact refnext_congr (hoth r' (by rw [hr']; exact fun h => by cases h) hne)
    have hrel := hedit.release hr hnext
      (fun r' hne => (if_neg hne).symm)
    have hlink : reflink r = some r := if_neg (by omega)
    rw [hlink]
    exact ⟨_, hrel⟩

/-! ### The length -/

theorem cached_sameArray {E : Env} (hwf : Wellformed E t) (hp : Packed t) (hc : Cached t t') :
    SameArray E t t' := by
  have hwf' := (hwf.cached hc).wf
  rcases hc with rfl | ⟨b, _, rfl⟩
  · exact SameArray.refl hwf hp
  · refine ⟨hwf', ?_, ?_, ?_⟩ <;> unfold LuaTable.maybesetaboundary
    · split <;> exact hp
    · split <;> exact fun _ => rfl
    · split <;> exact le_rfl

/-- While every element is there, the length is their number. -/
theorem RegistryOk.getn (hok : RegistryOk strhash t free L n) (hall : ∀ i, i < n → t.arr i ≠ .nil) :
    (luaH_getn t).1 = n ∧ SameArray (hashEnv strhash) t (luaH_getn t).2 := by
  obtain ⟨hb, hc⟩ := luaH_getn_spec t
  refine ⟨?_, cached_sameArray hok.wf hok.packed hc⟩
  have hfits := hok.fits
  rcases Nat.lt_trichotomy (luaH_getn t).1 n with hlt | heq | hgt
  · exact absurd (hb.next (by omega)) (hall _ hlt)
  · exact heq
  · exact absurd (hok.rest _ (by omega)) (hb.last (by omega))

/-! ### Collection -/

/-- A pass over the nodes: the array part stays, and a key that is a number was one before. -/
structure NodePass (E : Env) (t t' : LuaTable) : Prop where
  wf : Wellformed E t'
  array : t'.array = t.array
  sizearray : t'.sizearray = t.sizearray
  packed : Packed t → Packed t'

theorem NodePass.refl {E : Env} (h : Wellformed E t) : NodePass E t t := ⟨h, rfl, rfl, id⟩

theorem NodePass.trans {E : Env} {t'' : LuaTable} (h : NodePass E t t') (h' : NodePass E t' t'') :
    NodePass E t t'' :=
  ⟨h'.wf, h'.array.trans h.array, h'.sizearray.trans h.sizearray, fun hp => h'.packed (h.packed hp)⟩

theorem nodePass_removeentry {E : Env} (h : Wellformed E t) {i : ℕ} (hv : t.gval i = .nil) :
    NodePass E t (removeentry t i) := by
  obtain ⟨harr, hsize, _, _, _, _, _, _, _, hkey⟩ := removeentry_frame t i
  refine ⟨⟨h.inv.removeentry i hv, by rw [harr, hsize, h.full]⟩, harr, hsize, fun hp j d hj => ?_⟩
  rcases hkey j with he | ⟨_, _, _, _, he⟩
  · exact hp j d (he ▸ hj)
  · rw [he] at hj
    cases hj

theorem nodePass_clear {E : Env} (h : Wellformed E t) {i : ℕ} (hv : t.gval i ≠ .nil) :
    NodePass E t (t.setVal i .nil) ∧ (t.setVal i .nil).gval i = .nil := by
  have hlt := LuaTable.lt_of_gval hv
  have hk : (t.gkey i).ValidKey := h.inv.keyed_of_val hv
  have hs : t.SlotOf (t.gkey i) (.node i) := rawequal_refl hk
  have hinv : Inv E (t.setVal i .nil) := h.inv.slotSet hk hs .nil
  refine ⟨⟨⟨hinv, h.full⟩, rfl, rfl, fun hp j d hj => hp j d ?_⟩, ?_⟩
  · rwa [LuaTable.gkey_setVal _ hlt] at hj
  · rw [LuaTable.gval_setVal _ hlt, if_pos rfl]

/-- A loop over the nodes whose rounds are passes is a pass. -/
theorem nodePass_foldl {E : Env} {f : LuaTable → ℕ → LuaTable}
    (hf : ∀ t i, Wellformed E t → NodePass E t (f t i)) (is : List ℕ) (h : Wellformed E t) :
    NodePass E t (is.foldl f t) := by
  induction is generalizing t with
  | nil => exact NodePass.refl h
  | cons i is ih => exact (hf t i h).trans (ih (hf t i h).wf)

theorem nodePass_traversenodes {E : Env} (h : Wellformed E t) : NodePass E t (traversenodes t) := by
  refine nodePass_foldl (fun t i h => ?_) _ h
  by_cases hv : (t.gval i).isNil = true
  · rw [if_pos hv]
    exact nodePass_removeentry h (TValue.isNil_iff.mp hv)
  · rw [if_neg hv]
    exact NodePass.refl h

theorem nodePass_clearnode {E : Env} (white : GCPtr → Bool) {i : ℕ} (h : Wellformed E t) :
    NodePass E t (clearnode white t i) := by
  unfold clearnode
  split
  · next hc =>
    rw [Bool.and_eq_true, Bool.not_eq_true', TValue.isNil_eq_false_iff] at hc
    obtain ⟨hpass, hnil⟩ := nodePass_clear h hc.1
    exact hpass.trans (nodePass_removeentry hpass.wf hnil)
  · exact NodePass.refl h

/-- What `cleartable` does to the array part. -/
theorem cleartable_spec {E : Env} (white : GCPtr → Bool) (h : Wellformed E t) (hp : Packed t) :
    Wellformed E (cleartable white t) ∧ Packed (cleartable white t) ∧
      (cleartable white t).sizearray = t.sizearray ∧
      ∀ i, (cleartable white t).arr i = if iscleared white (t.arr i) then .nil else t.arr i := by
  set clear : TValue → TValue := fun v => if iscleared white v then .nil else v with hclear
  set t₁ : LuaTable := { t with array := t.array.map clear } with ht₁
  have hwf₁ : Wellformed E t₁ := by
    refine ⟨{ h.inv with arrayLen := ?_ }, ?_⟩
    · show t.sizearray ≤ (t.array.map clear).length
      rw [List.length_map]
      exact h.inv.arrayLen
    · show (t.array.map clear).length = t.sizearray
      rw [List.length_map]
      exact h.full
  have hpass : NodePass E t₁ (cleartable white t) :=
    nodePass_foldl (fun t i h => nodePass_clearnode white h) _ hwf₁
  refine ⟨hpass.wf, hpass.packed hp, hpass.sizearray, fun i => ?_⟩
  have hnil : clear .nil = .nil := rfl
  show (cleartable white t).array.getD i .nil = clear (t.array.getD i .nil)
  rw [hpass.array]
  show (t.array.map clear).getD i .nil = _
  rw [List.getD_eq_getElem?_getD, List.getD_eq_getElem?_getD, List.getElem?_map]
  cases t.array[i]? with
  | none => exact hnil.symm
  | some v => rfl

/-- What a collection makes of a ledger: references whose value is white are marked. -/
def collectLedger (white : GCPtr → Bool) (L : RefLedger) : RefLedger := fun r =>
  match L r with
  | .held (v, c) => .held (v, c || iscleared white v)
  | s => s

theorem NodePass.sameArray (hp : NodePass E t t') (hpacked : Packed t) : SameArray E t t' :=
  ⟨hp.wf, hp.packed hpacked, fun i => by
    unfold LuaTable.arr
    rw [hp.array], hp.sizearray.ge⟩

theorem RegistryOk.traverse (hok : RegistryOk strhash t free L n) :
    RegistryOk strhash (traversenodes t) free L n :=
  hok.move ((nodePass_traversenodes hok.wf).sameArray hok.packed)

/-- **A collection** makes references whose value is white read nil, and does nothing else. -/
theorem RegistryOk.clear (hok : RegistryOk strhash t free L n) (white : GCPtr → Bool) :
    RegistryOk strhash (cleartable white t) free (collectLedger white L) n := by
  obtain ⟨hwf, hpacked, hsize, harr⟩ := cleartable_spec white hok.wf hok.packed
  have hused : ∀ r, collectLedger white L r ≠ .unused ↔ L r ≠ .unused := by
    intro r
    unfold collectLedger
    cases L r with
    | held a => exact iff_of_true (fun h => by cases h) (fun h => by cases h)
    | _ => exact Iff.rfl
  have hrel : ∀ r, collectLedger white L r = .released ↔ L r = .released := by
    intro r
    unfold collectLedger
    cases L r with
    | held a => exact iff_of_false (fun h => by cases h) (fun h => by cases h)
    | _ => exact Iff.rfl
  -- a link is a number, so it stays
  have hlink : ∀ r, L r = .released → (cleartable white t).refslot r = t.refslot r := by
    intro r hr
    obtain ⟨d, _, _, hslot⟩ := hok.released r hr
    show (cleartable white t).arr _ = t.arr _
    rw [harr]
    have : t.arr (r - 1).toNat = .number (cast_num d) := hslot
    rw [this]
    rfl
  refine ⟨hwf, hpacked, by rw [hsize]; exact hok.fits, fun r => (hused r).trans (hok.issued r),
    fun i hi => ?_, fun r v c hr => ?_, fun r hr => ?_, hok.free_range, ?_⟩
  · rw [harr, hok.rest i hi]
    rfl
  · unfold collectLedger at hr
    cases hL : L r with
    | held a =>
      obtain ⟨v', c'⟩ := a
      rw [hL] at hr
      obtain ⟨rfl, rfl⟩ := Prod.mk.inj (Holding.held.inj hr)
      obtain ⟨hv, hslot⟩ := hok.held r v' c' hL
      refine ⟨hv, ?_⟩
      show (cleartable white t).arr _ = _
      have hslot' : t.arr (r - 1).toNat = if c' then .nil else v' := hslot
      rw [harr, hslot']
      cases c' with
      | true => rfl
      | false => rfl
    | unused =>
      rw [hL] at hr
      cases hr
    | released =>
      rw [hL] at hr
      cases hr
  · have hr' := (hrel r).mp hr
    obtain ⟨d, h1, h2, hslot⟩ := hok.released r hr'
    exact ⟨d, h1, h2, (hlink r hr').trans hslot⟩
  · obtain ⟨xs, hxs⟩ := hok.threads
    exact ⟨xs, hxs.edit hrel (fun r hr => refnext_congr (hlink r hr))⟩

end Registry

end Luwu
