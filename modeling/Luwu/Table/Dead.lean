import Luwu.Table.Map

/-!
# Dead keys

The collector marks the key of an entry without a value dead (`removeentry` in `lgc.cpp`): the node stays
in its chain, but no lookup finds it.  Its object may then be freed, and its address may be used again.
What the table code reads from the heap is the hash field of strings, so from the point of view of a table
such a reuse is a change of `strhash` away from the keys it holds (`SameHashes`).

A traversal compares dead keys by address, so a node whose object is gone could be taken for a new key
with the same address.  `DeadBehind` rules this out: in the chain searched for a key, no dead node with
its address comes before it.  A new key goes to the head of its chain, or right behind the head, so it is
in front of every dead node there (`Inserted.deadBehind`).
-/

namespace Luwu

open Links

/-- `removeentry`: mark the key of an entry without a value dead. -/
def removeentry (t : LuaTable) (i : ℕ) : LuaTable :=
  match t.gkey i with
  | .gc _ p => t.setnodekey i (.deadkey p)
  | _ => t

/-- No dead node with the address of a key comes before it in its chain. -/
def DeadBehind (E : Env) (t : LuaTable) : Prop :=
  ∀ i j p, t.Keyed i → (t.gkey i).gcvalue = some p → t.gkey j = .deadkey p →
    Reach t.link (mainposition E t (t.gkey i)) j → ¬ Reach t.link j i

/-- No other key that is not dead has the address of the key in slot `i`: the object of that key is still
there, and no two objects share an address. -/
def AloneAt (t : LuaTable) (i : ℕ) : Prop :=
  ∀ j tt p, t.gkey i = .gc tt p → t.Keyed j → (t.gkey j).gcvalue = some p → j = i

/-- The keys of the table hash as before. -/
def SameHashes (E E' : Env) (t : LuaTable) : Prop :=
  ∀ i, t.Keyed i → keyhash E' (t.gkey i) = keyhash E (t.gkey i)

section Dead

variable {E E' : Env} {t t' : LuaTable} {key : TValue} {i : ℕ}

theorem isDead_iff {k : TValue} : k.isDead = true ↔ ∃ p, k = .deadkey p := by
  cases k <;> simp [TValue.isDead]

/-! ### Changes of the heap -/

theorem mainposition_env (hh : SameHashes E E' t) (hi : t.Keyed i) :
    mainposition E' t (t.gkey i) = mainposition E t (t.gkey i) := by
  unfold mainposition
  rw [hh i hi]

theorem Inv.sameHashes (h : Inv E t) (hh : SameHashes E E' t) : Inv E' t :=
  { h with
    reach := fun i hi => by
      rw [mainposition_env hh hi]
      exact h.reach i hi
    head := fun i hi => by
      rw [mainposition_env hh hi]
      rcases h.head i hi with hd | ⟨hk, hm⟩
      · exact Or.inl hd
      · refine Or.inr ⟨hk, ?_⟩
        rw [mainposition_env hh hk]
        exact hm }

theorem DeadBehind.sameHashes (h : DeadBehind E t) (hh : SameHashes E E' t) : DeadBehind E' t := by
  intro i j p hi hp hj
  rw [mainposition_env hh hi]
  exact h i j p hi hp hj

/-! ### `removeentry` -/

/-- What `removeentry` does to the node functions: one key may become dead. -/
theorem removeentry_frame (t : LuaTable) (i : ℕ) :
    (removeentry t i).array = t.array ∧ (removeentry t i).sizearray = t.sizearray ∧
    (removeentry t i).lsizenode = t.lsizenode ∧ (removeentry t i).nodeCount = t.nodeCount ∧
    (removeentry t i).lastfree = t.lastfree ∧ ((removeentry t i).node = none ↔ t.node = none) ∧
    (removeentry t i).link = t.link ∧ (∀ j, (removeentry t i).gnext j = t.gnext j) ∧
    (∀ j, (removeentry t i).gval j = t.gval j) ∧
    (∀ j, (removeentry t i).gkey j = t.gkey j ∨
      j = i ∧ ∃ tt p, t.gkey i = .gc tt p ∧ (removeentry t i).gkey j = .deadkey p) := by
  unfold removeentry
  split
  · rename_i tt p hkey
    have hi : i < t.nodeCount := LuaTable.lt_of_gkey (by rw [hkey]; simp)
    refine ⟨rfl, rfl, rfl, LuaTable.nodeCount_setnodekey _, rfl,
      by simp [LuaTable.setnodekey, LuaTable.setNode], LuaTable.link_setnodekey _ hi,
      fun j => LuaTable.gnext_setnodekey _ hi, fun j => LuaTable.gval_setnodekey _ hi, fun j => ?_⟩
    rw [LuaTable.gkey_setnodekey _ hi]
    by_cases hj : j = i
    · exact Or.inr ⟨hj, tt, p, hkey, if_pos hj⟩
    · exact Or.inl (if_neg hj)
  · exact ⟨rfl, rfl, rfl, rfl, rfl, Iff.rfl, rfl, fun _ => rfl, fun _ => rfl, fun _ => Or.inl rfl⟩

/-- A key that is not dead after `removeentry` was there before. -/
theorem gkey_removeentry (t : LuaTable) (i : ℕ) {j : ℕ} (hj : (removeentry t i).Keyed j) :
    (removeentry t i).gkey j = t.gkey j ∧ t.Keyed j := by
  obtain ⟨_, _, _, _, _, _, _, _, _, hkey⟩ := removeentry_frame t i
  rcases hkey j with hk | ⟨_, _, p, _, hk⟩
  · exact ⟨hk, by rw [LuaTable.Keyed, ← hk]; exact hj⟩
  · unfold LuaTable.Keyed at hj
    rw [hk] at hj
    exact hj.elim

/-- **Marking a key dead** keeps the representation invariant. -/
theorem Inv.removeentry (h : Inv E t) (i : ℕ) (hv : t.gval i = .nil) : Inv E (removeentry t i) := by
  obtain ⟨harr, hsize, hls, hcount, hlf, hnode, hlink, hnext, hval, hkey⟩ := removeentry_frame t i
  have hmain : ∀ x, mainposition E (Luwu.removeentry t i) x = mainposition E t x := fun x => by
    unfold mainposition hashpow2 LuaTable.sizenode
    rw [hls]
  have hkeyed := fun j => gkey_removeentry t i (j := j)
  -- a key is nil only where it was
  have hnil : ∀ j, (Luwu.removeentry t i).gkey j = .nil → t.gkey j = .nil := by
    intro j hj
    rcases hkey j with hk | ⟨_, _, _, _, hk⟩
    · rw [← hk, hj]
    · rw [hk] at hj
      cases hj
  -- a slot of a chain head stays one: it keeps its key, or its key dies
  have hhead : ∀ j, t.gkey j ≠ .nil → (t.gkey j).isDead = true ∨ t.Keyed j →
      ((Luwu.removeentry t i).gkey j).isDead = true ∨
        ((Luwu.removeentry t i).gkey j = t.gkey j ∧ t.Keyed j) := by
    intro j _ hj
    rcases hkey j with hk | ⟨_, _, _, _, hk⟩
    · rw [hk]
      rcases hj with hj | hj
      · exact Or.inl hj
      · exact Or.inr ⟨rfl, hj⟩
    · rw [hk]
      exact Or.inl rfl
  refine
    { arrayLen := by rw [hsize, harr]; exact h.arrayLen
      sizeMax := by rw [hsize]; exact h.sizeMax
      dummySize := fun hn => by rw [hls]; exact h.dummySize (hnode.mp hn)
      nodeSize := fun hn => ?_
      offset := fun j => by rw [hnext]; exact h.offset j
      inRange := by rw [hlink, hcount]; exact h.inRange
      ranked := by rw [hlink]; exact h.ranked
      unshared := by rw [hlink]; exact h.unshared
      unused := fun j hj => by rw [hval, hlink]; exact h.unused j (hnil j hj)
      keys := fun j => ?_
      reach := fun j hj => ?_
      unique := fun j j' hj hj' he => ?_
      head := fun j hj => ?_
      hashOnly := fun j hj => ?_
      boundary := fun j hj => ?_
      freeBelow := fun j hj hle hn => h.freeBelow j (hcount ▸ hj) (hlf ▸ hle) (hnil j hn)
      freeMax := by rw [hlf, hcount]; exact h.freeMax
      aboundary := by rw [hlf, hsize]; exact h.aboundary }
  · unfold LuaTable.sizenode
    rw [hcount, hls]
    exact h.nodeSize fun hn' => hn (hnode.mpr hn')
  · unfold LuaTable.Keyed
    rw [hval]
    rcases hkey j with hk | ⟨hji, _, p, _, hk⟩
    · rw [hk]
      exact h.keys j
    · rw [hk, hji]
      exact Or.inr (Or.inr ⟨rfl, hv⟩)
  · obtain ⟨hk, hold⟩ := hkeyed j hj
    rw [hk, hmain, hlink]
    exact h.reach j hold
  · obtain ⟨hk, hold⟩ := hkeyed j hj
    obtain ⟨hk', hold'⟩ := hkeyed j' hj'
    rw [hk, hk'] at he
    exact h.unique j j' hold hold' he
  · obtain ⟨hk, hold⟩ := hkeyed j hj
    rw [hk, hmain, hmain]
    have hcases := hhead _ (h.main_ne_nil hold) ((h.head j hold).imp_right And.left)
    rcases hcases with hd | ⟨hkq, hkeyedq⟩
    · exact Or.inl hd
    · unfold LuaTable.Keyed
      rw [hkq]
      exact h.head j hold
  · obtain ⟨hk, hold⟩ := hkeyed j hj
    rw [hk, hsize]
    exact h.hashOnly j hold
  · obtain ⟨hk, hold⟩ := hkeyed j hj
    rw [hk, hsize]
    exact h.boundary j hold

/-- Marking a key without a value dead changes no entry. -/
theorem holds_removeentry (i : ℕ) (hv : t.gval i = .nil) {k w : TValue} :
    (removeentry t i).Holds k w ↔ t.Holds k w := by
  obtain ⟨harr, hsize, _, _, _, _, _, _, hval, hkey⟩ := removeentry_frame t i
  refine and_congr_right fun hw => exists_congr fun s => ?_
  cases s with
  | nilobject => exact Iff.rfl
  | array j => simp only [LuaTable.SlotOf, LuaTable.slotGet, LuaTable.arr, hsize, harr]
  | node j =>
    simp only [LuaTable.SlotOf, LuaTable.slotGet, hval]
    refine and_congr_left fun hget => ?_
    rcases hkey j with hkj | ⟨hji, _⟩
    · rw [hkj]
    · rw [hji, hv] at hget
      exact absurd hget.symm hw

/-- A key that dies has no live namesake, so it hides nothing. -/
theorem DeadBehind.removeentry (h : DeadBehind E t) {i : ℕ} (halone : AloneAt t i) :
    DeadBehind E (removeentry t i) := by
  obtain ⟨_, _, hls, _, _, _, hlink, _, _, hkey⟩ := removeentry_frame t i
  intro a b p ha hp hb
  obtain ⟨hka, hold⟩ := gkey_removeentry t i ha
  rw [hka] at hp ⊢
  have hmain : mainposition E (Luwu.removeentry t i) (t.gkey a) = mainposition E t (t.gkey a) := by
    unfold mainposition hashpow2 LuaTable.sizenode
    rw [hls]
  rw [hlink, hmain]
  rcases hkey b with hkb | ⟨hbi, tt, q, hki, hkb⟩
  · exact h a b p hold hp (hkb ▸ hb)
  · -- the node that just died: no other key has its address
    rw [hkb] at hb
    obtain rfl := TValue.deadkey.inj hb
    have hai := halone a tt q hki hold hp
    have hdead : (Luwu.removeentry t i).gkey a = .deadkey q := by
      rw [hai.trans hbi.symm, hkb]
    unfold LuaTable.Keyed at ha
    rw [hdead] at ha
    exact ha.elim

/-! ### Insertion -/

theorem Inserted.deadBehind (h : Inv E t) (hd : DeadBehind E t) (hk : Insertable t key)
    (hi : Inserted E t key t' i) : DeadBehind E t' := by
  have hmain := mainposition_frame (E := E) hi.frame
  intro a b p ha hp hb
  rw [hmain]
  intro hab hba
  have hbdead : ¬ t'.Keyed b := fun hkb => by
    unfold LuaTable.Keyed at hkb
    rw [hb] at hkb
    exact hkb.elim
  cases hi with
  | intoMain frame lf empty inside gkey gval link offset =>
    set mp := mainposition E t key with hmp
    rw [link] at hab hba
    have hne : ∀ j, j ≠ mp → t'.gkey j = t.gkey j := fun j hj => by rw [gkey, if_neg hj]
    have hat : t'.gkey mp = key := by rw [gkey, if_pos rfl]
    have hbm : b ≠ mp := by
      rintro rfl
      exact hbdead (by unfold LuaTable.Keyed; rw [hat]; exact hk.valid)
    rw [hne b hbm] at hb
    by_cases ham : a = mp
    · rw [ham, hat] at hab
      exact hbm (h.ranked.antisymm (ham ▸ hba) hab)
    · unfold LuaTable.Keyed at ha
      rw [hne a ham] at ha hp hab
      exact hd a b p ha hp hb hab hba
  | @moved q n frame lf above inside ninside free taken out rel edit =>
    set mp := mainposition E t key with hmp
    obtain ⟨gkey, gval, link, offset⟩ := edit
    rw [link] at hab hba
    have hkm : t.Keyed mp := h.keyed_of_val taken
    have hmn := rel.mn
    have hat : t'.gkey mp = key := by rw [gkey, if_pos rfl]
    have hn : t'.gkey n = t.gkey mp := by rw [gkey, if_neg hmn.symm, if_pos rfl]
    have hne : ∀ j, j ≠ mp → j ≠ n → t'.gkey j = t.gkey j := fun j hj hjn => by
      rw [gkey, if_neg hj, if_neg hjn]
    have hbm : b ≠ mp := by
      rintro rfl
      exact hbdead (by unfold LuaTable.Keyed; rw [hat]; exact hk.valid)
    have hbn : b ≠ n := by
      rintro rfl
      exact hbdead (by unfold LuaTable.Keyed; rw [hn]; exact hkm)
    rw [hne b hbm hbn] at hb
    by_cases ham : a = mp
    · -- the new key is alone in its chain
      rw [ham, hat] at hab
      exact hbm (hab.eq_of_none (relocate_out rel)).symm
    · -- an old key, now in `a`, was in `if a = n then mp else a`
      have hold : t'.gkey a = t.gkey (if a = n then mp else a) := by
        split
        · rename_i han
          rw [han, hn]
        · rename_i han
          exact hne a ham han
      unfold LuaTable.Keyed at ha
      rw [hold] at ha hp hab
      have hqn : mainposition E t (t.gkey (if a = n then mp else a)) ≠ n := fun he =>
        h.main_ne_nil ha (by rw [he]; exact free)
      have h1 := rel.of_reach hab
      have h2 := rel.of_reach hba
      rw [if_neg hqn, if_neg hbn] at h1
      rw [if_neg hbn] at h2
      exact hd _ b p ha hp hb h1 h2
  | chained frame lf above ninside free taken home edit =>
    set mp := mainposition E t key with hmp
    obtain ⟨gkey, gval, link, offset⟩ := edit
    rw [link] at hab hba
    have hkm : t.Keyed mp := h.keyed_of_val taken
    have hmn : mp ≠ i := ne_unused hkm free
    have hfree := h.fresh free
    have hat : t'.gkey i = key := by rw [gkey, if_pos rfl]
    have hne : ∀ j, j ≠ i → t'.gkey j = t.gkey j := fun j hj => by rw [gkey, if_neg hj]
    have hbi : b ≠ i := by
      rintro rfl
      exact hbdead (by unfold LuaTable.Keyed; rw [hat]; exact hk.valid)
    rw [hne b hbi] at hb
    have h1 := hab.of_insertAfter hfree hmn
    have h2 := hba.of_insertAfter hfree hmn
    rw [if_neg hbi] at h1 h2
    by_cases hai : a = i
    · -- the new key is right behind `mp`, which is not dead
      rw [hai, hat, ← hmp, if_neg hmn] at h1
      rw [if_pos hai] at h2
      have hbm := h.ranked.antisymm h2 h1
      rw [hbm] at hb
      unfold LuaTable.Keyed at hkm
      rw [hb] at hkm
      exact hkm.elim
    · unfold LuaTable.Keyed at ha
      rw [hne a hai] at ha hp h1
      rw [if_neg hai] at h2
      have hqn : mainposition E t (t.gkey a) ≠ i := fun he => h.main_ne_nil ha (he ▸ free)
      rw [if_neg hqn] at h1
      exact hd a b p ha hp hb h1 h2

/-- A table with no dead key. -/
theorem deadBehind_of_none (h : ∀ j p, t.gkey j ≠ .deadkey p) : DeadBehind E t :=
  fun _ j p _ _ hj => absurd hj (h j p)

/-- `DeadBehind` only sees the keys and the links. -/
theorem DeadBehind.congr (h : DeadBehind E t) (hkey : ∀ j, t'.gkey j = t.gkey j) (hlink : t'.link = t.link)
    (hls : t'.lsizenode = t.lsizenode) : DeadBehind E t' := by
  intro i j p hi hp hj
  unfold LuaTable.Keyed at hi
  rw [hkey] at hi hp hj
  have hmain : mainposition E t' (t.gkey i) = mainposition E t (t.gkey i) := by
    unfold mainposition hashpow2 LuaTable.sizenode
    rw [hls]
  rw [hkey, hlink, hmain]
  exact h i j p hi hp hj

end Dead

end Luwu
