import Luwu.Table.Invariant

/-!
# Inserting into the hash part

`newkey` either puts the new key into the hash part or grows the table.  `Inserted` says what the
first outcome can be, as edits of the key, value and link functions: into an empty main position, into
a main position from which a colliding node was moved away, or into a free slot hung behind a main
position that is rightfully taken.  `newkeyOr_cases` derives the trichotomy from the code once;
everything later — the invariant (`Inserted.inv`), the map (`Inserted.val_iff`), the order of dead keys
— is a case analysis on `Inserted`.
-/

namespace Luwu

open Links

section Insert

variable {E : Env} {t t' : LuaTable} {key : TValue} {mp n p i : ℕ}

/-! ### The two chain edits of the source -/

/-- What `movecolliding`, followed by the store of the new key, does to the node functions. -/
structure Moved (t : LuaTable) (key : TValue) (p mp n : ℕ) (t' : LuaTable) : Prop where
  gkey : ∀ j, t'.gkey j = if j = mp then key else if j = n then t.gkey mp else t.gkey j
  gval : ∀ j, t'.gval j = if j = mp then .nil else if j = n then t.gval mp else t.gval j
  link : t'.link = relocate t.link p mp n
  offset : ∀ j, t'.gnext j ≠ 0 → 0 ≤ (j : ℤ) + t'.gnext j

/-- What `chainfree`, followed by the store of the new key, does to the node functions. -/
structure Chained (t : LuaTable) (key : TValue) (mp n : ℕ) (t' : LuaTable) : Prop where
  gkey : ∀ j, t'.gkey j = if j = n then key else t.gkey j
  gval : ∀ j, t'.gval j = t.gval j
  link : t'.link = insertAfter t.link mp n
  offset : ∀ j, t'.gnext j ≠ 0 → 0 ≤ (j : ℤ) + t'.gnext j

/-- A link in offset form. -/
theorem link_of_gnext {a b : ℕ} (h : (a : ℤ) + t.gnext a = b) (hne : a ≠ b) :
    t.link a = some b := by
  have h0 : t.gnext a ≠ 0 := by omega
  unfold LuaTable.link
  rw [if_neg h0, h]
  rfl

theorem moved_movecolliding (hr : ∀ a, t.gnext a ≠ 0 → 0 ≤ (a : ℤ) + t.gnext a)
    (rel : Relocates t.link p mp n) (hp : p < t.nodeCount) (hmp : mp < t.nodeCount)
    (hn : n < t.nodeCount) :
    Moved t key p mp n ((movecolliding t p mp n).setnodekey mp key) := by
  have hpm := rel.pm
  have hpn := rel.pn
  have hmn := rel.mn
  -- the intermediate tables, one source line each
  set t1 := t.setNext p (n - p) with ht1
  set t2 := t1.setNode n (t1.gnode mp) with ht2
  set t3 := (if t2.gnext mp ≠ 0 then (t2.setNext n (t2.gnext n + (mp - n))).setNext mp 0 else t2)
    with ht3
  have hmc : movecolliding t p mp n = t3.setVal mp .nil := rfl
  have c1 : t1.nodeCount = t.nodeCount := LuaTable.nodeCount_setNext _
  have c2 : t2.nodeCount = t.nodeCount := (LuaTable.nodeCount_setNode _).trans c1
  have c3 : t3.nodeCount = t.nodeCount := by
    rw [ht3]
    split
    · simp only [LuaTable.nodeCount_setNext, c2]
    · exact c2
  have k1 : ∀ j, t1.gkey j = t.gkey j := fun j => LuaTable.gkey_setNext _ hp
  have v1 : ∀ j, t1.gval j = t.gval j := fun j => LuaTable.gval_setNext _ hp
  have x1 : ∀ j, t1.gnext j = if j = p then (n : ℤ) - p else t.gnext j :=
    fun j => LuaTable.gnext_setNext _ hp
  have g2 : ∀ j, t2.gnode j = if j = n then t1.gnode mp else t1.gnode j :=
    fun j => LuaTable.gnode_setNode _ (by rw [c1]; exact hn)
  have k2 : ∀ j, t2.gkey j = if j = n then t.gkey mp else t.gkey j := by
    intro j
    rw [LuaTable.gkey, g2]
    split
    · exact k1 mp
    · exact k1 j
  have v2 : ∀ j, t2.gval j = if j = n then t.gval mp else t.gval j := by
    intro j
    rw [LuaTable.gval, g2]
    split
    · exact v1 mp
    · exact v1 j
  have x2 : ∀ j, t2.gnext j = if j = n then t.gnext mp else if j = p then (n : ℤ) - p else t.gnext j := by
    intro j
    rw [LuaTable.gnext, g2]
    split
    · exact (x1 mp).trans (if_neg hpm.symm)
    · exact x1 j
  have hn2 : n < t2.nodeCount := by rw [c2]; exact hn
  have hm2 : mp < (t2.setNext n (t2.gnext n + (mp - n))).nodeCount := by
    rw [LuaTable.nodeCount_setNext, c2]
    exact hmp
  have k3 : ∀ j, t3.gkey j = t2.gkey j := by
    intro j
    rw [ht3]
    split
    · rw [LuaTable.gkey_setNext _ hm2, LuaTable.gkey_setNext _ hn2]
    · rfl
  have v3 : ∀ j, t3.gval j = t2.gval j := by
    intro j
    rw [ht3]
    split
    · rw [LuaTable.gval_setNext _ hm2, LuaTable.gval_setNext _ hn2]
    · rfl
  have x3 : ∀ j, t3.gnext j = if j = mp then 0
      else if j = n then (if t.gnext mp = 0 then 0 else t.gnext mp + (mp - n))
      else if j = p then (n : ℤ) - p else t.gnext j := by
    intro j
    have hxm : t2.gnext mp = t.gnext mp := by
      rw [x2, if_neg hmn, if_neg hpm.symm]
    have hxn : t2.gnext n = t.gnext mp := by
      rw [x2, if_pos rfl]
    by_cases h0 : t.gnext mp = 0
    · rw [ht3, if_neg (by rw [hxm]; simp [h0]), x2]
      by_cases hjm : j = mp
      · rw [hjm, if_neg hmn, if_neg hpm.symm, if_pos rfl, h0]
      · by_cases hjn : j = n <;> simp [hjm, hjn, h0]
    · rw [ht3, if_pos (by rw [hxm]; exact h0), LuaTable.gnext_setNext _ hm2,
        LuaTable.gnext_setNext _ hn2, hxn, x2]
      by_cases hjm : j = mp
      · simp [hjm]
      · by_cases hjn : j = n <;> simp [hjm, hjn, h0]
  have hm3 : mp < t3.nodeCount := by rw [c3]; exact hmp
  have hm4 : mp < (t3.setVal mp .nil).nodeCount := by
    rw [LuaTable.nodeCount_setVal]
    exact hm3
  rw [hmc]
  refine ⟨fun j => ?_, fun j => ?_, ?_, fun j hj => ?_⟩
  · rw [LuaTable.gkey_setnodekey _ hm4, LuaTable.gkey_setVal _ hm3, k3, k2]
  · rw [LuaTable.gval_setnodekey _ hm4, LuaTable.gval_setVal _ hm3, v3, v2]
  · rw [LuaTable.link_setnodekey _ hm4, LuaTable.link_setVal _ hm3]
    funext j
    by_cases hjp : j = p
    · subst hjp
      rw [relocate_pred]
      refine link_of_gnext ?_ hpn
      rw [x3, if_neg hpm, if_neg hpn, if_pos rfl]
      omega
    · by_cases hjn : j = n
      · subst hjn
        rw [relocate_fresh rel]
        by_cases h0 : t.gnext mp = 0
        · rw [LuaTable.link_eq_none_iff.mpr h0, LuaTable.link_eq_none_iff, x3]
          simp [hmn.symm, h0]
        · -- the successor of `mp` is not the fresh slot
          have hx : t3.gnext j = t.gnext mp + (mp - j) := by
            rw [x3]
            simp [hmn.symm, h0]
          have hlink : t.link mp = some ((mp : ℤ) + t.gnext mp).toNat := by
            unfold LuaTable.link
            rw [if_neg h0]
          have hne : j ≠ ((mp : ℤ) + t.gnext mp).toNat :=
            fun he => rel.fresh.2 mp (he ▸ hlink)
          rw [hlink]
          refine link_of_gnext ?_ hne
          have := hr mp h0
          rw [hx]
          omega
      · by_cases hjm : j = mp
        · subst hjm
          rw [relocate_out rel, LuaTable.link_eq_none_iff, x3, if_pos rfl]
        · rw [relocate_ne hjp hjm hjn, LuaTable.link, LuaTable.link, x3, if_neg hjm, if_neg hjn,
            if_neg hjp]
  · rw [LuaTable.gnext_setnodekey _ hm4, LuaTable.gnext_setVal _ hm3, x3] at hj ⊢
    split
    · omega
    · split
      · split
        · omega
        · rename_i h0
          have := hr mp h0
          omega
      · split
        · omega
        · rename_i h1 h2 h3
          rw [if_neg h1, if_neg h2, if_neg h3] at hj
          exact hr j hj

theorem chained_chainfree (hr : ∀ a, t.gnext a ≠ 0 → 0 ≤ (a : ℤ) + t.gnext a)
    (hfresh : Fresh t.link n) (hmn : mp ≠ n) (hmp : mp < t.nodeCount) (hn : n < t.nodeCount) :
    Chained t key mp n ((chainfree t mp n).setnodekey n key) := by
  set t1 := (if t.gnext mp ≠ 0 then t.setNext n (mp + t.gnext mp - n) else t) with ht1
  have hcf : chainfree t mp n = t1.setNext mp (n - mp) := rfl
  have c1 : t1.nodeCount = t.nodeCount := by
    rw [ht1]
    split
    · exact LuaTable.nodeCount_setNext _
    · rfl
  have k1 : ∀ j, t1.gkey j = t.gkey j := by
    intro j
    rw [ht1]
    split
    · exact LuaTable.gkey_setNext _ hn
    · rfl
  have v1 : ∀ j, t1.gval j = t.gval j := by
    intro j
    rw [ht1]
    split
    · exact LuaTable.gval_setNext _ hn
    · rfl
  have x1 : ∀ j, t1.gnext j =
      if j = n ∧ t.gnext mp ≠ 0 then mp + t.gnext mp - n else t.gnext j := by
    intro j
    rw [ht1]
    by_cases h0 : t.gnext mp = 0
    · simp [h0]
    · rw [if_pos h0, LuaTable.gnext_setNext _ hn]
      simp [h0]
  have hm1 : mp < t1.nodeCount := by rw [c1]; exact hmp
  have hn2 : n < (t1.setNext mp (n - mp)).nodeCount := by
    rw [LuaTable.nodeCount_setNext, c1]
    exact hn
  rw [hcf]
  refine ⟨fun j => ?_, fun j => ?_, ?_, fun j hj => ?_⟩
  · rw [LuaTable.gkey_setnodekey _ hn2, LuaTable.gkey_setNext _ hm1, k1]
  · rw [LuaTable.gval_setnodekey _ hn2, LuaTable.gval_setNext _ hm1, v1]
  · rw [LuaTable.link_setnodekey _ hn2]
    funext j
    by_cases hjm : j = mp
    · subst hjm
      rw [insertAfter_at]
      refine link_of_gnext ?_ hmn
      rw [LuaTable.gnext_setNext _ hm1, if_pos rfl]
      omega
    · by_cases hjn : j = n
      · subst hjn
        rw [insertAfter_fresh hmn]
        have hx : (t1.setNext mp (j - mp)).gnext j = t1.gnext j := by
          rw [LuaTable.gnext_setNext _ hm1, if_neg hmn.symm]
        by_cases h0 : t.gnext mp = 0
        · rw [LuaTable.link_eq_none_iff.mpr h0, LuaTable.link_eq_none_iff, hx, x1,
            if_neg (by simp [h0])]
          exact LuaTable.link_eq_none_iff.mp hfresh.1
        · have hlink : t.link mp = some ((mp : ℤ) + t.gnext mp).toNat := by
            unfold LuaTable.link
            rw [if_neg h0]
          have hne : j ≠ ((mp : ℤ) + t.gnext mp).toNat := fun he => hfresh.2 mp (he ▸ hlink)
          rw [hlink]
          refine link_of_gnext ?_ hne
          have := hr mp h0
          rw [hx, x1, if_pos ⟨rfl, h0⟩]
          omega
      · have hx : (t1.setNext mp (n - mp)).gnext j = t.gnext j := by
          rw [LuaTable.gnext_setNext _ hm1, if_neg hjm, x1, if_neg (by simp [hjn])]
        rw [insertAfter_ne hjm hjn, LuaTable.link, LuaTable.link, hx]
  · rw [LuaTable.gnext_setnodekey _ hn2, LuaTable.gnext_setNext _ hm1, x1] at hj ⊢
    split
    · omega
    · split
      · rename_i h0
        have := hr mp h0.2
        omega
      · rename_i h1 h2
        rw [if_neg h1, if_neg h2] at hj
        exact hr j hj

/-! ### The two scans of the source -/

/-- The backward scan of `getfreepos` finds the last unused slot below its start. -/
theorem getfreeposLoop_spec (t : LuaTable) (m : ℕ) :
    match getfreeposLoop t m with
    | some n => n < m ∧ t.gkey n = .nil ∧ ∀ j, n < j → j < m → t.gkey j ≠ .nil
    | none => ∀ j, j < m → t.gkey j ≠ .nil := by
  induction m with
  | zero => simp [getfreeposLoop]
  | succ m ih =>
    unfold getfreeposLoop
    by_cases hk : t.gkey m = .nil
    · rw [if_pos (TValue.isNil_iff.mpr hk)]
      exact ⟨Nat.lt_succ_self m, hk, fun j hj hjm => by omega⟩
    · rw [if_neg (by simpa using hk)]
      have hlast : ∀ j, j < m + 1 → (j < m → t.gkey j ≠ .nil) → t.gkey j ≠ .nil := by
        intro j hj h
        rcases Nat.lt_succ_iff_lt_or_eq.mp hj with hlt | rfl
        · exact h hlt
        · exact hk
      cases hl : getfreeposLoop t m with
      | none =>
        rw [hl] at ih
        exact fun j hj => hlast j hj (ih j)
      | some n =>
        rw [hl] at ih
        exact ⟨ih.1.trans (Nat.lt_succ_self m), ih.2.1,
          fun j hj hjm => hlast j hjm (ih.2.2 j hj)⟩

/-- **What `getfreepos` answers.**  A found slot is unused and everything above it is in use; without
one, every slot is in use.  Only `lastfree` changes, and it only goes down. -/
theorem getfreepos_spec (h : Inv E t) :
    (∃ n : ℕ, getfreepos t = .ok (some n) { t with lastfree := n } ∧ n < t.nodeCount ∧
      t.gkey n = .nil ∧ ∀ j, n < j → j < t.nodeCount → t.gkey j ≠ .nil) ∨
    (getfreepos t = .ok none { t with lastfree := min t.lastfree 0 } ∧
      ∀ j, j < t.nodeCount → t.gkey j ≠ .nil) := by
  by_cases hlf : t.lastfree ≤ 0
  · right
    refine ⟨?_, fun j hj => h.freeBelow j hj (by omega)⟩
    rw [min_eq_left hlf]
    unfold getfreepos
    rw [TableM.get_bind, if_pos hlf]
    rfl
  · have hspec := getfreeposLoop_spec t t.lastfree.toNat
    have hmax := h.freeMax
    have habove : ∀ j, t.lastfree.toNat ≤ j → j < t.nodeCount → t.gkey j ≠ .nil :=
      fun j hj hjc => h.freeBelow j hjc (by omega)
    cases hl : getfreeposLoop t t.lastfree.toNat with
    | none =>
      right
      rw [hl] at hspec
      refine ⟨?_, fun j hj => ?_⟩
      · rw [min_eq_right (by omega)]
        unfold getfreepos
        rw [TableM.get_bind, if_neg hlf, hl]
        rfl
      · rcases Nat.lt_or_ge j t.lastfree.toNat with hlt | hge
        · exact hspec j hlt
        · exact habove j hge hj
    | some n =>
      left
      rw [hl] at hspec
      refine ⟨n, ?_, by omega, hspec.2.1, fun j hj hjc => ?_⟩
      · unfold getfreepos
        rw [TableM.get_bind, if_neg hlf, hl]
        rfl
      · rcases Nat.lt_or_ge j t.lastfree.toNat with hlt | hge
        · exact hspec.2.2 j hj hlt
        · exact habove j hge hjc

/-- The search for the predecessor is a walk along the links. -/
theorem findprevious_eq_walk (hr : ∀ a, t.gnext a ≠ 0 → 0 ≤ (a : ℤ) + t.gnext a)
    {fuel o : ℕ} (hend : walk t.link (fun a => decide (t.link a = some mp)) fuel o ≠ none)
    (hreach : Reach t.link o mp) (hne : o ≠ mp) :
    findprevious t mp fuel o =
      (walk t.link (fun a => decide (t.link a = some mp)) fuel o).join := by
  induction fuel generalizing o with
  | zero => exact absurd rfl hend
  | succ fuel ih =>
    rcases hreach.cases_next with he | ⟨b, hb, hbmp⟩
    · exact absurd he hne
    · obtain ⟨hx, he⟩ := (LuaTable.link_eq_some_iff (hr o)).mp hb
      rw [findprevious, walk, he]
      by_cases hbm : b = mp
      · rw [if_pos (by rw [hbm]), if_pos (by simpa [hbm] using hb)]
        rfl
      · have hnot : ¬ (decide (t.link o = some mp) = true) := by
          rw [decide_eq_true_eq, hb]
          exact fun h => hbm (Option.some.inj h)
        have hend' : walk t.link (fun a => decide (t.link a = some mp)) fuel b ≠ none := by
          intro hw
          apply hend
          rw [walk, if_neg hnot, hb]
          exact hw
        rw [if_neg (by exact_mod_cast hbm), if_neg hnot, hb, Int.toNat_natCast]
        exact ih hend' hbmp hbm

/-- **`findprevious` finds the predecessor** of a slot that is not the head of its chain. -/
theorem findprevious_spec (h : Inv E t) {o : ℕ} (ho : o < t.sizenode)
    (hreach : Reach t.link o mp) (hne : o ≠ mp) :
    ∃ p, findprevious t mp t.sizenode o = some p ∧ t.link p = some mp := by
  have hr : ∀ a, t.gnext a ≠ 0 → 0 ≤ (a : ℤ) + t.gnext a := h.offset
  obtain ⟨p, hop, hp⟩ := hreach.exists_pred hne
  refine ⟨p, ?_, hp⟩
  have hend := h.walk_ends (fun a => decide (t.link a = some mp)) ho
  rw [findprevious_eq_walk hr hend hreach hne,
    walk_found hend hop (by simpa using hp) fun j _ _ hj =>
      h.unshared j p mp (by simpa using hj) hp]
  rfl

/-! ### What an insertion can do -/

/-- The parts of a table an insertion into the hash part leaves alone. -/
structure SameFrame (t t' : LuaTable) : Prop where
  array : t'.array = t.array
  sizearray : t'.sizearray = t.sizearray
  lsizenode : t'.lsizenode = t.lsizenode
  nodeCount : t'.nodeCount = t.nodeCount
  node : t'.node = none ↔ t.node = none

/-- The outcomes of `newkey` that do not grow the table: `i` is the slot of the new key, and the slots
above `lastfree` other than `i` were in use before. -/
inductive Inserted (E : Env) (t : LuaTable) (key : TValue) : LuaTable → ℕ → Prop
  | intoMain {t' : LuaTable} (frame : SameFrame t t')
      (lf : t'.lastfree = t.lastfree)
      (empty : t.gval (mainposition E t key) = .nil)
      (inside : mainposition E t key < t.nodeCount)
      (gkey : ∀ j, t'.gkey j = if j = mainposition E t key then key else t.gkey j)
      (gval : ∀ j, t'.gval j = t.gval j)
      (link : t'.link = t.link)
      (offset : ∀ j, t'.gnext j ≠ 0 → 0 ≤ (j : ℤ) + t'.gnext j) :
      Inserted E t key t' (mainposition E t key)
  | moved {t' : LuaTable} {p n : ℕ} (frame : SameFrame t t')
      (lf : t'.lastfree = n)
      (above : ∀ j, n < j → j < t.nodeCount → t.gkey j ≠ .nil)
      (inside : mainposition E t key < t.nodeCount) (ninside : n < t.nodeCount)
      (free : t.gkey n = .nil)
      (taken : t.gval (mainposition E t key) ≠ .nil)
      (out : mainposition E t (t.gkey (mainposition E t key)) ≠ mainposition E t key)
      (rel : Relocates t.link p (mainposition E t key) n)
      (edit : Moved t key p (mainposition E t key) n t') :
      Inserted E t key t' (mainposition E t key)
  | chained {t' : LuaTable} {n : ℕ} (frame : SameFrame t t')
      (lf : t'.lastfree = n)
      (above : ∀ j, n < j → j < t.nodeCount → t.gkey j ≠ .nil)
      (ninside : n < t.nodeCount) (free : t.gkey n = .nil)
      (taken : t.gval (mainposition E t key) ≠ .nil)
      (home : mainposition E t (t.gkey (mainposition E t key)) = mainposition E t key)
      (edit : Chained t key (mainposition E t key) n t') :
      Inserted E t key t' n

theorem SameFrame.trans {t₁ t₂ t₃ : LuaTable} (h : SameFrame t₁ t₂) (h' : SameFrame t₂ t₃) :
    SameFrame t₁ t₃ :=
  ⟨h'.array.trans h.array, h'.sizearray.trans h.sizearray, h'.lsizenode.trans h.lsizenode,
    h'.nodeCount.trans h.nodeCount, h'.node.trans h.node⟩

theorem SameFrame.setNode (t : LuaTable) (i : ℕ) (n : LuaNode) : SameFrame t (t.setNode i n) :=
  ⟨rfl, rfl, rfl, LuaTable.nodeCount_setNode n, by simp [LuaTable.setNode]⟩

theorem sameFrame_movecolliding (t : LuaTable) (p mp n : ℕ) :
    SameFrame t (movecolliding t p mp n) ∧ (movecolliding t p mp n).lastfree = t.lastfree := by
  unfold movecolliding LuaTable.setNext LuaTable.setVal
  dsimp only
  split
  · exact ⟨((((SameFrame.setNode _ _ _).trans (SameFrame.setNode _ _ _)).trans
      (SameFrame.setNode _ _ _)).trans (SameFrame.setNode _ _ _)).trans
      (SameFrame.setNode _ _ _), rfl⟩
  · exact ⟨((SameFrame.setNode _ _ _).trans (SameFrame.setNode _ _ _)).trans
      (SameFrame.setNode _ _ _), rfl⟩

theorem sameFrame_chainfree (t : LuaTable) (mp n : ℕ) :
    SameFrame t (chainfree t mp n) ∧ (chainfree t mp n).lastfree = t.lastfree := by
  unfold chainfree LuaTable.setNext
  dsimp only
  split
  · exact ⟨(SameFrame.setNode _ _ _).trans (SameFrame.setNode _ _ _), rfl⟩
  · exact ⟨SameFrame.setNode _ _ _, rfl⟩

theorem sameFrame_lastfree (t : LuaTable) (lf : ℤ) : SameFrame t { t with lastfree := lf } :=
  ⟨rfl, rfl, rfl, rfl, Iff.rfl⟩

theorem findprevious_lastfree (t : LuaTable) (lf : ℤ) (mp fuel o : ℕ) :
    findprevious { t with lastfree := lf } mp fuel o = findprevious t mp fuel o := by
  induction fuel generalizing o with
  | zero => rfl
  | succ fuel ih =>
    rw [findprevious, findprevious, ih]
    rfl

/-- The colliding branch, run after `getfreepos` has handed out the free position `n`. -/
theorem insertcolliding_spec (h : Inv E t) (hn : n < t.nodeCount) (hfree : t.gkey n = .nil)
    (habove : ∀ j, n < j → j < t.nodeCount → t.gkey j ≠ .nil)
    (hmpc : mainposition E t key < t.nodeCount)
    (hval : t.gval (mainposition E t key) ≠ .nil) :
    ∃ t' i, insertcolliding E key (mainposition E t key) n { t with lastfree := n }
      = .ok (.node i) t' ∧ Inserted E t key t' i := by
  have hr : ∀ a, t.gnext a ≠ 0 → 0 ≤ (a : ℤ) + t.gnext a := h.offset
  set mp := mainposition E t key with hmp
  have hkm : t.Keyed mp := h.keyed_of_val hval
  have hmn : mp ≠ n := fun he => hkm.ne_nil (he ▸ hfree)
  have hfreshn := h.fresh hfree
  set t1 : LuaTable := { t with lastfree := n } with ht1
  by_cases hout : mainposition E t (t.gkey mp) = mp
  · refine ⟨(chainfree t1 mp n).setnodekey n key, n, ?_, ?_⟩
    · rw [insertcolliding, TableM.get_bind]
      have hout1 : mainposition E t1 (t1.gkey mp) = mp := hout
      simp only [hout1, ne_eq, not_true_eq_false, if_false]
      rfl
    · have hc := @chained_chainfree t1 key _ _ hr hfreshn hmn hmpc hn
      have hf := sameFrame_chainfree t1 mp n
      exact .chained (((sameFrame_lastfree t n).trans hf.1).trans (SameFrame.setNode _ _ _))
        hf.2 habove hn hfree hval hout ⟨hc.gkey, hc.gval, hc.link, hc.offset⟩
  · obtain ⟨p, hprev, hp⟩ := findprevious_spec h (mainposition_lt (t.gkey mp)) (h.reach mp hkm) hout
    have rel : Relocates t.link p mp n := ⟨h.ranked, h.unshared, hp, hfreshn⟩
    have hpc : p < t.nodeCount := by
      by_contra hge
      have := LuaTable.gnext_of_ge (not_lt.mp hge)
      rw [LuaTable.link_eq_none_iff.mpr this] at hp
      cases hp
    refine ⟨(movecolliding t1 p mp n).setnodekey mp key, mp, ?_, ?_⟩
    · rw [insertcolliding, TableM.get_bind]
      have hout1 : mainposition E t1 (t1.gkey mp) ≠ mp := hout
      have hprev1 : findprevious t1 mp t1.sizenode (mainposition E t1 (t1.gkey mp)) = some p :=
        (findprevious_lastfree t n mp _ _).trans hprev
      simp only [hout1, ne_eq, not_false_eq_true, if_true, hprev1]
      rfl
    · have hm := @moved_movecolliding t1 key _ _ _ hr rel hpc hmpc hn
      have hf := sameFrame_movecolliding t1 p mp n
      exact .moved (((sameFrame_lastfree t n).trans hf.1).trans (SameFrame.setNode _ _ _))
        hf.2 habove hmpc hn hfree hval hout rel ⟨hm.gkey, hm.gval, hm.link, hm.offset⟩

/-- `newkey`, which calls `grow` when the table has to grow. -/
def newkeyOr (E : Env) (grow : Inserter) : Inserter := fun key => do
  let t ← get
  if isNumberEq key (t.sizearray + 1) then grow key
  else
    let mp := mainposition E t key
    if !(t.gval mp).isNil || t.node = none then
      match ← getfreepos with
      | none => grow key
      | some n => insertcolliding E key mp n
    else
      set (t.setnodekey mp key)
      return .node mp

theorem newkey_eq_newkeyOr (E : Env) (fuel : ℕ) :
    newkey E (fuel + 1) = newkeyOr E (growtable E (newkey E fuel)) := rfl

/-- The table that `newkey` grows: the scan for a free position may have moved the free pointer to its end. -/
def LuaTable.growing (t : LuaTable) (key : TValue) : LuaTable :=
  if isNumberEq key (t.sizearray + 1) = true then t else { t with lastfree := min t.lastfree 0 }

/-- **The outcomes of `newkey`.**  Either the key goes into the hash part, or the table grows: because
the key is the one behind the array part, or because every slot is in use. -/
theorem newkeyOr_cases (h : Inv E t) (grow : Inserter) (key : TValue) :
    (∃ t' i, newkeyOr E grow key t = .ok (.node i) t' ∧ Inserted E t key t' i ∧
      isNumberEq key (t.sizearray + 1) = false) ∨
    (newkeyOr E grow key t = grow key (t.growing key) ∧
      (t.growing key = t ∨
        (t.growing key = { t with lastfree := min t.lastfree 0 } ∧ ∀ j, j < t.nodeCount → t.gkey j ≠ .nil)) ∧
      (isNumberEq key (t.sizearray + 1) = true ∨ ∀ j, j < t.nodeCount → t.gkey j ≠ .nil)) := by
  by_cases hb : isNumberEq key (t.sizearray + 1) = true
  · right
    have hgrowing : t.growing key = t := if_pos hb
    refine ⟨?_, Or.inl hgrowing, Or.inl hb⟩
    rw [newkeyOr, TableM.get_bind, if_pos hb, hgrowing]
  · have hb' : isNumberEq key (t.sizearray + 1) = false := by simpa using hb
    set mp := mainposition E t key with hmp
    by_cases hfull : (!(t.gval mp).isNil || decide (t.node = none)) = true
    · -- the main position is taken, or there is no hash part
      have hrun : newkeyOr E grow key t = (getfreepos >>= fun r => match r with
          | none => grow key
          | some n => insertcolliding E key mp n) t := by
        rw [newkeyOr, TableM.get_bind, if_neg hb]
        exact congrFun (if_pos hfull) t
      rcases getfreepos_spec h with ⟨n, hget, hn, hfree, habove⟩ | ⟨hget, hused⟩
      · left
        -- a free slot lies in a real node vector, so the main position does too
        have hnode : t.node ≠ none := by
          intro hnone
          rw [LuaTable.nodeCount, hnone] at hn
          simp at hn
        have hval : t.gval mp ≠ .nil := by
          simpa [hnode, TValue.isNil_eq_false_iff] using hfull
        obtain ⟨t', i, hrun', hins⟩ := insertcolliding_spec h hn hfree habove
          (h.mainposition_lt_nodeCount hnode key) hval
        exact ⟨t', i, by rw [hrun, TableM.bind_ok _ hget]; exact hrun', hins, hb'⟩
      · right
        have hgrowing : t.growing key = { t with lastfree := min t.lastfree 0 } := if_neg hb
        refine ⟨?_, Or.inr ⟨hgrowing, hused⟩, Or.inr hused⟩
        rw [hrun, TableM.bind_ok _ hget, hgrowing]
    · left
      have hfull' : t.gval mp = .nil ∧ t.node ≠ none := by
        simpa using hfull
      have hmpc := h.mainposition_lt_nodeCount hfull'.2 key
      refine ⟨t.setnodekey mp key, mp, ?_, ?_, hb'⟩
      · rw [newkeyOr, TableM.get_bind, if_neg hb]
        simp only [← hmp, hfull, Bool.false_eq_true, if_false]
        rfl
      · exact .intoMain (SameFrame.setNode _ _ _) rfl hfull'.1 hmpc
          (fun j => LuaTable.gkey_setnodekey _ hmpc) (fun j => LuaTable.gval_setnodekey _ hmpc)
          (LuaTable.link_setnodekey _ hmpc) fun j => by
            rw [LuaTable.gnext_setnodekey _ hmpc]
            exact h.offset j

/-! ### An insertion keeps the invariant -/

/-- What the callers of `newkey` know about a key they insert. -/
structure Insertable (t : LuaTable) (key : TValue) : Prop where
  valid : key.ValidKey
  absent : ∀ j, luaO_rawequalObj (t.gkey j) key = false
  hash : arrayslot t.sizearray key = none
  notNext : isNumberEq key (t.sizearray + 1) = false

/-- Slots without a key lie outside the chains an edit touches. -/
theorem ne_unused {j : ℕ} (hk : t.Keyed j) (hn : t.gkey n = .nil) : j ≠ n :=
  fun he => hk.ne_nil (he ▸ hn)

theorem mainposition_frame (hf : SameFrame t t') (k : TValue) :
    mainposition E t' k = mainposition E t k := by
  unfold mainposition hashpow2 LuaTable.sizenode
  rw [hf.lsizenode]

/-- The fields of `Inv` that only see the frame and the keys, from the slot maps of an edit: `new` is
the slot of the new key and `old` names the slot an old key comes from. -/
theorem Inv.of_edit (h : Inv E t) (hk : Insertable t key) (hf : SameFrame t t') {new : ℕ}
    (old : ℕ → ℕ) (hold : ∀ i j, i ≠ new → j ≠ new → t.Keyed (old i) → old i = old j → i = j)
    (hnew : t'.gkey new = key) (hgkey : ∀ j, j ≠ new → t'.gkey j = t.gkey (old j))
    (hgval : ∀ j, t'.gkey j = .nil ∨ (t'.gkey j).isDead = true → t'.gval j = .nil)
    (offset : ∀ j, t'.gnext j ≠ 0 → 0 ≤ (j : ℤ) + t'.gnext j)
    (inRange : ∀ a b, t'.link a = some b → b < t'.nodeCount)
    (ranked : Ranked t'.link) (unshared : Unshared t'.link)
    (fresh : ∀ i, t'.gkey i = .nil → Fresh t'.link i)
    (reach : ∀ i, t'.Keyed i → Reach t'.link (mainposition E t' (t'.gkey i)) i)
    (head : ∀ i, t'.Keyed i → (t'.gkey (mainposition E t' (t'.gkey i))).isDead = true ∨
      (t'.Keyed (mainposition E t' (t'.gkey i)) ∧ mainposition E t'
        (t'.gkey (mainposition E t' (t'.gkey i))) = mainposition E t' (t'.gkey i)))
    (freeBelow : ∀ i, i < t'.nodeCount → t'.lastfree ≤ i → t'.gkey i ≠ .nil)
    (freeMax : t'.lastfree ≤ t'.nodeCount) (aboundary : -t'.lastfree ≤ t'.sizearray) :
    Inv E t' := by
  refine
    { arrayLen := by rw [hf.sizearray, hf.array]; exact h.arrayLen
      sizeMax := by rw [hf.sizearray]; exact h.sizeMax
      dummySize := fun hn => by rw [hf.lsizenode]; exact h.dummySize (hf.node.mp hn)
      nodeSize := fun hn => ?_
      offset := offset
      inRange := inRange
      ranked := ranked
      unshared := unshared
      unused := fun i hi => ⟨hgval i (Or.inl hi), fresh i hi⟩
      keys := fun i => ?_
      reach := reach
      unique := fun i j hi hj he => ?_
      head := head
      hashOnly := fun i hi => ?_
      boundary := fun i hi => ?_
      freeBelow := freeBelow
      freeMax := freeMax
      aboundary := aboundary }
  · have := h.nodeSize fun hn' => hn (hf.node.mpr hn')
    unfold LuaTable.sizenode
    rw [hf.nodeCount, hf.lsizenode]
    exact this
  · by_cases hi : i = new
    · right; left
      unfold LuaTable.Keyed
      rw [hi, hnew]
      exact hk.valid
    · rcases h.keys (old i) with ho | ho | ho
      · left
        rw [hgkey i hi, ho]
      · right; left
        unfold LuaTable.Keyed
        rw [hgkey i hi]
        exact ho
      · right; right
        have hd : (t'.gkey i).isDead = true := by rw [hgkey i hi]; exact ho.1
        exact ⟨hd, hgval i (Or.inr hd)⟩
  · by_cases hin : i = new
    · by_cases hjn : j = new
      · rw [hin, hjn]
      · rw [hin, hnew, hgkey j hjn, rawequal_comm, hk.absent] at he
        cases he
    · by_cases hjn : j = new
      · rw [hjn, hnew, hgkey i hin, hk.absent] at he
        cases he
      · unfold LuaTable.Keyed at hi hj
        rw [hgkey i hin] at he hi
        rw [hgkey j hjn] at he hj
        exact hold i j hin hjn hi (h.unique _ _ hi hj he)
  · rw [hf.sizearray]
    by_cases hin : i = new
    · rw [hin, hnew]
      exact hk.hash
    · unfold LuaTable.Keyed at hi
      rw [hgkey i hin] at hi ⊢
      exact h.hashOnly _ hi
  · rw [hf.sizearray]
    by_cases hin : i = new
    · rw [hin, hnew]
      exact hk.notNext
    · unfold LuaTable.Keyed at hi
      rw [hgkey i hin] at hi ⊢
      exact h.boundary _ hi

/-- **Insertion keeps the representation invariant.** -/
theorem Inserted.inv (h : Inv E t) (hk : Insertable t key) (hi : Inserted E t key t' i) :
    Inv E t' := by
  cases hi with
  | intoMain frame lf empty inside gkey gval link offset =>
    set mp := mainposition E t key with hmp
    have hne : ∀ j, j ≠ mp → t'.gkey j = t.gkey j := fun j hj => by rw [gkey, if_neg hj]
    have hat : t'.gkey mp = key := by rw [gkey, if_pos rfl]
    have hmain := mainposition_frame (E := E) frame
    refine h.of_edit hk frame id (fun i j _ _ _ he => he) hat hne ?_ offset ?_ ?_ ?_ ?_ ?_ ?_ ?_ ?_ ?_
    · intro j hj
      rw [gval]
      by_cases hjm : j = mp
      · rw [hjm]
        exact empty
      · rw [hne j hjm] at hj
        rcases h.keys j with ho | ho | ho
        · exact (h.unused j ho).1
        · rcases hj with hj | hj
          · exact absurd hj ho.ne_nil
          · rw [ho.not_dead] at hj
            cases hj
        · exact ho.2
    · rw [link, frame.nodeCount]
      exact h.inRange
    · rw [link]
      exact h.ranked
    · rw [link]
      exact h.unshared
    · intro j hj
      have hjm : j ≠ mp := fun he => hk.valid.ne_nil (by rw [← hat, ← he, hj])
      rw [link]
      exact h.fresh (hne j hjm ▸ hj)
    · intro j hj
      rw [link, hmain]
      by_cases hjm : j = mp
      · rw [hjm, hat]
        exact Reach.refl mp
      · unfold LuaTable.Keyed at hj
        rw [hne j hjm] at hj ⊢
        exact h.reach j hj
    · intro j hj
      rw [hmain, hmain]
      -- the slot of the new key is its main position
      have hself : t'.Keyed mp ∧ mainposition E t (t'.gkey mp) = mp := by
        unfold LuaTable.Keyed
        rw [hat]
        exact ⟨hk.valid, rfl⟩
      by_cases hjm : j = mp
      · rw [hjm, hat]
        exact Or.inr hself
      · unfold LuaTable.Keyed at hj
        rw [hne j hjm] at hj ⊢
        by_cases hq : mainposition E t (t.gkey j) = mp
        · rw [hq]
          exact Or.inr hself
        · unfold LuaTable.Keyed
          rw [hne _ hq]
          exact h.head j hj
    · intro j hj hlf
      by_cases hjm : j = mp
      · rw [hjm, hat]
        exact hk.valid.ne_nil
      · rw [hne j hjm]
        exact h.freeBelow j (frame.nodeCount ▸ hj) (lf ▸ hlf)
    · rw [lf, frame.nodeCount]
      exact h.freeMax
    · rw [lf, frame.sizearray]
      exact h.aboundary
  | @moved p n frame lf above inside ninside free taken out rel edit =>
    set mp := mainposition E t key with hmp
    obtain ⟨gkey, gval, link, offset⟩ := edit
    have hkm : t.Keyed mp := h.keyed_of_val taken
    have hmn := rel.mn
    have hat : t'.gkey mp = key := by rw [gkey, if_pos rfl]
    have hn : t'.gkey n = t.gkey mp := by rw [gkey, if_neg hmn.symm, if_pos rfl]
    have hne : ∀ j, j ≠ mp → j ≠ n → t'.gkey j = t.gkey j := fun j hj hjn => by
      rw [gkey, if_neg hj, if_neg hjn]
    have hmain := mainposition_frame (E := E) frame
    -- no key hashes to `mp`: the head of that chain is not in its main position
    have hother : ∀ j, t.Keyed j → mainposition E t (t.gkey j) ≠ mp := by
      intro j hj hq
      rcases h.head j hj with hd | ⟨_, hq'⟩
      · rw [hq, hkm.not_dead] at hd
        cases hd
      · rw [hq] at hq'
        exact out hq'
    refine h.of_edit hk frame (fun j => if j = n then mp else j) ?_ hat ?_ ?_ offset ?_ ?_ ?_ ?_ ?_ ?_
      ?_ ?_ ?_
    · intro i j hi hj _ he
      split at he <;> split at he <;> simp_all
    · intro j hj
      split
      · rename_i hjn
        rw [hjn, hn]
      · rename_i hjn
        exact hne j hj hjn
    · intro j hj
      rw [gval]
      by_cases hjm : j = mp
      · rw [if_pos hjm]
      · by_cases hjn : j = n
        · rw [hjn, hn] at hj
          rcases hj with hj | hj
          · exact absurd hj hkm.ne_nil
          · rw [hkm.not_dead] at hj
            cases hj
        · rw [if_neg hjm, if_neg hjn]
          rw [hne j hjm hjn] at hj
          rcases h.keys j with ho | ho | ho
          · exact (h.unused j ho).1
          · rcases hj with hj | hj
            · exact absurd hj ho.ne_nil
            · rw [ho.not_dead] at hj
              cases hj
          · exact ho.2
    · intro a b hab
      rw [link] at hab
      rw [frame.nodeCount]
      by_cases hbn : b = n
      · rw [hbn]
        exact ninside
      · have := (rel.link hab).2
        rw [if_neg hbn] at this
        exact h.inRange _ _ this
    · rw [link]
      exact rel.ranked_relocate
    · rw [link]
      exact rel.unshared_relocate
    · intro j hj
      have hjm : j ≠ mp := fun he => hk.valid.ne_nil (by rw [← hat, ← he, hj])
      have hjn : j ≠ n := fun he => hkm.ne_nil (by rw [← hn, ← he, hj])
      have hfj := h.fresh (hne j hjm hjn ▸ hj)
      rw [link]
      refine ⟨?_, fun a ha => ?_⟩
      · by_cases hjp : j = p
        · have := rel.pred
          rw [← hjp, hfj.1] at this
          cases this
        · rw [relocate_ne hjp hjm hjn]
          exact hfj.1
      · have := (rel.link ha).2
        rw [if_neg hjn] at this
        exact hfj.2 _ this
    · intro j hj
      rw [link, hmain]
      by_cases hjm : j = mp
      · rw [hjm, hat]
        exact Reach.refl mp
      · by_cases hjn : j = n
        · have := rel.reach (h.reach mp hkm)
          rw [if_neg (hother mp hkm), if_pos rfl] at this
          rw [hjn, hn]
          exact this
        · unfold LuaTable.Keyed at hj
          rw [hne j hjm hjn] at hj ⊢
          have := rel.reach (h.reach j hj)
          rw [if_neg (hother j hj), if_neg hjm] at this
          exact this
    · intro j hj
      rw [hmain, hmain]
      -- the slots other keys hash to are neither `mp` nor `n`, so they are as before
      have hkeep : ∀ k, t.Keyed k → (t'.gkey (mainposition E t (t.gkey k))).isDead = true ∨
          (t'.Keyed (mainposition E t (t.gkey k)) ∧
            mainposition E t (t'.gkey (mainposition E t (t.gkey k)))
              = mainposition E t (t.gkey k)) := by
        intro k hkk
        have hqn : mainposition E t (t.gkey k) ≠ n := fun he => h.main_ne_nil hkk (he ▸ free)
        unfold LuaTable.Keyed
        rw [hne _ (hother k hkk) hqn]
        exact h.head k hkk
      by_cases hjm : j = mp
      · rw [hjm, hat]
        refine Or.inr ⟨?_, by rw [← hmp, hat]⟩
        unfold LuaTable.Keyed
        rw [← hmp, hat]
        exact hk.valid
      · by_cases hjn : j = n
        · rw [hjn, hn]
          exact hkeep mp hkm
        · unfold LuaTable.Keyed at hj
          rw [hne j hjm hjn] at hj ⊢
          exact hkeep j hj
    · intro j hj hlf
      rw [lf] at hlf
      by_cases hjm : j = mp
      · rw [hjm, hat]
        exact hk.valid.ne_nil
      · by_cases hjn : j = n
        · rw [hjn, hn]
          exact hkm.ne_nil
        · rw [hne j hjm hjn]
          exact above j (by omega) (frame.nodeCount ▸ hj)
    · rw [lf, frame.nodeCount]
      exact_mod_cast ninside.le
    · rw [lf, frame.sizearray]
      omega
  | chained frame lf above ninside free taken home edit =>
    set mp := mainposition E t key with hmp
    obtain ⟨gkey, gval, link, offset⟩ := edit
    have hkm : t.Keyed mp := h.keyed_of_val taken
    have hmn : mp ≠ i := ne_unused hkm free
    have hfree := h.fresh free
    have hat : t'.gkey i = key := by rw [gkey, if_pos rfl]
    have hne : ∀ j, j ≠ i → t'.gkey j = t.gkey j := fun j hj => by rw [gkey, if_neg hj]
    have hmain := mainposition_frame (E := E) frame
    refine h.of_edit hk frame id (fun i j _ _ _ he => he) hat hne ?_ offset ?_ ?_ ?_ ?_ ?_ ?_ ?_ ?_ ?_
    · intro j hj
      rw [gval]
      by_cases hjn : j = i
      · rw [hjn]
        exact (h.unused _ free).1
      · rw [hne j hjn] at hj
        rcases h.keys j with ho | ho | ho
        · exact (h.unused j ho).1
        · rcases hj with hj | hj
          · exact absurd hj ho.ne_nil
          · rw [ho.not_dead] at hj
            cases hj
        · exact ho.2
    · intro a b hab
      rw [link] at hab
      rw [frame.nodeCount]
      by_cases ham : a = mp
      · rw [ham, insertAfter_at] at hab
        exact Option.some.inj hab ▸ ninside
      · by_cases han : a = i
        · rw [han, insertAfter_fresh hmn] at hab
          exact h.inRange _ _ hab
        · rw [insertAfter_ne ham han] at hab
          exact h.inRange _ _ hab
    · rw [link]
      exact h.ranked.insertAfter hfree hmn
    · rw [link]
      exact h.unshared.insertAfter hfree hmn
    · intro j hj
      have hjn : j ≠ i := fun he => hk.valid.ne_nil (by rw [← hat, ← he, hj])
      rw [hne j hjn] at hj
      have hjm : j ≠ mp := fun he => hkm.ne_nil (he ▸ hj)
      have hfj := h.fresh hj
      rw [link]
      refine ⟨by rw [insertAfter_ne hjm hjn]; exact hfj.1, fun a ha => ?_⟩
      by_cases ham : a = mp
      · rw [ham, insertAfter_at] at ha
        exact hjn (Option.some.inj ha).symm
      · by_cases han : a = i
        · rw [han, insertAfter_fresh hmn] at ha
          exact hfj.2 _ ha
        · rw [insertAfter_ne ham han] at ha
          exact hfj.2 _ ha
    · intro j hj
      rw [link, hmain]
      by_cases hjn : j = i
      · rw [hjn, hat]
        exact Reach.single (insertAfter_at _ _ _)
      · unfold LuaTable.Keyed at hj
        rw [hne j hjn] at hj ⊢
        exact (h.reach j hj).insertAfter hfree hmn
    · intro j hj
      rw [hmain, hmain]
      by_cases hjn : j = i
      · rw [hjn, hat]
        unfold LuaTable.Keyed
        rw [← hmp, hne mp hmn]
        exact Or.inr ⟨hkm, home⟩
      · unfold LuaTable.Keyed at hj
        rw [hne j hjn] at hj ⊢
        have hqn : mainposition E t (t.gkey j) ≠ i := fun he => h.main_ne_nil hj (he ▸ free)
        unfold LuaTable.Keyed
        rw [hne _ hqn]
        exact h.head j hj
    · intro j hj hlf
      rw [lf] at hlf
      by_cases hjn : j = i
      · rw [hjn, hat]
        exact hk.valid.ne_nil
      · rw [hne j hjn]
        exact above j (by omega) (frame.nodeCount ▸ hj)
    · rw [lf, frame.nodeCount]
      exact_mod_cast ninside.le
    · rw [lf, frame.sizearray]
      omega

end Insert

end Luwu
