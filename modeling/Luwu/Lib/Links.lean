import Mathlib.Logic.Relation
import Mathlib.Data.Finset.Card
import Mathlib.Data.Finset.Range

/-!
# Singly linked chains inside an array

A chain is a partial successor function `s : ι → Option ι`: slot `a` links to slot `b` when
`s a = some b`.  Nothing here knows what the slots hold.  Two properties make such a function a
family of disjoint, terminating chains:

* `Ranked s` — some rank drops along every link, so no chain runs in a circle;
* `Unshared s` — a slot has at most one predecessor, so a slot can be cut out of its chain by
  rewriting one link.

Two edits keep both: `insertAfter` hangs a fresh slot behind a given one, and `relocate` moves a
slot's place in its chain to a fresh slot.  For each edit the reachability before and after is
related by a map of slots, in both directions.  `walk` is the search loop over a chain; `walk_found`
and `walk_none` say what it returns, and `walk_ne_none` that it needs no more fuel than there are
slots.
-/

namespace Luwu.Links

variable {ι : Type*} {s : ι → Option ι}

/-- `b` is reached from `a` by following links. -/
def Reach (s : ι → Option ι) : ι → ι → Prop :=
  Relation.ReflTransGen (fun a b => s a = some b)

/-- Some rank drops along every link. -/
def Ranked (s : ι → Option ι) : Prop :=
  ∃ r : ι → ℕ, ∀ a b, s a = some b → r b < r a

/-- No slot has two predecessors. -/
def Unshared (s : ι → Option ι) : Prop :=
  ∀ a b c, s a = some c → s b = some c → a = b

/-- A slot outside every chain: it has no successor and no predecessor. -/
def Fresh (s : ι → Option ι) (n : ι) : Prop :=
  s n = none ∧ ∀ a, s a ≠ some n

theorem Reach.refl (a : ι) : Reach s a a := Relation.ReflTransGen.refl

theorem Reach.trans {a b c : ι} (hab : Reach s a b) (hbc : Reach s b c) : Reach s a c :=
  Relation.ReflTransGen.trans hab hbc

theorem Reach.head {a b c : ι} (hab : s a = some b) (hbc : Reach s b c) : Reach s a c :=
  Relation.ReflTransGen.head hab hbc

theorem Reach.single {a b : ι} (hab : s a = some b) : Reach s a b :=
  Reach.head hab (Reach.refl b)

/-- A slot is itself, or lies behind the successor. -/
theorem Reach.cases_next {a c : ι} (h : Reach s a c) : a = c ∨ ∃ b, s a = some b ∧ Reach s b c := by
  rcases Relation.ReflTransGen.cases_head h with h | ⟨b, hb, hbc⟩
  · exact Or.inl h
  · exact Or.inr ⟨b, hb, hbc⟩

theorem Reach.eq_of_none {a c : ι} (h : Reach s a c) (ha : s a = none) : a = c := by
  rcases h.cases_next with h | ⟨b, hb, _⟩
  · exact h
  · rw [ha] at hb
    cases hb

/-- Reachability carried along a map of slots that sends links to paths. -/
theorem Reach.map {t : ι → Option ι} (f : ι → ι)
    (h : ∀ a b, s a = some b → Reach t (f a) (f b)) {a b : ι} (hab : Reach s a b) :
    Reach t (f a) (f b) :=
  Relation.ReflTransGen.lift' (p := fun a b => t a = some b) f h a b hab

/-- A reachable slot other than the start has a predecessor that is reachable too. -/
theorem Reach.exists_pred {a c : ι} (h : Reach s a c) (hne : a ≠ c) :
    ∃ b, Reach s a b ∧ s b = some c := by
  rcases Relation.ReflTransGen.cases_tail h with h | ⟨b, hab, hb⟩
  · exact absurd h.symm hne
  · exact ⟨b, hab, hb⟩

theorem Ranked.ne {a b : ι} (hr : Ranked s) (h : s a = some b) : a ≠ b := by
  obtain ⟨r, hr⟩ := hr
  intro he
  have := hr a b h
  rw [he] at this
  exact lt_irrefl _ this

theorem reach_rank_le {r : ι → ℕ} (hr : ∀ a b, s a = some b → r b < r a) {a b : ι}
    (h : Reach s a b) : r b ≤ r a := by
  induction h with
  | refl => exact le_rfl
  | tail _ hbc ih => exact (hr _ _ hbc).le.trans ih

/-- Two slots reachable from each other are one slot. -/
theorem Ranked.antisymm {a b : ι} (hr : Ranked s) (hab : Reach s a b) (hba : Reach s b a) :
    a = b := by
  obtain ⟨r, hr⟩ := hr
  rcases hab.cases_next with h | ⟨c, hac, hcb⟩
  · exact h
  · have h1 := hr a c hac
    have h2 := reach_rank_le hr (hcb.trans hba)
    omega

/-- The data of a relocation: `p` is the predecessor of `m`, and `n` is fresh. -/
structure Relocates (s : ι → Option ι) (p m n : ι) : Prop where
  ranked : Ranked s
  unshared : Unshared s
  pred : s p = some m
  fresh : Fresh s n

theorem Relocates.pm {p m n : ι} (h : Relocates s p m n) : p ≠ m := h.ranked.ne h.pred

theorem Relocates.pn {p m n : ι} (h : Relocates s p m n) : p ≠ n := by
  intro he
  have := h.pred
  rw [he, h.fresh.1] at this
  cases this

theorem Relocates.mn {p m n : ι} (h : Relocates s p m n) : m ≠ n := fun he => h.fresh.2 p (he ▸ h.pred)

section Edits

variable [DecidableEq ι]

/-- Hang the fresh slot `n` behind `m`. -/
def insertAfter (s : ι → Option ι) (m n : ι) : ι → Option ι :=
  fun a => if a = m then some n else if a = n then s m else s a

/-- Give the place of `m`, whose predecessor is `p`, to the fresh slot `n`; `m` leaves its chain. -/
def relocate (s : ι → Option ι) (p m n : ι) : ι → Option ι :=
  fun a => if a = p then some n else if a = n then s m else if a = m then none else s a

theorem insertAfter_at (s : ι → Option ι) (m n : ι) : insertAfter s m n m = some n := by
  simp [insertAfter]

theorem insertAfter_fresh {m n : ι} (hmn : m ≠ n) : insertAfter s m n n = s m := by
  simp [insertAfter, hmn.symm]

theorem insertAfter_ne {m n a : ι} (hm : a ≠ m) (hn : a ≠ n) : insertAfter s m n a = s a := by
  simp [insertAfter, hm, hn]

/-- Old paths survive an insertion. -/
theorem Reach.insertAfter {m n a b : ι} (hn : Fresh s n) (hmn : m ≠ n) (h : Reach s a b) :
    Reach (insertAfter s m n) a b := by
  refine h.map id ?_
  intro a b hab
  by_cases ha : a = m
  · subst ha
    exact Reach.head (insertAfter_at s a n) (Reach.single ((insertAfter_fresh hmn).trans hab))
  · have han : a ≠ n := by
      intro he
      rw [he, hn.1] at hab
      cases hab
    exact Reach.single ((insertAfter_ne ha han).trans hab)

/-- Paths after an insertion come from old ones, once the new slot is read as its predecessor. -/
theorem Reach.of_insertAfter {m n a b : ι} (hn : Fresh s n) (hmn : m ≠ n)
    (h : Reach (Links.insertAfter s m n) a b) :
    Reach s (if a = n then m else a) (if b = n then m else b) := by
  refine h.map (fun x => if x = n then m else x) ?_
  intro a b hab
  by_cases ha : a = m
  · subst ha
    rw [insertAfter_at] at hab
    obtain rfl := Option.some.inj hab
    simpa [hmn] using Reach.refl a
  · by_cases han : a = n
    · subst han
      rw [insertAfter_fresh hmn] at hab
      have hb : b ≠ a := fun he => hn.2 m (he ▸ hab)
      simpa [hb] using Reach.single hab
    · rw [insertAfter_ne ha han] at hab
      have hb : b ≠ n := fun he => hn.2 a (he ▸ hab)
      simpa [han, hb] using Reach.single hab

theorem Ranked.insertAfter {m n : ι} (hr : Ranked s) (hn : Fresh s n) (hmn : m ≠ n) :
    Ranked (insertAfter s m n) := by
  obtain ⟨r, hr⟩ := hr
  -- doubling the ranks leaves room for the new slot just below `m`
  refine ⟨fun a => if a = n then 2 * r m else 2 * r a + 1, ?_⟩
  intro a b hab
  by_cases ha : a = m
  · subst ha
    rw [insertAfter_at] at hab
    obtain rfl := Option.some.inj hab
    simp [hmn]
  · by_cases han : a = n
    · subst han
      rw [insertAfter_fresh hmn] at hab
      have hb : b ≠ a := fun he => hn.2 m (he ▸ hab)
      have := hr m b hab
      simp only [hb, if_false, if_true]
      omega
    · rw [insertAfter_ne ha han] at hab
      have hb : b ≠ n := fun he => hn.2 a (he ▸ hab)
      have := hr a b hab
      simp only [han, hb, if_false]
      omega

theorem Unshared.insertAfter {m n : ι} (hu : Unshared s) (hn : Fresh s n) (hmn : m ≠ n) :
    Unshared (insertAfter s m n) := by
  intro a b c ha hb
  by_cases ham : a = m
  · by_cases hbm : b = m
    · rw [ham, hbm]
    · rw [ham, insertAfter_at] at ha
      obtain rfl := Option.some.inj ha
      by_cases hbn : b = n
      · rw [hbn, insertAfter_fresh hmn] at hb
        exact absurd hb (hn.2 m)
      · rw [insertAfter_ne hbm hbn] at hb
        exact absurd hb (hn.2 b)
  · by_cases han : a = n
    · rw [han, insertAfter_fresh hmn] at ha
      by_cases hbm : b = m
      · rw [hbm, insertAfter_at] at hb
        exact absurd ha (Option.some.inj hb ▸ hn.2 m)
      · by_cases hbn : b = n
        · rw [han, hbn]
        · rw [insertAfter_ne hbm hbn] at hb
          exact absurd (hu b m c hb ha) hbm
    · rw [insertAfter_ne ham han] at ha
      by_cases hbm : b = m
      · rw [hbm, insertAfter_at] at hb
        exact absurd ha (Option.some.inj hb ▸ hn.2 a)
      · by_cases hbn : b = n
        · rw [hbn, insertAfter_fresh hmn] at hb
          exact absurd (hu a m c ha hb) ham
        · rw [insertAfter_ne hbm hbn] at hb
          exact hu a b c ha hb

/-! ### Relocation -/

variable {p m n : ι}

theorem relocate_pred (s : ι → Option ι) (p m n : ι) : relocate s p m n p = some n := by
  simp [relocate]

theorem relocate_fresh (h : Relocates s p m n) : relocate s p m n n = s m := by
  simp [relocate, h.pn.symm]

theorem relocate_out (h : Relocates s p m n) : relocate s p m n m = none := by
  simp [relocate, h.pm.symm, h.mn]

theorem relocate_ne {a : ι} (hp : a ≠ p) (hm : a ≠ m) (hn : a ≠ n) :
    relocate s p m n a = s a := by
  simp [relocate, hp, hm, hn]

/-- After a relocation every link is an old link, with `n` read as `m`. -/
theorem Relocates.link (h : Relocates s p m n) {a b : ι} (hab : relocate s p m n a = some b) :
    a ≠ m ∧ s (if a = n then m else a) = some (if b = n then m else b) := by
  by_cases hap : a = p
  · subst hap
    rw [relocate_pred] at hab
    obtain rfl := Option.some.inj hab
    simpa [h.pm, h.pn] using h.pred
  · by_cases han : a = n
    · subst han
      rw [relocate_fresh h] at hab
      have hb : b ≠ a := fun he => h.fresh.2 m (he ▸ hab)
      simpa [hb, h.mn.symm] using hab
    · by_cases ham : a = m
      · rw [ham, relocate_out h] at hab
        cases hab
      · rw [relocate_ne hap ham han] at hab
        have hb : b ≠ n := fun he => h.fresh.2 a (he ▸ hab)
        simpa [han, hb, ham] using hab

/-- A slot that keeps its name through a relocation keeps its links, `m` being renamed to `n`. -/
theorem Relocates.link_to (h : Relocates s p m n) {a b : ι} (hab : s a = some b) :
    relocate s p m n (if a = m then n else a) = some (if b = m then n else b) := by
  have han : a ≠ n := by
    intro he
    rw [he, h.fresh.1] at hab
    cases hab
  by_cases ham : a = m
  · subst ham
    have hb : b ≠ a := (h.ranked.ne hab).symm
    simpa [hb] using (relocate_fresh h).trans hab
  · by_cases hap : a = p
    · subst hap
      rw [h.pred] at hab
      obtain rfl := Option.some.inj hab
      simpa [ham] using relocate_pred s a m n
    · have hb : b ≠ m := fun he => hap (h.unshared a p m (he ▸ hab) h.pred)
      simpa [ham, hb] using (relocate_ne hap ham han).trans hab

/-- Old paths survive a relocation, once `m` is read as `n`. -/
theorem Relocates.reach (h : Relocates s p m n) {a b : ι} (hab : Reach s a b) :
    Reach (relocate s p m n) (if a = m then n else a) (if b = m then n else b) :=
  hab.map (fun x => if x = m then n else x) fun _ _ hxy => Reach.single (h.link_to hxy)

/-- Paths after a relocation come from old ones, once `n` is read as `m`. -/
theorem Relocates.of_reach (h : Relocates s p m n) {a b : ι}
    (hab : Reach (relocate s p m n) a b) :
    Reach s (if a = n then m else a) (if b = n then m else b) :=
  hab.map (fun x => if x = n then m else x) fun _ _ hxy => Reach.single (h.link hxy).2

theorem Relocates.ranked_relocate (h : Relocates s p m n) : Ranked (relocate s p m n) := by
  obtain ⟨r, hr⟩ := h.ranked
  exact ⟨fun a => r (if a = n then m else a), fun a b hab => hr _ _ (h.link hab).2⟩

theorem Relocates.unshared_relocate (h : Relocates s p m n) : Unshared (relocate s p m n) := by
  intro a b c ha hb
  obtain ⟨ham, ha⟩ := h.link ha
  obtain ⟨hbm, hb⟩ := h.link hb
  have := h.unshared _ _ _ ha hb
  by_cases han : a = n <;> by_cases hbn : b = n <;> simp_all

end Edits

/-! ### The search loop -/

/-- Follow a chain from a slot until `p` accepts one.  `none` is running out of fuel. -/
def walk (s : ι → Option ι) (p : ι → Bool) : ℕ → ι → Option (Option ι)
  | 0, _ => none
  | fuel + 1, a =>
    if p a then some (some a)
    else match s a with
      | none => some none
      | some b => walk s p fuel b

/-- **The walk ends.**  With all links inside `N` slots, `N` steps are enough. -/
theorem walk_ne_none {s : ℕ → Option ℕ} (hr : Ranked s) {N : ℕ}
    (hN : ∀ a b, s a = some b → b < N) (p : ℕ → Bool) {a : ℕ} (ha : a < N) :
    walk s p N a ≠ none := by
  obtain ⟨r, hr⟩ := hr
  -- the slots already passed are distinct from all that follow, since the rank drops
  have aux : ∀ (fuel : ℕ) (V : Finset ℕ) (a : ℕ), V ⊆ Finset.range N → a < N →
      (∀ v ∈ V, r a < r v) → N ≤ V.card + fuel → walk s p fuel a ≠ none := by
    intro fuel
    induction fuel with
    | zero =>
      intro V a hV ha hlt hcard
      have hnot : a ∉ V := fun h => lt_irrefl _ (hlt a h)
      have hsub : insert a V ⊆ Finset.range N :=
        Finset.insert_subset (Finset.mem_range.mpr ha) hV
      have := Finset.card_le_card hsub
      rw [Finset.card_insert_of_notMem hnot, Finset.card_range] at this
      omega
    | succ fuel ih =>
      intro V a hV ha hlt hcard
      unfold walk
      split
      · exact fun h => by cases h
      · cases hs : s a with
        | none => exact fun h => by cases h
        | some b =>
          have hnot : a ∉ V := fun h => lt_irrefl _ (hlt a h)
          refine ih (insert a V) b (Finset.insert_subset (Finset.mem_range.mpr ha) hV)
            (hN a b hs) ?_ ?_
          · intro v hv
            rcases Finset.mem_insert.mp hv with rfl | hv
            · exact hr v b hs
            · exact (hr a b hs).trans (hlt v hv)
          · rw [Finset.card_insert_of_notMem hnot]
            omega
  exact aux N ∅ a (Finset.empty_subset _) ha (fun v hv => by simp at hv) (by simp)

/-- A finished walk that meets nothing acceptable answers "not found". -/
theorem walk_none {p : ι → Bool} {fuel : ℕ} {a : ι}
    (hend : walk s p fuel a ≠ none) (hp : ∀ b, Reach s a b → p b = false) :
    walk s p fuel a = some none := by
  induction fuel generalizing a with
  | zero => exact absurd rfl hend
  | succ fuel ih =>
    unfold walk at hend ⊢
    rw [hp a (Reach.refl a)] at hend ⊢
    cases hs : s a with
    | none => rfl
    | some b =>
      rw [hs] at hend
      exact ih hend fun c hc => hp c (Reach.head hs hc)

/-- A finished walk returns the first acceptable slot of its chain. -/
theorem walk_found {p : ι → Bool} {fuel : ℕ} {a i : ι}
    (hend : walk s p fuel a ≠ none) (hi : Reach s a i) (hpi : p i = true)
    (hfirst : ∀ j, Reach s a j → Reach s j i → p j = true → j = i) :
    walk s p fuel a = some (some i) := by
  induction fuel generalizing a with
  | zero => exact absurd rfl hend
  | succ fuel ih =>
    unfold walk at hend ⊢
    by_cases hpa : p a = true
    · rw [if_pos hpa, hfirst a (Reach.refl a) hi hpa]
    · rw [if_neg hpa] at hend ⊢
      rcases hi.cases_next with rfl | ⟨b, hb, hbi⟩
      · exact absurd hpi hpa
      · rw [hb] at hend ⊢
        exact ih hend hbi fun j hj hji hpj => hfirst j (Reach.head hb hj) hji hpj

end Luwu.Links
