import Luwu.Sort.Heap

/-!
# Quick sort

The two inner loops are stopped by the elements at the two ends of the range, which the choice of the pivot has
put in order; where the comparison is no order, by the test of their index.
-/

namespace Luwu.Sort

open Arrange

variable {α σ ε : Type} {pred : SortPredicate α σ ε} {lt : α → α → Bool} {S : α → Prop} {n l u p : ℕ}

/-! ### The inner loops -/

/-- The elements that the first loop passes are before the pivot, and the one where it stops is not. -/
theorem upLoop_spec (hu : u < n) (hp : l ≤ p ∧ p ≤ u) (i : ℕ) (hlo : l ≤ i) (hi : i < u) (s : Sorting α σ)
    (hend : Consistent pred lt S → lt (s.arr u) (s.arr p) = false) :
    Spec pred lt S l u (upLoop pred n u p i) s fun k a =>
      a = s.arr ∧ lt (a k) (a p) = false ∧ ∀ x : ℕ, i < x → x < k.1 → lt (a x) (a p) = true := by
  induction hn : u - i using Nat.strong_induction_on generalizing i s with
  | _ m ih =>
    unfold upLoop
    apply spec_less hu (by omega) (by omega)
    intro b s' harr hb
    cases b with
    | true =>
      rw [if_pos rfl]
      by_cases hstop : u ≤ i + 1
      · rw [dif_pos hstop]
        refine spec_throw (e := invalidOrder) nofun ?_
        intro hc
        have htrue := hb hc
        have hiu : i + 1 = u := by omega
        rw [hiu, hend hc] at htrue
        cases htrue
      · rw [dif_neg hstop]
        rw [← harr] at hend hb
        apply (ih (u - (i + 1)) (by omega) (i + 1) (by omega) (by omega) s' hend rfl).bind
        intro k s'' _ hpost
        apply spec_pure
        intro hc
        obtain ⟨hsame, hk, hbetween⟩ := hpost hc
        refine ⟨hsame.trans harr, hk, ?_⟩
        intro x hix hxk
        by_cases hx : x = i + 1
        · rw [hx, hsame]
          exact (hb hc).symm
        · exact hbetween x (by omega) hxk
    | false =>
      rw [if_neg nofun]
      apply spec_pure
      intro hc
      have hfalse := hb hc
      rw [← harr] at hfalse
      exact ⟨harr, hfalse.symm, fun x hix hxk => by dsimp only at hxk; omega⟩

/-- The same of the second loop, down from the other end -/
theorem downLoop_spec (hu : u < n) (hp : l ≤ p ∧ p ≤ u) (j : ℕ) (hlo : l < j) (hj : j ≤ u) (s : Sorting α σ)
    (hend : Consistent pred lt S → lt (s.arr p) (s.arr l) = false) :
    Spec pred lt S l u (downLoop pred n l p j) s fun k a =>
      a = s.arr ∧ l ≤ k ∧ lt (a p) (a k) = false ∧ ∀ x : ℕ, k.1 < x → x < j → lt (a p) (a x) = true := by
  induction j generalizing s with
  | zero => omega
  | succ j ih =>
    unfold downLoop
    apply spec_less hu (by omega) (by omega)
    intro b s' harr hb
    cases b with
    | true =>
      rw [if_pos rfl]
      by_cases hstop : j ≤ l
      · rw [if_pos hstop]
        refine spec_throw (e := invalidOrder) nofun ?_
        intro hc
        have htrue := hb hc
        have hjl : j = l := by omega
        rw [hjl, hend hc] at htrue
        cases htrue
      · rw [if_neg hstop]
        rw [← harr] at hend hb
        apply (ih (by omega) (by omega) s' hend).bind
        intro k s'' _ hpost
        apply spec_pure
        intro hc
        obtain ⟨hsame, hl, hk, hbetween⟩ := hpost hc
        refine ⟨hsame.trans harr, hl, hk, ?_⟩
        intro x hkx hxj
        by_cases hx : x = j
        · rw [hx, hsame]
          exact (hb hc).symm
        · exact hbetween x hkx (by omega)
    | false =>
      rw [if_neg nofun]
      apply spec_pure
      intro hc
      have hfalse := hb hc
      rw [← harr] at hfalse
      exact ⟨harr, by dsimp only; omega, hfalse.symm, fun x hkx hxj => by dsimp only at hkx; omega⟩

/-! ### The split -/

/-- Nothing up to `i` is larger than the pivot, nothing from `j` on is smaller. -/
def SplitAt (lt : α → α → Bool) (l u p i j : ℕ) (a : ℕ → α) : Prop :=
  (∀ x, l ≤ x → x ≤ i → lt (a p) (a x) = false) ∧ ∀ x, j ≤ x → x ≤ u → lt (a x) (a p) = false

/-- What the two inner loops find is split already, but for the two elements where they stop. -/
theorem SplitAt.inner {i j i' j' : ℕ} {a : ℕ → α} (hlt : StrictWeak lt) (h : SplitAt lt l u p i j a)
    (hup : ∀ x, i < x → x < i' → lt (a x) (a p) = true) (hdown : ∀ x, j' < x → x < j → lt (a p) (a x) = true) :
    (∀ x, l ≤ x → x < i' → lt (a p) (a x) = false) ∧ ∀ x, j' < x → x ≤ u → lt (a x) (a p) = false := by
  constructor
  · intro x hlo hhi
    by_cases hx : x ≤ i
    · exact h.1 x hlo hx
    · exact hlt.asymm (hup x (by omega) hhi)
  · intro x hlo hhi
    by_cases hx : j ≤ x
    · exact h.2 x hx hhi
    · exact hlt.asymm (hdown x hlo (by omega))

/-- The exchange of the two elements carries the split over them. -/
theorem SplitAt.exchange {i j : ℕ} {a : ℕ → α} (hij : i ≤ j) (hjp : j < p)
    (hleft : ∀ x, l ≤ x → x < i → lt (a p) (a x) = false) (hright : ∀ x, j < x → x ≤ u → lt (a x) (a p) = false)
    (hi : lt (a i) (a p) = false) (hj : lt (a p) (a j) = false) : SplitAt lt l u p i j (swapped a i j) := by
  have hpivot : swapped a i j p = a p := swapped_of_ne a (by omega) (by omega)
  constructor
  · intro x hlo hhi
    rw [hpivot]
    by_cases hx : x = i
    · rw [hx, swapped_left]
      exact hj
    · rw [swapped_of_ne a hx (by omega)]
      exact hleft x hlo (by omega)
  · intro x hlo hhi
    rw [hpivot]
    by_cases hx : x = j
    · rw [hx, swapped_right]
      exact hi
    · rw [swapped_of_ne a (by omega) hx]
      exact hright x (by omega) hhi

theorem splitLoop_spec (hu : u < n) (hp : p < u) (i j : ℕ) (hij : i ≤ j ∧ j < u) (hlo : l ≤ i) (hip : i < p)
    (hlj : l < j) (hjp : j ≤ p) (s : Sorting α σ) (h : Consistent pred lt S → SplitAt lt l u p i j s.arr) :
    Spec pred lt S l u (splitLoop pred n l u p i j hij) s fun k a =>
      k.1 ≤ p ∧ (∀ x, l ≤ x → x < k.1 → lt (a p) (a x) = false) ∧ ∀ x, k.1 ≤ x → x ≤ u → lt (a x) (a p) = false := by
  induction j using Nat.strong_induction_on generalizing i s with
  | _ j ih =>
    unfold splitLoop
    have hend : Consistent pred lt S → lt (s.arr u) (s.arr p) = false := fun hc => (h hc).2 u (by omega) le_rfl
    apply (upLoop_spec hu (by omega) i hlo (by omega) s hend).bind
    intro i' s' _ hup
    have hbegin : Consistent pred lt S → lt (s'.arr p) (s'.arr l) = false := by
      intro hc
      rw [(hup hc).1]
      exact (h hc).1 l le_rfl hlo
    apply (downLoop_spec hu (by omega) j hlj (by omega) s' hbegin).bind
    intro j' s'' _ hdown
    have hi' := i'.2
    have hj' := j'.2
    have hfound : Consistent pred lt S → i'.1 ≤ p ∧ lt (s''.arr i') (s''.arr p) = false ∧
        lt (s''.arr p) (s''.arr j') = false ∧ (∀ x, l ≤ x → x < i'.1 → lt (s''.arr p) (s''.arr x) = false) ∧
        ∀ x, j'.1 < x → x ≤ u → lt (s''.arr x) (s''.arr p) = false := by
      intro hc
      obtain ⟨hsame, hati, hbefore⟩ := hup hc
      obtain ⟨hsame', _, hatj, hbehind⟩ := hdown hc
      have hsplit := h hc
      rw [← hsame, ← hsame'] at hsplit
      rw [← hsame'] at hati hbefore
      have hinner := hsplit.inner hc.1 hbefore hbehind
      refine ⟨?_, hati, hatj, hinner.1, hinner.2⟩
      by_contra hgt
      have hself := hbefore p hip (by omega)
      rw [hc.1.irrefl] at hself
      cases hself
    by_cases hstop : j'.1 < i'.1
    · rw [dif_pos hstop]
      apply spec_pure
      intro hc
      obtain ⟨hle, hati, _, hleft, hright⟩ := hfound hc
      refine ⟨hle, hleft, ?_⟩
      intro x (hx : i'.1 ≤ x) hxu
      exact hright x (by omega) hxu
    · rw [dif_neg hstop]
      apply spec_swap (by omega) (by omega) hu
      have hnext : Consistent pred lt S → SplitAt lt l u p i' j' (swapped s''.arr i' j') := by
        intro hc
        obtain ⟨_, hati, hatj, hleft, hright⟩ := hfound hc
        exact SplitAt.exchange (by omega) (by omega) hleft hright hati hatj
      apply (ih j' hj' i' (by omega) (by omega) (by omega) (by omega) (by omega) _ hnext).bind
      intro k s₃ _ hpost
      exact spec_pure hpost

/-! ### The two halves -/

/-- The elements before `i` are not larger than the one at `i`, those behind it not smaller. -/
def Partitioned (lt : α → α → Bool) (l i u : ℕ) (a : ℕ → α) : Prop :=
  (∀ x, l ≤ x → x ≤ i - 1 → lt (a i) (a x) = false) ∧ ∀ x, i + 1 ≤ x → x ≤ u → lt (a x) (a i) = false

section

variable {i : ℕ} {a b : ℕ → α}

theorem Partitioned.left (h : Partitioned lt l i u a) (hi : 0 < i) (hre : Rearranged l (i - 1) a b) :
    Partitioned lt l i u b := by
  have hmid : b i = a i := hre.outside (by omega)
  constructor
  · rw [hmid]
    exact hre.forall (P := fun v => lt (a i) v = false) h.1
  · intro x hlo hhi
    rw [hmid, hre.outside (by omega)]
    exact h.2 x hlo hhi

theorem Partitioned.right (h : Partitioned lt l i u a) (hi : 0 < i) (hre : Rearranged (i + 1) u a b) :
    Partitioned lt l i u b := by
  have hmid : b i = a i := hre.outside (by omega)
  constructor
  · intro x hlo hhi
    rw [hmid, hre.outside (by omega)]
    exact h.1 x hlo hhi
  · rw [hmid]
    exact hre.forall (P := fun v => lt v (a i) = false) h.2

theorem Partitioned.sorted (hlt : StrictWeak lt) (h : Partitioned lt l i u a) (hleft : SortedOn lt l (i - 1) a)
    (hright : SortedOn lt (i + 1) u a) : SortedOn lt l u a := by
  intro x y hlo hxy hhi
  obtain hx | rfl | hx : x < i ∨ x = i ∨ i < x := lt_trichotomy x i
  · have hmid := h.1 x hlo (by omega)
    obtain hy | rfl | hy : y < i ∨ y = i ∨ i < y := lt_trichotomy y i
    · exact hleft x y hlo hxy (by omega)
    · exact hmid
    · exact hlt.not_trans (h.2 y hy hhi) hmid
  · exact h.2 y hxy hhi
  · exact hright x y hx hxy hhi

end

/-! ### The choice of the pivot -/

section

variable {i j m : ℕ} {s : Sorting α σ} {post : Unit → (ℕ → α) → Prop} {rest : Unit → SortM α σ ε Unit}

/-- Two elements are put in order. -/
theorem spec_pair (hu : u < n) (hi : l ≤ i ∧ i ≤ u) (hj : l ≤ j ∧ j ≤ u)
    (hrest : ∀ s' : Sorting α σ, (Consistent pred lt S → lt (s'.arr i) (s'.arr j) = false) →
      Spec pred lt S l u (rest ()) s' post) :
    Spec pred lt S l u (sort_less pred n i j >>= fun b => if b = true then sort_swap n i j >>= rest else rest ()) s post := by
  apply spec_less hu (by omega) (by omega)
  intro b s' harr hb
  cases b with
  | true =>
    rw [if_pos rfl]
    apply spec_swap hi hj hu
    apply hrest
    intro hc
    dsimp only
    rw [swapped_left, swapped_right, harr]
    exact hc.1.asymm (hb hc).symm
  | false =>
    rw [if_neg nofun]
    apply hrest
    intro hc
    rw [harr]
    exact (hb hc).symm

/-- The element in the middle of the range becomes the median of three. -/
theorem spec_median (hu : u < n) (hlm : l < m) (hmu : m < u)
    (hends : Consistent pred lt S → lt (s.arr u) (s.arr l) = false)
    (hrest : ∀ s' : Sorting α σ,
      (Consistent pred lt S → lt (s'.arr m) (s'.arr l) = false ∧ lt (s'.arr u) (s'.arr m) = false) →
      Spec pred lt S l u (rest ()) s' post) :
    Spec pred lt S l u (sort_less pred n m l >>= fun b => if b = true then sort_swap n m l >>= rest else
      sort_less pred n u m >>= fun b => if b = true then sort_swap n m u >>= rest else rest ()) s post := by
  apply spec_less hu (by omega) (by omega)
  intro b s' harr hb
  rw [← harr] at hb hends
  cases b with
  | true =>
    rw [if_pos rfl]
    apply spec_swap (by omega) (by omega) hu
    apply hrest
    intro hc
    dsimp only
    rw [swapped_left, swapped_right, swapped_of_ne _ (by omega) (by omega)]
    exact ⟨hc.1.asymm (hb hc).symm, hends hc⟩
  | false =>
    rw [if_neg nofun]
    apply spec_less hu (by omega) (by omega)
    intro b' s'' harr' hb'
    rw [← harr'] at hb hb' hends
    cases b' with
    | true =>
      rw [if_pos rfl]
      apply spec_swap (by omega) (by omega) hu
      apply hrest
      intro hc
      dsimp only
      rw [swapped_left, swapped_right, swapped_of_ne _ (by omega) (by omega)]
      exact ⟨hends hc, hc.1.asymm (hb' hc).symm⟩
    | false =>
      rw [if_neg nofun]
      apply hrest
      intro hc
      exact ⟨(hb hc).symm, (hb' hc).symm⟩

end

/-- The median of three goes to the place before the last one. -/
theorem splitAt_pivot {m : ℕ} {a : ℕ → α} (hlt : StrictWeak lt) (hlm : l < m) (hmp : m < p) (hpu : p + 1 = u)
    (hlow : lt (a m) (a l) = false) (hhigh : lt (a u) (a m) = false) : SplitAt lt l u p l p (swapped a m p) := by
  constructor
  · intro x hlo hhi
    have hx : x = l := by omega
    rw [hx, swapped_right, swapped_of_ne a (by omega) (by omega)]
    exact hlow
  · intro x hlo hhi
    rw [swapped_right]
    obtain rfl | rfl : x = p ∨ x = u := by omega
    · rw [swapped_right]
      exact hlt.irrefl _
    · rw [swapped_of_ne a (by omega) (by omega)]
      exact hhigh

/-- The pivot goes to the place where the loop ended. -/
theorem partitioned_pivot {i : ℕ} {a : ℕ → α} (hip : i ≤ p) (hpu : p ≤ u)
    (hleft : ∀ x, l ≤ x → x < i → lt (a p) (a x) = false) (hright : ∀ x, i ≤ x → x ≤ u → lt (a x) (a p) = false)
    (hi : l < i) : Partitioned lt l i u (swapped a p i) := by
  constructor
  · intro x hlo hhi
    rw [swapped_right, swapped_of_ne a (by omega) (by omega)]
    exact hleft x hlo (by omega)
  · intro x hlo hhi
    rw [swapped_right]
    by_cases hx : x = p
    · rw [hx, swapped_left]
      exact hright i le_rfl (by omega)
    · rw [swapped_of_ne a hx (by omega)]
      exact hright x (by omega) hhi

/-! ### The whole sort -/

section

variable {i : ℕ} {x y : SortM α σ ε Unit} {s : Sorting α σ}

/-- The two halves are sorted one after the other, the left one first. -/
theorem spec_halves (hl : l < i) (h : Consistent pred lt S → Partitioned lt l i u s.arr)
    (hleft : ∀ s', Spec pred lt S l (i - 1) x s' fun _ a => SortedOn lt l (i - 1) a)
    (hright : ∀ s', Spec pred lt S (i + 1) u y s' fun _ a => SortedOn lt (i + 1) u a) (hiu : i ≤ u) :
    Spec pred lt S l u (x >>= fun _ => y) s fun _ a => SortedOn lt l u a := by
  have hfirst : Spec pred lt S l u x s fun _ a => SortedOn lt l (i - 1) a ∧ Partitioned lt l i u a := by
    apply (hleft s).mono le_rfl (by omega)
    intro _ a hre hc hsorted
    exact ⟨hsorted, (h hc).left (by omega) hre⟩
  apply hfirst.bind
  intro _ s' _ hpost
  apply (hright s').mono (by omega) le_rfl
  intro _ a hre hc hsorted
  obtain ⟨hbefore, hpart⟩ := hpost hc
  have hbefore' : SortedOn lt l (i - 1) a := hbefore.congr fun x _ hx => hre.outside (by omega)
  exact (hpart.right (by omega) hre).sorted hc.1 hbefore' hsorted

/-- The right half first -/
theorem spec_halves' (hl : l < i) (h : Consistent pred lt S → Partitioned lt l i u s.arr)
    (hleft : ∀ s', Spec pred lt S l (i - 1) x s' fun _ a => SortedOn lt l (i - 1) a)
    (hright : ∀ s', Spec pred lt S (i + 1) u y s' fun _ a => SortedOn lt (i + 1) u a) (hiu : i ≤ u) :
    Spec pred lt S l u (y >>= fun _ => x) s fun _ a => SortedOn lt l u a := by
  have hfirst : Spec pred lt S l u y s fun _ a => SortedOn lt (i + 1) u a ∧ Partitioned lt l i u a := by
    apply (hright s).mono (by omega) le_rfl
    intro _ a hre hc hsorted
    exact ⟨hsorted, (h hc).right (by omega) hre⟩
  apply hfirst.bind
  intro _ s' _ hpost
  apply (hleft s').mono le_rfl (by omega)
  intro _ a hre hc hsorted
  obtain ⟨hbehind, hpart⟩ := hpost hc
  have hbehind' : SortedOn lt (i + 1) u a := hbehind.congr fun x hx _ => hre.outside (by omega)
  exact (hpart.left (by omega) hre).sorted hc.1 hsorted hbehind'

end

theorem sort_rec_spec (l u limit : ℕ) (hu : u < n) (s : Sorting α σ) :
    Spec pred lt S l u (sort_rec pred n l u limit) s fun _ a => SortedOn lt l u a := by
  induction hm : u - l using Nat.strong_induction_on generalizing l u limit s with
  | _ k ih =>
    subst hm
    unfold sort_rec
    by_cases hlu : l < u
    · rw [dif_pos hlu]
      by_cases hlimit : limit = 0
      · rw [if_pos hlimit]
        exact sort_heap_spec hu hlu.le s
      · rw [if_neg hlimit]
        apply spec_pair hu (by omega) (by omega)
        intro s₁ hends
        by_cases htwo : u - l = 1
        · rw [if_pos htwo]
          apply spec_pure
          intro hc x y hlo hxy hhi
          have hx : x = l := by omega
          have hy : y = u := by omega
          rw [hx, hy]
          exact hends hc
        · rw [if_neg htwo]
          apply spec_median hu (by omega) (by omega) hends
          intro s₂ hmedian
          by_cases hthree : u - l ≤ 2
          · rw [dif_pos hthree]
            apply spec_pure
            intro hc x y hlo hxy hhi
            obtain ⟨hlow, hhigh⟩ := hmedian hc
            have hm : l + (u - l) / 2 = l + 1 := by omega
            rw [hm] at hlow hhigh
            obtain ⟨rfl, rfl⟩ | ⟨rfl, rfl⟩ | ⟨rfl, rfl⟩ : x = l ∧ y = l + 1 ∨ x = l ∧ y = u ∨ x = l + 1 ∧ y = u := by omega
            · exact hlow
            · exact hc.1.not_trans hhigh hlow
            · exact hhigh
          · rw [dif_neg hthree]
            apply spec_swap (by omega) (by omega) hu
            apply (splitLoop_spec hu (by omega) l (u - 1) _ le_rfl (by omega) (by omega) le_rfl _ ?_).bind
            · intro i s₃ _ hsplit
              have hi := i.2
              apply spec_swap (by omega) (by omega) hu
              have hpart : Consistent pred lt S → Partitioned lt l i u (swapped s₃.arr (u - 1) i) := by
                intro hc
                obtain ⟨hip, hleft, hright⟩ := hsplit hc
                exact partitioned_pivot hip (by omega) hleft hright hi.1
              have hleft := fun limit s => ih (i - 1 - l) (by omega) l (i - 1) limit (by omega) s rfl
              have hright := fun limit s => ih (u - (i + 1)) (by omega) (i + 1) u limit hu s rfl
              apply spec_ite
              · intro _
                exact spec_halves hi.1 hpart (hleft _) (hright _) hi.2
              · intro _
                exact spec_halves' hi.1 hpart (hleft _) (hright _) hi.2
            · intro hc
              obtain ⟨hlow, hhigh⟩ := hmedian hc
              exact splitAt_pivot hc.1 (by omega) (by omega) (by omega) hlow hhigh
    · rw [dif_neg hlu]
      exact spec_pure fun _ => sortedOn_of_le lt s.arr (by omega)

end Luwu.Sort
