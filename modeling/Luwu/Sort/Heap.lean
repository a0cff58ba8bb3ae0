import Luwu.Sort.Core

/-!
# Heap sort

The sift keeps all places of the heap in order but the one it stands at; from the heap the largest element goes
to the end, again and again.
-/

namespace Luwu.Sort

open Arrange

variable {α σ ε : Type} {pred : SortPredicate α σ ε} {lt : α → α → Bool} {S : α → Prop} {n l u count r root : ℕ} {a a' : ℕ → α}

/-! ### Heaps -/

def IsChild (c i : ℕ) : Prop := c = i * 2 + 1 ∨ c = i * 2 + 2

/-- No child of the place `i` is larger than what stands there. -/
def Above (lt : α → α → Bool) (l count : ℕ) (a : ℕ → α) (i : ℕ) : Prop :=
  ∀ c, IsChild c i → c < count → lt (a (l + i)) (a (l + c)) = false

/-- The places from `r` on are in order. -/
def HeapFrom (lt : α → α → Bool) (l count r : ℕ) (a : ℕ → α) : Prop := ∀ i, r ≤ i → Above lt l count a i

/-- The places from `r` on are in order but `root`, and what stands above `root` is not smaller than what
stands below it. -/
structure HeapExcept (lt : α → α → Bool) (l count r root : ℕ) (a : ℕ → α) : Prop where
  above : ∀ i, r ≤ i → i ≠ root → Above lt l count a i
  grand : ∀ i, r ≤ i → IsChild root i → ∀ c, IsChild c root → c < count → lt (a (l + i)) (a (l + c)) = false

theorem HeapExcept.heap (h : HeapExcept lt l count r root a) (hroot : Above lt l count a root) :
    HeapFrom lt l count r a := by
  intro i hi
  by_cases heq : i = root
  · rw [heq]
    exact hroot
  · exact h.above i hi heq

theorem heapFrom_half : HeapFrom lt l count (count / 2) a := by
  intro i hi c hc hlt
  unfold IsChild at hc
  omega

/-- The first place of a heap has the largest element. -/
theorem HeapFrom.max (hlt : StrictWeak lt) (h : HeapFrom lt l count 0 a) {x : ℕ} (hx : x < count) :
    lt (a l) (a (l + x)) = false := by
  induction x using Nat.strong_induction_on with
  | _ x ih =>
    by_cases hzero : x = 0
    · rw [hzero, Nat.add_zero]
      exact hlt.irrefl _
    · have hparent : IsChild x ((x - 1) / 2) := by
        unfold IsChild
        omega
      exact hlt.not_trans (ih ((x - 1) / 2) (by omega) (by omega)) (h _ (Nat.zero_le _) x hparent hx)

/-! ### One step down -/

/-- The place that two comparisons leave, of three, has the largest element. -/
theorem largest (hlt : StrictWeak lt) (f : ℕ → α) {x y z : ℕ} {b b' : Bool} (hb : b = lt (f x) (f y))
    (hb' : b' = lt (f (cond b y x)) (f z)) {c : ℕ} (hc : c = x ∨ c = y ∨ c = z) :
    lt (f (cond b' z (cond b y x))) (f c) = false := by
  cases b with
  | true =>
    have hyx := hlt.asymm hb.symm
    cases b' with
    | true =>
      have hzy := hlt.asymm hb'.symm
      obtain rfl | rfl | rfl := hc
      · exact hlt.not_trans hzy hyx
      · exact hzy
      · exact hlt.irrefl _
    | false =>
      obtain rfl | rfl | rfl := hc
      · exact hyx
      · exact hlt.irrefl _
      · exact hb'.symm
  | false =>
    cases b' with
    | true =>
      have hzx := hlt.asymm hb'.symm
      obtain rfl | rfl | rfl := hc
      · exact hzx
      · exact hlt.not_trans hzx hb.symm
      · exact hlt.irrefl _
    | false =>
      obtain rfl | rfl | rfl := hc
      · exact hlt.irrefl _
      · exact hb.symm
      · exact hb'.symm

/-- The root is exchanged with its largest child, which is then the place out of order. -/
theorem HeapExcept.step (h : HeapExcept lt l count r root a) (hr : r ≤ root) {next : ℕ} (hchild : IsChild next root)
    (htop : ∀ c, c = root ∨ IsChild c root → c < count → lt (a (l + next)) (a (l + c)) = false) (hnext : next < count) :
    HeapExcept lt l count r next (swapped a (l + root) (l + next)) := by
  have hgt : root < next := by
    unfold IsChild at hchild
    omega
  have hsame : ∀ k, k ≠ root → k ≠ next → swapped a (l + root) (l + next) (l + k) = a (l + k) := by
    intro k hkr hkn
    exact swapped_of_ne a (by omega) (by omega)
  constructor
  · intro i hi hin c hc hlt
    by_cases hir : i = root
    · subst hir
      rw [swapped_left]
      by_cases hcn : c = next
      · rw [hcn, swapped_right]
        exact htop i (Or.inl rfl) (by omega)
      · rw [hsame c (by unfold IsChild at hc; omega) hcn]
        exact htop c (Or.inr hc) hlt
    · rw [hsame i hir hin]
      by_cases hcr : c = root
      · rw [hcr, swapped_left]
        exact h.grand i hi (hcr ▸ hc) next hchild hnext
      · have hcn : c ≠ next := by
          unfold IsChild at hc hchild
          omega
        rw [hsame c hcr hcn]
        exact h.above i hi hir c hc hlt
  · intro i hi hni c hc hlt
    have hir : i = root := by
      unfold IsChild at hni hchild
      omega
    subst hir
    have hcgt : next < c := by
      unfold IsChild at hc
      omega
    rw [swapped_left, hsame c (by omega) (by omega)]
    exact h.above next (by omega) (by omega) c hc hlt

/-- The last place that has one child -/
theorem HeapExcept.last (hlt : StrictWeak lt) (h : HeapExcept lt l count r root a) (hr : r ≤ root)
    (hcount : count = root * 2 + 2) (hless : lt (a (l + root)) (a (l + (root * 2 + 1))) = true) :
    HeapFrom lt l count r (swapped a (l + root) (l + (root * 2 + 1))) := by
  have hchild : IsChild (root * 2 + 1) root := Or.inl rfl
  have hstep : HeapExcept lt l count r (root * 2 + 1) (swapped a (l + root) (l + (root * 2 + 1))) := by
    apply h.step hr hchild
    · intro c hc hclt
      obtain rfl | hc := hc
      · exact hlt.asymm hless
      · have hceq : c = root * 2 + 1 := by
          unfold IsChild at hc
          omega
        rw [hceq]
        exact hlt.irrefl _
    · omega
  apply hstep.heap
  intro c hc hclt
  unfold IsChild at hc
  omega

/-! ### The sift -/

theorem siftLoop_spec (hu : u < n) (hl : l ≤ u) (hcount : count = u - l + 1) (hr : r ≤ root) (hroot : root < count)
    (s : Sorting α σ) (h : Consistent pred lt S → HeapExcept lt l count r root s.arr) :
    Spec pred lt S l u (siftLoop pred n l count root) s fun root' a =>
      r ≤ root' ∧ root' < count ∧ HeapExcept lt l count r root' a ∧
        (root' * 2 + 2 < count → Above lt l count a root') := by
  induction hn : count - root using Nat.strong_induction_on generalizing root s with
  | _ k ih =>
    unfold siftLoop
    by_cases htwo : root * 2 + 2 < count
    · rw [dif_pos htwo]
      have hcond : ∀ b, cond b (root * 2 + 1) root < count := by
        intro b
        cases b with
        | true =>
          show root * 2 + 1 < count
          omega
        | false => exact hroot
      apply spec_less hu (by omega) (by omega)
      intro b s' harr hb
      apply spec_less hu (by have := hcond b; omega) (by omega)
      intro b' s'' harr' hb'
      rw [harr] at hb'
      have hsame : s''.arr = s.arr := harr'.trans harr
      rw [← hsame] at h hb hb'
      have htop : Consistent pred lt S → ∀ c, c = root ∨ IsChild c root → c < count →
          lt (s''.arr (l + cond b' (root * 2 + 2) (cond b (root * 2 + 1) root))) (s''.arr (l + c)) = false := by
        intro hc c hchild _
        exact largest hc.1 (fun k => s''.arr (l + k)) (hb hc) (hb' hc) hchild
      by_cases hstop : cond b' (root * 2 + 2) (cond b (root * 2 + 1) root) = root
      · rw [dif_pos hstop]
        rw [hstop] at htop
        apply spec_pure
        intro hc
        exact ⟨hr, hroot, h hc, fun _ c hchild hlt => htop hc c (Or.inr hchild) hlt⟩
      · rw [dif_neg hstop]
        have hgt := child_gt hstop
        have hchild : IsChild (cond b' (root * 2 + 2) (cond b (root * 2 + 1) root)) root := by
          cases b' with
          | true => exact Or.inr rfl
          | false =>
            cases b with
            | true => exact Or.inl rfl
            | false => exact absurd rfl hstop
        generalize cond b' (root * 2 + 2) (cond b (root * 2 + 1) root) = next at htop hstop hgt hchild ⊢
        have hnext : next < count := by
          unfold IsChild at hchild
          omega
        apply spec_swap (by omega) (by omega) hu
        apply ih (count - next) (by omega) (by omega) hnext _ _ rfl
        intro hc
        exact (h hc).step hr hchild (htop hc) hnext
    · rw [dif_neg htwo]
      apply spec_pure
      intro hc
      exact ⟨hr, hroot, h hc, fun hlt => absurd hlt htwo⟩

theorem sort_siftheap_spec (hu : u < n) (hl : l ≤ u) (hr : r ≤ root) (hroot : root < u - l + 1) (s : Sorting α σ)
    (h : Consistent pred lt S → HeapExcept lt l (u - l + 1) r root s.arr) :
    Spec pred lt S l u (sort_siftheap pred n l u root) s fun _ a => HeapFrom lt l (u - l + 1) r a := by
  unfold sort_siftheap
  apply (siftLoop_spec hu hl rfl hr hroot s h).bind
  intro root' s' _ hpost
  by_cases hlast : root' * 2 + 1 = u - l + 1 - 1
  · rw [if_pos hlast]
    by_cases hin : root' < u - l + 1
    · apply spec_less hu (by omega) (by omega)
      intro b s'' harr hb
      cases b with
      | true =>
        apply spec_swap_last (by omega) (by omega) hu
        intro hc
        obtain ⟨hr', _, hexcept, _⟩ := hpost hc
        rw [harr]
        exact hexcept.last hc.1 hr' (by omega) (hb hc).symm
      | false =>
        apply spec_pure
        intro hc
        obtain ⟨hr', _, hexcept, _⟩ := hpost hc
        rw [harr]
        apply hexcept.heap
        intro c hchild hlt
        have hceq : c = root' * 2 + 1 := by
          unfold IsChild at hchild
          omega
        rw [hceq]
        exact (hb hc).symm
    · omega
  · rw [if_neg hlast]
    apply spec_pure
    intro hc
    obtain ⟨hr', hlt', hexcept, habove⟩ := hpost hc
    apply hexcept.heap
    by_cases htwo : root' * 2 + 2 < u - l + 1
    · exact habove htwo
    · intro c hchild hlt
      unfold IsChild at hchild
      omega

theorem heapifyLoop_spec (hu : u < n) (hl : l ≤ u) (k : ℕ) (hk : k ≤ u - l + 1) (s : Sorting α σ)
    (h : Consistent pred lt S → HeapFrom lt l (u - l + 1) k s.arr) :
    Spec pred lt S l u (heapifyLoop pred n l u k) s fun _ a => HeapFrom lt l (u - l + 1) 0 a := by
  induction k generalizing s with
  | zero => exact spec_pure h
  | succ i ih =>
    unfold heapifyLoop
    have hsift : Spec pred lt S l u (sort_siftheap pred n l u i) s fun _ a => HeapFrom lt l (u - l + 1) i a := by
      apply sort_siftheap_spec hu hl le_rfl (by omega)
      intro hc
      refine ⟨fun j hj hne => h hc j (by omega), fun j hj hchild => ?_⟩
      unfold IsChild at hchild
      omega
    apply hsift.bind
    intro _ s' _ hheap
    exact ih (by omega) s' hheap

/-- The elements behind `k` are sorted, and none of the first ones is larger. -/
def TailSorted (lt : α → α → Bool) (l k u : ℕ) (a : ℕ → α) : Prop :=
  SortedOn lt (l + k + 1) u a ∧ ∀ y, l + k < y → y ≤ u → ∀ x, l ≤ x → x ≤ l + k → lt (a y) (a x) = false

theorem extractLoop_spec (hu : u < n) (k : ℕ) (hk : l + k ≤ u) (s : Sorting α σ)
    (h : Consistent pred lt S → HeapFrom lt l (k + 1) 0 s.arr ∧ TailSorted lt l k u s.arr) :
    Spec pred lt S l u (extractLoop pred n l k) s fun _ a => SortedOn lt l u a := by
  induction k generalizing s with
  | zero =>
    apply spec_pure
    intro hc
    obtain ⟨_, hsorted, hsmall⟩ := h hc
    intro x y hx hxy hy
    by_cases hxl : x = l
    · exact hsmall y (by omega) hy x hx (by omega)
    · exact hsorted x y (by omega) hxy hy
  | succ i ih =>
    unfold extractLoop
    apply spec_swap (by omega) (by omega) hu
    have hend : l + (i + 1) - 1 = l + i := by omega
    rw [hend]
    have hsift : Spec pred lt S l (l + i) (sort_siftheap pred n l (l + i) 0)
        { s with arr := swapped s.arr l (l + (i + 1)) } fun _ a => HeapFrom lt l (l + i - l + 1) 0 a := by
      apply sort_siftheap_spec (by omega) (by omega) le_rfl (by omega)
      intro hc
      obtain ⟨hheap, _⟩ := h hc
      refine ⟨fun j _ hne c hchild hlt => ?_, fun j _ hchild => ?_⟩
      · have hj : j < c := by
          unfold IsChild at hchild
          omega
        dsimp only
        rw [swapped_of_ne _ (by omega) (by omega), swapped_of_ne _ (by omega) (by omega)]
        exact hheap j (Nat.zero_le _) c hchild (by omega)
      · unfold IsChild at hchild
        omega
    have hcount : l + i - l + 1 = i + 1 := by omega
    rw [hcount] at hsift
    have hwide : Spec pred lt S l u (sort_siftheap pred n l (l + i) 0)
        { s with arr := swapped s.arr l (l + (i + 1)) }
        fun _ a => HeapFrom lt l (i + 1) 0 a ∧ TailSorted lt l i u a := by
      apply hsift.mono le_rfl (by omega)
      intro _ a hre hc hheap
      refine ⟨hheap, ?_⟩
      obtain ⟨hold, hsorted, hsmall⟩ := h hc
      have hmax : ∀ x, l ≤ x → x ≤ l + (i + 1) → lt (s.arr l) (s.arr x) = false := by
        intro x hlo hhi
        have hx := hold.max hc.1 (show x - l < i + 1 + 1 by omega)
        rwa [show l + (x - l) = x by omega] at hx
      have hat : a (l + (i + 1)) = s.arr l := by
        rw [hre.outside (by omega)]
        exact swapped_right _ _ _
      have hbehind : ∀ y, l + (i + 1) < y → a y = s.arr y := by
        intro y hy
        rw [hre.outside (by omega)]
        exact swapped_of_ne _ (by omega) (by omega)
      constructor
      · intro x y hx hxy hy
        rw [hbehind y (by omega)]
        by_cases hxi : x = l + (i + 1)
        · rw [hxi, hat]
          exact hsmall y (by omega) hy l le_rfl (by omega)
        · rw [hbehind x (by omega)]
          exact hsorted x y (by omega) hxy hy
      · intro y hlo hhi
        apply hre.forall (P := fun v => lt (a y) v = false)
        intro x hx hxi
        dsimp only
        have hfrom : ∃ z, l ≤ z ∧ z ≤ l + (i + 1) ∧ swapped s.arr l (l + (i + 1)) x = s.arr z := by
          by_cases hxl : x = l
          · exact ⟨l + (i + 1), by omega, le_rfl, by rw [hxl, swapped_left]⟩
          · exact ⟨x, hx, by omega, swapped_of_ne _ hxl (by omega)⟩
        obtain ⟨z, hzlo, hzhi, hz⟩ := hfrom
        rw [hz]
        by_cases hyi : y = l + (i + 1)
        · rw [hyi, hat]
          exact hmax z hzlo hzhi
        · rw [hbehind y (by omega)]
          exact hsmall y (by omega) hhi z hzlo hzhi
    apply hwide.bind
    intro _ s' _ hpost
    exact ih (by omega) s' hpost

theorem sort_heap_spec (hu : u < n) (hl : l ≤ u) (s : Sorting α σ) :
    Spec pred lt S l u (sort_heap pred n l u) s fun _ a => SortedOn lt l u a := by
  unfold sort_heap
  apply (heapifyLoop_spec hu hl ((u - l + 1) / 2) (by omega) s fun _ => heapFrom_half).bind
  intro _ s' _ hheap
  have hcount : u - l + 1 - 1 = u - l := by omega
  rw [hcount]
  apply extractLoop_spec hu (u - l) (by omega)
  intro hc
  exact ⟨hheap hc, sortedOn_of_le lt _ (by omega), fun y hlo hhi => by omega⟩

end Luwu.Sort
