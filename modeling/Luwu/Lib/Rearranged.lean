import Mathlib.Tactic
import Mathlib.Logic.Equiv.Basic
import Mathlib.Order.Defs.Unbundled

/-!
# Rearranging a range of an array

Arrays as functions of the index.  A range is rearranged by a permutation of the indices that keeps those
outside of it; what holds of all elements of the range then holds of them afterwards.
-/

namespace Luwu.Arrange

variable {α : Type} {l u l' u' : ℕ} {a b c : ℕ → α}

/-- `b` is `a` with the elements `l .. u` in another order. -/
def Rearranged (l u : ℕ) (a b : ℕ → α) : Prop :=
  ∃ σ : Equiv.Perm ℕ, b = a ∘ σ ∧ ∀ k, k < l ∨ u < k → σ k = k

theorem Rearranged.refl (l u : ℕ) (a : ℕ → α) : Rearranged l u a a := ⟨1, rfl, fun _ _ => rfl⟩

theorem Rearranged.trans (h : Rearranged l u a b) (h' : Rearranged l u b c) : Rearranged l u a c := by
  obtain ⟨σ, rfl, hσ⟩ := h
  obtain ⟨τ, rfl, hτ⟩ := h'
  refine ⟨σ * τ, rfl, ?_⟩
  intro k hk
  rw [Equiv.Perm.mul_apply, hτ k hk, hσ k hk]

theorem Rearranged.mono (h : Rearranged l u a b) (hl : l' ≤ l) (hu : u ≤ u') : Rearranged l' u' a b := by
  obtain ⟨σ, hb, hσ⟩ := h
  exact ⟨σ, hb, fun k hk => hσ k (by omega)⟩

theorem Rearranged.outside (h : Rearranged l u a b) {k : ℕ} (hk : k < l ∨ u < k) : b k = a k := by
  obtain ⟨σ, rfl, hσ⟩ := h
  rw [Function.comp_apply, hσ k hk]

/-- An index of the range comes from an index of the range. -/
theorem Rearranged.source (h : Rearranged l u a b) {k : ℕ} (hk : l ≤ k ∧ k ≤ u) : ∃ j, l ≤ j ∧ j ≤ u ∧ b k = a j := by
  obtain ⟨σ, rfl, hσ⟩ := h
  refine ⟨σ k, ?_, ?_, rfl⟩
  · by_contra hlt
    have hfix := hσ (σ k) (by omega)
    have := σ.injective hfix
    omega
  · by_contra hgt
    have hfix := hσ (σ k) (by omega)
    have := σ.injective hfix
    omega

theorem Rearranged.forall (h : Rearranged l u a b) {P : α → Prop} (hP : ∀ k, l ≤ k → k ≤ u → P (a k)) :
    ∀ k, l ≤ k → k ≤ u → P (b k) := by
  intro k hlo hhi
  obtain ⟨j, hjlo, hjhi, heq⟩ := h.source ⟨hlo, hhi⟩
  rw [heq]
  exact hP j hjlo hjhi

/-- The array with two elements exchanged -/
def swapped (a : ℕ → α) (i j : ℕ) : ℕ → α := a ∘ Equiv.swap i j

theorem swapped_left (a : ℕ → α) (i j : ℕ) : swapped a i j i = a j := by
  rw [swapped, Function.comp_apply, Equiv.swap_apply_left]

theorem swapped_right (a : ℕ → α) (i j : ℕ) : swapped a i j j = a i := by
  rw [swapped, Function.comp_apply, Equiv.swap_apply_right]

theorem swapped_of_ne {i j k : ℕ} (a : ℕ → α) (hi : k ≠ i) (hj : k ≠ j) : swapped a i j k = a k := by
  rw [swapped, Function.comp_apply, Equiv.swap_apply_of_ne_of_ne hi hj]

theorem rearranged_swapped {i j : ℕ} (hi : l ≤ i ∧ i ≤ u) (hj : l ≤ j ∧ j ≤ u) : Rearranged l u a (swapped a i j) := by
  refine ⟨Equiv.swap i j, rfl, ?_⟩
  intro k hk
  exact Equiv.swap_apply_of_ne_of_ne (by omega) (by omega)

/-- The elements of the range are the same, in another order. -/
theorem Rearranged.perm {n : ℕ} (h : Rearranged 0 (n - 1) a b) (hn : 0 < n) :
    ((List.range n).map b).Perm ((List.range n).map a) := by
  obtain ⟨σ, rfl, hσ⟩ := h
  have hrange : ((List.range n).map σ).Perm (List.range n) := by
    have hnodup : ((List.range n).map σ).Nodup := List.nodup_range.map σ.injective
    apply (List.perm_ext_iff_of_nodup hnodup List.nodup_range).mpr
    intro k
    rw [List.mem_map, List.mem_range]
    constructor
    · rintro ⟨j, hj, rfl⟩
      rw [List.mem_range] at hj
      by_contra hge
      have hfix := hσ (σ j) (by omega)
      have := σ.injective hfix
      omega
    · intro hk
      refine ⟨σ.symm k, ?_, σ.apply_symm_apply k⟩
      rw [List.mem_range]
      by_contra hge
      have hfix := hσ (σ.symm k) (by omega)
      rw [σ.apply_symm_apply] at hfix
      omega
  have hmap := hrange.map a
  rwa [List.map_map] at hmap

/-! ### Sorted ranges -/

/-- No element of the range is before one with a smaller index. -/
def SortedOn (lt : α → α → Bool) (l u : ℕ) (a : ℕ → α) : Prop :=
  ∀ x y, l ≤ x → x < y → y ≤ u → lt (a y) (a x) = false

theorem sortedOn_of_le (lt : α → α → Bool) (a : ℕ → α) (h : u ≤ l) : SortedOn lt l u a := fun x y _ _ _ => by omega

theorem SortedOn.congr {lt : α → α → Bool} (h : SortedOn lt l u a) (hsame : ∀ x, l ≤ x → x ≤ u → b x = a x) : SortedOn lt l u b := by
  intro x y hlo hxy hhi
  rw [hsame x (by omega) (by omega), hsame y (by omega) hhi]
  exact h x y hlo hxy hhi

/-- A test that decides a strict weak order -/
def StrictWeak (lt : α → α → Bool) : Prop := IsStrictWeakOrder α fun x y => lt x y = true

theorem strictWeak_of {lt : α → α → Bool} (hirrefl : ∀ x, ¬lt x x = true)
    (htrans : ∀ x y z, lt x y = true → lt y z = true → lt x z = true)
    (hnot : ∀ x y z, lt x y = false → lt y z = false → lt x z = false) : StrictWeak lt where
  irrefl := hirrefl
  trans := htrans
  incomp_trans := by
    intro x y z hxy hyz
    simp only [Bool.not_eq_true] at hxy hyz ⊢
    exact ⟨hnot x y z hxy.1 hyz.1, hnot z y x hyz.2 hxy.2⟩

/-- A test that compares by a key in a linear order -/
theorem strictWeak_of_key {β : Type*} [LinearOrder β] {lt : α → α → Bool} (key : α → β)
    (hkey : ∀ x y, lt x y = true ↔ key x < key y) : StrictWeak lt := by
  have hnot : ∀ x y, lt x y = false ↔ key y ≤ key x := by
    intro x y
    rw [← Bool.not_eq_true, hkey, not_lt]
  apply strictWeak_of
  · intro x
    rw [hkey]
    exact lt_irrefl _
  · intro x y z hxy hyz
    rw [hkey] at hxy hyz ⊢
    exact hxy.trans hyz
  · intro x y z hxy hyz
    rw [hnot] at hxy hyz ⊢
    exact hyz.trans hxy

section StrictWeak

variable {lt : α → α → Bool} (h : StrictWeak lt)

include h

theorem StrictWeak.irrefl (x : α) : lt x x = false := by
  have hirrefl : Std.Irrefl fun x y => lt x y = true := h.toIsStrictOrder.toIrrefl
  simpa using hirrefl.irrefl x

theorem StrictWeak.trans {x y z : α} (hxy : lt x y = true) (hyz : lt y z = true) : lt x z = true :=
  h.toIsStrictOrder.toIsTrans.trans x y z hxy hyz

theorem StrictWeak.asymm {x y : α} (hxy : lt x y = true) : lt y x = false := by
  by_contra hyx
  have hxx := h.trans hxy (by simpa using hyx)
  rw [h.irrefl] at hxx
  cases hxx

/-- Where neither step goes up, the two steps together do not. -/
theorem StrictWeak.not_trans {x y z : α} (hxy : lt x y = false) (hyz : lt y z = false) : lt x z = false := by
  by_contra hxz
  have hxz : lt x z = true := by simpa using hxz
  have hyx : lt y x = false := by
    by_contra hup
    have := h.trans (by simpa using hup) hxz
    rw [hyz] at this
    cases this
  have hzy : lt z y = false := by
    by_contra hup
    have := h.trans hxz (by simpa using hup)
    rw [hxy] at this
    cases this
  have hinc := h.incomp_trans x y z ⟨by simp [hxy], by simp [hyx]⟩ ⟨by simp [hyz], by simp [hzy]⟩
  exact hinc.1 hxz

end StrictWeak

end Luwu.Arrange
