import Mathlib.Data.Set.Finite.Basic
import Mathlib.Data.List.Nodup
import Mathlib.Logic.Relation
import Mathlib.Order.WellFounded

/-!
# Orders that respect a relation

`After R l` says that every element of the list comes after all the elements it needs.  Such a list is built by adding
an element when all that it needs is there, and while the relation has no cycle there is always one to add.
-/

namespace Luwu.Precedence

variable {α : Type*} {R S : α → α → Prop} {l : List α} {a b : α}

/-- Every element comes after all the elements it needs. -/
def After (R : α → α → Prop) (l : List α) : Prop :=
  ∀ before a after, l = before ++ a :: after → ∀ b, R a b → b ∈ before

/-- No element needs itself, through others. -/
def Acyclic (R : α → α → Prop) : Prop := ∀ a, ¬Relation.TransGen R a a

theorem after_nil (R : α → α → Prop) : After R [] := by
  intro before a after h
  exact absurd h.symm (List.append_ne_nil_of_right_ne_nil before (List.cons_ne_nil a after))

theorem After.concat (h : After R l) (ha : ∀ b, R a b → b ∈ l) : After R (l ++ [a]) := by
  intro before c after hl b hb
  rcases List.eq_nil_or_concat after with rfl | ⟨after', d, rfl⟩
  · obtain ⟨rfl, hlast⟩ := List.append_inj' hl rfl
    obtain rfl := List.singleton_inj.mp hlast
    exact ha b hb
  · have hl' : l ++ [a] = (before ++ c :: after') ++ [d] := by simpa using hl
    obtain ⟨rfl, -⟩ := List.append_inj' hl' rfl
    exact h before c after' rfl b hb

theorem After.mono (h : After R l) (hRS : ∀ a ∈ l, ∀ b, S a b → R a b) : After S l := by
  intro before a after hl b hb
  have ha : a ∈ l := by
    rw [hl]
    exact List.mem_append_right before List.mem_cons_self
  exact h before a after hl b (hRS a ha b hb)

theorem After.or (hR : After R l) (hS : After S l) : After (fun a b => R a b ∨ S a b) l := by
  intro before a after hl b hb
  rcases hb with hb | hb
  · exact hR before a after hl b hb
  · exact hS before a after hl b hb

/-- Every element comes after what it needs through others. -/
theorem After.transGen (h : After R l) : After (Relation.TransGen R) l := by
  intro before a after hl b hab
  induction hab using Relation.TransGen.head_induction_on generalizing before after with
  | single hab => exact h before _ after hl b hab
  | @head a c hac _ ih =>
    obtain ⟨before', after', rfl⟩ := List.append_of_mem (h before a after hl c hac)
    have hmem := ih before' (after' ++ a :: after) (by rw [hl, List.append_assoc]; rfl)
    exact List.mem_append_left _ hmem

/-- A list that respects a relation shows that its elements are on no cycle. -/
theorem After.acyclic (h : After R l) (hnodup : l.Nodup) (hall : ∀ a b, R a b → a ∈ l) : Acyclic R := by
  intro a ha
  have hmem : a ∈ l := by
    cases ha using Relation.TransGen.head_induction_on with
    | single hab => exact hall a a hab
    | head hac _ => exact hall a _ hac
  obtain ⟨before, after, rfl⟩ := List.append_of_mem hmem
  have hbefore := h.transGen before a after rfl a ha
  exact (List.disjoint_of_nodup_append hnodup) hbefore List.mem_cons_self

/-- Without cycles, some element of a set needs no other of it. -/
theorem exists_source (h : Acyclic R) (s : Finset α) (hs : s.Nonempty) : ∃ a ∈ s, ∀ b ∈ s, ¬R a b := by
  let needed : s → s → Prop := fun b a => Relation.TransGen R a b
  have htrans : IsTrans s needed := ⟨fun _ _ _ hab hbc => hbc.trans hab⟩
  have hirrefl : Std.Irrefl needed := ⟨fun a => h a⟩
  obtain ⟨first, hfirst⟩ := hs
  obtain ⟨a, -, hmin⟩ := (Finite.wellFounded_of_trans_of_irrefl needed).has_min Set.univ ⟨⟨first, hfirst⟩, trivial⟩
  exact ⟨a, a.2, fun b hb hab => hmin ⟨b, hb⟩ trivial (Relation.TransGen.single hab)⟩

end Luwu.Precedence
