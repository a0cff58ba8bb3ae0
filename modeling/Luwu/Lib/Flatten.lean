import Mathlib.Data.List.Basic

/-!
# Flattening nested groups

A node is a leaf or a group of nodes, and groups may be shared.  The walk goes through the groups in order,
depth first, and skips a group that it has been to.  When groups do not contain themselves it yields exactly
the leaves (`mem_flatten_iff`).
-/

namespace Luwu.Flatten

variable {α : Type*} {inner : α → Option (List α)} {x y z s : α} {xs ys out seen seen' : List α} {n : ℕ}

/-- `z` is a leaf of the group, or the node itself. -/
inductive Leaf (inner : α → Option (List α)) : α → α → Prop where
  | here {x : α} (h : inner x = none) : Leaf inner x x
  | inside {x y z : α} {ys : List α} (h : inner x = some ys) (hy : y ∈ ys) (hz : Leaf inner y z) : Leaf inner x z

theorem leaf_of_none (h : inner x = none) : Leaf inner x z ↔ z = x := by
  constructor
  · intro hz
    cases hz with
    | here => rfl
    | inside he => simp [h] at he
  · rintro rfl
    exact .here h

theorem leaf_of_some (h : inner x = some ys) : Leaf inner x z ↔ ∃ y ∈ ys, Leaf inner y z := by
  constructor
  · intro hz
    cases hz with
    | here he => simp [h] at he
    | inside he hy hz =>
      obtain rfl := Option.some.inj (h.symm.trans he)
      exact ⟨_, hy, hz⟩
  · rintro ⟨y, hy, hz⟩
    exact .inside h hy hz

variable [DecidableEq α]

/-- The leaves of a node in the order of the walk, and the groups it has been to. -/
def walk (inner : α → Option (List α)) : ℕ → List α → α → List α × List α
  | 0, seen, _ => ([], seen)
  | n + 1, seen, x =>
    match inner x with
    | none => ([x], seen)
    | some ys =>
      if x ∈ seen then ([], seen)
      else ys.foldl (fun r y => let r' := walk inner n r.2 y; (r.1 ++ r'.1, r'.2)) ([], x :: seen)

/-- The walk through a list of nodes. -/
def walkAll (inner : α → Option (List α)) (n : ℕ) (r : List α × List α) (ys : List α) : List α × List α :=
  ys.foldl (fun r y => let r' := walk inner n r.2 y; (r.1 ++ r'.1, r'.2)) r

def flatten (inner : α → Option (List α)) (n : ℕ) (x : α) : List α := (walk inner n [] x).1

/-! ### Leaves only -/

theorem walkAll_leaf (h : ∀ seen y, ∀ z ∈ (walk inner n seen y).1, Leaf inner y z) (r : List α × List α) :
    ∀ z ∈ (walkAll inner n r ys).1, z ∈ r.1 ∨ ∃ y ∈ ys, Leaf inner y z := by
  induction ys generalizing r with
  | nil => exact fun z hz => Or.inl hz
  | cons y ys ih =>
    intro z hz
    obtain hz | ⟨y', hy', hz⟩ := ih _ z hz
    · obtain hz | hz := List.mem_append.mp hz
      · exact Or.inl hz
      · exact Or.inr ⟨y, List.mem_cons_self, h _ y z hz⟩
    · exact Or.inr ⟨y', List.mem_cons_of_mem _ hy', hz⟩

theorem walk_leaf (n : ℕ) : ∀ seen x, ∀ z ∈ (walk inner n seen x).1, Leaf inner x z := by
  induction n with
  | zero =>
    intro seen x z hz
    cases hz
  | succ n ih =>
    intro seen x z hz
    unfold walk at hz
    split at hz
    · next hnone =>
      rw [List.mem_singleton.mp hz]
      exact .here hnone
    · next ys hsome =>
      split at hz
      · cases hz
      · obtain hz | ⟨y, hy, hz⟩ := walkAll_leaf ih ([], x :: seen) z hz
        · cases hz
        · exact .inside hsome hy hz

/-! ### Groups that agree -/

/-! ### All leaves -/

section All

variable {rank : α → ℕ}

/-- The leaves of `s` are there, or come with a group seen before that is no higher. -/
def Covered (inner : α → Option (List α)) (rank : α → ℕ) (seen out : List α) (s : α) : Prop :=
  ∀ z, Leaf inner s z → z ∈ out ∨ ∃ t ∈ seen, rank t ≤ rank s ∧ Leaf inner t z

/-- What a walk below `b` leaves: what it has newly seen is covered. -/
structure Walked (inner : α → Option (List α)) (rank : α → ℕ) (b : ℕ) (seen : List α) (r : List α × List α) :
    Prop where
  kept : ∀ s ∈ seen, s ∈ r.2
  new : ∀ s ∈ r.2, s ∈ seen ∨ rank s < b ∧ Covered inner rank seen r.1 s

omit [DecidableEq α] in
/-- What is covered when a later walk starts is covered after it. -/
theorem Covered.trans {b : ℕ} {r r' : List α × List α} (hr : Walked inner rank b seen r)
    (h : Covered inner rank r.2 r'.1 s) (hout : ∀ z ∈ r.1, z ∈ r'.1) : Covered inner rank seen r'.1 s := by
  intro z hz
  obtain hz | ⟨t, ht, hle, hz⟩ := h z hz
  · exact Or.inl hz
  · obtain hseen | ⟨-, hcov⟩ := hr.new t ht
    · exact Or.inr ⟨t, hseen, hle, hz⟩
    · obtain hz | ⟨u, hu, hle', hz⟩ := hcov z hz
      · exact Or.inl (hout z hz)
      · exact Or.inr ⟨u, hu, Nat.le_trans hle' hle, hz⟩

omit [DecidableEq α] in
theorem Covered.mono {out' : List α} (h : Covered inner rank seen out s) (hout : ∀ z ∈ out, z ∈ out') :
    Covered inner rank seen out' s :=
  fun z hz => (h z hz).imp_left (hout z)

variable (hacyclic : ∀ x ys, inner x = some ys → ∀ y ∈ ys, rank y < rank x)

theorem walkAll_covered {b : ℕ}
    (h : ∀ seen y, rank y < b → Walked inner rank b seen (walk inner n seen y) ∧
      Covered inner rank seen (walk inner n seen y).1 y)
    (hys : ∀ y ∈ ys, rank y < b) (r : List α × List α) (hr : Walked inner rank b seen r) :
    Walked inner rank b seen (walkAll inner n r ys) ∧ (∀ z ∈ r.1, z ∈ (walkAll inner n r ys).1) ∧
      ∀ y ∈ ys, Covered inner rank seen (walkAll inner n r ys).1 y := by
  induction ys generalizing r with
  | nil => exact ⟨hr, fun _ hz => hz, fun y hy => by cases hy⟩
  | cons y ys ih =>
    obtain ⟨hwalk, hcov⟩ := h r.2 y (hys y List.mem_cons_self)
    have hleft : ∀ z ∈ r.1, z ∈ r.1 ++ (walk inner n r.2 y).1 := fun z => List.mem_append_left _
    have hright : ∀ z ∈ (walk inner n r.2 y).1, z ∈ r.1 ++ (walk inner n r.2 y).1 := fun z => List.mem_append_right _
    have hstep : Walked inner rank b seen (r.1 ++ (walk inner n r.2 y).1, (walk inner n r.2 y).2) := by
      refine ⟨fun s hs => hwalk.kept s (hr.kept s hs), fun s hs => ?_⟩
      obtain hs | ⟨hlt, hs⟩ := hwalk.new s hs
      · exact (hr.new s hs).imp_right fun hnew => ⟨hnew.1, hnew.2.mono hleft⟩
      · right
        exact ⟨hlt, Covered.trans hr (hs.mono hright) hleft⟩
    obtain ⟨hall, hkept, hrest⟩ := ih (fun y' hy' => hys y' (List.mem_cons_of_mem _ hy')) _ hstep
    refine ⟨hall, fun z hz => hkept z (hleft z hz), fun y' hy' => ?_⟩
    obtain rfl | hy' := List.mem_cons.mp hy'
    · have hhere : Covered inner rank seen (r.1 ++ (walk inner n r.2 y').1) y' :=
        @Covered.trans _ _ _ _ _ _ _ (r.1 ++ (walk inner n r.2 y').1, []) hr (hcov.mono hright) hleft
      exact hhere.mono hkept
    · exact hrest y' hy'

include hacyclic in
theorem walk_covered (n : ℕ) : ∀ b seen x, rank x < b → rank x < n →
    Walked inner rank b seen (walk inner n seen x) ∧ Covered inner rank seen (walk inner n seen x).1 x := by
  induction n with
  | zero => exact fun _ _ _ _ hn => absurd hn (Nat.not_lt_zero _)
  | succ n ih =>
    intro b seen x hb hn
    unfold walk
    split
    · next hnone =>
      refine ⟨⟨fun _ hs => hs, fun s hs => Or.inl hs⟩, fun z hz => Or.inl ?_⟩
      rw [(leaf_of_none hnone).mp hz]
      exact List.mem_singleton_self x
    · next ys hsome =>
      split
      · next hseen =>
        exact ⟨⟨fun _ hs => hs, fun s hs => Or.inl hs⟩, fun z hz => Or.inr ⟨x, hseen, Nat.le_refl _, hz⟩⟩
      · -- below `x` the walk cannot meet `x` again, so what it has seen of it does not count
        obtain ⟨hall, -, hcov⟩ := walkAll_covered (b := rank x)
          (fun seen y hy => ih (rank x) seen y hy (by omega)) (hacyclic x ys hsome) ([], x :: seen)
          ⟨fun _ hs => hs, fun s hs => Or.inl hs⟩
        have hdrop : ∀ s, rank s < rank x →
            Covered inner rank (x :: seen) (walkAll inner n ([], x :: seen) ys).1 s →
            Covered inner rank seen (walkAll inner n ([], x :: seen) ys).1 s := by
          intro s hs h z hz
          refine (h z hz).imp_right fun ⟨t, ht, hle, hz⟩ => ?_
          obtain rfl | ht := List.mem_cons.mp ht
          · omega
          · exact ⟨t, ht, hle, hz⟩
        have hx : Covered inner rank seen (walkAll inner n ([], x :: seen) ys).1 x := by
          intro z hz
          obtain ⟨y, hy, hz⟩ := (leaf_of_some hsome).mp hz
          have hlt := hacyclic x ys hsome y hy
          refine (hdrop y hlt (hcov y hy) z hz).imp_right fun ⟨t, ht, hle, hz⟩ => ?_
          exact ⟨t, ht, by omega, hz⟩
        refine ⟨⟨fun s hs => hall.kept s (List.mem_cons_of_mem _ hs), fun s hs => ?_⟩, hx⟩
        obtain hs | ⟨hlt, hs⟩ := hall.new s hs
        · obtain rfl | hs := List.mem_cons.mp hs
          · exact Or.inr ⟨hb, hx⟩
          · exact Or.inl hs
        · exact Or.inr ⟨by omega, hdrop s hlt hs⟩

include hacyclic in
/-- The walk from a node yields its leaves. -/
theorem mem_flatten_iff (hn : rank x < n) : z ∈ flatten inner n x ↔ Leaf inner x z := by
  constructor
  · exact walk_leaf n [] x z
  · intro hz
    obtain hz | ⟨t, ht, -⟩ := (walk_covered hacyclic n (rank x + 1) [] x (by omega) hn).2 z hz
    · exact hz
    · cases ht

end All

end Luwu.Flatten
