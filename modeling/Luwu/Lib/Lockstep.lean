/-!
# Loops that run in lockstep

A loop binds something in every turn, as long as its iterator has more, and then runs a body that changes the world. Two
loops with different iterators are the same loop when the same bodies lead them through the same worlds and bindings,
and they end at the same point.
-/

namespace Luwu.Lockstep

variable {ε σ ι ι' β : Type} {step : σ → ι → Except ε (Option (β × ι))} {step' : σ → ι' → Except ε (Option (β × ι'))}
  {body : β → σ → σ → Prop} {w₀ w : σ} {i₀ i : ι} {i₀' i' : ι'} {bs : List β}

/-- The bindings of the turns so far, with the world and the iterator that they lead to -/
inductive Looped (step : σ → ι → Except ε (Option (β × ι))) (body : β → σ → σ → Prop) (w₀ : σ) (i₀ : ι) :
    List β → σ → ι → Prop
  | start : Looped step body w₀ i₀ [] w₀ i₀
  | turn {bs : List β} {w w' : σ} {i j : ι} {b : β} (before : Looped step body w₀ i₀ bs w i)
      (next : step w i = .ok (some (b, j))) (run : body b w w') : Looped step body w₀ i₀ (bs ++ [b]) w' j

/-- Two iterators bind the same, or both end the loop. -/
def SameNext (x : Except ε (Option (β × ι))) (y : Except ε (Option (β × ι'))) : Prop :=
  (∃ b j j', x = .ok (some (b, j)) ∧ y = .ok (some (b, j'))) ∨ x = .ok none ∧ y = .ok none

/-- From `w₀` the loops run through the same worlds and bindings, and end at the same point. -/
def SameLoop (step : σ → ι → Except ε (Option (β × ι))) (step' : σ → ι' → Except ε (Option (β × ι')))
    (body : β → σ → σ → Prop) (w₀ : σ) (i₀ : ι) (i₀' : ι') : Prop :=
  (∀ bs w i, Looped step body w₀ i₀ bs w i →
    ∃ i', Looped step' body w₀ i₀' bs w i' ∧ SameNext (step w i) (step' w i')) ∧
  ∀ bs w i', Looped step' body w₀ i₀' bs w i' →
    ∃ i, Looped step body w₀ i₀ bs w i ∧ SameNext (step w i) (step' w i')

/-- What a relation between the iterators must give in every world for the loops to be the same: both bind the same and
remain related after any body, or both end. -/
def Linked (step : σ → ι → Except ε (Option (β × ι))) (step' : σ → ι' → Except ε (Option (β × ι')))
    (body : β → σ → σ → Prop) (R : σ → ι → ι' → Prop) : Prop :=
  ∀ w i i', R w i i' →
    (∃ b j j', step w i = .ok (some (b, j)) ∧ step' w i' = .ok (some (b, j')) ∧ ∀ w', body b w w' → R w' j j') ∨
    step w i = .ok none ∧ step' w i' = .ok none

theorem Linked.sameNext {R : σ → ι → ι' → Prop} (h : Linked step step' body R) (hR : R w i i') :
    SameNext (step w i) (step' w i') :=
  (h w i i' hR).imp_left fun ⟨b, j, j', hx, hy, _⟩ => ⟨b, j, j', hx, hy⟩

/-- One loop drags the other along. -/
theorem Linked.looped {R : σ → ι → ι' → Prop} (h : Linked step step' body R) (h₀ : R w₀ i₀ i₀')
    (hloop : Looped step body w₀ i₀ bs w i) : ∃ i', Looped step' body w₀ i₀' bs w i' ∧ R w i i' := by
  induction hloop with
  | start => exact ⟨i₀', .start, h₀⟩
  | @turn bs w w' i j b before next run ih =>
    obtain ⟨i', hbefore, hR⟩ := ih
    rcases h w i i' hR with ⟨b', k, k', hx, hy, hbody⟩ | ⟨hx, -⟩
    · cases next.symm.trans hx
      exact ⟨k', hbefore.turn hy run, hbody w' run⟩
    · cases next.symm.trans hx

theorem Linked.swap {R : σ → ι → ι' → Prop} (h : Linked step step' body R) :
    Linked step' step body fun w i' i => R w i i' := by
  intro w i' i hR
  rcases h w i i' hR with ⟨b, j, j', hx, hy, hbody⟩ | ⟨hx, hy⟩
  · exact Or.inl ⟨b, j', j, hy, hx, hbody⟩
  · exact Or.inr ⟨hy, hx⟩

theorem Linked.sameLoop {R : σ → ι → ι' → Prop} (h : Linked step step' body R) (h₀ : R w₀ i₀ i₀') :
    SameLoop step step' body w₀ i₀ i₀' := by
  constructor
  · intro bs w i hloop
    obtain ⟨i', hloop', hR⟩ := h.looped h₀ hloop
    exact ⟨i', hloop', h.sameNext hR⟩
  · intro bs w i' hloop'
    obtain ⟨i, hloop, hR⟩ := h.swap.looped h₀ hloop'
    exact ⟨i, hloop, h.sameNext hR⟩

/-- What a loop binds in its turns -/
theorem Looped.bound {P : β → Prop} (hP : ∀ w i b j, step w i = .ok (some (b, j)) → P b)
    (h : Looped step body w₀ i₀ bs w i) : ∀ b ∈ bs, P b := by
  induction h with
  | start => exact fun b hb => absurd hb List.not_mem_nil
  | @turn bs w w' i j b before next run ih =>
    intro b' hb'
    rcases List.mem_append.mp hb' with hmem | hmem
    · exact ih b' hmem
    · rw [List.mem_singleton.mp hmem]
      exact hP w i b j next

end Luwu.Lockstep
