import Mathlib.Order.Basic

/-!
# Machines inside a region

A machine takes one step after another. A piece of its program is a region of its states: what the machine does there is
compared with a computation that has fuel. The machine gets to where the result of the computation says, and when the
fuel does not suffice it is still inside the region after as many steps.
-/

namespace Luwu.Regions

variable {σ τ α β : Type*} {step : σ → σ} {P Q : σ → Prop} {F : α → σ → Prop} {G : β → σ → Prop} {c c' c'' : σ}
  {n m : ℕ}

/-- The machine gets from one state to another, and is inside the region until then. -/
inductive Goes (step : σ → σ) (P : σ → Prop) : σ → σ → Prop
  | here (c : σ) : Goes step P c c
  | step {c c' : σ} (h : P c) (rest : Goes step P (step c) c') : Goes step P c c'

/-- The machine is inside the region for `n` steps. -/
def Stays (step : σ → σ) (P : σ → Prop) : ℕ → σ → Prop
  | 0, _ => True
  | n + 1, c => P c ∧ Stays step P n (step c)

theorem Goes.trans (h : Goes step P c c') (h' : Goes step P c' c'') : Goes step P c c'' := by
  induction h with
  | here c => exact h'
  | step hP _ ih => exact .step hP (ih h')

theorem Goes.mono (hsub : ∀ c, Q c → P c) (h : Goes step Q c c') : Goes step P c c' := by
  induction h with
  | here c => exact .here c
  | step hQ _ ih => exact .step (hsub _ hQ) ih

theorem Stays.mono (hsub : ∀ c, Q c → P c) (h : Stays step Q n c) : Stays step P n c := by
  induction n generalizing c with
  | zero => trivial
  | succ n ih => exact ⟨hsub _ h.1, ih h.2⟩

theorem Stays.le (h : Stays step P n c) (hle : m ≤ n) : Stays step P m c := by
  induction m generalizing n c with
  | zero => trivial
  | succ m ih =>
    cases n with
    | zero => omega
    | succ n => exact ⟨h.1, ih h.2 (by omega)⟩

theorem Stays.succ (hP : P c) (h : Stays step P n (step c)) : Stays step P n c :=
  Stays.le (n := n + 1) ⟨hP, h⟩ (Nat.le_succ n)

theorem Goes.stays (h : Goes step P c c') (h' : Stays step P n c') : Stays step P n c := by
  induction h with
  | here c => exact h'
  | step hP _ ih => exact (ih h').succ hP

/-- The way of a deterministic machine out of a region is determined. -/
theorem Goes.unique (h : Goes step P c c') (h' : Goes step P c c'') (hout : ¬P c') (hout' : ¬P c'') : c' = c'' := by
  induction h with
  | here c =>
    cases h' with
    | here => rfl
    | step hP _ => exact absurd hP hout
  | step hP _ ih =>
    cases h' with
    | here => exact absurd hP hout'
    | step _ hrest => exact ih hrest hout

/-! ### The result of a computation -/

/-- The machine gets to a state that the result is related to, or is inside the region for `n` steps. -/
def Meets (step : σ → σ) (P : σ → Prop) (n : ℕ) (F : α → σ → Prop) : Option α → σ → Prop
  | some a, c => ∃ c', Goes step P c c' ∧ F a c'
  | none, c => Stays step P n c

theorem meets_here {a : α} (h : F a c) : Meets step P n F (some a) c := ⟨c, .here c, h⟩

theorem Meets.after_step {r : Option α} (hP : P c) (h : Meets step P n F r (step c)) : Meets step P n F r c := by
  cases r with
  | none => exact Stays.succ hP h
  | some a =>
    obtain ⟨c', hgoes, hF⟩ := h
    exact ⟨c', .step hP hgoes, hF⟩

theorem Meets.mono {r : Option α} (hsub : ∀ c, Q c → P c) (h : Meets step Q n F r c) : Meets step P n F r c := by
  cases r with
  | none => exact Stays.mono hsub h
  | some a =>
    obtain ⟨c', hgoes, hF⟩ := h
    exact ⟨c', hgoes.mono hsub, hF⟩

theorem Meets.weaken {F' : α → σ → Prop} {r : Option α} (h : Meets step P n F r c) (hF : ∀ a c', F a c' → F' a c') :
    Meets step P n F' r c := by
  cases r with
  | none => exact h
  | some a =>
    obtain ⟨c', hgoes, ha⟩ := h
    exact ⟨c', hgoes, hF a c' ha⟩

theorem Goes.meets {r : Option α} (h : Goes step P c c') (h' : Meets step P n F r c') : Meets step P n F r c := by
  induction h with
  | here c => exact h'
  | step hP _ ih => exact (ih h').after_step hP

/-- One computation after the other -/
theorem Meets.bind {r : Option α} {k : α → Option β} (h : Meets step P n F r c)
    (hk : ∀ a c', F a c' → Meets step P n G (k a) c') : Meets step P n G (r.bind k) c := by
  cases r with
  | none => exact h
  | some a =>
    obtain ⟨c', hgoes, hF⟩ := h
    have hnext := hk a c' hF
    show Meets step P n G (k a) c
    cases hr : k a with
    | none =>
      rw [hr] at hnext
      exact hgoes.stays hnext
    | some b =>
      rw [hr] at hnext
      obtain ⟨c'', hgoes', hG⟩ := hnext
      exact ⟨c'', hgoes.trans hgoes', hG⟩

theorem Meets.map {r : Option α} {f : α → β} (h : Meets step P n F r c) (hf : ∀ a c', F a c' → G (f a) c') :
    Meets step P n G (r.map f) c := by
  cases r with
  | none => exact h
  | some a =>
    obtain ⟨c', hgoes, hF⟩ := h
    exact ⟨c', hgoes, hf a c' hF⟩

/-! ### Loops -/

/-- A loop runs its turn until that has a result. -/
def rounds (turn : τ → Option (α ⊕ τ)) : ℕ → τ → Option α
  | 0, _ => none
  | n + 1, t =>
    match turn t with
    | none => none
    | some (.inl a) => some a
    | some (.inr t') => rounds turn n t'

/-- What a turn leads to: the end of the loop, or a step before the head of the loop -/
def AfterTurn (step : σ → σ) (P : σ → Prop) (F : α → σ → Prop) (Head : τ → σ → Prop) : α ⊕ τ → σ → Prop
  | .inl a, c => F a c
  | .inr t, c => P c ∧ Head t (step c)

/-- A machine that takes a step at least between two turns runs the loop. -/
theorem meets_rounds {turn : τ → Option (α ⊕ τ)} (Head : τ → σ → Prop)
    (hturn : ∀ t c, Head t c → Meets step P n (AfterTurn step P F Head) (turn t) c) :
    ∀ m, n ≤ m → ∀ t c, Head t c → Meets step P n F (rounds turn m t) c := by
  have hrun : ∀ m t c, Head t c → Meets step P (min m n) F (rounds turn m t) c := by
    intro m
    induction m with
    | zero =>
      intro t c _
      rw [Nat.zero_min]
      exact trivial
    | succ m ih =>
      intro t c hhead
      have hmeets := hturn t c hhead
      unfold rounds
      cases hr : turn t with
      | none =>
        rw [hr] at hmeets
        exact Stays.le hmeets (Nat.min_le_right _ _)
      | some r =>
        rw [hr] at hmeets
        obtain ⟨c', hgoes, hafter⟩ := hmeets
        cases r with
        | inl a => exact ⟨c', hgoes, hafter⟩
        | inr t' =>
          obtain ⟨hP, hhead'⟩ := hafter
          have hnext := ih t' (step c') hhead'
          show Meets step P (min (m + 1) n) F (rounds turn m t') c
          cases hrest : rounds turn m t' with
          | none =>
            rw [hrest] at hnext
            have hstay : Stays step P (min m n + 1) c' := ⟨hP, hnext⟩
            exact (hgoes.stays hstay).le (by omega)
          | some a =>
            rw [hrest] at hnext
            obtain ⟨c'', hgoes', hF⟩ := hnext
            exact ⟨c'', hgoes.trans (.step hP hgoes'), hF⟩
  intro m hle t c hhead
  have := hrun m t c hhead
  rwa [Nat.min_eq_right hle] at this

end Luwu.Regions
