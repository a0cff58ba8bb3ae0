import Mathlib.Data.Nat.Init

/-!
# Running computations with state and errors

One equation for each step of a computation in `EStateM`, for executing a program in a proof.
-/

namespace Luwu.Run

variable {ε σ α β : Type} {s : σ}

@[simp] theorem run_pure (a : α) : (pure a : EStateM ε σ α) s = .ok a s := rfl

@[simp] theorem run_bind (x : EStateM ε σ α) (f : α → EStateM ε σ β) :
    (x >>= f) s = match x s with
      | .ok a s' => f a s'
      | .error e s' => .error e s' := by
  show EStateM.bind x f s = _
  unfold EStateM.bind
  cases x s <;> rfl

@[simp] theorem run_map (x : EStateM ε σ α) (f : α → β) :
    (f <$> x) s = match x s with
      | .ok a s' => .ok (f a) s'
      | .error e s' => .error e s' := by
  show EStateM.map f x s = _
  unfold EStateM.map
  cases x s <;> rfl

@[simp] theorem run_get : (get : EStateM ε σ σ) s = .ok s s := rfl

@[simp] theorem run_set (s' : σ) : (set s' : EStateM ε σ PUnit) s = .ok ⟨⟩ s' := rfl

@[simp] theorem run_modify (f : σ → σ) : (modify f : EStateM ε σ PUnit) s = .ok ⟨⟩ (f s) := rfl

@[simp] theorem run_throw (e : ε) : (throw e : EStateM ε σ α) s = .error e s := rfl

theorem run_ite (c : Prop) [Decidable c] (x y : EStateM ε σ α) :
    (if c then x else y) s = if c then x s else y s := by
  split <;> rfl

/-! ### Results of computations with errors -/

section Except

variable {x : Except ε α} {g : α → Except ε β} {b : β} {k : PUnit → Except ε β} {e : ε} {c : Prop} [Decidable c]

theorem of_bind_ok (h : (x >>= g) = .ok b) : ∃ a, x = .ok a ∧ g a = .ok b := by
  cases x with
  | error e => cases h
  | ok a => exact ⟨a, rfl, h⟩

theorem of_map_ok {f : α → β} (h : f <$> x = .ok b) : ∃ a, x = .ok a ∧ f a = b := by
  cases x with
  | error e => cases h
  | ok a => exact ⟨a, rfl, Except.ok.inj h⟩

/-- A check that throws was passed. -/
theorem of_check_ok (h : (if c then (throw e : Except ε PUnit) >>= k else k ⟨⟩) = .ok b) : ¬c ∧ k ⟨⟩ = .ok b := by
  split at h
  · cases h
  · next hc => exact ⟨hc, h⟩

theorem check_ok (hc : ¬c) : (if c then (throw e : Except ε PUnit) >>= k else k ⟨⟩) = k ⟨⟩ := if_neg hc

end Except

/-! ### Runs that succeed -/

/-- The run from `s` does not fail, and `Q` holds of its result and of the state it ends in. -/
def Gives (x : EStateM ε σ α) (s : σ) (Q : α → σ → Prop) : Prop := ∃ a s', x s = .ok a s' ∧ Q a s'

section Gives

variable {x : EStateM ε σ α} {f : α → EStateM ε σ β} {Q Q' : α → σ → Prop} {R : β → σ → Prop}

theorem gives_pure {a : α} (h : Q a s) : Gives (pure a : EStateM ε σ α) s Q := ⟨a, s, rfl, h⟩

theorem Gives.bind (hx : Gives x s Q) (hf : ∀ a s', Q a s' → Gives (f a) s' R) : Gives (x >>= f) s R := by
  obtain ⟨a, s', hrun, hq⟩ := hx
  obtain ⟨b, s'', hrun', hr⟩ := hf a s' hq
  exact ⟨b, s'', by rw [run_bind, hrun]; exact hrun', hr⟩

theorem Gives.mono (hx : Gives x s Q) (hQ : ∀ a s', Q a s' → Q' a s') : Gives x s Q' := by
  obtain ⟨a, s', hrun, hq⟩ := hx
  exact ⟨a, s', hrun, hQ a s' hq⟩

theorem gives_get_bind {f : σ → EStateM ε σ β} (h : Gives (f s) s R) : Gives (get >>= f) s R := h

theorem gives_modify_bind {g : σ → σ} {f : PUnit → EStateM ε σ β} (h : Gives (f ⟨⟩) (g s) R) :
    Gives (modify g >>= f) s R := h

theorem gives_ite {c : Prop} [Decidable c] {y : EStateM ε σ α} (hthen : c → Gives x s Q)
    (helse : ¬c → Gives y s Q) : Gives (if c then x else y) s Q := by
  split
  · next hc => exact hthen hc
  · next hc => exact helse hc

/-- A step that is taken under a condition and leaves the state as it is. -/
theorem gives_when {c : Prop} [Decidable c] {y : EStateM ε σ PUnit} {g : PUnit → EStateM ε σ β}
    (hy : c → Gives y s fun _ s' => s' = s) (h : Gives (g ⟨⟩) s R) :
    Gives (if c then y >>= g else g ⟨⟩) s R := by
  apply gives_ite
  · intro hc
    refine (hy hc).bind fun _ s' hs' => ?_
    rw [hs']
    exact h
  · exact fun _ => h

end Gives

end Luwu.Run

/-!
## Computations with fuel

A loop or a recursion that may not end is a family of computations, one for every amount of fuel. It settles when
any larger amount gives the same result, and halts when that result is not that the fuel ran out.
-/

namespace Luwu.Fuel

open Run

variable {ε σ α β : Type} {s s' : σ} {out : ε} {r r' : EStateM.Result ε σ α} {x : ℕ → EStateM ε σ α}
  {f : ℕ → α → EStateM ε σ β}

/-- With enough fuel the run from `s` has the result `r`. -/
def Settles (x : ℕ → EStateM ε σ α) (s : σ) (r : EStateM.Result ε σ α) : Prop := ∃ n, ∀ k ≥ n, x k s = r

/-- With enough fuel the run from `s` has a result, which is not the error `out`. -/
def Halts (out : ε) (x : ℕ → EStateM ε σ α) (s : σ) : Prop := ∃ r, Settles x s r ∧ ∀ s', r ≠ .error out s'

theorem settles_const (y : EStateM ε σ α) (s : σ) : Settles (fun _ => y) s (y s) := ⟨0, fun _ _ => rfl⟩

theorem settles_of_succ (h : ∀ k, x (k + 1) s = r) : Settles x s r := by
  refine ⟨1, fun k hk => ?_⟩
  obtain ⟨j, rfl⟩ : ∃ j, k = j + 1 := ⟨k - 1, by omega⟩
  exact h j

theorem Settles.unique (h : Settles x s r) (h' : Settles x s r') : r = r' := by
  obtain ⟨n, hn⟩ := h
  obtain ⟨m, hm⟩ := h'
  rw [← hn (n + m) (by omega), hm (n + m) (by omega)]

/-- One unit of fuel is spent at the start. -/
theorem Settles.succ {y : ℕ → EStateM ε σ α} (h : Settles y s' r) (hx : ∀ k, x (k + 1) s = y k s') :
    Settles x s r := by
  obtain ⟨n, hn⟩ := h
  refine ⟨n + 1, fun k hk => ?_⟩
  obtain ⟨j, rfl⟩ : ∃ j, k = j + 1 := ⟨k - 1, by omega⟩
  rw [hx j, hn j (by omega)]

theorem Settles.bind_ok {a : α} {q : EStateM.Result ε σ β} (h : Settles x s (.ok a s'))
    (hf : Settles (fun k => f k a) s' q) : Settles (fun k => x k >>= f k) s q := by
  obtain ⟨n, hn⟩ := h
  obtain ⟨m, hm⟩ := hf
  refine ⟨max n m, fun k hk => ?_⟩
  change (x k >>= f k) s = q
  rw [run_bind, hn k (by omega)]
  exact hm k (by omega)

theorem Settles.bind_error {e : ε} (h : Settles x s (.error e s')) :
    Settles (fun k => x k >>= f k) s (.error e s') := by
  obtain ⟨n, hn⟩ := h
  refine ⟨n, fun k hk => ?_⟩
  change (x k >>= f k) s = _
  rw [run_bind, hn k hk]

theorem Halts.succ {y : ℕ → EStateM ε σ α} (h : Halts out y s') (hx : ∀ k, x (k + 1) s = y k s') :
    Halts out x s := by
  obtain ⟨r, hr, hout⟩ := h
  exact ⟨r, hr.succ hx, hout⟩

theorem halts_const {y : EStateM ε σ α} (h : ∀ s', y s ≠ .error out s') : Halts out (fun _ => y) s :=
  ⟨y s, settles_const y s, h⟩

/-- A result that does not depend on the fuel. -/
theorem halts_of_succ (hx : ∀ k, x (k + 1) s = r) (hr : ∀ s', r ≠ .error out s') : Halts out x s :=
  ⟨r, settles_of_succ hx, hr⟩

theorem Halts.bind (h : Halts out x s) (hf : ∀ a s', Settles x s (.ok a s') → Halts out (fun k => f k a) s') :
    Halts out (fun k => x k >>= f k) s := by
  obtain ⟨r, hr, hout⟩ := h
  cases r with
  | ok a s' =>
    obtain ⟨q, hq, hq'⟩ := hf a s' hr
    exact ⟨q, hr.bind_ok hq, hq'⟩
  | error e s' =>
    refine ⟨.error e s', hr.bind_error, fun s'' heq => ?_⟩
    cases heq
    exact hout s' rfl

/-- What a computation that settles does next is decided by the result of its first part. -/
theorem Settles.of_bind {r : EStateM.Result ε σ β} (hr : Settles (fun k => x k >>= f k) s r) (hx : Halts out x s) :
    (∃ e s', Settles x s (.error e s') ∧ r = .error e s') ∨
      ∃ a s', Settles x s (.ok a s') ∧ Settles (fun k => f k a) s' r := by
  obtain ⟨q, hq, -⟩ := hx
  cases q with
  | error e s' => exact Or.inl ⟨e, s', hq, hr.unique hq.bind_error⟩
  | ok a s' =>
    obtain ⟨n, hn⟩ := hq
    obtain ⟨m, hm⟩ := hr
    refine Or.inr ⟨a, s', ⟨n, hn⟩, n + m, fun k hk => ?_⟩
    have hrun : (x k >>= f k) s = r := hm k (by omega)
    rwa [run_bind, hn k (by omega)] at hrun

end Luwu.Fuel
