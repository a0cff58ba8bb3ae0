import Luwu.Deque.Refines

/-!
# Programs with VecDeque

A program has any number of queues and does its operations on them one after the other.  Each queue is the list that the operations on
it say (`DequeOp.spec`).  Where an assertion of the code fails, there is no such operation on the list.
-/

namespace Luwu.Deque

open Function Luwu.Storage Luwu.RingBuffer

/-- An operation on the queues with these numbers.  A new queue takes the place of one that is destroyed. -/
inductive DequeOp (α : Type) where
  | construct (q : ℕ)
  | copy (q other : ℕ)
  | assign (q other : ℕ)
  | move (q other : ℕ)
  | push_back (q : ℕ) (value : α)
  | push_front (q : ℕ) (value : α)
  | pop_back (q : ℕ)
  | pop_front (q : ℕ)
  | reserve (q new_capacity : ℕ)
  | shrink_to_fit (q : ℕ)
  | clear (q : ℕ)
  | at (q pos : ℕ)
  | index (q pos : ℕ)
  | store (q pos : ℕ) (value : α)
  | front (q : ℕ)
  | back (q : ℕ)
  | size (q : ℕ)

inductive DequeAnswer (α : Type) where
  | done
  | element (a : α)
  | size (n : ℕ)
  | out_of_range
  | length_error

section Run

variable {α : Type}

/-- What is done to one queue -/
def changed (s : ℕ → VecDeque α) (q : ℕ) (x : DequeM (VecDeque α)) : DequeM ((ℕ → VecDeque α) × DequeAnswer α) := do
  let q' ← x
  return (update s q q', .done)

/-- `buffer[logicalToPhysical(pos)]` -/
def element (q : VecDeque α) (pos : ℕ) : DequeM (DequeAnswer α) := do
  let p ← q.logicalToPhysical pos
  let a ← orFault (q.buffer.read p)
  return .element a

/-- `sizeof(T)` is `size`. -/
def DequeOp.exec (size : ℕ) (room : ℕ → Bool) (s : ℕ → VecDeque α) : DequeOp α → DequeM ((ℕ → VecDeque α) × DequeAnswer α)
  | .construct q => do
    (s q).destruct
    return (update s q .default, .done)
  | .copy q other => do
    let q' ← (s other).copy room
    (s q).destruct
    return (update s q q', .done)
  | .assign q other => if q = other then .ok (s, .done) else changed s q ((s q).assign room (s other))
  | .move q other =>
    if q = other then .ok (s, .done)
    else do
      (s q).destruct
      return (update (update s q (s other)) other .default, .done)
  | .push_back q value => changed s q ((s q).push_back room size value)
  | .push_front q value => changed s q ((s q).push_front room size value)
  | .pop_back q => changed s q (s q).pop_back
  | .pop_front q => changed s q (s q).pop_front
  | .reserve q new_capacity =>
    if max_size size < new_capacity then .ok (s, .length_error) else changed s q ((s q).reserve room new_capacity)
  | .shrink_to_fit q => changed s q ((s q).shrink_to_fit room)
  | .clear q => changed s q (s q).clear
  | .at q pos =>
    if (s q).queue_size ≤ pos then .ok (s, .out_of_range)
    else do
      let a ← element (s q) pos
      return (s, a)
  | .index q pos => do
    assertion (decide (pos < (s q).queue_size))
    let a ← element (s q) pos
    return (s, a)
  | .store q pos value => do
    assertion (decide (pos < (s q).queue_size))
    let p ← (s q).logicalToPhysical pos
    let buffer ← orFault ((s q).buffer.assign p value)
    return (update s q { s q with buffer := buffer }, .done)
  | .front q => do
    let a ← (s q).front
    return (s, .element a)
  | .back q => do
    let a ← (s q).back
    return (s, .element a)
  | .size q => .ok (s, .size (s q).queue_size)

/-- The operations, each with what the allocator says then; what throws for want of memory, or fails an assertion, ends the run. -/
def DequeOp.run (size : ℕ) : List (DequeOp α × (ℕ → Bool)) → (ℕ → VecDeque α) → DequeM ((ℕ → VecDeque α) × List (DequeAnswer α))
  | [], s => .ok (s, [])
  | (op, room) :: ops, s => do
    let (s, answer) ← op.exec size room s
    let (s, answers) ← DequeOp.run size ops s
    return (s, answer :: answers)

/-! ### Lists -/

/-- What there is of an element -/
def elementOf (m : ℕ → List α) : Option α → DequeM ((ℕ → List α) × DequeAnswer α)
  | some a => .ok (m, .element a)
  | none => .error .assertion

/-- What an operation does to the lists -/
def DequeOp.spec (size : ℕ) (m : ℕ → List α) : DequeOp α → DequeM ((ℕ → List α) × DequeAnswer α)
  | .construct q => .ok (update m q [], .done)
  | .copy q other => .ok (update m q (m other), .done)
  | .assign q other => .ok (update m q (m other), .done)
  | .move q other => .ok (if q = other then m else update (update m q (m other)) other [], .done)
  | .push_back q value => .ok (update m q (m q ++ [value]), .done)
  | .push_front q value => .ok (update m q (value :: m q), .done)
  | .pop_back q => if m q = [] then .error .assertion else .ok (update m q (m q).dropLast, .done)
  | .pop_front q => if m q = [] then .error .assertion else .ok (update m q (m q).tail, .done)
  | .reserve _ new_capacity => .ok (m, if max_size size < new_capacity then .length_error else .done)
  | .shrink_to_fit _ => .ok (m, .done)
  | .clear q => .ok (update m q [], .done)
  | .at q pos =>
    match (m q)[pos]? with
    | some a => .ok (m, .element a)
    | none => .ok (m, .out_of_range)
  | .index q pos => elementOf m (m q)[pos]?
  | .store q pos value => if pos < (m q).length then .ok (update m q ((m q).set pos value), .done) else .error .assertion
  | .front q => elementOf m (m q).head?
  | .back q => elementOf m (m q).getLast?
  | .size q => .ok (m, .size (m q).length)

def DequeOp.specRun (size : ℕ) : List (DequeOp α) → (ℕ → List α) → DequeM ((ℕ → List α) × List (DequeAnswer α))
  | [], m => .ok (m, [])
  | op :: ops, m => do
    let (m, answer) ← op.spec size m
    let (m, answers) ← DequeOp.specRun size ops m
    return (m, answer :: answers)

theorem elementOf_error {m : ℕ → List α} {o : Option α} {e : Stop} (h : elementOf m o = .error e) : e = .assertion := by
  cases o with
  | none => exact (Except.error.inj h).symm
  | some a => cases h

theorem spec_error {size : ℕ} {m : ℕ → List α} {op : DequeOp α} {e : Stop} (h : op.spec size m = .error e) : e = .assertion := by
  have hite : ∀ {c : Prop} [Decidable c] {r : (ℕ → List α) × DequeAnswer α},
      (if c then (.error .assertion : DequeM _) else .ok r) = .error e ∨ (if c then .ok r else (.error .assertion : DequeM _)) = .error e →
        e = .assertion := by
    intro c _ r h
    by_cases hc : c
    · simpa [hc, eq_comm] using h
    · simpa [hc, eq_comm] using h
  cases op with
  | pop_back q => exact hite (Or.inl h)
  | pop_front q => exact hite (Or.inl h)
  | store q pos value => exact hite (Or.inr h)
  | index q pos => exact elementOf_error h
  | front q => exact elementOf_error h
  | back q => exact elementOf_error h
  | «at» q pos =>
    rw [DequeOp.spec] at h
    cases hget : (m q)[pos]? with
    | none =>
      rw [hget] at h
      cases h
    | some a =>
      rw [hget] at h
      cases h
  | _ => cases h

theorem specRun_error {size : ℕ} {ops : List (DequeOp α)} {m : ℕ → List α} {e : Stop} (h : DequeOp.specRun size ops m = .error e) :
    e = .assertion := by
  induction ops generalizing m with
  | nil => cases h
  | cons op ops ih =>
    rw [DequeOp.specRun] at h
    cases hop : op.spec size m with
    | error e' =>
      rw [hop] at h
      obtain rfl := Except.error.inj h
      exact spec_error hop
    | ok r =>
      rw [hop] at h
      dsimp only [bind, Except.bind] at h
      cases hrest : DequeOp.specRun size ops r.1 with
      | error e' =>
        rw [hrest] at h
        obtain rfl := Except.error.inj h
        exact ih hrest
      | ok r' =>
        rw [hrest] at h
        cases h

/-! ### The simulation -/

/-- Every queue holds its list. -/
def Simulates (s : ℕ → VecDeque α) (m : ℕ → List α) : Prop := ∀ q, Holds (s q) (m q)

variable {s s' : ℕ → VecDeque α} {m m' : ℕ → List α} {q other pos size : ℕ} {room : ℕ → Bool}

theorem Simulates.update (h : Simulates s m) (q : ℕ) {q' : VecDeque α} {l : List α} (H : Holds q' l) :
    Simulates (update s q q') (update m q l) := by
  intro i
  by_cases he : i = q
  · rw [he, update_self, update_self]
    exact H
  · rw [update_of_ne he, update_of_ne he]
    exact h i

/-- The outcome is that of the lists, or there was no memory. -/
def Matches {β : Type} (x : DequeM ((ℕ → VecDeque α) × β)) (y : DequeM ((ℕ → List α) × β)) : Prop :=
  x = .error .badalloc ∨ match y with
    | .ok (m, answer) => ∃ s, x = .ok (s, answer) ∧ Simulates s m
    | .error e => x = .error e

theorem matches_changed (h : Simulates s m) (q : ℕ) {x : DequeM (VecDeque α)} {l : List α} (hx : Yields x fun q' => Holds q' l) :
    Matches (changed s q x) (.ok (update m q l, .done)) := by
  rcases hx with rfl | ⟨q', rfl, H⟩
  · exact Or.inl rfl
  · exact Or.inr ⟨_, rfl, h.update q H⟩

theorem matches_kept (h : Simulates s m) (q : ℕ) {x : DequeM (VecDeque α)} (hx : Yields x fun q' => Holds q' (m q)) :
    Matches (changed s q x) (.ok (m, .done)) := by
  have := matches_changed h q hx
  rwa [update_eq_self] at this

theorem element_eq (h : Simulates s m) (hpos : pos < (m q).length) : element (s q) pos = .ok (.element (m q)[pos]) := by
  obtain ⟨p, hp, hread, -⟩ := element_spec (h q) hpos
  unfold element
  rw [hp]
  dsimp only [bind, Except.bind]
  rw [hread]
  rfl

/-- **An operation** does to the queues what it does to the lists. -/
theorem exec_matches (h : Simulates s m) (op : DequeOp α) : Matches (op.exec size room s) (op.spec size m) := by
  cases op with
  | construct q =>
    refine Or.inr ⟨_, ?_, h.update q holds_default⟩
    rw [DequeOp.exec]
    rw [destruct_spec (h q)]
    rfl
  | copy q other =>
    rcases @copy_spec _ _ _ room (h other) with hrun | ⟨q', hrun, H⟩
    · refine Or.inl ?_
      rw [DequeOp.exec]
      rw [hrun]
      rfl
    · refine Or.inr ⟨_, ?_, h.update q H⟩
      rw [DequeOp.exec]
      rw [hrun]
      dsimp only [bind, Except.bind]
      rw [destruct_spec (h q)]
      rfl
  | assign q other =>
    rw [DequeOp.exec, DequeOp.spec]
    by_cases he : q = other
    · rw [if_pos he, he, update_eq_self]
      exact Or.inr ⟨s, rfl, h⟩
    · rw [if_neg he]
      exact matches_changed h q (assign_spec (h q) (h other))
  | move q other =>
    rw [DequeOp.exec, DequeOp.spec]
    by_cases he : q = other
    · rw [if_pos he, if_pos he]
      exact Or.inr ⟨s, rfl, h⟩
    · rw [if_neg he, if_neg he, destruct_spec (h q)]
      exact Or.inr ⟨_, rfl, (h.update q (h other)).update other holds_default⟩
  | push_back q value => exact matches_changed h q (push_back_spec (h q) value)
  | push_front q value => exact matches_changed h q (push_front_spec (h q) value)
  | pop_back q =>
    have H := h q
    rw [DequeOp.exec, DequeOp.spec]
    rcases List.eq_nil_or_concat (m q) with hnil | ⟨l, a, hl⟩
    · rw [if_pos hnil]
      rw [hnil] at H
      refine Or.inr ?_
      unfold VecDeque.pop_back
      rw [H.isEmpty]
      rfl
    · rw [List.concat_eq_append] at hl
      rw [hl] at H ⊢
      rw [if_neg (by simp), List.dropLast_concat]
      obtain ⟨q', hrun, H'⟩ := pop_back_spec H
      exact matches_changed h q (Or.inr ⟨q', hrun, H'⟩)
  | pop_front q =>
    have H := h q
    rw [DequeOp.exec, DequeOp.spec]
    cases hl : m q with
    | nil =>
      rw [if_pos rfl]
      rw [hl] at H
      refine Or.inr ?_
      unfold VecDeque.pop_front
      rw [H.isEmpty]
      rfl
    | cons a l =>
      rw [hl] at H
      rw [if_neg (by simp), List.tail_cons]
      obtain ⟨q', hrun, H'⟩ := pop_front_spec H
      exact matches_changed h q (Or.inr ⟨q', hrun, H'⟩)
  | reserve q new_capacity =>
    rw [DequeOp.exec, DequeOp.spec]
    by_cases hmax : max_size size < new_capacity
    · rw [if_pos hmax, if_pos hmax]
      exact Or.inr ⟨s, rfl, h⟩
    · rw [if_neg hmax, if_neg hmax]
      exact matches_kept h q (reserve_spec (h q) new_capacity)
  | shrink_to_fit q => exact matches_kept h q (shrink_to_fit_spec (h q))
  | clear q =>
    obtain ⟨q', hrun, H⟩ := clear_spec (h q)
    exact matches_changed h q (Or.inr ⟨q', hrun, H⟩)
  | «at» q pos =>
    rw [DequeOp.exec, DequeOp.spec]
    rw [(h q).size]
    rcases Nat.lt_or_ge pos (m q).length with hpos | hpos
    · rw [if_neg (by omega), element_eq h hpos, List.getElem?_eq_getElem hpos]
      exact Or.inr ⟨s, rfl, h⟩
    · rw [if_pos hpos, List.getElem?_eq_none hpos]
      exact Or.inr ⟨s, rfl, h⟩
  | index q pos =>
    rw [DequeOp.exec, DequeOp.spec]
    rw [(h q).size]
    rcases Nat.lt_or_ge pos (m q).length with hpos | hpos
    · rw [decide_eq_true hpos, List.getElem?_eq_getElem hpos]
      dsimp only [assertion, bind, Except.bind]
      rw [if_pos rfl, element_eq h hpos]
      exact Or.inr ⟨s, rfl, h⟩
    · rw [decide_eq_false (by omega), List.getElem?_eq_none hpos]
      exact Or.inr rfl
  | store q pos value =>
    rw [DequeOp.exec, DequeOp.spec]
    rw [(h q).size]
    by_cases hpos : pos < (m q).length
    · obtain ⟨p, hp, -, hstore⟩ := element_spec (h q) hpos
      obtain ⟨b, hb, H⟩ := hstore value
      rw [decide_eq_true hpos, if_pos hpos, hp]
      dsimp only [assertion, bind, Except.bind]
      rw [if_pos rfl, hb]
      exact Or.inr ⟨_, rfl, h.update q H⟩
    · rw [decide_eq_false hpos, if_neg hpos]
      exact Or.inr rfl
  | front q =>
    have H := h q
    rw [DequeOp.exec, DequeOp.spec]
    cases hl : m q with
    | nil =>
      rw [hl] at H
      unfold VecDeque.front
      rw [H.isEmpty]
      exact Or.inr rfl
    | cons a l =>
      rw [hl] at H
      rw [front_spec H]
      exact Or.inr ⟨s, rfl, h⟩
  | back q =>
    have H := h q
    rw [DequeOp.exec, DequeOp.spec]
    rcases List.eq_nil_or_concat (m q) with hnil | ⟨l, a, hl⟩
    · rw [hnil] at H ⊢
      unfold VecDeque.back
      rw [H.isEmpty]
      exact Or.inr rfl
    · rw [List.concat_eq_append] at hl
      rw [hl] at H ⊢
      rw [back_spec H, List.getLast?_concat]
      exact Or.inr ⟨s, rfl, h⟩
  | size q =>
    rw [DequeOp.exec, DequeOp.spec]
    rw [(h q).size]
    exact Or.inr ⟨s, rfl, h⟩

/-- A program does to the queues what it does to the lists. -/
theorem run_matches (h : Simulates s m) (ops : List (DequeOp α × (ℕ → Bool))) :
    Matches (DequeOp.run size ops s) (DequeOp.specRun size (ops.map Prod.fst) m) := by
  induction ops generalizing s m with
  | nil => exact Or.inr ⟨s, rfl, h⟩
  | cons op ops ih =>
    obtain ⟨op, room⟩ := op
    rw [List.map_cons, DequeOp.run, DequeOp.specRun]
    rcases @exec_matches _ _ _ size room h op with hbad | hmatch
    · rw [hbad]
      exact Or.inl rfl
    cases hspec : op.spec size m with
    | error e =>
      rw [hspec] at hmatch
      rw [hmatch]
      exact Or.inr rfl
    | ok r =>
      obtain ⟨m', answer⟩ := r
      rw [hspec] at hmatch
      obtain ⟨s', hexec, h'⟩ := hmatch
      rw [hexec]
      dsimp only [bind, Except.bind]
      rcases ih h' with hbad | hrest
      · rw [hbad]
        exact Or.inl rfl
      cases hspecs : DequeOp.specRun size (ops.map Prod.fst) m' with
      | error e =>
        rw [hspecs] at hrest
        rw [hrest]
        exact Or.inr rfl
      | ok r =>
        obtain ⟨m'', answers⟩ := r
        rw [hspecs] at hrest
        obtain ⟨s'', hrun, h''⟩ := hrest
        rw [hrun]
        exact Or.inr ⟨s'', rfl, h''⟩

end Run

end Luwu.Deque
