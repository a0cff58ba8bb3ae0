import Luwu.Lib.Rearranged
import Luwu.Lib.Run
import Luwu.Table.Boundary

/-!
# `table.sort`

The introsort of the table library over the array part of a table.  A comparison is a call that may answer
anything, may change the state of the program as long as it leaves the table alone, and may raise an error.
An index that is not below `n`, the number of elements to sort, stops the run.
-/

namespace Luwu.Sort

open Arrange

/-- What ends a sort early -/
inductive SortStop (ε : Type)
  | raised (e : ε)
  | error (msg : String)
  | outOfRange

/-- The array part and the state that the comparisons see -/
structure Sorting (α σ : Type) where
  arr : ℕ → α
  world : σ

variable {α σ ε : Type}

abbrev SortM (α σ ε : Type) := EStateM (SortStop ε) (Sorting α σ)

/-- A comparison, from the state of the program to an answer or an error and the state after it -/
abbrev SortPredicate (α σ ε : Type) := σ → α → α → Except ε Bool × σ

section

variable (pred : SortPredicate α σ ε) (n : ℕ)

def sort_swap (i j : ℕ) : SortM α σ ε Unit := do
  if i < n ∧ j < n then modify fun s => { s with arr := swapped s.arr i j } else throw .outOfRange

def sort_less (i j : ℕ) : SortM α σ ε Bool := do
  if i < n ∧ j < n then
    let s ← get
    set { s with world := (pred s.world (s.arr i) (s.arr j)).2 }
    match (pred s.world (s.arr i) (s.arr j)).1 with
    | .ok res => return res
    | .error e => throw (.raised e)
  else throw .outOfRange

/-! ### Heap sort -/

/-- A root that is given up goes to one of its children. -/
theorem child_gt {root : ℕ} {b b' : Bool}
    (h : cond b' (root * 2 + 2) (cond b (root * 2 + 1) root) ≠ root) :
    root < cond b' (root * 2 + 2) (cond b (root * 2 + 1) root) := by
  cases b' with
  | true =>
    show root < root * 2 + 2
    omega
  | false =>
    cases b with
    | true =>
      show root < root * 2 + 1
      omega
    | false => exact absurd rfl h

/-- The elements with two children; the answer is the last root. -/
def siftLoop (l count root : ℕ) : SortM α σ ε ℕ := do
  if _h : root * 2 + 2 < count then
    let left := root * 2 + 1
    let right := root * 2 + 2
    let next := cond (← sort_less pred n (l + root) (l + left)) left root
    let next' := cond (← sort_less pred n (l + next) (l + right)) right next
    if _hn : next' = root then return root
    else
      sort_swap n (l + root) (l + next')
      siftLoop l count next'
  else return root
termination_by count - root
decreasing_by
  have := child_gt _hn
  omega

def sort_siftheap (l u root : ℕ) : SortM α σ ε Unit := do
  let count := u - l + 1
  let root ← siftLoop pred n l count root
  -- the last element has just one child
  let lastleft := root * 2 + 1
  if lastleft = count - 1 then
    if ← sort_less pred n (l + root) (l + lastleft) then sort_swap n (l + root) (l + lastleft)

/-- `for (int i = k - 1; i >= 0; --i)` -/
def heapifyLoop (l u : ℕ) : ℕ → SortM α σ ε Unit
  | 0 => return
  | i + 1 => do
    sort_siftheap pred n l u i
    heapifyLoop l u i

/-- `for (int i = k; i > 0; --i)` -/
def extractLoop (l : ℕ) : ℕ → SortM α σ ε Unit
  | 0 => return
  | i + 1 => do
    sort_swap n l (l + (i + 1))
    sort_siftheap pred n l (l + (i + 1) - 1) 0
    extractLoop l i

def sort_heap (l u : ℕ) : SortM α σ ε Unit := do
  let count := u - l + 1
  heapifyLoop pred n l u (count / 2)
  extractLoop pred n l (count - 1)

/-! ### Quick sort -/

def invalidOrder : SortStop ε := .error "invalid order function for sorting"

/-- `while (sort_less(L, t, ++i, p, pred))` -/
def upLoop (u p i : ℕ) : SortM α σ ε {k : ℕ // i < k ∧ k ≤ max u (i + 1)} := do
  if ← sort_less pred n (i + 1) p then
    if _h : u ≤ i + 1 then throw invalidOrder
    else
      let k ← upLoop u p (i + 1)
      return ⟨k, by omega⟩
  else return ⟨i + 1, by omega⟩
termination_by u - i

/-- `while (sort_less(L, t, p, --j, pred))` -/
def downLoop (l p : ℕ) : (j : ℕ) → SortM α σ ε {k : ℕ // k < j}
  | 0 => throw .outOfRange
  | j + 1 => do
    if ← sort_less pred n p j then
      if j ≤ l then throw invalidOrder
      else
        let k ← downLoop l p j
        return ⟨k, by omega⟩
    else return ⟨j, by omega⟩

/-- The loop that splits a range; the answer is the last `i`. -/
def splitLoop (l u p i j : ℕ) (hij : i ≤ j ∧ j < u) : SortM α σ ε {k : ℕ // i < k ∧ k ≤ u} := do
  let i' ← upLoop pred n u p i
  let j' ← downLoop pred n l p j
  if h : j'.1 < i'.1 then return ⟨i', by omega⟩
  else
    sort_swap n i' j'
    let k ← splitLoop l u p i' j' (by omega)
    return ⟨k, by omega⟩
termination_by j
decreasing_by exact j'.2

/-- `sort_rec`; its loop goes on as a call with the larger half. -/
def sort_rec (l u limit : ℕ) : SortM α σ ε Unit := do
  if hlu : l < u then
    if limit = 0 then sort_heap pred n l u
    else
      if ← sort_less pred n u l then sort_swap n u l
      if u - l = 1 then return
      let m := l + (u - l) / 2
      if ← sort_less pred n m l then sort_swap n m l
      else if ← sort_less pred n u m then sort_swap n m u
      if h2 : u - l ≤ 2 then return
      else
        let p := u - 1
        sort_swap n m p
        let i ← splitLoop pred n l u p l p (by omega)
        sort_swap n p i
        let limit := limit / 2 + limit / 4
        if i - l < u - i then
          sort_rec l (i - 1) limit
          sort_rec (i + 1) u limit
        else
          sort_rec (i + 1) u limit
          sort_rec l (i - 1) limit
termination_by u - l
decreasing_by all_goals omega

end

/-- `tsort`, with the number of elements that its table has -/
def tsort (pred : SortPredicate TValue σ ε) (t : LuaTable) : SortM TValue σ ε Unit := do
  let n := (luaH_getn t).1
  if 0 < n then sort_rec pred n 0 (n - 1) n

end Luwu.Sort

/-!
## Rules for runs of the sort

A run rearranges its range whether it ends with an answer or with an error, and never leaves the range.  Where
the comparison decides a strict weak order, the run has no error and its postcondition holds.
-/

namespace Luwu.Sort

open Arrange

variable {α σ ε β γ : Type} {pred : SortPredicate α σ ε} {lt : α → α → Bool} {S : α → Prop} {n l u i j : ℕ} {s : Sorting α σ}

/-- On the elements in `S` the comparison decides the strict weak order `lt`. -/
def Consistent (pred : SortPredicate α σ ε) (lt : α → α → Bool) (S : α → Prop) : Prop :=
  StrictWeak lt ∧ ∀ w a b, S a → S b → (pred w a b).1 = .ok (lt a b)

/-- The range has elements in `S` only. -/
def Within (S : α → Prop) (l u : ℕ) (a : ℕ → α) : Prop := ∀ k, l ≤ k → k ≤ u → S (a k)

def Spec (pred : SortPredicate α σ ε) (lt : α → α → Bool) (S : α → Prop) (l u : ℕ) (x : SortM α σ ε β)
    (s : Sorting α σ) (post : β → (ℕ → α) → Prop) : Prop :=
  Within S l u s.arr → match x s with
  | .ok b s' => Rearranged l u s.arr s'.arr ∧ (Consistent pred lt S → post b s'.arr)
  | .error e s' => Rearranged l u s.arr s'.arr ∧ e ≠ .outOfRange ∧ ¬Consistent pred lt S

section

variable {x : SortM α σ ε β} {f : β → SortM α σ ε γ} {post : β → (ℕ → α) → Prop} {post' : γ → (ℕ → α) → Prop}

theorem spec_pure {b : β} (h : Consistent pred lt S → post b s.arr) : Spec pred lt S l u (pure b) s post :=
  fun _ => ⟨Rearranged.refl l u s.arr, h⟩

theorem spec_throw {e : SortStop ε} (he : e ≠ .outOfRange) (h : ¬Consistent pred lt S) :
    Spec pred lt S l u (throw e : SortM α σ ε β) s post :=
  fun _ => ⟨Rearranged.refl l u s.arr, he, h⟩

theorem Spec.bind (hx : Spec pred lt S l u x s post)
    (hf : ∀ b s', Rearranged l u s.arr s'.arr → (Consistent pred lt S → post b s'.arr) →
      Spec pred lt S l u (f b) s' post') : Spec pred lt S l u (x >>= f) s post' := by
  intro hin
  have hx := hx hin
  rw [Run.run_bind]
  cases hrun : x s with
  | ok b s' =>
    rw [hrun] at hx
    have hnext := hf b s' hx.1 hx.2 (hx.1.forall hin)
    dsimp only
    cases hrun' : f b s' with
    | ok c s'' =>
      rw [hrun'] at hnext
      exact ⟨hx.1.trans hnext.1, hnext.2⟩
    | error e s'' =>
      rw [hrun'] at hnext
      exact ⟨hx.1.trans hnext.1, hnext.2⟩
  | error e s' =>
    rw [hrun] at hx
    exact hx

theorem Spec.mono {l' u' : ℕ} {post₂ : β → (ℕ → α) → Prop} (h : Spec pred lt S l' u' x s post) (hl : l ≤ l')
    (hu : u' ≤ u)
    (hpost : ∀ b a, Rearranged l' u' s.arr a → Consistent pred lt S → post b a → post₂ b a) :
    Spec pred lt S l u x s post₂ := by
  intro hin
  have h := h fun k hlo hhi => hin k (hl.trans hlo) (hhi.trans hu)
  cases hrun : x s with
  | ok b s' =>
    rw [hrun] at h
    exact ⟨h.1.mono hl hu, fun hc => hpost b s'.arr h.1 hc (h.2 hc)⟩
  | error e s' =>
    rw [hrun] at h
    exact ⟨h.1.mono hl hu, h.2⟩

theorem spec_ite {c : Prop} [Decidable c] {y : SortM α σ ε β} (hx : c → Spec pred lt S l u x s post)
    (hy : ¬c → Spec pred lt S l u y s post) : Spec pred lt S l u (if c then x else y) s post := by
  split
  · next hc => exact hx hc
  · next hc => exact hy hc

end

section

variable {f : Bool → SortM α σ ε γ} {g : Unit → SortM α σ ε γ} {post : γ → (ℕ → α) → Prop}

theorem less_run (hi : i < n) (hj : j < n) :
    sort_less pred n i j s =
      match (pred s.world (s.arr i) (s.arr j)).1 with
      | .ok res => .ok res { s with world := (pred s.world (s.arr i) (s.arr j)).2 }
      | .error e => .error (.raised e) { s with world := (pred s.world (s.arr i) (s.arr j)).2 } := by
  unfold sort_less
  rw [if_pos ⟨hi, hj⟩]
  simp only [Run.run_bind, Run.run_get, Run.run_set]
  cases (pred s.world (s.arr i) (s.arr j)).1 <;> rfl

/-- A comparison leaves the array as it is. -/
theorem spec_less (hu : u < n) (hi : l ≤ i ∧ i ≤ u) (hj : l ≤ j ∧ j ≤ u)
    (hf : ∀ b s', s'.arr = s.arr → (Consistent pred lt S → b = lt (s.arr i) (s.arr j)) →
      Spec pred lt S l u (f b) s' post) : Spec pred lt S l u (sort_less pred n i j >>= f) s post := by
  intro hin
  have hanswer : Consistent pred lt S → (pred s.world (s.arr i) (s.arr j)).1 = .ok (lt (s.arr i) (s.arr j)) :=
    fun hc => hc.2 s.world _ _ (hin i hi.1 hi.2) (hin j hj.1 hj.2)
  rw [Run.run_bind, less_run (by omega) (by omega)]
  cases hans : (pred s.world (s.arr i) (s.arr j)).1 with
  | ok res =>
    rw [hans] at hanswer
    exact hf res { s with world := (pred s.world (s.arr i) (s.arr j)).2 } rfl
      (fun hc => Except.ok.inj (hanswer hc)) hin
  | error e =>
    rw [hans] at hanswer
    refine ⟨Rearranged.refl l u s.arr, nofun, ?_⟩
    intro hc
    cases hanswer hc

theorem swap_run (hi : i < n) (hj : j < n) :
    (sort_swap n i j : SortM α σ ε Unit) s = .ok ⟨⟩ { s with arr := swapped s.arr i j } := by
  unfold sort_swap
  rw [if_pos ⟨hi, hj⟩]
  rfl

theorem spec_swap (hi : l ≤ i ∧ i ≤ u) (hj : l ≤ j ∧ j ≤ u) (hu : u < n)
    (hg : Spec pred lt S l u (g ()) { s with arr := swapped s.arr i j } post) :
    Spec pred lt S l u (sort_swap n i j >>= g) s post := by
  intro hin
  have hswap : Rearranged l u s.arr (swapped s.arr i j) := rearranged_swapped hi hj
  have hg := hg (hswap.forall hin)
  rw [Run.run_bind, swap_run (by omega) (by omega)]
  dsimp only
  cases hrun : g () { s with arr := swapped s.arr i j } with
  | ok c s' =>
    rw [hrun] at hg
    exact ⟨hswap.trans hg.1, hg.2⟩
  | error e s' =>
    rw [hrun] at hg
    exact ⟨hswap.trans hg.1, hg.2⟩

/-- The exchange as the last step -/
theorem spec_swap_last {post : Unit → (ℕ → α) → Prop} (hi : l ≤ i ∧ i ≤ u) (hj : l ≤ j ∧ j ≤ u) (hu : u < n)
    (hpost : Consistent pred lt S → post () (swapped s.arr i j)) :
    Spec pred lt S l u (sort_swap n i j : SortM α σ ε Unit) s post := by
  intro _
  rw [swap_run (by omega) (by omega)]
  exact ⟨rearranged_swapped hi hj, hpost⟩

end

end Luwu.Sort
