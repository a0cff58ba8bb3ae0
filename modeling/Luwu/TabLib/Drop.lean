import Luwu.TabLib.Functions

/-!
# `table.drop`

One pass copies the elements that stay to the front, and the places that are left at the end are cleared.  The elements are
those up to the length, a border inside the array part, so every write goes to a slot of the array part and succeeds.

Equality is the raw one, except that `tm` may answer for two tables, userdata or objects that have a comparison in common.
-/

namespace Luwu.TabLib

open Checked

/-- `equalobj`, with the answers of the comparisons that metatables and classes define -/
def equalobj (tm : TValue → TValue → Option Bool) (o1 o2 : TValue) : Bool :=
  match o1, o2 with
  | .gc .table _, .gc .table _ | .gc .userdata _, .gc .userdata _ | .gc .luaobject _, .gc .luaobject _ =>
    (tm o1 o2).getD (luaO_rawequalObj o1 o2)
  | _, _ => luaO_rawequalObj o1 o2

/-- `for (int i = a; i <= b; ++i)` -/
def fromTo (a b : ℤ) : List ℤ := (List.range (b + 1 - a).toNat).map fun i => a + (i : ℕ)

/-- The loop of `tdrop`; the answer is `writeIndex` and `removed`. -/
def dropLoop (c : Call) (equal : TValue → Bool) (maxRemoved : ℤ) : List ℤ → ℤ → ℤ → LibM (ℤ × ℤ)
  | [], writeIndex, removed => pure (writeIndex, removed)
  | i :: is, writeIndex, removed => do
    let e ← lua_rawgeti c 1 i
    if removed < maxRemoved ∧ equal e then
      dropLoop c equal maxRemoved is writeIndex (← checked (Checked.add 32 removed 1))
    else
      lua_rawseti c 1 writeIndex e
      dropLoop c equal maxRemoved is (← checked (Checked.add 32 writeIndex 1)) removed

def clearLoop (c : Call) : List ℤ → LibM Unit
  | [] => pure ⟨⟩
  | i :: is => do
    lua_rawseti c 1 i .nil
    clearLoop c is

/-- A value that is missing, and a count that is nil or missing, are `none`. -/
def tdrop (c : Call) (tm : TValue → TValue → Option Bool) (v : Option TValue) (count : Option ℤ) : LibM ℤ :=
  match v with
  | none => throw (.error "missing argument #2")
  | some v => do
    let n ← lua_objlen c 1
    let maxRemoved := count.getD INT_MAX
    if count.isSome then argcheck (0 < maxRemoved) 3 "count must be greater than 0"
    if c.readonly (c.base 1) then throw .readonly
    let (writeIndex, removed) ← dropLoop c (equalobj tm v) maxRemoved (fromTo 1 n) 1 0
    clearLoop c (fromTo writeIndex n)
    return removed

/-! ### Dropping from a list -/

section Lists

variable {α : Type} {p : α → Bool} {x : α} {xs : List α} {k : ℕ}

/-- A list without the first `k` elements that `p` accepts -/
def dropped (p : α → Bool) (k : ℕ) (xs : List α) : List α := (List.eraseP p)^[k] xs

theorem dropped_zero (p : α → Bool) (xs : List α) : dropped p 0 xs = xs := rfl

theorem dropped_nil (p : α → Bool) (k : ℕ) : dropped p k [] = [] := by
  induction k with
  | zero => rfl
  | succ k ih =>
    unfold dropped at ih ⊢
    rw [Function.iterate_succ_apply, List.eraseP_nil]
    exact ih

theorem dropped_cons_of_pos (h : p x = true) : dropped p (k + 1) (x :: xs) = dropped p k xs := by
  unfold dropped
  rw [Function.iterate_succ_apply, List.eraseP_cons_of_pos h]

theorem dropped_cons_of_neg (h : p x = false) : dropped p k (x :: xs) = x :: dropped p k xs := by
  induction k generalizing xs with
  | zero => rfl
  | succ k ih =>
    have hx : ¬p x = true := by
      rw [h]
      exact Bool.false_ne_true
    unfold dropped at ih ⊢
    rw [Function.iterate_succ_apply, Function.iterate_succ_apply, List.eraseP_cons_of_neg hx]
    exact ih

/-- As many elements go as are accepted, at most `k`. -/
theorem length_dropped (p : α → Bool) (k : ℕ) (xs : List α) :
    (dropped p k xs).length + min k (xs.countP p) = xs.length := by
  induction xs generalizing k with
  | nil => rw [dropped_nil, List.countP_nil, Nat.min_zero, Nat.add_zero]
  | cons x xs ih =>
    cases hx : p x with
    | false =>
      rw [dropped_cons_of_neg hx, List.countP_cons_of_neg (by rw [hx]; exact Bool.false_ne_true), List.length_cons,
        List.length_cons, ← ih k]
      omega
    | true =>
      cases k with
      | zero => rw [dropped_zero, Nat.zero_min, Nat.add_zero]
      | succ k =>
        rw [dropped_cons_of_pos hx, List.countP_cons_of_pos hx, List.length_cons, ← ih k]
        omega

end Lists

/-! ### Writing a list -/

section Written

variable {g g₁ g₂ : Cells} {p : GCPtr} {w a b : ℤ} {x : TValue} {xs ys : List TValue}

/-- The places from `w` on have the elements of the list, and nothing else changes. -/
structure Written (g g' : Cells) (p : GCPtr) (w : ℤ) (xs : List TValue) : Prop where
  set : ∀ (j : ℕ) x, xs[j]? = some x → g' (cell p (w + j)) = x
  kept : ∀ q k, (q = p → ∀ j < xs.length, isNumberEq k (w + j) = false) → g' (q, k) = g (q, k)

theorem written_nil (g : Cells) (p : GCPtr) (w : ℤ) : Written g g p w [] :=
  ⟨fun j x hx => by simp at hx, fun _ _ _ => rfl⟩

theorem written_assign (hw : Fits 32 w) (g : Cells) (p : GCPtr) (x : TValue) : Written g (g.assign p w x) p w [x] := by
  constructor
  · intro j y hy
    cases j with
    | zero =>
      obtain rfl : x = y := Option.some.inj hy
      rw [Nat.cast_zero, add_zero]
      exact assign_self hw g p x
    | succ j => simp at hy
  · intro q k hk
    apply assign_other hw g x
    intro hq
    have hzero := hk hq 0 Nat.zero_lt_one
    rwa [Nat.cast_zero, add_zero] at hzero

theorem Written.append (h₁ : Written g g₁ p w xs) (h₂ : Written g₁ g₂ p (w + xs.length) ys) (h0 : 1 ≤ w)
    (hfits : w + xs.length + ys.length ≤ 2 ^ 30) : Written g g₂ p w (xs ++ ys) := by
  constructor
  · intro j x hx
    by_cases hj : j < xs.length
    · rw [List.getElem?_append_left hj] at hx
      rw [← h₁.set j x hx]
      apply h₂.kept
      intro _ i hi
      rw [← Bool.not_eq_true]
      intro he
      have hj' : Fits 32 (w + j) := fits_int (by omega) (by unfold INT_MAX; omega)
      have hi' : Fits 32 (w + xs.length + i) := fits_int (by omega) (by unfold INT_MAX; omega)
      have := isNumberEq_inj hj' hi' (isNumberEq_cast_num hj') he
      omega
    · rw [List.getElem?_append_right (by omega)] at hx
      have hset := h₂.set (j - xs.length) x hx
      rwa [show w + xs.length + ((j - xs.length : ℕ) : ℤ) = w + j by omega] at hset
  · intro q k hk
    rw [List.length_append] at hk
    rw [h₂.kept q k fun hq j hj => ?_, h₁.kept q k fun hq j hj => hk hq j (by omega)]
    have hat := hk hq (xs.length + j) (by omega)
    rwa [Nat.cast_add, ← add_assoc] at hat

theorem fromTo_of_lt (h : b < a) : fromTo a b = [] := by
  unfold fromTo
  rw [show (b + 1 - a).toNat = 0 by omega]
  rfl

theorem fromTo_cons (h : a ≤ b) : fromTo a b = a :: fromTo (a + 1) b := by
  unfold fromTo
  rw [show (b + 1 - a).toNat = (b + 1 - (a + 1)).toNat + 1 by omega, List.range_succ_eq_map, List.map_cons, List.map_map]
  congr 1
  · simp
  · apply List.map_congr_left
    intro i _
    show a + ((i + 1 : ℕ) : ℤ) = a + 1 + i
    push_cast
    ring

end Written

/-! ### The loops -/

section Loops

variable {c : Call} {h : Tables} {g : Cells} {equal : TValue → Bool} {maxRemoved i w r n : ℤ} {ys : List TValue}

theorem bind_ok {α β : Type} {x : LibM α} {f : α → LibM β} {a : α} {h' : Tables} (hx : x h = .ok a h') :
    (x >>= f) h = f a h' := by
  show EStateM.bind x f h = _
  unfold EStateM.bind
  rw [hx]

/-- The elements from `i` on -/
def Elements (g : Cells) (p : GCPtr) (i : ℤ) (ys : List TValue) : Prop :=
  ∀ (j : ℕ) y, ys[j]? = some y → g (cell p (i + j)) = y

theorem Elements.tail {p : GCPtr} {y : TValue} (hys : Elements g p i (y :: ys)) : Elements g p (i + 1) ys := by
  intro j x hx
  have hat := hys (j + 1) x hx
  rwa [Nat.cast_succ, show i + ((j : ℤ) + 1) = i + 1 + j by ring] at hat

theorem Elements.head {p : GCPtr} {y : TValue} (hys : Elements g p i (y :: ys)) : g (cell p i) = y := by
  have hat := hys 0 y rfl
  rwa [Nat.cast_zero, add_zero] at hat

/-- Writing behind does not change what is still to be read. -/
theorem Elements.assign {p : GCPtr} {x : TValue} (hys : Elements g p i ys) (h0 : 1 ≤ w) (hw : w < i)
    (hend : i + ys.length ≤ 2 ^ 30) : Elements (g.assign p w x) p i ys := by
  intro j y hy
  have hj : j < ys.length := (List.getElem?_eq_some_iff.mp hy).1
  have hw' : Fits 32 w := fits_int (by omega) (by unfold INT_MAX; omega)
  have hi' : Fits 32 (i + j) := fits_int (by omega) (by unfold INT_MAX; omega)
  rw [assign_cell_ne hw' hi' (by omega)]
  exact hys j y hy

/-- The elements that stay are written one after the other; the others are counted. -/
theorem dropLoop_ok (hA : Agrees c.env h g) (hro : c.readonly (c.base 1) = false) (hys : Elements g (c.base 1) i ys)
    (hw : 1 ≤ w) (hwi : w ≤ i) (hend : i + ys.length = n + 1) (hn : n ≤ (h (c.base 1)).sizearray) (hr : 0 ≤ r)
    (hrn : r + ys.length ≤ n) :
    ∃ h' g', dropLoop c equal maxRemoved (fromTo i n) w r h
        = .ok (w + (dropped equal (maxRemoved - r).toNat ys).length,
            r + (ys.length - (dropped equal (maxRemoved - r).toNat ys).length)) h' ∧
      (h' (c.base 1)).sizearray = (h (c.base 1)).sizearray ∧ Agrees c.env h' g' ∧
      Written g g' (c.base 1) w (dropped equal (maxRemoved - r).toNat ys) := by
  induction ys generalizing h g i w r with
  | nil =>
    rw [List.length_nil, Nat.cast_zero] at hend
    refine ⟨h, g, ?_, rfl, hA, ?_⟩
    · rw [fromTo_of_lt (by omega), dropped_nil]
      simp [dropLoop, pure, EStateM.pure]
    · rw [dropped_nil]
      exact written_nil g (c.base 1) w
  | cons y ys ih =>
    rw [List.length_cons, Nat.cast_succ] at hend hrn
    have hnle := hA.slot_le (c.base 1) hn
    have hfits : ∀ j, 0 ≤ j → j ≤ n + 1 → Fits 32 j := fun j h0 hj => fits_int (by omega) (by unfold INT_MAX; omega)
    have hget := lua_rawgeti_run hA c 1 (hfits i (by omega) (by omega))
    rw [hys.head] at hget
    rw [fromTo_cons (by omega)]
    unfold dropLoop
    rw [bind_ok hget]
    by_cases hmatch : r < maxRemoved ∧ equal y = true
    · -- the element goes
      obtain ⟨hlt, hy⟩ := hmatch
      have hcount : (maxRemoved - r).toNat = (maxRemoved - (r + 1)).toNat + 1 := by omega
      rw [if_pos ⟨hlt, hy⟩, add_ok (hfits (r + 1) (by omega) (by omega)), hcount, dropped_cons_of_pos hy]
      obtain ⟨h', g', hrun, hsize, hA', hwritten⟩ := ih (r := r + 1) hA hys.tail hw (by omega) (by omega) hn (by omega)
        (by omega)
      refine ⟨h', g', ?_, hsize, hA', hwritten⟩
      show dropLoop c equal maxRemoved (fromTo (i + 1) n) w (r + 1) h = _
      rw [hrun, List.length_cons]
      push_cast
      congr 2
      ring
    · -- the element stays
      have hkeep : dropped equal (maxRemoved - r).toNat (y :: ys) = y :: dropped equal (maxRemoved - r).toNat ys := by
        cases hy : equal y with
        | false => exact dropped_cons_of_neg hy
        | true =>
          have hzero : (maxRemoved - r).toNat = 0 := by
            by_contra hne
            exact hmatch ⟨by omega, hy⟩
          rw [hzero]
          rfl
      rw [if_neg hmatch, hkeep]
      obtain ⟨h₁, hset, hsize₁, hA₁⟩ := lua_rawseti_slot (i := w) hA hro hw (by omega) y
      rw [bind_ok hset, add_ok (hfits (w + 1) (by omega) (by omega))]
      obtain ⟨h', g', hrun, hsize, hA', hwritten⟩ := ih hA₁ (hys.tail.assign hw (by omega) (by omega))
        (show 1 ≤ w + 1 by omega) (by omega) (by omega) (by rw [hsize₁]; exact hn) hr (by omega)
      have hlen := length_dropped equal (maxRemoved - r).toNat ys
      refine ⟨h', g', ?_, hsize.trans (hsize₁ _), hA', ?_⟩
      · show dropLoop c equal maxRemoved (fromTo (i + 1) n) (w + 1) r h₁ = _
        rw [hrun, List.length_cons, List.length_cons]
        push_cast
        congr 2
        · ring
        · ring
      · have hfirst := written_assign (hfits w (by omega) (by omega)) g (c.base 1) y
        show Written g g' (c.base 1) w ([y] ++ dropped equal (maxRemoved - r).toNat ys)
        exact hfirst.append hwritten hw (by rw [List.length_singleton]; omega)

theorem clearLoop_ok (hA : Agrees c.env h g) (hro : c.readonly (c.base 1) = false) (hw : 1 ≤ w) {m : ℕ}
    (hm : w + m = n + 1) (hn : n ≤ (h (c.base 1)).sizearray) :
    ∃ h' g', clearLoop c (fromTo w n) h = .ok ⟨⟩ h' ∧ Agrees c.env h' g' ∧
      Written g g' (c.base 1) w (List.replicate m .nil) := by
  induction m generalizing h g w with
  | zero =>
    rw [fromTo_of_lt (by omega)]
    exact ⟨h, g, rfl, hA, written_nil g (c.base 1) w⟩
  | succ m ih =>
    have hnle := hA.slot_le (c.base 1) hn
    rw [Nat.cast_succ] at hm
    rw [fromTo_cons (by omega)]
    obtain ⟨h₁, hset, hsize₁, hA₁⟩ := lua_rawseti_slot (i := w) hA hro hw (by omega) .nil
    obtain ⟨h', g', hrun, hA', hwritten⟩ := ih hA₁ (show 1 ≤ w + 1 by omega) (by omega) (by rw [hsize₁]; exact hn)
    refine ⟨h', g', ?_, hA', ?_⟩
    · unfold clearLoop
      rw [bind_ok hset]
      exact hrun
    · have hfits : Fits 32 w := fits_int (by omega) (by unfold INT_MAX; omega)
      have hfirst := written_assign hfits g (c.base 1) .nil
      show Written g g' (c.base 1) w ([.nil] ++ List.replicate m .nil)
      exact hfirst.append hwritten hw (by rw [List.length_singleton, List.length_replicate]; omega)

end Loops

/-! ### The call -/

section Call

variable {c : Call} {h : Tables} {g : Cells} {tm : TValue → TValue → Option Bool} {v : TValue} {count : Option ℤ}

/-- The values at `1..n` -/
def elements (g : Cells) (p : GCPtr) (n : ℕ) : List TValue := (List.range n).map fun i => g (cell p ((i : ℕ) + 1))

theorem length_elements (g : Cells) (p : GCPtr) (n : ℕ) : (elements g p n).length = n := by
  unfold elements
  rw [List.length_map, List.length_range]

theorem elements_spec (g : Cells) (p : GCPtr) (n : ℕ) : Elements g p 1 (elements g p n) := by
  intro j y hy
  have hj : j < n := length_elements g p n ▸ (List.getElem?_eq_some_iff.mp hy).1
  unfold elements at hy
  rw [List.getElem?_map, List.getElem?_range hj] at hy
  rw [add_comm]
  exact Option.some.inj hy

/-- Asking for the length changes nothing but what is remembered of it. -/
theorem lua_objlen_keeps (hA : Agrees c.env h g) (idx : ℕ) :
    ∃ h', lua_objlen c idx h = .ok ((luaH_getn (h (c.base idx))).1 : ℤ) h' ∧ Agrees c.env h' g ∧
      (h' (c.base idx)).sizearray = (h (c.base idx)).sizearray := by
  have hcached := (luaH_getn_spec (h (c.base idx))).2
  refine ⟨_, rfl, hA.same ((hA (c.base idx)).wf.cached hcached), ?_⟩
  rw [Function.update_self]
  rcases hcached with hsame | ⟨b, _, hset⟩
  · rw [hsame]
  · rw [hset]
    unfold LuaTable.maybesetaboundary
    split_ifs <;> rfl

/-- The checks of `tdrop`, behind the length -/
theorem tdrop_run {h₁ : Tables} {n : ℤ} (hlen : lua_objlen c 1 h = .ok n h₁) :
    tdrop c tm (some v) count h =
      if count.isSome ∧ count.getD INT_MAX ≤ 0 then .error (.argerror 3 "count must be greater than 0") h₁
      else if c.readonly (c.base 1) then .error .readonly h₁
      else (do
        let (writeIndex, removed) ← dropLoop c (equalobj tm v) (count.getD INT_MAX) (fromTo 1 n) 1 0
        clearLoop c (fromTo writeIndex n)
        return removed : LibM ℤ) h₁ := by
  show (lua_objlen c 1 >>= _) h = _
  rw [bind_ok hlen]
  cases count with
  | none =>
    have hargs : ¬((none : Option ℤ).isSome = true ∧ (none : Option ℤ).getD INT_MAX ≤ 0) := fun hbad => by cases hbad.1
    rw [if_neg hargs]
    cases hro : c.readonly (c.base 1) with
    | true => rfl
    | false => rfl
  | some k =>
    by_cases hk : k ≤ 0
    · have hcheck : argcheck (0 < k) 3 "count must be greater than 0" h₁
          = .error (.argerror 3 "count must be greater than 0") h₁ := by
        unfold argcheck
        rw [if_neg (by omega)]
        rfl
      have hargs : (some k).isSome = true ∧ (some k).getD INT_MAX ≤ 0 := ⟨rfl, hk⟩
      rw [if_pos hargs]
      show EStateM.bind (argcheck (0 < k) 3 "count must be greater than 0") _ h₁ = _
      unfold EStateM.bind
      rw [hcheck]
    · have hcheck : argcheck (0 < k) 3 "count must be greater than 0" h₁ = .ok ⟨⟩ h₁ := by
        unfold argcheck
        rw [if_pos (by omega)]
        rfl
      have hargs : ¬((some k).isSome = true ∧ (some k).getD INT_MAX ≤ 0) := fun hbad => hk hbad.2
      rw [if_neg hargs]
      show EStateM.bind (argcheck (0 < k) 3 "count must be greater than 0") _ h₁ = _
      unfold EStateM.bind
      rw [hcheck]
      cases hro : c.readonly (c.base 1) with
      | true => rfl
      | false => rfl

/-- The elements that stay move to the front, and the places left are cleared. -/
theorem tdrop_ok (hA : Agrees c.env h g) (hcount : ∀ k, count = some k → 0 < k)
    (hro : c.readonly (c.base 1) = false) :
    let xs := elements g (c.base 1) (luaH_getn (h (c.base 1))).1
    let removed := min (count.getD INT_MAX).toNat (xs.countP (equalobj tm v))
    ∃ h' g', tdrop c tm (some v) count h = .ok removed h' ∧ Agrees c.env h' g' ∧
      Written g g' (c.base 1) 1
        (dropped (equalobj tm v) (count.getD INT_MAX).toNat xs ++ List.replicate removed .nil) := by
  dsimp only
  obtain ⟨h₁, hlen, hA₁, hsize₁⟩ := lua_objlen_keeps hA 1
  have hle := (luaH_getn_spec (h (c.base 1))).1.le
  have hmax := hA₁.slot_le (c.base 1) (i := (luaH_getn (h (c.base 1))).1) (by rw [hsize₁]; exact_mod_cast hle)
  generalize (luaH_getn (h (c.base 1))).1 = n at *
  have hxs := elements_spec g (c.base 1) n
  have hxslen := length_elements g (c.base 1) n
  generalize elements g (c.base 1) n = xs at *
  have hcountle := length_dropped (equalobj tm v) (count.getD INT_MAX).toNat xs
  have hdrop : ∃ h₂ g₂, dropLoop c (equalobj tm v) (count.getD INT_MAX) (fromTo 1 n) 1 0 h₁ =
        .ok (1 + (dropped (equalobj tm v) (count.getD INT_MAX - 0).toNat xs).length,
          0 + (xs.length - (dropped (equalobj tm v) (count.getD INT_MAX - 0).toNat xs).length)) h₂ ∧
      (h₂ (c.base 1)).sizearray = (h₁ (c.base 1)).sizearray ∧ Agrees c.env h₂ g₂ ∧
      Written g g₂ (c.base 1) 1 (dropped (equalobj tm v) (count.getD INT_MAX - 0).toNat xs) :=
    dropLoop_ok hA₁ hro hxs le_rfl le_rfl (by omega) (by rw [hsize₁]; exact_mod_cast hle) le_rfl (by omega)
  obtain ⟨h₂, g₂, hrun, hsize₂, hA₂, hwritten⟩ := hdrop
  rw [sub_zero] at hrun hwritten
  obtain ⟨h₃, g₃, hclear, hA₃, hcleared⟩ := clearLoop_ok (n := n)
    (w := 1 + (dropped (equalobj tm v) (count.getD INT_MAX).toNat xs).length) hA₂ hro (by omega)
    (m := min (count.getD INT_MAX).toNat (xs.countP (equalobj tm v))) (by omega)
    (by rw [hsize₂, hsize₁]; exact_mod_cast hle)
  have hargs : ¬(count.isSome = true ∧ count.getD INT_MAX ≤ 0) := by
    rintro ⟨hsome, hneg⟩
    obtain ⟨k, hk⟩ := Option.isSome_iff_exists.mp hsome
    have hpos := hcount k hk
    rw [hk, Option.getD_some] at hneg
    omega
  refine ⟨h₃, g₃, ?_, hA₃, hwritten.append hcleared le_rfl (by rw [List.length_replicate]; omega)⟩
  rw [tdrop_run hlen, if_neg hargs, hro, if_neg Bool.false_ne_true, bind_ok hrun]
  show (clearLoop c (fromTo (1 + _) n) >>= _) h₂ = _
  rw [bind_ok hclear]
  show EStateM.Result.ok _ h₃ = _
  congr 1
  omega

end Call

end Luwu.TabLib
