import Luwu.Sort.Quick
import Luwu.VM.Strings

/-!
# The comparisons of `table.sort` and the sort of a table

A comparison may be a strict weak order on the elements of the table only; outside of them it may raise errors.
The order is then extended to all values, so that the rules for runs apply.  The default comparison,
`luaV_lessthan`, orders numbers and strings.
-/

namespace Luwu.Sort

open Arrange

variable {α σ ε : Type}

/-! ### Orders on a set of elements -/

/-- On the elements in `S` the comparison answers as `lt`, and `lt` is a strict weak order there. -/
structure OrderedBy (pred : SortPredicate α σ ε) (lt : α → α → Bool) (S : α → Prop) : Prop where
  strictWeak : StrictWeak fun x y : { v // S v } => lt x y
  answers : ∀ w a b, S a → S b → (pred w a b).1 = .ok (lt a b)

open Classical in
/-- The order `lt` on `S`, with all other elements behind -/
noncomputable def extended (lt : α → α → Bool) (S : α → Prop) (a b : α) : Bool :=
  decide (S a) && (!decide (S b) || lt a b)

section

variable {lt : α → α → Bool} {S : α → Prop} {a b : α}

theorem extended_within (ha : S a) (hb : S b) : extended lt S a b = lt a b := by
  simp only [extended, ha, hb, decide_true, Bool.true_and, Bool.not_true, Bool.false_or]

theorem extended_iff : extended lt S a b = true ↔ S a ∧ (S b → lt a b = true) := by
  simp only [extended, Bool.and_eq_true, decide_eq_true_eq, Bool.or_eq_true, Bool.not_eq_true', decide_eq_false_iff_not]
  constructor
  · intro h
    exact ⟨h.1, fun hb => h.2.resolve_left (not_not_intro hb)⟩
  · intro h
    refine ⟨h.1, ?_⟩
    by_cases hb : S b
    · exact Or.inr (h.2 hb)
    · exact Or.inl hb

theorem strictWeak_extended (h : StrictWeak fun x y : { v // S v } => lt x y) : StrictWeak (extended lt S) := by
  have hirrefl : ∀ x, ¬extended lt S x x = true := by
    intro x hxx
    rw [extended_iff] at hxx
    have hself := h.irrefl ⟨x, hxx.1⟩
    rw [hxx.2 hxx.1] at hself
    cases hself
  have htrans : ∀ x y z, extended lt S x y = true → extended lt S y z = true → extended lt S x z = true := by
    intro x y z hxy hyz
    rw [extended_iff] at hxy hyz ⊢
    exact ⟨hxy.1, fun hz => h.trans (x := ⟨x, hxy.1⟩) (y := ⟨y, hyz.1⟩) (z := ⟨z, hz⟩) (hxy.2 hyz.1) (hyz.2 hz)⟩
  have hnot : ∀ x y z, extended lt S x y = false → extended lt S y z = false → extended lt S x z = false := by
    intro x y z hxy hyz
    rw [← Bool.not_eq_true, extended_iff] at hxy hyz ⊢
    intro hxz
    have hy : S y := by
      by_contra hy
      exact hxy ⟨hxz.1, fun hy' => absurd hy' hy⟩
    have hxy' : lt x y = false := by
      by_contra hlt
      exact hxy ⟨hxz.1, fun _ => by simpa using hlt⟩
    have hz : S z := by
      by_contra hz
      exact hyz ⟨hy, fun hz' => absurd hz' hz⟩
    have hyz' : lt y z = false := by
      by_contra hlt
      exact hyz ⟨hy, fun _ => by simpa using hlt⟩
    have hxz' := h.not_trans (x := ⟨x, hxz.1⟩) (y := ⟨y, hy⟩) (z := ⟨z, hz⟩) hxy' hyz'
    rw [hxz.2 hz] at hxz'
    cases hxz'
  exact strictWeak_of hirrefl htrans hnot

theorem OrderedBy.consistent {pred : SortPredicate α σ ε} (h : OrderedBy pred lt S) :
    Consistent pred (extended lt S) S := by
  refine ⟨strictWeak_extended h.strictWeak, ?_⟩
  intro w a b ha hb
  rw [extended_within ha hb]
  exact h.answers w a b ha hb

end

/-! ### The sort of a table -/

/-- The elements to sort -/
def Elements (t : LuaTable) (v : TValue) : Prop := ∃ k < (luaH_getn t).1, t.arr k = v

/-- The array part has the elements of `t` in another order. -/
def Permuted (t : LuaTable) (a : ℕ → TValue) : Prop :=
  ((List.range (luaH_getn t).1).map a).Perm ((List.range (luaH_getn t).1).map t.arr) ∧
    ∀ k, (luaH_getn t).1 ≤ k → a k = t.arr k

theorem permuted_of_rearranged {t : LuaTable} {a : ℕ → TValue} (hn : 0 < (luaH_getn t).1)
    (h : Rearranged 0 ((luaH_getn t).1 - 1) t.arr a) : Permuted t a :=
  ⟨h.perm hn, fun _ hk => h.outside (by omega)⟩

/-! ### The default comparison -/

/-- The value of a double that is no NaN, up to a factor and a monotone map of the magnitudes -/
def signed (a : Double) : ℤ := if a.neg then -(a.mag : ℤ) else a.mag

def luai_numlt (a b : Double) : Bool := !a.isNaN && !b.isNaN && decide (signed a < signed b)

section

-- the contents of string objects
variable (getstr : GCPtr → List UInt8)

/-- The tag of a value -/
def ttype : TValue → ℕ
  | .nil => 0
  | .boolean _ => 1
  | .lightuserdata _ _ => 2
  | .number _ => 3
  | .integer _ => 4
  | .vector _ _ _ => 5
  | .symnone => 6
  | .gc tt _ => 7 + tt.ctorIdx
  | .deadkey _ => 15

/-- The metamethods and the error for values without an order are the parameters. -/
def luaV_lessthan (call_orderTM : SortPredicate TValue σ ε) (ordererror : TValue → TValue → ε) :
    SortPredicate TValue σ ε := fun w l r =>
  if ttype l ≠ ttype r then (.error (ordererror l r), w)
  else
    match l, r with
    | .number a, .number b => (.ok (luai_numlt a b), w)
    | .gc .string p, .gc .string q => (.ok (decide (luaV_strcmp (getstr p) (getstr q) < 0)), w)
    | l, r => call_orderTM w l r

/-- The answers of the default comparison on numbers and on strings -/
def less : TValue → TValue → Bool
  | .number a, .number b => luai_numlt a b
  | .gc .string p, .gc .string q => decide (luaV_strcmp (getstr p) (getstr q) < 0)
  | _, _ => false

end

section

variable {getstr : GCPtr → List UInt8} {call_orderTM : SortPredicate TValue σ ε} {ordererror : TValue → TValue → ε}
  {S : TValue → Prop}

theorem luai_numlt_iff {a b : Double} (ha : a.isNaN = false) (hb : b.isNaN = false) :
    luai_numlt a b = true ↔ signed a < signed b := by
  simp [luai_numlt, ha, hb]

/-- What a number is ordered by -/
def numberKey : TValue → ℤ
  | .number a => signed a
  | _ => 0

/-- What a string is ordered by -/
def bytesKey (getstr : GCPtr → List UInt8) : TValue → List ℕ
  | .gc _ p => (getstr p).map UInt8.toNat
  | _ => []

/-- The default comparison on numbers other than NaN -/
theorem orderedBy_numbers (hS : ∀ v, S v → ∃ a : Double, v = .number a ∧ a.isNaN = false) :
    OrderedBy (luaV_lessthan getstr call_orderTM ordererror) (less getstr) S where
  strictWeak := by
    apply strictWeak_of_key fun x : { v // S v } => numberKey x.1
    rintro ⟨x, hx⟩ ⟨y, hy⟩
    obtain ⟨a, rfl, ha⟩ := hS x hx
    obtain ⟨b, rfl, hb⟩ := hS y hy
    exact luai_numlt_iff ha hb
  answers := by
    intro w x y hx hy
    obtain ⟨a, rfl, _⟩ := hS x hx
    obtain ⟨b, rfl, _⟩ := hS y hy
    rfl

/-- The default comparison on strings -/
theorem orderedBy_strings (hS : ∀ v, S v → ∃ p, v = .gc .string p) :
    OrderedBy (luaV_lessthan getstr call_orderTM ordererror) (less getstr) S where
  strictWeak := by
    apply strictWeak_of_key fun x : { v // S v } => bytesKey getstr x.1
    rintro ⟨x, hx⟩ ⟨y, hy⟩
    obtain ⟨p, rfl⟩ := hS x hx
    obtain ⟨q, rfl⟩ := hS y hy
    dsimp only [less]
    rw [decide_eq_true_iff]
    exact luaV_strcmp_lt_iff
  answers := by
    intro w x y hx hy
    obtain ⟨p, rfl⟩ := hS x hx
    obtain ⟨q, rfl⟩ := hS y hy
    rfl

end

/-! ### What a sort leaves -/

/-- A sort that ends, with or without an error, has read and written the elements of the table only and leaves
them in some order; a comparison that is a strict weak order on them never ends it early, and sorts them. -/
theorem tsort_spec (pred : SortPredicate TValue σ ε) (t : LuaTable) (w : σ) :
    match tsort pred t ⟨t.arr, w⟩ with
    | .ok _ s => Permuted t s.arr ∧
        ∀ lt, OrderedBy pred lt (Elements t) → SortedOn lt 0 ((luaH_getn t).1 - 1) s.arr
    | .error e s => Permuted t s.arr ∧ e ≠ .outOfRange ∧ ∀ lt, ¬OrderedBy pred lt (Elements t) := by
  by_cases hn : 0 < (luaH_getn t).1
  · have hsort : tsort pred t ⟨t.arr, w⟩ =
        sort_rec pred (luaH_getn t).1 0 ((luaH_getn t).1 - 1) (luaH_getn t).1 ⟨t.arr, w⟩ := by
      unfold tsort
      rw [if_pos hn]
    have hrun := fun lt => @sort_rec_spec _ _ _ pred (extended lt (Elements t)) (Elements t) _ 0
      ((luaH_getn t).1 - 1) (luaH_getn t).1 (show (luaH_getn t).1 - 1 < (luaH_getn t).1 by omega) ⟨t.arr, w⟩
      fun k _ hk => ⟨k, by omega, rfl⟩
    rw [hsort]
    cases hend : sort_rec pred (luaH_getn t).1 0 ((luaH_getn t).1 - 1) (luaH_getn t).1 ⟨t.arr, w⟩ with
    | ok b s =>
      simp only [hend] at hrun
      have hre := (hrun fun _ _ => false).1
      refine ⟨permuted_of_rearranged hn hre, ?_⟩
      intro lt hordered x y hlo hxy hhi
      have hin : ∀ k, 0 ≤ k → k ≤ (luaH_getn t).1 - 1 → Elements t (s.arr k) :=
        hre.forall fun k _ hk => ⟨k, by omega, rfl⟩
      rw [← @extended_within _ lt _ _ _ (hin y (by omega) hhi) (hin x hlo (by omega))]
      exact (hrun lt).2 hordered.consistent x y hlo hxy hhi
    | error e s =>
      simp only [hend] at hrun
      obtain ⟨hre, hrange, _⟩ := hrun fun _ _ => false
      exact ⟨permuted_of_rearranged hn hre, hrange, fun lt hordered => (hrun lt).2.2 hordered.consistent⟩
  · have hsort : tsort pred t ⟨t.arr, w⟩ = .ok () ⟨t.arr, w⟩ := by
      unfold tsort
      rw [if_neg hn]
      rfl
    rw [hsort]
    refine ⟨⟨List.Perm.refl _, fun _ _ => rfl⟩, ?_⟩
    intro lt _
    exact sortedOn_of_le lt _ (by omega)

/-- `table.sort` of any table, with any comparison, and with the default comparison on numbers or strings -/
theorem tsort_permutes_and_sorts (t : LuaTable) (getstr : GCPtr → List UInt8)
    (call_orderTM : SortPredicate TValue σ ε) (ordererror : TValue → TValue → ε) :
    (luaH_getn t).1 ≤ t.sizearray ∧
    (∀ (pred : SortPredicate TValue σ ε) (w : σ),
      match tsort pred t ⟨t.arr, w⟩ with
      | .ok _ s => Permuted t s.arr ∧
          ∀ lt, OrderedBy pred lt (Elements t) → SortedOn lt 0 ((luaH_getn t).1 - 1) s.arr
      | .error e s => Permuted t s.arr ∧ e ≠ .outOfRange ∧ ∀ lt, ¬OrderedBy pred lt (Elements t)) ∧
    ((∀ v, Elements t v → ∃ a : Double, v = .number a ∧ a.isNaN = false) ∨
        (∀ v, Elements t v → ∃ p, v = .gc .string p) →
      OrderedBy (luaV_lessthan getstr call_orderTM ordererror) (less getstr) (Elements t)) := by
  refine ⟨(luaH_getn_spec t).1.le, fun pred w => tsort_spec pred t w, ?_⟩
  intro h
  obtain hnumbers | hstrings := h
  · exact orderedBy_numbers hnumbers
  · exact orderedBy_strings hstrings

end Luwu.Sort
