import Mathlib.Algebra.BigOperators.Fin
import Mathlib.Data.List.Forall2
import Luwu.CostModel.Visitor

/-!
# What the lanes of a cost count

The words of the visitor count instructions and discounts.  A lane holds its count as long as that is less than 127, and
127 from there on, and the discounts together are never more than the cost.
-/

namespace Luwu.CostModel

open Lanes Finset

/-! ### Masks -/

def argMask (i : ℕ) : Word := 0xff#64 <<< (i * 8 + 8)

/-- What the constant mask of a cost can be -/
inductive IsMask : Word → Prop
  | none : IsMask 0
  | literal : IsMask kLiteral
  | arg (i : Fin 7) : IsMask (argMask i)

theorem argMask_and : ∀ i j : Fin 7, argMask i &&& argMask j = if i = j then argMask i else 0 := by decide

theorem IsMask.and {m n : Word} (hm : IsMask m) (hn : IsMask n) : IsMask (m &&& n) := by
  cases hm with
  | none =>
    have hzero : 0 &&& n = 0 := BitVec.zero_and
    rw [hzero]
    exact .none
  | literal =>
    rw [kLiteral, BitVec.allOnes_and]
    exact hn
  | arg i =>
    cases hn with
    | none =>
      have hzero : argMask i &&& 0 = 0 := BitVec.and_zero
      rw [hzero]
      exact .none
    | literal =>
      rw [kLiteral, BitVec.and_allOnes]
      exact .arg i
    | arg j =>
      rw [argMask_and]
      split
      · exact .arg i
      · exact .none

/-! ### Counts -/

/-- A cost with natural numbers for lanes -/
structure Charge where
  lanes : ℕ → ℕ
  constant : Word

/-- What folding an operation costs, and what it saves for the variable that both operands share -/
def extra (newconstant : Word) (i : ℕ) : ℕ :=
  if newconstant = kLiteral then 0 else if i = 0 then 1 else byte newconstant i % 2

def Charge.fold (x y : Charge) : Charge :=
  ⟨fun i => x.lanes i + y.lanes i + extra (x.constant &&& y.constant) i, x.constant &&& y.constant⟩

def counts : Arith Charge where
  ofInt cost constant := ⟨fun i => if i = 0 then cost.toNat else 0, constant⟩
  constant := Charge.constant
  isZero x := (List.range 8).all fun i => x.lanes i == 0
  plus x y := ⟨fun i => x.lanes i + y.lanes i, 0⟩
  times x other := ⟨fun i => x.lanes i * other.toNat, 0⟩
  fold := Charge.fold

/-- The counts of a program -/
def chargeOf (T : Tables) (root : Stat) (vars : List Local) : Charge := (visit counts T root (start counts vars)).result

/-- The discounts -/
def Charge.saved (x : Charge) (varsConst : List Bool) : ℕ :=
  ∑ i ∈ range 7, if varsConst.getD i false then x.lanes (i + 1) else 0

/-! ### Arithmetics that agree -/

/-- The visitor does the same with two arithmetics. -/
structure Related {κ κ' : Type} (A : Arith κ) (B : Arith κ') (R : κ → κ' → Prop) : Prop where
  ofInt : ∀ (n : ℕ) m, IsMask m → R (A.ofInt n m) (B.ofInt n m)
  constant : ∀ {a b}, R a b → A.constant a = B.constant b
  mask : ∀ {a b}, R a b → IsMask (A.constant a)
  isZero : ∀ {a b}, R a b → A.isZero a = B.isZero b
  plus : ∀ {a b a' b'}, R a b → R a' b' → R (A.plus a a') (B.plus b b')
  times : ∀ {a b} n, R a b → 0 ≤ n → R (A.times a n) (B.times b n)
  fold : ∀ {a b a' b'}, R a b → R a' b' → R (A.fold a a') (B.fold b b')

def Masked (vars : Local → Option Word) : Prop := ∀ l m, vars l = some m → IsMask m

theorem Masked.getD {vars : Local → Option Word} (h : Masked vars) (l : Local) : IsMask ((vars l).getD 0) := by
  cases hl : vars l with
  | none => exact .none
  | some m => exact h l m hl

theorem Masked.update {vars : Local → Option Word} (h : Masked vars) (l : Local) {m : Word} (hm : IsMask m) :
    Masked (Function.update vars l (some m)) := by
  intro l' m' hl'
  by_cases heq : l' = l
  · subst heq
    rw [Function.update_self, Option.some.injEq] at hl'
    exact hl' ▸ hm
  · rw [Function.update_of_ne heq] at hl'
    exact h l' m' hl'

namespace Related

variable {κ κ' : Type} {A : Arith κ} {B : Arith κ'} {R : κ → κ' → Prop} {T : Tables} {vars : Local → Option Word}

theorem num (h : Related A B R) (n : ℕ) : R (A.num n) (B.num n) := h.ofInt n 0 .none

theorem either (h : Related A B R) {p : Prop} [Decidable p] {a : κ} {b : κ'} (hab : R a b) :
    R (if p then A.ofInt 0 kLiteral else a) (if p then B.ofInt 0 kLiteral else b) := by
  split
  · exact h.ofInt 0 kLiteral .literal
  · exact hab

theorem argCost (h : Related A B R) (short : Bool) {a : κ} {b : κ'} (hab : R a b) :
    R (argCost A short a) (argCost B short b) := by
  unfold CostModel.argCost
  rw [h.isZero hab]
  split
  · exact h.num 1
  · exact hab

theorem folds {f : κ → κ → κ} {g : κ' → κ' → κ'} (hstep : ∀ {a b c d}, R a b → R c d → R (f a c) (g b d)) {as : List κ}
    {bs : List κ'} (hargs : List.Forall₂ R as bs) {a : κ} {b : κ'} (hab : R a b) : R (as.foldl f a) (bs.foldl g b) := by
  induction hargs generalizing a b with
  | nil => exact hab
  | cons hhead _ ih => exact ih (hstep hab hhead)

mutual

theorem model (h : Related A B R) (hvars : Masked vars) : ∀ e, R (model A T vars e) (model B T vars e)
  | .group _ expr => by
    simp only [CostModel.model]
    exact h.either (h.model hvars expr)
  | .literal _ => by
    simp only [CostModel.model]
    exact h.either (h.ofInt 0 kLiteral .literal)
  | .local _ l => by
    simp only [CostModel.model]
    exact h.either (h.ofInt 0 _ (hvars.getD l))
  | .global _ => by
    simp only [CostModel.model]
    exact h.either (h.num 1)
  | .varargs _ => by
    simp only [CostModel.model]
    exact h.either (h.num 3)
  | .call node func args => by
    simp only [CostModel.model]
    refine h.either (folds (fun hc ha => h.plus hc (h.argCost _ ha)) (h.models hvars args) ?_)
    split
    · exact h.plus (h.num _) (h.model hvars func)
    · exact h.num _
  | .indexName _ expr => by
    simp only [CostModel.model]
    exact h.either (h.plus (h.model hvars expr) (h.num 1))
  | .indexExpr _ expr index => by
    simp only [CostModel.model]
    exact h.either (h.plus (h.plus (h.model hvars expr) (h.model hvars index)) (h.num 1))
  | .function _ => by
    simp only [CostModel.model]
    exact h.either (h.num 10)
  | .table _ items => by
    simp only [CostModel.model]
    exact h.either (h.modelItems hvars items (h.num 10))
  | .unary _ expr => by
    simp only [CostModel.model]
    exact h.either (h.fold (h.model hvars expr) (h.ofInt 0 kLiteral .literal))
  | .binary _ left right => by
    simp only [CostModel.model]
    exact h.either (h.fold (h.model hvars left) (h.model hvars right))
  | .typeAssertion _ expr => by
    simp only [CostModel.model]
    exact h.either (h.model hvars expr)
  | .ifElse _ condition trueExpr falseExpr => by
    simp only [CostModel.model]
    have hbranches := h.plus (h.plus (h.model hvars condition) (h.model hvars trueExpr)) (h.model hvars falseExpr)
    exact h.either (h.plus hbranches (h.num 2))
  | .interpString _ expressions => by
    simp only [CostModel.model]
    exact h.either (folds h.plus (h.models hvars expressions) (h.num 3))
  | .instantiate _ expr => by
    simp only [CostModel.model]
    exact h.either (h.model hvars expr)

theorem models (h : Related A B R) (hvars : Masked vars) :
    ∀ es, List.Forall₂ R (models A T vars es) (models B T vars es)
  | [] => by
    simp only [CostModel.models]
    exact .nil
  | e :: es => by
    simp only [CostModel.models]
    exact .cons (h.model hvars e) (h.models hvars es)

theorem modelItem (h : Related A B R) (hvars : Masked vars) {a : κ} {b : κ'} (hab : R a b) :
    ∀ item, R (modelItem A T vars a item) (modelItem B T vars b item)
  | .keyed key value => by
    simp only [CostModel.modelItem]
    exact h.plus (h.plus (h.plus hab (h.model hvars key)) (h.model hvars value)) (h.num 1)
  | .plain value => by
    simp only [CostModel.modelItem]
    exact h.plus (h.plus hab (h.model hvars value)) (h.num 1)

theorem modelItems (h : Related A B R) (hvars : Masked vars) :
    ∀ items {a : κ} {b : κ'}, R a b → R (modelItems A T vars items a) (modelItems B T vars items b)
  | [], _, _, hab => by
    simp only [CostModel.modelItems]
    exact hab
  | item :: items, _, _, hab => by
    simp only [CostModel.modelItems]
    exact h.modelItems hvars items (h.modelItem hvars hab item)

end

/-! ### Statements -/

/-- Two states of the visitor with the same masks and costs that agree -/
structure Same (R : κ → κ' → Prop) (v : Visit κ) (w : Visit κ') : Prop where
  vars : v.vars = w.vars
  masked : Masked v.vars
  result : R v.result w.result

variable {v : Visit κ} {w : Visit κ'}

theorem Same.model (hvw : Same R v w) (h : Related A B R) (e : Expr) :
    R (CostModel.model A T v.vars e) (CostModel.model B T w.vars e) := by
  rw [← hvw.vars]
  exact h.model hvw.masked e

theorem Same.setMask (hvw : Same R v w) (l : Local) {m : Word} (hm : IsMask m) :
    Same R (CostModel.setMask l m v) (CostModel.setMask l m w) where
  vars := by rw [CostModel.setMask, CostModel.setMask, hvw.vars]
  masked := hvw.masked.update l hm
  result := hvw.result

theorem add (h : Related A B R) (hvw : Same R v w) {a : κ} {b : κ'} (hab : R a b) : Same R (add A a v) (add B b w) where
  vars := hvw.vars
  masked := hvw.masked
  result := h.plus hvw.result hab

theorem visitExpr (h : Related A B R) (hvw : Same R v w) (e : Expr) : Same R (visitExpr A T e v) (visitExpr B T e w) :=
  h.add hvw (hvw.model h e)

theorem visitExprs (h : Related A B R) (hvw : Same R v w) (es : List Expr) :
    Same R (visitExprs A T es v) (visitExprs B T es w) := by
  unfold CostModel.visitExprs
  induction es generalizing v w with
  | nil => exact hvw
  | cons e es ih => exact ih (h.visitExpr hvw e)

theorem Same.assign (hvw : Same R v w) (e : Expr) : Same R (CostModel.assign e v) (CostModel.assign e w) := by
  unfold CostModel.assign
  split
  · rw [hvw.vars]
    split
    · exact hvw.setMask _ .none
    · exact hvw
  · exact hvw

theorem Same.assigns (hvw : Same R v w) (es : List Expr) :
    Same R (es.foldl (fun v e => CostModel.assign e v) v) (es.foldl (fun w e => CostModel.assign e w) w) := by
  induction es generalizing v w with
  | nil => exact hvw
  | cons e es ih => exact ih (hvw.assign e)

theorem visitLocal (h : Related A B R) (hvw : Same R v w) (vars : List Local) (values : List Expr) :
    Same R (visitLocal A T vars values v) (visitLocal B T vars values w) := by
  induction values generalizing vars v w with
  | nil =>
    simp only [CostModel.visitLocal]
    exact hvw
  | cons value values ih =>
    simp only [CostModel.visitLocal]
    have harg := hvw.model h (T := T) value
    refine ih (h.add ?_ harg) _
    cases vars with
    | nil => exact hvw
    | cons l vars =>
      dsimp only
      rw [h.constant harg]
      split
      · exact hvw.setMask l (h.constant harg ▸ h.mask harg)
      · exact hvw

theorem pair (h : Related A B R) (hvw : Same R v w) {a : κ} {b : κ'} (hab : R a b) :
    Same R (visitPairs.pair A a v) (visitPairs.pair B b w) := by
  unfold visitPairs.pair
  refine h.add hvw ?_
  rw [h.isZero hab]
  split
  · exact h.num 1
  · exact hab

theorem visitPairs (h : Related A B R) (hvw : Same R v w) (vars values : List Expr) :
    Same R (visitPairs A T vars values v) (visitPairs B T vars values w) := by
  induction vars generalizing values v w with
  | nil =>
    simp only [CostModel.visitPairs]
    induction values generalizing v w with
    | nil => exact hvw
    | cons value values ih => exact ih (h.pair hvw (h.plus (h.num 0) (hvw.model h value)))
  | cons var vars ih =>
    simp only [CostModel.visitPairs]
    have hvar := h.plus (h.num 0) (hvw.model h (T := T) var)
    refine ih (h.pair hvw ?_) _
    cases values with
    | nil => exact hvar
    | cons value values => exact h.plus hvar (hvw.model h value)

theorem loop (h : Related A B R) (hvw : Same R v w) {f : Visit κ → Visit κ} {g : Visit κ' → Visit κ'}
    (hbody : ∀ {v w}, Same R v w → Same R (f v) (g w)) {a : κ} {b : κ'} (hab : R a b) {n : ℤ} (hn : 0 ≤ n) :
    Same R (loop A f a n v) (loop B g b n w) := by
  have hstart : Same R { v with result := A.num 0 } { w with result := B.num 0 } := ⟨hvw.vars, hvw.masked, h.num 0⟩
  have hend := hbody hstart
  exact ⟨hend.vars, hend.masked, h.plus hvw.result (h.times n (h.plus hend.result hab) hn)⟩

theorem three_nonneg : (0 : ℤ) ≤ 3 := by decide

mutual

theorem visit (h : Related A B R) : ∀ s {v : Visit κ} {w : Visit κ'}, Same R v w → Same R (visit A T s v) (visit B T s w)
  | .block body, _, _, hvw => by
    simp only [CostModel.visit]
    exact h.visitBlock body hvw
  | .ifStat condition thenbody none, _, _, hvw => by
    simp only [CostModel.visit]
    split
    · exact hvw
    · split
      · exact h.visit thenbody hvw
      · exact h.visit thenbody (h.visitExpr (h.add hvw (h.num 1)) condition)
  | .ifStat condition thenbody (some elsebody), _, _, hvw => by
    simp only [CostModel.visit]
    split
    · exact h.visit elsebody hvw
    · split
      · exact h.visit thenbody hvw
      · exact h.visit elsebody (h.visit thenbody (h.visitExpr (h.add hvw (h.num _)) condition))
  | .whileStat condition body, _, _, hvw => by
    simp only [CostModel.visit]
    exact h.loop hvw (fun hvw => h.visit body hvw) (hvw.model h condition) three_nonneg
  | .repeatStat body condition, _, _, hvw => by
    simp only [CostModel.visit]
    exact h.loop hvw (fun hvw => h.visit body hvw) (hvw.model h condition) three_nonneg
  | .breakStat, _, _, hvw => by
    simp only [CostModel.visit]
    exact h.add hvw (h.num 1)
  | .continueStat, _, _, hvw => by
    simp only [CostModel.visit]
    exact h.add hvw (h.num 1)
  | .returnStat list, _, _, hvw => by
    simp only [CostModel.visit]
    exact h.visitExprs hvw list
  | .localStat vars values, _, _, hvw => by
    simp only [CostModel.visit]
    exact h.visitLocal hvw vars values
  | .forStat from' to' step body, _, _, hvw => by
    simp only [CostModel.visit]
    have hbounds := h.visitExpr (T := T) (h.visitExpr (T := T) hvw from') to'
    refine h.loop ?_ (fun hvw => h.visit body hvw) (h.num 1) ?_
    · cases step with
      | none => exact hbounds
      | some step => exact h.visitExpr hbounds step
    · split <;> omega
  | .forIn values body, _, _, hvw => by
    simp only [CostModel.visit]
    exact h.loop (h.visitExprs hvw values) (fun hvw => h.visit body hvw) (h.num 1) three_nonneg
  | .assign vars values, _, _, hvw => by
    simp only [CostModel.visit]
    exact h.visitPairs (hvw.assigns vars) vars values
  | .compoundAssign var value, _, _, hvw => by
    simp only [CostModel.visit]
    exact h.visitExpr (h.visitExpr (h.add (hvw.assign var) (h.num _)) var) value
  | .other exprs, _, _, hvw => by
    simp only [CostModel.visit]
    exact h.visitExprs hvw exprs

theorem visitBlock (h : Related A B R) :
    ∀ ss {v : Visit κ} {w : Visit κ'}, Same R v w → Same R (visitBlock A T ss v) (visitBlock B T ss w)
  | [], _, _, hvw => by
    simp only [CostModel.visitBlock]
    exact hvw
  | s :: ss, _, _, hvw => by
    simp only [CostModel.visitBlock]
    split
    · exact h.visit s hvw
    · exact h.visitBlock ss (h.visit s hvw)

end

theorem masked_args (vars : List Local) (i : ℕ) {masks : Local → Option Word} (h : Masked masks) :
    Masked (argMasks i vars masks) := by
  induction vars generalizing i masks with
  | nil => exact h
  | cons l vars ih =>
    rw [argMasks]
    split
    · rename_i hi
      exact ih (i + 1) (h.update l (.arg ⟨i, hi⟩))
    · exact h

theorem start (h : Related A B R) (vars : List Local) : Same R (start A vars) (start B vars) :=
  ⟨rfl, masked_args vars 0 fun _ _ hl => by simp at hl, h.num 0⟩

end Related

/-! ### Words and counts -/

/-- A word and the counts that it stands for -/
structure Exact (c : Cost) (d : Charge) : Prop where
  constant : c.constant = d.constant
  mask : IsMask c.constant
  lanes : ∀ i < 8, byte c.model i = min (d.lanes i) 127
  /-- The discounts are part of the cost. -/
  discounts : ∑ i ∈ range 7, d.lanes (i + 1) ≤ d.lanes 0

theorem byte_small {n : ℕ} (hn : n < 256) {i : ℕ} (hi : i < 8) :
    byte (BitVec.ofNat 64 n) i = if i = 0 then n else 0 := by
  have hpack : pack 8 8 (fun i => if i = 0 then n else 0) = n := by simp [pack]
  refine byte_of_pack (f := fun i => if i = 0 then n else 0) ?_ (fun i _ => by split <;> omega) hi
  rw [hpack, BitVec.toNat_ofNat, Nat.mod_eq_of_lt (by omega)]

theorem Exact.inLanes {c : Cost} {d : Charge} (h : Exact c d) : InLanes c.model := by
  intro i hi
  rw [h.lanes i hi]
  exact Nat.min_le_right _ _

theorem exact_ofInt (n : ℕ) {m : Word} (hm : IsMask m) : Exact (Cost.ofInt n m) (counts.ofInt n m) where
  constant := rfl
  mask := hm
  lanes := by
    intro i hi
    have hmin : (if (n : ℤ) < 0x7f then (n : ℤ) else 0x7f) = (min n 127 : ℕ) := by split <;> omega
    show byte (BitVec.ofInt 64 (if (n : ℤ) < 0x7f then (n : ℤ) else 0x7f)) i = min (if i = 0 then n else 0) 127
    rw [hmin, BitVec.ofInt_natCast, byte_small (by omega) hi]
    split <;> omega
  discounts := by
    have hzero : ∀ i ∈ range 7, (counts.ofInt n m).lanes (i + 1) = 0 := by
      intro i _
      show (if i + 1 = 0 then (n : ℤ).toNat else 0) = 0
      exact if_neg (Nat.succ_ne_zero i)
    rw [sum_eq_zero hzero]
    exact Nat.zero_le _

theorem exact_plus {c c' : Cost} {d d' : Charge} (h : Exact c d) (h' : Exact c' d') :
    Exact (c.plus c') (counts.plus d d') where
  constant := rfl
  mask := .none
  lanes := by
    intro i hi
    show byte (parallelAddSat c.model c'.model) i = min (d.lanes i + d'.lanes i) 127
    rw [byte_parallelAddSat h.inLanes h'.inLanes hi, h.lanes i hi, h'.lanes i hi]
    omega
  discounts := by
    show ∑ i ∈ range 7, (d.lanes (i + 1) + d'.lanes (i + 1)) ≤ d.lanes 0 + d'.lanes 0
    rw [sum_add_distrib]
    exact Nat.add_le_add h.discounts h'.discounts

theorem min_mul (n k : ℕ) : min (min n 127 * k) 127 = min (n * k) 127 := by
  rcases Nat.le_total n 127 with h | h
  · rw [Nat.min_eq_left h]
  · cases k with
    | zero => rfl
    | succ k =>
      have hn : 127 * (k + 1) ≤ n * (k + 1) := Nat.mul_le_mul_right _ h
      rw [Nat.min_eq_right h]
      omega

theorem exact_times {c : Cost} {d : Charge} (n : ℤ) (h : Exact c d) (hn : 0 ≤ n) :
    Exact (c.times n) (counts.times d n) where
  constant := rfl
  mask := .none
  lanes := by
    intro i hi
    show byte (parallelMulSat c.model n) i = min (d.lanes i * n.toNat) 127
    rw [byte_parallelMulSat h.inLanes hn hi, h.lanes i hi, min_mul]
  discounts := by
    show ∑ i ∈ range 7, d.lanes (i + 1) * n.toNat ≤ d.lanes 0 * n.toNat
    rw [← sum_mul]
    exact Nat.mul_le_mul_right _ h.discounts

/-! ### Folding -/

theorem byte_extra (m : Word) {i : ℕ} (hi : i < 8) :
    byte (if m = kLiteral then 0 else 1 ||| (0x0101010101010101#64 &&& m)) i = extra m i := by
  unfold extra
  split
  · exact (byte_small (n := 0) (by decide) hi).trans (by split <;> rfl)
  · have hones : (0x0101010101010101#64).toNat = pack 8 8 fun _ => 2 ^ 1 - 1 := rfl
    have hfirst : (1 : Word).toNat = pack 8 8 fun i => if i = 0 then 1 else 0 := rfl
    have hlow : (0x0101010101010101#64 &&& m).toNat = pack 8 8 fun i => byte m i % 2 := by
      rw [BitVec.toNat_and, toNat_eq_pack m, hones, bitwise_and.pack (fun _ _ => by decide) fun i _ => byte_lt m i]
      refine pack_congr fun i _ => ?_
      rw [Nat.and_comm, and_low, pow_one]
    have hor := or_pack hfirst hlow (fun i _ => by split <;> decide) fun i _ => by omega
    refine (byte_of_pack hor (fun i _ => ?_) hi).trans ?_
    · have hbit := Nat.mod_two_eq_zero_or_one (byte m i)
      split <;> rcases hbit with h | h <;> rw [h] <;> decide
    · have hbit := Nat.mod_two_eq_zero_or_one (byte m i)
      split
      · rcases hbit with h | h <;> rw [h] <;> rfl
      · exact Nat.zero_or _

theorem byte_argMask : ∀ i j : Fin 7, byte (argMask i) (j + 1) % 2 = if i = j then 1 else 0 := by decide

/-- What folding saves is no more than what it costs. -/
theorem extra_discounts {m : Word} (hm : IsMask m) : ∑ i ∈ range 7, extra m (i + 1) ≤ extra m 0 := by
  unfold extra
  split
  · rw [sum_const_zero]
  · rename_i hne
    rw [if_pos rfl]
    have hnext : ∀ i ∈ range 7, (if i + 1 = 0 then 1 else byte m (i + 1) % 2) = byte m (i + 1) % 2 := fun i _ =>
      if_neg (Nat.succ_ne_zero i)
    rw [sum_congr rfl hnext]
    cases hm with
    | none =>
      have hzero : ∀ i ∈ range 7, byte 0 (i + 1) % 2 = 0 := by decide
      rw [sum_eq_zero hzero]
      exact Nat.zero_le 1
    | literal => exact absurd rfl hne
    | arg i =>
      rw [sum_range fun j => byte (argMask i) (j + 1) % 2, sum_congr rfl fun j _ => byte_argMask i j, sum_ite_eq,
        if_pos (mem_univ i)]

theorem extra_le_one (m : Word) (i : ℕ) : extra m i ≤ 1 := by
  unfold extra
  split
  · exact Nat.zero_le 1
  · split <;> omega

theorem exact_fold {c c' : Cost} {d d' : Charge} (h : Exact c d) (h' : Exact c' d') :
    Exact (c.fold c') (counts.fold d d') where
  constant := by
    show c.constant &&& c'.constant = d.constant &&& d'.constant
    rw [h.constant, h'.constant]
  mask := h.mask.and h'.mask
  lanes := by
    intro i hi
    have hsum : InLanes (parallelAddSat c.model c'.model) := by
      intro j hj
      rw [byte_parallelAddSat h.inLanes h'.inLanes hj]
      exact Nat.min_le_right _ _
    have hextra : InLanes (if c.constant &&& c'.constant = kLiteral then 0
        else 1 ||| (0x0101010101010101#64 &&& (c.constant &&& c'.constant))) := by
      intro j hj
      rw [byte_extra _ hj]
      exact (extra_le_one _ j).trans (by decide)
    show byte (parallelAddSat (parallelAddSat c.model c'.model) _) i =
      min (d.lanes i + d'.lanes i + extra (d.constant &&& d'.constant) i) 127
    rw [byte_parallelAddSat hsum hextra hi, byte_extra _ hi, byte_parallelAddSat h.inLanes h'.inLanes hi, h.lanes i hi,
      h'.lanes i hi, h.constant, h'.constant]
    omega
  discounts := by
    have hm : IsMask (d.constant &&& d'.constant) := h.constant ▸ h'.constant ▸ h.mask.and h'.mask
    show ∑ i ∈ range 7, (d.lanes (i + 1) + d'.lanes (i + 1) + extra (d.constant &&& d'.constant) (i + 1)) ≤
      d.lanes 0 + d'.lanes 0 + extra (d.constant &&& d'.constant) 0
    rw [sum_add_distrib, sum_add_distrib]
    exact Nat.add_le_add (Nat.add_le_add h.discounts h'.discounts) (extra_discounts hm)

theorem exact_isZero {c : Cost} {d : Charge} (h : Exact c d) : words.isZero c = counts.isZero d := by
  have hword : c.model = 0 ↔ ∀ i < 8, byte c.model i = 0 := by
    refine ⟨fun hzero i hi => ?_, fun hzero => ?_⟩
    · rw [hzero]
      exact (byte_small (n := 0) (by decide) hi).trans (by split <;> rfl)
    · refine BitVec.eq_of_toNat_eq ?_
      rw [toNat_eq_pack, pack_congr hzero]
      rfl
  show (c.model == 0) = (List.range 8).all fun i => d.lanes i == 0
  rw [Bool.eq_iff_iff, beq_iff_eq, hword, List.all_eq_true]
  simp only [List.mem_range, beq_iff_eq]
  refine forall₂_congr fun i hi => ?_
  rw [h.lanes i hi]
  omega

theorem words_counts : Related words counts Exact where
  ofInt n _ hm := exact_ofInt n hm
  constant h := h.constant
  mask h := h.mask
  isZero := exact_isZero
  plus := exact_plus
  times n h hn := exact_times n h hn
  fold := exact_fold

theorem exact_modelCost (T : Tables) (root : Stat) (vars : List Local) :
    Exact (visit words T root (start words vars)).result (chargeOf T root vars) :=
  (words_counts.visit root (words_counts.start vars)).result

/-- Every lane of the cost of a program holds its count, or 127 if that is more. -/
theorem modelCost_lanes (T : Tables) (root : Stat) (vars : List Local) (i : Fin 8) :
    byte (modelCost T root vars) i = min ((chargeOf T root vars).lanes i) 127 :=
  (exact_modelCost T root vars).lanes i i.isLt

/-! ### The cost of a call -/

theorem low_bits (m : Word) (k : ℕ) : ((m >>> (k * 8)) &&& 0x7f).toNat = byte m k % 128 := by
  have hmask : (0x7f : Word).toNat = 2 ^ 7 - 1 := rfl
  rw [BitVec.toNat_and, hmask, and_low, BitVec.toNat_ushiftRight, Nat.shiftRight_eq_div_pow, byte, lane, Nat.mul_comm k]
  omega

theorem discounted_eq (m : Word) (cs : List Bool) (i : ℕ) (cost : ℤ) :
    discounted m i cs cost =
      cost - (∑ j ∈ range (7 - i), if cs.getD j false then byte m (i + j + 1) % 128 else 0 : ℕ) := by
  induction cs generalizing i cost with
  | nil => simp [discounted]
  | cons c cs ih =>
    rw [discounted]
    split
    · rename_i hi
      obtain ⟨k, hk⟩ : ∃ k, 7 - i = k + 1 := ⟨6 - i, by omega⟩
      have hshift : i * 8 + 8 = (i + 1) * 8 := by omega
      have hrest : 7 - (i + 1) = k := by omega
      have hlanes : ∀ j, i + 1 + j + 1 = i + (j + 1) + 1 := fun j => by omega
      rw [ih, hk, sum_range_succ', hshift, low_bits, hrest]
      simp only [List.getD_cons_zero, List.getD_cons_succ, Nat.add_zero, hlanes]
      cases c
      · simp
      · simp
        omega
    · rename_i hi
      have hnone : 7 - i = 0 := by omega
      rw [hnone, sum_range_zero, Nat.cast_zero, sub_zero]

theorem Charge.saved_le {d : Charge} (h : ∑ i ∈ range 7, d.lanes (i + 1) ≤ d.lanes 0) (varsConst : List Bool) :
    d.saved varsConst ≤ d.lanes 0 :=
  (sum_le_sum fun i _ => by split <;> omega).trans h

theorem computeCost_exact {c : Cost} {d : Charge} (h : Exact c d) (varsConst : List Bool) :
    computeCost c.model varsConst = if d.lanes 0 < 127 then (d.lanes 0 : ℤ) - d.saved varsConst else 127 := by
  have hfirst : (c.model &&& 0x7f).toNat = min (d.lanes 0) 127 := by
    have hzero := low_bits c.model 0
    rw [Nat.zero_mul, BitVec.ushiftRight_zero] at hzero
    rw [hzero, h.lanes 0 (by decide)]
    omega
  unfold computeCost
  rw [hfirst]
  split
  · rename_i hlt
    have hlane : ∀ j ∈ range 7, byte c.model (0 + j + 1) % 128 = d.lanes (j + 1) := by
      intro j hj
      have hle : d.lanes (j + 1) ≤ d.lanes 0 :=
        (single_le_sum (f := fun i => d.lanes (i + 1)) (fun i _ => Nat.zero_le _) hj).trans h.discounts
      rw [Nat.zero_add, h.lanes (j + 1) (by have := mem_range.mp hj; omega)]
      omega
    have hsum : (∑ j ∈ range (7 - 0), if varsConst.getD j false then byte c.model (0 + j + 1) % 128 else 0) =
        d.saved varsConst := sum_congr rfl fun j hj => by rw [hlane j hj]
    have hmin : min (d.lanes 0) 127 = d.lanes 0 := by omega
    rw [hmin, if_neg (by omega), discounted_eq, hsum]
  · rename_i hlt
    have hmin : min (d.lanes 0) 127 = 127 := by omega
    rw [hmin, if_pos rfl]
    rfl

/-- The cost of a call is the count of the program less the discounts of the arguments that are constant; it is never
negative, and 127 stands for every count from there on. -/
theorem computeCost_modelCost (T : Tables) (root : Stat) (vars : List Local) (varsConst : List Bool) :
    computeCost (modelCost T root vars) varsConst =
        (if (chargeOf T root vars).lanes 0 < 127 then
          ((chargeOf T root vars).lanes 0 : ℤ) - (chargeOf T root vars).saved varsConst else 127) ∧
      0 ≤ computeCost (modelCost T root vars) varsConst ∧ computeCost (modelCost T root vars) varsConst ≤ 127 := by
  have hexact := exact_modelCost T root vars
  have hsaved := Charge.saved_le hexact.discounts varsConst
  have hcost : computeCost (modelCost T root vars) varsConst = _ := computeCost_exact hexact varsConst
  rw [hcost]
  generalize chargeOf T root vars = d at hsaved ⊢
  refine ⟨rfl, ?_⟩
  split <;> omega

end Luwu.CostModel
