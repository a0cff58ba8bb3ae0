import Luwu.Sccp.Graph
import Luwu.Sccp.Kept

/-!
# When the arithmetic of a graph keeps its meaning

The exact conditions under which an instruction that was rewritten or folded leaves what the machine left at the
original one.
-/

namespace Luwu.Sccp

open Floating

variable {V : Format} {d : ℕ} (m : Machine V d)

/-! ### Forms with a constant -/

/-- What the machine does at what an instruction is rewritten to -/
def Replacement.exec (func : BcFunction) (val : BcOp → Value V d) : Replacement → Option (Outcome V d)
  | .code op ops => Sccp.exec m func val ⟨op, ops, [], 0⟩
  | .loadn n => some (.value (immValue (.int n)))

section Forms

variable {func : BcFunction} {val : BcOp → Value V d} {lhs rhs constant : BcOp} {k : Number} {z : Bool} {x : Value V d}

theorem number_cases (k : Number) : (∃ z, k = .num z 0) ∨ k = .one ∨ (∀ z, k ≠ .num z 0) ∧ k ≠ .one := by
  by_cases hzero : ∃ z, k = .num z 0
  · exact Or.inl hzero
  · by_cases hone : k = .one
    · exact Or.inr (Or.inl hone)
    · exact Or.inr (Or.inr ⟨not_exists.mp hzero, hone⟩)

theorem forall_zero_iff {p : Bool → Prop} : (∀ z', (.num z 0 : Number) = .num z' 0 → p z') ↔ p z := by
  constructor
  · intro h
    exact h z rfl
  · intro h z' heq
    cases heq
    exact h

theorem one_ne_zero (z : Bool) : (.one : Number) ≠ .num z 0 := by
  intro h
  injection h with _ hmag
  exact Datum.one_mag_ne_zero hmag

theorem zero_ne_one (z : Bool) : (.num z 0 : Number) ≠ .one := fun h => one_ne_zero z h.symm

theorem equal_zero (z : Bool) : Datum.equal (.num z 0 : Number) (Datum.ofInt 0) = true :=
  Datum.equal_zero_iff.mpr ⟨z, rfl⟩

theorem not_equal_zero (hzero : ∀ z, k ≠ .num z 0) : ¬Datum.equal k (Datum.ofInt 0) = true := by
  rw [Datum.equal_zero_iff]
  exact not_exists.mpr hzero

theorem not_equal_one (hone : k ≠ .one) : ¬Datum.equal k (Datum.ofInt 1) = true := by
  rw [Datum.equal_one_iff]
  exact hone

theorem equal_one : Datum.equal (.one : Number) (Datum.ofInt 1) = true := Datum.equal_one_iff.mpr rfl

/-- The three forms: for a zero, for one, and for any other number -/
theorem replacement_zero (op : LuauOpcode) (ops : List BcOp) (form : KForm) (constant : BcOp) :
    replacement op ops form constant (.num z 0) =
      if op = .add ∨ op = .sub then .code .move [form.nonConstantOp]
      else if op = .mul then .loadn 0
      else if op = .pow then .loadn 1
      else .code op ops := by
  unfold replacement
  rw [if_pos (equal_zero z)]

theorem replacement_one (op : LuauOpcode) (ops : List BcOp) (form : KForm) (constant : BcOp) :
    replacement op ops form constant .one =
      if op = .mul ∨ op = .pow ∨ op = .div then .code .move [form.nonConstantOp] else .code op ops := by
  unfold replacement
  rw [if_neg (not_equal_zero one_ne_zero), if_pos equal_one]

theorem replacement_other (hzero : ∀ z, k ≠ .num z 0) (hone : k ≠ .one) (op : LuauOpcode) (ops : List BcOp)
    (form : KForm) (constant : BcOp) :
    replacement op ops form constant k =
      if form.rk then .code form.kOpcode [constant, form.nonConstantOp]
      else .code form.kOpcode [form.nonConstantOp, constant] := by
  unfold replacement
  rw [if_neg (not_equal_zero hzero), if_neg (not_equal_one hone)]

theorem some_eq_comm {a b : Outcome V d} {p : Prop} (h : b = a ↔ p) : some a = some b ↔ p := by
  rw [Option.some_inj, eq_comm]
  exact h

theorem immValue_zero : (immValue (.int 0) : Value V d) = .number (.num false 0) := by
  show Value.number (Datum.ofInt 0) = _
  rw [Datum.ofInt_zero]

theorem immValue_one : (immValue (.int 1) : Value V d) = .number .one := by
  show Value.number (Datum.ofInt 1) = _
  rw [Datum.ofInt_one]

/-- The constant comes after the operand. -/
theorem add_right_iff (hrhs : val rhs = .number k) (hconstant : func.constOp constant = .number k) :
    (replacement .add [lhs, rhs] ⟨lhs, .vmConstant constant, .addk, false⟩ constant k).exec m func val =
      exec m func val ⟨.add, [lhs, rhs], [], 0⟩ ↔ m.KeptRight .add (val lhs) k := by
  have horiginal : exec m func val ⟨.add, [lhs, rhs], [], 0⟩ = some (m.addSub .add (val lhs) (.number k)) := by
    rw [← hrhs]
    rfl
  rw [horiginal]
  rcases number_cases k with ⟨z, rfl⟩ | rfl | ⟨hzero, hone⟩
  · rw [replacement_zero]
    simp only [Machine.KeptRight, forall_zero_iff]
    exact some_eq_comm m.add_zero_right
  · rw [replacement_one]
    show exec m func val ⟨.add, [lhs, rhs], [], 0⟩ = _ ↔ _
    rw [horiginal]
    exact iff_of_true rfl fun z h => absurd h (one_ne_zero z)
  · rw [replacement_other hzero hone]
    refine iff_of_true ?_ fun z h => absurd h (hzero z)
    show some (m.numOnly .add (val lhs) (constValue (func.constOp constant))) = _
    rw [hconstant, Machine.addSub_eq, Machine.numOnly_eq]
    rfl

theorem sub_right_iff (hrhs : val rhs = .number k) (hconstant : func.constOp constant = .number k) :
    (replacement .sub [lhs, rhs] ⟨lhs, .vmConstant constant, .subk, false⟩ constant k).exec m func val =
      exec m func val ⟨.sub, [lhs, rhs], [], 0⟩ ↔ m.KeptRight .sub (val lhs) k := by
  have horiginal : exec m func val ⟨.sub, [lhs, rhs], [], 0⟩ = some (m.addSub .sub (val lhs) (.number k)) := by
    rw [← hrhs]
    rfl
  rw [horiginal]
  rcases number_cases k with ⟨z, rfl⟩ | rfl | ⟨hzero, hone⟩
  · rw [replacement_zero]
    simp only [Machine.KeptRight, forall_zero_iff]
    exact some_eq_comm m.sub_zero_right
  · rw [replacement_one]
    show exec m func val ⟨.sub, [lhs, rhs], [], 0⟩ = _ ↔ _
    rw [horiginal]
    exact iff_of_true rfl fun z h => absurd h (one_ne_zero z)
  · rw [replacement_other hzero hone]
    refine iff_of_true ?_ fun z h => absurd h (hzero z)
    show some (m.numOnly .sub (val lhs) (constValue (func.constOp constant))) = _
    rw [hconstant, Machine.addSub_eq, Machine.numOnly_eq]
    rfl

theorem mul_right_iff (hrhs : val rhs = .number k) (hconstant : func.constOp constant = .number k) :
    (replacement .mul [lhs, rhs] ⟨lhs, .vmConstant constant, .mulk, false⟩ constant k).exec m func val =
      exec m func val ⟨.mul, [lhs, rhs], [], 0⟩ ↔ m.KeptRight .mul (val lhs) k := by
  have horiginal : exec m func val ⟨.mul, [lhs, rhs], [], 0⟩ = some (m.mulDiv .mul (val lhs) (.number k)) := by
    rw [← hrhs]
    rfl
  rw [horiginal]
  rcases number_cases k with ⟨z, rfl⟩ | rfl | ⟨hzero, hone⟩
  · rw [replacement_zero]
    simp only [Machine.KeptRight, forall_zero_iff, zero_ne_one, false_imp_iff, and_true]
    show some (Outcome.value (immValue (.int 0))) = _ ↔ _
    rw [immValue_zero]
    exact some_eq_comm m.mul_zero_right
  · rw [replacement_one]
    simp only [Machine.KeptRight, one_ne_zero, false_imp_iff, implies_true, true_and, true_imp_iff]
    exact some_eq_comm m.mul_one_right
  · rw [replacement_other hzero hone]
    refine iff_of_true ?_ ⟨fun z h => absurd h (hzero z), fun h => absurd h hone⟩
    show some (m.mulDiv .mul (val lhs) (constValue (func.constOp constant))) = _
    rw [hconstant]
    rfl

theorem div_right_iff (hrhs : val rhs = .number k) (hconstant : func.constOp constant = .number k) :
    (replacement .div [lhs, rhs] ⟨lhs, .vmConstant constant, .divk, false⟩ constant k).exec m func val =
      exec m func val ⟨.div, [lhs, rhs], [], 0⟩ ↔ m.KeptRight .div (val lhs) k := by
  have horiginal : exec m func val ⟨.div, [lhs, rhs], [], 0⟩ = some (m.mulDiv .div (val lhs) (.number k)) := by
    rw [← hrhs]
    rfl
  rw [horiginal]
  rcases number_cases k with ⟨z, rfl⟩ | rfl | ⟨hzero, hone⟩
  · rw [replacement_zero]
    show exec m func val ⟨.div, [lhs, rhs], [], 0⟩ = _ ↔ _
    rw [horiginal]
    exact iff_of_true rfl fun h => absurd h (zero_ne_one z)
  · rw [replacement_one]
    simp only [Machine.KeptRight, true_imp_iff]
    exact some_eq_comm m.div_one_right
  · rw [replacement_other hzero hone]
    refine iff_of_true ?_ fun h => absurd h hone
    show some (m.mulDiv .div (val lhs) (constValue (func.constOp constant))) = _
    rw [hconstant]
    rfl

theorem mod_right_iff (hrhs : val rhs = .number k) (hconstant : func.constOp constant = .number k) :
    (replacement .mod [lhs, rhs] ⟨lhs, .vmConstant constant, .modk, false⟩ constant k).exec m func val =
      exec m func val ⟨.mod, [lhs, rhs], [], 0⟩ ↔ m.KeptRight .mod (val lhs) k := by
  refine iff_of_true ?_ trivial
  rcases number_cases k with ⟨z, rfl⟩ | rfl | ⟨hzero, hone⟩
  · rw [replacement_zero]
    rfl
  · rw [replacement_one]
    rfl
  · rw [replacement_other hzero hone]
    show some (m.numOnly .mod (val lhs) (constValue (func.constOp constant))) = some (m.numOnly .mod (val lhs) (val rhs))
    rw [hconstant, hrhs]
    rfl

/-- The form of powers has cases of its own for numbers. -/
theorem exec_powk (hconstant : func.constOp constant = .number k) :
    exec m func val ⟨.powk, [lhs, constant], [], 0⟩ =
      match val lhs with
      | .number n => some (Outcome.value (.number (powk m n k)))
      | x => some (m.numOnly .pow x (.number k)) := by
  simp only [exec]
  rw [hconstant]
  cases val lhs <;> rfl

theorem pow_right_iff (hrhs : val rhs = .number k) (hconstant : func.constOp constant = .number k) :
    (replacement .pow [lhs, rhs] ⟨lhs, .vmConstant constant, .powk, false⟩ constant k).exec m func val =
      exec m func val ⟨.pow, [lhs, rhs], [], 0⟩ ↔ m.KeptRight .pow (val lhs) k := by
  have horiginal : exec m func val ⟨.pow, [lhs, rhs], [], 0⟩ = some (m.numOnly .pow (val lhs) (.number k)) := by
    rw [← hrhs]
    rfl
  rw [horiginal]
  rcases number_cases k with ⟨z, rfl⟩ | rfl | ⟨hzero, hone⟩
  · rw [replacement_zero]
    simp only [Machine.KeptRight, forall_zero_iff, zero_ne_one, false_imp_iff, and_true]
    show some (Outcome.value (immValue (.int 1))) = _ ↔ _
    rw [immValue_one]
    exact some_eq_comm m.pow_right_one
  · rw [replacement_one]
    simp only [Machine.KeptRight, one_ne_zero, false_imp_iff, implies_true, true_and, true_imp_iff, ne_eq, not_true,
      and_true]
    exact some_eq_comm m.pow_right_self
  · rw [replacement_other hzero hone]
    have hkept : m.KeptRight .pow (val lhs) k ↔ ∀ n, val lhs = .number n → powk m n k = m.pow n k :=
      ⟨fun h => h.2.2 hzero hone, fun h => ⟨fun z heq => absurd heq (hzero z), fun heq => absurd heq hone, fun _ _ => h⟩⟩
    rw [hkept]
    show exec m func val ⟨.powk, [lhs, constant], [], 0⟩ = _ ↔ _
    rw [exec_powk m hconstant]
    cases val lhs with
    | number n => simp [Machine.numOnly, Machine.numArith]
    | _ => exact iff_of_true rfl nofun

/-- The constant comes before the operand. -/
theorem add_left_iff (hlhs : val lhs = .number k) (hconstant : func.constOp constant = .number k) :
    (replacement .add [lhs, rhs] ⟨rhs, .vmConstant constant, .addk, false⟩ constant k).exec m func val =
      exec m func val ⟨.add, [lhs, rhs], [], 0⟩ ↔ m.KeptLeft .add k (val rhs) := by
  have horiginal : exec m func val ⟨.add, [lhs, rhs], [], 0⟩ = some (m.addSub .add (.number k) (val rhs)) := by
    rw [← hlhs]
    rfl
  rw [horiginal]
  rcases number_cases k with ⟨z, rfl⟩ | rfl | ⟨hzero, hone⟩
  · rw [replacement_zero]
    have hkept : m.KeptLeft .add (.num z 0) (val rhs) ↔
        m.Unchanged (fun n => ¬(n = .num true 0 ∧ z = false)) none (m.fallback .add (.number (.num z 0)) (val rhs))
          (val rhs) :=
      ⟨fun h => h.1 z rfl, fun h => ⟨forall_zero_iff.mpr h, fun hzero => absurd rfl (hzero z)⟩⟩
    rw [hkept]
    exact some_eq_comm m.add_zero_left
  · rw [replacement_one]
    show exec m func val ⟨.add, [lhs, rhs], [], 0⟩ = _ ↔ _
    rw [horiginal]
    exact iff_of_true rfl ⟨fun z h => absurd h (one_ne_zero z), fun _ h => absurd rfl h⟩
  · rw [replacement_other hzero hone]
    show some (m.numOnly .add (val rhs) (constValue (func.constOp constant))) = _ ↔ _
    rw [hconstant, Option.some_inj]
    refine m.add_swap.trans ⟨fun h => ⟨fun z heq => absurd heq (hzero z), fun _ _ => h⟩, fun h => h.2 hzero hone⟩

theorem sub_left_iff (hlhs : val lhs = .number k) (hconstant : func.constOp constant = .number k) :
    (replacement .sub [lhs, rhs] ⟨rhs, .vmConstant constant, .subrk, true⟩ constant k).exec m func val =
      exec m func val ⟨.sub, [lhs, rhs], [], 0⟩ ↔ m.KeptLeft .sub k (val rhs) := by
  have horiginal : exec m func val ⟨.sub, [lhs, rhs], [], 0⟩ = some (m.addSub .sub (.number k) (val rhs)) := by
    rw [← hlhs]
    rfl
  rw [horiginal]
  rcases number_cases k with ⟨z, rfl⟩ | rfl | ⟨hzero, hone⟩
  · rw [replacement_zero]
    simp only [Machine.KeptLeft, forall_zero_iff]
    exact some_eq_comm m.sub_zero_left
  · rw [replacement_one]
    show exec m func val ⟨.sub, [lhs, rhs], [], 0⟩ = _ ↔ _
    rw [horiginal]
    exact iff_of_true rfl fun z h => absurd h (one_ne_zero z)
  · rw [replacement_other hzero hone]
    refine iff_of_true ?_ fun z h => absurd h (hzero z)
    show some (m.numOnly .sub (constValue (func.constOp constant)) (val rhs)) = _
    rw [hconstant, Machine.addSub_eq, Machine.numOnly_eq]
    rfl

theorem mul_left_iff (hlhs : val lhs = .number k) (hconstant : func.constOp constant = .number k) :
    (replacement .mul [lhs, rhs] ⟨rhs, .vmConstant constant, .mulk, false⟩ constant k).exec m func val =
      exec m func val ⟨.mul, [lhs, rhs], [], 0⟩ ↔ m.KeptLeft .mul k (val rhs) := by
  have horiginal : exec m func val ⟨.mul, [lhs, rhs], [], 0⟩ = some (m.mulDiv .mul (.number k) (val rhs)) := by
    rw [← hlhs]
    rfl
  rw [horiginal]
  rcases number_cases k with ⟨z, rfl⟩ | rfl | ⟨hzero, hone⟩
  · rw [replacement_zero]
    simp only [Machine.KeptLeft, forall_zero_iff, zero_ne_one, false_imp_iff, and_true]
    show some (Outcome.value (immValue (.int 0))) = _ ↔ _
    rw [immValue_zero]
    exact some_eq_comm m.mul_zero_left
  · rw [replacement_one]
    simp only [Machine.KeptLeft, one_ne_zero, false_imp_iff, implies_true, true_and, true_imp_iff, ne_eq, not_true,
      and_true]
    exact some_eq_comm m.mul_one_left
  · rw [replacement_other hzero hone]
    show some (m.mulDiv .mul (val rhs) (constValue (func.constOp constant))) = _ ↔ _
    rw [hconstant, Option.some_inj]
    exact m.mul_swap.trans
      ⟨fun h => ⟨fun z heq => absurd heq (hzero z), fun heq => absurd heq hone, fun _ _ => h⟩, fun h => h.2.2 hzero hone⟩

theorem div_left_iff (hlhs : val lhs = .number k) (hconstant : func.constOp constant = .number k) :
    (replacement .div [lhs, rhs] ⟨rhs, .vmConstant constant, .divrk, true⟩ constant k).exec m func val =
      exec m func val ⟨.div, [lhs, rhs], [], 0⟩ ↔ m.KeptLeft .div k (val rhs) := by
  have horiginal : exec m func val ⟨.div, [lhs, rhs], [], 0⟩ = some (m.mulDiv .div (.number k) (val rhs)) := by
    rw [← hlhs]
    rfl
  rw [horiginal]
  rcases number_cases k with ⟨z, rfl⟩ | rfl | ⟨hzero, hone⟩
  · rw [replacement_zero]
    show exec m func val ⟨.div, [lhs, rhs], [], 0⟩ = _ ↔ _
    rw [horiginal]
    exact iff_of_true rfl ⟨fun h => absurd h (zero_ne_one z), fun hzero => absurd rfl (hzero z)⟩
  · rw [replacement_one]
    have hkept : m.KeptLeft .div .one (val rhs) ↔
        m.Unchanged (fun n => n = .nan ∨ n = .one ∨ n = Datum.neg .one)
          (some fun c => c = .nan ∨ c = .one ∨ c = Datum.neg .one) (m.mulDivFallback .div (.number .one) (val rhs))
          (val rhs) :=
      ⟨fun h => h.1 rfl, fun h => ⟨fun _ => h, fun _ hne => absurd rfl hne⟩⟩
    rw [hkept]
    exact some_eq_comm m.div_one_left
  · rw [replacement_other hzero hone]
    show some (m.numOnly .div (constValue (func.constOp constant)) (val rhs)) = _ ↔ _
    rw [hconstant, Option.some_inj]
    exact m.div_left.trans ⟨fun h => ⟨fun heq => absurd heq hone, fun _ _ => h⟩, fun h => h.2 hzero hone⟩

end Forms

/-! ### The rewriting of a graph -/

section Rewriting

variable {state : SccpState} {func : BcFunction} {rt : BcOp → Value V d} {i : ℕ} {op kOpcode : LuauOpcode} {tm : TMS}
  {lhs rhs constant : BcOp} {r : Replacement} {k : Number}

/-- The values of the operands: those of the constants where they are known, and the values `rt` where not -/
def operandValue (state : SccpState) (func : BcFunction) (rt : BcOp → Value V d) (op : BcOp) : Value V d :=
  match state.operandLattice op with
  | .vmConstant constant => constValue (func.constOp constant)
  | .immConstant imm => immValue imm
  | _ => rt op

def numberOf (func : BcFunction) : ConstnessLattice → Number
  | .vmConstant op => asNumber func op
  | _ => Datum.ofInt 0

def arithTMS : LuauOpcode → Option TMS
  | .add => some .add
  | .sub => some .sub
  | .mul => some .mul
  | .div => some .div
  | .idiv => some .idiv
  | .mod => some .mod
  | .pow => some .pow
  | _ => none

/-- A number is known of the operand `k`, and nothing of the operand `x`. -/
def KnownNumber (state : SccpState) (func : BcFunction) (k x : BcOp) : Prop :=
  isConstNumber func (state.operandLattice k) ∧ state.operandLattice x = .notAConstant

instance (k x : BcOp) : Decidable (KnownNumber state func k x) :=
  inferInstanceAs (Decidable (_ ∧ _))

/-- A number is known before an operation that has no form for it. -/
def Unset (state : SccpState) (func : BcFunction) (i : ℕ) : Prop :=
  ((func.inst i).op = .mod ∨ (func.inst i).op = .pow) ∧
    ∃ lhs rhs, (func.inst i).ops = [lhs, rhs] ∧ ¬KnownNumber state func rhs lhs ∧ KnownNumber state func lhs rhs

/-- When the instruction leaves what it left before, with the values `rt` of what is not known -/
def Kept (state : SccpState) (func : BcFunction) (rt : BcOp → Value V d) (i : ℕ) : Prop :=
  match arithTMS (func.inst i).op, (func.inst i).ops with
  | some tm, [lhs, rhs] =>
    if KnownNumber state func rhs lhs then m.KeptRight tm (rt lhs) (numberOf func (state.operandLattice rhs))
    else if KnownNumber state func lhs rhs then m.KeptLeft tm (numberOf func (state.operandLattice lhs)) (rt rhs)
    else True
  | _, _ => True

theorem KnownNumber.spec {x : BcOp} (h : KnownNumber state func constant x) (rt : BcOp → Value V d) :
    ∃ k, state.operandLattice constant = .vmConstant k ∧
      func.constOp k = .number (numberOf func (state.operandLattice constant)) ∧
      operandValue state func rt constant = .number (numberOf func (state.operandLattice constant)) ∧
      operandValue state func rt x = rt x := by
  obtain ⟨hnumber, hother⟩ := h
  have hx : operandValue state func rt x = rt x := by
    unfold operandValue
    rw [hother]
  cases hlat : state.operandLattice constant with
  | vmConstant k =>
    rw [hlat] at hnumber
    have hk : func.constOp k = .number (asNumber func k) := by
      have harith : isArithmeticConstant func k = true := hnumber
      unfold isArithmeticConstant at harith
      unfold asNumber
      cases hconst : func.constOp k with
      | number n => rfl
      | _ =>
        rw [hconst] at harith
        cases harith
    refine ⟨k, rfl, hk, ?_, hx⟩
    unfold operandValue
    rw [hlat]
    show constValue (func.constOp k) = _
    rw [hk]
    rfl
  | _ =>
    rw [hlat] at hnumber
    cases hnumber

theorem right_iff (hk : arithToKOpcode op = some kOpcode) (htm : arithTMS op = some tm) {val : BcOp → Value V d}
    (hrhs : val rhs = .number k) (hconstant : func.constOp constant = .number k) :
    (replacement op [lhs, rhs] ⟨lhs, .vmConstant constant, kOpcode, false⟩ constant k).exec m func val =
      exec m func val ⟨op, [lhs, rhs], [], 0⟩ ↔ m.KeptRight tm (val lhs) k := by
  cases op with
  | add => cases hk; cases htm; exact add_right_iff m hrhs hconstant
  | sub => cases hk; cases htm; exact sub_right_iff m hrhs hconstant
  | mul => cases hk; cases htm; exact mul_right_iff m hrhs hconstant
  | div => cases hk; cases htm; exact div_right_iff m hrhs hconstant
  | mod => cases hk; cases htm; exact mod_right_iff m hrhs hconstant
  | pow => cases hk; cases htm; exact pow_right_iff m hrhs hconstant
  | _ => cases hk

/-- What a number before an operation chooses -/
def leftForm (op kOpcode : LuauOpcode) (rhs : BcOp) (lhsLat : ConstnessLattice) : KForm :=
  match op with
  | .add | .mul => ⟨rhs, lhsLat, kOpcode, false⟩
  | .sub => ⟨rhs, lhsLat, .subrk, true⟩
  | .div => ⟨rhs, lhsLat, .divrk, true⟩
  | _ => ⟨.none, .undetermined, kOpcode, false⟩

theorem left_iff (hk : arithToKOpcode op = some kOpcode) (htm : arithTMS op = some tm) (hmod : op ≠ .mod)
    (hpow : op ≠ .pow) {val : BcOp → Value V d} (hlhs : val lhs = .number k)
    (hconstant : func.constOp constant = .number k) :
    (replacement op [lhs, rhs] (leftForm op kOpcode rhs (.vmConstant constant)) constant k).exec m func val =
      exec m func val ⟨op, [lhs, rhs], [], 0⟩ ↔ m.KeptLeft tm k (val rhs) := by
  cases op with
  | add => cases hk; cases htm; exact add_left_iff m hlhs hconstant
  | sub => cases hk; cases htm; exact sub_left_iff m hlhs hconstant
  | mul => cases hk; cases htm; exact mul_left_iff m hlhs hconstant
  | div => cases hk; cases htm; exact div_left_iff m hlhs hconstant
  | mod => exact absurd rfl hmod
  | pow => exact absurd rfl hpow
  | _ => cases hk

theorem chooseK_eq (op kOpcode : LuauOpcode) (lhs rhs : BcOp) :
    chooseK func op kOpcode lhs rhs (state.operandLattice lhs) (state.operandLattice rhs) =
      if KnownNumber state func rhs lhs then some ⟨lhs, state.operandLattice rhs, kOpcode, false⟩
      else if KnownNumber state func lhs rhs then some (leftForm op kOpcode rhs (state.operandLattice lhs))
      else none := by
  unfold chooseK
  by_cases hright : KnownNumber state func rhs lhs
  · rw [if_pos hright]
    exact if_pos hright
  · rw [if_neg hright]
    apply (if_neg hright).trans
    by_cases hleft : KnownNumber state func lhs rhs
    · rw [if_pos hleft]
      apply (if_pos hleft).trans
      cases op <;> rfl
    · rw [if_neg hleft]
      exact if_neg hleft

theorem leftForm_constantK (hk : arithToKOpcode op = some kOpcode) (hmod : op ≠ .mod) (hpow : op ≠ .pow) (rhs : BcOp)
    (lhsLat : ConstnessLattice) : (leftForm op kOpcode rhs lhsLat).constantK = lhsLat := by
  cases op with
  | mod => exact absurd rfl hmod
  | pow => exact absurd rfl hpow
  | add => rfl
  | sub => rfl
  | mul => rfl
  | div => rfl
  | _ => cases hk

theorem arithTMS_of_arithToKOpcode (h : arithToKOpcode op = some kOpcode) : ∃ tm, arithTMS op = some tm := by
  cases op <;> first | exact ⟨_, rfl⟩ | cases h

theorem asNumber_eq (h : func.constOp constant = .number k) : asNumber func constant = k := by
  unfold asNumber
  rw [h]

/-- The rewriting of an instruction fails where its number is unset; else the instruction keeps its meaning as the
condition says. -/
theorem newCode_spec (m : Machine V d) (state : SccpState) (func : BcFunction) (rt : BcOp → Value V d) (i : ℕ) :
    (newCode state func i = none ∧ Unset state func i) ∨
    ∃ r, newCode state func i = some r ∧ ¬Unset state func i ∧
      (r.exec m func (operandValue state func rt) = exec m func (operandValue state func rt) (func.inst i) ↔
        Kept m state func rt i) := by
  have hexec : ∀ ops, (func.inst i).ops = ops → ∀ val : BcOp → Value V d,
      exec m func val (func.inst i) = exec m func val ⟨(func.inst i).op, ops, [], 0⟩ := by
    intro ops hops val
    rw [← hops]
    rfl
  by_cases hform : ∃ kOpcode lhs rhs, arithToKOpcode (func.inst i).op = some kOpcode ∧ (func.inst i).ops = [lhs, rhs]
  · obtain ⟨kOpcode, lhs, rhs, hk, hops⟩ := hform
    obtain ⟨tm, htm⟩ := arithTMS_of_arithToKOpcode hk
    have hunset : Unset state func i ↔ ((func.inst i).op = .mod ∨ (func.inst i).op = .pow) ∧
        ¬KnownNumber state func rhs lhs ∧ KnownNumber state func lhs rhs := by
      unfold Unset
      rw [hops]
      constructor
      · intro ⟨hop, lhs', rhs', hops', h⟩
        cases hops'
        exact ⟨hop, h⟩
      · intro ⟨hop, h⟩
        exact ⟨hop, lhs, rhs, rfl, h⟩
    unfold newCode Kept
    rw [hunset, hexec _ hops]
    simp only [hk, hops, htm, chooseK_eq]
    by_cases hright : KnownNumber state func rhs lhs
    · obtain ⟨constant, hlat, hconstant, hval, hx⟩ := hright.spec rt
      rw [if_pos hright, if_pos hright]
      simp only [hlat]
      rw [hlat] at hconstant hval
      refine Or.inr ⟨_, rfl, fun h => h.2.1 hright, ?_⟩
      rw [asNumber_eq hconstant, ← hx]
      exact right_iff m hk htm hval hconstant
    · rw [if_neg hright, if_neg hright]
      by_cases hleft : KnownNumber state func lhs rhs
      · rw [if_pos hleft, if_pos hleft]
        by_cases hop : (func.inst i).op = .mod ∨ (func.inst i).op = .pow
        · left
          rcases hop with hop | hop
          all_goals
            rw [hop]
            exact ⟨rfl, by simp, hright, hleft⟩
        · obtain ⟨constant, hlat, hconstant, hval, hx⟩ := hleft.spec rt
          rw [hlat] at hconstant hval ⊢
          have hmod : (func.inst i).op ≠ .mod := fun h => hop (Or.inl h)
          have hpow : (func.inst i).op ≠ .pow := fun h => hop (Or.inr h)
          simp only [leftForm_constantK hk hmod hpow]
          refine Or.inr ⟨_, rfl, fun h => hop h.1, ?_⟩
          rw [asNumber_eq hconstant, ← hx]
          exact left_iff m hk htm hmod hpow hval hconstant
      · rw [if_neg hleft, if_neg hleft]
        exact Or.inr ⟨_, rfl, fun h => hleft h.2.2, iff_of_true rfl trivial⟩
  · have hnew : newCode state func i = some (.code (func.inst i).op (func.inst i).ops) := by
      unfold newCode
      split
      · next kOpcode lhs rhs hk hops => exact absurd ⟨kOpcode, lhs, rhs, hk, hops⟩ hform
      · rfl
    have hkept : Kept m state func rt i := by
      unfold Kept
      split
      · next tm lhs rhs htm hops =>
        have htm' : tm = .idiv := by
          cases hop : (func.inst i).op with
          | idiv =>
            rw [hop] at htm
            exact (Option.some.inj htm).symm
          | _ =>
            rw [hop] at htm
            first | exact absurd ⟨_, lhs, rhs, by rw [hop]; rfl, hops⟩ hform | cases htm
        rw [htm']
        split_ifs <;> trivial
      · trivial
    refine Or.inr ⟨_, hnew, ?_, iff_of_true rfl hkept⟩
    intro ⟨hop, lhs, rhs, hops, _⟩
    rcases hop with hop | hop
    all_goals exact hform ⟨_, lhs, rhs, by rw [hop]; rfl, hops⟩

/-- The arithmetic of the machine -/
def IsArith : LuauOpcode → Prop
  | .add | .sub | .mul | .div | .idiv | .mod | .pow | .minus => True
  | op => IsForm op ∧ op ≠ .move

theorem IsArith.loads_not (h : IsArith op) : op ≠ .loadn ∧ op ≠ .loadb := by
  constructor
  all_goals
    intro hop
    rw [hop] at h
    exact h.1

theorem IsForm.loads_not (h : IsForm op) : op ≠ .loadn ∧ op ≠ .loadb := by
  constructor
  all_goals
    intro hop
    rw [hop] at h
    exact h

/-- Only loads read immediates. -/
theorem exec_congr {func' : BcFunction} (hconstants : func'.constants = func.constants) (val : BcOp → Value V d)
    {inst : BcInst} (hn : inst.op ≠ .loadn) (hb : inst.op ≠ .loadb) : exec m func' val inst = exec m func val inst := by
  have hconst : func'.constOp = func.constOp := by
    funext op
    unfold BcFunction.constOp
    rw [hconstants]
  obtain ⟨op, ops, uses, block⟩ := inst
  unfold exec
  rw [hconst]
  cases op with
  | loadn => exact absurd rfl hn
  | loadb => exact absurd rfl hb
  | loadk =>
    match ops with
    | [] => rfl
    | a :: _ :: _ => cases a <;> rfl
    | [a] => cases a <;> rfl
  | _ =>
    match ops with
    | [] => rfl
    | [_] => rfl
    | [_, _] => rfl
    | _ :: _ :: _ :: _ => rfl

/-- An instruction of the code of a replacement does what the replacement does. -/
theorem exec_of_matches {func' : BcFunction} (hconstants : func'.constants = func.constants)
    (val : BcOp → Value V d) (hm : func'.Matches i r)
    (hloads : ∀ op ops, r = .code op ops → op ≠ .loadn ∧ op ≠ .loadb) :
    exec m func' val (func'.inst i) = r.exec m func val := by
  have hcode : ∀ op ops, func'.code i = (op, ops) → exec m func' val (func'.inst i) = exec m func' val ⟨op, ops, [], 0⟩ := by
    intro op ops h
    have hop : (func'.inst i).op = op := congrArg Prod.fst h
    have hops : (func'.inst i).ops = ops := congrArg Prod.snd h
    rw [← hop, ← hops]
    rfl
  cases r with
  | code op ops =>
    obtain ⟨hn, hb⟩ := hloads op ops rfl
    rw [hcode op ops hm]
    exact exec_congr m hconstants val hn hb
  | loadn n =>
    obtain ⟨k, hk, hn⟩ := hm
    rw [hcode _ _ hk]
    show some (Outcome.value (immValue (func'.immediates.getD k (.boolean false)))) = some (Outcome.value (immValue (.int n)))
    rw [List.getD_eq_getElem?_getD, hn]
    rfl

/-- The rewriting succeeds, and the instruction leaves what it left before, under exactly these conditions. -/
theorem arithToK_kept_iff (m : Machine V d) (blockUses : ℕ → List BcOp) (rt : BcOp → Value V d)
    (harith : IsArith (func.inst i).op) (hi : Visited blockUses func i) :
    (∃ func', arithToK state blockUses func = .ok func' ∧
      exec m func' (operandValue state func rt) (func'.inst i) =
        exec m func (operandValue state func rt) (func.inst i)) ↔
      (∀ j, Visited blockUses func j → ¬Unset state func j) ∧ Kept m state func rt i := by
  rcases arithToK_spec state blockUses func with ⟨func', hrun, hconstants, -, hdone⟩ | ⟨herror, j, hj, hnone⟩
  · have hset : ∀ j, Visited blockUses func j → ¬Unset state func j := by
      intro j hj hunset
      obtain ⟨r, hr, -⟩ := hdone j hj
      rcases newCode_spec m state func rt j with ⟨hnone, -⟩ | ⟨_, _, hset, -⟩
      · rw [hnone] at hr
        cases hr
      · exact hset hunset
    have hkept : exec m func' (operandValue state func rt) (func'.inst i) =
        exec m func (operandValue state func rt) (func.inst i) ↔ Kept m state func rt i := by
      obtain ⟨r, hr, hm⟩ := hdone i hi
      have hloads : ∀ op ops, r = .code op ops → op ≠ .loadn ∧ op ≠ .loadb := by
        intro op ops hcode
        rcases newCode_cases hr with hsame | ⟨n, hload⟩ | ⟨op', ops', hform, hop⟩
        · cases hcode.symm.trans hsame
          exact harith.loads_not
        · cases hcode.symm.trans hload
        · cases hcode.symm.trans hform
          exact hop.loads_not
      rw [exec_of_matches m hconstants _ hm hloads]
      rcases newCode_spec m state func rt i with ⟨hnone, -⟩ | ⟨r', hr', -, hiff⟩
      · rw [hnone] at hr
        cases hr
      · cases hr.symm.trans hr'
        exact hiff
    constructor
    · intro ⟨func'', hrun', heq⟩
      cases hrun.symm.trans hrun'
      exact ⟨hset, hkept.mp heq⟩
    · intro h
      exact ⟨func', hrun, hkept.mpr h.2⟩
  · constructor
    · intro ⟨func', hrun, _⟩
      rw [herror] at hrun
      cases hrun
    · intro h
      rcases newCode_spec m state func rt j with ⟨-, hunset⟩ | ⟨r, hr, -, -⟩
      · exact absurd hunset (h.1 j hj)
      · rw [hnone] at hr
        cases hr

end Rewriting

end Luwu.Sccp
