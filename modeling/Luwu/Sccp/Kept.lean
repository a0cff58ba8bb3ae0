import Luwu.Sccp.Rewrite

/-!
# When a form with a constant keeps the meaning

For each operation, place of the constant and value of the constant, the values of the other operand for which the
rewritten instruction does what the original one does.
-/

namespace Luwu.Sccp

open Floating

namespace Machine

variable {V : Format} {d : ℕ} (m : Machine V d) {op : TMS} {x y : Value V d} {a b : Number}

theorem numOnly_eq (op : TMS) (x y : Value V d) : m.numOnly op x y = m.doarith op x y := by
  unfold numOnly
  split
  · rfl
  · rfl

/-- The metamethod that an instruction calls itself is the one of its first operand. -/
theorem doarith_fastTM {fn : Value V d} (h : m.fastTM op x = some fn) (y : Value V d) :
    m.doarith op x y = m.callTM fn x y := by
  unfold fastTM at h
  cases x with
  | userdata id =>
    have htm : m.gettmbyobj (.userdata id) op = some fn := by
      simp only [Option.filter_eq_some_iff] at h
      exact h.1
    have hfallback : m.fallback op (.userdata id) y = m.callTM fn (.userdata id) y := by
      unfold fallback callBinTM
      rw [htm]
    rw [← hfallback]
    cases y <;> rfl
  | _ => cases h

theorem addSub_eq (op : TMS) (x y : Value V d) : m.addSub op x y = m.doarith op x y := by
  unfold addSub
  split
  · rfl
  · rfl
  · split
    · next fn h => exact (m.doarith_fastTM h y).symm
    · rfl

theorem mulDiv_eq (hx : ∀ n, x ≠ .number n) (op : TMS) (y : Value V d) : m.mulDiv op x y = m.doarith op x y := by
  cases hx' : x with
  | number n => exact absurd hx' (hx n)
  | _ =>
    rw [mulDiv]
    · cases hfast : m.fastTM op x with
      | some fn =>
        rw [hx'] at hfast
        rw [hfast]
        exact (m.doarith_fastTM hfast y).symm
      | none =>
        rw [hx'] at hfast
        rw [hfast]
    all_goals nofun

/-- With a number first, the metamethod that the instruction calls itself is the one of its second operand. -/
def mulDivFallback (op : TMS) (x y : Value V d) : Outcome V d :=
  match m.fastTM op y with
  | some fn => m.callTM fn x y
  | none => m.fallback op x y

/-- An operation whose other operand is a number: `number` is what it does to numbers, `component` to the components of
vectors, and `fallback` is its result for anything else. -/
def onOperand (number : Number → Number) (component : Option (Datum V → Datum V)) (fallback : Outcome V d)
    (x : Value V d) : Outcome V d :=
  match x with
  | .vector v =>
    match component with
    | some f => .value (.vector fun i => f (v i))
    | none => fallback
  | x =>
    match m.tonumber x with
    | some n => .value (.number (number n))
    | none => fallback

theorem onOperand_string (number : Number → Number) (component : Option (Datum V → Datum V)) (fallback : Outcome V d)
    (s : Text) :
    m.onOperand number component fallback (.string s) =
      match m.tonumber (.string s) with
      | some n => .value (.number (number n))
      | none => fallback := rfl

theorem doarith_right (op : TMS) (x : Value V d) (k : Number) :
    m.doarith op x (.number k) =
      m.onOperand (fun n => m.numArith op n k) ((scaleArith op).map fun f c => f c k.convert)
        (m.fallback op x (.number k)) x := by
  cases x with
  | vector v => cases op <;> rfl
  | string s =>
    have hvector : m.vectorArith op (.string s) (.number k) = none := rfl
    have hk : m.tonumber (.number k) = some k := rfl
    unfold doarith
    rw [onOperand_string, hvector, hk]
    cases m.tonumber (.string s) <;> rfl
  | _ => rfl

theorem doarith_left (op : TMS) (k : Number) (x : Value V d) :
    m.doarith op (.number k) x =
      m.onOperand (fun n => m.numArith op k n) ((scaleArith op).map fun f c => f k.convert c)
        (m.fallback op (.number k) x) x := by
  cases x with
  | vector v => cases op <;> rfl
  | string s =>
    have hvector : m.vectorArith op (.number k) (.string s) = none := rfl
    have hk : m.tonumber (.number k) = some k := rfl
    unfold doarith
    rw [onOperand_string, hvector, hk]
    cases m.tonumber (.string s) <;> rfl
  | _ => rfl

theorem mulDiv_right (op : TMS) (x : Value V d) (k : Number) : m.mulDiv op x (.number k) = m.doarith op x (.number k) := by
  cases x with
  | number n => rfl
  | _ =>
    apply m.mulDiv_eq
    nofun

theorem mulDiv_number (op : TMS) (k : Number) (x : Value V d) :
    m.mulDiv op (.number k) x =
      match m.fastTM op x with
      | some fn => m.callTM fn (.number k) x
      | none => m.doarith op (.number k) x := by
  cases x <;> rfl

theorem mulDiv_left (op : TMS) (k : Number) (x : Value V d) :
    m.mulDiv op (.number k) x =
      m.onOperand (fun n => m.numArith op k n) ((scaleArith op).map fun f c => f k.convert c)
        (m.mulDivFallback op (.number k) x) x := by
  cases x with
  | userdata id => rfl
  | _ =>
    rw [mulDiv_number]
    exact m.doarith_left op k _

section Operand

variable {g : Number → Number} {h : Option (Datum V → Datum V)} {r r' : Outcome V d}

/-- When an operation leaves its operand: it does to numbers, and to components if it is defined for vectors; for the
other values its result is theirs. -/
def Unchanged (number : Number → Prop) (component : Option (Datum V → Prop)) (r : Outcome V d) (x : Value V d) : Prop :=
  match x with
  | .number n => number n
  | .vector v =>
    match component with
    | some p => ∀ i, p (v i)
    | none => r = .value x
  | x => m.tonumber x = none ∧ r = .value x

/-- When an operation leaves the number `c` -/
def Constant (number : Number → Prop) (scales : Bool) (r : Outcome V d) (c : Number) (x : Value V d) : Prop :=
  match x with
  | .vector _ => scales = false ∧ r = .value (.number c)
  | x =>
    match m.tonumber x with
    | some n => number n
    | none => r = .value (.number c)

/-- The operands for which the result of no metamethod is asked -/
def Plain (scales : Bool) (x : Value V d) : Prop :=
  match x with
  | .vector _ => scales = true
  | x => (m.tonumber x).isSome

theorem onOperand_eq_self : m.onOperand g h r x = .value x ↔
    m.Unchanged (fun n => g n = n) (h.map fun f c => f c = c) r x := by
  unfold onOperand Unchanged
  cases x with
  | number n => simp [tonumber]
  | vector v =>
    cases h with
    | none => rfl
    | some f => simp [funext_iff]
  | string s =>
    simp only [tonumber]
    cases m.str2d s with
    | none => simp
    | some n => simp
  | _ => simp [tonumber]

theorem onOperand_eq_number {c : Number} : m.onOperand g h r x = .value (.number c) ↔
    m.Constant (fun n => g n = c) h.isSome r c x := by
  unfold onOperand Constant
  cases x with
  | vector v => cases h <;> simp
  | string s =>
    simp only [tonumber]
    cases m.str2d s <;> simp
  | _ => simp [tonumber]

theorem onOperand_eq_onOperand : m.onOperand g h r x = m.onOperand g h r' x ↔ m.Plain h.isSome x ∨ r = r' := by
  unfold onOperand Plain
  cases x with
  | vector v => cases h <;> simp
  | string s =>
    simp only [tonumber]
    cases m.str2d s <;> simp
  | _ => simp [tonumber]

end Operand

/-! ### Conditions -/

/-- When the form that an operation with the constant `k` after it takes does what the operation does -/
def KeptRight (op : TMS) (x : Value V d) (k : Number) : Prop :=
  match op with
  | .add =>
    ∀ z, k = .num z 0 →
      m.Unchanged (fun n => ¬(n = .num true 0 ∧ z = false)) none (m.fallback .add x (.number k)) x
  | .sub =>
    ∀ z, k = .num z 0 →
      m.Unchanged (fun n => ¬(n = .num true 0 ∧ z = true)) none (m.fallback .sub x (.number k)) x
  | .mul =>
    (∀ z, k = .num z 0 →
      m.Constant (fun n => ∃ mag, n = .num z mag ∧ (mag : ℕ) ≠ Format.double.top) true (m.fallback .mul x (.number k))
        (.num false 0) x) ∧
    (k = .one → m.Unchanged (fun _ => True) (some fun _ => True) (m.fallback .mul x (.number k)) x)
  | .div => k = .one → m.Unchanged (fun _ => True) (some fun _ => True) (m.fallback .div x (.number k)) x
  | .pow =>
    (∀ z, k = .num z 0 → m.Constant (fun n => m.pow n k = .one) false (m.fallback .pow x (.number k)) .one x) ∧
    (k = .one → m.Unchanged (fun n => m.pow n k = n) none (m.fallback .pow x (.number k)) x) ∧
    ((∀ z, k ≠ .num z 0) → k ≠ .one → ∀ n, x = .number n → powk m n k = m.pow n k)
  | .mod => True
  | .idiv => True
  | .unm => True

/-- When the form that an operation with the constant `k` before it takes does what the operation does -/
def KeptLeft (op : TMS) (k : Number) (x : Value V d) : Prop :=
  match op with
  | .add =>
    (∀ z, k = .num z 0 →
      m.Unchanged (fun n => ¬(n = .num true 0 ∧ z = false)) none (m.fallback .add (.number k) x) x) ∧
    ((∀ z, k ≠ .num z 0) → k ≠ .one →
      m.Plain false x ∨ m.fallback .add x (.number k) = m.fallback .add (.number k) x)
  | .sub =>
    ∀ z, k = .num z 0 →
      m.Unchanged (fun n => n = .nan ∨ n = .num false 0 ∧ z = false) none (m.fallback .sub (.number k) x) x
  | .mul =>
    (∀ z, k = .num z 0 →
      m.Constant (fun n => ∃ mag, n = .num z mag ∧ (mag : ℕ) ≠ Format.double.top) true
        (m.mulDivFallback .mul (.number k) x) (.num false 0) x) ∧
    (k = .one → m.Unchanged (fun _ => True) (some fun _ => True) (m.mulDivFallback .mul (.number k) x) x) ∧
    ((∀ z, k ≠ .num z 0) → k ≠ .one →
      m.Plain true x ∨ m.fallback .mul x (.number k) = m.mulDivFallback .mul (.number k) x)
  | .div =>
    (k = .one →
      m.Unchanged (fun n => n = .nan ∨ n = .one ∨ n = Datum.neg .one)
        (some fun c => c = .nan ∨ c = .one ∨ c = Datum.neg .one) (m.mulDivFallback .div (.number k) x) x) ∧
    ((∀ z, k ≠ .num z 0) → k ≠ .one →
      m.Plain true x ∨ m.fallback .div (.number k) x = m.mulDivFallback .div (.number k) x)
  | .idiv => True
  | .mod => True
  | .pow => True
  | .unm => True

section Right

variable {z : Bool} {k : Number}

theorem add_zero_right : m.addSub .add x (.number (.num z 0)) = .value x ↔
    m.Unchanged (fun n => ¬(n = .num true 0 ∧ z = false)) none (m.fallback .add x (.number (.num z 0))) x := by
  rw [addSub_eq, doarith_right, onOperand_eq_self]
  show m.Unchanged (fun n => Datum.add n (.num z 0) = n) none _ x ↔ _
  simp only [Datum.add_zero_eq_iff]

theorem sub_zero_right : m.addSub .sub x (.number (.num z 0)) = .value x ↔
    m.Unchanged (fun n => ¬(n = .num true 0 ∧ z = true)) none (m.fallback .sub x (.number (.num z 0))) x := by
  rw [addSub_eq, doarith_right, onOperand_eq_self]
  show m.Unchanged (fun n => Datum.sub n (.num z 0) = n) none _ x ↔ _
  simp only [Datum.sub_zero_eq_iff]

theorem mul_zero_right : m.mulDiv .mul x (.number (.num z 0)) = .value (.number (.num false 0)) ↔
    m.Constant (fun n => ∃ mag, n = .num z mag ∧ (mag : ℕ) ≠ Format.double.top) true
      (m.fallback .mul x (.number (.num z 0))) (.num false 0) x := by
  rw [mulDiv_right, doarith_right, onOperand_eq_number]
  show m.Constant (fun n => Datum.mul n (.num z 0) = .num false 0) true _ _ x ↔ _
  simp only [Datum.mul_zero_eq_iff]

theorem mul_one_right : m.mulDiv .mul x (.number .one) = .value x ↔
    m.Unchanged (fun _ => True) (some fun _ => True) (m.fallback .mul x (.number .one)) x := by
  rw [mulDiv_right, doarith_right, onOperand_eq_self]
  show m.Unchanged (fun n => Datum.mul n .one = n) (some fun c => Datum.mul c (Datum.convert .one) = c) _ x ↔ _
  simp only [Datum.convert_one, Datum.mul_one_eq]

theorem div_one_right : m.mulDiv .div x (.number .one) = .value x ↔
    m.Unchanged (fun _ => True) (some fun _ => True) (m.fallback .div x (.number .one)) x := by
  rw [mulDiv_right, doarith_right, onOperand_eq_self]
  show m.Unchanged (fun n => Datum.div n .one = n) (some fun c => Datum.div c (Datum.convert .one) = c) _ x ↔ _
  simp only [Datum.convert_one, Datum.div_one_eq]

theorem pow_right_one : m.numOnly .pow x (.number k) = .value (.number .one) ↔
    m.Constant (fun n => m.pow n k = .one) false (m.fallback .pow x (.number k)) .one x := by
  rw [numOnly_eq, doarith_right, onOperand_eq_number]
  exact Iff.rfl

theorem pow_right_self : m.numOnly .pow x (.number k) = .value x ↔
    m.Unchanged (fun n => m.pow n k = n) none (m.fallback .pow x (.number k)) x := by
  rw [numOnly_eq, doarith_right, onOperand_eq_self]
  exact Iff.rfl

end Right

section Left

variable {z : Bool} {k : Number}

theorem add_zero_left : m.addSub .add (.number (.num z 0)) x = .value x ↔
    m.Unchanged (fun n => ¬(n = .num true 0 ∧ z = false)) none (m.fallback .add (.number (.num z 0)) x) x := by
  rw [addSub_eq, doarith_left, onOperand_eq_self]
  show m.Unchanged (fun n => Datum.add (.num z 0) n = n) none _ x ↔ _
  simp only [Datum.add_comm (.num z 0), Datum.add_zero_eq_iff]

theorem sub_zero_left : m.addSub .sub (.number (.num z 0)) x = .value x ↔
    m.Unchanged (fun n => n = .nan ∨ n = .num false 0 ∧ z = false) none (m.fallback .sub (.number (.num z 0)) x) x := by
  rw [addSub_eq, doarith_left, onOperand_eq_self]
  show m.Unchanged (fun n => Datum.sub (.num z 0) n = n) none _ x ↔ _
  simp only [Datum.zero_sub_eq_iff]

theorem mul_zero_left : m.mulDiv .mul (.number (.num z 0)) x = .value (.number (.num false 0)) ↔
    m.Constant (fun n => ∃ mag, n = .num z mag ∧ (mag : ℕ) ≠ Format.double.top) true
      (m.mulDivFallback .mul (.number (.num z 0)) x) (.num false 0) x := by
  rw [mulDiv_left, onOperand_eq_number]
  show m.Constant (fun n => Datum.mul (.num z 0) n = .num false 0) true _ _ x ↔ _
  simp only [Datum.mul_comm (.num z 0), Datum.mul_zero_eq_iff]

theorem mul_one_left : m.mulDiv .mul (.number .one) x = .value x ↔
    m.Unchanged (fun _ => True) (some fun _ => True) (m.mulDivFallback .mul (.number .one) x) x := by
  rw [mulDiv_left, onOperand_eq_self]
  show m.Unchanged (fun n => Datum.mul .one n = n) (some fun c => Datum.mul (Datum.convert .one) c = c) _ x ↔ _
  simp only [Datum.convert_one, Datum.one_mul_eq]

theorem div_one_left : m.mulDiv .div (.number .one) x = .value x ↔
    m.Unchanged (fun n => n = .nan ∨ n = .one ∨ n = Datum.neg .one)
      (some fun c => c = .nan ∨ c = .one ∨ c = Datum.neg .one) (m.mulDivFallback .div (.number .one) x) x := by
  rw [mulDiv_left, onOperand_eq_self]
  show m.Unchanged (fun n => Datum.div .one n = n) (some fun c => Datum.div (Datum.convert .one) c = c) _ x ↔ _
  simp only [Datum.convert_one, Datum.one_div_eq_iff]

/-- The operation with the operands exchanged -/
theorem add_swap : m.numOnly .add x (.number k) = m.addSub .add (.number k) x ↔
    m.Plain false x ∨ m.fallback .add x (.number k) = m.fallback .add (.number k) x := by
  rw [numOnly_eq, addSub_eq, doarith_right, doarith_left]
  show m.onOperand (fun n => Datum.add n k) none _ x = m.onOperand (fun n => Datum.add k n) none _ x ↔ _
  simp only [Datum.add_comm k]
  exact onOperand_eq_onOperand m

theorem mul_swap : m.mulDiv .mul x (.number k) = m.mulDiv .mul (.number k) x ↔
    m.Plain true x ∨ m.fallback .mul x (.number k) = m.mulDivFallback .mul (.number k) x := by
  rw [mulDiv_right, mulDiv_left, doarith_right]
  show m.onOperand (fun n => Datum.mul n k) (some fun c => Datum.mul c k.convert) _ x =
    m.onOperand (fun n => Datum.mul k n) (some fun c => Datum.mul k.convert c) _ x ↔ _
  simp only [Datum.mul_comm k, Datum.mul_comm (Datum.convert k)]
  exact onOperand_eq_onOperand m

theorem div_left : m.numOnly .div (.number k) x = m.mulDiv .div (.number k) x ↔
    m.Plain true x ∨ m.fallback .div (.number k) x = m.mulDivFallback .div (.number k) x := by
  rw [numOnly_eq, mulDiv_left, doarith_left]
  exact onOperand_eq_onOperand m

end Left

end Machine

end Luwu.Sccp
