import Luwu.Sccp.Verdicts

/-!
# Decided jumps and the jumps of the machine

For a jump whose operands are constants the decision is the branch that the machine takes exactly where `Meets` holds:
away from NaN, from kinds that the comparison takes to be equal without reading them, and from orders that the machine
has no answer for.
-/

namespace Luwu.Sccp.Jumps

open Floating

variable {V : Format} {d : ℕ}

/-! ### The branch that the machine takes -/

/-- The value of an immediate; `imports` has those that are imported. -/
def Imm.value (imports : BitVec 32 → Value V d) : Imm → Value V d
  | boolean b => .boolean b
  | int i => .number (Datum.ofInt i.toInt)
  | imported id => imports id

/-- What an operand may be: its constant, or any value where it is no constant -/
def Lattice.value (value : ℕ → Value V d) (imports : BitVec 32 → Value V d) (l : Lattice) (v : Value V d) : Value V d :=
  match l with
  | vmConstant k => value k
  | immConstant imm => imm.value imports
  | _ => v

def Test.negateIf (negated : Bool) (t : Test) : Test := if negated then t.negate else t

/-- The test of a conditional jump, with the values `v` and `w` of its operands -/
def Jump.test (m : Metamethods V d) (value : ℕ → Value V d) (v w : Value V d) : Jump → Test
  | jumpif _ _ => .answers (!l_isfalse v)
  | jumpifcmp .eq _ _ _ => equalTest m v w
  | jumpifcmp (.order op) _ _ _ => orderTest m op v w
  | jumpxeqknil _ _ => .answers (v.ttype == 0)
  | jumpxeqkb _ _ b =>
    match v with
    | .boolean a => .answers (a == b)
    | _ => .answers false
  | jumpxeqkn _ _ k =>
    match v, value k with
    | .number a, .number n => .answers (Datum.equal a n)
    | _, _ => .answers false
  | jumpxeqks _ _ k =>
    match v, value k with
    | .string a, .string s => .answers (a == s)
    | _, _ => .answers false

def Jump.lhs : Jump → Lattice
  | jumpif _ val => val
  | jumpifcmp _ _ lhs _ => lhs
  | jumpxeqknil _ val => val
  | jumpxeqkb _ val _ => val
  | jumpxeqkn _ val _ => val
  | jumpxeqks _ val _ => val

def Jump.rhs : Jump → Lattice
  | jumpifcmp _ _ _ rhs => rhs
  | _ => .notAConstant

/-- The machine asserts the kind of the constant of a jump. -/
def Jump.WellFormed (known : ℕ → Known) : Jump → Prop
  | jumpxeqkn _ _ k => ∃ n, known k = .number n
  | jumpxeqks _ _ k => ∃ s, known k = .string s
  | _ => True

/-- Where the pass has a decision, the machine goes that way, without a metamethod or an error. -/
def Jump.Agrees (impl : VmConstOps) (m : Metamethods V d) (value : ℕ → Value V d) (imports : BitVec 32 → Value V d)
    (j : Jump) (v w : Value V d) : Prop :=
  ∀ taken, j.takesJump impl = .ok (some taken) →
    (j.test m value (j.lhs.value value imports v) (j.rhs.value value imports w)).negateIf j.negated = .answers taken

/-! ### The condition -/

section

variable (impl : VmConstOps) (m : Metamethods V d) (known : ℕ → Known) (value : ℕ → Value V d)
  (imports : BitVec 32 → Value V d)

/-- The machine finds two values to be equal. -/
def Same (v w : Value V d) : Prop := equalTest m v w = .answers true

/-- Constants of one kind are compared for equality. -/
def EqualMet (v w : Value V d) : Known → Known → Prop
  | .number a, .number b => a ≠ .nan ∧ b ≠ .nan
  | .unread, _ => Same m v w
  | .imported, _ => Same m v w
  | _, _ => True

/-- A constant is compared with an immediate. -/
def EqualImmMet (v w : Value V d) : Known → Imm → Prop
  | .number a, .int _ => a ≠ .nan
  | .integer a, .int i => a ≠ i.signExtend 64
  | .boolean _, .boolean _ => True
  | _, _ => Same m v w

/-- Constants of one kind are put in order. -/
def OrderMet (op : Order) : Known → Known → Prop
  | .number a, .number b => op = .le → a ≠ .nan ∧ b ≠ .nan
  | .integer _, .integer _ => False
  | _, _ => True

/-- A constant and an immediate number are put in order. -/
def OrderImmMet (op : Order) : Known → Prop
  | .number a => op = .le → a ≠ .nan
  | .integer _ => False
  | .string _ => False
  | _ => True

/-- The decision of a jump is right. -/
def Jump.Meets : Jump → Prop
  | jumpif _ (.vmConstant k) => known k = .imported → l_isfalse (value k) = false
  | jumpifcmp .eq _ (.vmConstant l) (.vmConstant r) =>
    impl.kindEquals l r = true → EqualMet m (value l) (value r) (known l) (known r)
  | jumpifcmp .eq _ (.vmConstant l) (.immConstant imm) => EqualImmMet m (value l) (imm.value imports) (known l) imm
  | jumpifcmp .eq _ (.immConstant imm) (.vmConstant r) => EqualImmMet m (imm.value imports) (value r) (known r) imm
  | jumpifcmp (.order op) _ (.vmConstant l) (.vmConstant r) =>
    impl.kindEquals l r = true → OrderMet op (known l) (known r)
  | jumpifcmp (.order op) _ (.vmConstant l) (.immConstant (.int _)) => OrderImmMet op (known l)
  | jumpifcmp (.order op) _ (.immConstant (.int _)) (.vmConstant r) => OrderImmMet op (known r)
  | jumpxeqknil _ (.vmConstant k) => known k = .imported → value k ≠ .nil
  | jumpxeqknil _ (.immConstant imm) => imm.value imports ≠ .nil
  | jumpxeqkn _ (.vmConstant k) c =>
    ∀ i n, known k = .integer i → known c = .number n → Datum.equal (Datum.ofInt i.toInt) n = false
  | _ => True

end

theorem ttype_eq_zero_iff (v : Value V d) : v.ttype = 0 ↔ v = .nil := by
  cases v <;> simp [Value.ttype]

/-! ### Decisions and tests -/

section

variable {impl : VmConstOps} {m : Metamethods V d} {known : ℕ → Known} {value : ℕ → Value V d}
  {imports : BitVec 32 → Value V d} {j : Jump} {v w : Value V d}

/-- Without a decision there is nothing to agree on. -/
theorem agrees_of_unknown (h : j.condition impl = .ok .unknown) : j.Agrees impl m value imports v w := by
  intro taken htaken
  unfold Jump.takesJump at htaken
  rw [h] at htaken
  cases htaken

theorem agrees_of_error (h : j.condition impl = .error .mk) : j.Agrees impl m value imports v w := by
  intro taken htaken
  unfold Jump.takesJump at htaken
  rw [h] at htaken
  cases htaken

/-- A decision is right where the test has that answer. -/
theorem agrees_iff_test {b : Bool} (h : j.condition impl = .ok (.of b)) :
    j.Agrees impl m value imports v w ↔
      j.test m value (j.lhs.value value imports v) (j.rhs.value value imports w) = .answers b := by
  have htakes : j.takesJump impl = .ok (some (b != j.negated)) := by
    unfold Jump.takesJump
    rw [h]
    cases b <;> rfl
  unfold Jump.Agrees
  rw [htakes]
  generalize j.test m value (j.lhs.value value imports v) (j.rhs.value value imports w) = t
  constructor
  · intro hagrees
    have htest := hagrees _ rfl
    cases t with
    | answers x =>
      unfold Test.negateIf at htest
      cases hneg : j.negated <;> rw [hneg] at htest <;> cases b <;> cases x <;> simp_all [Test.negate]
    | calls =>
      unfold Test.negateIf at htest
      cases hneg : j.negated <;> rw [hneg] at htest <;> cases htest
    | raises =>
      unfold Test.negateIf at htest
      cases hneg : j.negated <;> rw [hneg] at htest <;> cases htest
  · rintro rfl taken htaken
    cases htaken
    unfold Test.negateIf
    cases j.negated <;> cases b <;> rfl

end

/-! ### Equality -/

section

variable {m : Metamethods V d} {v w : Value V d} {a b : Known}

theorem equal_number_iff {x y : Number} :
    equalTest m (.number x : Value V d) (.number y) = .answers (decide (threeWayNumber x y = 0)) ↔ x ≠ .nan ∧ y ≠ .nan := by
  show Test.answers (Datum.equal x y) = _ ↔ _
  constructor
  · intro h
    by_contra hnan
    have hcmp : threeWayNumber x y = 0 := threeWayNumber_nan (by tauto)
    have hequal := Test.answers.inj h
    rw [hcmp] at hequal
    cases x with
    | nan => cases hequal
    | num s k =>
      cases y with
      | nan => cases hequal
      | num s' k' => exact hnan ⟨nofun, nofun⟩
  · intro h
    rw [threeWayNumber_eq h.1 h.2]

theorem threeWayInt_eq_iff {n : ℕ} (x y : BitVec n) : decide (threeWayInt x y = 0) = (x == y) := by
  rw [Bool.eq_iff_iff, decide_eq_true_eq, beq_iff_eq]
  unfold threeWayInt threeWay
  rw [BitVec.slt_eq_decide, BitVec.slt_eq_decide]
  rw [← BitVec.toInt_inj]
  by_cases hlt : x.toInt < y.toInt
  · have hnot : ¬y.toInt < x.toInt := by omega
    rw [decide_eq_true hlt, decide_eq_false hnot]
    simp
    omega
  · by_cases hgt : y.toInt < x.toInt
    · rw [decide_eq_false hlt, decide_eq_true hgt]
      simp
      omega
    · rw [decide_eq_false hlt, decide_eq_false hgt]
      simp
      omega

theorem equal_known_iff (ha : a.Reads v) (hb : b.Reads w) (hkind : a.kind = b.kind) :
    equalTest m v w = .answers (applyOp (a.cmp b) .eq) ↔ EqualMet m v w a b := by
  cases a with
  | nil =>
    cases b <;> cases hkind
    subst ha hb
    exact iff_of_true rfl trivial
  | boolean x =>
    cases b with
    | boolean y =>
      subst ha hb
      apply iff_of_true _ trivial
      cases x <;> cases y <;> rfl
    | _ => cases hkind
  | number x =>
    cases b with
    | number y =>
      subst ha hb
      exact equal_number_iff
    | _ => cases hkind
  | integer x =>
    cases b with
    | integer y =>
      subst ha hb
      apply iff_of_true _ trivial
      show Test.answers (x == y) = .answers (decide (threeWayInt x y = 0))
      rw [threeWayInt_eq_iff]
    | _ => cases hkind
  | string x =>
    cases b with
    | string y =>
      subst ha hb
      apply iff_of_true _ trivial
      show Test.answers (x == y) = .answers (decide ((compareBytes x y).sign = 0))
      congr 1
      rw [Bool.eq_iff_iff, decide_eq_true_eq, beq_iff_eq, Int.sign_eq_zero_iff_zero, compareBytes_eq_iff]
    | _ => cases hkind
  | symnone =>
    cases b <;> cases hkind
    subst ha hb
    exact iff_of_true rfl trivial
  | unread => exact Iff.rfl
  | imported => exact Iff.rfl

theorem applyOp_neg_eq (c : ℤ) : applyOp (-c) .eq = applyOp c .eq := by
  show decide (-c = 0) = decide (c = 0)
  simp only [neg_eq_zero]

variable {imports : BitVec 32 → Value V d} {imm : Imm}

theorem equal_imm_iff (ha : a.Reads v) :
    equalTest m v (imm.value imports) = .answers (applyOp (a.cmpImm imm) .eq) ↔
      EqualImmMet m v (imm.value imports) a imm := by
  cases imm with
  | boolean y =>
    cases a with
    | boolean x =>
      subst ha
      apply iff_of_true _ trivial
      cases x <;> cases y <;> rfl
    | _ => exact Iff.rfl
  | int i =>
    cases a with
    | number x =>
      subst ha
      exact equal_number_iff.trans (and_iff_left (ofInt_ne_nan _))
    | integer x =>
      subst ha
      show Test.answers false = .answers (decide (threeWayInt x (i.signExtend 64) = 0)) ↔ x ≠ i.signExtend 64
      rw [threeWayInt_eq_iff]
      simp
    | _ => exact Iff.rfl
  | imported id => cases a <;> exact Iff.rfl

theorem imm_equal_iff (ha : a.Reads v) :
    equalTest m (imm.value imports) v = .answers (applyOp (-a.cmpImm imm) .eq) ↔
      EqualImmMet m (imm.value imports) v a imm := by
  rw [applyOp_neg_eq]
  cases imm with
  | boolean y =>
    cases a with
    | boolean x =>
      subst ha
      apply iff_of_true _ trivial
      cases x <;> cases y <;> rfl
    | _ => exact Iff.rfl
  | int i =>
    cases a with
    | number x =>
      subst ha
      show equalTest m (.number _) _ = .answers (applyOp (threeWayNumber x _) .eq) ↔ _
      rw [← applyOp_neg_eq, ← threeWayNumber_neg]
      exact equal_number_iff.trans (and_iff_right (ofInt_ne_nan _))
    | integer x =>
      subst ha
      show Test.answers false = .answers (decide (threeWayInt x (i.signExtend 64) = 0)) ↔ x ≠ i.signExtend 64
      rw [threeWayInt_eq_iff]
      simp
    | _ => exact Iff.rfl
  | imported id => cases a <;> exact Iff.rfl

end

/-! ### Order -/

section

variable {m : Metamethods V d} {v w : Value V d} {a b : Known} {op : Order}

/-- Values that are not two numbers or two strings are put in order by a metamethod or not at all. -/
theorem fallback_ne_answers {x : Bool} : orderFallback m op v w ≠ .answers x := by
  unfold orderFallback
  split_ifs <;> nofun

theorem order_number_iff {x y : Number} :
    orderTest m op (.number x : Value V d) (.number y) = .answers (applyOp (threeWayNumber x y) (.order op)) ↔
      (op = .le → x ≠ .nan ∧ y ≠ .nan) := by
  cases op with
  | lt =>
    apply iff_of_true _ nofun
    show Test.answers (Floats.less x y) = .answers (decide (threeWayNumber x y < 0))
    rw [threeWayNumber_lt]
  | le =>
    show Test.answers (Floats.lessEqual x y) = .answers (decide (threeWayNumber x y ≤ 0)) ↔ _
    constructor
    · intro h _
      by_contra hnan
      have hcmp : threeWayNumber x y = 0 := threeWayNumber_nan (by tauto)
      have hless := Test.answers.inj h
      rw [hcmp] at hless
      cases x with
      | nan => cases hless
      | num s k =>
        cases y with
        | nan => cases hless
        | num s' k' => exact hnan ⟨nofun, nofun⟩
    · intro h
      obtain ⟨hx, hy⟩ := h rfl
      rw [threeWayNumber_le hx hy]

theorem order_string {x y : List UInt8} :
    orderTest m op (.string x : Value V d) (.string y) = .answers (applyOp (compareBytes x y).sign (.order op)) := by
  cases op with
  | lt =>
    show Test.answers (decide (luaV_strcmp x y < 0)) = .answers (decide ((compareBytes x y).sign < 0))
    congr 1
    rw [Bool.eq_iff_iff, decide_eq_true_eq, decide_eq_true_eq, Int.sign_neg_iff, luaV_strcmp_lt_iff, compareBytes_lt_iff]
  | le =>
    show Test.answers (decide (luaV_strcmp x y ≤ 0)) = .answers (decide ((compareBytes x y).sign ≤ 0))
    congr 1
    rw [Bool.eq_iff_iff, decide_eq_true_eq, decide_eq_true_eq, luaV_strcmp_le_iff, ← compareBytes_le_iff, Int.sign_nonpos_iff]

theorem order_known_iff (ha : a.Reads v) (hb : b.Reads w) (hkind : a.kind = b.kind) (horder : a.orderable = true) :
    orderTest m op v w = .answers (applyOp (a.cmp b) (.order op)) ↔ OrderMet op a b := by
  cases a with
  | number x =>
    cases b with
    | number y =>
      subst ha hb
      exact order_number_iff
    | _ => cases hkind
  | integer x =>
    cases b with
    | integer y =>
      subst ha hb
      exact iff_of_false fallback_ne_answers id
    | _ => cases hkind
  | string x =>
    cases b with
    | string y =>
      subst ha hb
      exact iff_of_true order_string trivial
    | _ => cases hkind
  | _ => cases horder

variable (imports : BitVec 32 → Value V d) {i : BitVec 32}

theorem order_imm_iff (ha : a.Reads v) (horder : a.orderable = true) :
    orderTest m op v ((Imm.int i).value imports) = .answers (applyOp (a.cmpImm (.int i)) (.order op)) ↔
      OrderImmMet op a := by
  cases a with
  | number x =>
    subst ha
    refine order_number_iff.trans ?_
    exact forall_congr' fun _ => and_iff_left (ofInt_ne_nan _)
  | integer x =>
    subst ha
    exact iff_of_false fallback_ne_answers id
  | string x =>
    subst ha
    exact iff_of_false fallback_ne_answers id
  | _ => cases horder

theorem imm_order_iff (ha : a.Reads v) (horder : a.orderable = true) :
    orderTest m op ((Imm.int i).value imports) v = .answers (applyOp (-a.cmpImm (.int i)) (.order op)) ↔
      OrderImmMet op a := by
  cases a with
  | number x =>
    subst ha
    show orderTest m op (.number _) _ = .answers (applyOp (-threeWayNumber x _) (.order op)) ↔ _
    rw [← threeWayNumber_neg]
    refine order_number_iff.trans ?_
    exact forall_congr' fun _ => and_iff_right (ofInt_ne_nan _)
  | integer x =>
    subst ha
    exact iff_of_false fallback_ne_answers id
  | string x =>
    subst ha
    exact iff_of_false fallback_ne_answers id
  | _ => cases horder

end

/-! ### All jumps -/

section

variable {impl : VmConstOps} {m : Metamethods V d} {known : ℕ → Known} {value : ℕ → Value V d}
  {imports : BitVec 32 → Value V d} {negated : Bool} {v w : Value V d}

theorem jumpif_iff (h : Represents impl known value) (val : Lattice) :
    (Jump.jumpif negated val).Agrees impl m value imports v w ↔
      (Jump.jumpif negated val).Meets impl m known value imports := by
  cases val with
  | vmConstant k =>
    have hcond : (Jump.jumpif negated (.vmConstant k)).condition impl = .ok (.of (!(known k).falsey)) := by
      show Except.ok (if impl.falsey k = true then ConditionState.alwaysFalse else .alwaysTrue) = _
      rw [h.falsey k]
      cases (known k).falsey <;> rfl
    rw [agrees_iff_test hcond]
    show Test.answers (!l_isfalse (value k)) = .answers (!(known k).falsey) ↔ (known k = .imported → l_isfalse (value k) = false)
    have hreads := h.reads k
    cases hknown : known k <;> rw [hknown] at hreads
    case imported => simp [Known.falsey]
    case unread => simp [Known.falsey, hreads.1]
    all_goals
      rw [hreads]
      exact iff_of_true rfl nofun
  | immConstant imm =>
    refine iff_of_true ?_ trivial
    cases imm with
    | boolean b =>
      rw [agrees_iff_test (b := b) rfl]
      cases b <;> rfl
    | int i => exact agrees_of_unknown rfl
    | imported id => exact agrees_of_unknown rfl
  | undetermined => exact iff_of_true (agrees_of_unknown rfl) trivial
  | notAConstant => exact iff_of_true (agrees_of_unknown rfl) trivial

theorem jumpifeq_iff (h : Represents impl known value) (lhs rhs : Lattice) :
    (Jump.jumpifcmp .eq negated lhs rhs).Agrees impl m value imports v w ↔
      (Jump.jumpifcmp .eq negated lhs rhs).Meets impl m known value imports := by
  cases lhs with
  | vmConstant l =>
    cases rhs with
    | vmConstant r =>
      cases hkind : impl.kindEquals l r with
      | true =>
        have hcond : (Jump.jumpifcmp .eq negated (.vmConstant l) (.vmConstant r)).condition impl =
            .ok (.of (applyOp ((known l).cmp (known r)) .eq)) := by
          show Except.ok (if impl.kindEquals l r = true then _ else _) = _
          rw [if_pos hkind, h.cmp l r hkind]
        rw [agrees_iff_test hcond]
        refine (equal_known_iff (h.reads l) (h.reads r) (h.kindEquals l r hkind)).trans ?_
        exact ⟨fun hmet _ => hmet, fun hmet => hmet hkind⟩
      | false =>
        refine iff_of_true (agrees_of_unknown ?_) fun hkind' => ?_
        · show Except.ok (if impl.kindEquals l r = true then _ else _) = _
          rw [if_neg (by rw [hkind]; nofun)]
        · rw [hkind] at hkind'
          cases hkind'
    | immConstant imm =>
      have hcond : (Jump.jumpifcmp .eq negated (.vmConstant l) (.immConstant imm)).condition impl =
          .ok (.of (applyOp ((known l).cmpImm imm) .eq)) := by
        rw [← h.cmpImm]
        rfl
      rw [agrees_iff_test hcond]
      exact equal_imm_iff (h.reads l)
    | undetermined => exact iff_of_true (agrees_of_unknown rfl) trivial
    | notAConstant => exact iff_of_true (agrees_of_unknown rfl) trivial
  | immConstant imm =>
    cases rhs with
    | vmConstant r =>
      have hcond : (Jump.jumpifcmp .eq negated (.immConstant imm) (.vmConstant r)).condition impl =
          .ok (.of (applyOp (-(known r).cmpImm imm) .eq)) := by
        rw [← h.cmpImm]
        cases imm <;> rfl
      rw [agrees_iff_test hcond]
      exact imm_equal_iff (h.reads r)
    | immConstant imm' =>
      refine iff_of_true ?_ trivial
      cases imm <;> cases imm'
      case boolean.boolean b b' =>
        rw [agrees_iff_test (b := applyOp (if b = b' then 0 else 1) .eq) rfl]
        cases b <;> cases b' <;> rfl
      case int.int i i' =>
        rw [agrees_iff_test (b := applyOp (threeWayInt i i') .eq) rfl]
        show equalTest m (.number _ : Value V d) (.number _) = .answers (applyOp (threeWayInt i i') .eq)
        rw [← threeWayNumber_int]
        exact equal_number_iff.mpr ⟨ofInt_ne_nan _, ofInt_ne_nan _⟩
      all_goals exact agrees_of_unknown rfl
    | undetermined =>
      refine iff_of_true (agrees_of_unknown ?_) trivial
      cases imm <;> rfl
    | notAConstant =>
      refine iff_of_true (agrees_of_unknown ?_) trivial
      cases imm <;> rfl
  | undetermined => exact iff_of_true (agrees_of_unknown rfl) trivial
  | notAConstant => exact iff_of_true (agrees_of_unknown rfl) trivial

theorem jumpiforder_iff (h : Represents impl known value) (op : Order) (lhs rhs : Lattice) :
    (Jump.jumpifcmp (.order op) negated lhs rhs).Agrees impl m value imports v w ↔
      (Jump.jumpifcmp (.order op) negated lhs rhs).Meets impl m known value imports := by
  by_cases horder : isOrderableLattice impl lhs = true ∧ isOrderableLattice impl rhs = true
  · have hguard : ¬(CompareOp.order op ≠ .eq ∧ ¬(isOrderableLattice impl lhs = true ∧ isOrderableLattice impl rhs = true)) :=
      fun hnot => hnot.2 horder
    have hcondition : (Jump.jumpifcmp (.order op) negated lhs rhs).condition impl =
        .ok (evaluateComparisonCondition impl (.order op) lhs rhs) := rfl
    unfold evaluateComparisonCondition at hcondition
    rw [if_neg hguard] at hcondition
    cases lhs with
    | vmConstant l =>
      have hl : (known l).orderable = true := (h.isOrderable l) ▸ horder.1
      cases rhs with
      | vmConstant r =>
        cases hkind : impl.kindEquals l r with
        | true =>
          have hcond : (Jump.jumpifcmp (.order op) negated (.vmConstant l) (.vmConstant r)).condition impl =
              .ok (.of (applyOp ((known l).cmp (known r)) (.order op))) := by
            rw [hcondition, ← h.cmp l r hkind]
            exact congrArg Except.ok (if_pos hkind)
          rw [agrees_iff_test hcond]
          refine (order_known_iff (h.reads l) (h.reads r) (h.kindEquals l r hkind) hl).trans ?_
          exact ⟨fun hmet _ => hmet, fun hmet => hmet hkind⟩
        | false =>
          refine iff_of_true (agrees_of_unknown ?_) fun hkind' => ?_
          · rw [hcondition]
            exact congrArg Except.ok (if_neg (by rw [hkind]; nofun))
          · rw [hkind] at hkind'
            cases hkind'
      | immConstant imm =>
        cases imm with
        | int i =>
          have hcond : (Jump.jumpifcmp (.order op) negated (.vmConstant l) (.immConstant (.int i))).condition impl =
              .ok (.of (applyOp ((known l).cmpImm (.int i)) (.order op))) := by
            rw [hcondition, ← h.cmpImm]
          rw [agrees_iff_test hcond]
          exact order_imm_iff imports (h.reads l) hl
        | _ => cases horder.2
      | _ => cases horder.2
    | immConstant imm =>
      cases imm with
      | int i =>
        cases rhs with
        | vmConstant r =>
          have hr : (known r).orderable = true := (h.isOrderable r) ▸ horder.2
          have hcond : (Jump.jumpifcmp (.order op) negated (.immConstant (.int i)) (.vmConstant r)).condition impl =
              .ok (.of (applyOp (-(known r).cmpImm (.int i)) (.order op))) := by
            rw [hcondition, ← h.cmpImm]
          rw [agrees_iff_test hcond]
          exact imm_order_iff imports (h.reads r) hr
        | immConstant imm' =>
          cases imm' with
          | int i' =>
            rw [agrees_iff_test hcondition]
            refine iff_of_true ?_ trivial
            show orderTest m op (.number _ : Value V d) (.number _) = .answers (applyOp (threeWayInt i i') (.order op))
            rw [← threeWayNumber_int]
            exact order_number_iff.mpr fun _ => ⟨ofInt_ne_nan _, ofInt_ne_nan _⟩
          | _ => cases horder.2
        | _ => cases horder.2
      | _ => cases horder.1
    | _ => cases horder.1
  · -- one of the operands has no order
    have hcondition : (Jump.jumpifcmp (.order op) negated lhs rhs).condition impl = .ok .unknown :=
      congrArg Except.ok (if_pos ⟨nofun, horder⟩)
    refine iff_of_true (agrees_of_unknown hcondition) ?_
    cases lhs with
    | vmConstant l =>
      cases rhs with
      | vmConstant r =>
        intro hkind
        have hknown := h.kindEquals l r hkind
        have hl : ¬((known l).orderable = true ∧ (known r).orderable = true) := by
          rw [← h.isOrderable, ← h.isOrderable]
          exact horder
        cases hkl : known l <;> cases hkr : known r <;> rw [hkl, hkr] at hknown hl <;> first
          | exact trivial
          | exact absurd ⟨rfl, rfl⟩ hl
      | immConstant imm =>
        cases imm with
        | int i =>
          have hl : ¬(known l).orderable = true := fun hl => horder ⟨(h.isOrderable l).trans hl, rfl⟩
          show OrderImmMet op (known l)
          cases hkl : known l <;> rw [hkl] at hl <;> first | exact trivial | exact absurd rfl hl
        | _ => exact trivial
      | _ => exact trivial
    | immConstant imm =>
      cases rhs with
      | vmConstant r =>
        cases imm with
        | int i =>
          have hr : ¬(known r).orderable = true := fun hr => horder ⟨rfl, (h.isOrderable r).trans hr⟩
          show OrderImmMet op (known r)
          cases hkr : known r <;> rw [hkr] at hr <;> first | exact trivial | exact absurd rfl hr
        | _ => exact trivial
      | _ => cases imm <;> exact trivial
    | _ => exact trivial

theorem jumpxeqknil_iff (h : Represents impl known value) (val : Lattice) :
    (Jump.jumpxeqknil negated val).Agrees impl m value imports v w ↔
      (Jump.jumpxeqknil negated val).Meets impl m known value imports := by
  cases val with
  | vmConstant k =>
    have hreads := h.reads k
    by_cases hnil : known k = .nil
    · have hcond : (Jump.jumpxeqknil negated (.vmConstant k)).condition impl = .ok (.of true) := by
        show (if (impl.falsey k && impl.kindNil k) = true then _ else _) = _
        rw [h.falsey k, (h.kindNil k).mpr hnil, hnil]
        rfl
      rw [agrees_iff_test hcond]
      rw [hnil] at hreads
      refine iff_of_true ?_ fun himported => ?_
      · show Test.answers ((value k).ttype == 0) = _
        rw [hreads]
        rfl
      · rw [hnil] at himported
        cases himported
    · have hkind : impl.kindNil k = false := by
        rw [← Bool.not_eq_true, h.kindNil k]
        exact hnil
      have hcond : (Jump.jumpxeqknil negated (.vmConstant k)).condition impl = .ok (.of false) := by
        show (if (impl.falsey k && impl.kindNil k) = true then _ else if impl.kindNil k = true then _ else _) = _
        rw [hkind, Bool.and_false]
        rfl
      rw [agrees_iff_test hcond]
      show Test.answers ((value k).ttype == 0) = .answers false ↔ (known k = .imported → value k ≠ .nil)
      rw [Test.answers.injEq, beq_eq_false_iff_ne, Ne, ttype_eq_zero_iff]
      constructor
      · intro hne _
        exact hne
      · intro hmet
        cases hknown : known k <;> rw [hknown] at hreads hmet hnil
        case imported => exact hmet rfl
        case nil => exact absurd rfl hnil
        case unread =>
          intro hv
          rw [hv] at hreads
          exact absurd hreads.1 nofun
        all_goals
          rw [hreads]
          nofun
  | immConstant imm =>
    rw [agrees_iff_test (b := false) rfl]
    show Test.answers ((imm.value imports).ttype == 0) = .answers false ↔ imm.value imports ≠ .nil
    rw [Test.answers.injEq, beq_eq_false_iff_ne, Ne, ttype_eq_zero_iff]
  | undetermined => exact iff_of_true (agrees_of_unknown rfl) trivial
  | notAConstant => exact iff_of_true (agrees_of_unknown rfl) trivial

theorem agrees_ofAnswer {j : Jump} {answer : Option Bool} (h : j.condition impl = .ok (ofAnswer answer)) :
    j.Agrees impl m value imports v w ↔ ∀ b, answer = some b →
      j.test m value (j.lhs.value value imports v) (j.rhs.value value imports w) = .answers b := by
  cases answer with
  | some b =>
    rw [agrees_iff_test h]
    exact ⟨fun htest b' hb => Option.some.inj hb ▸ htest, fun htest => htest b rfl⟩
  | none => exact iff_of_true (agrees_of_unknown h) nofun

theorem jumpxeqkb_iff (h : Represents impl known value) (val : Lattice) (b : Bool) :
    (Jump.jumpxeqkb negated val b).Agrees impl m value imports v w ↔
      (Jump.jumpxeqkb negated val b).Meets impl m known value imports := by
  refine iff_of_true ?_ trivial
  cases val with
  | vmConstant k =>
    have hcond : (Jump.jumpxeqkb negated (.vmConstant k) b).condition impl = .ok (ofAnswer ((known k).eqBoolean b)) := by
      rw [← h.eqImm]
      rfl
    rw [agrees_ofAnswer hcond]
    intro answer hanswer
    have hreads := h.reads k
    cases hknown : known k <;> rw [hknown] at hreads hanswer <;> cases hanswer
    show Jump.test m value (value k) _ _ = _
    rw [hreads]
    rfl
  | immConstant imm =>
    cases imm with
    | boolean a => exact agrees_of_error rfl
    | int i => exact agrees_of_unknown rfl
    | imported id => exact agrees_of_unknown rfl
  | undetermined => exact agrees_of_unknown rfl
  | notAConstant => exact agrees_of_unknown rfl

theorem jumpxeqkn_iff (h : Represents impl known value) (val : Lattice) (c : ℕ)
    (hc : (Jump.jumpxeqkn negated val c).WellFormed known) :
    (Jump.jumpxeqkn negated val c).Agrees impl m value imports v w ↔
      (Jump.jumpxeqkn negated val c).Meets impl m known value imports := by
  obtain ⟨n, hc⟩ := hc
  have hconst : value c = .number n := by
    have hreads := h.reads c
    rw [hc] at hreads
    exact hreads
  cases val with
  | vmConstant k =>
    have hcond : (Jump.jumpxeqkn negated (.vmConstant k) c).condition impl = .ok (ofAnswer ((known k).eqNumber n)) := by
      rw [← h.eqNumber k c n hc]
      rfl
    rw [agrees_ofAnswer hcond]
    have hreads := h.reads k
    show (∀ b, (known k).eqNumber n = some b → Jump.test m value (value k) _ (.jumpxeqkn negated (.vmConstant k) c) = _) ↔
      ∀ i n', known k = .integer i → known c = .number n' → Datum.equal (Datum.ofInt i.toInt) n' = false
    cases hknown : known k <;> rw [hknown] at hreads
    case number a =>
      refine iff_of_true ?_ nofun
      rintro b ⟨⟩
      rw [hreads]
      simp only [Jump.test, hconst]
    case integer a =>
      have htest : ∀ x, Jump.test m value (value k) x (.jumpxeqkn negated (.vmConstant k) c) = .answers false := by
        intro x
        rw [hreads]
        rfl
      simp only [htest, Known.eqNumber, Option.some.injEq, forall_eq', Test.answers.injEq, Known.integer.injEq, hc,
        Known.number.injEq]
      constructor
      · rintro heq i n' rfl rfl
        exact heq.symm
      · intro hmet
        exact (hmet a n rfl rfl).symm
    all_goals exact iff_of_true nofun nofun
  | immConstant imm =>
    refine iff_of_true ?_ trivial
    cases imm with
    | boolean a => exact agrees_of_unknown rfl
    | int i =>
      have hcond : (Jump.jumpxeqkn negated (.immConstant (.int i)) c).condition impl =
          .ok (ofAnswer (some (Datum.equal (Datum.ofInt i.toInt) n))) := by
        rw [← h.eqInt c n i hc]
        rfl
      rw [agrees_ofAnswer hcond]
      rintro b ⟨⟩
      show Jump.test m value (.number (Datum.ofInt i.toInt)) _ _ = _
      simp only [Jump.test, hconst]
    | imported id => exact agrees_of_unknown rfl
  | undetermined => exact iff_of_true (agrees_of_unknown rfl) trivial
  | notAConstant => exact iff_of_true (agrees_of_unknown rfl) trivial

theorem jumpxeqks_iff (h : Represents impl known value) (val : Lattice) (c : ℕ)
    (hc : (Jump.jumpxeqks negated val c).WellFormed known) :
    (Jump.jumpxeqks negated val c).Agrees impl m value imports v w ↔
      (Jump.jumpxeqks negated val c).Meets impl m known value imports := by
  refine iff_of_true ?_ trivial
  obtain ⟨s, hc⟩ := hc
  have hconst : value c = .string s := by
    have hreads := h.reads c
    rw [hc] at hreads
    exact hreads
  cases val with
  | vmConstant k =>
    have hcond : (Jump.jumpxeqks negated (.vmConstant k) c).condition impl = .ok (ofAnswer ((known k).eqString s)) := by
      rw [← h.eqString k c s hc]
      rfl
    rw [agrees_ofAnswer hcond]
    intro answer hanswer
    have hreads := h.reads k
    cases hknown : known k <;> rw [hknown] at hreads hanswer <;> cases hanswer
    show Jump.test m value (value k) _ _ = _
    rw [hreads]
    simp only [Jump.test, hconst]
  | immConstant imm => exact agrees_of_unknown rfl
  | undetermined => exact agrees_of_unknown rfl
  | notAConstant => exact agrees_of_unknown rfl

/-- **The decision of a jump** is the branch of the machine exactly where the condition holds. -/
theorem agrees_iff_meets (h : Represents impl known value) (j : Jump) (hj : j.WellFormed known) :
    j.Agrees impl m value imports v w ↔ j.Meets impl m known value imports := by
  cases j with
  | jumpif negated val => exact jumpif_iff h val
  | jumpifcmp op negated lhs rhs =>
    cases op with
    | eq => exact jumpifeq_iff h lhs rhs
    | order op => exact jumpiforder_iff h op lhs rhs
  | jumpxeqknil negated val => exact jumpxeqknil_iff h val
  | jumpxeqkb negated val b => exact jumpxeqkb_iff h val b
  | jumpxeqkn negated val k => exact jumpxeqkn_iff h val k hj
  | jumpxeqks negated val k => exact jumpxeqks_iff h val k hj

end

/-- Both representations of constants, and every conditional jump on any constants -/
theorem conditional_jumps_agree_iff (m : Metamethods V d) (imports : BitVec 32 → Value V d) (loaded : Loaded V d)
    (constants : List (BcVmConst d)) (values : List (Value V d)) (j : Jump) (v w : Value V d) :
    (j.WellFormed (BcVmConstImpl.known constants) →
      (j.Agrees (BcVmConstImpl.ops constants) m (BcVmConstImpl.value loaded constants) imports v w ↔
        j.Meets (BcVmConstImpl.ops constants) m (BcVmConstImpl.known constants)
          (BcVmConstImpl.value loaded constants) imports)) ∧
    (j.WellFormed (TValueVmConstImpl.known values) →
      (j.Agrees (TValueVmConstImpl.ops values) m (TValueVmConstImpl.constOp values) imports v w ↔
        j.Meets (TValueVmConstImpl.ops values) m (TValueVmConstImpl.known values)
          (TValueVmConstImpl.constOp values) imports)) :=
  ⟨fun hj => agrees_iff_meets (represents_bytecode loaded constants) j hj,
    fun hj => agrees_iff_meets (represents_loaded values) j hj⟩

/-- NaN is decided to equal itself, and nil to equal a small integer. -/
theorem nan_decided_equal :
    ¬(Jump.jumpifcmp .eq false (.vmConstant 0) (.vmConstant 0)).Agrees
        (BcVmConstImpl.ops ([.number .nan] : List (BcVmConst 3))) ⟨fun _ _ _ => false, fun _ _ _ => false⟩
        (BcVmConstImpl.value ⟨fun _ => .nil, fun k => k⟩ [.number .nan])
        (fun _ => .nil : BitVec 32 → Value Format.single 3) .nil .nil ∧
      ¬(Jump.jumpifcmp .eq false (.vmConstant 0) (.immConstant (.int 5))).Agrees
        (TValueVmConstImpl.ops ([.nil] : List (Value Format.single 3))) ⟨fun _ _ _ => false, fun _ _ _ => false⟩
        (TValueVmConstImpl.constOp [.nil]) (fun _ => .nil : BitVec 32 → Value Format.single 3) .nil .nil := by
  constructor
  · intro h
    cases h true rfl
  · intro h
    cases h true rfl

end Luwu.Sccp.Jumps
