import Luwu.Sccp.Sound

/-!
# When folding keeps the meaning of arithmetic

Integers are folded as integers, of which zero has no sign; numbers are folded as the machine does, but the constant
that is loaded is the first that compares equal.
-/

namespace Luwu.Sccp

open Floating

variable {V : Format} {d : ℕ} (m : Machine V d)

section Folding

variable {state : SccpState} {func : BcFunction} {rt : BcOp → Value V d} {i : ℕ} {op : LuauOpcode} {tm : TMS}
  {a b : ℤ} {x y : Number}

/-- `replaceUses` at an instruction of which `evaluateArith` knows the result -/
def foldInst (state : SccpState) (func : BcFunction) (i : ℕ) : Option BcFunction :=
  match (func.inst i).ops with
  | [lhs, rhs] =>
    match evaluateArith m func (func.inst i).op (state.operandLattice lhs) (state.operandLattice rhs) with
    | (.vmConstant constant, constants) => some (rewriteToLoad { func with constants := constants } i (.vmConstant constant))
    | (.immConstant imm, constants) => some (rewriteToLoad { func with constants := constants } i (.immConstant imm))
    | _ => none
  | _ => none

/-- When two integers are folded to what the machine computes: a zero must have no sign, and a quotient between minus one
and zero is not rounded down. -/
def KeptInt (op : LuauOpcode) (a b : ℤ) : Prop :=
  match op with
  | .mul => ¬(a * b = 0 ∧ (a < 0 ∨ b < 0))
  | .idiv => ¬(a.natAbs < b.natAbs ∧ (a < 0 ∧ 0 < b ∨ 0 ≤ a ∧ b < 0))
  | _ => True

/-- When the constant that is found for a zero is this zero -/
def KeptZero (constants : List BcVmConst) (r : Number) : Prop :=
  ∀ z, r = .num z 0 → ∀ c ∈ constants.find? (·.equal (.number (.num z 0))), c = .number (.num z 0)

/-- When a folded instruction leaves what it left before -/
def KeptFold (state : SccpState) (func : BcFunction) (i : ℕ) : Prop :=
  match arithTMS (func.inst i).op, (func.inst i).ops with
  | some tm, [lhs, rhs] =>
    match state.operandLattice lhs, state.operandLattice rhs with
    | .immConstant (.int lv), .immConstant (.int rv) => KeptInt (func.inst i).op lv.toInt rv.toInt
    | .vmConstant lhs, .vmConstant rhs =>
      ∀ x y, func.constOp lhs = .number x → func.constOp rhs = .number y → KeptZero func.constants (m.numArith tm x y)
    | _, _ => True
  | _, _ => True

/-! ### Integers -/

theorem fits_toInt (n : BitVec 32) : n.toInt.natAbs ≤ 2 ^ 31 := by
  have hlow := BitVec.le_toInt n
  have hhigh := BitVec.toInt_lt (x := n)
  omega

theorem toInt_of_fitsLoadn {r : ℤ} (h : fitsLoadn r = true) : (BitVec.ofInt 32 r).toInt = r := by
  unfold fitsLoadn at h
  rw [Bool.and_eq_true, decide_eq_true_eq, decide_eq_true_eq] at h
  rw [BitVec.toInt_ofInt]
  apply Int.bmod_eq_of_le
  · have := h.1
    omega
  · have := h.2
    omega

/-- The quotient that leaves a remainder of the divisor's sign -/
theorem floor_div_eq {q r : ℤ} (h : a = q * b + r) (hr : 0 ≤ r ∧ r < b ∨ b < r ∧ r ≤ 0) : ⌊(a / b : ℚ)⌋ = q := by
  have hb0 : b ≠ 0 := by omega
  have hbq : (b : ℚ) ≠ 0 := Int.cast_ne_zero.mpr hb0
  have hsplit : (a / b : ℚ) = q + r / b := by
    rw [h]
    push_cast
    rw [add_div, mul_div_cancel_right₀ _ hbq]
  rw [Int.floor_eq_iff, hsplit]
  have hfract : (0 : ℚ) ≤ r / b ∧ (r / b : ℚ) < 1 := by
    rcases hr with ⟨hr0, hrb⟩ | ⟨hbr, hr0⟩
    · have hb : (0 : ℚ) < b := by exact_mod_cast hr0.trans_lt hrb
      exact ⟨div_nonneg (by exact_mod_cast hr0) hb.le, (div_lt_one hb).mpr (by exact_mod_cast hrb)⟩
    · have hb : (b : ℚ) < 0 := by exact_mod_cast hbr.trans_le hr0
      exact ⟨div_nonneg_of_nonpos (by exact_mod_cast hr0) hb.le, (div_lt_one_of_neg hb).mpr (by exact_mod_cast hbr)⟩
  constructor <;> linarith [hfract.1, hfract.2]

/-- What is known of a division that rounds towards zero -/
theorem tdiv_tmod_spec (hb : b ≠ 0) : a = a.tdiv b * b + a.tmod b ∧ (a.tmod b).natAbs < b.natAbs ∧
    (0 ≤ a → 0 ≤ a.tmod b) ∧ (a ≤ 0 → a.tmod b ≤ 0) := by
  refine ⟨?_, ?_, fun h => Int.tmod_nonneg b h, fun h => ?_⟩
  · rw [Int.mul_comm]
    exact (Int.mul_tdiv_add_tmod a b).symm
  · rw [Int.natAbs_tmod]
    exact Nat.mod_lt _ (Int.natAbs_pos.mpr hb)
  · have hneg := Int.tmod_nonneg b (Int.neg_nonneg.mpr h)
    rw [Int.neg_tmod] at hneg
    omega

/-- Rounding down from rounding towards zero -/
theorem floor_div_tdiv (hb : b ≠ 0) :
    ⌊(a / b : ℚ)⌋ = if a.tmod b ≠ 0 ∧ (a < 0) ≠ (b < 0) then a.tdiv b - 1 else a.tdiv b := by
  obtain ⟨hsplit, hlt, hnonneg, hnonpos⟩ := tdiv_tmod_spec (a := a) hb
  have hminus : (a.tdiv b - 1) * b = a.tdiv b * b - b := by ring
  split
  · next h =>
    apply floor_div_eq (r := a.tmod b + b)
    · rw [hminus]
      omega
    · by_cases ha : a < 0 <;> by_cases hb' : b < 0 <;> simp only [ha, hb', ne_eq, not_true, and_false] at h <;> omega
  · next h =>
    apply floor_div_eq hsplit
    by_cases ha : a < 0 <;> by_cases hb' : b < 0 <;> simp only [ha, hb', ne_eq, not_true, and_false] at h <;> simp at h <;>
      omega

theorem tdiv_neg_iff (ha : a ≠ 0) (hb : b ≠ 0) : a.tdiv b < 0 ↔ (a < 0) ≠ (b < 0) ∧ b.natAbs ≤ a.natAbs := by
  obtain ⟨n, hn⟩ := Int.eq_nat_or_neg a
  obtain ⟨k, hk⟩ := Int.eq_nat_or_neg b
  have hk0 : 0 < k := by omega
  have hquotient : (n / k : ℕ) = 0 ↔ n < k := by
    rw [Nat.div_eq_zero_iff]
    omega
  have hcast : (n : ℤ).tdiv k = (n / k : ℕ) := rfl
  generalize n / k = q at hquotient hcast
  rcases hn with rfl | rfl <;> rcases hk with rfl | rfl
  all_goals
    simp only [Int.neg_tdiv, Int.tdiv_neg, hcast, Int.natAbs_neg, Int.natAbs_natCast, ne_eq, eq_iff_iff]
    omega

theorem sum_double (n k : BitVec 32) : n.toInt.natAbs + k.toInt.natAbs ≤ 2 ^ Format.double.fraction := by
  have hn := fits_toInt n
  have hk := fits_toInt k
  show _ ≤ 2 ^ 52
  omega

/-- A product of integers is a zero with a sign when one of them is zero and the other negative. -/
theorem mul_ofInt_iff (ha : Datum.Fits Format.double a) (hb : Datum.Fits Format.double b) :
    (.ofInt (a * b) : Number) = Datum.mul (.ofInt a) (.ofInt b) ↔ KeptInt .mul a b := by
  rw [Datum.ofInt_mul Format.double_wide ha hb]
  show _ ↔ ¬(a * b = 0 ∧ (a < 0 ∨ b < 0))
  by_cases hzero : a * b = 0
  · rw [hzero, Int.cast_zero, Datum.round_zero, Datum.ofInt_zero]
    simp only [Datum.num.injEq, true_and, and_true]
    rcases mul_eq_zero.mp hzero with rfl | rfl
    · simp
    · simp
  · rw [Datum.round_int _ (Or.inl hzero)]
    exact iff_of_true rfl fun h => hzero h.1

/-- A quotient of integers that is rounded down -/
theorem idiv_ofInt_iff (hb0 : b ≠ 0) (ha : Datum.Fits Format.double a) (hb : Datum.Fits Format.double b)
    (hsum : a.natAbs + b.natAbs ≤ 2 ^ Format.double.fraction) :
    (.ofInt (if a.tdiv b < 0 ∧ a.tmod b ≠ 0 then a.tdiv b - 1 else a.tdiv b) : Number) =
      numidiv (.ofInt a) (.ofInt b) ↔ KeptInt .idiv a b := by
  show _ ↔ ¬(a.natAbs < b.natAbs ∧ (a < 0 ∧ 0 < b ∨ 0 ≤ a ∧ b < 0))
  unfold numidiv
  by_cases ha0 : a = 0
  · subst ha0
    rw [Datum.zero_div Format.double_wide hb hb0, Datum.floor_zero, Int.zero_tdiv, Int.zero_tmod]
    simp only [ne_eq, not_true, and_false, if_false, Datum.ofInt_zero, Datum.num.injEq, and_true]
    rw [eq_comm, decide_eq_false_iff_not]
    omega
  · have hneg := tdiv_neg_iff ha0 hb0
    rw [Datum.floor_div Format.double_wide ha hb ha0 hb0 hsum, floor_div_tdiv hb0]
    by_cases hsmall : a.natAbs < b.natAbs ∧ (a < 0 ∧ 0 < b ∨ 0 ≤ a ∧ b < 0)
    · have hzero : a.tdiv b = 0 := by
        rw [← Int.natAbs_eq_zero, Int.natAbs_tdiv]
        exact Nat.div_eq_of_lt hsmall.1
      have hmod : a.tmod b ≠ 0 := by
        rw [Int.tmod_def, hzero, Int.mul_zero, Int.sub_zero]
        exact ha0
      have hsigns : (a < 0) ≠ (b < 0) := by
        rw [ne_eq, eq_iff_iff]
        omega
      rw [hzero, if_neg fun h => absurd h.1 (lt_irrefl 0), if_pos ⟨hmod, hsigns⟩, Datum.ofInt_zero]
      refine iff_of_false (fun h => ?_) (fun h => h hsmall)
      exact Datum.ofInt_ne_zero Format.double_wide (a := 0 - 1) (by show _ < 2 ^ 53; decide) (by decide) false h.symm
    · have hsame : a.tdiv b < 0 ∧ a.tmod b ≠ 0 ↔ a.tmod b ≠ 0 ∧ (a < 0) ≠ (b < 0) := by
        rw [hneg, ne_eq, ne_eq, eq_iff_iff]
        omega
      rw [if_congr hsame rfl rfl]
      exact iff_of_true rfl hsmall

/-- The remainder that is folded is the one of rounding down. -/
theorem mod_ofInt (hb0 : b ≠ 0) (hsum : a.natAbs + b.natAbs ≤ 2 ^ Format.double.fraction) :
    (.ofInt (if a.tmod b ≠ 0 ∧ (a < 0) ≠ (b < 0) then a.tmod b + b else a.tmod b) : Number) =
      nummod (.ofInt a) (.ofInt b) := by
  obtain ⟨hsplit, -⟩ := tdiv_tmod_spec (a := a) hb0
  have hminus : (a.tdiv b - 1) * b = a.tdiv b * b - b := by ring
  unfold nummod
  rw [Datum.sub_floor_div_mul Format.double_wide hb0 hsum, floor_div_tdiv hb0]
  congr 1
  split
  · rw [hminus]
    omega
  · omega

/-- A folded integer is the result of the machine exactly when the condition holds. -/
theorem evaluateImms_iff {r : ℤ} (htm : arithTMS op = some tm) (h : evaluateImms op a b = some r)
    (hsum : a.natAbs + b.natAbs ≤ 2 ^ Format.double.fraction) :
    .ofInt r = m.numArith tm (.ofInt a) (.ofInt b) ↔ KeptInt op a b := by
  obtain ⟨ha, hb⟩ := Datum.fits_of_add_le hsum
  unfold evaluateImms at h
  split at h
  · cases h
  · next hdivisor =>
    split at h
    · cases h
    · split at h
      · cases h
        cases htm
        exact iff_of_true (Datum.ofInt_add Format.double_wide ha hb).symm trivial
      · cases h
        cases htm
        exact iff_of_true (Datum.ofInt_sub Format.double_wide ha hb).symm trivial
      · cases h
        cases htm
        exact mul_ofInt_iff ha hb
      · have hb0 : b ≠ 0 := fun hzero => hdivisor ⟨hzero, Or.inr (Or.inl rfl)⟩
        cases htm
        refine iff_of_true ?_ trivial
        refine Eq.trans ?_ (mod_ofInt hb0 hsum)
        simp only at h
        split at h <;> cases h <;> rename_i hc
        · rw [if_pos hc]
        · rw [if_neg hc]
      · have hb0 : b ≠ 0 := fun hzero => hdivisor ⟨hzero, Or.inr (Or.inr rfl)⟩
        cases htm
        refine Iff.trans ?_ (idiv_ofInt_iff hb0 ha hb hsum)
        simp only at h
        split at h <;> cases h <;> rename_i hc
        · rw [if_pos hc]
          rfl
        · rw [if_neg hc]
          rfl
      · cases h

/-! ### Numbers -/

theorem evaluateNumbers_eq {r : Number} (htm : arithTMS op = some tm) (h : evaluateNumbers m op x y = some r) :
    r = m.numArith tm x y := by
  cases op with
  | mod =>
    cases htm
    unfold evaluateNumbers at h
    simp only at h
    split at h
    · cases h
    · exact (Option.some.inj h).symm
  | _ => cases htm <;> exact (Option.some.inj h).symm

theorem equal_number {c : BcVmConst} {r : Number} (h : c.equal (.number r) = true) :
    c = .number r ∨ ∃ z, r = .num z 0 := by
  cases c with
  | number n =>
    rcases Datum.eq_of_equal h with rfl | hzero
    · exact Or.inl rfl
    · exact Or.inr hzero
  | _ => simp [BcVmConst.equal] at h

/-- The constant that is found or added is the number, unless the one that is found is another zero. -/
theorem findOrAddConst_spec (constants : List BcVmConst) (r : Number) :
    ∃ k c, (findOrAddConst constants (.number r)).2 = .vmConst k ∧
      (findOrAddConst constants (.number r)).1[k]? = some c ∧ (c = .number r ↔ KeptZero constants r) := by
  have hfind : ∀ c, constants.find? (·.equal (.number r)) = some c → (c = .number r ↔ KeptZero constants r) := by
    intro c hc
    constructor
    · intro heq z hz c' hc'
      rw [← hz, hc] at hc'
      cases hc'
      rw [heq, hz]
    · intro hkept
      have hequal : c.equal (.number r) = true := List.find?_some (p := fun c => BcVmConst.equal c (.number r)) hc
      rcases equal_number hequal with heq | ⟨z, rfl⟩
      · exact heq
      · exact hkept z rfl c hc
  unfold findOrAddConst
  cases hi : constants.findIdx? (·.equal (.number r)) with
  | some k =>
    obtain ⟨hlt, hequal, hfirst⟩ := List.findIdx?_eq_some_iff_getElem.mp hi
    refine ⟨k, constants[k], rfl, List.getElem?_eq_getElem hlt, hfind _ ?_⟩
    rw [List.find?_eq_some_iff_getElem]
    exact ⟨hequal, k, hlt, rfl, fun j hj => by simpa using hfirst j hj⟩
  | none =>
    refine ⟨constants.length, .number r, rfl, List.getElem?_concat_length, iff_of_true rfl ?_⟩
    intro z hz c hc
    rw [← hz, List.find?_eq_none.mpr] at hc
    · cases hc
    · intro c' hc' hequal
      rw [List.findIdx?_eq_none_iff] at hi
      rw [hi c' hc'] at hequal
      cases hequal

/-! ### The folded instruction -/

theorem exec_rewriteToLoad_const (func : BcFunction) (hi : i < func.instructions.length) (k : ℕ)
    (val : BcOp → Value V d) :
    exec m (rewriteToLoad func i (.vmConstant (.vmConst k))) val
        ((rewriteToLoad func i (.vmConstant (.vmConst k))).inst i) =
      some (.value (constValue (func.constants.getD k .nil))) := by
  unfold rewriteToLoad
  have herased : BcFunction.SameCode func ((func.inst i).ops.foldl (fun f usedOp => f.eraseUse (.inst i) usedOp) func) :=
    BcFunction.sameCode_foldl (fun f usedOp => BcFunction.sameCode_eraseUse f _ usedOp) _ func
  generalize (func.inst i).ops.foldl (fun f usedOp => f.eraseUse (.inst i) usedOp) func = erased at herased
  simp only
  rw [BcFunction.inst_modifyInst, if_pos ⟨rfl, by rw [herased.length]; exact hi⟩, ← herased.constants]
  rfl

theorem exec_rewriteToLoad_imm (func : BcFunction) (hi : i < func.instructions.length) (n : BitVec 32)
    (val : BcOp → Value V d) :
    exec m (rewriteToLoad func i (.immConstant (.int n))) val
        ((rewriteToLoad func i (.immConstant (.int n))).inst i) =
      some (.value (.number (Datum.ofInt n.toInt))) := by
  unfold rewriteToLoad
  have herased : BcFunction.SameCode func ((func.inst i).ops.foldl (fun f usedOp => f.eraseUse (.inst i) usedOp) func) :=
    BcFunction.sameCode_foldl (fun f usedOp => BcFunction.sameCode_eraseUse f _ usedOp) _ func
  generalize (func.inst i).ops.foldl (fun f usedOp => f.eraseUse (.inst i) usedOp) func = erased at herased
  simp only
  have hlt : i < (erased.addImm (.int n)).instructions.length := by
    show i < erased.instructions.length
    rw [herased.length]
    exact hi
  rw [BcFunction.inst_modifyInst, if_pos ⟨rfl, hlt⟩]
  show some (Outcome.value (immValue ((erased.immediates ++ [BcImm.int n]).getD func.immediates.length (.boolean false)))) = _
  rw [← herased.immediates, List.getD_eq_getElem?_getD, List.getElem?_concat_length]
  rfl

theorem constValue_eq_number {c : BcVmConst} {n : Number} :
    (constValue c : Value V d) = .number n ↔ c = .number n := by
  cases c with
  | number k =>
    show Value.number k = Value.number n ↔ _
    rw [Value.number.injEq, BcVmConst.number.injEq]
  | _ => exact iff_of_false nofun nofun

theorem exec_arith (func : BcFunction) (val : BcOp → Value V d) {lhs rhs : BcOp} (htm : arithTMS (func.inst i).op = some tm)
    (hops : (func.inst i).ops = [lhs, rhs]) (hlhs : val lhs = .number x) (hrhs : val rhs = .number y) :
    exec m func val (func.inst i) = some (.value (.number (m.numArith tm x y))) := by
  have hexec : exec m func val (func.inst i) = exec m func val ⟨(func.inst i).op, [lhs, rhs], [], 0⟩ := by
    rw [← hops]
    rfl
  rw [hexec]
  generalize (func.inst i).op = op at htm
  cases op with
  | add | sub =>
    cases htm
    show some (m.addSub _ (val lhs) (val rhs)) = _
    rw [hlhs, hrhs]
    rfl
  | mul | div | idiv =>
    cases htm
    show some (m.mulDiv _ (val lhs) (val rhs)) = _
    rw [hlhs, hrhs]
    rfl
  | mod | pow =>
    cases htm
    show some (m.numOnly _ (val lhs) (val rhs)) = _
    rw [hlhs, hrhs]
    rfl
  | _ => cases htm

/-- What is known of a result is an integer of two integers or the constant of two numbers. -/
theorem evaluateArith_cases (func : BcFunction) (op : LuauOpcode) (lhs rhs : ConstnessLattice) :
    ((evaluateArith m func op lhs rhs).1 = .notAConstant ∨ (evaluateArith m func op lhs rhs).1 = .undetermined) ∨
    (∃ lv rv r, lhs = .immConstant (.int lv) ∧ rhs = .immConstant (.int rv) ∧
      evaluateImms op lv.toInt rv.toInt = some r ∧ fitsLoadn r = true ∧
      evaluateArith m func op lhs rhs = (.immConstant (.int (BitVec.ofInt 32 r)), func.constants)) ∨
    (∃ l k x y r, lhs = .vmConstant l ∧ rhs = .vmConstant k ∧ func.constOp l = .number x ∧ func.constOp k = .number y ∧
      evaluateNumbers m op x y = some r ∧
      evaluateArith m func op lhs rhs =
        (.vmConstant (findOrAddConst func.constants (.number r)).2, (findOrAddConst func.constants (.number r)).1)) := by
  cases lhs with
  | undetermined => cases rhs <;> first | exact Or.inl (Or.inl rfl) | exact Or.inl (Or.inr rfl)
  | notAConstant => exact Or.inl (Or.inl rfl)
  | vmConstant l =>
    cases rhs with
    | vmConstant k =>
      delta evaluateArith
      dsimp only
      cases hl : func.constOp l with
      | number x =>
        cases hk : func.constOp k with
        | number y =>
          simp only [evaluateConsts]
          cases hr : evaluateNumbers m op x y with
          | some r => exact Or.inr (Or.inr ⟨l, k, x, y, r, rfl, rfl, hl, hk, hr, rfl⟩)
          | none => exact Or.inl (Or.inl rfl)
        | _ => exact Or.inl (Or.inl rfl)
      | _ => exact Or.inl (Or.inl rfl)
    | _ => exact Or.inl (Or.inl rfl)
  | immConstant lv =>
    cases lv with
    | boolean _ => exact Or.inl (Or.inl rfl)
    | int lv =>
      cases rhs with
      | immConstant rv =>
        cases rv with
        | boolean _ => exact Or.inl (Or.inl rfl)
        | int rv =>
          delta evaluateArith
          dsimp only
          cases hr : evaluateImms op lv.toInt rv.toInt with
          | none => exact Or.inl (Or.inl rfl)
          | some r =>
            by_cases hfits : fitsLoadn r = true
            · exact Or.inr (Or.inl ⟨lv, rv, r, rfl, rfl, hr, hfits, if_pos hfits⟩)
            · exact Or.inl (Or.inl (congrArg Prod.fst (if_neg hfits)))
      | _ => exact Or.inl (Or.inl rfl)

/-- A folded instruction leaves what it left before exactly when the condition holds. -/
theorem foldInst_kept_iff (m : Machine V d) (rt : BcOp → Value V d) (htm : arithTMS (func.inst i).op = some tm)
    {func' : BcFunction} (h : foldInst m state func i = some func') :
    exec m func' (operandValue state func rt) (func'.inst i) = exec m func (operandValue state func rt) (func.inst i) ↔
      KeptFold m state func i := by
  have hi : i < func.instructions.length := by
    apply BcFunction.lt_length_of_op
    intro hother
    rw [hother] at htm
    cases htm
  have himm : ∀ {o : BcOp} {n : BitVec 32}, state.operandLattice o = .immConstant (.int n) →
      operandValue state func rt o = .number (Datum.ofInt n.toInt) := by
    intro o n ho
    unfold operandValue
    rw [ho]
    rfl
  have hconst : ∀ {o c : BcOp} {n : Number}, state.operandLattice o = .vmConstant c → func.constOp c = .number n →
      operandValue state func rt o = .number n := by
    intro o c n ho hc
    unfold operandValue
    rw [ho]
    show constValue (func.constOp c) = _
    rw [hc]
    rfl
  unfold foldInst at h
  split at h
  · next lhs rhs hops =>
    unfold KeptFold
    simp only [htm, hops]
    rcases evaluateArith_cases m func (func.inst i).op (state.operandLattice lhs) (state.operandLattice rhs) with
      hnone | ⟨lv, rv, r, hl, hr, heval, hfits, heq⟩ | ⟨l, k, x, y, r, hl, hr, hx, hy, heval, heq⟩
    · split at h
      · next hlat => rcases hnone with hnone | hnone <;> rw [hlat] at hnone <;> cases hnone
      · next hlat => rcases hnone with hnone | hnone <;> rw [hlat] at hnone <;> cases hnone
      · cases h
    · rw [heq] at h
      cases h
      rw [exec_rewriteToLoad_imm m { func with constants := func.constants } hi, exec_arith m func _ htm hops (himm hl) (himm hr), toInt_of_fitsLoadn hfits]
      simp only [hl, hr, Option.some.injEq, Outcome.value.injEq, Value.number.injEq]
      exact evaluateImms_iff m htm heval (sum_double lv rv)
    · rw [heq] at h
      obtain ⟨j, c, hj, hc, hiff⟩ := findOrAddConst_spec func.constants r
      rw [hj] at h
      cases h
      rw [exec_rewriteToLoad_const m { func with constants := (findOrAddConst func.constants (.number r)).1 } hi,
        exec_arith m func _ htm hops (hconst hl hx) (hconst hr hy)]
      have hvalue : constValue ((findOrAddConst func.constants (.number r)).1.getD j .nil) =
          (.number (m.numArith tm x y) : Value V d) ↔ KeptZero func.constants (m.numArith tm x y) := by
        rw [List.getD_eq_getElem?_getD, hc, ← evaluateNumbers_eq m htm heval]
        show constValue c = .number r ↔ _
        rw [← hiff]
        exact constValue_eq_number
      simp only [hl, hr, Option.some_inj, Outcome.value.injEq]
      rw [hvalue]
      constructor
      · intro hkept x' y' hx' hy'
        cases hx.symm.trans hx'
        cases hy.symm.trans hy'
        exact hkept
      · intro hkept
        exact hkept x y hx hy
  · cases h

/-- Only operations on two numbers are folded. -/
theorem arithTMS_of_foldInst {func' : BcFunction} (h : foldInst m state func i = some func') :
    ∃ tm, arithTMS (func.inst i).op = some tm := by
  unfold foldInst at h
  split at h
  · next lhs rhs hops =>
    rcases evaluateArith_cases m func (func.inst i).op (state.operandLattice lhs) (state.operandLattice rhs) with
      hnone | ⟨lv, rv, r, -, -, heval, -, -⟩ | ⟨l, k, x, y, r, -, -, -, -, heval, -⟩
    · split at h
      · next hlat => rcases hnone with hnone | hnone <;> rw [hlat] at hnone <;> cases hnone
      · next hlat => rcases hnone with hnone | hnone <;> rw [hlat] at hnone <;> cases hnone
      · cases h
    · unfold evaluateImms at heval
      generalize (func.inst i).op = op at heval
      cases op <;> first | exact ⟨_, rfl⟩ | simp at heval
    · generalize (func.inst i).op = op at heval
      cases op <;> first | exact ⟨_, rfl⟩ | cases heval
  · cases h

end Folding

/-! ### Functions of one block -/

/-- A machine without metamethods -/
def plainMachine : Machine Format.single 3 where
  pow a b := if Datum.equal b (Datum.ofInt 0) then .one else a
  sqrt a := a
  str2d _ := none
  objtypename _ := "table".toList
  gettmbyobj _ _ := none
  isC _ := false
  callTM _ _ _ := .value .nil
  callUnaryTM _ _ := .value .nil

/-- An operation on an upvalue and on the constant `k`, in the order of `ops` -/
def oneBlock (op : LuauOpcode) (ops : List BcOp) (k : Number) : BcFunction where
  instructions :=
    [⟨.getupval, [.vmUpvalue 0], [.inst 2], 0⟩, ⟨.loadk, [.vmConst 0], [.inst 2], 0⟩, ⟨op, ops, [], 0⟩]
  phis := []
  immediates := []
  constants := [.number k]
  blocks := [[.inst 0, .inst 1, .inst 2]]

/-- The second instruction is known to be the constant. -/
def oneBlockState : SccpState
  | .inst 1 => .vmConstant (.vmConst 0)
  | _ => .notAConstant

end Luwu.Sccp
