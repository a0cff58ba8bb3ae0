import Luwu.Sccp.Conditions
import Luwu.Lib.FloatInt

/-!
# Where the decisions are those of the machine

`Known` is what the comparisons read of a constant, which both representations have in common; what they do not read
they take to be equal.  `Meets` says for every jump and its constants whether that is right.
-/

namespace Luwu.Sccp.Jumps

open Floating

variable {V : Format} {d : ℕ}

/-! ### Three-way comparisons -/

section

variable {F : Format} {a b : Number}

theorem equal_num_iff {s s' : Bool} {m m' : Fin (F.top + 1)} :
    Datum.equal (.num s m : Datum F) (.num s' m') = true ↔ (Datum.num s m : Datum F).value = (Datum.num s' m').value := by
  have hzero : ∀ k : Fin (F.top + 1), k ≠ 0 → 0 < F.magnitude k := by
    intro k hk
    exact Format.magnitude_pos fun h => hk (Fin.ext h)
  have hinj : ∀ k k' : Fin (F.top + 1), F.magnitude k = F.magnitude k' → k = k' := by
    intro k k' h
    exact Fin.ext (Format.magnitude_strictMono.injective h)
  unfold Datum.equal
  simp only [Bool.or_eq_true, Bool.and_eq_true, decide_eq_true_eq]
  constructor
  · intro h
    obtain ⟨rfl, rfl⟩ | ⟨rfl, rfl⟩ := h
    · rw [Datum.value_zero, Datum.value_zero]
    · rfl
  · intro h
    by_cases hm : m = 0
    · rw [hm, Datum.value_zero] at h
      by_cases hm' : m' = 0
      · exact Or.inl ⟨hm, hm'⟩
      · exact absurd h.symm (Datum.value_ne_zero s' hm')
    · have habs := congrArg abs h
      rw [Datum.abs_value, Datum.abs_value] at habs
      have heq := hinj m m' habs
      subst heq
      refine Or.inr ⟨?_, rfl⟩
      have hneg := Datum.value_neg_iff (s := s) hm
      rw [h, Datum.value_neg_iff hm] at hneg
      exact Bool.eq_iff_iff.mpr hneg.symm

theorem threeWay_lt_iff {gt lt : Bool} (h : ¬(gt = true ∧ lt = true)) : threeWay gt lt < 0 ↔ lt = true := by
  cases gt <;> cases lt <;> simp_all [threeWay]

theorem threeWay_le_iff {gt lt : Bool} (h : ¬(gt = true ∧ lt = true)) : threeWay gt lt ≤ 0 ↔ gt = false := by
  cases gt <;> cases lt <;> simp_all [threeWay]

theorem threeWay_eq_iff {gt lt : Bool} (h : ¬(gt = true ∧ lt = true)) :
    threeWay gt lt = 0 ↔ gt = false ∧ lt = false := by
  cases gt <;> cases lt <;> simp_all [threeWay]

theorem less_asymm (a b : Datum F) : ¬(Floats.less a b = true ∧ Floats.less b a = true) := by
  intro h
  cases a with
  | nan => cases h.1
  | num s m =>
    cases b with
    | nan => cases h.1
    | num s' m' =>
      simp only [Floats.less, decide_eq_true_eq] at h
      exact lt_asymm h.1 h.2

/-- The sign is that of `<`, also where one of the two is no number. -/
theorem threeWayNumber_lt (a b : Number) : decide (threeWayNumber a b < 0) = Floats.less a b := by
  rw [Bool.eq_iff_iff, decide_eq_true_eq]
  exact threeWay_lt_iff (less_asymm b a)

theorem ofInt_ne_nan (i : ℤ) : (Datum.ofInt i : Number) ≠ .nan := by
  unfold Datum.ofInt Datum.round
  split_ifs <;> nofun

theorem fits_int (i : BitVec 32) : Datum.Fits Format.double i.toInt := by
  have hlo := BitVec.le_toInt i
  have hhi := BitVec.toInt_lt (x := i)
  show i.toInt.natAbs < 2 ^ 53
  omega

/-- Small integers are compared as the numbers that they are. -/
theorem less_ofInt (i j : BitVec 32) :
    Floats.less (Datum.ofInt i.toInt : Number) (Datum.ofInt j.toInt) = i.slt j := by
  obtain ⟨m, _, hi, _, hvalue⟩ := Datum.ofInt_eq Format.double_wide (fits_int i)
  obtain ⟨m', _, hj, _, hvalue'⟩ := Datum.ofInt_eq Format.double_wide (fits_int j)
  rw [hi, hj, BitVec.slt_eq_decide]
  simp only [Floats.less, hvalue, hvalue', Int.cast_lt]

theorem threeWayNumber_int (i j : BitVec 32) :
    threeWayNumber (Datum.ofInt i.toInt) (Datum.ofInt j.toInt) = threeWayInt i j := by
  unfold threeWayNumber threeWayInt
  rw [less_ofInt, less_ofInt]

/-- The other way to write a three-way comparison -/
theorem ite_threeWay (a b : Number) :
    (if Floats.less a b then -1 else if Floats.less b a then 1 else 0 : ℤ) = threeWayNumber a b := by
  have hnot := less_asymm a b
  unfold threeWayNumber threeWay
  cases hab : Floats.less a b <;> cases hba : Floats.less b a <;> simp_all

theorem threeWayNumber_neg (a b : Number) : threeWayNumber b a = -threeWayNumber a b := by
  unfold threeWayNumber threeWay
  omega

/-- A comparison with NaN is an answer that no number gives. -/
theorem threeWayNumber_nan (h : a = .nan ∨ b = .nan) : threeWayNumber a b = 0 := by
  obtain rfl | rfl := h
  · cases b <;> rfl
  · cases a <;> rfl

theorem threeWayNumber_eq (ha : a ≠ .nan) (hb : b ≠ .nan) : decide (threeWayNumber a b = 0) = Datum.equal a b := by
  cases a with
  | nan => exact absurd rfl ha
  | num s m =>
    cases b with
    | nan => exact absurd rfl hb
    | num s' m' =>
      rw [Bool.eq_iff_iff, decide_eq_true_eq, equal_num_iff]
      unfold threeWayNumber
      rw [threeWay_eq_iff (less_asymm _ _)]
      simp only [Floats.less, decide_eq_false_iff_not, not_lt]
      constructor
      · intro h
        exact le_antisymm h.1 h.2
      · intro h
        exact ⟨h.le, h.ge⟩

theorem threeWayNumber_le (ha : a ≠ .nan) (hb : b ≠ .nan) :
    decide (threeWayNumber a b ≤ 0) = Floats.lessEqual a b := by
  cases a with
  | nan => exact absurd rfl ha
  | num s m =>
    cases b with
    | nan => exact absurd rfl hb
    | num s' m' =>
      rw [Bool.eq_iff_iff, decide_eq_true_eq]
      unfold threeWayNumber
      rw [threeWay_le_iff (less_asymm _ _)]
      simp only [Floats.less, Floats.lessEqual, decide_eq_false_iff_not, not_lt, decide_eq_true_eq]

end

/-! ### What the pass knows of a constant -/

inductive Known where
  | nil
  | boolean (b : Bool)
  | number (n : Number)
  | integer (i : BitVec 64)
  | string (s : List UInt8)
  | symnone
  -- a constant of another kind, which is not compared
  | unread
  -- a value that is there at run time only
  | imported
  deriving DecidableEq

namespace Known

def falsey : Known → Bool
  | nil => true
  | boolean b => !b
  | symnone => true
  | _ => false

def orderable : Known → Bool
  | number _ => true
  | integer _ => true
  | string _ => true
  | _ => false

def kind : Known → ℕ
  | nil => 0
  | boolean _ => 1
  | number _ => 2
  | integer _ => 3
  | string _ => 4
  | symnone => 5
  | unread => 6
  | imported => 7

def cmp : Known → Known → ℤ
  | number a, number b => threeWayNumber a b
  | integer a, integer b => threeWayInt a b
  | boolean a, boolean b => if a = b then 0 else 1
  | string a, string b => (compareBytes a b).sign
  | _, _ => 0

def cmpImm : Known → Imm → ℤ
  | number a, .int i => threeWayNumber a (Datum.ofInt i.toInt)
  | integer a, .int i => threeWayInt a (i.signExtend 64)
  | boolean a, .boolean b => if a = b then 0 else 1
  | _, _ => 0

/-- The constant of a jump is a number. -/
def eqNumber : Known → Number → Option Bool
  | number a, n => some (Datum.equal a n)
  | integer a, n => some (Datum.equal (Datum.ofInt a.toInt) n)
  | _, _ => none

def eqString : Known → List UInt8 → Option Bool
  | string a, s => some (a == s)
  | _, _ => none

def eqBoolean : Known → Bool → Option Bool
  | boolean a, b => some (a == b)
  | _, _ => none

/-- The values that a constant may have -/
def Reads : Known → Value V d → Prop
  | nil, v => v = .nil
  | boolean b, v => v = .boolean b
  | number n, v => v = .number n
  | integer i, v => v = .integer i
  | string s, v => v = .string s
  | symnone, v => v = .symnone
  | unread, v => l_isfalse v = false ∧ (∀ b, v ≠ .boolean b) ∧ (∀ n, v ≠ .number n) ∧ ∀ s, v ≠ .string s
  | imported, _ => True

end Known

/-- The operations of a representation do what `Known` says. -/
structure Represents (impl : VmConstOps) (known : ℕ → Known) (value : ℕ → Value V d) : Prop where
  reads : ∀ k, (known k).Reads (value k)
  falsey : ∀ k, impl.falsey k = (known k).falsey
  cmp : ∀ l r, impl.kindEquals l r = true → impl.cmp l r = (known l).cmp (known r)
  cmpImm : ∀ l imm, impl.cmpImm l imm = (known l).cmpImm imm
  isOrderable : ∀ k, impl.isOrderable k = (known k).orderable
  kindEquals : ∀ l r, impl.kindEquals l r = true → (known l).kind = (known r).kind
  kindNil : ∀ k, impl.kindNil k = true ↔ known k = .nil
  eqImm : ∀ k b, impl.eqImm k (.boolean b) = (known k).eqBoolean b
  eqNumber : ∀ k c n, known c = .number n → impl.eq k c = (known k).eqNumber n
  eqString : ∀ k c s, known c = .string s → impl.eq k c = (known k).eqString s
  eqInt : ∀ c n i, known c = .number n → impl.eqInt c i = some (Datum.equal (Datum.ofInt i.toInt) n)

/-! ### The representations -/

/-- Where the loader has put a constant that is an object, and what it has imported -/
structure Loaded (V : Format) (d : ℕ) where
  imported : ℕ → Value V d
  address : ℕ → ℕ

namespace BcVmConstImpl

def known (constants : List (BcVmConst d)) (k : ℕ) : Known :=
  match constOp constants k with
  | .nil => .nil
  | .boolean b => .boolean b
  | .number n => .number n
  | .integer i => .integer i
  | .string s => .string s
  | .imported _ => .imported
  | _ => .unread

/-- The value of a constant of a loaded file -/
def value (loaded : Loaded V d) (constants : List (BcVmConst d)) (k : ℕ) : Value V d :=
  match constOp constants k with
  | .nil => .nil
  | .boolean b => .boolean b
  | .number n => .number n
  | .vectorf v => .vector fun i => (v i).convert
  | .vectord v => .vector fun i => (v i).convert
  | .string s => .string s
  | .imported _ => loaded.imported k
  | .table _ => .object .table (loaded.address k)
  | .closure _ => .object .function (loaded.address k)
  | .integer i => .integer i
  | .classShape _ => .object .luaclass (loaded.address k)

end BcVmConstImpl

namespace TValueVmConstImpl

def known (constants : List (Value V d)) (k : ℕ) : Known :=
  match constOp constants k with
  | .nil => .nil
  | .boolean b => .boolean b
  | .number n => .number n
  | .string s => .string s
  | .symnone => .symnone
  | _ => .unread

end TValueVmConstImpl

theorem represents_bytecode (loaded : Loaded V d) (constants : List (BcVmConst d)) :
    Represents (BcVmConstImpl.ops constants) (BcVmConstImpl.known constants)
      (BcVmConstImpl.value loaded constants) where
  reads k := by
    unfold BcVmConstImpl.known BcVmConstImpl.value
    cases BcVmConstImpl.constOp constants k <;> simp [Known.Reads, l_isfalse]
  falsey k := by
    show BcVmConstImpl.falsey constants k = _
    unfold BcVmConstImpl.falsey BcVmConstImpl.known
    cases BcVmConstImpl.constOp constants k <;> rfl
  cmp l r _ := by
    show BcVmConstImpl.cmp constants l r = _
    unfold BcVmConstImpl.cmp BcVmConstImpl.known
    cases BcVmConstImpl.constOp constants l <;> cases BcVmConstImpl.constOp constants r <;> rfl
  cmpImm l imm := by
    show BcVmConstImpl.cmpImm constants l imm = _
    unfold BcVmConstImpl.cmpImm BcVmConstImpl.known
    cases imm <;> cases BcVmConstImpl.constOp constants l <;> rfl
  isOrderable k := by
    show BcVmConstImpl.isOrderable constants k = _
    unfold BcVmConstImpl.isOrderable BcVmConstImpl.known
    cases BcVmConstImpl.constOp constants k <;> rfl
  kindEquals l r h := by
    have hkind : (BcVmConstImpl.constOp constants l).kind = (BcVmConstImpl.constOp constants r).kind := beq_iff_eq.mp h
    unfold BcVmConstImpl.known
    cases hl : BcVmConstImpl.constOp constants l <;> cases hr : BcVmConstImpl.constOp constants r <;>
      simp_all [BcVmConst.kind, Known.kind]
  kindNil k := by
    show ((BcVmConstImpl.constOp constants k).kind == 0) = true ↔ _
    unfold BcVmConstImpl.known
    cases BcVmConstImpl.constOp constants k <;> simp [BcVmConst.kind]
  eqImm k b := by
    show BcVmConstImpl.eqImm constants k (.boolean b) = _
    unfold BcVmConstImpl.eqImm BcVmConstImpl.known
    cases BcVmConstImpl.constOp constants k <;> rfl
  eqNumber k c n hc := by
    show BcVmConstImpl.eq constants k c = _
    unfold BcVmConstImpl.eq
    unfold BcVmConstImpl.known at hc ⊢
    cases hconst : BcVmConstImpl.constOp constants c <;> rw [hconst] at hc <;> cases hc
    cases BcVmConstImpl.constOp constants k <;> rfl
  eqString k c s hc := by
    show BcVmConstImpl.eq constants k c = _
    unfold BcVmConstImpl.eq
    unfold BcVmConstImpl.known at hc ⊢
    cases hconst : BcVmConstImpl.constOp constants c <;> rw [hconst] at hc <;> cases hc
    cases BcVmConstImpl.constOp constants k <;> rfl
  eqInt c n i hc := by
    show BcVmConstImpl.eqInt constants c i = _
    unfold BcVmConstImpl.eqInt
    unfold BcVmConstImpl.known at hc
    cases hconst : BcVmConstImpl.constOp constants c <;> rw [hconst] at hc <;> cases hc
    rfl

theorem represents_loaded (constants : List (Value V d)) :
    Represents (TValueVmConstImpl.ops constants) (TValueVmConstImpl.known constants)
      (TValueVmConstImpl.constOp constants) where
  reads k := by
    unfold TValueVmConstImpl.known
    cases TValueVmConstImpl.constOp constants k <;> simp [Known.Reads, l_isfalse]
  falsey k := by
    show TValueVmConstImpl.falsey constants k = _
    unfold TValueVmConstImpl.falsey TValueVmConstImpl.known
    cases TValueVmConstImpl.constOp constants k <;> rfl
  cmp l r _ := by
    show TValueVmConstImpl.cmp constants l r = _
    unfold TValueVmConstImpl.cmp TValueVmConstImpl.known
    cases TValueVmConstImpl.constOp constants l <;> cases TValueVmConstImpl.constOp constants r <;>
      first | rfl | exact ite_threeWay _ _
  cmpImm l imm := by
    show TValueVmConstImpl.cmpImm constants l imm = _
    unfold TValueVmConstImpl.cmpImm TValueVmConstImpl.known
    cases imm <;> cases TValueVmConstImpl.constOp constants l <;> first | rfl | exact ite_threeWay _ _
  isOrderable k := by
    show TValueVmConstImpl.isOrderable constants k = _
    unfold TValueVmConstImpl.isOrderable TValueVmConstImpl.known
    cases TValueVmConstImpl.constOp constants k <;> rfl
  kindEquals l r h := by
    have hkind : (TValueVmConstImpl.constOp constants l).ttype = (TValueVmConstImpl.constOp constants r).ttype :=
      beq_iff_eq.mp h
    unfold TValueVmConstImpl.known
    cases hl : TValueVmConstImpl.constOp constants l <;> cases hr : TValueVmConstImpl.constOp constants r <;>
      rw [hl, hr] at hkind <;> simp only [Value.ttype] at hkind <;> first | rfl | omega
  kindNil k := by
    show ((TValueVmConstImpl.constOp constants k).ttype == 0) = true ↔ _
    unfold TValueVmConstImpl.known
    cases TValueVmConstImpl.constOp constants k <;> simp [Value.ttype]
  eqImm k b := by
    show TValueVmConstImpl.eqImm constants k (.boolean b) = _
    unfold TValueVmConstImpl.eqImm TValueVmConstImpl.known
    cases TValueVmConstImpl.constOp constants k <;> rfl
  eqNumber k c n hc := by
    show TValueVmConstImpl.eq constants k c = _
    unfold TValueVmConstImpl.eq
    unfold TValueVmConstImpl.known at hc ⊢
    cases hconst : TValueVmConstImpl.constOp constants c <;> rw [hconst] at hc <;> cases hc
    cases TValueVmConstImpl.constOp constants k <;> rfl
  eqString k c s hc := by
    show TValueVmConstImpl.eq constants k c = _
    unfold TValueVmConstImpl.eq
    unfold TValueVmConstImpl.known at hc ⊢
    cases hconst : TValueVmConstImpl.constOp constants c <;> rw [hconst] at hc <;> cases hc
    cases TValueVmConstImpl.constOp constants k <;> rfl
  eqInt c n i hc := by
    show TValueVmConstImpl.eqInt constants c i = _
    unfold TValueVmConstImpl.eqInt
    unfold TValueVmConstImpl.known at hc
    cases hconst : TValueVmConstImpl.constOp constants c <;> rw [hconst] at hc <;> cases hc
    rfl

end Luwu.Sccp.Jumps
