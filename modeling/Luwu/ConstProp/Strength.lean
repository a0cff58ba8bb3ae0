import Luwu.Lib.FloatScale
import Luwu.Sccp.Machine

/-!
# Divisions by constants and unsigned sums

A division by a constant power of two becomes a multiplication by its reciprocal: the test is by the binary exponent,
with the same bounds for both formats, and only numbers of the wider one always have the reciprocal. A sum or a
difference of numbers converted from unsigned integers becomes one of integers when it is converted back.
-/

namespace Luwu.ConstProp

open Floating Sccp

abbrev Double := Datum Format.double

abbrev Single := Datum Format.single

/-! ### Divisions -/

/-- What becomes of a division -/
inductive Division where
  | kept
  | operand
  | negated
  | multiplied (by' : Double)

/-- `DIV_NUM` with what is known about its second operand -/
def divNum : Option Double → Division
  | none => .kept
  | some k =>
    if k.equal .one then .operand
    else if k.equal (.neg .one) then .negated
    else
      let (fraction, exp) := k.frexp
      if fraction = some (1 / 2) ∧ exp ≥ -1000 ∧ exp ≤ 1000 then .multiplied (.div .one k) else .kept

def toSingle (k : Double) : Single := k.convert

/-- `DIV_FLOAT` -/
def divFloat : Option Double → Division
  | none => .kept
  | some k =>
    if (toSingle k).equal .one then .operand
    else if (toSingle k).equal (.neg .one) then .negated
    else
      let (fraction, exp) := (toSingle k).frexp
      if fraction = some (1 / 2) ∧ exp ≥ -1000 ∧ exp ≤ 1000 then .multiplied (Datum.div .one (toSingle k)).convert
      else .kept

/-- The reciprocal of a number of its format, with which every product is the quotient -/
structure Reciprocal {F : Format} (k r : Datum F) : Prop where
  finite : r.isFinite = true
  inverse : r.value * k.value = 1
  rational : ∀ a : Datum F, a.value * r.value = a.value / k.value
  same : ∀ a : Datum F, Datum.mul a r = Datum.div a k

section Divisions

variable {F : Format} {k r : Double}

theorem reciprocal_of_pow {m n : Fin (F.top + 1)} {j : ℤ} (hm : (m : ℕ) ≠ F.top) (hn : (n : ℕ) ≠ F.top)
    (hmag : F.magnitude m = 2 ^ j) (hmag' : F.magnitude n = 2 ^ (-j)) :
    Reciprocal (.num false m) (.num false n) := by
  have hprod : F.magnitude n * F.magnitude m = 1 := by
    rw [hmag, hmag', ← zpow_add₀ (by norm_num : (2 : ℚ) ≠ 0), neg_add_cancel, zpow_zero]
  exact ⟨Datum.isFinite_iff.mpr hn, hprod, fun a => (Datum.mul_eq_div hm hn hprod a).2,
    fun a => (Datum.mul_eq_div hm hn hprod a).1⟩

theorem divNum_multiplied (h : divNum (some k) = .multiplied r) :
    ∃ exp, k.frexp = (some (1 / 2), exp) ∧ -1000 ≤ exp ∧ exp ≤ 1000 ∧ r = .div .one k := by
  unfold divNum at h
  simp only at h
  split at h
  · cases h
  · split at h
    · cases h
    · split at h
      · rename_i hcond
        cases h
        exact ⟨k.frexp.2, Prod.ext hcond.1 rfl, hcond.2.1, hcond.2.2, rfl⟩
      · cases h

theorem divFloat_multiplied (h : divFloat (some k) = .multiplied r) :
    ∃ exp, (toSingle k).frexp = (some (1 / 2), exp) ∧ -1000 ≤ exp ∧ exp ≤ 1000 ∧
      r = (Datum.div .one (toSingle k)).convert := by
  unfold divFloat at h
  simp only at h
  split at h
  · cases h
  · split at h
    · cases h
    · split at h
      · rename_i hcond
        cases h
        exact ⟨(toSingle k).frexp.2, Prod.ext hcond.1 rfl, hcond.2.1, hcond.2.2, rfl⟩
      · cases h

/-- All reciprocals that are taken of numbers of the wider format are exact. -/
theorem divNum_reciprocal (h : divNum (some k) = .multiplied r) : Reciprocal k r := by
  obtain ⟨exp, hfrexp, hlow, hhigh, rfl⟩ := divNum_multiplied h
  obtain ⟨m, hm, rfl, hmag⟩ := Datum.frexp_half hfrexp
  have hspan : Format.double.Spans (-(exp - 1)) := by
    constructor
    · have hshift : (Format.double.shift : ℤ) = 1074 := rfl
      omega
    · have hbias : (Format.double.bias : ℤ) = 1023 := rfl
      omega
  obtain ⟨n, hn, hdiv, hmag'⟩ := Datum.reciprocal_exact hm hmag hspan
  rw [hdiv]
  exact reciprocal_of_pow hm hn hmag hmag'

/-- A reciprocal of the narrower format is exact when it is not infinite. -/
theorem divFloat_reciprocal {j : ℤ} {m : Fin (Format.single.top + 1)} (hm : (m : ℕ) ≠ Format.single.top)
    (hmag : Format.single.magnitude m = 2 ^ j) (hj : -127 ≤ j) :
    Reciprocal (.num false m) (toSingle (Datum.div .one (.num false m : Single)).convert) := by
  have hspan : Format.single.Spans j := Format.spans_of_magnitude hm hmag
  have hbias : (Format.single.bias : ℤ) = 127 := rfl
  have hshift : (Format.single.shift : ℤ) = 149 := rfl
  have hup := hspan.2
  have hsingle : Format.single.Spans (-j) := ⟨by omega, by omega⟩
  have hbias' : (Format.double.bias : ℤ) = 1023 := rfl
  have hshift' : (Format.double.shift : ℤ) = 1074 := rfl
  have hdouble : Format.double.Spans (-j) := ⟨by omega, by omega⟩
  obtain ⟨n, hn, hdiv, hmag'⟩ := Datum.reciprocal_exact hm hmag hsingle
  obtain ⟨n', hn', hmag''⟩ := hdouble.magnitude
  rw [hdiv, Datum.convert_shared hn (Datum.ne_zero_of_pow hmag'') (hmag''.trans hmag'.symm)]
  unfold toSingle
  rw [Datum.convert_shared hn' (Datum.ne_zero_of_pow hmag') (hmag'.trans hmag''.symm)]
  exact reciprocal_of_pow hm hn hmag hmag'

/-- The stored number is the reciprocal exactly when the divisor is not among the smallest numbers. -/
theorem divFloat_iff (k : Double) :
    (∀ r, divFloat (some k) = .multiplied r → Reciprocal (toSingle k) (toSingle r)) ↔
      ∀ n : ℕ, 127 < n → (toSingle k).value ≠ 1 / 2 ^ n := by
  constructor
  · intro h n hn hvalue
    have hpow : (toSingle k).value = 2 ^ (-(n : ℤ)) := by
      rw [hvalue, zpow_neg, zpow_natCast, one_div]
    have hbias : (Format.single.bias : ℤ) = 127 := rfl
    have hshift : (Format.single.shift : ℤ) = 149 := rfl
    obtain ⟨m, heq, hm, hmag⟩ := Datum.of_value_pow hpow (by omega)
    have hlow := (Format.spans_of_magnitude hm hmag).1
    have hone : ∀ y : Single, y.value = 1 ∨ y.value = -1 → ¬(toSingle k).equal y = true := by
      intro y hy hequal
      have hlt : (2 : ℚ) ^ (-(n : ℤ)) < 2 ^ (0 : ℤ) := zpow_lt_zpow_right₀ (by norm_num) (by omega)
      have hpos : (0 : ℚ) < 2 ^ (-(n : ℤ)) := zpow_pos (by norm_num) _
      rw [zpow_zero, ← hpow, Datum.value_of_equal hequal] at hlt
      rw [← hpow, Datum.value_of_equal hequal] at hpos
      rcases hy with hy | hy
      · linarith
      · linarith
    have hnegOne : (Datum.neg .one : Single).value = -1 := by
      have hvalue : (Datum.one : Single).value = 1 := Datum.value_one
      rw [← hvalue]
      rfl
    have hmultiplied : divFloat (some k) = .multiplied (Datum.div .one (toSingle k)).convert := by
      unfold divFloat
      simp only
      rw [if_neg (hone _ (Or.inl Datum.value_one)), if_neg (hone _ (Or.inr hnegOne)), heq, Datum.frexp_pow hm hmag]
      exact if_pos ⟨rfl, by omega, by omega⟩
    have hfinite := (h _ hmultiplied).finite
    rw [heq, Datum.reciprocal_overflow hm hmag (by omega)] at hfinite
    exact absurd hfinite (by decide)
  · intro h r hr
    obtain ⟨exp, hfrexp, -, -, rfl⟩ := divFloat_multiplied hr
    obtain ⟨m, hm, heq, hmag⟩ := Datum.frexp_half hfrexp
    rw [heq]
    apply divFloat_reciprocal hm hmag
    by_contra hlow
    have hvalue : (toSingle k).value = 2 ^ (exp - 1) := by
      rw [heq]
      exact hmag
    apply h (1 - exp).toNat (by omega)
    rw [hvalue, one_div, ← zpow_natCast, Int.toNat_of_nonneg (by omega), ← zpow_neg, neg_sub]

end Divisions

/-! ### Sums and differences of unsigned integers -/

/-- An operand of an integer instruction: another instruction, or a constant -/
inductive IntOp where
  | inst (i : ℕ)
  | constInt (n : BitVec 32)
  deriving DecidableEq

/-- An operand that is a number, with the instructions that compute it -/
inductive NumOp where
  | constant (value : Double)
  | uintToNum (a : IntOp)
  | intToNum (a : IntOp)
  | addNum (a b : NumOp)
  | subNum (a b : NumOp)
  | inst (i : ℕ)

/-- What becomes of `NUM_TO_UINT` -/
inductive ToUint where
  | kept
  | truncateUint (a : IntOp)
  | operand (a : IntOp)
  | addInt (a b : IntOp)
  | subInt (a b : IntOp)

def safeIntegerConstant (value : Double) : Bool :=
  if Floats.less value (.ofInt (-4294967295)) || Floats.less (.ofInt 4294967295) value then false
  else (Datum.ofInt value.truncate).equal value

/-- `build.constInt(unsigned((long long)value))` -/
def constUint (value : Double) : IntOp := .constInt (BitVec.ofInt 32 value.truncate)

/-- A sum or difference of two operands, with the integer instruction for it -/
def combine (op : IntOp → IntOp → ToUint) : NumOp → NumOp → ToUint
  | .uintToNum x, .uintToNum y => op x y
  | .constant n, .uintToNum y => if safeIntegerConstant n then op (constUint n) y else .kept
  | .uintToNum x, .constant n => if safeIntegerConstant n then op x (constUint n) else .kept
  | _, _ => .kept

/-- `NUM_TO_UINT`; `dirty` are the instructions that leave something in the high bits of their register. -/
def numToUint (dirty : ℕ → Bool) : NumOp → ToUint
  | .uintToNum (.inst i) => if dirty i then .truncateUint (.inst i) else .operand (.inst i)
  | .uintToNum a => .operand a
  | .intToNum (.inst i) => .operand (.inst i)
  | .addNum a b => combine .addInt a b
  | .subNum a b => combine .subInt a b
  | _ => .kept

/-- The values of all instructions, and what a conversion gives for a number that no 64-bit integer is near -/
structure Values where
  ints : ℕ → BitVec 32
  nums : ℕ → Double
  outOfRange : Double → BitVec 32

namespace Values

variable (env : Values)

def int : IntOp → BitVec 32
  | .inst i => env.ints i
  | .constInt n => n

def num : NumOp → Double
  | .constant value => value
  | .uintToNum a => .ofInt (env.int a).toNat
  | .intToNum a => .ofInt (env.int a).toInt
  | .addNum a b => .add (num a) (num b)
  | .subNum a b => .sub (num a) (num b)
  | .inst i => env.nums i

/-- The conversion by way of a 64-bit integer -/
def toUint (value : Double) : BitVec 32 :=
  if value.isFinite ∧ -2 ^ 63 ≤ value.truncate ∧ value.truncate < 2 ^ 63 then BitVec.ofInt 32 value.truncate
  else env.outOfRange value

def result (src : NumOp) : ToUint → BitVec 32
  | .kept => env.toUint (env.num src)
  | .truncateUint a => env.int a
  | .operand a => env.int a
  | .addInt a b => env.int a + env.int b
  | .subInt a b => env.int a - env.int b

end Values

section Unsigned

variable {env : Values} {a b : ℤ} {x : Double}

theorem toUint_int (h : Datum.IsInt x a) (hlow : -2 ^ 63 ≤ a) (hhigh : a < 2 ^ 63) :
    env.toUint x = BitVec.ofInt 32 a := by
  unfold Values.toUint
  rw [h.truncate, if_pos ⟨h.finite, hlow, hhigh⟩]

theorem fits_small (h : a.natAbs ≤ 2 ^ 34) : Datum.Fits Format.double a :=
  Nat.lt_of_le_of_lt h (by decide)

theorem not_less {y : Double} (hx : x ≠ .nan) (hy : y ≠ .nan) (h : ¬Floats.less x y = true) : y.value ≤ x.value := by
  match x, y, hx, hy with
  | .num s m, .num s' m', _, _ => exact not_lt.mp fun hlt => h (decide_eq_true hlt)

theorem truncate_bound {K : ℕ} (h : |x.value| ≤ K) : x.truncate.natAbs ≤ K := by
  obtain ⟨hlow, hhigh⟩ := abs_le.mp h
  have hlow' : (-(K : ℤ) : ℤ) ≤ x.truncate := by
    unfold Datum.truncate
    split
    · exact_mod_cast hlow.trans (Int.le_ceil _)
    · exact Int.le_floor.mpr (by exact_mod_cast hlow)
  have hhigh' : x.truncate ≤ (K : ℤ) := by
    unfold Datum.truncate
    split
    · exact Int.ceil_le.mpr (by exact_mod_cast hhigh)
    · exact_mod_cast (Int.floor_le _).trans hhigh
  omega

theorem isInt_ne_nan (h : Datum.IsInt x a) : x ≠ .nan := by
  rintro rfl
  exact absurd h.finite Bool.false_ne_true

/-- A number that passes the test is an integer of 33 bits with its sign. -/
theorem safeInteger_isInt (h : safeIntegerConstant x = true) :
    Datum.IsInt x x.truncate ∧ x.truncate.natAbs ≤ 4294967295 := by
  have hhigh : Datum.IsInt (.ofInt 4294967295 : Double) 4294967295 :=
    Datum.isInt_ofInt Format.double_wide (fits_small (by decide))
  have hlow : Datum.IsInt (.ofInt (-4294967295) : Double) (-4294967295) :=
    Datum.isInt_ofInt Format.double_wide (fits_small (by decide))
  unfold safeIntegerConstant at h
  by_cases hrange : (Floats.less x (.ofInt (-4294967295)) || Floats.less (.ofInt 4294967295) x) = true
  · rw [if_pos hrange] at h
    cases h
  · rw [if_neg hrange] at h
    rw [Bool.or_eq_true, not_or] at hrange
    have hx : x ≠ .nan := by
      rintro rfl
      revert h
      cases (Datum.ofInt (Datum.nan : Double).truncate : Double) <;> exact nofun
    have hbound : |x.value| ≤ (4294967295 : ℕ) := by
      have hup := not_less (isInt_ne_nan hhigh) hx hrange.2
      have hdown := not_less hx (isInt_ne_nan hlow) hrange.1
      rw [hhigh.value] at hup
      rw [hlow.value] at hdown
      push_cast at hup hdown
      exact abs_le.mpr ⟨by push_cast; linarith, by push_cast; linarith⟩
    have htrunc := truncate_bound hbound
    have hint : Datum.IsInt (.ofInt x.truncate : Double) x.truncate :=
      Datum.isInt_ofInt Format.double_wide (fits_small (by omega))
    refine ⟨?_, htrunc⟩
    rcases Datum.eq_of_equal h with heq | ⟨z, rfl⟩
    · rwa [heq] at hint
    · have hzero : (Datum.num z 0 : Double).truncate = 0 := by
        unfold Datum.truncate
        rw [Datum.value_zero, Int.ceil_zero, Int.floor_zero, ite_self]
      refine ⟨Datum.isFinite_iff.mpr Datum.zero_ne_top, ?_⟩
      rw [hzero, Datum.value_zero, Int.cast_zero]

theorem toNat_isInt (n : BitVec 32) :
    Datum.IsInt (Datum.ofInt (n.toNat : ℤ) : Double) n.toNat ∧ (n.toNat : ℤ).natAbs ≤ 4294967295 := by
  have hlt := n.isLt
  refine ⟨Datum.isInt_ofInt Format.double_wide (fits_small (by omega)), by omega⟩

/-- The operands of a sum or difference that is rewritten are integers. -/
theorem combine_cases (op : IntOp → IntOp → ToUint) (x y : NumOp) :
    combine op x y = .kept ∨ ∃ i j a b, combine op x y = op i j ∧ Datum.IsInt (env.num x) a ∧
      Datum.IsInt (env.num y) b ∧ a.natAbs ≤ 4294967295 ∧ b.natAbs ≤ 4294967295 ∧
      env.int i = BitVec.ofInt 32 a ∧ env.int j = BitVec.ofInt 32 b := by
  have hword : ∀ n : BitVec 32, n = BitVec.ofInt 32 (n.toNat : ℤ) := by
    intro n
    rw [BitVec.ofInt_natCast, BitVec.ofNat_toNat, BitVec.setWidth_eq]
  match x, y with
  | .uintToNum i, .uintToNum j =>
    obtain ⟨hi, hi'⟩ := toNat_isInt (env.int i)
    obtain ⟨hj, hj'⟩ := toNat_isInt (env.int j)
    exact Or.inr ⟨i, j, _, _, rfl, hi, hj, hi', hj', hword _, hword _⟩
  | .constant n, .uintToNum j =>
    by_cases hsafe : safeIntegerConstant n = true
    · obtain ⟨hn, hn'⟩ := safeInteger_isInt hsafe
      obtain ⟨hj, hj'⟩ := toNat_isInt (env.int j)
      exact Or.inr ⟨constUint n, j, _, _, if_pos hsafe, hn, hj, hn', hj', rfl, hword _⟩
    · exact Or.inl (if_neg hsafe)
  | .uintToNum i, .constant n =>
    by_cases hsafe : safeIntegerConstant n = true
    · obtain ⟨hi, hi'⟩ := toNat_isInt (env.int i)
      obtain ⟨hn, hn'⟩ := safeInteger_isInt hsafe
      exact Or.inr ⟨i, constUint n, _, _, if_pos hsafe, hi, hn, hi', hn', hword _, rfl⟩
    · exact Or.inl (if_neg hsafe)
  | .constant _, .constant _ => exact Or.inl rfl
  | .uintToNum _, .intToNum _ | .uintToNum _, .addNum _ _ | .uintToNum _, .subNum _ _ | .uintToNum _, .inst _
  | .constant _, .intToNum _ | .constant _, .addNum _ _ | .constant _, .subNum _ _ | .constant _, .inst _
  | .intToNum _, _ | .addNum _ _, _ | .subNum _ _, _ | .inst _, _ => exact Or.inl rfl

/-- A conversion to an unsigned integer gives what it gave before. -/
theorem numToUint_same (dirty : ℕ → Bool) (env : Values) (src : NumOp) :
    env.result src (numToUint dirty src) = env.toUint (env.num src) := by
  have hword : ∀ a, env.toUint (.ofInt (env.int a).toNat) = env.int a := by
    intro a
    obtain ⟨hint, hsmall⟩ := toNat_isInt (env.int a)
    rw [toUint_int hint (by omega) (by omega), BitVec.ofInt_natCast, BitVec.ofNat_toNat, BitVec.setWidth_eq]
  match src with
  | .constant _ | .inst _ | .intToNum (.constInt _) => rfl
  | .uintToNum (.constInt n) => exact (hword (.constInt n)).symm
  | .uintToNum (.inst i) =>
    show env.result _ (if dirty i then .truncateUint (.inst i) else .operand (.inst i)) = _
    by_cases hdirty : dirty i = true
    · rw [if_pos hdirty]
      exact (hword (.inst i)).symm
    · rw [if_neg hdirty]
      exact (hword (.inst i)).symm
  | .intToNum (.inst i) =>
    have hlow := BitVec.le_toInt (env.ints i)
    have hhigh := BitVec.toInt_lt (x := env.ints i)
    have hint : Datum.IsInt (Datum.ofInt (env.ints i).toInt : Double) (env.ints i).toInt :=
      Datum.isInt_ofInt Format.double_wide (fits_small (by omega))
    show env.ints i = env.toUint (.ofInt (env.ints i).toInt)
    rw [toUint_int hint (by omega) (by omega), BitVec.ofInt_toInt]
  | .addNum x y =>
    rcases @combine_cases env .addInt x y with hkept | ⟨i, j, a, b, hop, hx, hy, ha, hb, hi, hj⟩
    · show env.result _ (combine .addInt x y) = _
      rw [hkept]
      rfl
    · have hsum := hx.add Format.double_wide hy (fits_small (by omega))
      show env.result _ (combine .addInt x y) = env.toUint (.add (env.num x) (env.num y))
      rw [hop, toUint_int hsum (by omega) (by omega), BitVec.ofInt_add, ← hi, ← hj]
      rfl
  | .subNum x y =>
    rcases @combine_cases env .subInt x y with hkept | ⟨i, j, a, b, hop, hx, hy, ha, hb, hi, hj⟩
    · show env.result _ (combine .subInt x y) = _
      rw [hkept]
      rfl
    · have hdiff := hx.sub Format.double_wide hy (fits_small (by omega))
      show env.result _ (combine .subInt x y) = env.toUint (.sub (env.num x) (env.num y))
      rw [hop, toUint_int hdiff (by omega) (by omega), sub_eq_add_neg, BitVec.ofInt_add, BitVec.ofInt_neg, ← hi, ← hj,
        ← BitVec.sub_eq_add_neg]
      rfl

end Unsigned

/-- **Strength reduction.** Every reciprocal of a divisor of `DIV_NUM` is exact, one of a divisor of `DIV_FLOAT` is
exactly when the divisor is no power of two below `2 ^ -127`, and conversions of sums and differences of unsigned
integers to unsigned integers give what they gave before. -/
theorem strength_reduction (k : Double) :
    (∀ r, divNum (some k) = .multiplied r → Reciprocal k r) ∧
      ((∀ r, divFloat (some k) = .multiplied r → Reciprocal (toSingle k) (toSingle r)) ↔
        ∀ n : ℕ, 127 < n → (toSingle k).value ≠ 1 / 2 ^ n) ∧
      ∀ (dirty : ℕ → Bool) (env : Values) (src : NumOp),
        env.result src (numToUint dirty src) = env.toUint (env.num src) :=
  ⟨fun _ => divNum_reciprocal, divFloat_iff k, numToUint_same⟩

/-- The smallest number of the narrower format, over itself and times the reciprocal that is stored for it -/
theorem smallest_divisor :
    ∃ k r : Double, (toSingle k).value = 1 / 2 ^ 149 ∧ divFloat (some k) = .multiplied r ∧
      ¬Reciprocal (toSingle k) (toSingle r) ∧ (toSingle r).isFinite = false ∧
        Datum.div (toSingle k) (toSingle k) = .one ∧ Datum.mul (toSingle k) (toSingle r) ≠ .one := by
  have hsmall : Format.single.magnitude (1 : Fin (Format.single.top + 1)) = 2 ^ (-149 : ℤ) := by
    have hscaled : scaled 23 1 = 1 := scaled_of_lt (by decide)
    show ((scaled 23 1 : ℕ) : ℚ) / 2 ^ 149 = 2 ^ (-149 : ℤ)
    rw [hscaled]
    norm_num
  have hwide : Format.double.magnitude (⟨874 * 2 ^ 52, by decide⟩ : Fin (Format.double.top + 1)) = 2 ^ (-149 : ℤ) := by
    have hscaled : scaled 52 (874 * 2 ^ 52) = 2 ^ (52 + 873) := scaled_pow 52 873
    show ((scaled 52 (874 * 2 ^ 52) : ℕ) : ℚ) / 2 ^ 1074 = 2 ^ (-149 : ℤ)
    rw [hscaled, zpow_neg, ← one_div, div_eq_div_iff (by positivity) (by positivity), one_mul, Nat.cast_pow,
      Nat.cast_ofNat, ← zpow_natCast, ← zpow_natCast, ← zpow_add₀ (by norm_num : (2 : ℚ) ≠ 0)]
    norm_num
  have hsingle : toSingle (.num false ⟨874 * 2 ^ 52, by decide⟩) = .num false 1 :=
    Datum.convert_shared (by decide) (by decide) (hsmall.trans hwide.symm)
  have hinfinite : Datum.div .one (.num false 1 : Single) = .num false (Fin.last _) :=
    Datum.reciprocal_overflow (by decide) hsmall (by decide)
  have hstored : toSingle (Datum.num false (Fin.last Format.single.top) : Single).convert = .num false (Fin.last _) := rfl
  have hone : Datum.div (.num false 1 : Single) (.num false 1) = .one := by
    have hne : (Datum.num false 1 : Single).value ≠ 0 := Datum.value_ne_zero false (by decide)
    rw [Datum.div_finite (by decide) (by decide), if_neg (by decide), div_self hne, ← Datum.ofInt_one]
    unfold Datum.ofInt
    rw [Int.cast_one]
    rfl
  refine ⟨.num false ⟨874 * 2 ^ 52, by decide⟩, (Datum.div .one (.num false 1 : Single)).convert, ?_, ?_, ?_, ?_, ?_, ?_⟩
  · rw [hsingle, one_div, ← zpow_natCast, ← zpow_neg]
    exact hsmall
  · unfold divFloat
    simp only
    rw [hsingle, if_neg (by decide), if_neg (by decide), Datum.frexp_pow (by decide) hsmall]
    exact if_pos ⟨rfl, by decide, by decide⟩
  · intro h
    have hfinite := h.finite
    rw [hinfinite, hstored] at hfinite
    exact absurd hfinite (by decide)
  · rw [hinfinite, hstored]
    decide
  · rw [hsingle, hone]
  · rw [hsingle, hinfinite, hstored]
    decide

end Luwu.ConstProp
