import Luwu.Lib.Floating

/-!
# Arithmetic of floating point numbers

A datum of a format is a number with a sign, where the largest number of a magnitude stands for infinity, or none. The
operations round the exact result once. There is one datum that is no number.
-/

namespace Luwu.Floating

/-- Bits of the fraction, and the bias of the exponent -/
structure Format where
  fraction : ℕ
  bias : ℕ
  bias_pos : 1 ≤ bias

namespace Format

variable (F : Format)

def double : Format := ⟨52, 1023, by decide⟩

def single : Format := ⟨23, 127, by decide⟩

/-- The number of infinity -/
def top : ℕ := (2 * F.bias + 1) * 2 ^ F.fraction

/-- The number of one -/
def one : ℕ := F.bias * 2 ^ F.fraction

/-- The smallest magnitude is one of this many halvings. -/
def shift : ℕ := F.bias - 1 + F.fraction

def magnitude (n : ℕ) : ℚ := scaled F.fraction n / 2 ^ F.shift

def roundMag (q : ℚ) : Fin (F.top + 1) :=
  ⟨min (roundIndex F.fraction (q * 2 ^ F.shift)) F.top, Nat.lt_succ_of_le (Nat.min_le_right _ _)⟩

variable {F}

/-- Zero is a magnitude. -/
instance (priority := 2000) neZero : @NeZero ℕ Zero.ofOfNat0 (F.top + 1) := @NeZero.mk ℕ Zero.ofOfNat0 _ (Nat.succ_ne_zero F.top)

theorem one_lt_top : F.one < F.top := by
  unfold one top
  exact Nat.mul_lt_mul_of_pos_right (by omega) (Nat.two_pow_pos _)

theorem magnitude_zero : F.magnitude 0 = 0 := by
  unfold magnitude
  rw [scaled_zero, Nat.cast_zero, zero_div]

theorem magnitude_strictMono : StrictMono F.magnitude := by
  intro n m h
  unfold magnitude
  have hcast : (scaled F.fraction n : ℚ) < scaled F.fraction m := Nat.cast_lt.mpr (scaled_strictMono _ h)
  exact div_lt_div_of_pos_right hcast (by positivity)

theorem magnitude_nonneg (n : ℕ) : 0 ≤ F.magnitude n := div_nonneg (Nat.cast_nonneg _) (by positivity)

theorem magnitude_pos {n : ℕ} (h : n ≠ 0) : 0 < F.magnitude n := by
  rw [← magnitude_zero (F := F)]
  exact magnitude_strictMono (Nat.pos_of_ne_zero h)

theorem magnitude_one : F.magnitude F.one = 1 := by
  have hpos : 0 < 2 ^ F.fraction := Nat.two_pow_pos _
  have hle : 2 ^ F.fraction ≤ F.one := Nat.le_mul_of_pos_left _ F.bias_pos
  have hscaled : scaled F.fraction F.one = 2 ^ F.shift := by
    rw [scaled_of_le hle]
    unfold one shift
    rw [Nat.mul_mod_left, Nat.mul_div_cancel _ hpos, Nat.add_zero, ← Nat.pow_add, Nat.add_comm]
  unfold magnitude
  rw [hscaled, Nat.cast_pow, Nat.cast_two]
  exact div_self (by positivity)

theorem magnitude_mul (n : ℕ) : F.magnitude n * 2 ^ F.shift = scaled F.fraction n := by
  unfold magnitude
  exact div_mul_cancel₀ _ (by positivity)

/-- A magnitude is rounded to itself. -/
theorem roundMag_magnitude (n : Fin (F.top + 1)) : F.roundMag (F.magnitude n) = n := by
  apply Fin.ext
  show min (roundIndex F.fraction (F.magnitude n * 2 ^ F.shift)) F.top = n
  rw [magnitude_mul, roundIndex_scaled]
  exact Nat.min_eq_left (Nat.lt_succ_iff.mp n.isLt)

theorem roundMag_le {q : ℚ} {n : ℕ} (hq : 0 ≤ q) (h : q ≤ F.magnitude n) : (F.roundMag q : ℕ) ≤ n := by
  apply (Nat.min_le_left _ _).trans
  apply roundIndex_le
  · positivity
  · rw [← magnitude_mul]
    exact mul_le_mul_of_nonneg_right h (by positivity)

theorem le_roundMag {q : ℚ} {n : ℕ} (hn : n ≤ F.top) (h : F.magnitude n ≤ q) : n ≤ (F.roundMag q : ℕ) := by
  apply Nat.le_min.mpr ⟨?_, hn⟩
  apply le_roundIndex
  rw [← magnitude_mul]
  exact mul_le_mul_of_nonneg_right h (by positivity)

end Format

inductive Datum (F : Format) where
  | nan
  | num (neg : Bool) (mag : Fin (F.top + 1))
  deriving DecidableEq

namespace Datum

variable {F G : Format}

/-- The value of a finite number -/
def value : Datum F → ℚ
  | nan => 0
  | num neg mag => if neg then -F.magnitude mag else F.magnitude mag

/-- The number nearest to `q`; `neg` is the sign that zero gets. -/
def round (neg : Bool) (q : ℚ) : Datum F := if q = 0 then num neg 0 else num (q < 0) (F.roundMag |q|)

def ofInt (n : ℤ) : Datum F := round false n

def isFinite : Datum F → Bool
  | nan => false
  | num _ mag => mag < F.top

def neg : Datum F → Datum F
  | nan => nan
  | num s m => num (!s) m

def add : Datum F → Datum F → Datum F
  | num s m, num s' m' =>
    if (m : ℕ) = F.top then if (m' : ℕ) = F.top ∧ s ≠ s' then nan else num s m
    else if (m' : ℕ) = F.top then num s' m'
    else round (s && s') ((num s m).value + (num s' m').value)
  | _, _ => nan

def sub (x y : Datum F) : Datum F := add x (neg y)

def mul : Datum F → Datum F → Datum F
  | num s m, num s' m' =>
    if (m : ℕ) = F.top ∨ (m' : ℕ) = F.top then if m = 0 ∨ m' = 0 then nan else num (s ^^ s') (Fin.last F.top)
    else round (s ^^ s') ((num s m).value * (num s' m').value)
  | _, _ => nan

def div : Datum F → Datum F → Datum F
  | num s m, num s' m' =>
    if (m : ℕ) = F.top then if (m' : ℕ) = F.top then nan else num (s ^^ s') (Fin.last F.top)
    else if (m' : ℕ) = F.top then num (s ^^ s') 0
    else if m' = 0 then if m = 0 then nan else num (s ^^ s') (Fin.last F.top)
    else round (s ^^ s') ((num s m).value / (num s' m').value)
  | _, _ => nan

def floor : Datum F → Datum F
  | nan => nan
  | num s m => if (m : ℕ) = F.top then num s m else round s ⌊(num s m).value⌋

/-- The comparison `==`, for which both zeros are equal -/
def equal : Datum F → Datum F → Bool
  | num s m, num s' m' => m = 0 && m' = 0 || s = s' && m = m'
  | _, _ => false

/-- Conversion to another format -/
def convert : Datum F → Datum G
  | nan => nan
  | num s m => if (m : ℕ) = F.top then num s (Fin.last G.top) else round s (num s m).value

section Laws

variable {x y : Datum F} {s s' z : Bool} {m m' : Fin (F.top + 1)}

@[simp] theorem value_zero (s : Bool) : (num s 0 : Datum F).value = 0 := by
  show (if s then -F.magnitude 0 else F.magnitude 0) = 0
  rw [Format.magnitude_zero, neg_zero, ite_self]

theorem abs_value (s : Bool) (m : Fin (F.top + 1)) : |(num s m : Datum F).value| = F.magnitude m := by
  unfold value
  cases s with
  | true => exact (abs_neg _).trans (abs_of_nonneg (Format.magnitude_nonneg _))
  | false => exact abs_of_nonneg (Format.magnitude_nonneg _)

theorem value_ne_zero (s : Bool) (h : m ≠ 0) : (num s m : Datum F).value ≠ 0 := by
  have hm : (m : ℕ) ≠ 0 := fun h' => h (Fin.ext h')
  rw [← abs_ne_zero, abs_value]
  exact ne_of_gt (Format.magnitude_pos hm)

theorem value_neg_iff (h : m ≠ 0) : (num s m : Datum F).value < 0 ↔ s = true := by
  have hm : 0 < F.magnitude m := Format.magnitude_pos fun h' => h (Fin.ext h')
  unfold value
  cases s with
  | true => simpa using hm
  | false => simpa using hm.le

theorem round_zero (z : Bool) : (round z 0 : Datum F) = num z 0 := if_pos rfl

/-- A finite number is rounded to itself. -/
theorem round_value (z : Bool) (h : m ≠ 0) : (round z (num s m : Datum F).value : Datum F) = num s m := by
  unfold round
  rw [if_neg (value_ne_zero s h), abs_value, Format.roundMag_magnitude]
  congr 1
  rw [Bool.eq_iff_iff, decide_eq_true_iff]
  exact value_neg_iff h

theorem add_inf (hm : (m : ℕ) = F.top) (hm' : (m' : ℕ) ≠ F.top) : add (num s m) (num s' m') = num s m := by
  show (if (m : ℕ) = F.top then if (m' : ℕ) = F.top ∧ s ≠ s' then nan else num s m else _) = _
  rw [if_pos hm, if_neg fun h => hm' h.1]

theorem add_finite (hm : (m : ℕ) ≠ F.top) (hm' : (m' : ℕ) ≠ F.top) :
    add (num s m) (num s' m') = round (s && s') ((num s m).value + (num s' m').value) := by
  show (if (m : ℕ) = F.top then _ else if (m' : ℕ) = F.top then _ else _) = _
  rw [if_neg hm, if_neg hm']

theorem mul_inf (hm : (m : ℕ) = F.top ∨ (m' : ℕ) = F.top) :
    mul (num s m) (num s' m') = if m = 0 ∨ m' = 0 then nan else num (s ^^ s') (Fin.last F.top) :=
  if_pos hm

theorem mul_finite (hm : (m : ℕ) ≠ F.top) (hm' : (m' : ℕ) ≠ F.top) :
    mul (num s m) (num s' m') = round (s ^^ s') ((num s m).value * (num s' m').value) :=
  if_neg (not_or.mpr ⟨hm, hm'⟩)

theorem div_inf (hm : (m : ℕ) = F.top) (hm' : (m' : ℕ) ≠ F.top) :
    div (num s m) (num s' m') = num (s ^^ s') (Fin.last F.top) := by
  show (if (m : ℕ) = F.top then if (m' : ℕ) = F.top then nan else _ else _) = _
  rw [if_pos hm, if_neg hm']

theorem div_by_inf (hm : (m : ℕ) ≠ F.top) (hm' : (m' : ℕ) = F.top) :
    div (num s m) (num s' m') = num (s ^^ s') 0 := by
  show (if (m : ℕ) = F.top then _ else if (m' : ℕ) = F.top then _ else _) = _
  rw [if_neg hm, if_pos hm']

theorem div_finite (hm : (m : ℕ) ≠ F.top) (hm' : (m' : ℕ) ≠ F.top) :
    div (num s m) (num s' m') =
      if m' = 0 then if m = 0 then nan else num (s ^^ s') (Fin.last F.top)
      else round (s ^^ s') ((num s m).value / (num s' m').value) := by
  show (if (m : ℕ) = F.top then _ else if (m' : ℕ) = F.top then _ else _) = _
  rw [if_neg hm, if_neg hm']

protected theorem add_comm (x y : Datum F) : add x y = add y x := by
  cases x with
  | nan => cases y <;> rfl
  | num s m =>
    cases y with
    | nan => rfl
    | num s' m' =>
      unfold add
      by_cases hm : (m : ℕ) = F.top
      · by_cases hm' : (m' : ℕ) = F.top
        · have hmm : m = m' := Fin.ext (hm.trans hm'.symm)
          cases s <;> cases s' <;> simp [hm', hmm]
        · simp [hm, hm']
      · by_cases hm' : (m' : ℕ) = F.top
        · simp [hm, hm']
        · simp only [hm, hm', if_false, Bool.and_comm, add_comm]

protected theorem mul_comm (x y : Datum F) : mul x y = mul y x := by
  cases x with
  | nan => cases y <;> rfl
  | num s m =>
    cases y with
    | nan => rfl
    | num s' m' =>
      unfold mul
      simp only [or_comm, Bool.xor_comm, mul_comm]

/-! ### Zero and one -/

theorem zero_ne_top : ((0 : Fin (F.top + 1)) : ℕ) ≠ F.top := fun h =>
  Nat.ne_of_gt (Nat.lt_of_le_of_lt (Nat.zero_le _) Format.one_lt_top) h.symm

theorem ne_zero_of_top (h : (m : ℕ) = F.top) : m ≠ 0 := by
  intro h0
  rw [h0] at h
  exact zero_ne_top h

def one : Datum F := num false ⟨F.one, Nat.lt_succ_of_lt Format.one_lt_top⟩

theorem one_mag_ne_top : ((⟨F.one, Nat.lt_succ_of_lt Format.one_lt_top⟩ : Fin (F.top + 1)) : ℕ) ≠ F.top :=
  Nat.ne_of_lt Format.one_lt_top

theorem one_mag_ne_zero : (⟨F.one, Nat.lt_succ_of_lt Format.one_lt_top⟩ : Fin (F.top + 1)) ≠ 0 := by
  intro h
  have hval : F.one = 0 := congrArg Fin.val h
  have hpos : 0 < F.one := Nat.mul_pos F.bias_pos (Nat.two_pow_pos _)
  omega

theorem value_one : (one : Datum F).value = 1 := Format.magnitude_one

theorem add_zero_eq_iff : add x (num z 0) = x ↔ ¬(x = num true 0 ∧ z = false) := by
  cases x with
  | nan =>
    refine ⟨fun _ h => ?_, fun _ => rfl⟩
    cases h.1
  | num s m =>
    by_cases hm : (m : ℕ) = F.top
    · rw [add_inf hm zero_ne_top]
      refine ⟨fun _ h => ?_, fun _ => rfl⟩
      cases h.1
      exact zero_ne_top hm
    · rw [add_finite hm zero_ne_top, value_zero, add_zero]
      by_cases h0 : m = 0
      · subst h0
        rw [value_zero, round_zero]
        cases s <;> cases z <;> simp
      · rw [round_value _ h0]
        refine ⟨fun _ h => ?_, fun _ => rfl⟩
        cases h.1
        exact h0 rfl

theorem sub_zero_eq_iff : sub x (num z 0) = x ↔ ¬(x = num true 0 ∧ z = true) := by
  unfold sub neg
  rw [add_zero_eq_iff]
  cases z <;> simp

theorem zero_sub_eq_iff : sub (num z 0) x = x ↔ x = nan ∨ x = num false 0 ∧ z = false := by
  cases x with
  | nan => exact ⟨fun _ => Or.inl rfl, fun _ => rfl⟩
  | num s m =>
    show add (num z 0) (num (!s) m) = num s m ↔ _
    rw [Datum.add_comm]
    by_cases h0 : m = 0
    · subst h0
      rw [add_finite zero_ne_top zero_ne_top, value_zero, value_zero, add_zero, round_zero]
      cases s <;> cases z <;> simp
    · have hsum : add (num (!s) m) (num z 0) = num (!s) m := by
        rw [add_zero_eq_iff]
        intro h
        injection h.1 with _ hmag
        exact h0 hmag
      rw [hsum]
      constructor
      · intro h
        injection h with hsign
        exact absurd hsign (Bool.not_ne_self s)
      · rintro (h | ⟨h, -⟩)
        · cases h
        · cases h
          exact absurd rfl h0

theorem mul_zero_eq_iff : mul x (num z 0) = num false 0 ↔ ∃ m, x = num z m ∧ (m : ℕ) ≠ F.top := by
  cases x with
  | nan =>
    constructor
    · nofun
    · rintro ⟨m, h, -⟩
      cases h
  | num s m =>
    by_cases hm : (m : ℕ) = F.top
    · rw [mul_inf (Or.inl hm), if_pos (Or.inr rfl)]
      constructor
      · nofun
      · rintro ⟨m', h, hm'⟩
        cases h
        exact absurd hm hm'
    · rw [mul_finite hm zero_ne_top, value_zero, mul_zero, round_zero]
      constructor
      · intro h
        refine ⟨m, ?_, hm⟩
        cases s <;> cases z <;> first | rfl | cases h
      · rintro ⟨m', h, -⟩
        cases h
        rw [Bool.xor_self]

@[simp] theorem mul_one_eq (x : Datum F) : mul x one = x := by
  cases x with
  | nan => rfl
  | num s m =>
    by_cases hm : (m : ℕ) = F.top
    · unfold one
      rw [mul_inf (Or.inl hm), if_neg (not_or.mpr ⟨ne_zero_of_top hm, one_mag_ne_zero⟩), Bool.xor_false]
      congr 1
      exact Fin.ext hm.symm
    · have hmul : mul (num s m) one = round (s ^^ false) ((num s m).value * (one : Datum F).value) :=
        mul_finite hm one_mag_ne_top
      rw [hmul, value_one, mul_one, Bool.xor_false]
      by_cases h0 : m = 0
      · rw [h0, value_zero, round_zero]
      · exact round_value _ h0

@[simp] theorem one_mul_eq (x : Datum F) : mul one x = x := by
  rw [Datum.mul_comm, mul_one_eq]

@[simp] theorem div_one_eq (x : Datum F) : div x one = x := by
  cases x with
  | nan => rfl
  | num s m =>
    by_cases hm : (m : ℕ) = F.top
    · unfold one
      rw [div_inf hm one_mag_ne_top, Bool.xor_false]
      congr 1
      exact Fin.ext hm.symm
    · have hdiv : div (num s m) one = round (s ^^ false) ((num s m).value / (one : Datum F).value) :=
        (div_finite hm one_mag_ne_top).trans (if_neg one_mag_ne_zero)
      rw [hdiv, value_one, div_one, Bool.xor_false]
      by_cases h0 : m = 0
      · rw [h0, value_zero, round_zero]
      · exact round_value _ h0

theorem one_div_eq_iff : div one x = x ↔ x = nan ∨ x = one ∨ x = neg one := by
  cases x with
  | nan => exact ⟨fun _ => Or.inl rfl, fun _ => rfl⟩
  | num s m =>
    have hother : (num s m = (nan : Datum F) ∨ num s m = one ∨ num s m = neg (one : Datum F)) ↔ (m : ℕ) = F.one := by
      unfold one neg
      constructor
      · rintro (h | h | h) <;> cases h <;> rfl
      · intro h
        have hm : m = ⟨F.one, Nat.lt_succ_of_lt Format.one_lt_top⟩ := Fin.ext h
        cases s
        · exact Or.inr (Or.inl (by rw [hm]))
        · exact Or.inr (Or.inr (by rw [hm]; rfl))
    rw [hother]
    have hone : F.one ≠ F.top := Nat.ne_of_lt Format.one_lt_top
    by_cases hm : (m : ℕ) = F.top
    · have hdiv : div one (num s m) = num (false ^^ s) 0 := div_by_inf one_mag_ne_top hm
      rw [hdiv]
      constructor
      · intro h
        injection h with _ hmag
        rw [← hmag] at hm
        exact absurd hm zero_ne_top
      · intro h
        exact absurd (h.symm.trans hm) hone
    · have hdiv : div one (num s m) = if m = 0 then if _ then nan else num (false ^^ s) (Fin.last F.top)
          else round (false ^^ s) ((one : Datum F).value / (num s m).value) := div_finite one_mag_ne_top hm
      rw [hdiv, value_one, Bool.false_xor]
      by_cases h0 : m = 0
      · rw [if_pos h0, if_neg one_mag_ne_zero]
        constructor
        · intro h
          injection h with _ hlast
          rw [← hlast] at hm
          exact absurd rfl hm
        · intro h
          rw [h0] at h
          exact absurd (Fin.ext h.symm) one_mag_ne_zero
      · rw [if_neg h0]
        have hpos : 0 < F.magnitude m := Format.magnitude_pos fun h => h0 (Fin.ext h)
        have habs : |1 / (num s m : Datum F).value| = 1 / F.magnitude m := by rw [abs_div, abs_one, abs_value]
        unfold round
        rw [if_neg (one_div_ne_zero (value_ne_zero s h0)), habs]
        have hsign : decide (1 / (num s m : Datum F).value < 0) = s := by
          rw [Bool.eq_iff_iff, decide_eq_true_iff, one_div_neg]
          exact value_neg_iff h0
        rw [hsign]
        constructor
        · intro h
          injection h with _ hmag
          have hval : (F.roundMag (1 / F.magnitude m) : ℕ) = m := congrArg Fin.val hmag
          rcases Nat.lt_trichotomy (m : ℕ) F.one with hlt | heq | hgt
          · have hle : F.magnitude F.one ≤ 1 / F.magnitude m := by
              rw [Format.magnitude_one, le_div_iff₀ hpos, one_mul, ← Format.magnitude_one (F := F)]
              exact (Format.magnitude_strictMono hlt).le
            have hge := Format.le_roundMag (Nat.le_of_lt Format.one_lt_top) hle
            omega
          · exact heq
          · have hle : 1 / F.magnitude m ≤ F.magnitude F.one := by
              rw [Format.magnitude_one, div_le_iff₀ hpos, one_mul, ← Format.magnitude_one (F := F)]
              exact (Format.magnitude_strictMono hgt).le
            have hge := Format.roundMag_le (one_div_nonneg.mpr hpos.le) hle
            omega
        · intro h
          have hmag : F.magnitude m = 1 := by rw [h, Format.magnitude_one]
          have hround := Format.roundMag_magnitude m
          rw [hmag] at hround
          rw [hmag, div_one, hround]

@[simp] theorem ofInt_zero : (ofInt 0 : Datum F) = num false 0 := by
  unfold ofInt
  rw [Int.cast_zero, round_zero]

@[simp] theorem ofInt_one : (ofInt 1 : Datum F) = one := by
  have h := round_value (F := F) (s := false) false one_mag_ne_zero
  rw [show (num false ⟨F.one, Nat.lt_succ_of_lt Format.one_lt_top⟩ : Datum F).value = 1 from value_one] at h
  unfold ofInt
  rw [Int.cast_one]
  exact h

@[simp] theorem convert_one : (convert (one : Datum F) : Datum G) = one := by
  show (if (⟨F.one, Nat.lt_succ_of_lt Format.one_lt_top⟩ : Fin (F.top + 1)).val = F.top then _
    else round false (one : Datum F).value) = _
  have h := ofInt_one (F := G)
  unfold ofInt at h
  rw [if_neg one_mag_ne_top, value_one, ← Int.cast_one, h]

/-- What compares equal is the same, or a zero. -/
theorem eq_of_equal (h : equal x y = true) : x = y ∨ ∃ z, y = num z 0 := by
  cases x with
  | nan => cases h
  | num s m =>
    cases y with
    | nan => cases h
    | num s' m' =>
      unfold equal at h
      simp only [Bool.or_eq_true, Bool.and_eq_true, decide_eq_true_eq] at h
      rcases h with ⟨-, rfl⟩ | ⟨rfl, rfl⟩
      · exact Or.inr ⟨s', rfl⟩
      · exact Or.inl rfl

theorem equal_zero_iff : equal x (ofInt 0) = true ↔ ∃ s, x = num s 0 := by
  rw [ofInt_zero]
  cases x with
  | nan =>
    constructor
    · nofun
    · rintro ⟨s, h⟩
      cases h
  | num s m =>
    unfold equal
    simp only [Bool.or_eq_true, Bool.and_eq_true, decide_eq_true_iff, and_true]
    constructor
    · rintro (h | ⟨-, h⟩)
      · exact ⟨s, by rw [h]⟩
      · exact ⟨s, by rw [h]⟩
    · rintro ⟨s', h⟩
      cases h
      exact Or.inl rfl

theorem equal_one_iff : equal x (ofInt 1) = true ↔ x = one := by
  rw [ofInt_one]
  cases x with
  | nan =>
    constructor
    · nofun
    · intro h
      cases h
  | num s m =>
    unfold equal one
    simp only [Bool.or_eq_true, Bool.and_eq_true, decide_eq_true_iff, one_mag_ne_zero, and_false, false_or]
    constructor
    · rintro ⟨rfl, rfl⟩
      rfl
    · intro h
      cases h
      exact ⟨rfl, rfl⟩

end Laws

end Datum

end Luwu.Floating
