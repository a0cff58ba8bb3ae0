import Luwu.Lib.Checked
import Luwu.Lib.FloatInt
import Luwu.Lib.Run
import Luwu.Sccp.Machine

/-!
# The iterations of a numeric `for`

The virtual machine adds the step to the index and compares with the limit.  The compiler counts the iterations in
machine integers, and computes the index of each copy of the body from its number.  The two sequences of indices agree
unless the loop counts up from minus zero: `-0 + 0 * step` is plus zero.
-/

namespace Luwu.Unroll

open Floating Datum Sccp Sccp.Floats Checked

/-! ### The loop of the virtual machine -/

/-- The loop condition of `LOP_FORNPREP` and `LOP_FORNLOOP` -/
def continues (limit step idx : Number) : Bool :=
  if less (ofInt 0) step then lessEqual idx limit else lessEqual limit idx

/-- The indices with which the body of the loop is entered -/
inductive Visits (limit step : Number) : Number → List Number → Prop
  | stop {idx : Number} (h : continues limit step idx = false) : Visits limit step idx []
  | next {idx : Number} {rest : List Number} (h : continues limit step idx = true)
      (hrest : Visits limit step (add idx step) rest) : Visits limit step idx (idx :: rest)

/-! ### What the compiler computes -/

def INT_MIN : ℤ := -2 ^ 31

/-- The conversion `int(x)`, for a number in the range of `int` -/
def truncate (x : Number) : ℤ := if 0 ≤ x.value then ⌊x.value⌋ else ⌈x.value⌉

/-- `x >= -32767 && x <= 32767 && double(int(x)) == x ? int(x) : INT_MIN` -/
def toInt (x : Number) : ℤ :=
  if lessEqual (ofInt (-32767)) x && lessEqual x (ofInt 32767) && equal (ofInt (truncate x)) x then truncate x
  else INT_MIN

/-- Division of `int`s -/
def divInt (a b : ℤ) : Except Fault ℤ := if b ≠ 0 ∧ Checked.Fits 32 (a.tdiv b) then .ok (a.tdiv b) else .error .overflow

def getTripCount (from' to' step : Number) : Except Fault ℤ := do
  let fromi := toInt from'
  let toi := toInt to'
  let stepi := toInt step
  if fromi = INT_MIN ∨ toi = INT_MIN ∨ stepi = INT_MIN ∨ stepi = 0 then return -1
  if stepi < 0 ∧ toi > fromi ∨ stepi > 0 ∧ toi < fromi then return 0
  Checked.add 32 (← divInt (← Checked.sub 32 toi fromi) stepi) 1

/-- `from + iv * step` -/
def copyValue (from' step : Number) (iv : ℕ) : Number := add from' (mul (ofInt iv) step)

/-- The index of each copy of the body -/
def copyValues (from' step : Number) (tripCount : ℕ) : List Number := (List.range tripCount).map (copyValue from' step)

/-! ### Numbers that are integers -/

section Integers

variable {x : Number} {a b : ℤ}

/-- The range of the integers that the compiler counts in -/
def Small (a : ℤ) : Prop := -32767 ≤ a ∧ a ≤ 32767

theorem fits_of_le (h : a.natAbs ≤ 2 ^ 40) : Datum.Fits Format.double a := by
  show a.natAbs < 2 ^ 53
  omega

theorem Small.fits (h : Small a) : Datum.Fits Format.double a := by
  unfold Small at h
  exact fits_of_le (by omega)

/-- Comparing integers as numbers -/
theorem lessEqual_ofInt (ha : Datum.Fits Format.double a) (hb : Datum.Fits Format.double b) :
    lessEqual (ofInt a) (ofInt b : Number) = decide (a ≤ b) := by
  obtain ⟨m, -, heq, -, hvalue⟩ := ofInt_eq Format.double_wide ha
  obtain ⟨m', -, heq', -, hvalue'⟩ := ofInt_eq Format.double_wide hb
  rw [heq, heq']
  show decide _ = _
  rw [hvalue, hvalue', decide_eq_decide, Int.cast_le]

theorem less_ofInt (ha : Datum.Fits Format.double a) (hb : Datum.Fits Format.double b) :
    less (ofInt a) (ofInt b : Number) = decide (a < b) := by
  obtain ⟨m, -, heq, -, hvalue⟩ := ofInt_eq Format.double_wide ha
  obtain ⟨m', -, heq', -, hvalue'⟩ := ofInt_eq Format.double_wide hb
  rw [heq, heq']
  show decide _ = _
  rw [hvalue, hvalue', decide_eq_decide, Int.cast_lt]

theorem value_ofInt (ha : Datum.Fits Format.double a) : (ofInt a : Number).value = a := by
  obtain ⟨m, -, heq, -, hvalue⟩ := ofInt_eq Format.double_wide ha
  rw [heq, hvalue]

theorem truncate_ofInt (ha : Datum.Fits Format.double a) : truncate (ofInt a) = a := by
  unfold truncate
  rw [value_ofInt ha, Int.floor_intCast, Int.ceil_intCast, ite_self]

theorem truncate_zero (s : Bool) : truncate (num s 0) = 0 := by
  unfold truncate
  rw [value_zero, if_pos le_rfl, Int.floor_zero]

/-- What compares like a number that is not `nan` has its value between. -/
theorem value_le_of_lessEqual {x y : Number} (h : lessEqual x y = true) : x.value ≤ y.value := by
  cases x with
  | nan => cases h
  | num s m =>
    cases y with
    | nan => cases h
    | num s' m' => exact of_decide_eq_true h

theorem small_truncate (hlo : lessEqual (ofInt (-32767)) x = true) (hhi : lessEqual x (ofInt 32767) = true) :
    Small (truncate x) := by
  have hlo' := value_le_of_lessEqual hlo
  have hhi' := value_le_of_lessEqual hhi
  rw [value_ofInt (fits_of_le (by decide))] at hlo' hhi'
  unfold truncate Small
  split
  · next h =>
    refine ⟨?_, Int.floor_le_iff.mpr (by push_cast at hhi' ⊢; linarith)⟩
    exact le_trans (by decide) (Int.floor_nonneg.mpr h)
  · next h =>
    refine ⟨Int.le_ceil_iff.mpr (by push_cast at hlo' ⊢; linarith), ?_⟩
    exact le_trans (Int.ceil_le.mpr (by push_cast; linarith)) (by decide : (0 : ℤ) ≤ 32767)

/-- A number that the compiler takes for an integer is that integer, or minus zero. -/
theorem toInt_spec (h : toInt x ≠ INT_MIN) :
    Small (toInt x) ∧ (x = ofInt (toInt x) ∨ toInt x = 0 ∧ x = num true 0) := by
  unfold toInt at h ⊢
  split at h
  · next hc =>
    rw [if_pos hc]
    simp only [Bool.and_eq_true] at hc
    obtain ⟨⟨hlo, hhi⟩, heq⟩ := hc
    refine ⟨small_truncate hlo hhi, ?_⟩
    rcases eq_of_equal heq with heq | ⟨z, rfl⟩
    · exact Or.inl heq.symm
    · rw [truncate_zero]
      cases z with
      | false => exact Or.inl ofInt_zero.symm
      | true => exact Or.inr ⟨rfl, rfl⟩
  · exact absurd rfl h

theorem Small.ne_int_min (h : Small a) : a ≠ INT_MIN := by
  rintro rfl
  exact absurd h.1 (by decide)

/-- The integers of the range are taken for what they are. -/
theorem toInt_ofInt (ha : Small a) : toInt (ofInt a) = a := by
  have hequal : equal (ofInt a) (ofInt a : Number) = true := by
    obtain ⟨m, -, heq, -, -⟩ := ofInt_eq Format.double_wide ha.fits
    rw [heq]
    simp [equal]
  unfold toInt
  rw [truncate_ofInt ha.fits, lessEqual_ofInt (fits_of_le (by decide)) ha.fits,
    lessEqual_ofInt ha.fits (fits_of_le (by decide)), decide_eq_true ha.1, decide_eq_true ha.2, hequal]
  rfl

/-- `x` is the integer `a`, where zero has both signs. -/
def IsInt (x : Number) (a : ℤ) : Prop := Datum.Fits Format.double a ∧ (x = ofInt a ∨ a = 0 ∧ x = num true 0)

theorem IsInt.num {x : Number} (h : IsInt x a) : ∃ s m, x = num s m ∧ m.val ≠ Format.double.top ∧ x.value = a := by
  obtain ⟨hfits, rfl | ⟨rfl, rfl⟩⟩ := h
  · obtain ⟨m, hm, heq, -, hvalue⟩ := ofInt_eq Format.double_wide hfits
    exact ⟨_, m, heq, hm, by rw [heq, hvalue]⟩
  · exact ⟨true, 0, rfl, zero_ne_top, by rw [value_zero, Int.cast_zero]⟩

theorem IsInt.lessEqual {x y : Number} (hx : IsInt x a) (hy : IsInt y b) : Floats.lessEqual x y = decide (a ≤ b) := by
  obtain ⟨s, m, rfl, -, hvalue⟩ := hx.num
  obtain ⟨s', m', rfl, -, hvalue'⟩ := hy.num
  show decide _ = _
  rw [hvalue, hvalue', decide_eq_decide, Int.cast_le]

/-- A sum with a second summand other than zero -/
theorem IsInt.add_ofInt {x : Number} (hx : IsInt x a) (hb : Datum.Fits Format.double b) (hb0 : b ≠ 0) :
    add x (ofInt b) = ofInt (a + b) := by
  obtain ⟨hfits, rfl | ⟨rfl, rfl⟩⟩ := hx
  · exact ofInt_add Format.double_wide hfits hb
  · obtain ⟨m, hm, heq, -, hvalue⟩ := ofInt_eq Format.double_wide hb
    rw [heq, add_finite zero_ne_top hm, hvalue, value_zero, zero_add, zero_add]
    exact round_int _ (Or.inl hb0)

/-- Minus zero is taken for zero. -/
theorem IsInt.toInt {x : Number} (h : IsInt x a) (ha : Small a) : Unroll.toInt x = a := by
  have hbound : ∀ c : ℤ, c.natAbs ≤ 2 ^ 40 → IsInt (ofInt c) c := fun c hc => ⟨fits_of_le hc, Or.inl rfl⟩
  obtain ⟨-, rfl | ⟨rfl, rfl⟩⟩ := h
  · exact toInt_ofInt ha
  · have hzero : IsInt (Datum.num true 0) 0 := ⟨fits_of_le (by decide), Or.inr ⟨rfl, rfl⟩⟩
    have hequal : equal (ofInt 0) (Datum.num true 0 : Number) = true := by
      rw [ofInt_zero]
      rfl
    unfold Unroll.toInt
    rw [truncate_zero, (hbound (-32767) (by decide)).lessEqual hzero, hzero.lessEqual (hbound 32767 (by decide)), hequal]
    rfl

end Integers

/-! ### The number of iterations -/

section Counting

variable {a b s : ℤ} {limit idx : Number} {n : ℕ}

/-- The loop condition on integers -/
def Within (b s a : ℤ) : Prop := if 0 < s then a ≤ b else b ≤ a

instance : Decidable (Within b s a) := by
  unfold Within
  infer_instance

theorem within_iff : Within b s a ↔ (0 < s → a ≤ b) ∧ (¬0 < s → b ≤ a) := by
  unfold Within
  split <;> simp [*]

theorem continues_iff {step : Number} (hs : IsInt step s) (hb : IsInt limit b) (ha : IsInt idx a) (hs0 : s ≠ 0) :
    continues limit step idx = decide (Within b s a) := by
  have hstep : less (ofInt 0) step = decide (0 < s) := by
    obtain ⟨hfits, rfl | ⟨h0, -⟩⟩ := hs
    · exact less_ofInt (fits_of_le (by decide)) hfits
    · exact absurd h0 hs0
  unfold continues Within
  rw [hstep, ha.lessEqual hb, hb.lessEqual ha]
  by_cases h : 0 < s <;> simp [h]

/-- The number of iterations that `getTripCount` computes -/
def count (a b s : ℤ) : ℤ := if s < 0 ∧ b > a ∨ s > 0 ∧ b < a then 0 else (b - a).tdiv s + 1

theorem count_eq_zero (hs0 : s ≠ 0) (h : ¬Within b s a) : count a b s = 0 := by
  unfold Within at h
  apply if_pos
  split at h
  · next hpos => exact Or.inr ⟨hpos, by omega⟩
  · next hneg => exact Or.inl ⟨by omega, by omega⟩

theorem tdiv_of_within (hs0 : s ≠ 0) (h : Within b s a) : (b - a).tdiv s = ((b - a).natAbs / s.natAbs : ℕ) := by
  unfold Within at h
  split at h
  · next hpos =>
    obtain ⟨d, hd⟩ := Int.eq_ofNat_of_zero_le (sub_nonneg.mpr h)
    obtain ⟨t, rfl⟩ := Int.eq_ofNat_of_zero_le hpos.le
    rw [hd]
    simp
  · next hneg =>
    obtain ⟨d, hd⟩ := Int.eq_ofNat_of_zero_le (sub_nonneg.mpr h)
    obtain ⟨t, ht⟩ := Int.eq_ofNat_of_zero_le (neg_nonneg.mpr (not_lt.mp hneg))
    rw [show b - a = -(d : ℤ) by omega, show s = -(t : ℤ) by omega, Int.neg_tdiv, Int.tdiv_neg, neg_neg]
    simp

theorem count_of_within (hs0 : s ≠ 0) (h : Within b s a) :
    count a b s = ((b - a).natAbs / s.natAbs : ℕ) + 1 := by
  rw [← tdiv_of_within hs0 h]
  apply if_neg
  unfold Within at h
  split at h <;> omega

theorem count_nonneg (hs0 : s ≠ 0) : 0 ≤ count a b s := by
  by_cases h : Within b s a
  · rw [count_of_within hs0 h]
    positivity
  · rw [count_eq_zero hs0 h]

/-- One iteration less remains after a step. -/
theorem count_step (hs0 : s ≠ 0) (h : Within b s a) : count (a + s) b s + 1 = count a b s := by
  have hspos : 0 < s.natAbs := Int.natAbs_pos.mpr hs0
  rw [count_of_within hs0 h]
  by_cases h' : Within b s (a + s)
  · rw [count_of_within hs0 h']
    have hle : s.natAbs ≤ (b - a).natAbs := by
      rw [within_iff] at h h'
      omega
    have hsub : (b - (a + s)).natAbs = (b - a).natAbs - s.natAbs := by
      rw [within_iff] at h h'
      omega
    have hdiv := Nat.sub_add_cancel hle
    rw [hsub, ← hdiv, Nat.add_div_right _ hspos, Nat.add_sub_cancel]
    push_cast
    ring
  · rw [count_eq_zero hs0 h', Nat.div_eq_of_lt]
    · rfl
    · rw [within_iff] at h h'
      omega

/-- The indices stay in the range that doubles represent. -/
def Near (s a : ℤ) : Prop := a.natAbs ≤ 65534 ∧ (0 < s → -32767 ≤ a) ∧ (s < 0 → a ≤ 32767)

theorem Near.step (h : Near s a) (hs0 : s ≠ 0) (hs : Small s) (hb : Small b) (hin : Within b s a) : Near s (a + s) := by
  rw [within_iff] at hin
  unfold Near Small at *
  obtain ⟨hbound, hup, hdown⟩ := h
  rcases lt_or_gt_of_ne hs0 with hneg | hpos
  · have := hdown hneg
    exact ⟨by omega, by omega, by omega⟩
  · have := hup hpos
    exact ⟨by omega, by omega, by omega⟩

/-- The loop of the virtual machine enters its body as often as was counted. -/
theorem visits_iterate (hs : Small s) (hs0 : s ≠ 0) (hb : Small b) (hlimit : IsInt limit b) :
    ∀ n idx a, IsInt idx a → Near s a → count a b s = (n : ℕ) →
      Visits limit (ofInt s) idx (List.iterate (add · (ofInt s)) idx n) := by
  have hstep : IsInt (ofInt s) s := ⟨hs.fits, Or.inl rfl⟩
  intro n
  induction n with
  | zero =>
    intro idx a ha hnear hcount
    apply Visits.stop
    rw [continues_iff hstep hlimit ha hs0, decide_eq_false_iff_not]
    intro hin
    rw [count_of_within hs0 hin] at hcount
    exact absurd (Int.ofNat.inj hcount) (Nat.succ_ne_zero _)
  | succ n ih =>
    intro idx a ha hnear hcount
    have hin : Within b s a := by
      by_contra hnot
      rw [count_eq_zero hs0 hnot] at hcount
      omega
    have hnear' := hnear.step hs0 hs hb hin
    have hnext : add idx (ofInt s) = ofInt (a + s) := ha.add_ofInt hs.fits hs0
    have hcount' := count_step hs0 hin
    apply Visits.next
    · rw [continues_iff hstep hlimit ha hs0, decide_eq_true hin]
    · apply ih _ (a + s) ⟨fits_of_le (le_trans hnear'.1 (by decide)), Or.inl hnext⟩ hnear'
      omega

/-- The numbers that `getTripCount` does not count with -/
def Unknown (from' to' step : Number) : Prop :=
  toInt from' = INT_MIN ∨ toInt to' = INT_MIN ∨ toInt step = INT_MIN ∨ toInt step = 0

instance (from' to' step : Number) : Decidable (Unknown from' to' step) := by
  unfold Unknown
  infer_instance

/-- The count is computed without overflow. -/
theorem getTripCount_eq (from' to' step : Number) :
    getTripCount from' to' step =
      .ok (if Unknown from' to' step then -1 else count (toInt from') (toInt to') (toInt step)) := by
  unfold getTripCount
  by_cases hunknown : Unknown from' to' step
  · rw [if_pos hunknown]
    exact if_pos hunknown
  · rw [if_neg hunknown]
    refine (if_neg hunknown).trans ?_
    unfold Unknown at hunknown
    simp only [not_or] at hunknown
    obtain ⟨hfrom, hto, -, hstep0⟩ := hunknown
    have hfrom := (toInt_spec hfrom).1
    have hto := (toInt_spec hto).1
    unfold count
    by_cases hempty : toInt step < 0 ∧ toInt to' > toInt from' ∨ toInt step > 0 ∧ toInt to' < toInt from'
    · rw [if_pos hempty, if_pos hempty]
      rfl
    · rw [if_neg hempty, if_neg hempty]
      unfold Small at hfrom hto
      have hdiv : ((toInt to' - toInt from').tdiv (toInt step)).natAbs ≤ (toInt to' - toInt from').natAbs := by
        rw [Int.natAbs_tdiv]
        exact Nat.div_le_self _ _
      have hsub : Checked.Fits 32 (toInt to' - toInt from') := ⟨by norm_num; omega, by norm_num; omega⟩
      have hquot : Checked.Fits 32 ((toInt to' - toInt from').tdiv (toInt step)) :=
        ⟨by norm_num; omega, by norm_num; omega⟩
      rw [Checked.sub_ok hsub]
      show (divInt (toInt to' - toInt from') (toInt step) >>= fun q => Checked.add 32 q 1) = _
      rw [show divInt _ _ = Except.ok _ from if_pos ⟨hstep0, hquot⟩]
      exact Checked.add_ok ⟨by norm_num; omega, by norm_num; omega⟩

/-- The count for integers in the range -/
theorem getTripCount_ints {from' to' step : Number} (hfrom : IsInt from' a) (hto : IsInt to' b) (hstep : IsInt step s)
    (ha : Small a) (hb : Small b) (hs : Small s) (hs0 : s ≠ 0) : getTripCount from' to' step = .ok (count a b s) := by
  have hknown : ¬Unknown from' to' step := by
    unfold Unknown
    rw [hfrom.toInt ha, hto.toInt hb, hstep.toInt hs]
    simp [ha.ne_int_min, hb.ne_int_min, hs.ne_int_min, hs0]
  rw [getTripCount_eq, if_neg hknown, hfrom.toInt ha, hto.toInt hb, hstep.toInt hs]

/-- What a count that is known says of the bounds -/
theorem getTripCount_known {from' to' step : Number} {n : ℤ} (h : getTripCount from' to' step = .ok n) (hn : n ≠ -1) :
    ∃ a b s, Small a ∧ Small b ∧ Small s ∧ s ≠ 0 ∧ IsInt from' a ∧ IsInt to' b ∧ step = ofInt s ∧ n = count a b s := by
  rw [getTripCount_eq] at h
  have h := Except.ok.inj h
  by_cases hunknown : Unknown from' to' step
  · rw [if_pos hunknown] at h
    exact absurd h.symm hn
  · rw [if_neg hunknown] at h
    unfold Unknown at hunknown
    simp only [not_or] at hunknown
    obtain ⟨hfrom, hto, hstep, hstep0⟩ := hunknown
    obtain ⟨ha, hfrom⟩ := toInt_spec hfrom
    obtain ⟨hb, hto⟩ := toInt_spec hto
    obtain ⟨hs, hstep⟩ := toInt_spec hstep
    have hstep' : step = ofInt (toInt step) := by
      rcases hstep with h | ⟨h0, -⟩
      · exact h
      · exact absurd h0 hstep0
    exact ⟨_, _, _, ha, hb, hs, hstep0, ⟨ha.fits, hfrom⟩, ⟨hb.fits, hto⟩, hstep', h.symm⟩

end Counting

/-! ### The indices of the copies -/

section Copies

variable {a s : ℤ} {from' : Number} {n : ℕ}

/-- The indices after the first one are sums of integers. -/
theorem iterate_get (ha : IsInt from' a) (hs0 : s ≠ 0) (hs : Small s)
    (hfits : ∀ k : ℕ, k < n → Datum.Fits Format.double (a + k * s)) :
    ∀ k, 0 < k → k < n → (add · (ofInt s))^[k] from' = ofInt (a + k * s) := by
  intro k hpos
  induction k, hpos using Nat.le_induction with
  | base =>
    intro _
    have := ha.add_ofInt hs.fits hs0
    simpa using this
  | succ k hpos ih =>
    intro hle
    rw [Function.iterate_succ_apply', ih (by omega), ofInt_add Format.double_wide (hfits k (by omega)) hs.fits]
    push_cast
    ring_nf

/-- The index of a copy, from the second on -/
theorem copyValue_pos (ha : IsInt from' a) (hs0 : s ≠ 0) (hs : Small s) {k : ℕ} (hk : 0 < k)
    (hfits : Datum.Fits Format.double (k * s)) (hk' : Datum.Fits Format.double k) :
    copyValue from' (ofInt s) k = ofInt (a + k * s) := by
  have hne : (k : ℤ) * s ≠ 0 := mul_ne_zero (by omega) hs0
  unfold copyValue
  rw [ofInt_mul Format.double_wide hk' hs.fits, round_int _ (Or.inl hne), ha.add_ofInt hfits hne]

/-- The index of the first copy -/
theorem copyValue_zero (hs : Small s) :
    copyValue from' (ofInt s) 0 = from' ↔ ¬(from' = num true 0 ∧ ¬s < 0) := by
  unfold copyValue
  have hzero : mul (ofInt 0) (ofInt s) = (num (s < 0) 0 : Number) := by
    rw [ofInt_mul Format.double_wide (fits_of_le (by decide)) hs.fits, zero_mul, Int.cast_zero, round_zero]
    simp
  rw [Nat.cast_zero, hzero, add_zero_eq_iff, decide_eq_false_iff_not]

/-- Products with the number of a copy stay between the bounds. -/
theorem natAbs_mul_le {b : ℤ} {k : ℕ} (hs0 : s ≠ 0) (hk : (k : ℤ) < count a b s) :
    (k * s).natAbs ≤ (b - a).natAbs ∧ k ≤ (b - a).natAbs := by
  have hin : Within b s a := by
    by_contra hnot
    rw [count_eq_zero hs0 hnot] at hk
    omega
  have hpos : 0 < s.natAbs := Int.natAbs_pos.mpr hs0
  rw [count_of_within hs0 hin] at hk
  have hk' : k ≤ (b - a).natAbs / s.natAbs := by omega
  have hmul : k * s.natAbs ≤ (b - a).natAbs := (Nat.le_div_iff_mul_le hpos).mp hk'
  rw [Int.natAbs_mul, Int.natAbs_natCast]
  exact ⟨hmul, le_trans hk' (Nat.div_le_self _ _)⟩

theorem copyValues_eq_iterate {b : ℤ} (ha : IsInt from' a) (hsmall : Small a) (hb : Small b) (hs : Small s) (hs0 : s ≠ 0)
    (hn : count a b s = (n : ℕ)) :
    copyValues from' (ofInt s) n = List.iterate (add · (ofInt s)) from' n ↔
      ¬(from' = num true 0 ∧ ¬s < 0 ∧ 0 < n) := by
  have hbounds : ∀ k : ℕ, k < n → Datum.Fits Format.double (a + k * s) ∧ Datum.Fits Format.double (k * s) ∧
      Datum.Fits Format.double k := by
    intro k hk
    obtain ⟨hmul, hle⟩ := natAbs_mul_le (a := a) (b := b) hs0 (k := k) (by omega)
    unfold Small at hsmall hb
    exact ⟨fits_of_le (by omega), fits_of_le (by omega), fits_of_le (by omega)⟩
  have hlater : ∀ k, 0 < k → k < n → copyValue from' (ofInt s) k = (add · (ofInt s))^[k] from' := by
    intro k hpos hk
    obtain ⟨-, hmul, hfits⟩ := hbounds k hk
    rw [copyValue_pos ha hs0 hs hpos hmul hfits, iterate_get ha hs0 hs (fun k hk => (hbounds k hk).1) k hpos hk]
  unfold copyValues
  rw [← List.range_map_iterate, List.map_inj_left]
  constructor
  · rintro heq ⟨hfrom, hneg, hpos⟩
    exact (copyValue_zero hs).mp (heq 0 (List.mem_range.mpr hpos)) ⟨hfrom, hneg⟩
  · intro hnot k hk
    have hk := List.mem_range.mp hk
    rcases Nat.eq_zero_or_pos k with rfl | hpos
    · exact (copyValue_zero hs).mpr fun h => hnot ⟨h.1, h.2, hk⟩
    · exact hlater k hpos hk

/-- A count that is known is the number of iterations of the virtual machine; the indices of the copies are the
    indices of the loop unless it counts up from minus zero. -/
theorem getTripCount_spec {to' step : Number} {t : ℤ} (h : getTripCount from' to' step = .ok t) (ht : t ≠ -1) :
    0 ≤ t ∧ ∃ vs, Visits to' step from' vs ∧ (vs.length : ℤ) = t ∧
      (copyValues from' step t.toNat = vs ↔ ¬(from' = num true 0 ∧ less (ofInt 0) step = true ∧ 0 < t)) := by
  obtain ⟨a, b, s, ha, hb, hs, hs0, hfrom, hto, rfl, rfl⟩ := getTripCount_known h ht
  have hnonneg := count_nonneg (a := a) (b := b) hs0
  obtain ⟨n, hn⟩ := Int.eq_ofNat_of_zero_le hnonneg
  have hnear : Near s a := by
    unfold Near
    unfold Small at ha
    exact ⟨by omega, fun _ => ha.1, fun _ => ha.2⟩
  refine ⟨hnonneg, _, visits_iterate hs hs0 hb hto n from' a hfrom hnear hn, ?_, ?_⟩
  · rw [List.length_iterate, hn]
  · have hless : less (ofInt 0) (ofInt s : Number) = true ↔ ¬s < 0 := by
      rw [less_ofInt (fits_of_le (by decide)) hs.fits, decide_eq_true_iff]
      omega
    rw [hn, Int.toNat_natCast, copyValues_eq_iterate hfrom ha hb hs hs0 hn, hless, Int.natCast_pos]

end Copies

end Luwu.Unroll
