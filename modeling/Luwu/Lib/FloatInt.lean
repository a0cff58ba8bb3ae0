import Luwu.Lib.FloatArith

/-!
# Integers as floating point numbers

Integers that fit the fraction are represented, and the operations on them are exact as long as the result fits. A
quotient of two of them lies on the same side of every integer after rounding as before.
-/

namespace Luwu.Floating

namespace Format

variable {F : Format} {k : ℕ}

/-- The format has the integers of its fraction. -/
def Wide (F : Format) : Prop := F.fraction + 2 ≤ F.bias

theorem double_wide : double.Wide := show 52 + 2 ≤ 1023 by decide

theorem Wide.magnitude (hF : F.Wide) (hk : k < 2 ^ (F.fraction + 1)) :
    ∃ n : Fin (F.top + 1), (n : ℕ) ≠ F.top ∧ F.magnitude n = k := by
  rcases Nat.eq_zero_or_pos k with rfl | hpos
  · exact ⟨0, Datum.zero_ne_top, by rw [Nat.cast_zero]; exact magnitude_zero⟩
  · have hne : k ≠ 0 := Nat.pos_iff_ne_zero.mp hpos
    have hshift : 2 ^ F.shift ≠ 0 := Nat.ne_of_gt (Nat.two_pow_pos _)
    have hlog : Nat.log2 k ≤ F.fraction := by
      have h := (Nat.log2_lt hne).mpr hk
      omega
    have hlog' : Nat.log2 (k * 2 ^ F.shift) = Nat.log2 k + F.shift := by
      rw [Nat.log2_eq_iff (Nat.mul_ne_zero hne hshift), Nat.pow_add, Nat.pow_succ, Nat.pow_add]
      have hlow := Nat.mul_le_mul_right (2 ^ F.shift) (Nat.log2_self_le hne)
      have hhigh := Nat.mul_lt_mul_of_pos_right (Nat.lt_log2_self (n := k)) (Nat.two_pow_pos F.shift)
      rw [Nat.pow_succ] at hhigh
      exact ⟨hlow, by rw [Nat.mul_right_comm]; exact hhigh⟩
    have hexact : scaled F.fraction (index F.fraction (k * 2 ^ F.shift)) = k * 2 ^ F.shift := by
      rcases Nat.le_or_ge (Nat.log2 (k * 2 ^ F.shift)) F.fraction with h | h
      · rw [index_of_small h]
        apply scaled_of_lt_double
        exact Nat.lt_of_lt_of_le Nat.lt_log2_self (Nat.pow_le_pow_right Nat.two_pos (Nat.succ_le_succ h))
      · obtain ⟨e, he⟩ : ∃ e, Nat.log2 (k * 2 ^ F.shift) = F.fraction + e :=
          ⟨Nat.log2 (k * 2 ^ F.shift) - F.fraction, by omega⟩
        rw [(scaled_index_normal he (Nat.mul_ne_zero hne hshift)).2.1]
        apply Nat.div_mul_cancel
        apply Dvd.dvd.mul_left
        exact pow_dvd_pow 2 (by omega)
    have htop : index F.fraction (k * 2 ^ F.shift) < F.top := by
      apply (scaled_strictMono F.fraction).lt_iff_lt.mp
      have hle : 2 ^ F.fraction ≤ F.top := Nat.le_mul_of_pos_left _ (Nat.succ_pos _)
      rw [hexact, scaled_of_le hle]
      unfold top
      rw [Nat.mul_mod_left, Nat.mul_div_cancel _ (Nat.two_pow_pos _), Nat.add_sub_cancel, Nat.add_zero, ← Nat.pow_add]
      calc k * 2 ^ F.shift < 2 ^ (F.fraction + 1) * 2 ^ F.shift :=
            Nat.mul_lt_mul_of_pos_right hk (Nat.two_pow_pos _)
        _ = 2 ^ (F.fraction + 1 + F.shift) := (Nat.pow_add _ _ _).symm
        _ ≤ 2 ^ (F.fraction + 2 * F.bias) := by
            apply Nat.pow_le_pow_right Nat.two_pos
            unfold shift
            unfold Wide at hF
            omega
    refine ⟨⟨_, Nat.lt_succ_of_lt htop⟩, Nat.ne_of_lt htop, ?_⟩
    show (scaled F.fraction (index F.fraction (k * 2 ^ F.shift)) : ℚ) / 2 ^ F.shift = k
    rw [hexact, Nat.cast_mul, Nat.cast_pow, Nat.cast_two]
    exact mul_div_cancel_right₀ _ (by positivity)

/-- A rounded quotient is between the integers that the exact one is between. -/
theorem Wide.quotient (hF : F.Wide) {A B : ℕ} (hB : 0 < B) (hsum : A + B ≤ 2 ^ F.fraction) :
    (F.roundMag (A / B : ℚ) : ℕ) ≠ F.top ∧ ((A / B : ℕ) : ℚ) ≤ F.magnitude (F.roundMag (A / B : ℚ)) ∧
      (A % B = 0 → F.magnitude (F.roundMag (A / B : ℚ)) = (A / B : ℕ)) ∧
      (A % B ≠ 0 → ((A / B : ℕ) : ℚ) < F.magnitude (F.roundMag (A / B : ℚ)) ∧
        F.magnitude (F.roundMag (A / B : ℚ)) < (A / B : ℕ) + 1) := by
  have hBq : (0 : ℚ) < B := Nat.cast_pos.mpr hB
  have hq : (0 : ℚ) ≤ A / B := by positivity
  have hdivle : A / B ≤ A := Nat.div_le_self A B
  have hpow : 2 ^ F.fraction < 2 ^ (F.fraction + 1) := Nat.pow_lt_pow_right Nat.one_lt_two (Nat.lt_succ_self _)
  obtain ⟨n, hn, hnmag⟩ := hF.magnitude (show A / B < 2 ^ (F.fraction + 1) by omega)
  obtain ⟨n', hn', hnmag'⟩ := hF.magnitude (show A / B + 1 < 2 ^ (F.fraction + 1) by omega)
  have hsplit : (B : ℚ) * (A / B : ℕ) + (A % B : ℕ) = A := by
    rw [← Nat.cast_mul, ← Nat.cast_add, Nat.div_add_mod]
  have hlow : ((A / B : ℕ) : ℚ) ≤ A / B := by
    rw [le_div_iff₀ hBq, ← hsplit, mul_comm]
    exact le_add_of_nonneg_right (Nat.cast_nonneg _)
  have hhigh : (A / B : ℚ) < (A / B : ℕ) + 1 := by
    rw [div_lt_iff₀ hBq, ← hsplit]
    have hmod : ((A % B : ℕ) : ℚ) < B := Nat.cast_lt.mpr (Nat.mod_lt A hB)
    linarith
  have hge : (n : ℕ) ≤ F.roundMag (A / B : ℚ) :=
    le_roundMag (Nat.lt_succ_iff.mp n.isLt) (hnmag ▸ hlow)
  have hle : (F.roundMag (A / B : ℚ) : ℕ) ≤ n' := by
    apply roundMag_le hq
    rw [hnmag', Nat.cast_add, Nat.cast_one]
    exact hhigh.le
  refine ⟨?_, ?_, ?_, ?_⟩
  · have hlt : (n' : ℕ) < F.top := Nat.lt_of_le_of_ne (Nat.lt_succ_iff.mp n'.isLt) hn'
    omega
  · rw [← hnmag]
    exact magnitude_strictMono.monotone hge
  · intro hmod
    rw [hmod, Nat.cast_zero, add_zero] at hsplit
    have hexact : (A / B : ℚ) = F.magnitude n := by
      rw [hnmag, ← hsplit]
      exact mul_div_cancel_left₀ _ hBq.ne'
    rw [hexact, roundMag_magnitude, hnmag]
  · intro hmod
    have hnormal : ∀ j : Fin (F.top + 1), (1 : ℚ) ≤ F.magnitude j → F.one ≤ j := by
      intro j hj
      rw [← magnitude_one (F := F)] at hj
      exact magnitude_strictMono.le_iff_le.mp hj
    have hmodlt : A % B + 1 ≤ B := Nat.mod_lt A hB
    have hshiftpos : (0 : ℚ) < 2 ^ F.shift := by positivity
    have htpos : (0 : ℚ) < 2 ^ F.fraction := by positivity
    have hmul : A / B * B ≤ A := Nat.div_mul_le_self A B
    constructor
    · rcases Nat.eq_zero_or_pos (A / B) with hzero | hpos
      · rw [hzero, Nat.cast_zero]
        have hfirst : F.magnitude 1 ≤ (A / B : ℚ) := by
          have hA : 1 ≤ A := Nat.pos_of_ne_zero fun h => hmod (by rw [h, Nat.zero_mod])
          have hshift : 2 ^ F.fraction ≤ 2 ^ F.shift := by
            apply Nat.pow_le_pow_right Nat.two_pos
            unfold shift
            omega
          have hnat : 1 * B ≤ A * 2 ^ F.shift := Nat.mul_le_mul hA (by omega)
          unfold Format.magnitude
          rw [scaled_of_lt_double (Nat.one_lt_two_pow (Nat.succ_ne_zero _)), Nat.cast_one,
            div_le_div_iff₀ hshiftpos hBq]
          exact_mod_cast hnat
        have hone := le_roundMag (F := F) (n := 1) (Nat.mul_pos (Nat.succ_pos _) (Nat.two_pow_pos _)) hfirst
        exact magnitude_pos (by omega)
      · rw [← hnmag]
        apply magnitude_strictMono
        have hle' : 2 ^ F.fraction ≤ (n : ℕ) := by
          have h := hnormal n (by rw [hnmag]; exact Nat.one_le_cast.mpr hpos)
          exact (Nat.le_mul_of_pos_left _ F.bias_pos).trans h
        have hindex : (n : ℕ) < roundIndex F.fraction (A / B * 2 ^ F.shift : ℚ) := by
          apply lt_roundIndex hle'
          have hkey : (A / B * 2 ^ F.fraction + A / B) * B ≤ A * 2 ^ F.fraction := by
            have hR : 2 ^ F.fraction ≤ A % B * 2 ^ F.fraction :=
              Nat.le_mul_of_pos_left _ (Nat.pos_of_ne_zero hmod)
            calc (A / B * 2 ^ F.fraction + A / B) * B = B * (A / B) * 2 ^ F.fraction + A / B * B := by ring
              _ ≤ B * (A / B) * 2 ^ F.fraction + A % B * 2 ^ F.fraction := by omega
              _ = A * 2 ^ F.fraction := by rw [← Nat.add_mul, Nat.div_add_mod]
          have hkey' : ((A / B : ℕ) * 2 ^ F.fraction + (A / B : ℕ) : ℚ) ≤ A / B * 2 ^ F.fraction := by
            rw [div_mul_eq_mul_div, le_div_iff₀ hBq]
            exact_mod_cast hkey
          rw [← magnitude_mul, hnmag]
          linarith [mul_le_mul_of_nonneg_right hkey' hshiftpos.le]
        exact Nat.lt_min.mpr ⟨hindex, Nat.lt_of_le_of_ne (Nat.lt_succ_iff.mp n.isLt) hn⟩
    · have hcast : ((A / B : ℕ) : ℚ) + 1 = F.magnitude n' := by rw [hnmag', Nat.cast_add, Nat.cast_one]
      rw [hcast]
      apply magnitude_strictMono
      have hlt' : 2 ^ F.fraction < (n' : ℕ) := by
        have h := hnormal n' (by rw [← hcast]; exact le_add_of_nonneg_left (Nat.cast_nonneg _))
        apply Nat.lt_of_lt_of_le _ h
        unfold one
        unfold Wide at hF
        exact (Nat.lt_mul_iff_one_lt_left (Nat.two_pow_pos _)).mpr (by omega)
      have hindex : roundIndex F.fraction (A / B * 2 ^ F.shift : ℚ) < n' := by
        apply roundIndex_lt (by positivity) hlt'
        have hkey : A * 2 ^ F.fraction + (A / B + 1) * B ≤ (A / B + 1) * B * 2 ^ F.fraction := by
          have hR : (A % B + 1) * 2 ^ F.fraction ≤ B * 2 ^ F.fraction := Nat.mul_le_mul_right _ hmodlt
          calc A * 2 ^ F.fraction + (A / B + 1) * B
              = B * (A / B) * 2 ^ F.fraction + A % B * 2 ^ F.fraction + (A / B * B + B) := by
                rw [← Nat.add_mul, Nat.div_add_mod, Nat.add_mul, Nat.one_mul]
            _ ≤ B * (A / B) * 2 ^ F.fraction + B * 2 ^ F.fraction := by
                rw [Nat.add_mul, Nat.one_mul] at hR
                omega
            _ = (A / B + 1) * B * 2 ^ F.fraction := by ring
        have hkey' : (A / B * 2 ^ F.fraction + ((A / B : ℕ) + 1) : ℚ) ≤ ((A / B : ℕ) + 1) * 2 ^ F.fraction := by
          apply le_of_mul_le_mul_right _ hBq
          rw [add_mul, div_mul_eq_mul_div, div_mul_cancel₀ _ hBq.ne']
          have h : ((A * 2 ^ F.fraction + (A / B + 1) * B : ℕ) : ℚ) ≤ ((A / B + 1) * B * 2 ^ F.fraction : ℕ) :=
            Nat.cast_le.mpr hkey
          push_cast at h
          linarith
        rw [← magnitude_mul, ← hcast]
        linarith [mul_le_mul_of_nonneg_right hkey' hshiftpos.le]
      exact Nat.lt_of_le_of_lt (Nat.min_le_left _ _) hindex

end Format

namespace Datum

variable {F : Format} {a b : ℤ}

/-- The integer fits the fraction. -/
def Fits (F : Format) (a : ℤ) : Prop := a.natAbs < 2 ^ (F.fraction + 1)

theorem ofInt_eq (hF : F.Wide) (ha : Fits F a) :
    ∃ m : Fin (F.top + 1), (m : ℕ) ≠ F.top ∧ ofInt a = (num (a < 0) m : Datum F) ∧ (m = 0 ↔ a = 0) ∧
      (num (a < 0) m : Datum F).value = a := by
  obtain ⟨m, hm, hmag⟩ := hF.magnitude ha
  have habs : |(a : ℚ)| = F.magnitude m := by
    rw [hmag, ← Int.cast_abs, ← Int.natCast_natAbs, Int.cast_natCast]
  refine ⟨m, hm, ?_, ?_, ?_⟩
  · unfold ofInt round
    by_cases h0 : a = 0
    · subst h0
      have hm0 : m = 0 := by
        by_contra hne
        have hpos := Format.magnitude_pos (F := F) fun h => hne (Fin.ext h)
        rw [← habs] at hpos
        simp at hpos
      rw [hm0]
      simp
    · rw [if_neg (Int.cast_ne_zero.mpr h0), habs, Format.roundMag_magnitude]
      congr 1
      simp [Int.cast_lt_zero]
  · constructor
    · intro h
      rw [h] at habs
      rw [show F.magnitude ((0 : Fin (F.top + 1)) : ℕ) = 0 from Format.magnitude_zero] at habs
      exact Int.cast_eq_zero.mp (abs_eq_zero.mp habs)
    · intro h
      by_contra hne
      have hpos := Format.magnitude_pos (F := F) fun h => hne (Fin.ext h)
      rw [← habs, h] at hpos
      simp at hpos
  · show (if decide (a < 0) = true then -F.magnitude m else F.magnitude m) = a
    rw [← habs]
    by_cases hneg : a < 0
    · rw [decide_eq_true hneg, if_pos rfl, abs_of_neg (Int.cast_lt_zero.mpr hneg), neg_neg]
    · rw [decide_eq_false hneg, if_neg Bool.false_ne_true, abs_of_nonneg (Int.cast_nonneg (not_lt.mp hneg))]

theorem round_int (z : Bool) (h : a ≠ 0 ∨ z = false) : (round z (a : ℚ) : Datum F) = ofInt a := by
  unfold ofInt round
  by_cases h0 : a = 0
  · rcases h with h | rfl
    · exact absurd h0 h
    · rfl
  · rw [if_neg (Int.cast_ne_zero.mpr h0), if_neg (Int.cast_ne_zero.mpr h0)]

theorem ofInt_add (hF : F.Wide) (ha : Fits F a) (hb : Fits F b) :
    add (ofInt a) (ofInt b) = (ofInt (a + b) : Datum F) := by
  obtain ⟨m, hm, heq, -, hvalue⟩ := ofInt_eq hF ha
  obtain ⟨m', hm', heq', -, hvalue'⟩ := ofInt_eq hF hb
  rw [heq, heq', add_finite hm hm', hvalue, hvalue', ← Int.cast_add]
  apply round_int
  by_cases hsum : a + b = 0
  · right
    rw [Bool.and_eq_false_iff, decide_eq_false_iff_not, decide_eq_false_iff_not]
    omega
  · exact Or.inl hsum

theorem ofInt_sub (hF : F.Wide) (ha : Fits F a) (hb : Fits F b) :
    sub (ofInt a) (ofInt b) = (ofInt (a - b) : Datum F) := by
  obtain ⟨m, hm, heq, -, hvalue⟩ := ofInt_eq hF ha
  obtain ⟨m', hm', heq', -, hvalue'⟩ := ofInt_eq hF hb
  have hneg : (num (!decide (b < 0)) m' : Datum F).value = -b := by
    rw [← hvalue']
    unfold value
    by_cases h : b < 0 <;> simp [h]
  rw [heq, heq']
  show add (num _ m) (num (!decide (b < 0)) m') = _
  rw [add_finite hm hm', hvalue, hneg, ← Int.cast_neg, ← Int.cast_add, ← sub_eq_add_neg]
  apply round_int
  by_cases hsum : a - b = 0
  · right
    rw [Bool.and_eq_false_iff, decide_eq_false_iff_not, Bool.not_eq_false', decide_eq_true_iff]
    omega
  · exact Or.inl hsum

theorem ofInt_mul (hF : F.Wide) (ha : Fits F a) (hb : Fits F b) :
    mul (ofInt a) (ofInt b) = (round (a < 0 ^^ b < 0) (a * b : ℤ) : Datum F) := by
  obtain ⟨m, hm, heq, -, hvalue⟩ := ofInt_eq hF ha
  obtain ⟨m', hm', heq', -, hvalue'⟩ := ofInt_eq hF hb
  rw [heq, heq', mul_finite hm hm', hvalue, hvalue', ← Int.cast_mul]

theorem floor_between {N : ℕ} {x y : ℚ} (hx : (N : ℚ) < x ∧ x < N + 1) (hy : (N : ℚ) < y ∧ y < N + 1) :
    ⌊x⌋ = ⌊y⌋ ∧ ⌊-x⌋ = ⌊-y⌋ := by
  have hup : ∀ z : ℚ, (N : ℚ) < z ∧ z < N + 1 → ⌊z⌋ = N ∧ ⌊-z⌋ = -N - 1 := by
    intro z hz
    constructor
    · rw [Int.floor_eq_iff]
      exact ⟨by exact_mod_cast hz.1.le, by exact_mod_cast hz.2⟩
    · rw [Int.floor_eq_iff]
      push_cast
      constructor <;> linarith
  exact ⟨(hup x hx).1.trans (hup y hy).1.symm, (hup x hx).2.trans (hup y hy).2.symm⟩

/-- The floor of a quotient -/
theorem floor_div (hF : F.Wide) (ha : Fits F a) (hb : Fits F b) (ha0 : a ≠ 0) (hb0 : b ≠ 0)
    (hsum : a.natAbs + b.natAbs ≤ 2 ^ F.fraction) : floor (div (ofInt a) (ofInt b)) = (ofInt ⌊(a / b : ℚ)⌋ : Datum F) := by
  obtain ⟨m, hm, heq, hzero, hvalue⟩ := ofInt_eq hF ha
  obtain ⟨m', hm', heq', hzero', hvalue'⟩ := ofInt_eq hF hb
  have hq0 : (a / b : ℚ) ≠ 0 := div_ne_zero (Int.cast_ne_zero.mpr ha0) (Int.cast_ne_zero.mpr hb0)
  have habs : |(a / b : ℚ)| = (a.natAbs : ℚ) / b.natAbs := by
    rw [abs_div, Nat.cast_natAbs, Nat.cast_natAbs, Int.cast_abs, Int.cast_abs]
  obtain ⟨htop, hlow, hexact, hbetween⟩ := hF.quotient (Int.natAbs_pos.mpr hb0) hsum
  rw [← habs] at htop hlow hexact hbetween
  have hround : div (ofInt a) (ofInt b) = (num ((a / b : ℚ) < 0) (F.roundMag |(a / b : ℚ)|) : Datum F) := by
    rw [heq, heq', div_finite hm hm', if_neg fun h => hb0 (hzero'.mp h), hvalue, hvalue']
    exact if_neg hq0
  rw [hround]
  show (if (F.roundMag |(a / b : ℚ)| : ℕ) = F.top then _ else round _ _) = _
  rw [if_neg htop]
  have hsides : ⌊F.magnitude (F.roundMag |(a / b : ℚ)|)⌋ = ⌊|(a / b : ℚ)|⌋ ∧
      ⌊-F.magnitude (F.roundMag |(a / b : ℚ)|)⌋ = ⌊-|(a / b : ℚ)|⌋ := by
    have hbq : (0 : ℚ) < b.natAbs := Nat.cast_pos.mpr (Int.natAbs_pos.mpr hb0)
    have hsplit : (b.natAbs : ℚ) * (a.natAbs / b.natAbs : ℕ) + (a.natAbs % b.natAbs : ℕ) = a.natAbs := by
      rw [← Nat.cast_mul, ← Nat.cast_add, Nat.div_add_mod]
    by_cases hmod : a.natAbs % b.natAbs = 0
    · have hsame : F.magnitude (F.roundMag |(a / b : ℚ)|) = |(a / b : ℚ)| := by
        rw [hexact hmod, habs, ← hsplit, hmod, Nat.cast_zero, add_zero, mul_div_cancel_left₀ _ hbq.ne']
      rw [hsame]
      exact ⟨rfl, rfl⟩
    · apply floor_between (hbetween hmod)
      have hR : (0 : ℚ) < (a.natAbs % b.natAbs : ℕ) := Nat.cast_pos.mpr (Nat.pos_of_ne_zero hmod)
      have hR' : ((a.natAbs % b.natAbs : ℕ) : ℚ) < b.natAbs := Nat.cast_lt.mpr (Nat.mod_lt _ (Int.natAbs_pos.mpr hb0))
      rw [habs, lt_div_iff₀ hbq, div_lt_iff₀ hbq, ← hsplit]
      constructor <;> linarith
  have hfloor : ⌊(num ((a / b : ℚ) < 0) (F.roundMag |(a / b : ℚ)|) : Datum F).value⌋ = ⌊(a / b : ℚ)⌋ := by
    by_cases hneg : (a / b : ℚ) < 0
    · rw [decide_eq_true hneg]
      show ⌊-F.magnitude (F.roundMag |(a / b : ℚ)|)⌋ = _
      rw [hsides.2, abs_of_neg hneg, neg_neg]
    · rw [decide_eq_false hneg]
      show ⌊F.magnitude (F.roundMag |(a / b : ℚ)|)⌋ = _
      rw [hsides.1, abs_of_nonneg (not_lt.mp hneg)]
  rw [hfloor]
  apply round_int
  by_cases hneg : (a / b : ℚ) < 0
  · left
    exact ne_of_lt (Int.floor_lt.mpr (by rw [Int.cast_zero]; exact hneg))
  · right
    exact decide_eq_false hneg

theorem fits_of_add_le (h : a.natAbs + b.natAbs ≤ 2 ^ F.fraction) : Fits F a ∧ Fits F b := by
  have hpow : 2 ^ F.fraction < 2 ^ (F.fraction + 1) := Nat.pow_lt_pow_right Nat.one_lt_two (Nat.lt_succ_self _)
  unfold Fits
  omega

theorem ofInt_ne_zero (hF : F.Wide) (ha : Fits F a) (ha0 : a ≠ 0) (s : Bool) : (ofInt a : Datum F) ≠ num s 0 := by
  obtain ⟨m, -, heq, hzero, -⟩ := ofInt_eq hF ha
  rw [heq]
  intro h
  injection h with _ hm
  exact ha0 (hzero.mp hm)

theorem floor_zero (s : Bool) : floor (num s 0 : Datum F) = num s 0 := by
  show (if ((0 : Fin (F.top + 1)) : ℕ) = F.top then _ else round s ⌊(num s 0 : Datum F).value⌋) = _
  rw [if_neg zero_ne_top, value_zero, Int.floor_zero, Int.cast_zero, round_zero]

theorem zero_div (hF : F.Wide) (hb : Fits F b) (hb0 : b ≠ 0) :
    div (ofInt 0) (ofInt b) = (num (b < 0) 0 : Datum F) := by
  obtain ⟨m, hm, heq, hzero, -⟩ := ofInt_eq hF hb
  rw [heq, ofInt_zero, div_finite zero_ne_top hm, if_neg fun h => hb0 (hzero.mp h), value_zero,
    div_eq_mul_inv, zero_mul, round_zero, Bool.false_xor]

theorem floor_remainder (hb0 : b ≠ 0) : (a - ⌊(a / b : ℚ)⌋ * b).natAbs < b.natAbs := by
  have hbq : (b : ℚ) ≠ 0 := Int.cast_ne_zero.mpr hb0
  have hlow := Int.floor_le (a / b : ℚ)
  have hhigh := Int.lt_floor_add_one (a / b : ℚ)
  have hfract : |((a - ⌊(a / b : ℚ)⌋ * b : ℤ) : ℚ)| < |(b : ℚ)| := by
    have hprod : ((a - ⌊(a / b : ℚ)⌋ * b : ℤ) : ℚ) = (a / b - ⌊(a / b : ℚ)⌋) * b := by
      push_cast
      rw [sub_mul, div_mul_cancel₀ _ hbq]
    rw [hprod, abs_mul, abs_of_nonneg (by linarith)]
    exact mul_lt_of_lt_one_left (abs_pos.mpr hbq) (by linarith)
  rw [← Int.cast_abs, ← Int.cast_abs, Int.cast_lt, Int.abs_eq_natAbs, Int.abs_eq_natAbs] at hfract
  omega

/-- The remainder of a division that rounds down -/
theorem sub_floor_div_mul (hF : F.Wide) (hb0 : b ≠ 0) (hsum : a.natAbs + b.natAbs ≤ 2 ^ F.fraction) :
    sub (ofInt a) (mul (floor (div (ofInt a) (ofInt b))) (ofInt b)) =
      (ofInt (a - ⌊(a / b : ℚ)⌋ * b) : Datum F) := by
  obtain ⟨ha, hb⟩ := fits_of_add_le hsum
  by_cases ha0 : a = 0
  · subst ha0
    obtain ⟨m, hm, heq, -, -⟩ := ofInt_eq hF hb
    rw [zero_div hF hb hb0, floor_zero, Datum.mul_comm, heq]
    have hmul : mul (num (b < 0) m) (num (b < 0) 0) = (num false 0 : Datum F) :=
      mul_zero_eq_iff.mpr ⟨m, rfl, hm⟩
    rw [hmul, ofInt_zero, Int.cast_zero, div_eq_mul_inv, zero_mul, Int.floor_zero, zero_mul, sub_zero, ofInt_zero]
    rw [sub_zero_eq_iff]
    exact fun h => nomatch h.2
  · rw [floor_div hF ha hb ha0 hb0 hsum]
    have hrem := floor_remainder (a := a) hb0
    have hnb : (⌊(a / b : ℚ)⌋ * b).natAbs ≤ a.natAbs + b.natAbs := by omega
    have hpow : 2 ^ F.fraction < 2 ^ (F.fraction + 1) := Nat.pow_lt_pow_right Nat.one_lt_two (Nat.lt_succ_self _)
    have hn : ⌊(a / b : ℚ)⌋.natAbs ≤ (⌊(a / b : ℚ)⌋ * b).natAbs := by
      rw [Int.natAbs_mul]
      exact Nat.le_mul_of_pos_right _ (Int.natAbs_pos.mpr hb0)
    have hfits : Fits F ⌊(a / b : ℚ)⌋ := by
      unfold Fits
      omega
    have hfits' : Fits F (⌊(a / b : ℚ)⌋ * b) := by
      unfold Fits
      omega
    rw [ofInt_mul hF hfits hb]
    by_cases hzero : ⌊(a / b : ℚ)⌋ = 0
    · rw [hzero, zero_mul, Int.cast_zero, round_zero, sub_zero, sub_zero_eq_iff]
      exact fun h => ofInt_ne_zero hF ha ha0 true h.1
    · rw [round_int _ (Or.inl (mul_ne_zero hzero hb0)), ofInt_sub hF ha hfits']

/-- The value without its fraction -/
def truncate (x : Datum F) : ℤ := if x.value < 0 then ⌈x.value⌉ else ⌊x.value⌋

/-- A finite number with an integer for its value; zero may have a sign. -/
structure IsInt (x : Datum F) (a : ℤ) : Prop where
  finite : x.isFinite = true
  value : x.value = a

theorem IsInt.truncate {x : Datum F} (h : IsInt x a) : x.truncate = a := by
  unfold Datum.truncate
  rw [h.value, Int.ceil_intCast, Int.floor_intCast, ite_self]

/-- Only zero has two signs. -/
theorem IsInt.unique {x y : Datum F} (hx : IsInt x a) (hy : IsInt y a) (h0 : a ≠ 0) : x = y := by
  match x, y, hx, hy with
  | num s m, num s' m', hx, hy =>
    have hvalues : (num s m : Datum F).value = (num s' m' : Datum F).value := hx.value.trans hy.value.symm
    have hmags := congrArg abs hvalues
    rw [abs_value, abs_value] at hmags
    have hm : m = m' := Fin.ext (Format.magnitude_strictMono.injective hmags)
    subst hm
    have hm0 : m ≠ 0 := by
      rintro rfl
      have hzero := hx.value
      rw [value_zero] at hzero
      exact h0 (Int.cast_eq_zero.mp hzero.symm)
    congr 1
    rw [Bool.eq_iff_iff, ← value_neg_iff hm0, ← value_neg_iff hm0, hvalues]

theorem isInt_ofInt (hF : F.Wide) (ha : Fits F a) : IsInt (ofInt a : Datum F) a := by
  obtain ⟨m, hm, heq, -, hvalue⟩ := ofInt_eq hF ha
  rw [heq]
  exact ⟨decide_eq_true (Nat.lt_of_le_of_ne (Nat.lt_succ_iff.mp m.isLt) hm), hvalue⟩

theorem isInt_round (hF : F.Wide) (ha : Fits F a) (z : Bool) : IsInt (round z (a : ℚ) : Datum F) a := by
  by_cases h0 : a = 0
  · rw [h0, Int.cast_zero, round_zero]
    exact ⟨decide_eq_true (Nat.pos_of_ne_zero fun h => zero_ne_top h.symm), by rw [value_zero, Int.cast_zero]⟩
  · rw [round_int z (Or.inl h0)]
    exact isInt_ofInt hF ha

theorem IsInt.add {x y : Datum F} (hF : F.Wide) (hx : IsInt x a) (hy : IsInt y b) (hab : Fits F (a + b)) :
    IsInt (add x y) (a + b) := by
  match x, y, hx, hy with
  | num s m, num s' m', hx, hy =>
    have hm : (m : ℕ) ≠ F.top := Nat.ne_of_lt (of_decide_eq_true hx.finite)
    have hm' : (m' : ℕ) ≠ F.top := Nat.ne_of_lt (of_decide_eq_true hy.finite)
    rw [add_finite hm hm', hx.value, hy.value, ← Int.cast_add]
    exact isInt_round hF hab _

theorem IsInt.neg {x : Datum F} (hx : IsInt x a) : IsInt (neg x) (-a) := by
  match x, hx with
  | num s m, hx =>
    refine ⟨hx.finite, ?_⟩
    have hvalue := hx.value
    unfold Datum.value at hvalue
    show (if (!s) = true then -F.magnitude m else F.magnitude m) = ((-a : ℤ) : ℚ)
    rw [Int.cast_neg, ← hvalue]
    cases s with
    | true => simp
    | false => simp

theorem IsInt.sub {x y : Datum F} (hF : F.Wide) (hx : IsInt x a) (hy : IsInt y b) (hab : Fits F (a - b)) :
    IsInt (sub x y) (a - b) := by
  rw [sub_eq_add_neg] at hab ⊢
  exact hx.add hF hy.neg hab

end Datum

end Luwu.Floating
