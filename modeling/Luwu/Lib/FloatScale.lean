import Luwu.Lib.FloatInt
import Mathlib.Data.Rat.Cast.Lemmas
import Mathlib.Tactic.FieldSimp

/-!
# Powers of two as floating point numbers

A format has the powers of two from its smallest magnitude up to its bias. The quotient of one by such a number is the
power with the opposite exponent where the format has it, and infinity above. A multiplication by the reciprocal and the
division round the same rational.
-/

namespace Luwu.Floating

section Pow

variable {t k p : ℕ}

theorem scaled_index_of_dvd (h : 2 ^ (Nat.log2 k - t) ∣ k) : scaled t (index t k) = k := by
  rcases Nat.le_or_ge (Nat.log2 k) t with hlog | hlog
  · rw [index_of_small hlog]
    exact scaled_of_lt_double
      (Nat.lt_of_lt_of_le Nat.lt_log2_self (Nat.pow_le_pow_right Nat.two_pos (Nat.succ_le_succ hlog)))
  · obtain ⟨e, he⟩ : ∃ e, Nat.log2 k = t + e := ⟨Nat.log2 k - t, by omega⟩
    rcases Nat.eq_zero_or_pos k with rfl | hk
    · rw [index_of_small (by simp)]
      exact scaled_of_lt_double (Nat.two_pow_pos _)
    · rw [(scaled_index_normal he (Nat.pos_iff_ne_zero.mp hk)).2.1]
      apply Nat.div_mul_cancel
      rwa [he, Nat.add_sub_cancel_left] at h

theorem scaled_index_pow (t p : ℕ) : scaled t (index t (2 ^ p)) = 2 ^ p := by
  apply scaled_index_of_dvd
  rw [Nat.log2_two_pow]
  exact pow_dvd_pow 2 (Nat.sub_le p t)

theorem scaled_pow (t e : ℕ) : scaled t ((e + 1) * 2 ^ t) = 2 ^ (t + e) := by
  rw [scaled_of_le (Nat.le_mul_of_pos_left _ (Nat.succ_pos e)), Nat.mul_mod_left, Nat.add_zero,
    Nat.mul_div_cancel _ (Nat.two_pow_pos t), Nat.succ_sub_one, Nat.pow_add]

end Pow

namespace Format

variable {F : Format}

/-- The magnitude of infinity continues the others. -/
theorem scaled_top : scaled F.fraction F.top = 2 ^ (F.shift + F.bias + 1) := by
  have hle : 2 ^ F.fraction ≤ F.top := Nat.le_mul_of_pos_left _ (Nat.succ_pos _)
  rw [scaled_of_le hle]
  unfold top
  rw [Nat.mul_mod_left, Nat.mul_div_cancel _ (Nat.two_pow_pos _), Nat.add_sub_cancel, Nat.add_zero, ← Nat.pow_add]
  congr 1
  have hbias := F.bias_pos
  unfold shift
  omega

theorem magnitude_top : F.magnitude F.top = 2 ^ (F.bias + 1) := by
  unfold magnitude
  rw [scaled_top, Nat.cast_pow, Nat.cast_ofNat, add_assoc, pow_add]
  exact mul_div_cancel_left₀ _ (by positivity)

/-- The powers of two that a format has -/
def Spans (F : Format) (j : ℤ) : Prop := -(F.shift : ℤ) ≤ j ∧ j ≤ F.bias

theorem Spans.magnitude {j : ℤ} (h : F.Spans j) :
    ∃ n : Fin (F.top + 1), (n : ℕ) ≠ F.top ∧ F.magnitude n = 2 ^ j := by
  obtain ⟨p, hp⟩ : ∃ p : ℕ, (p : ℤ) = j + F.shift := ⟨(j + F.shift).toNat, Int.toNat_of_nonneg (by linarith [h.1])⟩
  have hlt : index F.fraction (2 ^ p) < F.top := by
    apply (scaled_strictMono F.fraction).lt_iff_lt.mp
    rw [scaled_index_pow, scaled_top]
    apply Nat.pow_lt_pow_right Nat.one_lt_two
    have hle := h.2
    omega
  refine ⟨⟨index F.fraction (2 ^ p), Nat.lt_succ_of_lt hlt⟩, Nat.ne_of_lt hlt, ?_⟩
  unfold Format.magnitude
  rw [scaled_index_pow, Nat.cast_pow, Nat.cast_ofNat, ← zpow_natCast, ← zpow_natCast,
    ← zpow_sub₀ (by norm_num : (2 : ℚ) ≠ 0), hp, add_sub_cancel_right]

/-- A power of two that is a magnitude lies in the span of the format. -/
theorem spans_of_magnitude {j : ℤ} {n : Fin (F.top + 1)} (hn : (n : ℕ) ≠ F.top) (h : F.magnitude n = 2 ^ j) :
    F.Spans j := by
  have htwo : (1 : ℚ) < 2 := by norm_num
  have hlt : (n : ℕ) < F.top := Nat.lt_of_le_of_ne (Nat.lt_succ_iff.mp n.isLt) hn
  constructor
  · have hne : (n : ℕ) ≠ 0 := by
      intro h0
      rw [h0, magnitude_zero] at h
      exact absurd h (ne_of_lt (zpow_pos (by norm_num) j))
    have hscaled : 1 ≤ scaled F.fraction n := by
      rw [Nat.one_le_iff_ne_zero]
      intro h0
      exact hne ((scaled_strictMono F.fraction).injective (h0.trans (scaled_zero _).symm))
    rw [← zpow_le_zpow_iff_right₀ htwo, ← h, zpow_neg, zpow_natCast, ← one_div]
    unfold magnitude
    exact div_le_div_of_nonneg_right (Nat.one_le_cast.mpr hscaled) (by positivity)
  · have hmag := magnitude_strictMono (F := F) hlt
    rw [h, magnitude_top, ← zpow_natCast, zpow_lt_zpow_iff_right₀ htwo] at hmag
    push_cast at hmag
    omega

end Format

namespace Datum

variable {F G : Format} {x : Datum F} {s : Bool} {m n : Fin (F.top + 1)} {j : ℤ}

/-- The fraction and the exponent of a number: the fraction is exact, and there is none for infinities. -/
def frexp : Datum F → Option ℚ × ℤ
  | nan => (none, 0)
  | num s m =>
    if (m : ℕ) = F.top then (none, 0)
    else if m = 0 then (some 0, 0)
    else
      let exp := (Nat.log2 (scaled F.fraction m) : ℤ) - F.shift + 1
      (some ((num s m).value / 2 ^ exp), exp)

/-- The fraction of a number other than zero has its first binary digit right after the point. -/
theorem frexp_spec (hm : (m : ℕ) ≠ F.top) (hm0 : m ≠ 0) :
    ∃ f e, frexp (num s m) = (some f, e) ∧ (num s m).value = f * 2 ^ e ∧ 1 / 2 ≤ |f| ∧ |f| < 1 := by
  have hscaled : scaled F.fraction m ≠ 0 := by
    intro h0
    exact hm0 (Fin.ext ((scaled_strictMono F.fraction).injective (h0.trans (scaled_zero _).symm)))
  have hlow : (2 : ℚ) ^ Nat.log2 (scaled F.fraction m) ≤ scaled F.fraction m := by
    exact_mod_cast Nat.log2_self_le hscaled
  have hhigh : (scaled F.fraction m : ℚ) < 2 ^ (Nat.log2 (scaled F.fraction m) + 1) := by
    exact_mod_cast Nat.lt_log2_self
  have hpow : ∀ l : ℕ, (2 : ℚ) ^ ((l : ℤ) - F.shift + 1) = 2 ^ (l + 1) / 2 ^ F.shift := by
    intro l
    rw [sub_add_eq_add_sub, zpow_sub₀ (by norm_num : (2 : ℚ) ≠ 0), zpow_natCast]
    congr 1
  refine ⟨(num s m).value / 2 ^ ((Nat.log2 (scaled F.fraction m) : ℤ) - F.shift + 1), _, ?_,
    (div_mul_cancel₀ _ (zpow_ne_zero _ (by norm_num))).symm, ?_, ?_⟩
  · rw [frexp, if_neg hm, if_neg hm0]
  · rw [abs_div, abs_value, hpow, abs_of_nonneg (by positivity : (0 : ℚ) ≤ 2 ^ _ / 2 ^ F.shift)]
    unfold Format.magnitude
    rw [div_div_div_cancel_right₀ (by positivity), div_le_div_iff₀ (by norm_num) (by positivity), pow_succ]
    linarith
  · rw [abs_div, abs_value, hpow, abs_of_nonneg (by positivity : (0 : ℚ) ≤ 2 ^ _ / 2 ^ F.shift)]
    unfold Format.magnitude
    rw [div_div_div_cancel_right₀ (by positivity), div_lt_one (by positivity)]
    exact hhigh

theorem isFinite_iff : (num s m : Datum F).isFinite = true ↔ (m : ℕ) ≠ F.top := by
  show decide ((m : ℕ) < F.top) = true ↔ _
  have hle := Nat.lt_succ_iff.mp m.isLt
  rw [decide_eq_true_iff]
  omega

theorem value_of_equal {y : Datum F} (h : equal x y = true) : x.value = y.value := by
  match x, y, h with
  | num s m, num s' m', h =>
    unfold equal at h
    simp only [Bool.or_eq_true, Bool.and_eq_true, decide_eq_true_eq] at h
    rcases h with ⟨rfl, rfl⟩ | ⟨rfl, rfl⟩
    · rw [value_zero, value_zero]
    · rfl

/-- A number whose value is a power of two of the format is finite and positive. -/
theorem of_value_pow (h : x.value = 2 ^ j) (hj : j ≤ F.bias) :
    ∃ m : Fin (F.top + 1), x = num false m ∧ (m : ℕ) ≠ F.top ∧ F.magnitude m = 2 ^ j := by
  have hpos : (0 : ℚ) < 2 ^ j := zpow_pos (by norm_num) j
  match x, h with
  | nan, h => exact absurd h (ne_of_lt hpos)
  | num s m, h =>
    have hs : s = false := by
      rw [← Bool.not_eq_true]
      rintro rfl
      have hneg : (num true m : Datum F).value ≤ 0 := neg_nonpos.mpr (Format.magnitude_nonneg _)
      linarith
    subst hs
    refine ⟨m, rfl, fun htop => ?_, h⟩
    have hmag : F.magnitude m = 2 ^ j := h
    rw [htop, Format.magnitude_top, ← zpow_natCast, zpow_right_inj₀ (by norm_num) (by norm_num)] at hmag
    push_cast at hmag
    omega

/-- A number is a power of two when its fraction is a half. -/
theorem frexp_half {e : ℤ} (h : x.frexp = (some (1 / 2), e)) :
    ∃ m : Fin (F.top + 1), (m : ℕ) ≠ F.top ∧ x = num false m ∧ F.magnitude m = 2 ^ (e - 1) := by
  match x with
  | nan => cases h
  | num s m =>
    by_cases htop : (m : ℕ) = F.top
    · rw [frexp, if_pos htop] at h
      cases h
    · by_cases hm0 : m = 0
      · rw [frexp, if_neg htop, if_pos hm0] at h
        have h0 : (0 : ℚ) = 1 / 2 := Option.some.inj (congrArg Prod.fst h)
        norm_num at h0
      · obtain ⟨f, e', hf, hvalue, -, -⟩ := frexp_spec (s := s) htop hm0
        rw [hf] at h
        cases h
        have hpow : (1 / 2 : ℚ) * 2 ^ e = 2 ^ (e - 1) := by
          rw [zpow_sub_one₀ (by norm_num), mul_comm, one_div]
        rw [hpow] at hvalue
        refine ⟨m, htop, ?_, ?_⟩
        · have hpos : ¬(num s m : Datum F).value < 0 := by
            rw [hvalue]
            exact not_lt.mpr (zpow_pos (by norm_num) _).le
          rw [value_neg_iff hm0] at hpos
          rw [eq_false_of_ne_true hpos]
        · rw [← abs_value s m, hvalue]
          exact abs_of_pos (zpow_pos (by norm_num) _)

theorem ne_zero_of_pow (h : F.magnitude m = 2 ^ j) : m ≠ 0 := by
  rintro rfl
  rw [show ((0 : Fin (F.top + 1)) : ℕ) = 0 from rfl, Format.magnitude_zero] at h
  exact absurd h (ne_of_lt (zpow_pos (by norm_num) j))

theorem frexp_pow (hm : (m : ℕ) ≠ F.top) (h : F.magnitude m = 2 ^ j) :
    (num false m : Datum F).frexp = (some (1 / 2), j + 1) := by
  obtain ⟨f, e, hf, hvalue, hlow, hhigh⟩ := frexp_spec (s := false) hm (ne_zero_of_pow h)
  have htwo : (1 : ℚ) < 2 := by norm_num
  have hpow : (2 : ℚ) ^ e ≠ 0 := zpow_ne_zero _ (by norm_num)
  have hfrac : f = 2 ^ (j - e) := by
    rw [zpow_sub₀ (by norm_num), eq_div_iff hpow, ← hvalue]
    exact h
  have hhalf : (1 / 2 : ℚ) = 2 ^ (-1 : ℤ) := by norm_num
  rw [hfrac, abs_of_pos (zpow_pos (by norm_num) _)] at hlow hhigh
  rw [hhalf, zpow_le_zpow_iff_right₀ htwo] at hlow
  rw [← zpow_zero (2 : ℚ), zpow_lt_zpow_iff_right₀ htwo] at hhigh
  have he : e = j + 1 := by omega
  rw [hf, hfrac, he, hhalf, show j - (j + 1) = -1 by omega]

/-- A rational that is a magnitude is rounded to it. -/
theorem round_magnitude (z : Bool) (hm : m ≠ 0) (q : ℚ) (h : F.magnitude m = q) : (round z q : Datum F) = num false m := by
  have hvalue : (num false m : Datum F).value = q := h
  rw [← hvalue]
  exact round_value z hm

theorem one_div_pow (hm : (m : ℕ) ≠ F.top) (h : F.magnitude m = 2 ^ j) :
    div one (num false m) = (round false (2 ^ (-j)) : Datum F) := by
  have hvalue : (num false m : Datum F).value = 2 ^ j := h
  unfold one
  rw [div_finite one_mag_ne_top hm, if_neg (ne_zero_of_pow h), hvalue]
  congr 1
  rw [zpow_neg]
  exact (congrArg (· / (2 : ℚ) ^ j) value_one).trans (one_div _)

/-- The reciprocal of a power of two, where the format has it -/
theorem reciprocal_exact (hm : (m : ℕ) ≠ F.top) (h : F.magnitude m = 2 ^ j) (hj : F.Spans (-j)) :
    ∃ n : Fin (F.top + 1), (n : ℕ) ≠ F.top ∧ div one (num false m) = (num false n : Datum F) ∧
      F.magnitude n = 2 ^ (-j) := by
  obtain ⟨n, hn, hmag⟩ := hj.magnitude
  exact ⟨n, hn, (one_div_pow hm h).trans (round_magnitude false (ne_zero_of_pow hmag) _ hmag), hmag⟩

/-- The reciprocal of a power of two that is too small -/
theorem reciprocal_overflow (hm : (m : ℕ) ≠ F.top) (h : F.magnitude m = 2 ^ j) (hj : (F.bias : ℤ) < -j) :
    div one (num false m) = (num false (Fin.last F.top) : Datum F) := by
  have hpos : (0 : ℚ) < 2 ^ (-j) := zpow_pos (by norm_num) _
  rw [one_div_pow hm h]
  unfold round
  rw [if_neg hpos.ne', abs_of_pos hpos, decide_eq_false (not_lt.mpr hpos.le)]
  congr 1
  apply Fin.ext
  apply Nat.le_antisymm (Nat.lt_succ_iff.mp (F.roundMag _).isLt)
  apply Format.le_roundMag (Nat.le_refl _)
  rw [Format.magnitude_top, ← zpow_natCast, zpow_le_zpow_iff_right₀ (by norm_num)]
  push_cast
  omega

/-- A magnitude that two formats share is converted exactly. -/
theorem convert_shared {n : Fin (G.top + 1)} (hm : (m : ℕ) ≠ F.top) (hn0 : n ≠ 0) (h : G.magnitude n = F.magnitude m) :
    convert (num false m : Datum F) = (num false n : Datum G) := by
  rw [convert, if_neg hm]
  exact round_magnitude false hn0 _ h

/-- The product with the reciprocal and the quotient round the same rational. -/
theorem mul_eq_div (hm : (m : ℕ) ≠ F.top) (hn : (n : ℕ) ≠ F.top) (h : F.magnitude n * F.magnitude m = 1) (a : Datum F) :
    mul a (num false n) = div a (num false m) ∧
      a.value * (num false n : Datum F).value = a.value / (num false m : Datum F).value := by
  have hm0 : m ≠ 0 := by
    rintro rfl
    rw [show ((0 : Fin (F.top + 1)) : ℕ) = 0 from rfl, Format.magnitude_zero, mul_zero] at h
    exact zero_ne_one h
  have hn0 : n ≠ 0 := by
    rintro rfl
    rw [show ((0 : Fin (F.top + 1)) : ℕ) = 0 from rfl, Format.magnitude_zero, zero_mul] at h
    exact zero_ne_one h
  have hvalues : (num false n : Datum F).value * (num false m : Datum F).value = 1 := h
  have hquot : ∀ q : ℚ, q * (num false n : Datum F).value = q / (num false m : Datum F).value := by
    intro q
    rw [eq_div_iff (right_ne_zero_of_mul_eq_one hvalues), mul_assoc, hvalues, mul_one]
  refine ⟨?_, hquot _⟩
  cases a with
  | nan => rfl
  | num s' a =>
    by_cases ha : (a : ℕ) = F.top
    · rw [mul_inf (Or.inl ha), div_inf ha hm, if_neg]
      rintro (h0 | h0)
      · exact ne_zero_of_top ha h0
      · exact hn0 h0
    · rw [mul_finite ha hn, div_finite ha hm, if_neg hm0, hquot]

end Datum

end Luwu.Floating
