import Mathlib.Algebra.Order.Floor.Semiring
import Mathlib.Data.Nat.Log
import Mathlib.Data.Rat.Floor
import Mathlib.Order.Monotone.Basic
import Mathlib.Tactic.Linarith
import Mathlib.Tactic.Positivity
import Mathlib.Tactic.Ring

/-!
# Binary floating point numbers

The magnitudes of a binary format are numbered in increasing order: the number is what the bits of the exponent and of
the fraction give, read as one numeral. Rounding is to the nearest magnitude, to the even one of two.
-/

namespace Luwu.Floating

/-! ### Magnitudes -/

section Magnitudes

variable {t n m k : ℕ} {r : ℚ}

/-- The magnitude with number `n` and `t` bits of fraction, as a multiple of the smallest one. -/
def scaled (t n : ℕ) : ℕ := if n < 2 ^ t then n else (2 ^ t + n % 2 ^ t) * 2 ^ (n / 2 ^ t - 1)

theorem scaled_of_lt (h : n < 2 ^ t) : scaled t n = n := if_pos h

theorem scaled_of_le (h : 2 ^ t ≤ n) : scaled t n = (2 ^ t + n % 2 ^ t) * 2 ^ (n / 2 ^ t - 1) :=
  if_neg (Nat.not_lt.mpr h)

/-- The distance to the next magnitude -/
theorem scaled_succ (t n : ℕ) : scaled t (n + 1) = scaled t n + 2 ^ (n / 2 ^ t - 1) := by
  have hpos : 0 < 2 ^ t := Nat.two_pow_pos t
  rcases Nat.lt_or_ge n (2 ^ t) with hn | hn
  · rw [scaled_of_lt hn, Nat.div_eq_of_lt hn]
    rcases Nat.lt_or_ge (n + 1) (2 ^ t) with hn' | hn'
    · rw [scaled_of_lt hn']
      rfl
    · obtain hn'' : n + 1 = 2 ^ t := by omega
      rw [scaled_of_le hn', hn'', Nat.mod_self, Nat.div_self hpos]
      simp [hn'']
  · have hq : 1 ≤ n / 2 ^ t := (Nat.one_le_div_iff hpos).mpr hn
    have hsplit := Nat.div_add_mod n (2 ^ t)
    have hlt := Nat.mod_lt n hpos
    rw [scaled_of_le hn, scaled_of_le (Nat.le_succ_of_le hn)]
    rcases Nat.lt_or_ge (n % 2 ^ t + 1) (2 ^ t) with hmod | hmod
    · have hdiv : (n + 1) / 2 ^ t = n / 2 ^ t := by
        apply Nat.div_eq_of_lt_le
        · rw [Nat.mul_comm]
          omega
        · rw [Nat.succ_mul, Nat.mul_comm]
          omega
      have hrem : (n + 1) % 2 ^ t = n % 2 ^ t + 1 := by
        have h := Nat.div_add_mod (n + 1) (2 ^ t)
        rw [hdiv] at h
        omega
      rw [hdiv, hrem, ← Nat.add_assoc, Nat.add_mul, Nat.one_mul]
    · have hdiv : (n + 1) / 2 ^ t = n / 2 ^ t + 1 := by
        apply Nat.div_eq_of_lt_le
        · rw [Nat.add_mul, Nat.mul_comm]
          omega
        · rw [Nat.succ_mul, Nat.add_mul, Nat.mul_comm]
          omega
      have hrem : (n + 1) % 2 ^ t = 0 := by
        have h := Nat.div_add_mod (n + 1) (2 ^ t)
        rw [hdiv, Nat.mul_add] at h
        omega
      obtain ⟨e, he⟩ : ∃ e, n / 2 ^ t = e + 1 := ⟨n / 2 ^ t - 1, by omega⟩
      rw [hdiv, hrem, he]
      have hfull : n % 2 ^ t = 2 ^ t - 1 := by omega
      have hsum : 2 ^ t + n % 2 ^ t + 1 = 2 ^ t * 2 := by omega
      calc (2 ^ t + 0) * 2 ^ (e + 1 + 1 - 1) = 2 ^ t * 2 * 2 ^ e := by
            rw [Nat.add_sub_cancel, Nat.add_zero, Nat.pow_succ]
            ring
        _ = (2 ^ t + n % 2 ^ t + 1) * 2 ^ e := by rw [hsum]
        _ = (2 ^ t + n % 2 ^ t) * 2 ^ (e + 1 - 1) + 2 ^ (e + 1 - 1) := by
            rw [Nat.add_sub_cancel, Nat.add_mul, Nat.one_mul]

theorem scaled_strictMono (t : ℕ) : StrictMono (scaled t) := by
  apply strictMono_nat_of_lt_succ
  intro n
  rw [scaled_succ]
  exact Nat.lt_add_of_pos_right (Nat.two_pow_pos _)

theorem scaled_zero (t : ℕ) : scaled t 0 = 0 := scaled_of_lt (Nat.two_pow_pos t)

/-- The distance to the next magnitude is small beside a normal magnitude. -/
theorem ulp_le (h : 2 ^ t ≤ n) : 2 ^ t * 2 ^ (n / 2 ^ t - 1) ≤ scaled t n := by
  rw [scaled_of_le h]
  exact Nat.mul_le_mul_right _ (Nat.le_add_right _ _)

/-- The number of the largest magnitude that is at most `k` -/
def index (t k : ℕ) : ℕ := (Nat.log2 k - t) * 2 ^ t + k / 2 ^ (Nat.log2 k - t)

theorem scaled_of_lt_double (h : n < 2 ^ (t + 1)) : scaled t n = n := by
  rcases Nat.lt_or_ge n (2 ^ t) with hn | hn
  · exact scaled_of_lt hn
  · have hdiv : n / 2 ^ t = 1 := by
      apply Nat.div_eq_of_lt_le
      · omega
      · rw [Nat.pow_succ] at h
        omega
    have hsplit := Nat.div_add_mod n (2 ^ t)
    rw [hdiv, Nat.mul_one] at hsplit
    rw [scaled_of_le hn, hdiv, Nat.sub_self, Nat.pow_zero, Nat.mul_one]
    exact hsplit

/-- With an exponent that is not the least one the fraction is what is left of `k`. -/
theorem scaled_index_normal {e : ℕ} (he : Nat.log2 k = t + e) (hk : k ≠ 0) :
    index t k = e * 2 ^ t + k / 2 ^ e ∧ scaled t (index t k) = k / 2 ^ e * 2 ^ e ∧
      scaled t (index t k + 1) = (k / 2 ^ e + 1) * 2 ^ e := by
  have hpos : 0 < 2 ^ t := Nat.two_pow_pos t
  have hlow : 2 ^ (t + e) ≤ k := he ▸ Nat.log2_self_le hk
  have hhigh : k < 2 ^ (t + e + 1) := he ▸ Nat.lt_log2_self
  have hexp : Nat.log2 k - t = e := by omega
  have hmlow : 2 ^ t ≤ k / 2 ^ e := by
    rw [Nat.le_div_iff_mul_le (Nat.two_pow_pos e), ← Nat.pow_add]
    exact hlow
  have hmhigh : k / 2 ^ e < 2 ^ t * 2 := by
    rw [Nat.div_lt_iff_lt_mul (Nat.two_pow_pos e), ← Nat.pow_succ, ← Nat.pow_add]
    rwa [show t.succ + e = t + e + 1 by omega]
  have hindex : index t k = e * 2 ^ t + k / 2 ^ e := by
    unfold index
    rw [hexp]
  have hdiv : index t k / 2 ^ t = e + 1 := by
    rw [hindex]
    apply Nat.div_eq_of_lt_le
    · rw [Nat.add_mul]
      omega
    · rw [Nat.succ_mul, Nat.add_mul]
      omega
  have hscaled : scaled t (index t k) = k / 2 ^ e * 2 ^ e := by
    have hle : 2 ^ t ≤ index t k := by
      rw [hindex]
      omega
    have hsplit := Nat.div_add_mod (index t k) (2 ^ t)
    rw [hdiv, Nat.mul_add, Nat.mul_comm] at hsplit
    rw [scaled_of_le hle, hdiv, Nat.add_sub_cancel]
    congr 1
    omega
  refine ⟨hindex, hscaled, ?_⟩
  rw [scaled_succ, hscaled, hdiv, Nat.add_sub_cancel, Nat.add_mul, Nat.one_mul]

theorem index_of_small (h : Nat.log2 k ≤ t) : index t k = k := by
  unfold index
  rw [Nat.sub_eq_zero_of_le h, Nat.zero_mul, Nat.zero_add, Nat.pow_zero, Nat.div_one]

theorem scaled_index (t k : ℕ) : scaled t (index t k) ≤ k ∧ k < scaled t (index t k + 1) := by
  rcases Nat.le_or_ge (Nat.log2 k) t with h | h
  · have hk : k < 2 ^ (t + 1) := Nat.lt_of_lt_of_le Nat.lt_log2_self (Nat.pow_le_pow_right Nat.two_pos (by omega))
    rw [index_of_small h, scaled_succ, scaled_of_lt_double hk]
    exact ⟨Nat.le_refl k, Nat.lt_add_of_pos_right (Nat.two_pow_pos _)⟩
  · obtain ⟨e, he⟩ : ∃ e, Nat.log2 k = t + e := ⟨Nat.log2 k - t, by omega⟩
    rcases Nat.eq_zero_or_pos k with rfl | hk
    · have hindex : index t 0 = 0 := index_of_small (by simp)
      rw [hindex, scaled_succ, scaled_zero]
      exact ⟨Nat.le_refl 0, Nat.lt_add_of_pos_right (Nat.two_pow_pos _)⟩
    · obtain ⟨-, hlow, hhigh⟩ := scaled_index_normal he (Nat.pos_iff_ne_zero.mp hk)
      rw [hlow, hhigh]
      refine ⟨Nat.div_mul_le_self k _, ?_⟩
      rw [Nat.mul_comm]
      exact Nat.lt_mul_div_succ k (Nat.two_pow_pos e)

theorem le_index_iff : n ≤ index t k ↔ scaled t n ≤ k := by
  obtain ⟨hlow, hhigh⟩ := scaled_index t k
  constructor
  · intro h
    exact ((scaled_strictMono t).monotone h).trans hlow
  · intro h
    exact Nat.lt_succ_iff.mp ((scaled_strictMono t).lt_iff_lt.mp (Nat.lt_of_le_of_lt h hhigh))

theorem index_scaled (t n : ℕ) : index t (scaled t n) = n := by
  apply Nat.le_antisymm
  · exact (scaled_strictMono t).le_iff_le.mp (scaled_index t (scaled t n)).1
  · exact le_index_iff.mpr (Nat.le_refl _)

end Magnitudes

/-! ### Rounding -/

section Rounding

variable {t n m : ℕ} {r : ℚ}

/-- The number of the magnitude nearest to `r`, and of the even one where two are nearest -/
def roundIndex (t : ℕ) (r : ℚ) : ℕ :=
  let n := index t ⌊r⌋₊
  let middle : ℚ := (scaled t n + scaled t (n + 1) : ℕ) / 2
  if r < middle then n
  else if middle < r then n + 1
  else if n % 2 = 0 then n else n + 1

theorem floor_bounds (hr : 0 ≤ r) :
    (scaled t (index t ⌊r⌋₊) : ℚ) ≤ r ∧ r < (scaled t (index t ⌊r⌋₊ + 1) : ℚ) := by
  obtain ⟨hlow, hhigh⟩ := scaled_index t ⌊r⌋₊
  exact ⟨(Nat.le_floor_iff hr).mp hlow, (Nat.floor_lt hr).mp hhigh⟩

theorem roundIndex_cases (t : ℕ) (r : ℚ) :
    roundIndex t r = index t ⌊r⌋₊ ∨ roundIndex t r = index t ⌊r⌋₊ + 1 := by
  unfold roundIndex
  simp only
  split
  · exact Or.inl rfl
  · split
    · exact Or.inr rfl
    · split
      · exact Or.inl rfl
      · exact Or.inr rfl

/-- A magnitude is rounded to itself. -/
theorem roundIndex_scaled (t n : ℕ) : roundIndex t (scaled t n) = n := by
  unfold roundIndex
  rw [Nat.floor_natCast, index_scaled]
  have hlt : (scaled t n : ℚ) < ((scaled t n + scaled t (n + 1) : ℕ) : ℚ) / 2 := by
    have hsucc : (scaled t n : ℚ) < (scaled t (n + 1) : ℚ) :=
      Nat.cast_lt.mpr (scaled_strictMono t (Nat.lt_succ_self n))
    rw [lt_div_iff₀ two_pos, mul_two, Nat.cast_add]
    exact add_lt_add_of_le_of_lt le_rfl hsucc
  exact if_pos hlt

/-- Rounding does not go down past a magnitude. -/
theorem le_roundIndex (h : (scaled t n : ℚ) ≤ r) : n ≤ roundIndex t r := by
  have hr : 0 ≤ r := (Nat.cast_nonneg _).trans h
  have hn : n ≤ index t ⌊r⌋₊ := le_index_iff.mpr ((Nat.le_floor_iff hr).mpr h)
  rcases roundIndex_cases t r with heq | heq
  · rwa [heq]
  · rw [heq]
    exact Nat.le_succ_of_le hn

/-- Rounding does not go up past a magnitude. -/
theorem roundIndex_le (hr : 0 ≤ r) (h : r ≤ (scaled t n : ℚ)) : roundIndex t r ≤ n := by
  obtain ⟨hlow, hhigh⟩ := floor_bounds (t := t) hr
  have hn : index t ⌊r⌋₊ ≤ n := by
    have hle : (scaled t (index t ⌊r⌋₊) : ℚ) ≤ (scaled t n : ℚ) := hlow.trans h
    exact (scaled_strictMono t).le_iff_le.mp (Nat.cast_le.mp hle)
  rcases Nat.eq_or_lt_of_le hn with heq | hlt
  · have hr' : r = (scaled t n : ℚ) := by
      apply le_antisymm h
      rw [← heq]
      exact hlow
    rw [hr', roundIndex_scaled]
  · rcases roundIndex_cases t r with h' | h'
    · rw [h']
      exact hn
    · rw [h']
      exact hlt

/-- What lies below a normal magnitude by more than its distance to the one before is rounded to less. -/
theorem roundIndex_lt (hr : 0 ≤ r) (hn : 2 ^ t < n)
    (h : r * 2 ^ t ≤ (scaled t n : ℚ) * 2 ^ t - scaled t n) : roundIndex t r < n := by
  obtain ⟨m, rfl⟩ : ∃ m, n = m + 1 := Nat.exists_eq_succ_of_ne_zero (Nat.ne_zero_of_lt hn)
  apply Nat.lt_succ_of_le
  apply roundIndex_le hr
  have hulp : ((2 ^ t * 2 ^ (m / 2 ^ t - 1) : ℕ) : ℚ) ≤ (scaled t m : ℚ) :=
    Nat.cast_le.mpr (ulp_le (Nat.lt_succ_iff.mp hn))
  have hsucc : (scaled t (m + 1) : ℚ) = scaled t m + (2 ^ (m / 2 ^ t - 1) : ℕ) := by
    rw [scaled_succ, Nat.cast_add]
  have hpos : (0 : ℚ) < 2 ^ t := by positivity
  have hstep : (0 : ℚ) ≤ (2 ^ (m / 2 ^ t - 1) : ℕ) := Nat.cast_nonneg _
  rw [Nat.cast_mul, Nat.cast_pow, Nat.cast_two] at hulp
  rw [hsucc] at h
  apply le_of_mul_le_mul_right _ hpos
  linarith

/-- What lies above a normal magnitude by more than its distance to the next is rounded to more. -/
theorem lt_roundIndex (hn : 2 ^ t ≤ n) (h : (scaled t n : ℚ) * 2 ^ t + scaled t n ≤ r * 2 ^ t) :
    n < roundIndex t r := by
  apply Nat.lt_of_succ_le
  apply le_roundIndex
  have hulp : ((2 ^ t * 2 ^ (n / 2 ^ t - 1) : ℕ) : ℚ) ≤ (scaled t n : ℚ) := Nat.cast_le.mpr (ulp_le hn)
  have hpos : (0 : ℚ) < 2 ^ t := by positivity
  rw [Nat.cast_mul, Nat.cast_pow, Nat.cast_two] at hulp
  rw [Nat.succ_eq_add_one, scaled_succ, Nat.cast_add]
  apply le_of_mul_le_mul_right _ hpos
  linarith

/-- The middle between a magnitude and the next -/
def middle (t n : ℕ) : ℚ := ((scaled t n + scaled t (n + 1) : ℕ) : ℚ) / 2

theorem middle_between (t n : ℕ) : (scaled t n : ℚ) < middle t n ∧ middle t n < (scaled t (n + 1) : ℚ) := by
  have hsucc : (scaled t n : ℚ) < (scaled t (n + 1) : ℚ) := Nat.cast_lt.mpr (scaled_strictMono t (Nat.lt_succ_self n))
  unfold middle
  rw [Nat.cast_add]
  constructor
  · linarith
  · linarith

/-- **What is rounded to a magnitude** lies between two middles; on these if the number of the magnitude is even. -/
theorem roundIndex_eq_iff (hr : 0 ≤ r) : roundIndex t r = n + 1 ↔
    (middle t n < r ∨ middle t n = r ∧ (n + 1) % 2 = 0) ∧
      (r < middle t (n + 1) ∨ r = middle t (n + 1) ∧ (n + 1) % 2 = 0) := by
  obtain ⟨hlow, hhigh⟩ := floor_bounds (t := t) hr
  have hcases := roundIndex_cases t r
  have hround : roundIndex t r =
      if r < middle t (index t ⌊r⌋₊) then index t ⌊r⌋₊
      else if middle t (index t ⌊r⌋₊) < r then index t ⌊r⌋₊ + 1
      else if index t ⌊r⌋₊ % 2 = 0 then index t ⌊r⌋₊ else index t ⌊r⌋₊ + 1 := rfl
  generalize index t ⌊r⌋₊ = i at *
  have hmono : ∀ a b, a ≤ b → (scaled t a : ℚ) ≤ scaled t b := fun a b hab =>
    Nat.cast_le.mpr ((scaled_strictMono t).monotone hab)
  obtain ⟨hn, hn'⟩ := middle_between t n
  obtain ⟨hm, hm'⟩ := middle_between t (n + 1)
  rcases (show n + 2 ≤ i ∨ i = n + 1 ∨ i = n ∨ i + 1 ≤ n by omega) with hi | rfl | rfl | hi
  · have hfar := hmono _ _ hi
    have hout : ¬(r < middle t (n + 1) ∨ r = middle t (n + 1) ∧ (n + 1) % 2 = 0) := by
      rintro (h | ⟨h, -⟩)
      · linarith
      · linarith
    constructor
    · intro h
      omega
    · exact fun h => absurd h.2 hout
  · have hin : middle t n < r := by linarith
    rw [hround]
    rcases lt_trichotomy r (middle t (n + 1)) with h | h | h
    · simp [h, hin]
    · simp only [h, lt_irrefl, if_false, true_and, false_or]
      constructor
      · intro heq
        split at heq
        · next heven => exact ⟨Or.inl (by rw [← h]; exact hin), heven⟩
        · omega
      · exact fun heq => if_pos heq.2
    · have h' : ¬r < middle t (n + 1) := not_lt.mpr h.le
      have h'' : r ≠ middle t (n + 1) := h.ne'
      simp [h, h', h'']
  · have hin : r < middle t (i + 1) := by linarith
    rw [hround]
    rcases lt_trichotomy r (middle t i) with h | h | h
    · have h' : ¬middle t i < r := not_lt.mpr h.le
      have h'' : middle t i ≠ r := h.ne'
      simp [h, h', h'']
    · rw [if_neg (by rw [h]; exact lt_irrefl _), if_neg (by rw [h]; exact lt_irrefl _)]
      constructor
      · intro heq
        split at heq
        · omega
        · exact ⟨Or.inr ⟨h.symm, by omega⟩, Or.inl hin⟩
      · rintro ⟨hleft | ⟨-, heven⟩, -⟩
        · exact absurd hleft (by rw [h]; exact lt_irrefl _)
        · exact if_neg (by omega)
    · have h' : ¬r < middle t i := not_lt.mpr h.le
      simp [h, h', hin]
  · have hfar := hmono _ _ hi
    have hout : ¬(middle t n < r ∨ middle t n = r ∧ (n + 1) % 2 = 0) := by
      rintro (h | ⟨h, -⟩)
      · linarith
      · linarith
    constructor
    · intro h
      omega
    · exact fun h => absurd h.1 hout

end Rounding

end Luwu.Floating
