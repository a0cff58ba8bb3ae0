import Mathlib.Tactic

/-!
# Small residues of the multiples of a number

How small the residues of `n * γ` modulo `M` get for the `n` up to a bound.  Two multipliers, one with a residue that is small from
above and one with a residue that is small from below, decide it when there is no room between the two fractions that belong to
them.  They are searched for as in the expansion into a continued fraction; only what the search finds is checked.
-/

namespace Luwu.Residues

/-- A multiplier with its residue, and one with what its residue lacks to the modulus -/
structure Bracket where
  a : ℕ
  u : ℕ
  b : ℕ
  v : ℕ

/-- No multiplier up to `N` is between the two. -/
def Bracket.valid (M γ N : ℕ) (s : Bracket) : Bool :=
  Nat.beq (s.a * γ % M) s.u && Nat.beq ((s.b * γ + s.v) % M) 0 && Nat.beq (s.a * s.v + s.b * s.u) M && Nat.ble 1 s.v &&
    Nat.ble (N + 1) (s.a + s.b)

/-- Go on as long as a multiplier up to `N` may be between the two. -/
def narrow (N : ℕ) : ℕ → ℕ → ℕ → ℕ → ℕ → Bracket
  | 0, a, u, b, v => ⟨a, u, b, v⟩
  | fuel + 1, a, u, b, v =>
    bif Nat.ble (a + b) N then
      bif Nat.ble v u then
        bif Nat.ble (a + u / v * b) N then narrow N fuel (a + u / v * b) (u % v) b v
        else ⟨a + (N - a) / b * b, u - (N - a) / b * v, b, v⟩
      else
        bif Nat.ble (b + (v - 1) / u * a) N then narrow N fuel a u (b + (v - 1) / u * a) (v - (v - 1) / u * u)
        else ⟨a, u, b + (N - b) / a * a, v - (N - b) / a * u⟩
    else ⟨a, u, b, v⟩

def bracket (M γ N : ℕ) : Bracket := narrow N 100 1 (γ % M) 0 M

/-- The residue of each multiple up to `N` is at least `T`. -/
def residuesAtLeast (M γ N T : ℕ) : Bool :=
  let s := bracket M γ N
  s.valid M γ N && Nat.ble T s.u

variable {M γ N T n : ℕ} {s : Bracket}

/-- **A multiple with a smaller residue is further away**: each multiplier is a sum of multiples of the two, and one with a smaller
residue than the first has a part of both. -/
theorem le_residue (hM : 0 < M) (h : s.valid M γ N = true) (hn : 0 < n) (hN : n ≤ N) : s.u ≤ n * γ % M := by
  obtain ⟨a, u, b, v⟩ := s
  unfold Bracket.valid at h
  simp only [Bool.and_eq_true, Nat.beq_eq, Nat.ble_eq] at h
  obtain ⟨⟨⟨⟨hu, hv⟩, hdet⟩, hv0⟩, hroom⟩ := h
  obtain ⟨p, hp⟩ : ∃ p : ℤ, (a : ℤ) * γ = M * p + u := by
    refine ⟨(a * γ / M : ℕ), ?_⟩
    rw [← hu]
    exact_mod_cast (Nat.div_add_mod (a * γ) M).symm
  obtain ⟨p', hp'⟩ : ∃ p' : ℤ, (b : ℤ) * γ + v = M * p' := by
    obtain ⟨p', hp'⟩ := Nat.dvd_of_mod_eq_zero hv
    exact ⟨p', by exact_mod_cast hp'⟩
  obtain ⟨m, hm⟩ : ∃ m : ℤ, (n : ℤ) * γ = M * m + (n * γ % M : ℕ) := by
    refine ⟨(n * γ / M : ℕ), ?_⟩
    exact_mod_cast (Nat.div_add_mod (n * γ) M).symm
  show u ≤ n * γ % M
  generalize n * γ % M = r at hm ⊢
  have hdet' : (a : ℤ) * v + b * u = M := by exact_mod_cast hdet
  have hMpos : (0 : ℤ) < M := by exact_mod_cast hM
  by_contra hlt
  -- the parts `i` and `j`
  obtain ⟨i, hi⟩ : ∃ i : ℤ, i = n * p' - m * b := ⟨_, rfl⟩
  obtain ⟨j, hj⟩ : ∃ j : ℤ, j = m * a - n * p := ⟨_, rfl⟩
  have hMi : M * i = n * v + b * r := by
    rw [hi]
    linear_combination -(n : ℤ) * hp' + b * hm
  have hMj : M * j = n * u - a * r := by
    rw [hj]
    linear_combination -(a : ℤ) * hm + n * hp
  have hsum : (n : ℤ) = i * a + j * b := by
    apply mul_left_cancel₀ hMpos.ne'
    linear_combination -(a : ℤ) * hMi - b * hMj - (n : ℤ) * hdet'
  have hrest : (r : ℤ) = i * u - j * v := by
    apply mul_left_cancel₀ hMpos.ne'
    linear_combination -(u : ℤ) * hMi + v * hMj - (r : ℤ) * hdet'
  have hipos : 1 ≤ i := by
    have hpos : (0 : ℤ) < M * i := by
      rw [hMi]
      have hnv : 0 < n * v := Nat.mul_pos hn hv0
      have hbr : 0 ≤ b * r := Nat.zero_le _
      exact_mod_cast Nat.add_pos_left hnv (b * r)
    exact (mul_pos_iff_of_pos_left hMpos).mp hpos
  have hjpos : 1 ≤ j := by
    by_contra hj0
    have hjv : j * v ≤ 0 := mul_nonpos_of_nonpos_of_nonneg (by omega) (Int.natCast_nonneg v)
    have hiu : (1 : ℤ) * u ≤ i * u := mul_le_mul_of_nonneg_right hipos (Int.natCast_nonneg u)
    omega
  have hia : (1 : ℤ) * a ≤ i * a := mul_le_mul_of_nonneg_right hipos (Int.natCast_nonneg a)
  have hjb : (1 : ℤ) * b ≤ j * b := mul_le_mul_of_nonneg_right hjpos (Int.natCast_nonneg b)
  omega

/-- **What the check promises** -/
theorem residue_of_check (hM : 0 < M) (h : residuesAtLeast M γ N T = true) (hn : 0 < n) (hN : n ≤ N) : T ≤ n * γ % M := by
  unfold residuesAtLeast at h
  simp only [Bool.and_eq_true, Nat.ble_eq] at h
  exact h.2.trans (le_residue hM h.1 hn hN)

end Luwu.Residues
