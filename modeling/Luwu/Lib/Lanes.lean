import Mathlib.Tactic.Ring

/-!
# Lanes of a word

A word of `n` lanes of `w` bits each.  Arithmetic that stays inside the lanes and the operations on bits work on each lane
by itself.
-/

namespace Luwu.Lanes

/-- The word with these lanes, the lowest first -/
def pack (w : ℕ) : ℕ → (ℕ → ℕ) → ℕ
  | 0, _ => 0
  | n + 1, f => f 0 + 2 ^ w * pack w n fun i => f (i + 1)

def lane (w x i : ℕ) : ℕ := x / 2 ^ (w * i) % 2 ^ w

variable {w n : ℕ} {f g : ℕ → ℕ}

theorem pack_congr (h : ∀ i < n, f i = g i) : pack w n f = pack w n g := by
  induction n generalizing f g with
  | zero => rfl
  | succ n ih =>
    rw [pack, pack, h 0 (Nat.succ_pos n), ih fun i hi => h (i + 1) (Nat.succ_lt_succ hi)]

theorem pack_lt (h : ∀ i < n, f i < 2 ^ w) : pack w n f < 2 ^ (w * n) := by
  induction n generalizing f with
  | zero => exact Nat.one_pos
  | succ n ih =>
    have hrest := ih fun i hi => h (i + 1) (Nat.succ_lt_succ hi)
    have hfirst := h 0 (Nat.succ_pos n)
    rw [pack]
    calc f 0 + 2 ^ w * pack w n (fun i => f (i + 1))
        < 2 ^ w + 2 ^ w * pack w n (fun i => f (i + 1)) := Nat.add_lt_add_right hfirst _
      _ = 2 ^ w * (pack w n (fun i => f (i + 1)) + 1) := by ring
      _ ≤ 2 ^ w * 2 ^ (w * n) := Nat.mul_le_mul_left _ hrest
      _ = 2 ^ (w * (n + 1)) := by ring

/-! ### Arithmetic -/

theorem pack_add (w n : ℕ) (f g : ℕ → ℕ) : pack w n f + pack w n g = pack w n fun i => f i + g i := by
  induction n generalizing f g with
  | zero => rfl
  | succ n ih =>
    rw [pack, pack, pack, ← ih]
    ring

theorem pack_mul (w n c : ℕ) (f : ℕ → ℕ) : c * pack w n f = pack w n fun i => c * f i := by
  induction n generalizing f with
  | zero => exact Nat.mul_zero c
  | succ n ih =>
    rw [pack, pack, ← ih]
    ring

/-- Lanes that all have a factor are shifted by themselves. -/
theorem pack_shiftRight (w n k : ℕ) (f : ℕ → ℕ) : pack w n (fun i => 2 ^ k * f i) >>> k = pack w n f := by
  rw [← pack_mul, Nat.shiftRight_eq_div_pow, Nat.mul_div_cancel_left _ (Nat.two_pow_pos k)]

/-- Two lanes are one of twice the size. -/
theorem pack_pairs (w n : ℕ) (f : ℕ → ℕ) :
    pack (2 * w) n (fun i => f (2 * i) + 2 ^ w * f (2 * i + 1)) = pack w (2 * n) f := by
  induction n generalizing f with
  | zero => rfl
  | succ n ih =>
    have htwo : 2 * (n + 1) = 2 * n + 1 + 1 := by ring
    have hrest : (pack (2 * w) n fun i => f (2 * (i + 1)) + 2 ^ w * f (2 * (i + 1) + 1)) =
        pack w (2 * n) fun i => f (i + 1 + 1) := ih fun i => f (i + 1 + 1)
    rw [htwo, pack, hrest, pack, pack]
    ring

/-! ### Reading lanes -/

theorem lane_pack (h : ∀ i < n, f i < 2 ^ w) (i : ℕ) (hi : i < n) : lane w (pack w n f) i = f i := by
  induction n generalizing f i with
  | zero => exact absurd hi (Nat.not_lt_zero i)
  | succ n ih =>
    have hfirst := h 0 (Nat.succ_pos n)
    cases i with
    | zero => rw [lane, Nat.mul_zero, pow_zero, Nat.div_one, pack, Nat.add_mul_mod_self_left, Nat.mod_eq_of_lt hfirst]
    | succ i =>
      rw [← ih (fun j hj => h (j + 1) (Nat.succ_lt_succ hj)) i (Nat.lt_of_succ_lt_succ hi), lane, lane, pack,
        Nat.mul_succ, Nat.add_comm (w * i), pow_add, ← Nat.div_div_eq_div_mul, Nat.add_mul_div_left _ _ (Nat.two_pow_pos w),
        Nat.div_eq_of_lt hfirst, Nat.zero_add]

theorem pack_lane (w n x : ℕ) (h : x < 2 ^ (w * n)) : pack w n (lane w x) = x := by
  induction n generalizing x with
  | zero =>
    rw [Nat.mul_zero, pow_zero] at h
    exact (Nat.lt_one_iff.mp h).symm
  | succ n ih =>
    have hless : x / 2 ^ w < 2 ^ (w * n) := by
      rw [Nat.div_lt_iff_lt_mul (Nat.two_pow_pos w), ← pow_add]
      exact h
    have hrest : pack w n (fun i => lane w x (i + 1)) = pack w n (lane w (x / 2 ^ w)) := by
      refine pack_congr fun i _ => ?_
      rw [lane, lane, Nat.mul_succ, Nat.add_comm (w * i), pow_add, Nat.div_div_eq_div_mul]
    rw [pack, hrest, ih _ hless, lane, Nat.mul_zero, pow_zero, Nat.div_one, Nat.mod_add_div]

theorem lane_lt (w x i : ℕ) : lane w x i < 2 ^ w := Nat.mod_lt _ (Nat.two_pow_pos w)

/-! ### Bits -/

/-- An operation on numbers that works bit by bit -/
structure Bitwise (op : ℕ → ℕ → ℕ) (f : Bool → Bool → Bool) : Prop where
  zero : op 0 0 = 0
  bit : ∀ a b j, (op a b).testBit j = f (a.testBit j) (b.testBit j)

theorem bitwise_and : Bitwise (· &&& ·) and := ⟨rfl, Nat.testBit_and⟩

theorem bitwise_or : Bitwise (· ||| ·) or := ⟨rfl, Nat.testBit_or⟩

theorem bitwise_xor : Bitwise (· ^^^ ·) xor := ⟨rfl, Nat.testBit_xor⟩

variable {op : ℕ → ℕ → ℕ} {b : Bool → Bool → Bool}

theorem Bitwise.lt (h : Bitwise op b) {x y k : ℕ} (hx : x < 2 ^ k) (hy : y < 2 ^ k) : op x y < 2 ^ k := by
  refine Nat.lt_pow_two_of_testBit _ fun j hj => ?_
  have hzero := h.bit 0 0 j
  rw [h.zero, Nat.zero_testBit] at hzero
  rw [h.bit, Nat.testBit_lt_two_pow (hx.trans_le (Nat.pow_le_pow_right (by decide) hj)),
    Nat.testBit_lt_two_pow (hy.trans_le (Nat.pow_le_pow_right (by decide) hj)), ← hzero]

theorem Bitwise.split (h : Bitwise op b) {x y p q : ℕ} (hx : x < 2 ^ w) (hy : y < 2 ^ w) :
    op (x + 2 ^ w * p) (y + 2 ^ w * q) = op x y + 2 ^ w * op p q := by
  refine Nat.eq_of_testBit_eq fun j => ?_
  rw [Nat.add_comm x, Nat.add_comm y, Nat.add_comm (op x y), h.bit, Nat.testBit_two_pow_mul_add _ hx,
    Nat.testBit_two_pow_mul_add _ hy, Nat.testBit_two_pow_mul_add _ (h.lt hx hy)]
  split
  · exact (h.bit x y j).symm
  · exact (h.bit p q (j - w)).symm

/-- An operation on bits works on each lane. -/
theorem Bitwise.pack (h : Bitwise op b) (hf : ∀ i < n, f i < 2 ^ w) (hg : ∀ i < n, g i < 2 ^ w) :
    op (pack w n f) (pack w n g) = pack w n fun i => op (f i) (g i) := by
  induction n generalizing f g with
  | zero => exact h.zero
  | succ n ih =>
    have hrest := ih (fun i hi => hf (i + 1) (Nat.succ_lt_succ hi)) fun i hi => hg (i + 1) (Nat.succ_lt_succ hi)
    rw [Lanes.pack, Lanes.pack, Lanes.pack, h.split (hf 0 (Nat.succ_pos n)) (hg 0 (Nat.succ_pos n)), hrest]

end Luwu.Lanes
