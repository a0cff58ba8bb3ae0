import Mathlib.Data.Nat.Bitwise
import Luwu.Lib.Lanes

/-!
# Costs

The words of `CostModel.cpp`: the lowest lane is the baseline cost, and lane `i + 1` is the discount for a constant
argument `i`.
-/

namespace Luwu.CostModel

open Lanes

abbrev Word := BitVec 64

def parallelAddSat (x y : Word) : Word :=
  let r := x + y
  -- saturation mask
  let s := r &&& 0x8080808080808080#64
  (r ^^^ s) ||| (s - s >>> 7)

def parallelMulSat (a : Word) (b : ℤ) : Word :=
  let bs := if b < 127 then b else 127
  let l := BitVec.ofInt 64 bs * (a >>> 0 &&& 0x007f007f007f007f#64)
  let h := BitVec.ofInt 64 bs * (a >>> 8 &&& 0x007f007f007f007f#64)
  let ls := l + 0x7f807f807f807f80#64
  let hs := h + 0x7f807f807f807f80#64
  let s := (hs &&& 0x8000800080008000#64) ||| (ls &&& 0x8000800080008000#64) >>> 8
  let r := (h &&& 0x007f007f007f007f#64) <<< 8 ||| (l &&& 0x007f007f007f007f#64)
  r ||| (s - s >>> 7)

/-- A lane of a cost word -/
def byte (x : Word) (i : ℕ) : ℕ := lane 8 x.toNat i

/-- No lane has its high bit. -/
def InLanes (x : Word) : Prop := ∀ i < 8, byte x i ≤ 127

section

variable {x y a : Word} {b : ℤ} {i : ℕ}

theorem toNat_eq_pack (x : Word) : x.toNat = pack 8 8 (byte x) := (pack_lane 8 8 x.toNat x.isLt).symm

theorem byte_of_pack {f : ℕ → ℕ} (hx : x.toNat = pack 8 8 f) (hf : ∀ i < 8, f i < 256) (hi : i < 8) : byte x i = f i := by
  rw [byte, hx, lane_pack hf i hi]

theorem byte_lt (x : Word) (i : ℕ) : byte x i < 256 := lane_lt 8 x.toNat i

/-! ### The saturation mask -/

theorem and_high (k n : ℕ) : n &&& 2 ^ k = 2 ^ k * (n / 2 ^ k % 2) := by
  rw [Nat.and_two_pow, Nat.testBit_eq_decide_div_mod_eq, Nat.mul_comm]
  rcases Nat.mod_two_eq_zero_or_one (n / 2 ^ k) with h | h <;> simp [h]

theorem and_low (k n : ℕ) : n &&& 2 ^ k - 1 = n % 2 ^ k := Nat.and_two_pow_sub_one_eq_mod n k

/-- The high bits of lanes turn into masks of their low bits. -/
theorem mask_of_high {s : Word} {q : ℕ → ℕ} (hs : s.toNat = pack 8 8 fun i => 2 ^ 7 * q i) :
    (s - s >>> 7).toNat = pack 8 8 fun i => 127 * q i := by
  have hshift : (s >>> 7).toNat = pack 8 8 q := by
    rw [BitVec.toNat_ushiftRight, hs, pack_shiftRight]
  have hle : s >>> 7 ≤ s := by
    rw [BitVec.le_def, BitVec.toNat_ushiftRight]
    exact Nat.shiftRight_le _ _
  rw [BitVec.toNat_sub_of_le hle, hshift, hs, ← pack_mul, ← pack_mul]
  omega

theorem or_pack {f g : ℕ → ℕ} (hx : x.toNat = pack 8 8 f) (hy : y.toNat = pack 8 8 g) (hf : ∀ i < 8, f i < 256)
    (hg : ∀ i < 8, g i < 256) : (x ||| y).toNat = pack 8 8 fun i => f i ||| g i := by
  rw [BitVec.toNat_or, hx, hy]
  exact bitwise_or.pack hf hg

/-! ### Sums -/

theorem saturated_sum : ∀ r < 256, (r ^^^ (2 ^ 7 * (r / 2 ^ 7 % 2))) ||| 127 * (r / 2 ^ 7 % 2) = min r 127 := by
  decide +kernel

theorem parallelAddSat_pack (hx : InLanes x) (hy : InLanes y) :
    (parallelAddSat x y).toNat = pack 8 8 fun i => min (byte x i + byte y i) 127 := by
  have hsum : ∀ i < 8, byte x i + byte y i < 256 := by
    intro i hi
    have h₁ := hx i hi
    have h₂ := hy i hi
    omega
  have hr : (x + y).toNat = pack 8 8 fun i => byte x i + byte y i := by
    rw [BitVec.toNat_add, toNat_eq_pack x, toNat_eq_pack y, pack_add]
    exact Nat.mod_eq_of_lt (pack_lt hsum)
  have hmask : (0x8080808080808080#64).toNat = pack 8 8 fun _ => 2 ^ 7 := rfl
  have hs : ((x + y) &&& 0x8080808080808080#64).toNat =
      pack 8 8 fun i => 2 ^ 7 * ((byte x i + byte y i) / 2 ^ 7 % 2) := by
    rw [BitVec.toNat_and, hr, hmask, bitwise_and.pack hsum fun _ _ => by decide]
    exact pack_congr fun i _ => and_high 7 _
  have hhigh : ∀ i < 8, 2 ^ 7 * ((byte x i + byte y i) / 2 ^ 7 % 2) < 256 := by
    intro i _
    omega
  have hxor : ((x + y) ^^^ ((x + y) &&& 0x8080808080808080#64)).toNat =
      pack 8 8 fun i => (byte x i + byte y i) ^^^ (2 ^ 7 * ((byte x i + byte y i) / 2 ^ 7 % 2)) := by
    rw [BitVec.toNat_xor, hr, hs]
    exact bitwise_xor.pack hsum hhigh
  have hlow : ∀ i < 8, (byte x i + byte y i) ^^^ (2 ^ 7 * ((byte x i + byte y i) / 2 ^ 7 % 2)) < 2 ^ 8 := fun i hi =>
    bitwise_xor.lt (hsum i hi) (hhigh i hi)
  have hor := or_pack hxor (mask_of_high hs) hlow fun i _ => by omega
  exact hor.trans (pack_congr fun i hi => saturated_sum _ (hsum i hi))

/-- Each lane of the sum is the saturating sum of the lanes. -/
theorem byte_parallelAddSat (hx : InLanes x) (hy : InLanes y) (hi : i < 8) :
    byte (parallelAddSat x y) i = min (byte x i + byte y i) 127 :=
  byte_of_pack (parallelAddSat_pack hx hy) (fun i _ => (Nat.min_le_right _ _).trans_lt (by decide)) hi

/-! ### Products -/

/-- The low bits of every other lane -/
theorem toNat_even (x : Word) : (x &&& 0x007f007f007f007f#64).toNat = pack 16 4 fun i => byte x (2 * i) % 128 := by
  have hmask : (0x007f007f007f007f#64).toNat = pack 16 4 fun _ => 2 ^ 7 - 1 := rfl
  have hlanes : ∀ i < 4, byte x (2 * i) + 2 ^ 8 * byte x (2 * i + 1) < 2 ^ 16 := by
    intro i _
    have h₁ := byte_lt x (2 * i)
    have h₂ := byte_lt x (2 * i + 1)
    omega
  rw [BitVec.toNat_and, toNat_eq_pack x, ← pack_pairs 8 4, hmask, bitwise_and.pack hlanes fun _ _ => by decide]
  refine pack_congr fun i _ => ?_
  rw [and_low]
  omega

theorem byte_shift (x : Word) (i : ℕ) : byte (x >>> 8) i = byte x (i + 1) := by
  unfold byte lane
  rw [BitVec.toNat_ushiftRight, Nat.shiftRight_eq_div_pow, Nat.div_div_eq_div_mul, ← pow_add, Nat.mul_succ, Nat.add_comm 8]

variable {l : Word} {N : ℕ → ℕ}

/-- Products of the low bits, each in a lane of twice the size -/
theorem toNat_product {bs : ℕ} (hbs : bs ≤ 127) (hl : l.toNat = pack 16 4 fun i => N i) (hN : ∀ i < 4, N i ≤ 127) :
    (BitVec.ofInt 64 bs * l).toNat = pack 16 4 fun i => bs * N i := by
  have hfit : ∀ i < 4, bs * N i < 2 ^ 16 := by
    intro i hi
    have hle := Nat.mul_le_mul hbs (hN i hi)
    omega
  have hbs' : (BitVec.ofInt 64 (bs : ℤ)).toNat = bs := by
    rw [BitVec.ofInt_natCast, BitVec.toNat_ofNat, Nat.mod_eq_of_lt (by omega)]
  rw [BitVec.toNat_mul, hbs', hl, pack_mul]
  exact Nat.mod_eq_of_lt (pack_lt hfit)

/-- The carry of a product into the high bit of its lane -/
def carry (n : ℕ) : ℕ := if n < 128 then 0 else 1

theorem toNat_carry (hl : l.toNat = pack 16 4 N) (hN : ∀ i < 4, N i ≤ 16129) :
    ((l + 0x7f807f807f807f80#64) &&& 0x8000800080008000#64).toNat = pack 16 4 fun i => 2 ^ 15 * carry (N i) := by
  have hbias : (0x7f807f807f807f80#64).toNat = pack 16 4 fun _ => 0x7f80 := rfl
  have hmask : (0x8000800080008000#64).toNat = pack 16 4 fun _ => 2 ^ 15 := rfl
  have hfit : ∀ i < 4, N i + 0x7f80 < 2 ^ 16 := by
    intro i hi
    have hle := hN i hi
    omega
  have hsum : (l + 0x7f807f807f807f80#64).toNat = pack 16 4 fun i => N i + 0x7f80 := by
    rw [BitVec.toNat_add, hl, hbias, pack_add]
    exact Nat.mod_eq_of_lt (pack_lt hfit)
  rw [BitVec.toNat_and, hsum, hmask, bitwise_and.pack hfit fun _ _ => by decide]
  refine pack_congr fun i hi => ?_
  have hle := hN i hi
  rw [and_high, carry]
  split <;> omega

theorem toNat_low (hl : l.toNat = pack 16 4 N) (hN : ∀ i < 4, N i ≤ 16129) :
    (l &&& 0x007f007f007f007f#64).toNat = pack 16 4 fun i => N i % 128 := by
  have hmask : (0x007f007f007f007f#64).toNat = pack 16 4 fun _ => 2 ^ 7 - 1 := rfl
  have hfit : ∀ i < 4, N i < 2 ^ 16 := by
    intro i hi
    have hle := hN i hi
    omega
  rw [BitVec.toNat_and, hl, hmask, bitwise_and.pack hfit fun _ _ => by decide]
  exact pack_congr fun i _ => and_low 7 _

/-- Lanes that have only high halves and lanes that have only low ones -/
theorem or_halves {F : ℕ → ℕ} {u v : Word} (hu : u.toNat = pack 16 4 fun i => 2 ^ 8 * F (2 * i + 1))
    (hv : v.toNat = pack 16 4 fun i => F (2 * i)) (hF : ∀ i < 8, F i < 256) : (u ||| v).toNat = pack 8 8 F := by
  rw [BitVec.toNat_or, hu, hv, bitwise_or.pack, ← pack_pairs 8 4]
  · refine pack_congr fun i hi => ?_
    have hsplit := bitwise_or.split (w := 8) (x := 0) (y := F (2 * i)) (p := F (2 * i + 1)) (q := 0) (by decide)
      (hF (2 * i) (by omega))
    simpa using hsplit
  · intro i hi
    have hlt := hF (2 * i + 1) (by omega)
    omega
  · intro i hi
    have hlt := hF (2 * i) (by omega)
    omega

theorem saturated_product {n : ℕ} : n % 128 ||| 127 * carry n = min n 127 := by
  have hmask : ∀ m < 128, m ||| 127 = 127 := by decide +kernel
  rw [carry]
  split
  · rename_i h
    rw [Nat.mul_zero, Nat.or_zero, Nat.mod_eq_of_lt h]
    omega
  · rename_i h
    rw [Nat.mul_one, hmask _ (Nat.mod_lt n (by decide))]
    omega

/-- The factor that the lanes are multiplied with -/
theorem min_product {n : ℕ} : min ((min b.toNat 127) * n) 127 = min (n * b.toNat) 127 := by
  rcases Nat.le_total b.toNat 127 with h | h
  · rw [Nat.min_eq_left h, Nat.mul_comm]
  · rw [Nat.min_eq_right h]
    cases n with
    | zero => rw [Nat.mul_zero, Nat.zero_mul]
    | succ n =>
      have hle : b.toNat ≤ (n + 1) * b.toNat := Nat.le_mul_of_pos_left _ (Nat.succ_pos n)
      omega

/-- Each lane of the product is the saturating product of the lane. -/
theorem parallelMulSat_pack (ha : InLanes a) (hb : 0 ≤ b) :
    (parallelMulSat a b).toNat = pack 8 8 fun i => min (byte a i * b.toNat) 127 := by
  obtain ⟨bs, hbs⟩ : ∃ bs : ℕ, bs = min b.toNat 127 := ⟨_, rfl⟩
  have hle : bs ≤ 127 := hbs ▸ Nat.min_le_right _ _
  have hfactor : (if b < 127 then b else 127 : ℤ) = bs := by
    split <;> omega
  let N : ℕ → ℕ := fun i => bs * byte a i
  have hN : ∀ i < 8, N i ≤ 16129 := fun i hi => Nat.mul_le_mul hle (ha i hi)
  have hmod : ∀ i < 8, byte a i % 128 = byte a i := fun i hi => Nat.mod_eq_of_lt (Nat.lt_succ_of_le (ha i hi))
  have hl : (BitVec.ofInt 64 bs * (a >>> 0 &&& 0x007f007f007f007f#64)).toNat = pack 16 4 fun i => N (2 * i) := by
    refine toNat_product hle ?_ fun i hi => ha (2 * i) (by omega)
    rw [BitVec.ushiftRight_zero, toNat_even]
    exact pack_congr fun i hi => hmod (2 * i) (by omega)
  have hh : (BitVec.ofInt 64 bs * (a >>> 8 &&& 0x007f007f007f007f#64)).toNat = pack 16 4 fun i => N (2 * i + 1) := by
    refine toNat_product hle ?_ fun i hi => ha (2 * i + 1) (by omega)
    rw [toNat_even]
    refine pack_congr fun i hi => ?_
    rw [byte_shift]
    exact hmod (2 * i + 1) (by omega)
  unfold parallelMulSat
  rw [hfactor]
  dsimp only
  generalize BitVec.ofInt 64 (bs : ℤ) * (a >>> 0 &&& 0x007f007f007f007f#64) = l at hl ⊢
  generalize BitVec.ofInt 64 (bs : ℤ) * (a >>> 8 &&& 0x007f007f007f007f#64) = h at hh ⊢
  have heven : ∀ i < 4, N (2 * i) ≤ 16129 := fun i hi => hN (2 * i) (by omega)
  have hodd : ∀ i < 4, N (2 * i + 1) ≤ 16129 := fun i hi => hN (2 * i + 1) (by omega)
  have hcarry : ∀ n, carry n ≤ 1 := by
    intro n
    unfold carry
    split <;> decide
  have hs : (((h + 0x7f807f807f807f80#64) &&& 0x8000800080008000#64) |||
      ((l + 0x7f807f807f807f80#64) &&& 0x8000800080008000#64) >>> 8).toNat = pack 8 8 fun i => 2 ^ 7 * carry (N i) := by
    refine or_halves ?_ ?_ fun i _ => by have := hcarry (N i); omega
    · rw [toNat_carry hh hodd]
      exact pack_congr fun i _ => by ring
    · have hlow : (pack 16 4 fun i => 2 ^ 15 * carry (N (2 * i))) = pack 16 4 fun i => 2 ^ 8 * (2 ^ 7 * carry (N (2 * i))) :=
        pack_congr fun i _ => by ring
      rw [BitVec.toNat_ushiftRight, toNat_carry hl heven, hlow, pack_shiftRight]
  have hr : ((h &&& 0x007f007f007f007f#64) <<< 8 ||| (l &&& 0x007f007f007f007f#64)).toNat = pack 8 8 fun i => N i % 128 := by
    refine or_halves ?_ (toNat_low hl heven) fun i _ => (Nat.mod_lt _ (by decide)).trans (by decide)
    rw [BitVec.toNat_shiftLeft, toNat_low hh hodd, Nat.shiftLeft_eq, Nat.mul_comm, pack_mul]
    refine Nat.mod_eq_of_lt (pack_lt fun i _ => ?_)
    have hlt := Nat.mod_lt (N (2 * i + 1)) (show 128 > 0 by decide)
    omega
  rw [or_pack hr (mask_of_high hs) (fun i _ => (Nat.mod_lt _ (by decide)).trans (by decide))
    fun i _ => by have := hcarry (N i); omega]
  refine pack_congr fun i _ => ?_
  rw [saturated_product, ← min_product, ← hbs]

theorem byte_parallelMulSat (ha : InLanes a) (hb : 0 ≤ b) (hi : i < 8) :
    byte (parallelMulSat a b) i = min (byte a i * b.toNat) 127 :=
  byte_of_pack (parallelMulSat_pack ha hb) (fun i _ => (Nat.min_le_right _ _).trans_lt (by decide)) hi

end

end Luwu.CostModel
