import Mathlib.Data.Nat.ModEq
import Mathlib.Data.Nat.Prime.Basic
import Mathlib.Algebra.Group.Nat.Even
import Mathlib.Data.Fintype.EquivFin
import Mathlib.Tactic.Ring
import Luwu.Lib.OpenAddressing

/-!
# Linear and triangular probing

The two probe sequences, and the deletion of linear probing: when an item goes, the items behind it move up
into the hole, unless their home lies between the hole and them (Knuth, 6.4 R).  While the hole moves, the
items that a search can no longer reach lie behind the bucket looked at last (`Hole`).
-/

namespace Luwu.Probing

open Function Luwu.OpenAddressing

variable {κ α : Type*} {cap i j x y m : ℕ} {slots : ℕ → Option α} {home : α → ℕ} {a : α}

/-! ### Distances -/

/-- How far a bucket lies behind another, around the end. -/
def dist (cap x y : ℕ) : ℕ := (y + cap - x) % cap

theorem dist_cases (hx : x < cap) (hy : y < cap) :
    dist cap x y = y - x ∧ x ≤ y ∨ dist cap x y = y + cap - x ∧ y < x := by
  unfold dist
  by_cases h : x ≤ y
  · left
    refine ⟨?_, h⟩
    rw [show y + cap - x = y - x + cap by omega, Nat.add_mod_right, Nat.mod_eq_of_lt (by omega)]
  · right
    exact ⟨Nat.mod_eq_of_lt (by omega), by omega⟩

theorem wrap_cases (hx : x < cap) (hm : m < cap) :
    (x + m) % cap = x + m ∧ x + m < cap ∨ (x + m) % cap = x + m - cap ∧ cap ≤ x + m := by
  by_cases h : x + m < cap
  · exact Or.inl ⟨Nat.mod_eq_of_lt h, h⟩
  · right
    refine ⟨?_, by omega⟩
    rw [Nat.mod_eq_sub_mod (by omega), Nat.mod_eq_of_lt (by omega)]

theorem dist_lt (hcap : 0 < cap) : dist cap x y < cap := Nat.mod_lt _ hcap

theorem dist_self (hx : x < cap) : dist cap x x = 0 := by
  have := dist_cases hx hx
  omega

theorem wrap_dist (hx : x < cap) (hy : y < cap) : (x + dist cap x y) % cap = y := by
  have hd : dist cap x y < cap := dist_lt (by omega)
  have := dist_cases hx hy
  have := wrap_cases hx hd
  omega

theorem dist_wrap (hx : x < cap) (hm : m < cap) : dist cap x ((x + m) % cap) = m := by
  have hy : (x + m) % cap < cap := Nat.mod_lt _ (by omega)
  have := dist_cases hx hy
  have := wrap_cases hx hm
  omega

/-- One step nearer. -/
theorem dist_step (hx : x < cap) (hy : y < cap) (hne : x ≠ y) :
    dist cap ((x + 1) % cap) y + 1 = dist cap x y := by
  have hlt : (x + 1) % cap < cap := Nat.mod_lt _ (by omega)
  have := wrap_cases hx (show 1 < cap by omega)
  have := dist_cases hx hy
  have := dist_cases hlt hy
  omega

/-! ### Linear probing -/

def linear (cap home n : ℕ) : ℕ := (home + n) % cap

theorem linear_succ (cap home n : ℕ) : linear cap home (n + 1) = (linear cap home n + 1) % cap := by
  unfold linear
  rw [Nat.mod_add_mod, Nat.add_assoc]

theorem paths_linear [BEq κ] {home : κ → ℕ} (hcap : 0 < cap) (hhome : ∀ k, home k < cap)
    (hcongr : ∀ k k', (k == k') = true → home k = home k') :
    Paths cap fun k => linear cap (home k) where
  bound := fun k n => Nat.mod_lt _ hcap
  cover := fun k b hb => ⟨dist cap (home k) b, dist_lt hcap, wrap_dist (hhome k) hb⟩
  congr := fun k k' hk => by rw [hcongr k k' hk]

/-- All buckets from the home of an item to the item are taken. -/
def Reached (cap : ℕ) (home : α → ℕ) (slots : ℕ → Option α) : Prop :=
  ∀ b a, slots b = some a → ∀ m < dist cap (home a) b, slots ((home a + m) % cap) ≠ none

theorem reached_of_layout [BEq κ] {key : α → κ} {home : κ → ℕ} (hhome : ∀ k, home k < cap)
    (h : Layout cap (fun k => linear cap (home k)) key slots) : Reached cap (fun a => home (key a)) slots := by
  intro b a hb m hm
  obtain ⟨n, hn, ht⟩ := h.reach b a hb
  apply ht m
  have hr := hhome (key a)
  have hmod : n % cap < cap := Nat.mod_lt _ (by omega)
  have hdist : dist cap (home (key a)) b = n % cap := by
    rw [← dist_wrap hr hmod, Nat.add_mod_mod]
    exact congrArg _ hn.symm
  calc m < dist cap (home (key a)) b := hm
    _ = n % cap := hdist
    _ ≤ n := Nat.mod_le n cap

theorem layout_of_reached [BEq κ] {key : α → κ} {home : κ → ℕ} (hhome : ∀ k, home k < cap)
    (hbound : ∀ b a, slots b = some a → b < cap) (h : Reached cap (fun a => home (key a)) slots)
    (hdistinct : ∀ b b' a a', slots b = some a → slots b' = some a' → (key a == key a') = true → b = b') :
    Layout cap (fun k => linear cap (home k)) key slots where
  bound := hbound
  reach := fun b a hb => ⟨dist cap (home (key a)) b, wrap_dist (hhome (key a)) (hbound b a hb), h b a hb⟩
  distinct := hdistinct

/-- The hole is at `i`, and the buckets after it as far as `j` are taken by items that stay. -/
structure Hole (cap : ℕ) (home : α → ℕ) (slots : ℕ → Option α) (i j : ℕ) : Prop where
  hole : slots i = none
  scanned : ∀ m, 0 < m → m ≤ dist cap i j → slots ((i + m) % cap) ≠ none
  reached : ∀ b a, slots b = some a → ∀ m < dist cap (home a) b, slots ((home a + m) % cap) ≠ none ∨
    ((home a + m) % cap = i ∧ dist cap i j < dist cap i b)

section Deletion

variable (hbound : ∀ b a, slots b = some a → b < cap)

include hbound

/-- The item of a bucket goes. -/
theorem Hole.start (h : Reached cap home slots) (hi : i < cap) :
    Hole cap home (update slots i none) i i where
  hole := update_self _ _ _
  scanned := by
    intro m hm hle
    rw [dist_self hi] at hle
    omega
  reached := by
    intro b a hb m hm
    have hbi : b ≠ i := by
      rintro rfl
      rw [update_self] at hb
      cases hb
    rw [update_of_ne hbi] at hb
    by_cases he : (home a + m) % cap = i
    · right
      refine ⟨he, ?_⟩
      have := dist_cases hi (hbound b a hb)
      rw [dist_self hi]
      omega
    · left
      rw [update_of_ne he]
      exact h b a hb m hm

omit hbound in
/-- The next bucket, which is not the hole, is one further from it. -/
theorem dist_next {j' : ℕ} (hi : i < cap) (hj : j < cap) (hj' : j' = (j + 1) % cap) (hne : j' ≠ i) :
    j' < cap ∧ dist cap i j' = dist cap i j + 1 := by
  have hlt : j' < cap := by
    rw [hj']
    exact Nat.mod_lt _ (by omega)
  have hwrap : j' = j + 1 ∧ j + 1 < cap ∨ j' = 0 ∧ j + 1 = cap := by
    by_cases h : j + 1 < cap
    · exact Or.inl ⟨hj'.trans (Nat.mod_eq_of_lt h), h⟩
    · have he : j + 1 = cap := by omega
      rw [he, Nat.mod_self] at hj'
      exact Or.inr ⟨hj', he⟩
  have := dist_cases hi hj
  have := dist_cases hi hlt
  exact ⟨hlt, by omega⟩

omit hbound in
/-- The hole is not met again, as long as another bucket is empty. -/
theorem Hole.next_ne {e j' : ℕ} (h : Hole cap home slots i j) (hi : i < cap) (hj : j < cap)
    (he : e < cap) (hempty : slots e = none) (hei : e ≠ i) (hj' : j' = (j + 1) % cap) : j' ≠ i := by
  intro heq
  have hlast : dist cap i j + 1 = cap := by
    have hwrap : j' = j + 1 ∧ j + 1 < cap ∨ j' = 0 ∧ j + 1 = cap := by
      by_cases h : j + 1 < cap
      · exact Or.inl ⟨hj'.trans (Nat.mod_eq_of_lt h), h⟩
      · have hc : j + 1 = cap := by omega
        rw [hc, Nat.mod_self] at hj'
        exact Or.inr ⟨hj', hc⟩
    have := dist_cases hi hj
    omega
  have hlt : dist cap i e < cap := dist_lt (by omega)
  apply h.scanned (dist cap i e)
  · have := dist_cases hi he
    omega
  · omega
  · rw [wrap_dist hi he]
    exact hempty

/-- The next item stays, since its home lies behind the hole. -/
theorem Hole.keep {j' : ℕ} (h : Hole cap home slots i j) (hi : i < cap) (hj : j < cap)
    (hj' : j' = (j + 1) % cap) (hne : j' ≠ i) (ha : slots j' = some a) (hhome : home a < cap)
    (hstay : dist cap (home a) j' ≤ dist cap (home a) i) : Hole cap home slots i j' := by
  obtain ⟨hlt, hnext⟩ := dist_next hi hj hj' hne
  refine ⟨h.hole, fun m hm hle => ?_, fun b a' hb m hm => ?_⟩
  · by_cases he : m = dist cap i j'
    · rw [he, wrap_dist hi hlt, ha]
      exact Option.some_ne_none a
    · exact h.scanned m hm (by omega)
  · cases h.reached b a' hb m hm with
    | inl htaken => exact Or.inl htaken
    | inr hpast =>
      right
      refine ⟨hpast.1, ?_⟩
      by_cases he : b = j'
      · subst he
        obtain rfl : a = a' := Option.some.inj (ha.symm.trans hb)
        have hm' : m < cap := lt_of_lt_of_le hm (Nat.le_of_lt (dist_lt (by omega)))
        have hdist := dist_wrap hhome hm'
        rw [hpast.1] at hdist
        omega
      · have hb' := hbound b a' hb
        have := dist_cases hi hlt
        have := dist_cases hi hb'
        omega

/-- The next item moves up into the hole. -/
theorem Hole.shift {j' : ℕ} (h : Hole cap home slots i j) (hi : i < cap) (hne : j' ≠ i)
    (ha : slots j' = some a) (hmove : dist cap (home a) i < dist cap (home a) j') :
    Hole cap home (update (update slots i (some a)) j' none) j' j' := by
  have hlt := hbound j' a ha
  refine ⟨update_self _ _ _, fun m hm hle => ?_, fun b a' hb m hm => ?_⟩
  · rw [dist_self hlt] at hle
    omega
  · have hbj : b ≠ j' := by
      rintro rfl
      rw [update_self] at hb
      cases hb
    rw [update_of_ne hbj] at hb
    have hb' : b < cap := by
      by_cases he : b = i
      · rw [he]
        exact hi
      · rw [update_of_ne he] at hb
        exact hbound b a' hb
    by_cases hpj : (home a' + m) % cap = j'
    · right
      refine ⟨hpj, ?_⟩
      rw [dist_self hlt]
      have := dist_cases hlt hb'
      omega
    · left
      rw [update_of_ne hpj]
      by_cases hpi : (home a' + m) % cap = i
      · rw [hpi, update_self]
        exact Option.some_ne_none a
      · rw [update_of_ne hpi]
        have hold : m < dist cap (home a') j' ∧ slots j' = some a' ∨
            m < dist cap (home a') b ∧ slots b = some a' := by
          by_cases he : b = i
          · subst he
            obtain rfl : a = a' := Option.some.inj ((update_self b (some a) slots).symm.trans hb)
            exact Or.inl ⟨by omega, ha⟩
          · rw [update_of_ne he] at hb
            exact Or.inr ⟨hm, hb⟩
        cases hold with
        | inl hold => exact (h.reached j' a' hold.2 m hold.1).resolve_right fun hp => hpi hp.1
        | inr hold => exact (h.reached b a' hold.2 m hold.1).resolve_right fun hp => hpi hp.1

/-- At an empty bucket every item is reached again. -/
theorem Hole.done {j' : ℕ} (h : Hole cap home slots i j) (hi : i < cap) (hj : j < cap)
    (hj' : j' = (j + 1) % cap) (hne : j' ≠ i) (hempty : slots j' = none) (hhome : ∀ a, home a < cap) :
    Reached cap home slots := by
  obtain ⟨hlt, hnext⟩ := dist_next hi hj hj' hne
  intro b a hb m hm
  apply (h.reached b a hb m hm).resolve_right
  intro hpast
  have hb' := hbound b a hb
  have hr := hhome a
  have hm' : m < cap := lt_of_lt_of_le hm (Nat.le_of_lt (dist_lt (by omega)))
  have hbj : b ≠ j' := by
    rintro rfl
    rw [hempty] at hb
    cases hb
  -- the path of the item goes through the hole and then through the empty bucket
  have hri : dist cap (home a) i = m := by
    have hdist := dist_wrap hr hm'
    rw [hpast.1] at hdist
    exact hdist
  have hrj : dist cap (home a) j' < dist cap (home a) b := by
    have := dist_cases hr hi
    have := dist_cases hr hlt
    have := dist_cases hr hb'
    have := dist_cases hi hlt
    have := dist_cases hi hb'
    omega
  cases h.reached b a hb (dist cap (home a) j') hrj with
  | inl htaken =>
    apply htaken
    rw [wrap_dist hr hlt]
    exact hempty
  | inr hp =>
    apply hne
    rw [← hp.1, wrap_dist hr hlt]

end Deletion

/-! ### Triangular probing -/

def triangular (cap home n : ℕ) : ℕ := (home + n * (n + 1) / 2) % cap

theorem triangular_succ (cap home n : ℕ) :
    triangular cap home (n + 1) = (triangular cap home n + n + 1) % cap := by
  unfold triangular
  have hsum : (n + 1) * (n + 1 + 1) / 2 = n * (n + 1) / 2 + (n + 1) := by
    rw [show (n + 1) * (n + 1 + 1) = n * (n + 1) + (n + 1) * 2 by ring, Nat.add_mul_div_right _ _ (by omega)]
  rw [hsum, Nat.add_assoc (_ % cap), Nat.mod_add_mod, Nat.add_assoc]

theorem two_mul_triangle (n : ℕ) : 2 * (n * (n + 1) / 2) = n * (n + 1) :=
  Nat.mul_div_cancel' (Nat.even_mul_succ_self n).two_dvd

/-- Of the factors of a difference of triangular numbers one is odd, so the other takes all of the power. -/
theorem triangular_injective_of_le {e x y : ℕ} (hy : y < 2 ^ e) (hxy : x ≤ y)
    (h : x * (x + 1) / 2 ≡ y * (y + 1) / 2 [MOD 2 ^ e]) : x = y := by
  obtain ⟨d, rfl⟩ := Nat.exists_eq_add_of_le hxy
  have hdouble : x * (x + 1) ≡ (x + d) * (x + d + 1) [MOD 2 ^ (e + 1)] := by
    rw [← two_mul_triangle x, ← two_mul_triangle (x + d), pow_succ', Nat.ModEq]
    exact h.mul_left' 2
  have hsplit : (x + d) * (x + d + 1) = x * (x + 1) + d * (2 * x + d + 1) := by ring
  have hdvd : 2 ^ (e + 1) ∣ d * (2 * x + d + 1) := by
    rw [hsplit] at hdouble
    have := (Nat.modEq_iff_dvd' (Nat.le_add_right _ _)).mp hdouble
    rwa [Nat.add_sub_cancel_left] at this
  have hpow : 2 ^ (e + 1) = 2 * 2 ^ e := pow_succ' 2 e
  cases Nat.even_or_odd d with
  | inl heven =>
    have hodd : Odd (2 * x + d + 1) := by
      obtain ⟨c, hc⟩ := heven
      exact ⟨x + c, by omega⟩
    have hcop : Nat.Coprime (2 ^ (e + 1)) (2 * x + d + 1) := (Nat.coprime_two_left.mpr hodd).pow_left _
    have hd := Nat.eq_zero_of_dvd_of_lt (hcop.dvd_of_dvd_mul_right hdvd) (by omega)
    rw [hd, Nat.add_zero]
  | inr hodd =>
    have hcop : Nat.Coprime (2 ^ (e + 1)) d := (Nat.coprime_two_left.mpr hodd).pow_left _
    have hzero := Nat.eq_zero_of_dvd_of_lt (hcop.dvd_of_dvd_mul_left hdvd) (by omega)
    omega

/-- The triangular numbers below a power of two differ modulo it. -/
theorem triangular_injective {e x y : ℕ} (hx : x < 2 ^ e) (hy : y < 2 ^ e)
    (h : x * (x + 1) / 2 ≡ y * (y + 1) / 2 [MOD 2 ^ e]) : x = y := by
  cases Nat.le_total x y with
  | inl hxy => exact triangular_injective_of_le hy hxy h
  | inr hyx => exact (triangular_injective_of_le hx hyx h.symm).symm

/-- The triangular steps visit every bucket. -/
theorem triangular_cover {e home b : ℕ} (hb : b < 2 ^ e) : ∃ n < 2 ^ e, triangular (2 ^ e) home n = b := by
  have hpos : 0 < 2 ^ e := Nat.two_pow_pos e
  have hinj : Injective fun n : Fin (2 ^ e) => (⟨triangular (2 ^ e) home n, Nat.mod_lt _ hpos⟩ : Fin (2 ^ e)) := by
    intro x y hxy
    apply Fin.ext
    apply triangular_injective x.isLt y.isLt
    exact Nat.ModEq.add_left_cancel' home (Fin.mk.inj hxy)
  obtain ⟨n, hn⟩ := (Finite.injective_iff_surjective.mp hinj) ⟨b, hb⟩
  exact ⟨n, n.isLt, congrArg Fin.val hn⟩

theorem paths_triangular [BEq κ] {e : ℕ} {home : κ → ℕ}
    (hcongr : ∀ k k', (k == k') = true → home k = home k') :
    Paths (2 ^ e) fun k => triangular (2 ^ e) (home k) where
  bound := fun k n => Nat.mod_lt _ (Nat.two_pow_pos e)
  cover := fun k b hb => triangular_cover hb
  congr := fun k k' hk => by rw [hcongr k k' hk]

end Luwu.Probing
