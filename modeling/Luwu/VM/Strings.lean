import Mathlib.Tactic
import Mathlib.Data.List.Lex
import Mathlib.Order.Lex

/-!
# The order of strings

Strings are compared as the machine does, byte by byte and then by their lengths, which is the order of a
dictionary.
-/

namespace Luwu

/-- The difference of the first two bytes that differ -/
def memcmp : ℕ → List UInt8 → List UInt8 → ℤ
  | n + 1, a :: l, b :: r => if a = b then memcmp n l r else a.toNat - b.toNat
  | _, _, _ => 0

/-- Strings are shared, so that equal contents are one object. -/
def luaV_strcmp (l r : List UInt8) : ℤ :=
  if l = r then 0
  -- an empty string has its nul here
  else if l.headD 0 ≠ r.headD 0 then ((l.headD 0).toNat : ℤ) - (r.headD 0).toNat
  else
    let res := memcmp (min l.length r.length) l r
    if res ≠ 0 then res
    else if l.length = r.length then 0
    else if l.length < r.length then -1
    else 1

/-- The comparison of the bytes and then of the lengths is the order of the dictionary. -/
theorem memcmp_lt_iff (l r : List UInt8) :
    (memcmp (min l.length r.length) l r < 0 ∨ memcmp (min l.length r.length) l r = 0 ∧ l.length < r.length) ↔
      l.map UInt8.toNat < r.map UInt8.toNat := by
  induction l generalizing r with
  | nil =>
    cases r with
    | nil => simp [memcmp]
    | cons b r => simp [memcmp]
  | cons a l ih =>
    cases r with
    | nil => simp [memcmp]
    | cons b r =>
      have hmin : min (a :: l).length (b :: r).length = min l.length r.length + 1 := by
        rw [List.length_cons, List.length_cons]
        omega
      rw [hmin, memcmp, List.map_cons, List.map_cons, List.cons_lt_cons_iff, ← ih r, List.length_cons, List.length_cons]
      by_cases hab : a = b
      · subst hab
        simp
      · have hne : a.toNat ≠ b.toNat := fun h => hab (UInt8.toNat_inj.mp h)
        rw [if_neg hab]
        constructor
        · intro h
          exact Or.inl (by omega)
        · intro h
          obtain h | h := h
          · exact Or.inl (by omega)
          · exact absurd h.1 hne

/-- The test of the first bytes answers as the comparison of all bytes would. -/
theorem headD_lt_iff {l r : List UInt8} (h : l.headD 0 ≠ r.headD 0) :
    ((l.headD 0).toNat : ℤ) - (r.headD 0).toNat < 0 ↔ l.map UInt8.toNat < r.map UInt8.toNat := by
  cases l with
  | nil =>
    cases r with
    | nil => exact absurd rfl h
    | cons b r =>
      have hb : b.toNat ≠ 0 := fun hb => h (UInt8.toNat_inj.mp hb).symm
      simp only [List.headD_nil, List.headD_cons, List.map_nil, List.map_cons, List.nil_lt_cons, iff_true]
      show (0 : ℤ) - b.toNat < 0
      omega
  | cons a l =>
    cases r with
    | nil =>
      simp only [List.headD_nil, List.headD_cons, List.map_nil, List.map_cons, List.not_lt_nil, iff_false]
      show ¬(a.toNat : ℤ) - 0 < 0
      omega
    | cons b r =>
      rw [List.headD_cons, List.headD_cons] at h
      have hne : a.toNat ≠ b.toNat := fun hab => h (UInt8.toNat_inj.mp hab)
      rw [List.headD_cons, List.headD_cons, List.map_cons, List.map_cons, List.cons_lt_cons_iff]
      constructor
      · intro hlt
        exact Or.inl (by omega)
      · intro hlt
        obtain hlt | hlt := hlt
        · omega
        · exact absurd hlt.1 hne

section

variable {l r : List UInt8}

theorem luaV_strcmp_lt_iff : luaV_strcmp l r < 0 ↔ l.map UInt8.toNat < r.map UInt8.toNat := by
  unfold luaV_strcmp
  by_cases heq : l = r
  · rw [if_pos heq, heq]
    simp
  · rw [if_neg heq]
    by_cases hhead : l.headD 0 ≠ r.headD 0
    · rw [if_pos hhead]
      exact headD_lt_iff hhead
    · rw [if_neg hhead, ← memcmp_lt_iff]
      dsimp only
      by_cases hres : memcmp (min l.length r.length) l r ≠ 0
      · rw [if_pos hres]
        simp only [hres, false_and, or_false]
      · rw [if_neg hres]
        rw [not_not] at hres
        simp only [hres, lt_irrefl, true_and, false_or]
        split_ifs with heq hlt
        · omega
        · omega
        · omega

theorem memcmp_neg (n : ℕ) (l r : List UInt8) : memcmp n r l = -memcmp n l r := by
  induction n generalizing l r with
  | zero => rfl
  | succ n ih =>
    cases l with
    | nil => cases r <;> rfl
    | cons a l =>
      cases r with
      | nil => rfl
      | cons b r =>
        unfold memcmp
        by_cases hab : a = b
        · rw [if_pos hab, if_pos hab.symm, ih]
        · rw [if_neg hab, if_neg (Ne.symm hab), neg_sub]

theorem luaV_strcmp_neg : luaV_strcmp r l = -luaV_strcmp l r := by
  unfold luaV_strcmp
  by_cases heq : l = r
  · rw [if_pos heq, if_pos heq.symm, neg_zero]
  · rw [if_neg heq, if_neg (Ne.symm heq)]
    by_cases hhead : l.headD 0 ≠ r.headD 0
    · rw [if_pos hhead, if_pos hhead.symm, neg_sub]
    · rw [if_neg hhead, if_neg (fun h => hhead h.symm), Nat.min_comm, memcmp_neg _ l r]
      dsimp only
      by_cases hres : memcmp (min l.length r.length) l r ≠ 0
      · rw [if_pos hres, if_pos (neg_ne_zero.mpr hres)]
      · rw [if_neg hres, if_neg (fun h => hres (neg_ne_zero.mp h))]
        split_ifs <;> omega

theorem luaV_strcmp_le_iff : luaV_strcmp l r ≤ 0 ↔ l.map UInt8.toNat ≤ r.map UInt8.toNat := by
  rw [← not_lt, ← not_lt, ← luaV_strcmp_lt_iff, luaV_strcmp_neg (l := l), neg_lt_zero]

/-- `std::string_view::compare` -/
def compareBytes (l r : List UInt8) : ℤ :=
  let res := memcmp (min l.length r.length) l r
  if res = 0 then if l.length < r.length then -1 else if r.length < l.length then 1 else 0 else res

theorem compareBytes_lt_iff : compareBytes l r < 0 ↔ l.map UInt8.toNat < r.map UInt8.toNat := by
  unfold compareBytes
  rw [← memcmp_lt_iff]
  dsimp only
  by_cases hres : memcmp (min l.length r.length) l r = 0
  · rw [if_pos hres]
    simp only [hres, lt_irrefl, true_and, false_or]
    split_ifs <;> omega
  · rw [if_neg hres]
    simp only [hres, false_and, or_false]

theorem compareBytes_neg : compareBytes r l = -compareBytes l r := by
  unfold compareBytes
  rw [Nat.min_comm, memcmp_neg _ l r]
  dsimp only
  by_cases hres : memcmp (min l.length r.length) l r = 0
  · rw [if_pos hres, if_pos (neg_eq_zero.mpr hres)]
    split_ifs <;> omega
  · rw [if_neg hres, if_neg (neg_ne_zero.mpr hres)]

theorem compareBytes_le_iff : compareBytes l r ≤ 0 ↔ l.map UInt8.toNat ≤ r.map UInt8.toNat := by
  rw [← not_lt, ← not_lt, ← compareBytes_lt_iff, compareBytes_neg (l := l), neg_lt_zero]

theorem compareBytes_eq_iff : compareBytes l r = 0 ↔ l = r := by
  constructor
  · intro h
    have hle := compareBytes_le_iff.mp h.le
    have hge := compareBytes_le_iff.mp (show compareBytes r l ≤ 0 by rw [compareBytes_neg, h, neg_zero])
    exact List.map_injective_iff.mpr (fun _ _ => UInt8.toNat_inj.mp) (le_antisymm hle hge)
  · intro h
    rw [h]
    have hneg := compareBytes_neg (l := r) (r := r)
    omega

end

end Luwu
