import Mathlib.Tactic

/-!
# UTF-8

The octets of a code point, and the grammar of their sequences: a row for each form, a range for each octet.  The sequences of
the grammar are those of the scalar values (`wellFormed_iff`).  In a text of them the first octets of the characters are
those that are no tails (`not_isTail_start`, `isTail_between`).
-/

namespace Luwu.Utf8

/-- A code point that is no surrogate -/
def Scalar (v : ℕ) : Prop := v ≤ 0x10FFFF ∧ ¬(0xD800 ≤ v ∧ v < 0xE000)

instance (v : ℕ) : Decidable (Scalar v) := by
  unfold Scalar
  infer_instance

def encode (v : ℕ) : List ℕ :=
  if v < 0x80 then [v]
  else if v < 0x800 then [0xC0 + v / 64, 0x80 + v % 64]
  else if v < 0x10000 then [0xE0 + v / 4096, 0x80 + v / 64 % 64, 0x80 + v % 64]
  else [0xF0 + v / 262144, 0x80 + v / 4096 % 64, 0x80 + v / 64 % 64, 0x80 + v % 64]

/-- An octet that continues a character -/
def IsTail (b : ℕ) : Prop := 0x80 ≤ b ∧ b < 0xC0

instance (b : ℕ) : Decidable (IsTail b) := by
  unfold IsTail
  infer_instance

section Forms

variable {v x y z t : ℕ}

theorem encode_one (h : v < 0x80) : encode v = [v] := if_pos h

theorem encode_two (hx : 2 ≤ x) (hx' : x < 32) (hy : y < 64) : encode (x * 64 + y) = [0xC0 + x, 0x80 + y] := by
  unfold encode
  rw [if_neg (by omega), if_pos (by omega)]
  simp only [List.cons.injEq, and_true]
  omega

theorem encode_three (hx : x < 16) (hy : y < 64) (hz : z < 64) (hlow : 0x800 ≤ x * 4096 + y * 64 + z) :
    encode (x * 4096 + y * 64 + z) = [0xE0 + x, 0x80 + y, 0x80 + z] := by
  unfold encode
  rw [if_neg (by omega), if_neg (by omega), if_pos (by omega)]
  simp only [List.cons.injEq, and_true]
  omega

theorem encode_four (hy : y < 64) (hz : z < 64) (ht : t < 64)
    (hlow : 0x10000 ≤ x * 262144 + y * 4096 + z * 64 + t) :
    encode (x * 262144 + y * 4096 + z * 64 + t) = [0xF0 + x, 0x80 + y, 0x80 + z, 0x80 + t] := by
  unfold encode
  rw [if_neg (by omega), if_neg (by omega), if_neg (by omega)]
  simp only [List.cons.injEq, and_true]
  omega

/-- The four forms of a code point -/
theorem encode_cases (h : v ≤ 0x10FFFF) :
    (v < 0x80 ∧ encode v = [v]) ∨
    (∃ x y, 2 ≤ x ∧ x < 32 ∧ y < 64 ∧ v = x * 64 + y ∧ encode v = [0xC0 + x, 0x80 + y]) ∨
    (∃ x y z, x < 16 ∧ y < 64 ∧ z < 64 ∧ v = x * 4096 + y * 64 + z ∧ 0x800 ≤ v ∧
      encode v = [0xE0 + x, 0x80 + y, 0x80 + z]) ∨
    ∃ x y z t, x < 5 ∧ y < 64 ∧ z < 64 ∧ t < 64 ∧ v = x * 262144 + y * 4096 + z * 64 + t ∧ 0x10000 ≤ v ∧
      encode v = [0xF0 + x, 0x80 + y, 0x80 + z, 0x80 + t] := by
  unfold encode
  split_ifs with h1 h2 h3
  · exact Or.inl ⟨h1, rfl⟩
  · exact Or.inr (Or.inl ⟨v / 64, v % 64, by omega, by omega, by omega, by omega, rfl⟩)
  · exact Or.inr (Or.inr (Or.inl ⟨v / 4096, v / 64 % 64, v % 64, by omega, by omega, by omega, by omega, by omega, rfl⟩))
  · exact Or.inr (Or.inr (Or.inr ⟨v / 262144, v / 4096 % 64, v / 64 % 64, v % 64, by omega, by omega, by omega, by omega,
      by omega, by omega, rfl⟩))

theorem encode_injective : Function.Injective encode := by
  intro v w h
  unfold encode at h
  split_ifs at h <;> simp only [List.cons.injEq, and_true, reduceCtorEq, and_false] at h <;> omega

/-- A character is a first octet, which is no tail, and tails. -/
theorem encode_shape (h : v ≤ 0x10FFFF) :
    ∃ b ts, encode v = b :: ts ∧ ¬IsTail b ∧ (∀ t ∈ ts, IsTail t) ∧ ts.length ≤ 3 := by
  have hno : ∀ b, 0xC0 ≤ b ∨ b < 0x80 → ¬IsTail b := by
    intro b hb
    unfold IsTail
    omega
  have htail : ∀ y, y < 64 → IsTail (0x80 + y) := fun y hy => ⟨by omega, by omega⟩
  rcases encode_cases h with ⟨hv, he⟩ | ⟨x, y, hx, _, hy, _, he⟩ | ⟨x, y, z, _, hy, hz, _, _, he⟩ |
    ⟨x, y, z, t, _, hy, hz, ht, _, _, he⟩
  · exact ⟨v, [], he, hno v (Or.inr hv), by simp, by simp⟩
  · exact ⟨_, _, he, hno _ (Or.inl (by omega)), by simp [htail y hy], by simp⟩
  · exact ⟨_, _, he, hno _ (Or.inl (by omega)), by simp [htail y hy, htail z hz], by simp⟩
  · exact ⟨_, _, he, hno _ (Or.inl (by omega)), by simp [htail y hy, htail z hz, htail t ht], by simp⟩

/-! ### The grammar -/

/-- `UTF8-1`, `UTF8-2`, `UTF8-3` and `UTF8-4`: for each octet the least and the greatest -/
def rows : List (List (ℕ × ℕ)) :=
  [[(0x00, 0x7F)],
   [(0xC2, 0xDF), (0x80, 0xBF)],
   [(0xE0, 0xE0), (0xA0, 0xBF), (0x80, 0xBF)],
   [(0xE1, 0xEC), (0x80, 0xBF), (0x80, 0xBF)],
   [(0xED, 0xED), (0x80, 0x9F), (0x80, 0xBF)],
   [(0xEE, 0xEF), (0x80, 0xBF), (0x80, 0xBF)],
   [(0xF0, 0xF0), (0x90, 0xBF), (0x80, 0xBF), (0x80, 0xBF)],
   [(0xF1, 0xF3), (0x80, 0xBF), (0x80, 0xBF), (0x80, 0xBF)],
   [(0xF4, 0xF4), (0x80, 0x8F), (0x80, 0xBF), (0x80, 0xBF)]]

def InRange (r : ℕ × ℕ) (b : ℕ) : Prop := r.1 ≤ b ∧ b ≤ r.2

def WellFormed (l : List ℕ) : Prop := ∃ row ∈ rows, List.Forall₂ InRange row l

theorem inRange_iff {lo hi b : ℕ} : InRange (lo, hi) b ↔ lo ≤ b ∧ b ≤ hi := Iff.rfl

theorem wellFormed_two {a b : ℕ} (ha : 0xC2 ≤ a ∧ a ≤ 0xDF) (hb : IsTail b) :
    ∃ v, Scalar v ∧ encode v = [a, b] := by
  unfold IsTail at hb
  refine ⟨(a - 0xC0) * 64 + (b - 0x80), by unfold Scalar; omega, ?_⟩
  rw [encode_two (by omega) (by omega) (by omega)]
  simp only [List.cons.injEq, and_true]
  omega

theorem wellFormed_three {a b c : ℕ} (ha : 0xE0 ≤ a ∧ a ≤ 0xEF) (hb : IsTail b) (hc : IsTail c)
    (hlow : a = 0xE0 → 0xA0 ≤ b) (hsurrogate : a = 0xED → b < 0xA0) : ∃ v, Scalar v ∧ encode v = [a, b, c] := by
  unfold IsTail at hb hc
  refine ⟨(a - 0xE0) * 4096 + (b - 0x80) * 64 + (c - 0x80), by unfold Scalar; omega, ?_⟩
  rw [encode_three (by omega) (by omega) (by omega) (by omega)]
  simp only [List.cons.injEq, and_true]
  omega

theorem wellFormed_four {a b c d : ℕ} (ha : 0xF0 ≤ a ∧ a ≤ 0xF4) (hb : IsTail b) (hc : IsTail c) (hd : IsTail d)
    (hlow : a = 0xF0 → 0x90 ≤ b) (hhigh : a = 0xF4 → b < 0x90) : ∃ v, Scalar v ∧ encode v = [a, b, c, d] := by
  unfold IsTail at hb hc hd
  refine ⟨(a - 0xF0) * 262144 + (b - 0x80) * 4096 + (c - 0x80) * 64 + (d - 0x80), by unfold Scalar; omega, ?_⟩
  rw [encode_four (by omega) (by omega) (by omega) (by omega)]
  simp only [List.cons.injEq, and_true]
  omega

/-- **The grammar derives the sequences of the scalar values** and no others. -/
theorem wellFormed_iff (l : List ℕ) : WellFormed l ↔ ∃ v, Scalar v ∧ encode v = l := by
  constructor
  · rintro ⟨row, hrow, hl⟩
    simp only [rows, List.mem_cons, List.not_mem_nil, or_false] at hrow
    rcases hrow with rfl | rfl | rfl | rfl | rfl | rfl | rfl | rfl | rfl
    · simp only [List.forall₂_cons_left_iff, List.forall₂_nil_left_iff, inRange_iff] at hl
      obtain ⟨a, _, ⟨_, ha⟩, rfl, rfl⟩ := hl
      exact ⟨a, by unfold Scalar; omega, encode_one (by omega)⟩
    · simp only [List.forall₂_cons_left_iff, List.forall₂_nil_left_iff, inRange_iff] at hl
      obtain ⟨a, _, ha, ⟨b, _, hb, rfl, rfl⟩, rfl⟩ := hl
      exact wellFormed_two ha ⟨hb.1, by omega⟩
    all_goals simp only [List.forall₂_cons_left_iff, List.forall₂_nil_left_iff, inRange_iff] at hl
    -- three octets
    iterate 4
      · obtain ⟨a, _, ha, ⟨b, _, hb, ⟨c, _, hc, rfl, rfl⟩, rfl⟩, rfl⟩ := hl
        exact wellFormed_three (by omega) ⟨by omega, by omega⟩ ⟨by omega, by omega⟩ (by omega) (by omega)
    -- four octets
    iterate 3
      · obtain ⟨a, _, ha, ⟨b, _, hb, ⟨c, _, hc, ⟨d, _, hd, rfl, rfl⟩, rfl⟩, rfl⟩, rfl⟩ := hl
        exact wellFormed_four (by omega) ⟨by omega, by omega⟩ ⟨by omega, by omega⟩ ⟨by omega, by omega⟩ (by omega)
          (by omega)
  · rintro ⟨v, ⟨hmax, hno⟩, rfl⟩
    have htail : ∀ {y}, y < 64 → InRange (0x80, 0xBF) (0x80 + y) := fun hy => ⟨by omega, by omega⟩
    rcases encode_cases hmax with ⟨hv, he⟩ | ⟨x, y, hx, hx', hy, hv, he⟩ | ⟨x, y, z, hx, hy, hz, hv, hlow, he⟩ |
      ⟨x, y, z, t, hx, hy, hz, ht, hv, hlow, he⟩ <;> rw [he]
    · exact ⟨[(0x00, 0x7F)], by decide, .cons ⟨by omega, by omega⟩ .nil⟩
    · exact ⟨[(0xC2, 0xDF), (0x80, 0xBF)], by decide, .cons ⟨by omega, by omega⟩ (.cons (htail hy) .nil)⟩
    · have hrest : List.Forall₂ InRange [(0x80, 0xBF)] [0x80 + z] := .cons (htail hz) .nil
      have hcases : x = 0 ∨ 1 ≤ x ∧ x ≤ 12 ∨ x = 13 ∨ 14 ≤ x := by omega
      rcases hcases with h | h | h | h
      · exact ⟨[(0xE0, 0xE0), (0xA0, 0xBF), (0x80, 0xBF)], by decide,
          .cons ⟨by omega, by omega⟩ (.cons ⟨by omega, by omega⟩ hrest)⟩
      · exact ⟨[(0xE1, 0xEC), (0x80, 0xBF), (0x80, 0xBF)], by decide, .cons ⟨by omega, by omega⟩ (.cons (htail hy) hrest)⟩
      · exact ⟨[(0xED, 0xED), (0x80, 0x9F), (0x80, 0xBF)], by decide,
          .cons ⟨by omega, by omega⟩ (.cons ⟨by omega, by omega⟩ hrest)⟩
      · exact ⟨[(0xEE, 0xEF), (0x80, 0xBF), (0x80, 0xBF)], by decide, .cons ⟨by omega, by omega⟩ (.cons (htail hy) hrest)⟩
    · have hrest : List.Forall₂ InRange [(0x80, 0xBF), (0x80, 0xBF)] [0x80 + z, 0x80 + t] :=
        .cons (htail hz) (.cons (htail ht) .nil)
      have hcases : x = 0 ∨ 1 ≤ x ∧ x ≤ 3 ∨ x = 4 := by omega
      rcases hcases with h | h | h
      · exact ⟨[(0xF0, 0xF0), (0x90, 0xBF), (0x80, 0xBF), (0x80, 0xBF)], by decide,
          .cons ⟨by omega, by omega⟩ (.cons ⟨by omega, by omega⟩ hrest)⟩
      · exact ⟨[(0xF1, 0xF3), (0x80, 0xBF), (0x80, 0xBF), (0x80, 0xBF)], by decide,
          .cons ⟨by omega, by omega⟩ (.cons (htail hy) hrest)⟩
      · exact ⟨[(0xF4, 0xF4), (0x80, 0x8F), (0x80, 0xBF), (0x80, 0xBF)], by decide,
          .cons ⟨by omega, by omega⟩ (.cons ⟨by omega, by omega⟩ hrest)⟩

end Forms

/-! ### Texts -/

section Texts

variable {vs : List ℕ} {v n i : ℕ}

def text (vs : List ℕ) : List ℕ := vs.flatMap encode

/-- Where character `n` starts, counted from zero; the end of the text follows the last one. -/
def start (vs : List ℕ) (n : ℕ) : ℕ := (text (vs.take n)).length

theorem length_encode_pos (v : ℕ) : 0 < (encode v).length := by
  unfold encode
  split_ifs <;> exact Nat.zero_lt_succ _

theorem start_zero (vs : List ℕ) : start vs 0 = 0 := rfl

theorem start_length (vs : List ℕ) : start vs vs.length = (text vs).length := by
  unfold start
  rw [List.take_length]

theorem start_succ (h : n < vs.length) : start vs (n + 1) = start vs n + (encode (vs.get ⟨n, h⟩)).length := by
  unfold start text
  rw [List.take_succ_eq_append_getElem h, List.flatMap_append, List.length_append, List.flatMap_singleton]
  rfl

theorem start_lt_succ (h : n < vs.length) : start vs n < start vs (n + 1) := by
  have := length_encode_pos (vs.get ⟨n, h⟩)
  rw [start_succ h]
  omega

theorem start_strictMono {m : ℕ} (h : m < n) (hn : n ≤ vs.length) : start vs m < start vs n := by
  induction n with
  | zero => omega
  | succ n ih =>
    have hstep := start_lt_succ (show n < vs.length by omega)
    by_cases hm : m = n
    · rw [hm]
      exact hstep
    · exact lt_trans (ih (by omega) (by omega)) hstep

theorem start_le_length (h : n ≤ vs.length) : start vs n ≤ (text vs).length := by
  rw [← start_length]
  by_cases hn : n = vs.length
  · rw [hn]
  · exact (start_strictMono (by omega) le_rfl).le

/-- The text from a start on -/
theorem drop_start (h : n < vs.length) :
    (text vs).drop (start vs n) = encode (vs.get ⟨n, h⟩) ++ text (vs.drop (n + 1)) := by
  have hsplit : text vs = text (vs.take n) ++ (encode (vs.get ⟨n, h⟩) ++ text (vs.drop (n + 1))) := by
    conv_lhs => rw [← List.take_append_drop n vs, List.drop_eq_getElem_cons h]
    unfold text
    rw [List.flatMap_append, List.flatMap_cons]
    rfl
  unfold start
  rw [hsplit, List.drop_left]

/-- The first octets are those that are no tails. -/
theorem not_isTail_start (hv : ∀ v ∈ vs, v ≤ 0x10FFFF) (h : n < vs.length) : ¬IsTail ((text vs).getD (start vs n) 0) := by
  obtain ⟨b, ts, he, hb, _⟩ := encode_shape (hv _ (List.get_mem vs ⟨n, h⟩))
  have hdrop := drop_start h
  rw [he, List.cons_append] at hdrop
  have hat : (text vs)[start vs n]? = some b := by
    rw [← List.head?_drop, hdrop]
    rfl
  rw [List.getD_eq_getElem?_getD, hat]
  exact hb

/-- Between two starts are tails. -/
theorem isTail_between (hv : ∀ v ∈ vs, v ≤ 0x10FFFF) (h : n < vs.length) (hlo : start vs n < i)
    (hhi : i < start vs (n + 1)) : IsTail ((text vs).getD i 0) := by
  obtain ⟨b, ts, he, _, hts, _⟩ := encode_shape (hv _ (List.get_mem vs ⟨n, h⟩))
  have hdrop := drop_start h
  rw [start_succ h, he, List.length_cons] at hhi
  rw [he] at hdrop
  obtain ⟨j, rfl⟩ : ∃ j, i = start vs n + (j + 1) := ⟨i - start vs n - 1, by omega⟩
  have hlt : j < ts.length := by omega
  have hat : (text vs)[start vs n + (j + 1)]? = some (ts.get ⟨j, hlt⟩) := by
    rw [← List.getElem?_drop, hdrop, List.cons_append, List.getElem?_cons_succ, List.getElem?_append_left hlt]
    exact List.getElem?_eq_getElem hlt
  rw [List.getD_eq_getElem?_getD, hat]
  exact hts _ (List.get_mem ts _)

end Texts

end Luwu.Utf8
