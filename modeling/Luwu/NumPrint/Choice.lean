import Luwu.NumPrint.Exact

/-!
# The choice among the decimals

What `choose` makes of three boundaries that are rounded to odd: a decimal inside the interval, and none inside that has the same
length is closer.
-/

namespace Luwu.NumPrint

section Choice

variable {xl x xr : ℚ} {out w m j t : ℕ} {k : ℤ}

/-- Four times a number is between the boundaries; with `out` these are outside. -/
structure Inside (out : ℕ) (xl xr : ℚ) (t : ℕ) : Prop where
  low : xl < 4 * t ∨ xl = 4 * t ∧ out = 0
  high : 4 * t < xr ∨ 4 * t = xr ∧ out = 0

/-- Of the multiples of `w` that are inside none is closer. -/
structure Closest (out : ℕ) (xl x xr : ℚ) (w m : ℕ) : Prop where
  inside : Inside out xl xr (w * m)
  closest : ∀ j, Inside out xl xr (w * j) → |((4 * (w * m) : ℕ) : ℚ) - x| ≤ |((4 * (w * j) : ℕ) : ℚ) - x|

theorem Inside.mid {a b : ℕ} (ha : Inside out xl xr a) (hb : Inside out xl xr b) (hat : a ≤ t) (htb : t ≤ b) :
    Inside out xl xr t := by
  have hatq : (a : ℚ) ≤ t := by exact_mod_cast hat
  have htbq : (t : ℚ) ≤ b := by exact_mod_cast htb
  constructor
  · rcases ha.low with h | ⟨h, hout⟩
    · exact Or.inl (by linarith)
    · rcases hatq.lt_or_eq with hlt | heq
      · exact Or.inl (by linarith)
      · exact Or.inr ⟨by rw [h, heq], hout⟩
  · rcases hb.high with h | ⟨h, hout⟩
    · exact Or.inl (by linarith)
    · rcases htbq.lt_or_eq with hlt | heq
      · exact Or.inl (by linarith)
      · exact Or.inr ⟨by rw [← h, heq], hout⟩

/-- The lower one of two multiples of `w` around the number -/
theorem closest_low (hm : 4 * (w * m : ℕ) ≤ x) (hm' : x < 4 * (w * (m + 1) : ℕ)) (hin : Inside out xl xr (w * m))
    (hother : Inside out xl xr (w * (m + 1)) → x ≤ 4 * (w * m : ℕ) + 2 * w) : Closest out xl x xr w m := by
  refine ⟨hin, fun j hj => ?_⟩
  rw [Nat.cast_mul 4, Nat.cast_mul 4, Nat.cast_ofNat, abs_of_nonpos (by linarith)]
  rcases Nat.lt_or_ge m j with hlt | hle
  · have hnext : Inside out xl xr (w * (m + 1)) :=
      hin.mid hj (Nat.mul_le_mul_left w (Nat.le_succ m)) (Nat.mul_le_mul_left w hlt)
    have hjm : ((w * (m + 1) : ℕ) : ℚ) ≤ (w * j : ℕ) := by exact_mod_cast Nat.mul_le_mul_left w hlt
    have hstep : ((w * (m + 1) : ℕ) : ℚ) = (w * m : ℕ) + w := by
      push_cast
      ring
    have hle := hother hnext
    rw [abs_of_nonneg (by linarith)]
    linarith
  · have hjm : ((w * j : ℕ) : ℚ) ≤ (w * m : ℕ) := by exact_mod_cast Nat.mul_le_mul_left w hle
    rw [abs_of_nonpos (by linarith)]
    linarith

theorem closest_high (hm' : x < 4 * (w * (m + 1) : ℕ)) (hin : Inside out xl xr (w * (m + 1)))
    (hother : Inside out xl xr (w * m) → 4 * (w * m : ℕ) + 2 * w ≤ x) : Closest out xl x xr w (m + 1) := by
  refine ⟨hin, fun j hj => ?_⟩
  rw [Nat.cast_mul 4, Nat.cast_mul 4, Nat.cast_ofNat, abs_of_nonneg (by linarith)]
  rcases Nat.lt_or_ge m j with hlt | hle
  · have hjm : ((w * (m + 1) : ℕ) : ℚ) ≤ (w * j : ℕ) := by exact_mod_cast Nat.mul_le_mul_left w hlt
    rw [abs_of_nonneg (by linarith)]
    linarith
  · have hprev : Inside out xl xr (w * m) :=
      hj.mid hin (Nat.mul_le_mul_left w hle) (Nat.mul_le_mul_left w (Nat.le_succ m))
    have hjm : ((w * j : ℕ) : ℚ) ≤ (w * m : ℕ) := by exact_mod_cast Nat.mul_le_mul_left w hle
    have hstep : ((w * (m + 1) : ℕ) : ℚ) = (w * m : ℕ) + w := by
      push_cast
      ring
    have hle' := hother hprev
    rw [abs_of_nonpos (by linarith)]
    linarith

/-! ### The comparisons -/

theorem low_iff (hxl : 0 ≤ xl) (hout : out ≤ 1) : roundOdd xl + out ≤ 4 * t ↔ xl < 4 * t ∨ xl = 4 * t ∧ out = 0 := by
  have hcast : ((2 * (2 * t) : ℕ) : ℚ) = 4 * t := by
    push_cast
    ring
  obtain rfl | rfl : out = 0 ∨ out = 1 := by omega
  · rw [Nat.add_zero, show 4 * t = 2 * (2 * t) by omega, roundOdd_le hxl, hcast, and_iff_left rfl, ← le_iff_lt_or_eq]
  · rw [show 4 * t = 2 * (2 * t) by omega, roundOdd_lt hxl, hcast]
    simp

theorem high_iff (hxr : 0 ≤ xr) (hout : out ≤ 1) : 4 * t + out ≤ roundOdd xr ↔ 4 * t < xr ∨ 4 * t = xr ∧ out = 0 := by
  have hcast : ((2 * (2 * t) : ℕ) : ℚ) = 4 * t := by
    push_cast
    ring
  obtain rfl | rfl : out = 0 ∨ out = 1 := by omega
  · rw [Nat.add_zero, show 4 * t = 2 * (2 * t) by omega, le_roundOdd hxr, hcast, and_iff_left rfl, ← le_iff_lt_or_eq]
  · rw [show 4 * t = 2 * (2 * t) by omega, lt_roundOdd hxr, hcast]
    simp

/-- Below the number only the lower boundary counts, and above it only the upper one. -/
theorem inside_below (hxl : 0 ≤ xl) (hhigh : x < xr) (hout : out ≤ 1) (ht : 4 * t ≤ x) :
    roundOdd xl + out ≤ 4 * t ↔ Inside out xl xr t := by
  rw [low_iff hxl hout]
  exact ⟨fun h => ⟨h, Or.inl (by linarith)⟩, fun h => h.low⟩

theorem inside_above (hxr : 0 ≤ xr) (hlow : xl < x) (hout : out ≤ 1) (ht : x < 4 * t) :
    4 * t + out ≤ roundOdd xr ↔ Inside out xl xr t := by
  rw [high_iff hxr hout]
  exact ⟨fun h => ⟨Or.inl (by linarith), h⟩, fun h => h.high⟩

/-- One of the two integers around the number is inside, if any is. -/
theorem inside_or {s : ℕ} (hlow : xl < x) (hhigh : x < xr) (hs : (4 * s : ℚ) ≤ x) (hs' : x < 4 * (s + 1))
    (hin : ∃ t, Inside out xl xr t) : Inside out xl xr s ∨ Inside out xl xr (s + 1) := by
  obtain ⟨t, ht⟩ := hin
  rcases Nat.lt_or_ge s t with hlt | hle
  · refine Or.inr ⟨Or.inl (by push_cast; linarith), ?_⟩
    have htq : ((s + 1 : ℕ) : ℚ) ≤ t := by exact_mod_cast hlt
    rcases ht.high with h | ⟨h, hout⟩
    · exact Or.inl (by linarith)
    · rcases htq.lt_or_eq with hlt' | heq
      · exact Or.inl (by linarith)
      · exact Or.inr ⟨by rw [heq, h], hout⟩
  · refine Or.inl ⟨?_, Or.inl (by linarith)⟩
    have htq : (t : ℚ) ≤ s := by exact_mod_cast hle
    rcases ht.low with h | ⟨h, hout⟩
    · exact Or.inl (by linarith)
    · rcases htq.lt_or_eq with hlt' | heq
      · exact Or.inl (by linarith)
      · exact Or.inr ⟨by rw [h, heq], hout⟩

/-- Rounding up where both are inside -/
theorem rup_iff {s : ℕ} (hx : 0 ≤ x) :
    4 * s + 2 + 1 - s % 2 ≤ roundOdd x ↔ 4 * s + 2 < x ∨ 4 * s + 2 = x ∧ s % 2 = 1 := by
  have hcast : ((2 * (2 * s + 1) : ℕ) : ℚ) = 4 * s + 2 := by
    push_cast
    ring
  rcases Nat.mod_two_eq_zero_or_one s with hmod | hmod
  · rw [hmod, show 4 * s + 2 + 1 - 0 = 2 * (2 * s + 1) + 1 by omega, lt_roundOdd hx, hcast]
    simp
  · rw [hmod, show 4 * s + 2 + 1 - 1 = 2 * (2 * s + 1) by omega, le_roundOdd hx, hcast, and_iff_left rfl, ← le_iff_lt_or_eq]

/-- The choice between two neighbours -/
theorem near_closest {s : ℕ} (hlow : xl < x) (hhigh : x < xr) (hin : ∃ t, Inside out xl xr t)
    (hs : (4 * s : ℚ) ≤ x) (hs' : x < 4 * (s + 1)) {uin win rup : Bool} (hu : uin = true ↔ Inside out xl xr s)
    (hw : win = true ↔ Inside out xl xr (s + 1)) (hr : rup = true ↔ 4 * s + 2 < x ∨ 4 * s + 2 = x ∧ s % 2 = 1) :
    Closest out xl x xr 1 (s + (if uin != win then win else rup).toNat) := by
  have hs1 : (4 * (1 * s : ℕ) : ℚ) ≤ x := by
    rw [Nat.one_mul]
    exact hs
  have hs2 : x < 4 * (1 * (s + 1) : ℕ) := by
    rw [Nat.one_mul, Nat.cast_add, Nat.cast_one]
    exact hs'
  have hone : ∀ t, Inside out xl xr (1 * t) ↔ Inside out xl xr t := by
    intro t
    rw [Nat.one_mul]
  have hmid : ((1 * s : ℕ) : ℚ) = s := by rw [Nat.one_mul]
  cases uin with
  | true =>
    have hs3 := hu.mp rfl
    cases win with
    | true =>
      have hs4 := hw.mp rfl
      cases rup with
      | true =>
        refine closest_high hs2 ((hone _).mpr hs4) fun _ => ?_
        rw [hmid]
        rcases hr.mp rfl with h | ⟨h, -⟩
        · push_cast
          linarith
        · push_cast
          linarith
      | false =>
        refine closest_low hs1 hs2 ((hone s).mpr hs3) fun _ => ?_
        show x ≤ 4 * (1 * s : ℕ) + 2 * (1 : ℕ)
        rw [hmid]
        have hnot : ¬4 * (s : ℚ) + 2 < x := fun h => Bool.false_ne_true (hr.mpr (Or.inl h))
        push_cast
        linarith
    | false =>
      refine closest_low hs1 hs2 ((hone _).mpr hs3) fun h => ?_
      exact absurd (hw.mpr ((hone _).mp h)) Bool.false_ne_true
  | false =>
    have hs3 : ¬Inside out xl xr s := fun h => Bool.false_ne_true (hu.mpr h)
    have hs4 : Inside out xl xr (s + 1) := (inside_or hlow hhigh hs hs' hin).resolve_left hs3
    rw [hw.mpr hs4]
    exact closest_high hs2 ((hone _).mpr hs4) fun h => absurd ((hone _).mp h) hs3

/-- The choice between two multiples of ten, where only one is inside -/
theorem tens_closest {sp : ℕ} (hs : (40 * sp : ℚ) ≤ x) (hs' : x < 40 * (sp + 1)) {upin wpin : Bool}
    (hu : upin = true ↔ Inside out xl xr (10 * sp)) (hw : wpin = true ↔ Inside out xl xr (10 * (sp + 1))) (hne : upin ≠ wpin) :
    Closest out xl x xr 10 (sp + wpin.toNat) := by
  have hs1 : (4 * (10 * sp : ℕ) : ℚ) ≤ x := by
    push_cast
    linarith
  have hs2 : x < 4 * (10 * (sp + 1) : ℕ) := by
    push_cast
    linarith
  cases wpin with
  | true =>
    have hup : upin = false := Bool.eq_false_iff.mpr hne
    exact closest_high hs2 (hw.mp rfl) fun h => absurd (hu.mpr h) (by rw [hup]; exact Bool.false_ne_true)
  | false =>
    have hup : upin = true := Bool.eq_true_of_not_eq_false hne
    exact closest_low hs1 hs2 (hu.mp hup) fun h => absurd (hw.mpr h) Bool.false_ne_true

/-- **What is chosen**: inside the interval, and none inside of the same length is closer. -/
theorem choose_spec (hxl : 0 ≤ xl) (hlow : xl < x) (hhigh : x < xr) (hout : out ≤ 1) (hin : ∃ t, Inside out xl xr t) (k : ℤ) :
    ∃ d, choose out (roundOdd xl) (roundOdd x) (roundOdd xr) k = d ∧ d.s ≤ ⌊x / 4⌋₊ + 1 ∧
      (d.k = k ∧ Closest out xl x xr 1 d.s ∨ d.k = k + 1 ∧ Closest out xl x xr 10 d.s) := by
  have hx : 0 ≤ x := hxl.trans hlow.le
  have hxr : 0 ≤ xr := hx.trans hhigh.le
  obtain ⟨s, hs⟩ : ∃ s, s = ⌊x / 4⌋₊ := ⟨_, rfl⟩
  have hs1 : (4 * s : ℚ) ≤ x := by
    have h := Nat.floor_le (show 0 ≤ x / 4 by positivity)
    rw [← hs] at h
    linarith
  have hs2 : x < 4 * (s + 1) := by
    have h := Nat.lt_floor_add_one (x / 4)
    rw [← hs] at h
    linarith
  have hcast : (((s + 1 : ℕ) : ℚ)) = s + 1 := Nat.cast_succ s
  have hu : decide (roundOdd xl + out ≤ 4 * s) = true ↔ Inside out xl xr s := by
    rw [decide_eq_true_eq]
    exact inside_below hxl hhigh hout hs1
  have hw : decide (4 * s + 4 + out ≤ roundOdd xr) = true ↔ Inside out xl xr (s + 1) := by
    rw [decide_eq_true_eq]
    exact inside_above hxr hlow hout (by rw [hcast]; exact hs2)
  have hr : decide (4 * s + 2 + 1 - s % 2 ≤ roundOdd x) = true ↔ 4 * s + 2 < x ∨ 4 * s + 2 = x ∧ s % 2 = 1 := by
    rw [decide_eq_true_eq]
    exact rup_iff hx
  have hnear := near_closest hlow hhigh hin hs1 hs2 hu hw hr
  have hnearle : s + (if decide (roundOdd xl + out ≤ 4 * s) != decide (4 * s + 4 + out ≤ roundOdd xr)
      then decide (4 * s + 4 + out ≤ roundOdd xr) else decide (4 * s + 2 + 1 - s % 2 ≤ roundOdd x)).toNat ≤ s + 1 :=
    Nat.add_le_add_left (Bool.toNat_le _) s
  unfold choose
  rw [roundOdd_div_four, ← hs]
  dsimp only
  by_cases hten : 10 ≤ s
  · rw [if_pos hten]
    have hsp := Nat.div_add_mod s 10
    have hmod := Nat.mod_lt s (show 0 < 10 by decide)
    have ht1 : (40 * (s / 10 : ℕ) : ℚ) ≤ x := by
      have h : (10 * (s / 10) : ℕ) ≤ s := by omega
      have hq : ((10 * (s / 10) : ℕ) : ℚ) ≤ s := by exact_mod_cast h
      push_cast at hq ⊢
      linarith
    have ht2 : x < 40 * ((s / 10 : ℕ) + 1) := by
      have h : s + 1 ≤ 10 * (s / 10 + 1) := by omega
      have hq : ((s + 1 : ℕ) : ℚ) ≤ (10 * (s / 10 + 1) : ℕ) := by exact_mod_cast h
      push_cast at hq ⊢
      linarith
    have hup : decide (roundOdd xl + out ≤ 40 * (s / 10)) = true ↔ Inside out xl xr (10 * (s / 10)) := by
      rw [decide_eq_true_eq, show 40 * (s / 10) = 4 * (10 * (s / 10)) by omega]
      refine inside_below hxl hhigh hout ?_
      push_cast at ht1 ⊢
      linarith
    have hwp : decide (40 * (s / 10) + 40 + out ≤ roundOdd xr) = true ↔ Inside out xl xr (10 * (s / 10 + 1)) := by
      rw [decide_eq_true_eq, show 40 * (s / 10) + 40 = 4 * (10 * (s / 10 + 1)) by omega]
      refine inside_above hxr hlow hout ?_
      push_cast at ht2 ⊢
      linarith
    split
    · next hne =>
      refine ⟨_, rfl, ?_, Or.inr ⟨rfl, tens_closest ht1 ht2 hup hwp (bne_iff_ne.mp hne)⟩⟩
      have hbool := Bool.toNat_le (decide (40 * (s / 10) + 40 + out ≤ roundOdd xr))
      show s / 10 + _ ≤ s + 1
      omega
    · exact ⟨_, rfl, hnearle, Or.inl ⟨rfl, hnear⟩⟩
  · rw [if_neg hten]
    exact ⟨_, rfl, hnearle, Or.inl ⟨rfl, hnear⟩⟩

end Choice

end Luwu.NumPrint
