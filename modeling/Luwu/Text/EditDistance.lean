import Luwu.Lib.Edits

/-!
# The edit distance

`editDistance` fills a table with a row for each prefix of one string and a column for each prefix of the other, and a row and a
column more that stand for no prefix.  An access outside the table or the array of the rows stops the run.
-/

namespace Luwu.EditDistance

open Luwu.ListEdits

/-- `distances[pos] = value` -/
def set (distances : List ℕ) (pos value : ℕ) : Option (List ℕ) :=
  if pos < distances.length then some (distances.set pos value) else none

/-- The loop that drops the first characters that match -/
def removePrefix : List UInt8 → List UInt8 → List UInt8 × List UInt8
  | x :: a, y :: b => if x = y then removePrefix a b else (x :: a, y :: b)
  | a, b => (a, b)

/-- The loop that drops the last characters that match, which is the same from the other end -/
def removeSuffix (a b : List UInt8) : List UInt8 × List UInt8 :=
  let (a, b) := removePrefix a.reverse b.reverse
  (a.reverse, b.reverse)

section Table

variable (a b : List UInt8)

def getPos (x y : ℕ) : ℕ := x * (b.length + 2) + y

def maxDistance : ℕ := a.length + b.length

/-- The first column, and the second one -/
def fillRows (distances : List ℕ) : Option (List ℕ) :=
  (List.range (a.length + 1)).foldlM (fun distances x => do
    let distances ← set distances (getPos b (x + 1) 0) (maxDistance a b)
    set distances (getPos b (x + 1) 1) x) distances

/-- The first row, and the second one -/
def fillColumns (distances : List ℕ) : Option (List ℕ) :=
  (List.range (b.length + 1)).foldlM (fun distances y => do
    let distances ← set distances (getPos b 0 (y + 1)) (maxDistance a b)
    set distances (getPos b 1 (y + 1)) y) distances

/-- The body of the inner loop, with `lastMatchedY` -/
def cell (seenCharToRow : List ℕ) (x : ℕ) (s : List ℕ × ℕ) (y : ℕ) : Option (List ℕ × ℕ) := do
  let (distances, lastMatchedY) := s
  let bSeenChar ← b[y - 1]?
  let x1 ← seenCharToRow[bSeenChar.toNat]?
  let y1 := lastMatchedY
  let aChar ← a[x - 1]?
  let cost := if aChar = bSeenChar then 0 else 1
  let lastMatchedY := if aChar = bSeenChar then y else lastMatchedY
  let transposition := (← distances[getPos b x1 y1]?) + (x - x1 - 1) + 1 + (y - y1 - 1)
  let substitution := (← distances[getPos b x y]?) + cost
  let insertion := (← distances[getPos b x (y + 1)]?) + 1
  let deletion := (← distances[getPos b (x + 1) y]?) + 1
  let distances ← set distances (getPos b (x + 1) (y + 1)) (min (min insertion deletion) (min substitution transposition))
  return (distances, lastMatchedY)

/-- The body of the outer loop, with `seenCharToRow` -/
def row (s : List ℕ × List ℕ) (x : ℕ) : Option (List ℕ × List ℕ) := do
  let (distances, seenCharToRow) := s
  let (distances, _) ← (List.range b.length).foldlM (fun s k => cell a b seenCharToRow x s (k + 1)) (distances, 0)
  let aSeenChar ← a[x - 1]?
  let seenCharToRow ← set seenCharToRow aSeenChar.toNat x
  return (distances, seenCharToRow)

/-- What is left of `editDistance` when the strings have neither a first nor a last character in common -/
def fillTable : Option ℕ := do
  let distances := List.replicate ((a.length + 2) * (b.length + 2)) 0
  let distances ← set distances 0 (maxDistance a b)
  let distances ← fillRows a b distances
  let distances ← fillColumns a b distances
  let (distances, _) ← (List.range a.length).foldlM (fun s k => row a b s (k + 1)) (distances, List.replicate 256 0)
  distances[getPos b (a.length + 1) (b.length + 1)]?

end Table

def editDistance (a b : List UInt8) : Option ℕ :=
  let (a, b) := removePrefix a b
  let (a, b) := removeSuffix a b
  if a.isEmpty then some b.length
  else if b.isEmpty then some a.length
  else fillTable a b

/-! ### What matches at the ends -/

variable {a b : List UInt8} {d d' : List ℕ} {x y v v' i j k n : ℕ} {c : UInt8}

theorem distance_removePrefix (a b : List UInt8) : distance (removePrefix a b).1 (removePrefix a b).2 = distance a b := by
  fun_induction removePrefix a b with
  | case1 x a b ih => rw [ih, distance_cons_cons]
  | case2 x a y b hne => rfl
  | case3 a b h => rfl

theorem distance_removeSuffix (a b : List UInt8) : distance (removeSuffix a b).1 (removeSuffix a b).2 = distance a b := by
  unfold removeSuffix
  dsimp only
  rw [distance_reverse, distance_removePrefix, distance_reverse]

/-! ### Accesses to the table -/

theorem set_of_lt (h : n < d.length) : set d n v = some (d.set n v) := if_pos h

theorem getPos_lt (hx : x < a.length + 2) (hy : y < b.length + 2) : getPos b x y < (a.length + 2) * (b.length + 2) := by
  have hrow : (x + 1) * (b.length + 2) ≤ (a.length + 2) * (b.length + 2) := Nat.mul_le_mul_right _ hx
  unfold getPos
  rw [Nat.succ_mul] at hrow
  omega

theorem getPos_inj (hy : y < b.length + 2) (hj : j < b.length + 2) : getPos b x y = getPos b i j ↔ x = i ∧ y = j := by
  constructor
  · intro h
    unfold getPos at h
    have hpos : 0 < b.length + 2 := by omega
    have hx : x = i := by
      have hdiv := congrArg (· / (b.length + 2)) h
      simpa [Nat.mul_comm _ (b.length + 2), Nat.mul_add_div hpos, Nat.div_eq_of_lt hy, Nat.div_eq_of_lt hj] using hdiv
    subst hx
    exact ⟨rfl, by omega⟩
  · rintro ⟨rfl, rfl⟩
    rfl

/-- What a cell of the table should hold -/
noncomputable def expected (a b : List UInt8) (x y : ℕ) : ℕ :=
  if x = 0 ∨ y = 0 then maxDistance a b else distance (a.take (x - 1)) (b.take (y - 1))

/-- The table, as far as it is filled -/
structure Filled (a b : List UInt8) (P : ℕ → ℕ → Prop) (d : List ℕ) : Prop where
  length : d.length = (a.length + 2) * (b.length + 2)
  holds : ∀ x y, x < a.length + 2 → y < b.length + 2 → P x y → d[getPos b x y]? = some (expected a b x y)

variable {P P' : ℕ → ℕ → Prop}

theorem Filled.imp (h : Filled a b P d) (hP : ∀ x y, x < a.length + 2 → y < b.length + 2 → P' x y → P x y) :
    Filled a b P' d :=
  ⟨h.length, fun x y hx hy hxy => h.holds x y hx hy (hP x y hx hy hxy)⟩

/-- A cell is filled. -/
theorem Filled.set (h : Filled a b P d) (hx : x < a.length + 2) (hy : y < b.length + 2) (hv : v = expected a b x y) :
    ∃ d', set d (getPos b x y) v = some d' ∧ Filled a b (fun i j => P i j ∨ (i = x ∧ j = y)) d' := by
  have hlt : getPos b x y < d.length := by
    rw [h.length]
    exact getPos_lt hx hy
  refine ⟨d.set (getPos b x y) v, set_of_lt hlt, by rw [List.length_set, h.length], fun i j hi hj hP => ?_⟩
  rw [List.getElem?_set]
  split
  · next heq =>
    obtain ⟨rfl, rfl⟩ := (getPos_inj hy hj).mp heq
    rw [hv]
  · next hne =>
    obtain hP | heq := hP
    · exact h.holds i j hi hj hP
    · exact absurd ((getPos_inj hy hj).mpr ⟨heq.1.symm, heq.2.symm⟩) hne

/-- An invariant of a loop that does not stop -/
theorem foldlM_range {σ : Type} {I : ℕ → σ → Prop} {f : σ → ℕ → Option σ} {s : σ} (h0 : I 0 s) :
    ∀ n, (∀ k < n, ∀ s, I k s → ∃ s', f s k = some s' ∧ I (k + 1) s') →
      ∃ s', (List.range n).foldlM f s = some s' ∧ I n s'
  | 0, _ => ⟨s, rfl, h0⟩
  | n + 1, hstep => by
    obtain ⟨s', hrun, hI⟩ := foldlM_range h0 n fun k hk => hstep k (by omega)
    obtain ⟨s'', hlast, hI'⟩ := hstep n (by omega) s' hI
    refine ⟨s'', ?_, hI'⟩
    rw [List.range_succ, List.foldlM_append, hrun]
    simpa using hlast

/-! ### The first rows and columns -/

theorem expected_column (hx : x ≤ a.length) : expected a b (x + 1) 1 = x := by
  unfold expected
  rw [if_neg (by omega), distance_comm]
  simpa [distance_nil] using hx

theorem expected_row (hy : y ≤ b.length) : expected a b 1 (y + 1) = y := by
  unfold expected
  rw [if_neg (by omega)]
  simpa [distance_nil] using hy

theorem fillRows_filled (h : Filled a b (fun x y => x = 0 ∧ y = 0) d) :
    ∃ d', fillRows a b d = some d' ∧ Filled a b (fun x y => y = 0 ∨ (x ≠ 0 ∧ y ≤ 1)) d' := by
  unfold fillRows
  have hstart : Filled a b (fun x y => (x = 0 ∧ y = 0) ∨ (x ≠ 0 ∧ x ≤ 0 ∧ y ≤ 1)) d :=
    h.imp fun x y _ _ hxy => by omega
  apply Exists.elim (foldlM_range
    (I := fun k => Filled a b fun x y => (x = 0 ∧ y = 0) ∨ (x ≠ 0 ∧ x ≤ k ∧ y ≤ 1)) hstart (a.length + 1) ?_)
  · rintro d' ⟨hrun, hd'⟩
    exact ⟨d', hrun, hd'.imp fun x y hx _ hxy => by omega⟩
  · intro k hk d hd
    obtain ⟨d₁, hset, hd₁⟩ := hd.set (x := k + 1) (y := 0) (v := maxDistance a b) (by omega) (by omega) (if_pos (Or.inr rfl)).symm
    obtain ⟨d₂, hset', hd₂⟩ := hd₁.set (x := k + 1) (y := 1) (v := k) (by omega) (by omega)
      (expected_column (by omega)).symm
    refine ⟨d₂, ?_, hd₂.imp fun x y _ _ hxy => by omega⟩
    rw [hset]
    exact hset'

theorem fillColumns_filled (h : Filled a b (fun x y => y = 0 ∨ (x ≠ 0 ∧ y ≤ 1)) d) :
    ∃ d', fillColumns a b d = some d' ∧ Filled a b (fun x y => x ≤ 1 ∨ y ≤ 1) d' := by
  unfold fillColumns
  have hstart : Filled a b (fun x y => (y = 0 ∨ (x ≠ 0 ∧ y ≤ 1)) ∨ (x ≤ 1 ∧ y ≤ 0)) d :=
    h.imp fun x y _ _ hxy => by omega
  apply Exists.elim (foldlM_range
    (I := fun k => Filled a b fun x y => (y = 0 ∨ (x ≠ 0 ∧ y ≤ 1)) ∨ (x ≤ 1 ∧ y ≤ k)) hstart (b.length + 1) ?_)
  · rintro d' ⟨hrun, hd'⟩
    exact ⟨d', hrun, hd'.imp fun x y _ hy hxy => by omega⟩
  · intro k hk d hd
    obtain ⟨d₁, hset, hd₁⟩ := hd.set (x := 0) (y := k + 1) (v := maxDistance a b) (by omega) (by omega) (if_pos (Or.inl rfl)).symm
    obtain ⟨d₂, hset', hd₂⟩ := hd₁.set (x := 1) (y := k + 1) (v := k) (by omega) (by omega)
      (expected_row (by omega)).symm
    refine ⟨d₂, ?_, hd₂.imp fun x y _ _ hxy => by omega⟩
    rw [hset]
    exact hset'

/-! ### Where a character was last seen -/

/-- The last of the first `n` characters that is `c`, counted from one, or zero when there is none -/
def Last (a : List UInt8) (n : ℕ) (c : UInt8) (r : ℕ) : Prop :=
  (r = 0 ∧ ∀ p < n, a[p]? ≠ some c) ∨
    ∃ p < n, r = p + 1 ∧ a[p]? = some c ∧ ∀ q, p < q → q < n → a[q]? ≠ some c

theorem last_zero : Last a 0 c 0 := Or.inl ⟨rfl, fun p hp => absurd hp (Nat.not_lt_zero p)⟩

theorem last_here (h : a[n]? = some c) : Last a (n + 1) c (n + 1) :=
  Or.inr ⟨n, by omega, rfl, h, fun q hq hq' => by omega⟩

theorem Last.next {r : ℕ} (h : Last a n c r) (hne : a[n]? ≠ some c) : Last a (n + 1) c r := by
  have hall : ∀ q < n + 1, q = n ∨ q < n := fun q hq => by omega
  obtain ⟨hr, hnone⟩ | ⟨p, hp, hr, hat, hnone⟩ := h
  · refine Or.inl ⟨hr, fun q hq => ?_⟩
    obtain rfl | hlt := hall q hq
    · exact hne
    · exact hnone q hlt
  · refine Or.inr ⟨p, by omega, hr, hat, fun q hpq hq => ?_⟩
    obtain rfl | hlt := hall q hq
    · exact hne
    · exact hnone q hpq hlt

theorem Last.le {r : ℕ} (h : Last a n c r) : r ≤ n := by
  obtain ⟨hr, -⟩ | ⟨p, hp, hr, -⟩ := h <;> omega

/-- A prefix that ends before `c` is no longer than the one before the last `c`. -/
theorem Last.split {r : ℕ} {a' u : List UInt8} (h : Last a n c r) (hn : n ≤ a.length) (heq : a.take n = a' ++ c :: u) :
    ∃ p < n, r = p + 1 ∧ a'.length ≤ p ∧ a' = a.take a'.length ∧ u.length + a'.length + 1 = n := by
  have hlength : u.length + a'.length + 1 = n := by
    have := congrArg List.length heq
    rw [List.length_take_of_le hn, List.length_append, List.length_cons] at this
    omega
  have hat : a[a'.length]? = some c := by
    have : (a.take n)[a'.length]? = (a' ++ c :: u)[a'.length]? := by rw [heq]
    rw [List.getElem?_take_of_lt (by omega), List.getElem?_append_right le_rfl, Nat.sub_self] at this
    exact this
  have hprefix : a' = a.take a'.length := by
    have := congrArg (List.take a'.length) heq
    rw [List.take_take, Nat.min_eq_left (by omega), List.take_left] at this
    exact this.symm
  obtain ⟨-, hnone⟩ | ⟨p, hp, hr, -, hnone⟩ := h
  · exact absurd hat (hnone a'.length (by omega))
  · refine ⟨p, hp, hr, ?_, hprefix, hlength⟩
    by_contra hlt
    exact hnone a'.length (by omega) (by omega) hat

/-- The letters of a prefix, around the one at `p` -/
theorem take_around {p : ℕ} (hp : p < n) (hn : n ≤ a.length) (hat : a[p]? = some c) :
    a.take n = a.take p ++ c :: (a.take n).drop (p + 1) ∧ ((a.take n).drop (p + 1)).length = n - p - 1 := by
  have hlt : p < (a.take n).length := by
    rw [List.length_take_of_le hn]
    exact hp
  constructor
  · have hsplit := (List.take_append_drop p (a.take n)).symm
    rw [List.drop_eq_getElem_cons hlt, List.take_take, Nat.min_eq_left (by omega)] at hsplit
    have hc : (a.take n)[p] = c := by
      rw [List.getElem_take]
      exact (List.getElem?_eq_some_iff.mp hat).2
    rw [hc] at hsplit
    exact hsplit
  · rw [List.length_drop, List.length_take_of_le hn]
    omega

/-- A prefix is as far from a longer one as there are letters between them. -/
theorem distance_take_le {p q p' q' : ℕ} (hp : p' ≤ p) (hq : q' ≤ q) :
    distance (a.take p) (b.take q) ≤ distance (a.take p') (b.take q') + (p - p') + (q - q') := by
  have h := distance_append_le (a.take p') (b.take q') ((a.take p).drop p') ((b.take q).drop q')
  have hcut : ∀ (l : List UInt8) {m n : ℕ}, m ≤ n → l.take m ++ (l.take n).drop m = l.take n := by
    intro l m n hle
    have := List.take_append_drop m (l.take n)
    rwa [List.take_take, Nat.min_eq_left hle] at this
  rw [hcut a hp, hcut b hq, List.length_drop, List.length_drop, List.length_take, List.length_take] at h
  omega

/-! ### A cell -/

/-- The transposition of the last characters with those that were seen last, or a cost that is too high -/
theorem transposition_spec {x1 y1 t : ℕ} {bc ac : UInt8} (hi : i < a.length) (hj : j < b.length) (hx : Last a i bc x1)
    (hy : Last b j ac y1)
    (ht : t = expected a b x1 y1 + (i + 1 - x1 - 1) + 1 + (j + 1 - y1 - 1)) :
    distance (a.take i ++ [ac]) (b.take j ++ [bc]) ≤ t ∧
      ∀ a' u b' v, a.take i = a' ++ bc :: u → b.take j = b' ++ ac :: v → t ≤ distance a' b' + u.length + v.length + 1 := by
  constructor
  · by_cases hzero : x1 = 0 ∨ y1 = 0
    · have hmax : t = maxDistance a b + (i + 1 - x1 - 1) + 1 + (j + 1 - y1 - 1) := by
        rw [ht, expected, if_pos hzero]
      have hle := distance_append_le [] [] (a.take i ++ [ac]) (b.take j ++ [bc])
      rw [distance_eq_zero.mpr rfl] at hle
      simp only [List.nil_append, List.length_append, List.length_take, List.length_singleton] at hle
      unfold maxDistance at hmax
      omega
    · obtain ⟨hx0, -⟩ | ⟨p, hp, rfl, hpat, -⟩ := hx
      · exact absurd (Or.inl hx0) hzero
      obtain ⟨hy0, -⟩ | ⟨q, hq, rfl, hqat, -⟩ := hy
      · exact absurd (Or.inr hy0) hzero
      obtain ⟨ha, hu⟩ := take_around hp (by omega) hpat
      obtain ⟨hb, hv⟩ := take_around hq (by omega) hqat
      have hswap := distance_swap_le ac bc (a.take p) ((a.take i).drop (p + 1)) (b.take q) ((b.take j).drop (q + 1))
      rw [← ha, ← hb, hu, hv] at hswap
      rw [expected, if_neg hzero, Nat.add_sub_cancel, Nat.add_sub_cancel] at ht
      omega
  · intro a' u b' v ha hb
    obtain ⟨p, hp, rfl, hle, ha', hu⟩ := hx.split (by omega) ha
    obtain ⟨q, hq, rfl, hle', hb', hv⟩ := hy.split (by omega) hb
    rw [expected, if_neg (by omega), Nat.add_sub_cancel, Nat.add_sub_cancel] at ht
    have htake := distance_take_le (a := a) (b := b) hle hle'
    rw [← ha', ← hb'] at htake
    omega

theorem take_succ_concat (hat : a[n]? = some c) : a.take (n + 1) = a.take n ++ [c] := by
  rw [List.take_add_one, hat]
  rfl

/-- The cells that are filled when `k` rows and `l` cells of the next one are -/
def Before (k l x y : ℕ) : Prop := x ≤ k + 1 ∨ y ≤ 1 ∨ (x = k + 2 ∧ y ≤ l + 1)

/-- What the rows were when each character was seen last -/
def Seen (a : List UInt8) (n : ℕ) (seenCharToRow : List ℕ) : Prop :=
  ∀ c : UInt8, ∃ r, seenCharToRow[c.toNat]? = some r ∧ Last a n c r

theorem cell_filled {seenCharToRow : List ℕ} {lastMatchedY : ℕ} {ac : UInt8} (hi : i < a.length) (hj : j < b.length)
    (hac : a[i]? = some ac) (hseen : Seen a i seenCharToRow) (hlast : Last b j ac lastMatchedY)
    (hd : Filled a b (Before i j) d) :
    ∃ d' r, cell a b seenCharToRow (i + 1) (d, lastMatchedY) (j + 1) = some (d', r) ∧ Filled a b (Before i (j + 1)) d' ∧
      Last b (j + 1) ac r := by
  obtain ⟨bc, hbc⟩ : ∃ bc, b[j]? = some bc := ⟨b[j], List.getElem?_eq_getElem hj⟩
  obtain ⟨x1, hx1, hlastX⟩ := hseen bc
  have hx1le := hlastX.le
  have hy1le := hlast.le
  have htransposition := hd.holds x1 lastMatchedY (by omega) (by omega) (Or.inl (by omega))
  have hsubstitution := hd.holds (i + 1) (j + 1) (by omega) (by omega) (Or.inl le_rfl)
  have hinsertion := hd.holds (i + 1) (j + 1 + 1) (by omega) (by omega) (Or.inl le_rfl)
  have hdeletion := hd.holds (i + 1 + 1) (j + 1) (by omega) (by omega) (Or.inr (Or.inr ⟨rfl, le_rfl⟩))
  obtain ⟨hle, hswap⟩ := transposition_spec hi hj hlastX hlast rfl
  have hcell := distance_concat hle hswap
  have hexpected : ∀ x y, expected a b (x + 1) (y + 1) = distance (a.take x) (b.take y) := by
    intro x y
    rw [expected, if_neg (by omega), Nat.add_sub_cancel, Nat.add_sub_cancel]
  rw [← take_succ_concat hac, ← take_succ_concat hbc, ← hexpected, ← hexpected, ← hexpected, ← hexpected] at hcell
  obtain ⟨d', hset, hd'⟩ := hd.set (x := i + 1 + 1) (y := j + 1 + 1) (by omega) (by omega) hcell.symm
  refine ⟨d', if ac = bc then j + 1 else lastMatchedY, ?_, hd'.imp fun x y _ _ hxy => ?_, ?_⟩
  · simp only [cell, Nat.add_sub_cancel, hbc, hx1, hac, htransposition, hsubstitution, hinsertion, hdeletion,
      Option.pure_def, Option.bind_eq_bind, Option.bind_some, hset]
  · unfold Before at hxy ⊢
    omega
  · split
    · next heq =>
      rw [heq]
      exact last_here hbc
    · next hne =>
      apply hlast.next
      rw [hbc]
      exact fun heq => hne (Option.some.inj heq).symm

theorem row_filled {seenCharToRow : List ℕ} (hi : i < a.length) (hlength : seenCharToRow.length = 256)
    (hseen : Seen a i seenCharToRow) (hd : Filled a b (Before i 0) d) :
    ∃ d' seenCharToRow', row a b (d, seenCharToRow) (i + 1) = some (d', seenCharToRow') ∧
      seenCharToRow'.length = 256 ∧ Seen a (i + 1) seenCharToRow' ∧ Filled a b (Before (i + 1) 0) d' := by
  obtain ⟨ac, hac⟩ : ∃ ac, a[i]? = some ac := ⟨a[i], List.getElem?_eq_getElem hi⟩
  obtain ⟨⟨d', r⟩, hrun, hd', -⟩ := foldlM_range (f := fun s k => cell a b seenCharToRow (i + 1) s (k + 1))
    (I := fun k s => Filled a b (Before i k) s.1 ∧ Last b k ac s.2) (s := (d, 0)) ⟨hd, last_zero⟩ b.length
    fun k hk s hs => by
      obtain ⟨d', r, hcell, hs'⟩ := cell_filled hi hk hac hseen hs.2 hs.1
      exact ⟨(d', r), hcell, hs'⟩
  have hlt : ac.toNat < seenCharToRow.length := by
    rw [hlength]
    exact ac.toNat_lt
  refine ⟨d', seenCharToRow.set ac.toNat (i + 1), ?_, by rw [List.length_set, hlength], fun c => ?_,
    hd'.imp fun x y hx hy hxy => ?_⟩
  · simp only [row, hrun, Nat.add_sub_cancel, hac, set_of_lt hlt, Option.pure_def, Option.bind_eq_bind, Option.bind_some]
  · obtain ⟨r, hr, hlast⟩ := hseen c
    rw [List.getElem?_set]
    split
    · next heq =>
      rw [UInt8.toNat_inj.mp heq] at hac
      exact ⟨i + 1, rfl, last_here hac⟩
    · next hne =>
      refine ⟨r, hr, hlast.next ?_⟩
      rw [hac]
      exact fun heq => hne (congrArg UInt8.toNat (Option.some.inj heq))
  · unfold Before at hxy ⊢
    omega

/-- The table is filled without an access outside of it, and its last cell is the distance. -/
theorem fillTable_eq (a b : List UInt8) : fillTable a b = some (distance a b) := by
  have hempty : Filled a b (fun _ _ => False) (List.replicate ((a.length + 2) * (b.length + 2)) 0) :=
    ⟨List.length_replicate, fun x y _ _ h => h.elim⟩
  obtain ⟨d₀, hset, hd₀⟩ := hempty.set (x := 0) (y := 0) (v := maxDistance a b) (by omega) (by omega) (if_pos (Or.inl rfl)).symm
  obtain ⟨d₁, hrows, hd₁⟩ := fillRows_filled (hd₀.imp fun x y _ _ h => Or.inr h)
  obtain ⟨d₂, hcolumns, hd₂⟩ := fillColumns_filled hd₁
  have hseen : Seen a 0 (List.replicate 256 0) :=
    fun c => ⟨0, by rw [List.getElem?_replicate, if_pos c.toNat_lt], last_zero⟩
  have hstart : Filled a b (Before 0 0) d₂ := by
    refine hd₂.imp fun x y _ _ h => ?_
    unfold Before at h
    omega
  obtain ⟨⟨d₃, seenCharToRow⟩, hrun, -, -, hd₃⟩ := foldlM_range (f := fun s k => row a b s (k + 1))
    (I := fun k s => s.2.length = 256 ∧ Seen a k s.2 ∧ Filled a b (Before k 0) s.1) (s := (d₂, List.replicate 256 0))
    ⟨List.length_replicate, hseen, hstart⟩ a.length fun k hk s hs => by
      obtain ⟨d', seenCharToRow', hrow, hs'⟩ := row_filled hk hs.1 hs.2.1 hs.2.2
      exact ⟨(d', seenCharToRow'), hrow, hs'⟩
  have hcell := hd₃.holds (a.length + 1) (b.length + 1) (by omega) (by omega) (Or.inl le_rfl)
  rw [expected, if_neg (by omega), Nat.add_sub_cancel, Nat.add_sub_cancel, List.take_length, List.take_length] at hcell
  have hzero : getPos b 0 0 = 0 := by simp [getPos]
  rw [hzero] at hset
  simp only [fillTable, hset, hrows, hcolumns, hrun, hcell, Option.bind_eq_bind, Option.bind_some]

theorem editDistance_eq (a b : List UInt8) : editDistance a b = some (distance a b) := by
  rw [← distance_removePrefix a b, ← distance_removeSuffix]
  unfold editDistance
  dsimp only
  generalize (removeSuffix (removePrefix a b).1 (removePrefix a b).2).1 = u
  generalize (removeSuffix (removePrefix a b).1 (removePrefix a b).2).2 = v
  split
  · next h => rw [List.isEmpty_iff.mp h, distance_nil]
  · split
    · next h => rw [List.isEmpty_iff.mp h, distance_comm, distance_nil]
    · exact fillTable_eq u v

/-- Another letter is inserted between the two that are swapped. -/
example : editDistance [99, 97] [97, 98, 99] = some 2 := by decide +kernel

end Luwu.EditDistance
