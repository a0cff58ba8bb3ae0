import Mathlib.Tactic

/-!
# Edits of lists

An edit inserts, deletes or replaces a letter, or swaps two neighbours, and the distance of two lists is the least
number of edits that lead from one to the other (`dist`).  A list is `Near` another when it is so by a walk through both
in which letters that are swapped may have other letters deleted and inserted between them; that no letter is
touched twice costs nothing (`near_iff`).
-/

namespace Luwu.ListEdits

variable {α : Type*} {a a' b b' c : List α} {m n : ℕ}

inductive Edit : List α → List α → Prop where
  | insert (x : α) (a : List α) : Edit a (x :: a)
  | delete (x : α) (a : List α) : Edit (x :: a) a
  | replace (x y : α) (a : List α) : Edit (x :: a) (y :: a)
  | swap (x y : α) (a : List α) : Edit (x :: y :: a) (y :: x :: a)
  | later (x : α) {a b : List α} (h : Edit a b) : Edit (x :: a) (x :: b)

/-- `n` edits, one after another -/
inductive Edits : ℕ → List α → List α → Prop where
  | refl (a : List α) : Edits 0 a a
  | cons {n : ℕ} {a b c : List α} (h : Edit a b) (hs : Edits n b c) : Edits (n + 1) a c

theorem Edit.symm (h : Edit a b) : Edit b a := by
  induction h with
  | insert x a => exact .delete x a
  | delete x a => exact .insert x a
  | replace x y a => exact .replace y x a
  | swap x y a => exact .swap y x a
  | later x _ ih => exact .later x ih

theorem Edit.append_left (u : List α) (h : Edit a b) : Edit (u ++ a) (u ++ b) := by
  induction u with
  | nil => exact h
  | cons x u ih => exact .later x ih

theorem Edit.append_right (v : List α) (h : Edit a b) : Edit (a ++ v) (b ++ v) := by
  induction h with
  | insert x a => exact .insert x (a ++ v)
  | delete x a => exact .delete x (a ++ v)
  | replace x y a => exact .replace x y (a ++ v)
  | swap x y a => exact .swap x y (a ++ v)
  | later x _ ih => exact .later x ih

theorem Edit.reverse (h : Edit a b) : Edit a.reverse b.reverse := by
  induction h with
  | insert x a => simpa using (Edit.insert x []).append_left a.reverse
  | delete x a => simpa using (Edit.delete x []).append_left a.reverse
  | replace x y a => simpa using (Edit.replace x y []).append_left a.reverse
  | swap x y a => simpa using (Edit.swap y x []).append_left a.reverse
  | later x _ ih => simpa using ih.append_right [x]

theorem Edit.length_le (h : Edit a b) : b.length ≤ a.length + 1 := by
  induction h <;> simp only [List.length_cons] <;> omega

/-- An edit of two lists in a row is an edit of one of them, or swaps the letters where they meet. -/
theorem Edit.append_cases {u v w : List α} (h : Edit (u ++ v) w) :
    (∃ u', Edit u u' ∧ w = u' ++ v) ∨ (∃ v', Edit v v' ∧ w = u ++ v') ∨
      ∃ u' x y v', u = u' ++ [x] ∧ v = y :: v' ∧ w = u' ++ y :: x :: v' := by
  induction u generalizing w with
  | nil => exact Or.inr (Or.inl ⟨w, h, rfl⟩)
  | cons x u ih =>
    rw [List.cons_append] at h
    generalize hl : u ++ v = l at h ih
    cases h with
    | insert y _ => exact Or.inl ⟨y :: x :: u, .insert y (x :: u), by rw [← hl]; rfl⟩
    | delete _ _ => exact Or.inl ⟨u, .delete x u, hl.symm⟩
    | replace _ y _ => exact Or.inl ⟨y :: u, .replace x y u, by rw [← hl]; rfl⟩
    | swap _ y rest =>
      cases u with
      | nil => exact Or.inr (Or.inr ⟨[], x, y, rest, rfl, hl, rfl⟩)
      | cons z u =>
        obtain ⟨rfl, rfl⟩ := List.cons.inj hl
        exact Or.inl ⟨z :: x :: u, .swap x z u, rfl⟩
    | later _ h =>
      obtain ⟨u', hu, rfl⟩ | ⟨v', hv, rfl⟩ | ⟨u', y, z, v', rfl, rfl, rfl⟩ := ih h
      · exact Or.inl ⟨x :: u', .later x hu, rfl⟩
      · exact Or.inr (Or.inl ⟨v', hv, rfl⟩)
      · exact Or.inr (Or.inr ⟨x :: u', y, z, v', rfl, rfl, rfl⟩)

namespace Edits

theorem single (h : Edit a b) : Edits 1 a b := .cons h (.refl b)

theorem trans (h : Edits m a b) (h' : Edits n b c) : Edits (m + n) a c := by
  induction h with
  | refl a => simpa using h'
  | cons he _ ih =>
    rw [Nat.succ_add]
    exact .cons he (ih h')

theorem symm (h : Edits n a b) : Edits n b a := by
  induction h with
  | refl a => exact .refl a
  | cons he _ ih => exact ih.trans (single he.symm)

theorem map {f : List α → List α} (hf : ∀ a b, Edit a b → Edit (f a) (f b)) (h : Edits n a b) :
    Edits n (f a) (f b) := by
  induction h with
  | refl a => exact .refl (f a)
  | cons he _ ih => exact .cons (hf _ _ he) ih

theorem later (x : α) (h : Edits n a b) : Edits n (x :: a) (x :: b) := h.map fun _ _ => .later x

theorem append_left (u : List α) (h : Edits n a b) : Edits n (u ++ a) (u ++ b) := h.map fun _ _ => .append_left u

theorem reverse (h : Edits n a b) : Edits n a.reverse b.reverse := h.map fun _ _ => .reverse

theorem eq_of_zero (h : Edits 0 a b) : a = b := by
  cases h
  rfl

theorem delete_all (u a : List α) : Edits u.length (u ++ a) a := by
  induction u with
  | nil => exact .refl a
  | cons x u ih => exact .cons (.delete x (u ++ a)) ih

theorem insert_all (u a : List α) : Edits u.length a (u ++ a) := (delete_all u a).symm

end Edits

/-! ### Walks through two lists -/

inductive Near : ℕ → List α → List α → Prop where
  | nil (n : ℕ) : Near n [] []
  | delete (x : α) {n : ℕ} {a b : List α} (h : Near n a b) : Near (n + 1) (x :: a) b
  | insert (y : α) {n : ℕ} {a b : List α} (h : Near n a b) : Near (n + 1) a (y :: b)
  | keep (x : α) {n : ℕ} {a b : List α} (h : Near n a b) : Near n (x :: a) (x :: b)
  | replace (x y : α) {n : ℕ} {a b : List α} (h : Near n a b) : Near (n + 1) (x :: a) (y :: b)
  | swap (x y : α) (u v : List α) {n : ℕ} {a b : List α} (h : Near n a b) :
      Near (n + u.length + v.length + 1) (x :: (u ++ y :: a)) (y :: (v ++ x :: b))

namespace Near

theorem mono (h : Near m a b) (hle : m ≤ n) : Near n a b := by
  induction h generalizing n with
  | nil => exact .nil n
  | delete x _ ih =>
    obtain ⟨n, rfl⟩ : ∃ k, n = k + 1 := ⟨n - 1, by omega⟩
    exact .delete x (ih (by omega))
  | insert y _ ih =>
    obtain ⟨n, rfl⟩ : ∃ k, n = k + 1 := ⟨n - 1, by omega⟩
    exact .insert y (ih (by omega))
  | keep x _ ih => exact .keep x (ih hle)
  | replace x y _ ih =>
    obtain ⟨n, rfl⟩ : ∃ k, n = k + 1 := ⟨n - 1, by omega⟩
    exact .replace x y (ih (by omega))
  | swap x y u v _ ih =>
    obtain ⟨n, rfl⟩ : ∃ k, n = k + u.length + v.length + 1 := ⟨n - u.length - v.length - 1, by omega⟩
    exact .swap x y u v (ih (by omega))

theorem refl (n : ℕ) (a : List α) : Near n a a := by
  induction a with
  | nil => exact .nil n
  | cons x a ih => exact .keep x ih

theorem symm (h : Near n a b) : Near n b a := by
  induction h with
  | nil n => exact .nil n
  | delete x _ ih => exact .insert x ih
  | insert y _ ih => exact .delete y ih
  | keep x _ ih => exact .keep x ih
  | replace x y _ ih => exact .replace y x ih
  | swap x y u v _ ih => exact (Near.swap y x v u ih).mono (by omega)

theorem delete_all (u : List α) (h : Near n a b) : Near (n + u.length) (u ++ a) b := by
  induction u with
  | nil => exact h
  | cons x u ih => exact .delete x ih

theorem insert_all (v : List α) (h : Near n a b) : Near (n + v.length) a (v ++ b) := by
  induction v with
  | nil => exact h
  | cons y v ih => exact .insert y ih

/-- A walk is as many edits. -/
theorem edits (h : Near n a b) : ∃ m ≤ n, Edits m a b := by
  induction h with
  | nil n => exact ⟨0, Nat.zero_le n, .refl []⟩
  | delete x _ ih =>
    obtain ⟨m, hm, h⟩ := ih
    exact ⟨m + 1, by omega, .cons (.delete x _) h⟩
  | insert y _ ih =>
    obtain ⟨m, hm, h⟩ := ih
    exact ⟨m + 1, by omega, h.trans (.single (.insert y _))⟩
  | keep x _ ih =>
    obtain ⟨m, hm, h⟩ := ih
    exact ⟨m, hm, h.later x⟩
  | replace x y _ ih =>
    obtain ⟨m, hm, h⟩ := ih
    exact ⟨m + 1, by omega, .cons (.replace x y _) (h.later y)⟩
  | @swap x y u v n a b _ ih =>
    obtain ⟨m, hm, h⟩ := ih
    have hdelete : Edits u.length (x :: (u ++ y :: a)) (x :: y :: a) := (Edits.delete_all u (y :: a)).later x
    have hswap : Edits 1 (x :: y :: a) (y :: x :: a) := .single (.swap x y a)
    have hinsert : Edits v.length (y :: x :: a) (y :: (v ++ x :: a)) := (Edits.insert_all v (x :: a)).later y
    have hrest : Edits m (y :: (v ++ x :: a)) (y :: (v ++ x :: b)) := ((h.later x).append_left v).later y
    exact ⟨u.length + (1 + (v.length + m)), by omega, hdelete.trans (hswap.trans (hinsert.trans hrest))⟩

/-! ### An edit costs at most one more -/

/-- What becomes of the first letter: other letters are inserted before it is deleted, kept, replaced or swapped. -/
inductive First (n : ℕ) (x : α) (a b : List α) : Prop where
  | delete {m : ℕ} {v b' : List α} (hb : b = v ++ b') (h : Near m a b') (hle : m + v.length + 1 ≤ n)
  | keep {m : ℕ} {v b' : List α} (hb : b = v ++ x :: b') (h : Near m a b') (hle : m + v.length ≤ n)
  | replace {m : ℕ} {y : α} {v b' : List α} (hb : b = v ++ y :: b') (h : Near m a b') (hle : m + v.length + 1 ≤ n)
  | swap {m : ℕ} {y : α} {u v w a' b' : List α} (ha : a = u ++ y :: a') (hb : b = v ++ y :: (w ++ x :: b'))
      (h : Near m a' b') (hle : m + v.length + u.length + w.length + 1 ≤ n)

theorem first {x : α} (h : Near n (x :: a) b) : First n x a b := by
  generalize hl : x :: a = l at h
  induction h with
  | nil => cases hl
  | @delete z n c b h _ =>
    obtain ⟨rfl, rfl⟩ := List.cons.inj hl
    exact .delete (v := []) rfl h (by simp)
  | @insert y n c b h ih =>
    cases ih hl with
    | @delete m v b' hb h hle => exact .delete (v := y :: v) (by rw [hb, List.cons_append]) h (by rw [List.length_cons]; omega)
    | @keep m v b' hb h hle => exact .keep (v := y :: v) (by rw [hb, List.cons_append]) h (by rw [List.length_cons]; omega)
    | @replace m z v b' hb h hle =>
      exact .replace (v := y :: v) (by rw [hb, List.cons_append]) h (by rw [List.length_cons]; omega)
    | @swap m z u v w a' b' ha hb h hle =>
      exact .swap (v := y :: v) ha (by rw [hb, List.cons_append]) h (by rw [List.length_cons]; omega)
  | @keep z n c b h _ =>
    obtain ⟨rfl, rfl⟩ := List.cons.inj hl
    exact .keep (v := []) rfl h (by simp)
  | @replace z y n c b h _ =>
    obtain ⟨rfl, rfl⟩ := List.cons.inj hl
    exact .replace (v := []) rfl h (by simp)
  | @swap z y u v n c b h _ =>
    obtain ⟨rfl, rfl⟩ := List.cons.inj hl
    exact .swap (v := []) rfl rfl h (by simp)

/-- The letter that was kept is behind the next one. -/
theorem swap_keep {x y : α} (h : Near n (y :: a) b) : Near (n + 1) (y :: x :: a) (x :: b) := by
  cases h.first with
  | @delete m v b' hb hw hle =>
    subst hb
    exact (Near.delete y (.keep x (hw.insert_all v))).mono (by omega)
  | @keep m v b' hb hw hle =>
    subst hb
    exact (Near.swap y x [] v hw).mono (by rw [List.length_nil]; omega)
  | @replace m z v b' hb hw hle =>
    subst hb
    exact (Near.replace y x ((Near.replace x z hw).insert_all v)).mono (by omega)
  | @swap m z u v w a' b' ha hb hw hle =>
    subst ha hb
    have hrest : Near (m + 1 + w.length + u.length + v.length) (u ++ z :: a') (v ++ z :: (w ++ y :: b')) :=
      (Near.delete_all u (.keep z ((Near.insert y hw).insert_all w))).insert_all v
    exact (Near.delete y (.keep x hrest)).mono (by omega)

/-- The letter that was replaced is behind the next one. -/
theorem swap_replace {x y z : α} (h : Near n (y :: a) b) : Near (n + 2) (y :: x :: a) (z :: b) := by
  cases h.first with
  | @delete m v b' hb hw hle =>
    subst hb
    exact (Near.delete y (.replace x z (hw.insert_all v))).mono (by omega)
  | @keep m v b' hb hw hle =>
    subst hb
    exact (Near.replace y z ((Near.replace x y hw).insert_all v)).mono (by omega)
  | @replace m t v b' hb hw hle =>
    subst hb
    exact (Near.replace y z ((Near.replace x t hw).insert_all v)).mono (by omega)
  | @swap m t u v w a' b' ha hb hw hle =>
    subst ha hb
    exact (Near.insert z ((Near.swap y t (x :: u) w hw).insert_all v)).mono (by rw [List.length_cons]; omega)

/-- The second of the letters that were swapped is behind the next one. -/
theorem swap_swap {x y z : α} {u v : List α} (h : Near n (z :: a) b) :
    Near (n + u.length + v.length + 2) (x :: (u ++ z :: y :: a)) (y :: (v ++ x :: b)) := by
  have happend : u ++ z :: y :: a = (u ++ [z]) ++ y :: a := by simp
  have hlength : (u ++ [z]).length = u.length + 1 := by simp
  cases h.first with
  | @delete m w b' hb hw hle =>
    subst hb
    rw [happend]
    exact (Near.swap x y (u ++ [z]) v (hw.insert_all w)).mono (by omega)
  | @keep m w b' hb hw hle =>
    subst hb
    have hrest : Near (m + 1 + w.length + u.length) (u ++ z :: y :: a) (w ++ z :: b') :=
      ((Near.keep z (.delete y hw)).insert_all w).delete_all u
    exact (Near.insert y (Near.insert_all v (.keep x hrest))).mono (by omega)
  | @replace m t w b' hb hw hle =>
    subst hb
    rw [happend]
    exact (Near.swap x y (u ++ [z]) v ((Near.insert t hw).insert_all w)).mono (by omega)
  | @swap m t s w r a' b' ha hb hw hle =>
    subst ha hb
    have hrest := ((Near.swap z t (y :: s) r hw).insert_all w).delete_all u
    exact (Near.insert y (Near.insert_all v (.keep x hrest))).mono (by rw [List.length_cons]; omega)

theorem edit_swapped {x y : α} {u v : List α} (h : Near n a b) (ih : ∀ {a'}, Edit a a' → Near (n + 1) a' b)
    (he : Edit (x :: (u ++ y :: a)) a') : Near (n + u.length + v.length + 1 + 1) a' (y :: (v ++ x :: b)) := by
  -- without the swap, `y` is kept and `x` inserted behind it
  have hkept : Near (n + v.length + u.length + 1) (u ++ y :: a) (y :: (v ++ x :: b)) :=
    (Near.delete_all u (.keep y ((Near.insert x h).insert_all v))).mono (by omega)
  generalize hl : u ++ y :: a = l at he hkept
  cases he with
  | insert z _ =>
    subst hl
    exact .delete z (.swap x y u v h)
  | delete _ _ => exact hkept.mono (by omega)
  | replace _ z _ => exact (Near.delete z hkept).mono (by omega)
  | swap _ z rest =>
    cases u with
    | nil =>
      obtain ⟨rfl, rfl⟩ := List.cons.inj hl
      exact (Near.keep y ((Near.keep x h).insert_all v)).mono (by rw [List.length_nil]; omega)
    | cons w u =>
      obtain ⟨rfl, rfl⟩ := List.cons.inj hl
      exact (Near.delete w (.swap x y u v h)).mono (by rw [List.length_cons]; omega)
  | later _ he =>
    subst hl
    obtain ⟨u', hu, rfl⟩ | ⟨a', ha, rfl⟩ | ⟨u', z, t, a', rfl, ha, rfl⟩ := he.append_cases
    · have hlength := hu.length_le
      exact (Near.swap x y u' v h).mono (by omega)
    · cases ha with
      | insert z _ =>
        have happend : u ++ z :: y :: a = (u ++ [z]) ++ y :: a := by simp
        rw [happend]
        exact (Near.swap x y (u ++ [z]) v h).mono (by simp; omega)
      | delete _ _ => exact (Near.insert y (Near.insert_all v (.keep x (h.delete_all u)))).mono (by omega)
      | replace _ z _ =>
        exact (Near.insert y (Near.insert_all v (.keep x (Near.delete_all u (.delete z h))))).mono (by omega)
      | swap _ z a => exact h.swap_swap.mono (by omega)
      | later _ ha => exact (Near.swap x y u v (ih ha)).mono (by omega)
    · obtain ⟨rfl, rfl⟩ := List.cons.inj ha
      exact (Near.swap x y u' v (.delete z h)).mono (by simp; omega)

/-- One more edit is at most one more. -/
theorem edit (h : Near n a b) (he : Edit a a') : Near (n + 1) a' b := by
  induction h generalizing a' with
  | nil n =>
    cases he with
    | insert x _ => exact .delete x (.nil n)
  | @delete x n a b h ih =>
    cases he with
    | insert y _ => exact .delete y (.delete x h)
    | delete _ _ => exact h.mono (by omega)
    | replace _ y _ => exact (Near.delete y h).mono (by omega)
    | swap _ y a =>
      have hinsert : Edit (y :: a) (y :: x :: a) := .later y (.insert x a)
      exact (ih hinsert).mono (by omega)
    | later _ he => exact .delete x (ih he)
  | insert y _ ih => exact .insert y (ih he)
  | @keep x n a b h ih =>
    cases he with
    | insert y _ => exact .delete y (.keep x h)
    | delete _ _ => exact .insert x h
    | replace _ y _ => exact .replace y x h
    | swap _ y a => exact h.swap_keep
    | later _ he => exact .keep x (ih he)
  | @replace x y n a b h ih =>
    cases he with
    | insert z _ => exact .delete z (.replace x y h)
    | delete _ _ => exact (Near.insert y h).mono (by omega)
    | replace _ z _ => exact (Near.replace z y h).mono (by omega)
    | swap _ z a => exact h.swap_replace
    | later _ he => exact .replace x y (ih he)
  | swap x y u v h ih => exact h.edit_swapped ih he

end Near

theorem Edits.near (h : Edits n a b) : Near n a b := by
  induction h with
  | refl a => exact .refl 0 a
  | cons he _ ih => exact ih.edit he.symm

/-! ### The distance -/

theorem Edits.length_le (h : Edits n a b) : b.length ≤ a.length + n := by
  induction h with
  | refl a => omega
  | cons he _ ih =>
    have := he.length_le
    omega

noncomputable def distance (a b : List α) : ℕ := sInf {n | Edits n a b}

theorem edits_distance (a b : List α) : Edits (distance a b) a b := by
  have hdelete : Edits a.length (a ++ []) [] := Edits.delete_all a []
  have hinsert : Edits b.length [] (b ++ []) := Edits.insert_all b []
  rw [List.append_nil] at hdelete hinsert
  have hsome : {n | Edits n a b}.Nonempty := ⟨a.length + b.length, hdelete.trans hinsert⟩
  exact Nat.sInf_mem hsome

theorem distance_le (h : Edits n a b) : distance a b ≤ n := Nat.sInf_le h

/-- **The distance is that of the walks**, which touch no letter twice. -/
theorem near_iff : Near n a b ↔ distance a b ≤ n := by
  constructor
  · intro h
    obtain ⟨m, hm, h⟩ := h.edits
    exact (distance_le h).trans hm
  · intro h
    exact (edits_distance a b).near.mono h

theorem near_distance (a b : List α) : Near (distance a b) a b := near_iff.mpr le_rfl

theorem distance_comm (a b : List α) : distance a b = distance b a :=
  le_antisymm (distance_le (edits_distance b a).symm) (distance_le (edits_distance a b).symm)

theorem distance_triangle (a b c : List α) : distance a c ≤ distance a b + distance b c :=
  distance_le ((edits_distance a b).trans (edits_distance b c))

theorem distance_eq_zero : distance a b = 0 ↔ a = b := by
  constructor
  · intro h
    have hedits := edits_distance a b
    rw [h] at hedits
    exact hedits.eq_of_zero
  · rintro rfl
    exact Nat.le_zero.mp (distance_le (.refl a))

theorem distance_reverse (a b : List α) : distance a.reverse b.reverse = distance a b := by
  apply le_antisymm
  · exact distance_le (edits_distance a b).reverse
  · have h := (edits_distance a.reverse b.reverse).reverse
    rw [List.reverse_reverse, List.reverse_reverse] at h
    exact distance_le h

theorem distance_nil (b : List α) : distance [] b = b.length := by
  apply le_antisymm
  · have hinsert : Edits b.length [] (b ++ []) := Edits.insert_all b []
    rw [List.append_nil] at hinsert
    exact distance_le hinsert
  · have h := (edits_distance [] b).length_le
    rw [List.length_nil] at h
    omega

theorem distance_append_le (a b u v : List α) :
    distance (a ++ u) (b ++ v) ≤ distance a b + u.length + v.length := by
  have h : Near (distance a b + u.length + v.length) (u.reverse ++ a.reverse) (v.reverse ++ b.reverse) := by
    have hnear := near_distance a.reverse b.reverse
    rw [distance_reverse] at hnear
    simpa using (hnear.delete_all u.reverse).insert_all v.reverse
  rw [near_iff, ← List.reverse_append, ← List.reverse_append, distance_reverse] at h
  exact h

/-- A common first letter does not matter. -/
theorem Near.of_cons_cons {x : α} (h : Near n (x :: a) (x :: b)) : Near n a b := by
  cases h.first with
  | @delete m v b' hb hw hle =>
    cases v with
    | nil =>
      obtain rfl := hb
      exact (hw.symm.edit (.delete x b)).symm.mono (by omega)
    | cons y v =>
      obtain ⟨-, rfl⟩ := List.cons.inj hb
      exact (hw.insert_all v).mono (by rw [List.length_cons] at hle; omega)
  | @keep m v b' hb hw hle =>
    cases v with
    | nil =>
      obtain ⟨-, rfl⟩ := List.cons.inj hb
      exact hw.mono (by omega)
    | cons y v =>
      obtain ⟨-, rfl⟩ := List.cons.inj hb
      exact ((Near.insert x hw).insert_all v).mono (by rw [List.length_cons] at hle; omega)
  | @replace m y v b' hb hw hle =>
    cases v with
    | nil =>
      obtain ⟨-, rfl⟩ := List.cons.inj hb
      exact hw.mono (by omega)
    | cons z v =>
      obtain ⟨-, rfl⟩ := List.cons.inj hb
      exact ((Near.insert y hw).insert_all v).mono (by rw [List.length_cons] at hle; omega)
  | @swap m y u v w a' b' ha hb hw hle =>
    subst ha
    cases v with
    | nil =>
      obtain ⟨rfl, rfl⟩ := List.cons.inj hb
      exact (((Near.keep x hw).insert_all w).delete_all u).mono (by omega)
    | cons z v =>
      obtain ⟨-, rfl⟩ := List.cons.inj hb
      have hrest : Near (m + 1 + w.length) (y :: a') (y :: (w ++ x :: b')) :=
        .keep y ((Near.insert x hw).insert_all w)
      exact ((hrest.delete_all u).insert_all v).mono (by rw [List.length_cons] at hle; omega)

theorem distance_cons_cons (x : α) (a b : List α) : distance (x :: a) (x :: b) = distance a b := by
  apply le_antisymm
  · exact distance_le ((edits_distance a b).later x)
  · exact near_iff.mp (near_distance (x :: a) (x :: b)).of_cons_cons

theorem distance_concat_concat (x : α) (a b : List α) : distance (a ++ [x]) (b ++ [x]) = distance a b := by
  rw [← distance_reverse, List.reverse_append, List.reverse_append, List.reverse_singleton, List.singleton_append,
    List.singleton_append, distance_cons_cons, distance_reverse]

/-! ### The recurrence -/

/-- The last letters of two lists: one of them is deleted or inserted, they are kept or replaced, or each is swapped with
the one that it met before, at a cost of `t`. -/
theorem distance_concat [DecidableEq α] {x y : α} {t : ℕ} (hle : distance (a ++ [x]) (b ++ [y]) ≤ t)
    (hswap : ∀ a' u b' v, a = a' ++ y :: u → b = b' ++ x :: v → t ≤ distance a' b' + u.length + v.length + 1) :
    distance (a ++ [x]) (b ++ [y]) =
      min (min (distance a (b ++ [y]) + 1) (distance (a ++ [x]) b + 1))
        (min (distance a b + if x = y then 0 else 1) t) := by
  apply le_antisymm
  · have hdelete : distance (a ++ [x]) (b ++ [y]) ≤ distance a (b ++ [y]) + 1 := by
      simpa using distance_append_le a (b ++ [y]) [x] []
    have hinsert : distance (a ++ [x]) (b ++ [y]) ≤ distance (a ++ [x]) b + 1 := by
      simpa using distance_append_le (a ++ [x]) b [] [y]
    have hreplace : distance (a ++ [x]) (b ++ [y]) ≤ distance a b + if x = y then 0 else 1 := by
      split
      · next heq =>
        rw [heq, distance_concat_concat]
        rfl
      · rw [← distance_reverse, ← distance_reverse a]
        simpa using near_iff.mp (.replace x y (near_distance a.reverse b.reverse))
    exact le_min (le_min hdelete hinsert) (le_min hreplace hle)
  · have h := near_distance (a ++ [x]).reverse (b ++ [y]).reverse
    rw [distance_reverse, List.reverse_append, List.reverse_append] at h
    have hback : ∀ {a b : List α} {n}, Near n a b → distance a.reverse b.reverse ≤ n := by
      intro a b n h
      rw [distance_reverse]
      exact near_iff.mp h
    generalize distance (a ++ [x]) (b ++ [y]) = d at h
    generalize ha : a.reverse = ar at h
    generalize hb : b.reverse = br at h
    obtain rfl : a = ar.reverse := by rw [← ha, List.reverse_reverse]
    obtain rfl : b = br.reverse := by rw [← hb, List.reverse_reverse]
    cases h with
    | delete _ h =>
      have := hback h
      rw [List.reverse_append] at this
      exact (min_le_left _ _).trans ((min_le_left _ _).trans (Nat.succ_le_succ this))
    | insert _ h =>
      have := hback h
      rw [List.reverse_append] at this
      exact (min_le_left _ _).trans ((min_le_right _ _).trans (Nat.succ_le_succ this))
    | keep _ h =>
      rw [if_pos rfl]
      exact (min_le_right _ _).trans ((min_le_left _ _).trans (hback h))
    | replace _ _ h =>
      refine (min_le_right _ _).trans ((min_le_left _ _).trans (add_le_add (hback h) ?_))
      split <;> omega
    | @swap _ _ u v n a b h =>
      have hcost := hswap a.reverse u.reverse b.reverse v.reverse (by simp) (by simp)
      rw [List.length_reverse, List.length_reverse] at hcost
      have := hback h
      exact (min_le_right _ _).trans ((min_le_right _ _).trans (by omega))

/-- The letters between those that are swapped are deleted and inserted. -/
theorem distance_swap_le (x y : α) (a u b v : List α) :
    distance (a ++ y :: u ++ [x]) (b ++ x :: v ++ [y]) ≤ distance a b + u.length + v.length + 1 := by
  have h := near_distance a.reverse b.reverse
  rw [distance_reverse] at h
  have hswap := near_iff.mp (Near.swap x y u.reverse v.reverse h)
  rw [← distance_reverse] at hswap
  simpa using hswap

end Luwu.ListEdits
