import Mathlib.Data.List.Nodup

/-!
# Rings

A doubly linked list closed by a node `c` that is never taken out: forwards the links lead from `c`
through the nodes `xs` back to `c`, and each link is answered by one backwards.  A node goes in behind
`c`, and a node goes out wherever it stands.
-/

namespace Luwu.Rings

variable {ν : Type*} {nxt prv nxt' prv' : ν → ν} {b c x : ν} {xs : List ν}

/-- From `b` through `xs` to `c`. -/
def Path (nxt prv : ν → ν) (c : ν) : ν → List ν → Prop
  | b, [] => nxt b = c ∧ prv c = b
  | b, x :: xs => nxt b = x ∧ prv x = b ∧ Path nxt prv c x xs

/-- The ring at `c` has the nodes `xs`. -/
def IsRing (nxt prv : ν → ν) (c : ν) (xs : List ν) : Prop := Path nxt prv c c xs

theorem Path.congr (h : Path nxt prv c b xs) (hn : ∀ y, y = b ∨ y ∈ xs → nxt' y = nxt y)
    (hp : ∀ y, y = c ∨ y ∈ xs → prv' y = prv y) : Path nxt' prv' c b xs := by
  induction xs generalizing b with
  | nil =>
    obtain ⟨h1, h2⟩ := h
    exact ⟨(hn b (Or.inl rfl)).trans h1, (hp c (Or.inl rfl)).trans h2⟩
  | cons x xs ih =>
    obtain ⟨h1, h2, h3⟩ := h
    refine ⟨(hn b (Or.inl rfl)).trans h1, (hp x (Or.inr List.mem_cons_self)).trans h2, ?_⟩
    apply ih h3
    · intro y hy
      exact hn y (Or.inr (List.mem_cons.mpr hy))
    · intro y hy
      exact hp y (hy.imp_right (List.mem_cons_of_mem x))

/-- Where a node on the way links to, and that the node there links back. -/
theorem Path.next (h : Path nxt prv c b xs) (hx : x ∈ xs) :
    (nxt x = c ∨ nxt x ∈ xs) ∧ prv (nxt x) = x := by
  induction xs generalizing b with
  | nil => cases hx
  | cons y ys ih =>
    obtain ⟨_, _, h3⟩ := h
    rcases List.mem_cons.mp hx with rfl | hys
    · cases ys with
      | nil =>
        obtain ⟨h1, h2⟩ := h3
        exact ⟨Or.inl h1, by rw [h1, h2]⟩
      | cons z zs =>
        obtain ⟨h1, h2, _⟩ := h3
        refine ⟨Or.inr ?_, by rw [h1, h2]⟩
        rw [h1]
        exact List.mem_cons_of_mem x List.mem_cons_self
    · obtain ⟨h1, h2⟩ := ih h3 hys
      exact ⟨h1.imp_right (List.mem_cons_of_mem y), h2⟩

theorem Path.prev (h : Path nxt prv c b xs) (hx : x ∈ xs) :
    (prv x = b ∨ prv x ∈ xs) ∧ nxt (prv x) = x := by
  induction xs generalizing b with
  | nil => cases hx
  | cons y ys ih =>
    obtain ⟨h1, h2, h3⟩ := h
    rcases List.mem_cons.mp hx with rfl | hys
    · exact ⟨Or.inl h2, by rw [h2, h1]⟩
    · obtain ⟨h4, h5⟩ := ih h3 hys
      exact ⟨Or.inr (List.mem_cons.mpr h4), h5⟩

/-- A node on the way links to what follows it there. -/
theorem Path.next_of_append {pre post : List ν} (h : Path nxt prv c b (pre ++ x :: post)) :
    nxt x = post.head?.getD c := by
  induction pre generalizing b with
  | nil =>
    cases post with
    | nil => exact h.2.2.1
    | cons y ys => exact h.2.2.1
  | cons y pre ih => exact ih h.2.2

variable [DecidableEq ν] [BEq ν] [LawfulBEq ν]

/-- A node taken out: its neighbours link to each other. -/
theorem Path.unlink (h : Path nxt prv c b xs) (hnd : xs.Nodup) (hb : b ∉ xs) (hc : c ∉ xs) (hx : x ∈ xs)
    (hn : ∀ y, y = b ∨ y ∈ xs → y ≠ x → nxt' y = if y = prv x then nxt x else nxt y)
    (hp : ∀ y, y = c ∨ y ∈ xs → y ≠ x → prv' y = if y = nxt x then prv x else prv y) :
    Path nxt' prv' c b (xs.erase x) := by
  induction xs generalizing b with
  | nil => cases hx
  | cons y ys ih =>
    obtain ⟨h1, h2, h3⟩ := h
    obtain ⟨hyys, hnd'⟩ := List.nodup_cons.mp hnd
    have hby : b ≠ y := fun he => hb (he ▸ List.mem_cons_self)
    have hcy : c ≠ y := fun he => hc (he ▸ List.mem_cons_self)
    have hbys : b ∉ ys := fun hm => hb (List.mem_cons_of_mem y hm)
    have hcys : c ∉ ys := fun hm => hc (List.mem_cons_of_mem y hm)
    by_cases hyx : y = x
    · -- the node itself: what follows it is entered from `b`
      subst hyx
      rw [List.erase_cons_head]
      have hnb : nxt' b = nxt y := by rw [hn b (Or.inl rfl) hby, if_pos h2.symm]
      cases ys with
      | nil =>
        obtain ⟨h4, h5⟩ := h3
        refine ⟨hnb.trans h4, ?_⟩
        rw [hp c (Or.inl rfl) hcy, if_pos h4.symm, h2]
      | cons z zs =>
        obtain ⟨h4, h5, h6⟩ := h3
        have hzy : z ≠ y := fun he => hyys (he ▸ List.mem_cons_self)
        refine ⟨hnb.trans h4, ?_, ?_⟩
        · rw [hp z (Or.inr (by simp)) hzy, if_pos h4.symm, h2]
        · apply h6.congr
          · intro w hw
            have hmem : w ∈ z :: zs := List.mem_cons.mpr hw
            have hwy : w ≠ y := fun he => hyys (he ▸ hmem)
            have hwb : w ≠ prv y := fun he => hbys (h2 ▸ he ▸ hmem)
            rw [hn w (Or.inr (List.mem_cons_of_mem y hmem)) hwy, if_neg hwb]
          · intro w hw
            have hwz : w ≠ nxt y := by
              rw [h4]
              rcases hw with rfl | hw
              · exact fun he => hcys (he ▸ List.mem_cons_self)
              · exact fun he => (List.nodup_cons.mp hnd').1 (he ▸ hw)
            have hwy : w ≠ y := by
              rcases hw with rfl | hw
              · exact hcy
              · exact fun he => hyys (he ▸ List.mem_cons_of_mem z hw)
            have hmem : w = c ∨ w ∈ y :: z :: zs := hw.imp_right (fun hw => by simp [hw])
            rw [hp w hmem hwy, if_neg hwz]
    · have hxys : x ∈ ys := (List.mem_cons.mp hx).resolve_left (fun he => hyx he.symm)
      rw [List.erase_cons_tail (by simpa using hyx)]
      -- the neighbours of `x` lie behind `b` and `y`
      have hbprv : b ≠ prv x := by
        rcases (h3.prev hxys).1 with he | hm
        · exact fun hbp => hby (hbp.trans he)
        · exact fun hbp => hbys (hbp ▸ hm)
      have hynxt : y ≠ nxt x := by
        rcases (h3.next hxys).1 with he | hm
        · exact fun hyn => hcy (hyn.trans he).symm
        · exact fun hyn => hyys (hyn ▸ hm)
      have hbx : b ≠ x := fun he => hbys (he ▸ hxys)
      refine ⟨?_, ?_, ih h3 hnd' hyys hcys hxys ?_ ?_⟩
      · rw [hn b (Or.inl rfl) hbx, if_neg hbprv, h1]
      · rw [hp y (Or.inr List.mem_cons_self) hyx, if_neg hynxt, h2]
      · intro w hw
        exact hn w (Or.inr (List.mem_cons.mpr hw))
      · intro w hw
        exact hp w (hw.imp_right (List.mem_cons_of_mem y))

/-- A node taken out of a ring. -/
theorem IsRing.unlink (h : IsRing nxt prv c xs) (hnd : xs.Nodup) (hc : c ∉ xs) (hx : x ∈ xs)
    (hn : ∀ y, y = c ∨ y ∈ xs → y ≠ x → nxt' y = if y = prv x then nxt x else nxt y)
    (hp : ∀ y, y = c ∨ y ∈ xs → y ≠ x → prv' y = if y = nxt x then prv x else prv y) :
    IsRing nxt' prv' c (xs.erase x) :=
  Path.unlink h hnd hc hc hx hn hp

omit [BEq ν] [LawfulBEq ν] in
/-- A node put in behind the end. -/
theorem IsRing.insert (h : IsRing nxt prv c xs) (hnd : xs.Nodup) (hc : c ∉ xs)
    (hnx : nxt' x = nxt c) (hpx : prv' x = c)
    (hn : ∀ y, y = c ∨ y ∈ xs → nxt' y = if y = c then x else nxt y)
    (hp : ∀ y, y = c ∨ y ∈ xs → prv' y = if y = nxt c then x else prv y) :
    IsRing nxt' prv' c (x :: xs) := by
  refine ⟨by rw [hn c (Or.inl rfl), if_pos rfl], hpx, ?_⟩
  cases xs with
  | nil =>
    obtain ⟨h1, h2⟩ := h
    exact ⟨hnx.trans h1, by rw [hp c (Or.inl rfl), if_pos h1.symm]⟩
  | cons y ys =>
    obtain ⟨h1, h2, h3⟩ := h
    have hcy : c ≠ y := fun he => hc (he ▸ List.mem_cons_self)
    refine ⟨hnx.trans h1, ?_, ?_⟩
    · rw [hp y (Or.inr List.mem_cons_self), if_pos h1.symm]
    · apply h3.congr
      · intro w hw
        have hmem : w ∈ y :: ys := List.mem_cons.mpr hw
        have hwc : w ≠ c := fun he => hc (he ▸ hmem)
        rw [hn w (Or.inr hmem), if_neg hwc]
      · intro w hw
        have hwy : w ≠ nxt c := by
          rw [h1]
          rcases hw with rfl | hw
          · exact hcy
          · exact fun he => (List.nodup_cons.mp hnd).1 (he ▸ hw)
        rw [hp w (hw.imp_right (List.mem_cons_of_mem y)), if_neg hwy]

end Luwu.Rings
