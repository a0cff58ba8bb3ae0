import Mathlib.Data.List.Perm.Basic

/-!
# Finite maps as lists of items

An item carries its key.  In a list whose keys are distinct the item of a key does not depend on the order,
so the list is a finite map up to permutation, and equality of keys is any equivalence `==`.
-/

namespace Luwu.Association

variable {κ α : Type*} [BEq κ] {key : α → κ} {l l' : List α} {k k' : κ} {a : α}

/-- No two items have the same key. -/
def Distinct (key : α → κ) (l : List α) : Prop := l.Pairwise fun a b => (key a == key b) = false

/-- The item of a key. -/
def get (key : α → κ) (l : List α) (k : κ) : Option α := l.find? fun a => key a == k

/-- A new item, unless the key is there. -/
def put (key : α → κ) (l : List α) (k : κ) (a : α) : List α :=
  if (get key l k).isSome then l else a :: l

/-- The item of a key changes. -/
def modify (key : α → κ) (l : List α) (k : κ) (f : α → α) : List α :=
  l.map fun a => if key a == k then f a else a

def drop (key : α → κ) (l : List α) (k : κ) : List α := l.filter fun a => !(key a == k)

theorem get_none_iff : get key l k = none ↔ ∀ a ∈ l, (key a == k) = false := by
  unfold get
  rw [List.find?_eq_none]
  constructor
  · intro h a ha
    exact Bool.not_eq_true _ ▸ h a ha
  · intro h a ha
    rw [h a ha]
    exact Bool.false_ne_true

theorem modify_perm (hp : l.Perm l') (k : κ) (f : α → α) :
    (modify key l k f).Perm (modify key l' k f) := hp.map _

theorem Distinct.drop (h : Distinct key l) (k : κ) : Distinct key (drop key l k) :=
  List.Pairwise.filter _ h

theorem drop_perm (hp : l.Perm l') (k : κ) : (drop key l k).Perm (drop key l' k) := hp.filter _

theorem drop_of_get_none (h : get key l k = none) : drop key l k = l := by
  apply List.filter_eq_self.mpr
  intro b hb
  rw [get_none_iff.mp h b hb]
  rfl

theorem modify_of_get_none (h : get key l k = none) (f : α → α) : modify key l k f = l := by
  unfold modify
  rw [List.map_congr_left (g := id) fun a ha => by rw [get_none_iff.mp h a ha]; rfl]
  exact List.map_id l

section Lawful

variable [EquivBEq κ]

/-- Two items with the same key are one. -/
theorem Distinct.unique (h : Distinct key l) {b : α} (ha : a ∈ l) (hb : b ∈ l)
    (he : (key a == key b) = true) : a = b := by
  induction l with
  | nil => cases ha
  | cons c l ih =>
    obtain ⟨hc, hl⟩ := List.pairwise_cons.mp h
    cases List.mem_cons.mp ha with
    | inl hac =>
      cases List.mem_cons.mp hb with
      | inl hbc => exact hac.trans hbc.symm
      | inr hbl =>
        rw [hac, hc b hbl] at he
        cases he
    | inr hal =>
      cases List.mem_cons.mp hb with
      | inl hbc =>
        rw [hbc, BEq.comm, hc a hal] at he
        cases he
      | inr hbl => exact ih hl hal hbl

/-- In a finite map, the item of a key is the member with that key. -/
theorem get_some_iff (h : Distinct key l) : get key l k = some a ↔ a ∈ l ∧ (key a == k) = true := by
  constructor
  · intro hget
    exact ⟨List.mem_of_find?_eq_some hget, List.find?_some (p := fun a => key a == k) hget⟩
  · intro hmem
    cases hget : get key l k with
    | none =>
      have hfalse := get_none_iff.mp hget a hmem.1
      rw [hmem.2] at hfalse
      cases hfalse
    | some b =>
      have hb : b ∈ l := List.mem_of_find?_eq_some hget
      have hbk : (key b == k) = true := List.find?_some (p := fun a => key a == k) hget
      rw [h.unique hb hmem.1 (BEq.trans hbk (BEq.symm hmem.2))]

theorem Distinct.perm (h : Distinct key l) (hp : l.Perm l') : Distinct key l' :=
  (hp.pairwise_iff fun hab => by rw [BEq.comm]; exact hab).mp h

/-- The order of a finite map does not matter. -/
theorem get_perm (h : Distinct key l) (hp : l.Perm l') (k : κ) : get key l k = get key l' k := by
  apply Option.ext
  intro a
  rw [get_some_iff h, get_some_iff (h.perm hp), hp.mem_iff]

/-- Equal keys have the same item. -/
theorem get_congr (hk : (k == k') = true) : get key l k = get key l k' := by
  have hfun : (fun a => key a == k) = fun a => key a == k' := by
    funext a
    exact BEq.congr_right hk
  unfold get
  rw [hfun]

/-! ### The operations -/

theorem Distinct.cons (h : Distinct key l) (ha : get key l (key a) = none) : Distinct key (a :: l) := by
  apply List.pairwise_cons.mpr
  refine ⟨fun b hb => ?_, h⟩
  rw [BEq.comm]
  exact get_none_iff.mp ha b hb

theorem put_perm (h : Distinct key l) (hp : l.Perm l') : (put key l k a).Perm (put key l' k a) := by
  unfold put
  rw [get_perm h hp k]
  split
  · exact hp
  · exact hp.cons a

/-- The item of the key is another one, in its place. -/
theorem modify_eq_of_append (h : Distinct key (l ++ a :: l')) (ha : (key a == k) = true) (f : α → α) :
    modify key (l ++ a :: l') k f = l ++ f a :: l' := by
  have hother : ∀ b, b ∈ l ∨ b ∈ l' → (key b == k) = false := by
    intro b hb
    by_contra htrue
    have hbk : (key b == k) = true := Bool.not_eq_false _ ▸ htrue
    have hab : (key a == key b) = true := BEq.trans ha (BEq.symm hbk)
    obtain ⟨_, hr, hcross⟩ := List.pairwise_append.mp h
    cases hb with
    | inl hb =>
      have hfalse := hcross b hb a List.mem_cons_self
      rw [BEq.comm, hab] at hfalse
      cases hfalse
    | inr hb =>
      have hfalse := (List.pairwise_cons.mp hr).1 b hb
      rw [hab] at hfalse
      cases hfalse
  have hid : ∀ xs : List α, (∀ b ∈ xs, (key b == k) = false) →
      xs.map (fun b => if key b == k then f b else b) = xs := by
    intro xs hxs
    rw [List.map_congr_left (g := id) fun b hb => by rw [hxs b hb]; rfl]
    exact List.map_id xs
  unfold modify
  rw [List.map_append, List.map_cons, hid l fun b hb => hother b (Or.inl hb),
    hid l' fun b hb => hother b (Or.inr hb), if_pos ha]

/-- The item of the key goes. -/
theorem drop_cons_of_get (h : Distinct key (a :: l)) (ha : (key a == k) = true) : drop key (a :: l) k = l := by
  unfold drop
  rw [List.filter_cons_of_neg (by rw [ha]; exact Bool.false_ne_true)]
  apply List.filter_eq_self.mpr
  intro b hb
  cases hbk : key b == k with
  | false => rfl
  | true =>
    have hfalse := (List.pairwise_cons.mp h).1 b hb
    rw [BEq.trans ha (BEq.symm hbk)] at hfalse
    cases hfalse

end Lawful

end Luwu.Association
