import Mathlib.Logic.Function.Basic
import Mathlib.Data.List.Basic
import Mathlib.Tactic.Common

/-!
# Storage

A block of memory for objects of one type.  A slot is raw until an object is constructed in it and raw again when the object is
destroyed; an object that was moved from is there, but has no value.  Construction on an object, destruction of none, a read of no
value, an access outside the block and giving back a block with objects in it have no outcome.
-/

namespace Luwu.Storage

open Function

inductive Slot (α : Type*) where
  | raw
  | moved
  | live (a : α)

structure Block (α : Type*) where
  capacity : ℕ
  cells : ℕ → Slot α

variable {α : Type*}

namespace Block

def allocate (capacity : ℕ) : Block α := ⟨capacity, fun _ => .raw⟩

def construct (b : Block α) (i : ℕ) (a : α) : Option (Block α) :=
  if i < b.capacity then
    match b.cells i with
    | .raw => some ⟨b.capacity, update b.cells i (.live a)⟩
    | _ => none
  else none

def destroy (b : Block α) (i : ℕ) : Option (Block α) :=
  if i < b.capacity then
    match b.cells i with
    | .raw => none
    | _ => some ⟨b.capacity, update b.cells i .raw⟩
  else none

def read (b : Block α) (i : ℕ) : Option α :=
  if i < b.capacity then
    match b.cells i with
    | .live a => some a
    | _ => none
  else none

/-- The value is taken out of its object. -/
def moveOut (b : Block α) (i : ℕ) : Option (Block α × α) := do
  let a ← b.read i
  return (⟨b.capacity, update b.cells i .moved⟩, a)

/-- An object gets another value. -/
def assign (b : Block α) (i : ℕ) (a : α) : Option (Block α) := do
  let b ← b.destroy i
  b.construct i a

def isRaw : Slot α → Bool
  | .raw => true
  | _ => false

def deallocate (b : Block α) : Option Unit :=
  if (List.range b.capacity).all fun i => isRaw (b.cells i) then some ⟨⟩ else none

def destroyRange (b : Block α) : ℕ → ℕ → Option (Block α)
  | _, 0 => some b
  | i, n + 1 => do
    let b ← b.destroy i
    destroyRange b (i + 1) n

def uninitialized_move (src : Block α) (i : ℕ) : ℕ → Block α → ℕ → Option (Block α × Block α)
  | 0, dst, _ => some (src, dst)
  | n + 1, dst, j => do
    let (src, a) ← src.moveOut i
    let dst ← dst.construct j a
    uninitialized_move src (i + 1) n dst (j + 1)

def uninitialized_copy (src : Block α) (i : ℕ) : ℕ → Block α → ℕ → Option (Block α)
  | 0, dst, _ => some dst
  | n + 1, dst, j => do
    let a ← src.read i
    let dst ← dst.construct j a
    uninitialized_copy src (i + 1) n dst (j + 1)

/-! ### What the operations do -/

variable {b src dst : Block α} {i j n : ℕ} {a : α}

theorem construct_eq (hi : i < b.capacity) (h : b.cells i = .raw) :
    b.construct i a = some ⟨b.capacity, update b.cells i (.live a)⟩ := by
  unfold construct
  rw [if_pos hi, h]

theorem destroy_eq (hi : i < b.capacity) (h : b.cells i ≠ .raw) : b.destroy i = some ⟨b.capacity, update b.cells i .raw⟩ := by
  unfold destroy
  rw [if_pos hi]
  cases hc : b.cells i with
  | raw => exact absurd hc h
  | moved => rfl
  | live a => rfl

theorem read_eq (hi : i < b.capacity) (h : b.cells i = .live a) : b.read i = some a := by
  unfold read
  rw [if_pos hi, h]

theorem moveOut_eq (hi : i < b.capacity) (h : b.cells i = .live a) :
    b.moveOut i = some (⟨b.capacity, update b.cells i .moved⟩, a) := by
  unfold moveOut
  rw [read_eq hi h]
  rfl

theorem assign_eq (hi : i < b.capacity) (h : b.cells i ≠ .raw) :
    b.assign i a = some ⟨b.capacity, update b.cells i (.live a)⟩ := by
  unfold assign
  rw [destroy_eq hi h]
  refine (construct_eq (b := ⟨b.capacity, update b.cells i .raw⟩) hi (update_self i _ _)).trans ?_
  rw [update_idem]

theorem deallocate_eq (h : ∀ i < b.capacity, b.cells i = .raw) : b.deallocate = some ⟨⟩ := by
  refine if_pos (List.all_eq_true.mpr fun i hi => ?_)
  rw [h i (List.mem_range.mp hi)]
  rfl

/-- The cells of a range get other contents. -/
def overwrite (f : ℕ → Slot α) (i n : ℕ) (g : ℕ → Slot α) (p : ℕ) : Slot α := if i ≤ p ∧ p < i + n then g p else f p

theorem overwrite_zero (f : ℕ → Slot α) (i : ℕ) (g : ℕ → Slot α) : overwrite f i 0 g = f := by
  funext p
  exact if_neg (by omega)

/-- The first cell of a range, and then the others -/
theorem overwrite_succ (f : ℕ → Slot α) (i n : ℕ) (g : ℕ → Slot α) {c : Slot α} (hc : g i = c) :
    overwrite (update f i c) (i + 1) n g = overwrite f i (n + 1) g := by
  funext p
  unfold overwrite
  by_cases hp : p = i
  · rw [hp, if_neg (by omega), if_pos (by omega), update_self, hc]
  · rw [update_of_ne hp]
    exact if_congr (by omega) rfl rfl

theorem overwrite_congr (f : ℕ → Slot α) {g g' : ℕ → Slot α} (h : ∀ p, i ≤ p → g p = g' p) : overwrite f i n g = overwrite f i n g' := by
  funext p
  exact if_ctx_congr Iff.rfl (fun hp => h p hp.1) fun _ => rfl

theorem overwrite_of_mem (f g : ℕ → Slot α) {p : ℕ} (h : i ≤ p ∧ p < i + n) : overwrite f i n g p = g p := if_pos h

theorem overwrite_of_notMem (f g : ℕ → Slot α) {p : ℕ} (h : ¬ (i ≤ p ∧ p < i + n)) : overwrite f i n g p = f p := if_neg h

/-- **A range of objects** is destroyed. -/
theorem destroyRange_eq (b : Block α) (n : ℕ) (i : ℕ) (hin : i + n ≤ b.capacity) (h : ∀ p, i ≤ p → p < i + n → b.cells p ≠ .raw) :
    b.destroyRange i n = some ⟨b.capacity, overwrite b.cells i n fun _ => .raw⟩ := by
  induction n generalizing b i with
  | zero =>
    rw [overwrite_zero]
    rfl
  | succ n ih =>
    rw [destroyRange, destroy_eq (by omega) (h i (Nat.le_refl i) (by omega))]
    refine (ih ⟨b.capacity, update b.cells i .raw⟩ (i + 1) (by show i + 1 + n ≤ b.capacity; omega) fun p hp hp' => ?_).trans ?_
    · show update b.cells i .raw p ≠ .raw
      rw [update_of_ne (by omega)]
      exact h p (by omega) (by omega)
    · exact congrArg (fun c => some (Block.mk b.capacity c)) (overwrite_succ _ _ _ _ rfl)

/-- **A range of values** is moved to raw memory. -/
theorem uninitialized_move_eq (n : ℕ) (src dst : Block α) (i j : ℕ) (hin : i + n ≤ src.capacity) (hin' : j + n ≤ dst.capacity)
    (hlive : ∀ k < n, ∃ a, src.cells (i + k) = .live a) (hraw : ∀ k < n, dst.cells (j + k) = .raw) :
    src.uninitialized_move i n dst j = some (⟨src.capacity, overwrite src.cells i n fun _ => .moved⟩,
      ⟨dst.capacity, overwrite dst.cells j n fun p => src.cells (i + (p - j))⟩) := by
  induction n generalizing src dst i j with
  | zero =>
    rw [overwrite_zero, overwrite_zero]
    rfl
  | succ n ih =>
    obtain ⟨a, ha⟩ := hlive 0 (by omega)
    rw [Nat.add_zero] at ha
    have hraw0 : dst.cells j = .raw := hraw 0 (by omega)
    rw [uninitialized_move, moveOut_eq (by omega) ha]
    show (dst.construct j a >>= fun d => _) = _
    rw [construct_eq (by omega) hraw0]
    have hrest := ih ⟨src.capacity, update src.cells i .moved⟩ ⟨dst.capacity, update dst.cells j (.live a)⟩ (i + 1) (j + 1)
      (by show i + 1 + n ≤ src.capacity; omega) (by show j + 1 + n ≤ dst.capacity; omega)
      (fun k hk => by
        show ∃ a, update src.cells i .moved (i + 1 + k) = .live a
        rw [update_of_ne (by omega), show i + 1 + k = i + (k + 1) by omega]
        exact hlive (k + 1) (by omega))
      (fun k hk => by
        show update dst.cells j (.live a) (j + 1 + k) = .raw
        rw [update_of_ne (by omega), show j + 1 + k = j + (k + 1) by omega]
        exact hraw (k + 1) (by omega))
    have hsrc : overwrite (update src.cells i .moved) (i + 1) n (fun _ => .moved) = overwrite src.cells i (n + 1) fun _ => .moved :=
      overwrite_succ _ _ _ _ rfl
    have hdst : overwrite (update dst.cells j (.live a)) (j + 1) n (fun p => update src.cells i .moved (i + 1 + (p - (j + 1)))) =
        overwrite dst.cells j (n + 1) fun p => src.cells (i + (p - j)) := by
      rw [← overwrite_succ dst.cells j n (fun p => src.cells (i + (p - j))) (by rw [Nat.sub_self, Nat.add_zero, ha])]
      refine overwrite_congr _ fun p hp => ?_
      rw [update_of_ne (by omega), show i + 1 + (p - (j + 1)) = i + (p - j) by omega]
    rw [← hsrc, ← hdst]
    exact hrest

/-- **A range of values** is copied to raw memory. -/
theorem uninitialized_copy_eq (n : ℕ) (src dst : Block α) (i j : ℕ) (hin : i + n ≤ src.capacity) (hin' : j + n ≤ dst.capacity)
    (hlive : ∀ k < n, ∃ a, src.cells (i + k) = .live a) (hraw : ∀ k < n, dst.cells (j + k) = .raw) :
    src.uninitialized_copy i n dst j = some ⟨dst.capacity, overwrite dst.cells j n fun p => src.cells (i + (p - j))⟩ := by
  induction n generalizing dst i j with
  | zero =>
    rw [overwrite_zero]
    rfl
  | succ n ih =>
    obtain ⟨a, ha⟩ := hlive 0 (by omega)
    rw [Nat.add_zero] at ha
    have hraw0 : dst.cells j = .raw := hraw 0 (by omega)
    rw [uninitialized_copy, read_eq (by omega) ha]
    show (dst.construct j a >>= fun d => _) = _
    rw [construct_eq (by omega) hraw0]
    have hrest := ih ⟨dst.capacity, update dst.cells j (.live a)⟩ (i + 1) (j + 1) (by omega)
      (by show j + 1 + n ≤ dst.capacity; omega)
      (fun k hk => by
        rw [show i + 1 + k = i + (k + 1) by omega]
        exact hlive (k + 1) (by omega))
      (fun k hk => by
        show update dst.cells j (.live a) (j + 1 + k) = .raw
        rw [update_of_ne (by omega), show j + 1 + k = j + (k + 1) by omega]
        exact hraw (k + 1) (by omega))
    have hdst : overwrite (update dst.cells j (.live a)) (j + 1) n (fun p => src.cells (i + 1 + (p - (j + 1)))) =
        overwrite dst.cells j (n + 1) fun p => src.cells (i + (p - j)) := by
      rw [← overwrite_succ dst.cells j n (fun p => src.cells (i + (p - j))) (by rw [Nat.sub_self, Nat.add_zero, ha])]
      refine overwrite_congr _ fun p hp => ?_
      rw [show i + 1 + (p - (j + 1)) = i + (p - j) by omega]
    rw [← hdst]
    exact hrest

end Block

end Luwu.Storage

/-!
## Ring buffers

A list laid out in a block from a position on, going on at the start of the block behind its end: the slots of the list hold its
elements, and all others are raw.
-/

namespace Luwu.RingBuffer

open Function Luwu.Storage

variable {α : Type*} {b : Block α} {c h i p : ℕ} {a : α} {l : List α}

/-! ### Places -/

/-- Which element of the ring has its place here -/
def offset (c h p : ℕ) : ℕ := if h ≤ p then p - h else p + c - h

/-- The place of an element -/
def place (c h i : ℕ) : ℕ := (h + i) % c

theorem place_eq (hh : h < c) (hi : i ≤ c) : place c h i = if h + i < c then h + i else h + i - c := by
  unfold place
  by_cases hlt : h + i < c
  · rw [if_pos hlt, Nat.mod_eq_of_lt hlt]
  · rw [if_neg hlt, Nat.mod_eq_sub_mod (by omega), Nat.mod_eq_of_lt (by omega)]

theorem place_lt (hh : h < c) : place c h i < c := Nat.mod_lt _ (by omega)

theorem offset_place (hh : h < c) (hi : i < c) : offset c h (place c h i) = i := by
  rw [place_eq hh (Nat.le_of_lt hi)]
  unfold offset
  by_cases hlt : h + i < c
  · rw [if_pos hlt, if_pos (by omega), Nat.add_sub_cancel_left]
  · rw [if_neg hlt, if_neg (by omega)]
    omega

theorem eq_place (hh : h < c) (hp : p < c) (ho : offset c h p = i) : p = place c h i := by
  unfold offset at ho
  have hi : i ≤ c := by
    by_cases hle : h ≤ p
    · rw [if_pos hle] at ho
      omega
    · rw [if_neg hle] at ho
      omega
  rw [place_eq hh hi]
  by_cases hle : h ≤ p
  · rw [if_pos hle] at ho
    rw [if_pos (by omega)]
    omega
  · rw [if_neg hle] at ho
    rw [if_neg (by omega)]
    omega

/-! ### Layouts -/

def slotAt (l : List α) (i : ℕ) : Slot α :=
  match l[i]? with
  | some a => .live a
  | none => .raw

theorem slotAt_of_lt (hi : i < l.length) : slotAt l i = .live l[i] := by
  unfold slotAt
  rw [List.getElem?_eq_getElem hi]

theorem slotAt_of_le (hi : l.length ≤ i) : slotAt l i = .raw := by
  unfold slotAt
  rw [List.getElem?_eq_none hi]

theorem slotAt_cons_succ (a : α) (l : List α) (i : ℕ) : slotAt (a :: l) (i + 1) = slotAt l i := rfl

theorem slotAt_snoc (a : α) (l : List α) (i : ℕ) : slotAt (l ++ [a]) i = if i = l.length then .live a else slotAt l i := by
  by_cases hi : i = l.length
  · rw [if_pos hi, hi, slotAt_of_lt (by simp)]
    simp
  · rw [if_neg hi]
    rcases Nat.lt_or_ge i l.length with hlt | hge
    · rw [slotAt_of_lt hlt, slotAt_of_lt (by simp; omega), List.getElem_append_left hlt]
    · rw [slotAt_of_le hge, slotAt_of_le (by simp; omega)]

theorem slotAt_set (l : List α) (hi : i < l.length) (a : α) (j : ℕ) :
    slotAt (l.set i a) j = if j = i then .live a else slotAt l j := by
  unfold slotAt
  rw [List.getElem?_set]
  by_cases hj : i = j
  · rw [if_pos hj, if_pos (hj ▸ hi), if_pos hj.symm]
  · rw [if_neg hj, if_neg fun h => hj h.symm]

/-- The list is laid out from position `h` on. -/
def Laid (b : Block α) (h : ℕ) (l : List α) : Prop := ∀ p < b.capacity, b.cells p = slotAt l (offset b.capacity h p)

theorem Laid.get (hl : Laid b h l) (hh : h < b.capacity) (hfit : l.length ≤ b.capacity) (hi : i < l.length) :
    b.cells (place b.capacity h i) = .live l[i] := by
  rw [hl _ (place_lt hh), offset_place hh (by omega), slotAt_of_lt hi]

theorem Laid.free (hl : Laid b h l) (hh : h < b.capacity) (hfit : l.length < b.capacity) :
    b.cells (place b.capacity h l.length) = .raw := by
  rw [hl _ (place_lt hh), offset_place hh hfit, slotAt_of_le (Nat.le_refl _)]

/-- An element behind the last one -/
theorem Laid.snoc (hl : Laid b h l) (hh : h < b.capacity) (hfit : l.length < b.capacity) (a : α) :
    Laid ⟨b.capacity, update b.cells (place b.capacity h l.length) (.live a)⟩ h (l ++ [a]) := by
  intro p hp
  show update b.cells _ _ p = slotAt (l ++ [a]) (offset b.capacity h p)
  rw [slotAt_snoc]
  by_cases he : p = place b.capacity h l.length
  · rw [he, update_self, offset_place hh hfit, if_pos rfl]
  · rw [update_of_ne he, if_neg fun ho => he (eq_place hh hp ho)]
    exact hl p hp

/-- The last element goes. -/
theorem Laid.unsnoc (hl : Laid b h (l ++ [a])) (hh : h < b.capacity) (hfit : l.length < b.capacity) :
    Laid ⟨b.capacity, update b.cells (place b.capacity h l.length) .raw⟩ h l := by
  intro p hp
  show update b.cells _ _ p = slotAt l (offset b.capacity h p)
  by_cases he : p = place b.capacity h l.length
  · rw [he, update_self, offset_place hh hfit, slotAt_of_le (Nat.le_refl _)]
  · have hcell := hl p hp
    rw [slotAt_snoc, if_neg fun ho => he (eq_place hh hp ho)] at hcell
    rw [update_of_ne he, hcell]

/-- The position before the first element -/
def before (c h : ℕ) : ℕ := if h = 0 then c - 1 else h - 1

/-- The position behind the first element -/
def behind (c h : ℕ) : ℕ := if h + 1 = c then 0 else h + 1

theorem before_lt (hh : h < c) : before c h < c := by
  unfold before
  by_cases hz : h = 0
  · rw [if_pos hz]
    omega
  · rw [if_neg hz]
    omega

theorem behind_lt (hh : h < c) : behind c h < c := by
  unfold behind
  by_cases hz : h + 1 = c
  · rw [if_pos hz]
    omega
  · rw [if_neg hz]
    omega

theorem offset_self : offset c h h = 0 := by
  unfold offset
  rw [if_pos (Nat.le_refl h), Nat.sub_self]

/-- One step back at the front is one step more to everything else. -/
theorem offset_before (hh : h < c) (hp : p < c) (hne : p ≠ before c h) : offset c (before c h) p = offset c h p + 1 := by
  unfold offset before at *
  grind

theorem offset_behind (hh : h < c) (hp : p < c) (hne : p ≠ h) : offset c h p = offset c (behind c h) p + 1 := by
  unfold offset behind
  grind

theorem offset_before_last (hh : h < c) : offset c h (before c h) = c - 1 := by
  unfold offset before
  grind

theorem offset_behind_last (hh : h < c) : offset c (behind c h) h = c - 1 := by
  unfold offset behind
  grind

theorem Laid.free_front (hl : Laid b h l) (hh : h < b.capacity) (hfit : l.length < b.capacity) :
    b.cells (before b.capacity h) = .raw := by
  rw [hl _ (before_lt hh), offset_before_last hh, slotAt_of_le (by omega)]

/-- An element before the first one -/
theorem Laid.cons (hl : Laid b h l) (hh : h < b.capacity) (a : α) :
    Laid ⟨b.capacity, update b.cells (before b.capacity h) (.live a)⟩ (before b.capacity h) (a :: l) := by
  intro p hp
  show update b.cells _ _ p = slotAt (a :: l) (offset b.capacity (before b.capacity h) p)
  by_cases he : p = before b.capacity h
  · rw [he, update_self, offset_self]
    rfl
  · rw [update_of_ne he, offset_before hh hp he, slotAt_cons_succ]
    exact hl p hp

theorem Laid.first (hl : Laid b h (a :: l)) (hh : h < b.capacity) : b.cells h = .live a := by
  rw [hl h hh, offset_self]
  rfl

/-- The first element goes. -/
theorem Laid.uncons (hl : Laid b h (a :: l)) (hh : h < b.capacity) (hfit : l.length < b.capacity) :
    Laid ⟨b.capacity, update b.cells h .raw⟩ (behind b.capacity h) l := by
  intro p hp
  show update b.cells _ _ p = slotAt l (offset b.capacity (behind b.capacity h) p)
  by_cases he : p = h
  · rw [he, update_self, offset_behind_last hh, slotAt_of_le (by omega)]
  · rw [update_of_ne he, hl p hp, offset_behind hh hp he, slotAt_cons_succ]

theorem Laid.set (hl : Laid b h l) (hh : h < b.capacity) (hfit : l.length ≤ b.capacity) (hi : i < l.length) (a : α) :
    Laid ⟨b.capacity, update b.cells (place b.capacity h i) (.live a)⟩ h (l.set i a) := by
  intro p hp
  show update b.cells _ _ p = slotAt (l.set i a) (offset b.capacity h p)
  rw [slotAt_set l hi]
  by_cases he : p = place b.capacity h i
  · rw [he, update_self, offset_place hh (by omega), if_pos rfl]
  · rw [update_of_ne he, if_neg fun ho => he (eq_place hh hp ho)]
    exact hl p hp

/-! ### The two segments -/

/-- The elements up to the end of the block -/
theorem Laid.head (hl : Laid b h l) {k : ℕ} (hin : h + k < b.capacity) : b.cells (h + k) = slotAt l k := by
  rw [hl _ hin]
  unfold offset
  rw [if_pos (by omega), Nat.add_sub_cancel_left]

/-- The elements from the start of the block on -/
theorem Laid.tail (hl : Laid b h l) {k : ℕ} (hh : h < b.capacity) (hk : k < h) :
    b.cells k = slotAt l (b.capacity - h + k) := by
  rw [hl _ (by omega)]
  unfold offset
  rw [if_neg (by omega)]
  congr 1
  omega

theorem slotAt_live (hi : i < l.length) : ∃ a, slotAt l i = .live a := ⟨_, slotAt_of_lt hi⟩

theorem slotAt_ne_raw (hi : i < l.length) : slotAt l i ≠ .raw := by
  rw [slotAt_of_lt hi]
  exact fun h => by cases h

end Luwu.RingBuffer
