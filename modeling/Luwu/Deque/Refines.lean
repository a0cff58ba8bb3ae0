import Mathlib.Tactic.ByContra
import Mathlib.Order.Basic
import Luwu.Deque.Core
import Luwu.Lib.Storage

/-!
# VecDeque refines a list

A queue holds a list when the list is laid out in its buffer from the head on.  Every operation keeps this and answers as the list does.
-/

namespace Luwu.Deque

open Function Luwu.Storage Luwu.RingBuffer

/-- The computation throws, for want of memory, or gives a result that satisfies `P`. -/
def Yields {β : Type} (x : DequeM β) (P : β → Prop) : Prop := x = .error .badalloc ∨ ∃ b, x = .ok b ∧ P b

theorem Yields.bind {β γ : Type} {x : DequeM β} {f : β → DequeM γ} {P : β → Prop} {Q : γ → Prop} (h : Yields x P)
    (hf : ∀ b, P b → Yields (f b) Q) : Yields (x >>= f) Q := by
  rcases h with rfl | ⟨b, rfl, hb⟩
  · exact Or.inl rfl
  · exact hf b hb

theorem Yields.ok {β : Type} {b : β} {P : β → Prop} (h : P b) : Yields (.ok b) P := Or.inr ⟨b, rfl, h⟩

section Queue

variable {α : Type} {q q' : VecDeque α} {l l' : List α} {b : Block α} {a : α} {room : ℕ → Bool} {k n size : ℕ}

structure Holds (q : VecDeque α) (l : List α) : Prop where
  size : q.queue_size = l.length
  fits : l.length ≤ q.capacity
  head : q.head < q.capacity ∨ q.head = 0 ∧ q.capacity = 0
  small : q.capacity ≤ maxElements
  laid : Laid q.buffer q.head l

theorem holds_default : Holds (VecDeque.default : VecDeque α) [] := by
  refine ⟨rfl, Nat.zero_le _, Or.inr ⟨rfl, rfl⟩, Nat.zero_le _, fun p hp => ?_⟩
  exact absurd hp (Nat.not_lt_zero p)

/-! ### The two portions -/

theorem VecDeque.portions (hfit : q.queue_size ≤ q.capacity) (hhead : q.head < q.capacity ∨ q.head = 0 ∧ q.capacity = 0) :
    q.head_size + q.tail_size = q.queue_size ∧ q.head + q.head_size ≤ q.capacity ∧ q.tail_size ≤ q.head ∧
      (0 < q.tail_size → q.head + q.head_size = q.capacity) := by
  unfold VecDeque.tail_size VecDeque.head_size
  omega

theorem Holds.portions (H : Holds q l) : q.head_size + q.tail_size = l.length ∧ q.head + q.head_size ≤ q.capacity ∧
    q.tail_size ≤ q.head ∧ (0 < q.tail_size → q.head + q.head_size = q.capacity) := by
  have h := VecDeque.portions (H.size.trans_le H.fits) H.head
  rwa [H.size] at h

theorem Holds.head_cell (H : Holds q l) (hk : k < q.head_size) : q.buffer.cells (q.head + k) = slotAt l k := by
  obtain ⟨-, hin, -⟩ := H.portions
  exact H.laid.head (show q.head + k < q.capacity by omega)

theorem Holds.tail_cell (H : Holds q l) (hk : k < q.tail_size) : q.buffer.cells k = slotAt l (q.head_size + k) := by
  obtain ⟨-, -, hle, hwrap⟩ := H.portions
  have hcap := hwrap (by omega)
  have hhead : q.head < q.capacity := H.head.resolve_right (by omega)
  rw [H.laid.tail hhead (show k < q.head by omega)]
  congr 1
  show q.capacity - q.head + k = _
  omega

/-- Raw are the slots that are in neither portion. -/
theorem mem_portions (hfit : q.queue_size ≤ q.capacity) (hhead : q.head < q.capacity ∨ q.head = 0 ∧ q.capacity = 0) {p : ℕ}
    (hp : p < q.capacity) : offset q.capacity q.head p < q.queue_size ↔
      (q.head ≤ p ∧ p < q.head + q.head_size) ∨ (0 ≤ p ∧ p < 0 + q.tail_size) := by
  obtain ⟨hsum, hin, hle, hwrap⟩ := VecDeque.portions hfit hhead
  have hsize : q.head_size = min q.queue_size (q.capacity - q.head) := rfl
  unfold offset
  by_cases h : q.head ≤ p
  · rw [if_pos h]
    omega
  · rw [if_neg h]
    omega

/-- **`destroyElements`** leaves raw memory. -/
theorem destroyElements_spec (hfit : q.queue_size ≤ q.capacity) (hhead : q.head < q.capacity ∨ q.head = 0 ∧ q.capacity = 0)
    (hcells : ∀ p < q.capacity, q.buffer.cells p ≠ .raw ↔ offset q.capacity q.head p < q.queue_size) :
    ∃ b, q.destroyElements = .ok { q with buffer := b } ∧ b.capacity = q.capacity ∧ ∀ p < q.capacity, b.cells p = .raw := by
  obtain ⟨hsum, hin, hle, hwrap⟩ := VecDeque.portions hfit hhead
  have hfirst := Block.destroyRange_eq q.buffer q.head_size q.head hin fun p h1 h2 =>
    (hcells p (by omega)).mpr ((mem_portions hfit hhead (by omega)).mpr (Or.inl ⟨h1, h2⟩))
  have hsecond := Block.destroyRange_eq
    ⟨q.buffer.capacity, Block.overwrite q.buffer.cells q.head q.head_size fun _ => .raw⟩ q.tail_size 0
    (show 0 + q.tail_size ≤ q.capacity by omega) fun p h1 h2 => by
      dsimp only
      rw [Block.overwrite_of_notMem _ _ (by omega)]
      exact (hcells p (by omega)).mpr ((mem_portions hfit hhead (by omega)).mpr (Or.inr ⟨h1, h2⟩))
  unfold VecDeque.destroyElements
  rw [hfirst]
  dsimp only [orFault, bind, Except.bind]
  rw [hsecond]
  refine ⟨_, rfl, rfl, fun p hp => ?_⟩
  dsimp only
  by_cases h2 : 0 ≤ p ∧ p < 0 + q.tail_size
  · exact Block.overwrite_of_mem _ _ h2
  rw [Block.overwrite_of_notMem _ _ h2]
  by_cases h1 : q.head ≤ p ∧ p < q.head + q.head_size
  · exact Block.overwrite_of_mem _ _ h1
  rw [Block.overwrite_of_notMem _ _ h1]
  by_contra hne
  rcases (mem_portions hfit hhead hp).mp ((hcells p hp).mp hne) with h | h
  · exact h1 h
  · exact h2 h

theorem Holds.cells_iff (H : Holds q l) {p : ℕ} (hp : p < q.capacity) :
    q.buffer.cells p ≠ .raw ↔ offset q.capacity q.head p < q.queue_size := by
  rw [H.laid p hp, H.size]
  rcases Nat.lt_or_ge (offset q.buffer.capacity q.head p) l.length with h | h
  · exact iff_of_true (slotAt_ne_raw h) h
  · exact iff_of_false (fun hne => hne (slotAt_of_le h)) (Nat.not_lt.mpr h)

theorem Holds.destroyed (H : Holds q l) :
    ∃ b, q.destroyElements = .ok { q with buffer := b } ∧ b.capacity = q.capacity ∧ ∀ p < q.capacity, b.cells p = .raw :=
  destroyElements_spec (H.size.trans_le H.fits) H.head fun _ hp => H.cells_iff hp

/-- **The two portions one after the other** are the list. -/
theorem Holds.gathered (H : Holds q l) {f g : ℕ → Slot α} (hf : ∀ p < n, f p = .raw) (hg : ∀ k < q.tail_size, g k = q.buffer.cells k)
    {p : ℕ} (hp : p < n) : Block.overwrite (Block.overwrite f 0 q.head_size fun p => q.buffer.cells (q.head + (p - 0)))
      (0 + q.head_size) q.tail_size (fun p => g (0 + (p - (0 + q.head_size)))) p = slotAt l p := by
  obtain ⟨hsum, -⟩ := H.portions
  by_cases h2 : 0 + q.head_size ≤ p ∧ p < 0 + q.head_size + q.tail_size
  · rw [Block.overwrite_of_mem _ _ h2, hg _ (by omega), H.tail_cell (by omega)]
    congr 1
    omega
  rw [Block.overwrite_of_notMem _ _ h2]
  by_cases h1 : 0 ≤ p ∧ p < 0 + q.head_size
  · rw [Block.overwrite_of_mem _ _ h1, H.head_cell (by omega), Nat.sub_zero]
  rw [Block.overwrite_of_notMem _ _ h1, hf p hp, slotAt_of_le (by omega)]

theorem laid_zero (h : ∀ p < b.capacity, b.cells p = slotAt l p) : Laid b 0 l := by
  intro p hp
  unfold offset
  rw [if_pos (Nat.zero_le p), Nat.sub_zero]
  exact h p hp

/-- **A new buffer** with room for the list -/
theorem relocate_spec (H : Holds q l) (hn : l.length ≤ n) (hsmall : n ≤ maxElements) :
    ∃ q', q.relocate (.allocate n) = .ok q' ∧ Holds q' l ∧ q'.capacity = n := by
  obtain ⟨hsum, hin, hle, hwrap⟩ := H.portions
  have hlive : ∀ k < q.head_size, ∃ a, q.buffer.cells (q.head + k) = .live a := fun k hk => by
    rw [H.head_cell hk]
    exact slotAt_live (by omega)
  have hfirst := Block.uninitialized_move_eq q.head_size q.buffer (.allocate n) q.head 0 hin (show 0 + q.head_size ≤ n by omega) hlive
    fun _ _ => rfl
  obtain ⟨src, hsrc⟩ : ∃ src, src = Block.overwrite q.buffer.cells q.head q.head_size fun _ => .moved := ⟨_, rfl⟩
  have hkeep : ∀ k < q.tail_size, src k = q.buffer.cells k := fun k hk => by
    rw [hsrc, Block.overwrite_of_notMem _ _ (by omega)]
  have hsecond := Block.uninitialized_move_eq q.tail_size ⟨q.buffer.capacity, src⟩
    ⟨n, Block.overwrite (fun _ => .raw) 0 q.head_size fun p => q.buffer.cells (q.head + (p - 0))⟩ 0 (0 + q.head_size)
    (show 0 + q.tail_size ≤ q.capacity by omega) (show 0 + q.head_size + q.tail_size ≤ n by omega)
    (fun k hk => by
      show ∃ a, src (0 + k) = .live a
      rw [Nat.zero_add, hkeep k hk, H.tail_cell hk]
      exact slotAt_live (by omega))
    (fun k hk => by
      dsimp only
      rw [Block.overwrite_of_notMem _ _ (by omega)])
  -- what is left in the old buffer
  obtain ⟨b, hdestroy, hbcap, hbraw⟩ := destroyElements_spec
    (q := { q with buffer := ⟨q.buffer.capacity, Block.overwrite src 0 q.tail_size fun _ => .moved⟩ }) (H.size.trans_le H.fits) H.head
    (fun p hp => by
      rw [hsrc]
      change Block.overwrite (Block.overwrite q.buffer.cells q.head q.head_size fun _ => .moved) 0 q.tail_size (fun _ => .moved) p ≠ .raw ↔
        offset q.capacity q.head p < q.queue_size
      rw [mem_portions (H.size.trans_le H.fits) H.head hp]
      by_cases h2 : 0 ≤ p ∧ p < 0 + q.tail_size
      · rw [Block.overwrite_of_mem _ _ h2]
        exact iff_of_true (fun h => by cases h) (Or.inr h2)
      rw [Block.overwrite_of_notMem _ _ h2]
      by_cases h1 : q.head ≤ p ∧ p < q.head + q.head_size
      · rw [Block.overwrite_of_mem _ _ h1]
        exact iff_of_true (fun h => by cases h) (Or.inl h1)
      rw [Block.overwrite_of_notMem _ _ h1, H.cells_iff hp, mem_portions (H.size.trans_le H.fits) H.head hp])
  have hdealloc := Block.deallocate_eq (b := b) fun i hi => hbraw i (hbcap ▸ hi)
  unfold VecDeque.relocate
  rw [hfirst, ← hsrc]
  dsimp only [orFault, bind, Except.bind, Block.allocate]
  rw [Nat.zero_add] at hsecond
  rw [hsecond]
  dsimp only [orFault, bind, Except.bind]
  rw [hdestroy]
  dsimp only [orFault, bind, Except.bind]
  rw [hdealloc]
  refine ⟨_, rfl, ⟨H.size, hn, ?_, hsmall, laid_zero fun p hp => ?_⟩, rfl⟩
  · show 0 < n ∨ 0 = 0 ∧ n = 0
    omega
  · have h := H.gathered (n := n) (f := fun _ => .raw) (g := src) (fun _ _ => rfl) hkeep hp
    rwa [Nat.zero_add] at h

theorem allocate_yields (room : ℕ → Bool) (n : ℕ) : Yields (allocate room n) fun b : Block α => b = .allocate n ∧ n ≤ maxElements := by
  unfold allocate
  by_cases h : n ≤ maxElements ∧ room n = true
  · rw [if_pos h]
    exact Yields.ok ⟨rfl, h.1⟩
  · rw [if_neg h]
    exact Or.inl rfl

theorem reserve_spec (H : Holds q l) (n : ℕ) : Yields (q.reserve room n) fun q' => Holds q' l := by
  unfold VecDeque.reserve
  by_cases hn : n ≤ q.capacity
  · rw [if_pos hn]
    exact Yields.ok H
  · rw [if_neg hn]
    refine (allocate_yields room n).bind fun b hb => ?_
    obtain ⟨rfl, hsmall⟩ := hb
    obtain ⟨q', hrun, H', -⟩ := relocate_spec H (by have := H.fits; omega) hsmall
    exact Or.inr ⟨q', hrun, H'⟩

theorem shrink_to_fit_spec (H : Holds q l) : Yields (q.shrink_to_fit room) fun q' => Holds q' l := by
  unfold VecDeque.shrink_to_fit
  by_cases hn : q.capacity = q.queue_size
  · rw [if_pos hn]
    exact Yields.ok H
  · rw [if_neg hn]
    refine (allocate_yields room q.queue_size).bind fun b hb => ?_
    obtain ⟨rfl, hsmall⟩ := hb
    obtain ⟨q', hrun, H', -⟩ := relocate_spec H (by have := H.size; omega) hsmall
    exact Or.inr ⟨q', hrun, H'⟩

/-- **`grow`** makes room for one more. -/
theorem growIfFull_spec (H : Holds q l) (room : ℕ → Bool) (size : ℕ) :
    Yields (q.growIfFull room size) fun q' => Holds q' l ∧ l.length < q'.capacity := by
  unfold VecDeque.growIfFull
  by_cases hfull : q.is_full = true
  · rw [if_pos hfull]
    have hsize : q.queue_size = q.capacity := eq_of_beq hfull
    have hlen : l.length = q.capacity := by rw [← H.size, hsize]
    have hsmall : q.capacity ≤ 2 ^ 62 := H.small
    unfold VecDeque.grow
    obtain ⟨n, hn, hlt⟩ : ∃ n, n = (if 0 < q.capacity then q.capacity * 3 % 2 ^ 64 / 2 + 1 else 4) ∧ q.capacity < n := by
      refine ⟨_, rfl, ?_⟩
      by_cases hpos : 0 < q.capacity
      · rw [if_pos hpos, Nat.mod_eq_of_lt (by omega)]
        omega
      · rw [if_neg hpos]
        omega
    rw [← hn]
    dsimp only
    by_cases hmax : max_size size < n
    · rw [if_pos hmax]
      exact Or.inl rfl
    · rw [if_neg hmax]
      refine (allocate_yields room n).bind fun b hb => ?_
      obtain ⟨rfl, hsmall'⟩ := hb
      obtain ⟨q', hrun, H', hcap⟩ := relocate_spec H (by omega) hsmall'
      have hassert : assertion (q.capacity == q.queue_size) = .ok ⟨⟩ := by
        rw [hsize]
        exact if_pos (beq_self_eq_true _)
      rw [hassert]
      exact Or.inr ⟨q', hrun, H', by omega⟩
  · rw [if_neg hfull]
    have hne : q.queue_size ≠ q.capacity := fun h => hfull (beq_iff_eq.mpr h)
    have hfit := H.fits
    rw [H.size] at hne
    exact Yields.ok ⟨H, by omega⟩

theorem logicalToPhysical_eq (h : 0 < q.capacity) (pos : ℕ) : q.logicalToPhysical pos = .ok (place q.capacity q.head pos) :=
  if_neg (by omega)

theorem push_back_spec (H : Holds q l) (a : α) : Yields (q.push_back room size a) fun q' => Holds q' (l ++ [a]) := by
  refine (growIfFull_spec H room size).bind fun q hq => ?_
  obtain ⟨H, hlt⟩ := hq
  have hhead : q.head < q.capacity := H.head.resolve_right (by omega)
  rw [logicalToPhysical_eq (by omega), H.size]
  dsimp only [bind, Except.bind]
  rw [Block.construct_eq (place_lt hhead) (H.laid.free hhead hlt)]
  exact Yields.ok ⟨by rw [List.length_append]; rfl, by rw [List.length_append]; exact hlt, Or.inl hhead, H.small, H.laid.snoc hhead hlt a⟩

theorem push_front_spec (H : Holds q l) (a : α) : Yields (q.push_front room size a) fun q' => Holds q' (a :: l) := by
  refine (growIfFull_spec H room size).bind fun q hq => ?_
  obtain ⟨H, hlt⟩ := hq
  have hhead : q.head < q.capacity := H.head.resolve_right (by omega)
  change Yields (orFault (q.buffer.construct (before q.capacity q.head) a) >>= _) _
  rw [Block.construct_eq (before_lt hhead) (H.laid.free_front hhead hlt)]
  exact Yields.ok ⟨by rw [List.length_cons, ← H.size], hlt, Or.inl (before_lt hhead), H.small, H.laid.cons hhead a⟩

/-- Where there is an element there is room for it. -/
theorem Holds.head_lt (H : Holds q l) (hl : l ≠ []) : q.head < q.capacity := by
  have hpos := List.length_pos_of_ne_nil hl
  have hfit := H.fits
  exact H.head.resolve_right (by omega)

theorem Holds.nonempty (H : Holds q l) (hl : l ≠ []) : assertion (q.queue_size != 0) = .ok ⟨⟩ := by
  have hpos := List.length_pos_of_ne_nil hl
  refine if_pos (bne_iff_ne.mpr ?_)
  rw [H.size]
  omega

theorem Holds.isEmpty (H : Holds q []) : assertion (q.queue_size != 0) = .error .assertion := by
  rw [H.size]
  rfl

theorem pop_back_spec (H : Holds q (l ++ [a])) : ∃ q', q.pop_back = .ok q' ∧ Holds q' l := by
  have hhead := H.head_lt (by simp)
  have hsize := H.size
  have hfit := H.fits
  rw [List.length_append, List.length_singleton] at hsize hfit
  have hlast : q.queue_size - 1 = l.length := by omega
  have hlive := H.laid.get hhead H.fits (i := l.length) (by simp)
  unfold VecDeque.pop_back
  rw [H.nonempty (by simp), hlast, logicalToPhysical_eq (by omega)]
  dsimp only [bind, Except.bind]
  rw [Block.destroy_eq (place_lt hhead) (by rw [hlive]; exact fun h => by cases h)]
  exact ⟨_, rfl, rfl, by show l.length ≤ q.capacity; omega, Or.inl hhead, H.small, H.laid.unsnoc hhead hfit⟩

theorem pop_front_spec (H : Holds q (a :: l)) : ∃ q', q.pop_front = .ok q' ∧ Holds q' l := by
  have hhead := H.head_lt (by simp)
  have hfit := H.fits
  rw [List.length_cons] at hfit
  unfold VecDeque.pop_front
  rw [H.nonempty (by simp)]
  dsimp only [bind, Except.bind]
  rw [Block.destroy_eq hhead (by rw [H.laid.first hhead]; exact fun h => by cases h)]
  refine ⟨_, rfl, ?_, by show l.length ≤ q.capacity; omega, Or.inl (behind_lt hhead), H.small, H.laid.uncons hhead hfit⟩
  show q.queue_size - 1 = l.length
  rw [H.size]
  rfl

theorem front_spec (H : Holds q (a :: l)) : q.front = .ok a := by
  have hhead := H.head_lt (by simp)
  unfold VecDeque.front
  rw [H.nonempty (by simp), Block.read_eq hhead (H.laid.first hhead)]
  rfl

/-- An element by its number -/
theorem element_spec (H : Holds q l) (hk : k < l.length) : ∃ p, q.logicalToPhysical k = .ok p ∧ q.buffer.read p = some l[k] ∧
    ∀ a, ∃ b, q.buffer.assign p a = some b ∧ Holds { q with buffer := b } (l.set k a) := by
  have hhead := H.head_lt (List.ne_nil_of_length_pos (by omega))
  have hlive := H.laid.get hhead H.fits hk
  refine ⟨_, logicalToPhysical_eq (by omega) k, Block.read_eq (place_lt hhead) hlive, fun a => ?_⟩
  refine ⟨_, Block.assign_eq (place_lt hhead) (by rw [hlive]; exact fun h => by cases h), ?_⟩
  refine ⟨H.size.trans (List.length_set ..).symm, ?_, Or.inl hhead, H.small, H.laid.set hhead H.fits hk a⟩
  rw [List.length_set]
  exact H.fits

theorem back_spec (H : Holds q (l ++ [a])) : q.back = .ok a := by
  obtain ⟨p, hp, hread, -⟩ := element_spec H (k := l.length) (by simp)
  have hlast : q.queue_size - 1 = l.length := by
    rw [H.size]
    simp
  unfold VecDeque.back
  rw [H.nonempty (by simp), hlast, hp]
  dsimp only [bind, Except.bind]
  rw [hread]
  simp [orFault]

theorem clear_spec (H : Holds q l) : ∃ q', q.clear = .ok q' ∧ Holds q' [] := by
  obtain ⟨b, hrun, hcap, hraw⟩ := H.destroyed
  unfold VecDeque.clear
  rw [hrun]
  refine ⟨_, rfl, rfl, Nat.zero_le _, ?_, hcap.trans_le H.small, fun p hp => hraw p (hcap ▸ hp)⟩
  show 0 < b.capacity ∨ 0 = 0 ∧ b.capacity = 0
  omega

theorem destruct_spec (H : Holds q l) : q.destruct = .ok ⟨⟩ := by
  obtain ⟨b, hrun, hcap, hraw⟩ := H.destroyed
  unfold VecDeque.destruct
  rw [hrun]
  dsimp only [bind, Except.bind]
  rw [Block.deallocate_eq fun i hi => hraw i (hcap ▸ hi)]
  rfl

/-- The elements of the head portion -/
theorem Holds.live_head (H : Holds q l) : ∀ k < q.head_size, ∃ a, q.buffer.cells (q.head + k) = .live a := fun k hk => by
  rw [H.head_cell hk]
  exact slotAt_live (by have := H.portions; omega)

theorem Holds.live_tail (H : Holds q l) : ∀ k < q.tail_size, ∃ a, q.buffer.cells (0 + k) = .live a := fun k hk => by
  rw [Nat.zero_add, H.tail_cell hk]
  exact slotAt_live (by have := H.portions; omega)

theorem copy_spec (H : Holds q l) : Yields (q.copy room) fun q' => Holds q' l := by
  obtain ⟨hsum, hin, hle, hwrap⟩ := H.portions
  refine (allocate_yields room q.capacity).bind fun b hb => ?_
  obtain ⟨rfl, hsmall⟩ := hb
  have hfirst := Block.uninitialized_copy_eq q.head_size q.buffer (.allocate q.capacity) q.head q.head hin hin H.live_head fun _ _ => rfl
  have hsecond := Block.uninitialized_copy_eq q.tail_size q.buffer
    ⟨q.capacity, Block.overwrite (fun _ => .raw) q.head q.head_size fun p => q.buffer.cells (q.head + (p - q.head))⟩ 0 0
    (show 0 + q.tail_size ≤ q.capacity by omega) (show 0 + q.tail_size ≤ q.capacity by omega) H.live_tail (fun k hk => by
      dsimp only
      rw [Block.overwrite_of_notMem _ _ (by omega)])
  rw [hfirst]
  dsimp only [orFault, bind, Except.bind, Block.allocate]
  rw [hsecond]
  refine Yields.ok ⟨H.size, H.fits, H.head, H.small, fun p hp => ?_⟩
  dsimp only at hp ⊢
  -- each slot is the one of the other buffer
  have hcell : q.buffer.cells p = slotAt l (offset q.capacity q.head p) := H.laid p hp
  by_cases h2 : 0 ≤ p ∧ p < 0 + q.tail_size
  · rw [Block.overwrite_of_mem _ _ h2, Nat.zero_add, Nat.sub_zero, hcell]
  rw [Block.overwrite_of_notMem _ _ h2]
  by_cases h1 : q.head ≤ p ∧ p < q.head + q.head_size
  · rw [Block.overwrite_of_mem _ _ h1, Nat.add_sub_cancel' h1.1, hcell]
  rw [Block.overwrite_of_notMem _ _ h1]
  have hout : ¬ offset q.capacity q.head p < q.queue_size := fun h =>
    ((mem_portions (H.size.trans_le H.fits) H.head hp).mp h).elim h1 h2
  rw [H.size] at hout
  exact (slotAt_of_le (Nat.not_lt.mp hout)).symm

/-- **Assignment** from another queue -/
theorem assign_spec (H : Holds q l) (H' : Holds q' l') : Yields (q.assign room q') fun r => Holds r l' := by
  obtain ⟨hsum, hin, hle, hwrap⟩ := H'.portions
  obtain ⟨b, hrun, hcap, hraw⟩ := H.destroyed
  -- a buffer of raw memory with room for the list
  have hbuffer : Yields (VecDeque.ensureBuffer room { q with buffer := b } q') fun c =>
      l'.length ≤ c.capacity ∧ c.capacity ≤ maxElements ∧ ∀ p < c.capacity, c.cells p = .raw := by
    unfold VecDeque.ensureBuffer
    by_cases hlt : b.capacity < q'.queue_size
    · rw [if_pos hlt, Block.deallocate_eq fun i hi => hraw i (hcap ▸ hi)]
      refine (allocate_yields room q'.capacity).imp_right ?_
      rintro ⟨c, hc, rfl, hsmall⟩
      exact ⟨_, hc, H'.fits, hsmall, fun _ _ => rfl⟩
    · rw [if_neg hlt]
      refine Yields.ok ⟨?_, hcap.trans_le H.small, fun p hp => hraw p (hcap ▸ hp)⟩
      rw [← H'.size]
      exact Nat.not_lt.mp hlt
  unfold VecDeque.assign
  rw [hrun]
  refine hbuffer.bind fun c hc => ?_
  obtain ⟨hfit, hsmall, hc⟩ := hc
  have hfirst := Block.uninitialized_copy_eq q'.head_size q'.buffer c q'.head 0 hin (by omega) H'.live_head fun k hk => hc _ (by omega)
  have hsecond := Block.uninitialized_copy_eq q'.tail_size q'.buffer
    ⟨c.capacity, Block.overwrite c.cells 0 q'.head_size fun p => q'.buffer.cells (q'.head + (p - 0))⟩ 0 (0 + q'.head_size)
    (show 0 + q'.tail_size ≤ q'.capacity by omega) (show 0 + q'.head_size + q'.tail_size ≤ c.capacity by omega) H'.live_tail
    (fun k hk => by
      dsimp only
      rw [Block.overwrite_of_notMem _ _ (by omega), hc _ (by omega)])
  rw [hfirst]
  dsimp only [orFault, bind, Except.bind]
  rw [Nat.zero_add] at hsecond
  rw [hsecond]
  refine Yields.ok ⟨H'.size, hfit, ?_, hsmall, laid_zero fun p hp => ?_⟩
  · show 0 < c.capacity ∨ 0 = 0 ∧ c.capacity = 0
    omega
  · have h := H'.gathered (n := c.capacity) (f := c.cells) (g := q'.buffer.cells) hc (fun _ _ => rfl) hp
    rwa [Nat.zero_add] at h

end Queue

end Luwu.Deque
