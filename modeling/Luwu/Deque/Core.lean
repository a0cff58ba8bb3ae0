import Mathlib.Algebra.Group.Nat.Defs
import Mathlib.Logic.Function.Basic
import Luwu.Lib.Storage

/-!
# VecDeque

The double-ended queue of `VecDeque.h`, a ring buffer that grows.  Each buffer belongs to one queue.  An allocation fails when `room`
says so, and always when the array would be larger than any object can be.
-/

namespace Luwu.Deque

open Function Luwu.Storage

inductive Stop where
  | fault
  | assertion
  | badalloc
  deriving DecidableEq

abbrev DequeM := Except Stop

def orFault {β : Type} : Option β → DequeM β
  | some b => .ok b
  | none => .error .fault

/-- `LUAU_ASSERT` -/
def assertion (b : Bool) : DequeM Unit := if b then .ok ⟨⟩ else .error .assertion

/-- No array has more elements. -/
def maxElements : ℕ := 2 ^ 62

structure VecDeque (α : Type) where
  buffer : Block α
  head : ℕ
  queue_size : ℕ

variable {α : Type}

/-- `std::allocator::allocate` -/
def allocate (room : ℕ → Bool) (n : ℕ) : DequeM (Block α) :=
  if n ≤ maxElements ∧ room n = true then .ok (.allocate n) else .error .badalloc

/-- `std::numeric_limits<size_t>::max() / sizeof(T)` -/
def max_size (size : ℕ) : ℕ := (2 ^ 64 - 1) / size

namespace VecDeque

def default : VecDeque α := ⟨.allocate 0, 0, 0⟩

abbrev capacity (q : VecDeque α) : ℕ := q.buffer.capacity

/-- How many elements are in the head portion -/
def head_size (q : VecDeque α) : ℕ := min q.queue_size (q.capacity - q.head)

/-- How many elements wrapped to the front -/
def tail_size (q : VecDeque α) : ℕ := q.queue_size - q.head_size

/-- Only the buffer is touched. -/
def destroyElements (q : VecDeque α) : DequeM (VecDeque α) := do
  let buffer ← orFault (q.buffer.destroyRange q.head q.head_size)
  let buffer ← orFault (buffer.destroyRange 0 q.tail_size)
  return { q with buffer := buffer }

def is_full (q : VecDeque α) : Bool := q.queue_size == q.capacity

/-- What `grow`, `reserve` and `shrink_to_fit` do once they have a new buffer -/
def relocate (q : VecDeque α) (new_buffer : Block α) : DequeM (VecDeque α) := do
  let (buffer, new_buffer) ← orFault (q.buffer.uninitialized_move q.head q.head_size new_buffer 0)
  let (buffer, new_buffer) ← orFault (buffer.uninitialized_move 0 q.tail_size new_buffer q.head_size)
  let q ← destroyElements { q with buffer := buffer }
  orFault q.buffer.deallocate
  return { q with buffer := new_buffer, head := 0 }

def grow (room : ℕ → Bool) (size : ℕ) (q : VecDeque α) : DequeM (VecDeque α) := do
  let new_capacity := if 0 < q.capacity then q.capacity * 3 % 2 ^ 64 / 2 + 1 else 4
  if max_size size < new_capacity then .error .badalloc
  else do
    let new_buffer ← allocate room new_capacity
    assertion (q.capacity == q.queue_size)
    q.relocate new_buffer

def logicalToPhysical (q : VecDeque α) (pos : ℕ) : DequeM ℕ :=
  if q.capacity = 0 then .error .fault else .ok ((q.head + pos) % q.capacity)

/-- `VecDeque(const VecDeque& other)` -/
def copy (room : ℕ → Bool) (other : VecDeque α) : DequeM (VecDeque α) := do
  let buffer ← allocate room other.capacity
  let buffer ← orFault (other.buffer.uninitialized_copy other.head other.head_size buffer other.head)
  let buffer ← orFault (other.buffer.uninitialized_copy 0 other.tail_size buffer 0)
  return ⟨buffer, other.head, other.queue_size⟩

/-- `~VecDeque` -/
def destruct (q : VecDeque α) : DequeM Unit := do
  let q ← q.destroyElements
  orFault q.buffer.deallocate

/-- Another buffer where this one is too small -/
def ensureBuffer (room : ℕ → Bool) (q other : VecDeque α) : DequeM (Block α) :=
  if q.capacity < other.queue_size then do
    orFault q.buffer.deallocate
    allocate room other.capacity
  else .ok q.buffer

/-- `operator=(const VecDeque& other)`, where the other queue is not this one -/
def assign (room : ℕ → Bool) (q other : VecDeque α) : DequeM (VecDeque α) := do
  let q ← q.destroyElements
  let buffer ← q.ensureBuffer room other
  let buffer ← orFault (other.buffer.uninitialized_copy other.head other.head_size buffer 0)
  let buffer ← orFault (other.buffer.uninitialized_copy 0 other.tail_size buffer other.head_size)
  return ⟨buffer, 0, other.queue_size⟩

/-- `operator[]` -/
def index (q : VecDeque α) (pos : ℕ) : DequeM ℕ := do
  assertion (decide (pos < q.queue_size))
  q.logicalToPhysical pos

def front (q : VecDeque α) : DequeM α := do
  assertion (q.queue_size != 0)
  orFault (q.buffer.read q.head)

def back (q : VecDeque α) : DequeM α := do
  assertion (q.queue_size != 0)
  let back ← q.logicalToPhysical (q.queue_size - 1)
  orFault (q.buffer.read back)

/-- With a capacity of at most `max_size` -/
def reserve (room : ℕ → Bool) (q : VecDeque α) (new_capacity : ℕ) : DequeM (VecDeque α) :=
  if new_capacity ≤ q.capacity then .ok q
  else do
    let new_buffer ← allocate room new_capacity
    q.relocate new_buffer

def shrink_to_fit (room : ℕ → Bool) (q : VecDeque α) : DequeM (VecDeque α) :=
  if q.capacity = q.queue_size then .ok q
  else do
    let new_buffer ← allocate room q.queue_size
    q.relocate new_buffer

def clear (q : VecDeque α) : DequeM (VecDeque α) := do
  let q ← q.destroyElements
  return { q with head := 0, queue_size := 0 }

def growIfFull (room : ℕ → Bool) (size : ℕ) (q : VecDeque α) : DequeM (VecDeque α) :=
  if q.is_full then q.grow room size else .ok q

def push_back (room : ℕ → Bool) (size : ℕ) (q : VecDeque α) (value : α) : DequeM (VecDeque α) := do
  let q ← q.growIfFull room size
  let next_back ← q.logicalToPhysical q.queue_size
  let buffer ← orFault (q.buffer.construct next_back value)
  return { q with buffer := buffer, queue_size := q.queue_size + 1 }

def pop_back (q : VecDeque α) : DequeM (VecDeque α) := do
  assertion (q.queue_size != 0)
  let next_back ← q.logicalToPhysical (q.queue_size - 1)
  let buffer ← orFault (q.buffer.destroy next_back)
  return { q with buffer := buffer, queue_size := q.queue_size - 1 }

def push_front (room : ℕ → Bool) (size : ℕ) (q : VecDeque α) (value : α) : DequeM (VecDeque α) := do
  let q ← q.growIfFull room size
  let head := if q.head = 0 then q.capacity - 1 else q.head - 1
  let buffer ← orFault (q.buffer.construct head value)
  return ⟨buffer, head, q.queue_size + 1⟩

def pop_front (q : VecDeque α) : DequeM (VecDeque α) := do
  assertion (q.queue_size != 0)
  let buffer ← orFault (q.buffer.destroy q.head)
  return ⟨buffer, if q.head + 1 = q.capacity then 0 else q.head + 1, q.queue_size - 1⟩

end VecDeque

end Luwu.Deque
