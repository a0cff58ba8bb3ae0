import Mathlib.Data.List.Basic
import Luwu.Lib.Align
import Luwu.Lib.Run

/-!
# The allocator of native code

Blocks of pages are taken from the operating system and cut into allocations from the front. Pages of an
allocation are written while they are writable and get their final protection after that. What the system and
the unwinding callback answer is an input of every call.
-/

namespace Luwu.Native

/-- `size_t` has 64 bits. -/
abbrev sizeBits : ℕ := 64

def kCodeAlignment : ℕ := 32

def kMaxReservedDataSize : ℕ := 256

/-- Pages of the system: `kPageSize` is a power of two and a multiple of the alignment of code. -/
structure Platform where
  pageBits : ℕ
  code_le : 5 ≤ pageBits
  le_size : pageBits ≤ 32

def Platform.kPageSize (p : Platform) : ℕ := 2 ^ p.pageBits

def Platform.alignToPageSize (p : Platform) (size : ℕ) : ℕ := Align.maskUp sizeBits p.pageBits size

/-- 'Round up' to preserve code alignment -/
def alignCode (size : ℕ) : ℕ := Align.maskUp sizeBits 5 size

inductive Protection where
  | none
  | readWrite
  | readOnly
  | readExecute
  deriving DecidableEq, Repr

/-- Failing to protect some pages may have changed the first of them already. -/
inductive ProtectAnswer where
  | success
  | failure (changed : ℕ)
  deriving DecidableEq, Repr

/-- What `createBlockUnwindInfo` returns, and the reserved size it leaves behind. -/
structure UnwindAnswer where
  unwindInfo : ℕ
  startOffset : ℕ
  deriving DecidableEq, Repr

/-- The answers of the outside during one call; pointers are addresses, 0 is the null pointer. -/
structure Answers where
  pages : ℕ
  unwind : Option UnwindAnswer
  readOnly : ProtectAnswer
  executable : ProtectAnswer
  deriving DecidableEq, Repr

structure CodeAllocationData where
  start : ℕ
  size : ℕ
  codeStart : ℕ
  allocationStart : ℕ
  allocationSize : ℕ
  deriving DecidableEq, Repr

def CodeAllocationData.null : CodeAllocationData := ⟨0, 0, 0, 0, 0⟩

structure CodeAllocator where
  blockPos : ℕ
  blockEnd : ℕ
  blocks : List ℕ
  unwindInfos : List ℕ
  blockSize : ℕ
  maxTotalSize : ℕ
  liveAllocations : ℕ
  /-- How the system protects a page, by its number. -/
  prot : ℕ → Protection

/-- A failed assertion, or a write to a page that is not writable. -/
inductive Stop where
  | assertion
  | fault
  deriving DecidableEq, Repr

abbrev AllocM := EStateM Stop CodeAllocator

def codegenAssert (b : Bool) : AllocM Unit := if b then pure () else throw .assertion

namespace CodeAllocator

/-- The pages from number `first` on, `count` of them, get the protection `k`. -/
def setPages (first count : ℕ) (k : Protection) (s : CodeAllocator) : CodeAllocator :=
  { s with prot := fun q => if first ≤ q ∧ q < first + count then k else s.prot q }

/-- `makePagesReadOnly`, `makePagesExecutable`, `makePagesNotExecutable` -/
def makePages (p : Platform) (k : Protection) (mem size : ℕ) : ProtectAnswer → AllocM Bool
  | .success => do
    codegenAssert (mem % p.kPageSize = 0)
    codegenAssert (size = p.alignToPageSize size)
    modify (setPages (mem / p.kPageSize) (size / p.kPageSize) k)
    return true
  | .failure changed => do
    codegenAssert (mem % p.kPageSize = 0)
    codegenAssert (size = p.alignToPageSize size)
    modify (setPages (mem / p.kPageSize) (min changed (size / p.kPageSize)) k)
    return false

/-- The bytes from `dst` on, `size` of them, are on writable pages. -/
def writable (p : Platform) (s : CodeAllocator) (dst size : ℕ) : Bool :=
  (List.range' (dst / p.kPageSize) ((dst + size - 1) / p.kPageSize + 1 - dst / p.kPageSize)).all
    fun q => s.prot q = .readWrite

def memcpy (p : Platform) (dst size : ℕ) : AllocM Unit := do
  let s ← get
  if writable p s dst size then pure () else throw .fault

def allocatePages (p : Platform) (size : ℕ) (ans : Answers) : AllocM ℕ := do
  let pageAlignedSize := p.alignToPageSize size
  codegenAssert (pageAlignedSize = p.alignToPageSize pageAlignedSize)
  if ans.pages = 0 then return 0
  modify (setPages (ans.pages / p.kPageSize) (pageAlignedSize / p.kPageSize) .readWrite)
  return ans.pages

/-- Success, and the value left in `unwindInfoSize`. -/
def allocateNewBlock (p : Platform) (unwindInfoSize : ℕ) (ans : Answers) : AllocM (Bool × ℕ) := do
  let s ← get
  -- Stop allocating once we reach a global limit
  if (s.blocks.length + 1) * s.blockSize % 2 ^ sizeBits > s.maxTotalSize then return (false, unwindInfoSize)
  let block ← allocatePages p s.blockSize ans
  if block = 0 then return (false, unwindInfoSize)
  modify fun s => { s with blockPos := block, blockEnd := block + s.blockSize, blocks := s.blocks ++ [block] }
  match ans.unwind with
  | none => return (true, unwindInfoSize)
  | some answer =>
    let unwindInfoSize := alignCode answer.startOffset
    codegenAssert (unwindInfoSize ≤ kMaxReservedDataSize)
    if answer.unwindInfo = 0 then return (false, unwindInfoSize)
    modify fun s => { s with unwindInfos := s.unwindInfos ++ [answer.unwindInfo] }
    return (true, unwindInfoSize)

/-- Offsets from `blockPos`. -/
structure Placement where
  startOffset : ℕ
  dataOffset : ℕ
  codeOffset : ℕ
  totalSize : ℕ
  pageAlignedSize : ℕ
  deriving DecidableEq, Repr

/-- We might need a new block: the offset in the current or the new one at which `size` bytes can start.
`needed` is what the assertion after `allocateNewBlock` compares, from that offset. -/
def makeRoom (p : Platform) (size : ℕ) (needed : ℕ → ℕ) (ans : Answers) : AllocM (Option ℕ) := do
  let s ← get
  if size > s.blockEnd - s.blockPos then
    let (made, startOffset) ← allocateNewBlock p 0 ans
    if !made then return none
    let s ← get
    codegenAssert (needed startOffset ≤ s.blockEnd - s.blockPos)
    return some startOffset
  else
    return some 0

/-- The first part of `allocate`: fit test, new block and offsets, in each of its three layouts. -/
def place (p : Platform) (protectData : Bool) (dataSize codeSize : ℕ) (ans : Answers) :
    AllocM (Option Placement) := do
  let s ← get
  if protectData then
    if dataSize ≠ 0 then
      -- Function has to fit into a single block with unwinding information
      if (p.alignToPageSize ((kMaxReservedDataSize + dataSize) % 2 ^ sizeBits) + codeSize) % 2 ^ sizeBits > s.blockSize then
        return none
      match ← makeRoom p ((p.alignToPageSize dataSize + codeSize) % 2 ^ sizeBits)
          (fun startOffset => (p.alignToPageSize ((startOffset + dataSize) % 2 ^ sizeBits) + codeSize) % 2 ^ sizeBits)
          ans with
      | none => return none
      | some startOffset =>
        let codeOffset := p.alignToPageSize ((startOffset + dataSize) % 2 ^ sizeBits)
        return some {
          startOffset, codeOffset
          dataOffset := codeOffset - dataSize
          totalSize := (p.alignToPageSize dataSize + codeSize) % 2 ^ sizeBits
          pageAlignedSize := p.alignToPageSize ((codeOffset + codeSize) % 2 ^ sizeBits) }
    else
      -- No data to protect: code starts directly after the unwind info header
      if codeSize > s.blockSize - kMaxReservedDataSize then return none
      match ← makeRoom p codeSize (fun _ => codeSize) ans with
      | none => return none
      | some startOffset =>
        return some {
          startOffset
          dataOffset := startOffset
          codeOffset := startOffset
          totalSize := codeSize
          pageAlignedSize := p.alignToPageSize ((startOffset + codeSize) % 2 ^ sizeBits) }
  else
    let alignedDataSize := alignCode dataSize
    let totalSize := (alignedDataSize + codeSize) % 2 ^ sizeBits
    if totalSize > s.blockSize - kMaxReservedDataSize then return none
    match ← makeRoom p totalSize (fun _ => totalSize) ans with
    | none => return none
    | some startOffset =>
      return some {
        startOffset, totalSize
        dataOffset := (startOffset + alignedDataSize - dataSize) % 2 ^ sizeBits
        codeOffset := (startOffset + alignedDataSize) % 2 ^ sizeBits
        pageAlignedSize := p.alignToPageSize ((startOffset + totalSize) % 2 ^ sizeBits) }

/-- Data pages become read-only and code pages executable; without protection of data all are executable. -/
def protect (p : Platform) (protectData : Bool) (dataSize : ℕ) (pl : Placement) (ans : Answers) : AllocM Bool := do
  let s ← get
  if protectData && dataSize ≠ 0 then
    if !(← makePages p .readOnly s.blockPos pl.codeOffset ans.readOnly) then return false
    makePages p .readExecute (s.blockPos + pl.codeOffset) (pl.pageAlignedSize - pl.codeOffset) ans.executable
  else
    makePages p .readExecute s.blockPos pl.pageAlignedSize ans.executable

/-- Future allocations from the block start from a page boundary. -/
def advance (p : Platform) (pageAlignedSize : ℕ) : AllocM Unit := do
  let s ← get
  if pageAlignedSize ≤ s.blockEnd - s.blockPos then
    modify fun s => { s with blockPos := s.blockPos + pageAlignedSize }
    let s ← get
    codegenAssert (s.blockPos % p.kPageSize = 0)
    codegenAssert (s.blockPos ≤ s.blockEnd)
  else
    -- Future allocations will need to allocate fresh blocks
    modify fun s => { s with blockPos := s.blockEnd }

def allocate (p : Platform) (protectData : Bool) (dataSize codeSize : ℕ) (ans : Answers) :
    AllocM CodeAllocationData := do
  match ← place p protectData dataSize codeSize ans with
  | none => return .null
  | some pl =>
    let s ← get
    -- Allocation starts on page boundary
    codegenAssert (s.blockPos % p.kPageSize = 0)
    if dataSize ≠ 0 then memcpy p (s.blockPos + pl.dataOffset) dataSize
    if codeSize ≠ 0 then memcpy p (s.blockPos + pl.codeOffset) codeSize
    if !(← protect p protectData dataSize pl ans) then return .null
    modify fun s => { s with liveAllocations := s.liveAllocations + 1 }
    let result : CodeAllocationData := {
      start := s.blockPos + pl.startOffset
      size := pl.totalSize
      codeStart := s.blockPos + pl.codeOffset
      allocationStart := s.blockPos
      allocationSize := pl.pageAlignedSize }
    advance p pl.pageAlignedSize
    return result

def deallocate (p : Platform) (data : CodeAllocationData) (answer : ProtectAnswer) : AllocM Unit := do
  if data.allocationStart = 0 then return
  let result ← makePages p .readWrite data.allocationStart data.allocationSize answer
  codegenAssert result
  let s ← get
  codegenAssert (s.liveAllocations ≠ 0)
  modify fun s => { s with liveAllocations := s.liveAllocations - 1 }

end CodeAllocator

end Luwu.Native

/-!
## Blocks and what is placed in them

The invariant of the allocator of native code. Pages behind the position in the current block are writable;
the pages of a live allocation are not, so a new allocation never meets one.
-/

namespace Luwu.Native

variable {p : Platform}

namespace Platform

theorem kPageSize_pos (p : Platform) : 0 < p.kPageSize := Nat.two_pow_pos _

theorem code_dvd (p : Platform) : kCodeAlignment ∣ p.kPageSize := Nat.pow_dvd_pow 2 p.code_le

theorem alignToPageSize_eq {size : ℕ} (h : size + p.kPageSize ≤ 2 ^ sizeBits) :
    p.alignToPageSize size = Align.up p.kPageSize size :=
  Align.maskUp_eq (p.le_size.trans (by decide)) h

theorem alignToPageSize_self {size : ℕ} (h : size + p.kPageSize ≤ 2 ^ sizeBits) (hd : p.kPageSize ∣ size) :
    p.alignToPageSize size = size := by
  rw [alignToPageSize_eq h, Align.up_eq p.kPageSize_pos hd]

theorem dvd_alignToPageSize (p : Platform) (size : ℕ) : p.kPageSize ∣ p.alignToPageSize size :=
  Align.dvd_maskUp (p.le_size.trans (by decide)) size

theorem alignToPageSize_add_le (p : Platform) (size : ℕ) :
    p.alignToPageSize size + p.kPageSize ≤ 2 ^ sizeBits :=
  Align.maskUp_add_le (p.le_size.trans (by decide)) size

/-- A size that is not rounded to 0 is not rounded down. -/
theorem le_alignToPageSize {size : ℕ} (hlt : size < 2 ^ sizeBits) (h : p.alignToPageSize size ≠ 0) :
    size ≤ p.alignToPageSize size := by
  rcases Nat.lt_or_ge (2 ^ sizeBits) (size + p.kPageSize) with hwrap | hfits
  · exact absurd (Align.maskUp_wrap (p.le_size.trans (by decide)) hlt hwrap) h
  · rw [alignToPageSize_eq hfits]
    exact Align.le_up p.kPageSize_pos

/-- Pages by number and by address. -/
theorem page_iff {mem size : ℕ} (hmem : p.kPageSize ∣ mem) (hsize : p.kPageSize ∣ size) (q : ℕ) :
    mem / p.kPageSize ≤ q ∧ q < mem / p.kPageSize + size / p.kPageSize ↔
      mem ≤ q * p.kPageSize ∧ q * p.kPageSize < mem + size := by
  have hpos := p.kPageSize_pos
  obtain ⟨m, rfl⟩ := hmem
  obtain ⟨n, rfl⟩ := hsize
  rw [Nat.mul_div_cancel_left m hpos, Nat.mul_div_cancel_left n hpos, ← Nat.mul_add, Nat.mul_comm q]
  exact and_congr (Nat.mul_le_mul_left_iff hpos).symm (Nat.mul_lt_mul_left hpos).symm

end Platform

theorem alignCode_eq {size : ℕ} (h : size + kCodeAlignment ≤ 2 ^ sizeBits) :
    alignCode size = Align.up kCodeAlignment size :=
  Align.maskUp_eq (by decide) h

/-- An allocation that `allocate` returned, with what was asked for. -/
structure Allocation where
  data : CodeAllocationData
  protectData : Bool
  dataSize : ℕ
  codeSize : ℕ
  deriving DecidableEq, Repr

namespace Allocation

/-- The number of a page of the allocation. -/
def Page (p : Platform) (a : Allocation) (q : ℕ) : Prop :=
  a.data.allocationStart ≤ q * p.kPageSize ∧ q * p.kPageSize < a.data.allocationStart + a.data.allocationSize

/-- An address in the data or the code of the allocation. -/
def Byte (a : Allocation) (x : ℕ) : Prop := a.data.codeStart ≤ x + a.dataSize ∧ x < a.data.codeStart + a.codeSize

end Allocation

namespace CodeAllocator

/-- The size of a block in memory. -/
def span (p : Platform) (s : CodeAllocator) : ℕ := p.alignToPageSize s.blockSize

structure BlocksOk (p : Platform) (s : CodeAllocator) : Prop where
  reserved : kMaxReservedDataSize < s.blockSize
  size_lt : s.blockSize < 2 ^ sizeBits
  aligned : ∀ b ∈ s.blocks, b ≠ 0 ∧ p.kPageSize ∣ b
  bounded : ∀ b ∈ s.blocks, s.blockSize ≤ s.span p ∧ b + s.span p ≤ 2 ^ sizeBits
  current : s.blockPos = 0 ∧ s.blockEnd = 0 ∨ ∃ b ∈ s.blocks, b ≤ s.blockPos ∧ s.blockPos ≤ s.blockEnd ∧
    s.blockEnd = b + s.blockSize ∧ (p.kPageSize ∣ s.blockPos ∨ s.blockPos = s.blockEnd) ∧
    ∀ q, s.blockPos ≤ q * p.kPageSize → q * p.kPageSize < b + s.span p → s.prot q = .readWrite

/-- Where an allocation is: data directly before code, both on pages of the allocation and in the block. -/
structure Placed (p : Platform) (s : CodeAllocator) (a : Allocation) : Prop where
  inBlock : ∃ b ∈ s.blocks, b ≤ a.data.allocationStart ∧ a.data.codeStart + a.codeSize ≤ b + s.blockSize ∧
    a.data.allocationStart + a.data.allocationSize ≤ b + s.span p
  startAligned : p.kPageSize ∣ a.data.allocationStart
  sizeAligned : p.kPageSize ∣ a.data.allocationSize
  start : a.data.allocationStart ≤ a.data.start
  data : a.data.start + a.dataSize ≤ a.data.codeStart
  code : a.data.codeStart + a.codeSize ≤ a.data.allocationStart + a.data.allocationSize
  codeAligned : kCodeAlignment ∣ a.data.codeStart
  pageAligned : a.protectData = true → a.dataSize ≠ 0 → p.kPageSize ∣ a.data.codeStart
  prot : ∀ q, a.Page p q → s.prot q =
    if a.protectData = true ∧ a.dataSize ≠ 0 ∧ q * p.kPageSize < a.data.codeStart then .readOnly else .readExecute

structure AllocInv (p : Platform) (s : CodeAllocator) (live : List Allocation) : Prop where
  blocks : s.BlocksOk p
  placed : ∀ a ∈ live, s.Placed p a
  apart : live.Pairwise fun a c => ∀ q, ¬(a.Page p q ∧ c.Page p q)
  owned : ∀ b ∈ s.blocks, ∀ q, b ≤ q * p.kPageSize → q * p.kPageSize < b + s.span p → s.prot q ≠ .readWrite →
    ∃ a ∈ live, a.Page p q
  counter : s.liveAllocations = live.length

variable {s s' : CodeAllocator} {a c : Allocation} {live : List Allocation}

@[simp] theorem setPages_prot (first count : ℕ) (k : Protection) (s : CodeAllocator) (q : ℕ) :
    (setPages first count k s).prot q = if first ≤ q ∧ q < first + count then k else s.prot q := rfl

@[simp] theorem setPages_blocks (first count : ℕ) (k : Protection) (s : CodeAllocator) :
    (setPages first count k s).blocks = s.blocks := rfl

@[simp] theorem setPages_blockSize (first count : ℕ) (k : Protection) (s : CodeAllocator) :
    (setPages first count k s).blockSize = s.blockSize := rfl

@[simp] theorem setPages_zero (first : ℕ) (k : Protection) (s : CodeAllocator) : setPages first 0 k s = s := by
  unfold setPages
  have hempty : ∀ q, ¬(first ≤ q ∧ q < first + 0) := fun q => by omega
  simp only [if_neg (hempty _)]

theorem Placed.not_writable (h : s.Placed p a) {q : ℕ} (hq : a.Page p q) : s.prot q ≠ .readWrite := by
  rw [h.prot q hq]
  split <;> simp

/-- An allocation stays where it is while its pages keep their protection. -/
theorem Placed.mono (h : s.Placed p a) (hblocks : ∀ b ∈ s.blocks, b ∈ s'.blocks)
    (hsize : s'.blockSize = s.blockSize) (hprot : ∀ q, a.Page p q → s'.prot q = s.prot q) : s'.Placed p a := by
  have hspan : s'.span p = s.span p := by unfold span; rw [hsize]
  refine { h with inBlock := ?_, prot := ?_ }
  · obtain ⟨b, hb, hle, hcode, hend⟩ := h.inBlock
    exact ⟨b, hblocks b hb, hle, by rw [hsize]; exact hcode, by rw [hspan]; exact hend⟩
  · intro q hq
    rw [hprot q hq, h.prot q hq]

/-- The bytes of an allocation are on its pages. -/
theorem Placed.page_of_byte (h : s.Placed p a) {x : ℕ} (hx : a.Byte x) : a.Page p (x / p.kPageSize) := by
  have hle := Nat.div_mul_le_self x p.kPageSize
  have hstart := h.start
  have hdata := h.data
  have hcode := h.code
  obtain ⟨hlo, hhi⟩ := hx
  constructor
  · obtain ⟨k, hk⟩ := h.startAligned
    have hkx : k ≤ x / p.kPageSize := by
      rw [Nat.le_div_iff_mul_le p.kPageSize_pos, Nat.mul_comm]
      omega
    rw [hk, Nat.mul_comm]
    exact Nat.mul_le_mul_right _ hkx
  · omega

/-- Bytes of two allocations that share no page are different. -/
theorem Placed.bytes_apart (ha : s.Placed p a) (hc : s.Placed p c) (hpages : ∀ q, ¬(a.Page p q ∧ c.Page p q))
    (x : ℕ) : ¬(a.Byte x ∧ c.Byte x) := fun hx =>
  hpages _ ⟨ha.page_of_byte hx.1, hc.page_of_byte hx.2⟩

end CodeAllocator

end Luwu.Native
