import Luwu.Native.Allocate

/-!
# Runs of the allocator of native code

Requests come in any order, each with the answers that the system and the unwinding callback give to it.
-/

namespace Luwu.Native

open Run

inductive Request where
  | allocate (protectData : Bool) (dataSize codeSize : ℕ) (ans : Answers)
  | deallocate (data : CodeAllocationData) (answer : ProtectAnswer)

/-- The allocator, and the allocations that were returned and not given back. -/
abbrev Served := CodeAllocator × List Allocation

namespace Request

def step (p : Platform) : Request → Served → Except Stop Served
  | .allocate protectData dataSize codeSize ans, (s, live) =>
    match CodeAllocator.allocate p protectData dataSize codeSize ans s with
    | .ok r s' => .ok (s', if r.start = 0 then live else ⟨r, protectData, dataSize, codeSize⟩ :: live)
    | .error e _ => .error e
  | .deallocate data answer, (s, live) =>
    match CodeAllocator.deallocate p data answer s with
    | .ok _ s' => .ok (s', live.eraseP fun a => a.data = data)
    | .error e _ => .error e

def run (p : Platform) : List Request → Served → Except Stop Served
  | [], x => .ok x
  | r :: rs, x =>
    match r.step p x with
    | .ok y => run p rs y
    | .error e => .error e

/-- What the system promises, and the callers: they give back what they got, once. -/
def Allowed (p : Platform) : Request → Served → Prop
  | .allocate _ _ _ ans, (s, _) => ans.Fresh p s ∧ ans.Reserved
  | .deallocate data _, (_, live) => data.allocationStart = 0 ∨ ∃ a ∈ live, a.data = data

/-- The sizes do not wrap, nothing at all is asked for only on a page boundary of a block, and no failure changes
the protection of pages. -/
def Regular (p : Platform) : Request → Served → Prop
  | .allocate protectData dataSize codeSize ans, (s, _) => NoWrap p dataSize codeSize ∧
    (dataSize = 0 → codeSize = 0 → s.blockPos ≠ 0 ∧ p.kPageSize ∣ s.blockPos) ∧ ans.Clean protectData dataSize
  | .deallocate data answer, _ => data.allocationStart = 0 ∨ answer = .success

/-- Every request is allowed and regular in the state that the ones before it leave. -/
def Possible (p : Platform) : List Request → Served → Prop
  | [], _ => True
  | r :: rs, x => r.Allowed p x ∧ r.Regular p x ∧ ∀ y, r.step p x = .ok y → Possible p rs y

end Request

namespace CodeAllocator

/-- A new allocator; the pages of the system are in any state. -/
def start (blockSize maxTotalSize : ℕ) (prot : ℕ → Protection) : CodeAllocator where
  blockPos := 0
  blockEnd := 0
  blocks := []
  unwindInfos := []
  blockSize := blockSize
  maxTotalSize := maxTotalSize
  liveAllocations := 0
  prot := prot

/-- What callers rely on. -/
structure Sound (p : Platform) (s : CodeAllocator) (live : List Allocation) : Prop where
  /-- Data lies directly before the code, and both lie in one block. -/
  inside : ∀ a ∈ live, ∃ b ∈ s.blocks, b + a.dataSize ≤ a.data.codeStart ∧
    a.data.codeStart + a.codeSize ≤ b + s.blockSize
  bytes : ∀ a ∈ live, ∀ x, a.Byte x → a.Page p (x / p.kPageSize)
  apart : live.Pairwise fun a c => (∀ q, ¬(a.Page p q ∧ c.Page p q)) ∧ ∀ x, ¬(a.Byte x ∧ c.Byte x)
  /-- Data that was asked to be protected is read-only, everything else of an allocation is executable. -/
  pages : ∀ a ∈ live, ∀ q, a.Page p q → s.prot q =
    if a.protectData = true ∧ a.dataSize ≠ 0 ∧ q * p.kPageSize < a.data.codeStart then .readOnly else .readExecute
  /-- A page of a block that cannot be written is a page of one live allocation. -/
  owned : ∀ b ∈ s.blocks, ∀ q, b ≤ q * p.kPageSize → q * p.kPageSize < b + s.span p → s.prot q ≠ .readWrite →
    ∃ a ∈ live, a.Page p q
  aligned : ∀ a ∈ live, kCodeAlignment ∣ a.data.codeStart ∧
    (a.protectData = true → a.dataSize ≠ 0 → p.kPageSize ∣ a.data.codeStart)
  counter : s.liveAllocations = live.length
  /-- Any later request ends without a failed assertion or a bad write, and gets its memory when the request fits,
  the protection succeeds, and the current block has room or there is a new one. -/
  serves : ∀ protectData dataSize codeSize ans,
    (Request.allocate protectData dataSize codeSize ans).Allowed p (s, live) →
    (Request.allocate protectData dataSize codeSize ans).Regular p (s, live) →
    Gives (allocate p protectData dataSize codeSize ans) s fun r _ =>
      Fits p s protectData dataSize codeSize → ans.readOnly = .success → ans.executable = .success →
      needed p protectData dataSize codeSize ≤ s.blockEnd - s.blockPos ∨ ans.NewBlock s → r.start ≠ 0

section Run

variable {p : Platform} {s : CodeAllocator} {a : Allocation} {live rest : List Allocation} {x : Served}
  {r : Request} {rs : List Request} {blockSize maxTotalSize : ℕ}

theorem start_ok (p : Platform) (hreserved : kMaxReservedDataSize < blockSize) (hsize : blockSize < 2 ^ sizeBits)
    (prot : ℕ → Protection) : AllocInv p (start blockSize maxTotalSize prot) [] where
  blocks := {
    reserved := hreserved
    size_lt := hsize
    aligned := fun _ hb => absurd hb List.not_mem_nil
    bounded := fun _ hb => absurd hb List.not_mem_nil
    current := Or.inl ⟨rfl, rfl⟩ }
  placed := fun _ ha => absurd ha List.not_mem_nil
  apart := List.Pairwise.nil
  owned := fun _ hb => absurd hb List.not_mem_nil
  counter := rfl

theorem AllocInv.start_pos (h : AllocInv p s live) (ha : a ∈ live) : p.kPageSize ≤ a.data.allocationStart := by
  obtain ⟨b, hb, hlo, -⟩ := (h.placed a ha).inBlock
  have hb0 := h.blocks.aligned b hb
  exact (Nat.le_of_dvd (Nat.pos_of_ne_zero hb0.1) hb0.2).trans hlo

theorem deallocate_ok (h : AllocInv p s live) (hperm : live.Perm (a :: rest)) :
    Gives (deallocate p a.data .success) s fun _ s' => AllocInv p s' rest := by
  have hmem : a ∈ live := hperm.mem_iff.mpr List.mem_cons_self
  have hrest : ∀ c ∈ rest, c ∈ live := fun c hc => hperm.mem_iff.mpr (List.mem_cons_of_mem _ hc)
  have hplaced := h.placed a hmem
  have hstart := h.start_pos hmem
  have hpos := p.kPageSize_pos
  obtain ⟨b, hb, hlo, -, hend⟩ := hplaced.inBlock
  have hbounded := (h.blocks.bounded b hb).2
  have hapart : List.Pairwise _ (a :: rest) := h.apart.perm hperm fun hac q hq => hac q hq.symm
  obtain ⟨hapart, hrestApart⟩ := List.pairwise_cons.mp hapart
  have hlength : s.liveAllocations = rest.length + 1 := h.counter.trans hperm.length_eq
  have hpage := Platform.page_iff (p := p) hplaced.startAligned hplaced.sizeAligned
  unfold deallocate
  apply gives_ite
  · intro hnull
    omega
  intro _
  refine (makePages_ok hplaced.startAligned hplaced.sizeAligned (by omega) .success).bind fun r s₁ ⟨hr, hs₁⟩ => ?_
  subst hr
  subst hs₁
  apply gives_assert_bind rfl
  apply gives_get_bind
  apply gives_assert_bind
  · apply decide_eq_true
    show s.liveAllocations ≠ 0
    omega
  · refine ⟨⟨⟩, _, rfl, ⟨⟨h.blocks.reserved, h.blocks.size_lt, h.blocks.aligned, h.blocks.bounded, ?_⟩,
      fun c hc => ?_, hrestApart, fun b' hb' q hqlo hqhi hprot => ?_, ?_⟩⟩
    · rcases h.blocks.current with hnull | ⟨b', hb', hlo', hhi', hend', hpage', hfree⟩
      · exact Or.inl hnull
      · refine Or.inr ⟨b', hb', hlo', hhi', hend', hpage', fun q hqlo hqhi => ?_⟩
        show (if _ then _ else _) = _
        rw [hfree q hqlo hqhi, ite_self]
    · refine (h.placed c (hrest c hc)).mono (fun _ hb => hb) rfl fun q hq => ?_
      exact if_neg fun hin => hapart c hc q ⟨(hpage q).mp hin, hq⟩
    · by_cases hin : a.Page p q
      · exact absurd (if_pos ((hpage q).mpr hin)) hprot
      · have hkept : s.prot q ≠ .readWrite := fun heq =>
          hprot ((if_neg fun hin' => hin ((hpage q).mp hin')).trans heq)
        obtain ⟨c, hc, hq⟩ := h.owned b' hb' q hqlo hqhi hkept
        rcases List.mem_cons.mp (hperm.mem_iff.mp hc) with rfl | hc
        · exact absurd hq hin
        · exact ⟨c, hc, hq⟩
    · show s.liveAllocations - 1 = rest.length
      omega

/-- One request keeps the invariant. -/
theorem step_ok (h : AllocInv p x.1 x.2) (hallowed : r.Allowed p x) (hregular : r.Regular p x) :
    ∃ y, r.step p x = .ok y ∧ AllocInv p y.1 y.2 := by
  obtain ⟨s, live⟩ := x
  cases r with
  | allocate protectData dataSize codeSize ans =>
    obtain ⟨r, s', hrun, hinv, -⟩ :=
      allocate_ok h hallowed.1 hallowed.2 hregular.1 hregular.2.1 hregular.2.2
    refine ⟨(s', if r.start = 0 then live else ⟨r, protectData, dataSize, codeSize⟩ :: live), ?_, ?_⟩
    · simp only [Request.step, hrun]
    rcases hinv with ⟨rfl, hinv⟩ | ⟨hstart, hinv⟩
    · exact hinv
    · dsimp only
      rw [if_neg hstart]
      exact hinv
  | deallocate data answer =>
    have hnotNull : data.allocationStart = 0 → ∀ a ∈ live, ¬(decide (a.data = data) = true) := by
      intro hnull a ha heq
      have hpos := h.start_pos ha
      rw [of_decide_eq_true heq, hnull] at hpos
      exact absurd hpos (Nat.not_le.mpr p.kPageSize_pos)
    by_cases hnull : data.allocationStart = 0
    · refine ⟨(s, live), ?_, h⟩
      have hrun : deallocate p data answer s = .ok ⟨⟩ s := by
        unfold deallocate
        rw [if_pos hnull]
        rfl
      simp only [Request.step, hrun]
      rw [List.eraseP_of_forall_not (hnotNull hnull)]
    · obtain ⟨a, ha, hdata⟩ := hallowed.resolve_left hnull
      obtain ⟨c, l₁, l₂, -, hc, hlive, herase⟩ :=
        List.exists_of_eraseP (p := fun a => decide (a.data = data)) ha (decide_eq_true hdata)
      have hperm : live.Perm (c :: (live.eraseP fun a => a.data = data)) := by
        rw [herase, hlive]
        exact List.perm_middle
      obtain ⟨_, s', hrun, hinv⟩ := deallocate_ok h hperm
      rw [of_decide_eq_true hc] at hrun
      refine ⟨(s', live.eraseP fun a => a.data = data), ?_, hinv⟩
      rw [hregular.resolve_left hnull]
      simp only [Request.step, hrun]

/-- So do any number of them. -/
theorem run_ok (h : AllocInv p x.1 x.2) (hpossible : Request.Possible p rs x) :
    ∃ y, Request.run p rs x = .ok y ∧ AllocInv p y.1 y.2 := by
  induction rs generalizing x with
  | nil => exact ⟨x, rfl, h⟩
  | cons r rs ih =>
    obtain ⟨hallowed, hregular, hrest⟩ := hpossible
    obtain ⟨y, hstep, hinv⟩ := step_ok h hallowed hregular
    obtain ⟨z, hrun, hz⟩ := ih hinv (hrest y hstep)
    exact ⟨z, by simp only [Request.run, hstep, hrun], hz⟩

theorem AllocInv.sound (h : AllocInv p s live) : s.Sound p live where
  inside := fun a ha => by
    obtain ⟨b, hb, hlo, hcode, -⟩ := (h.placed a ha).inBlock
    have hstart := (h.placed a ha).start
    have hdata := (h.placed a ha).data
    exact ⟨b, hb, by omega, hcode⟩
  bytes := fun a ha x hx => (h.placed a ha).page_of_byte hx
  apart := h.apart.imp_of_mem fun ha hc hac => ⟨hac, (h.placed _ ha).bytes_apart (h.placed _ hc) hac⟩
  pages := fun a ha => (h.placed a ha).prot
  owned := h.owned
  aligned := fun a ha => ⟨(h.placed a ha).codeAligned, (h.placed a ha).pageAligned⟩
  counter := h.counter
  serves := fun protectData dataSize codeSize ans hallowed hregular =>
    (allocate_ok h hallowed.1 hallowed.2 hregular.1 hregular.2.1 hregular.2.2).mono fun _ _ hready => hready.2

/-- Pages of 4096 bytes. -/
def smallPages : Platform := ⟨12, by decide, by decide⟩

/-- Eight bytes of data and sixteen of code in a new block at address 65536. -/
def smallRequest : Request := .allocate false 8 16 ⟨65536, none, .success, .success⟩

def smallStart : Served := (start 16384 65536 fun _ => .none, [])

theorem smallRequest_possible : smallRequest.Allowed smallPages smallStart ∧
    smallRequest.Regular smallPages smallStart :=
  ⟨⟨fun _ => ⟨by decide, by decide, by decide, fun _ hb => absurd hb List.not_mem_nil⟩, nofun⟩,
    show _ + _ + _ + _ ≤ _ by decide, nofun, fun _ hn => nomatch hn⟩

end Run

end CodeAllocator

end Luwu.Native
