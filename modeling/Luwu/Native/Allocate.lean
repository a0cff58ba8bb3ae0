import Luwu.Native.CodeAllocator

/-!
# Requests to the allocator of native code

What one call does to the blocks and to the live allocations.
-/

namespace Luwu.Native

open Run

variable {p : Platform}

/-- What the system promises of new pages: they are whole, and in no block. -/
def Answers.Fresh (p : Platform) (s : CodeAllocator) (ans : Answers) : Prop :=
  ans.pages ≠ 0 → s.span p ≠ 0 ∧ p.kPageSize ∣ ans.pages ∧ ans.pages + s.span p ≤ 2 ^ sizeBits ∧
    ∀ b ∈ s.blocks, b + s.span p ≤ ans.pages ∨ ans.pages + s.span p ≤ b

/-- The unwinding data fits in what is reserved for it. -/
def Answers.Reserved (ans : Answers) : Prop :=
  ∀ answer, ans.unwind = some answer → answer.startOffset ≤ kMaxReservedDataSize

/-- A new block can be had. -/
def Answers.NewBlock (s : CodeAllocator) (ans : Answers) : Prop :=
  (s.blocks.length + 1) * s.blockSize % 2 ^ sizeBits ≤ s.maxTotalSize ∧ ans.pages ≠ 0 ∧
    ∀ answer, ans.unwind = some answer → answer.unwindInfo ≠ 0

namespace CodeAllocator

variable {s s' : CodeAllocator} {a c : Allocation} {live : List Allocation} {ans : Answers} {α : Type}
  {Q : α → CodeAllocator → Prop}

theorem gives_assert_bind {b : Bool} {f : Unit → AllocM α} (hb : b = true) (h : Gives (f ()) s Q) :
    Gives (codegenAssert b >>= f) s Q := by
  subst hb
  exact h

/-! ### Protection of pages -/

theorem makePages_ok {k : Protection} {mem size : ℕ} (hmem : p.kPageSize ∣ mem) (hsize : p.kPageSize ∣ size)
    (hle : size + p.kPageSize ≤ 2 ^ sizeBits) (answer : ProtectAnswer) :
    Gives (makePages p k mem size answer) s fun r s' => match answer with
      | .success => r = true ∧ s' = setPages (mem / p.kPageSize) (size / p.kPageSize) k s
      | .failure changed => r = false ∧
        s' = setPages (mem / p.kPageSize) (min changed (size / p.kPageSize)) k s := by
  have hm : decide (mem % p.kPageSize = 0) = true := decide_eq_true (Nat.mod_eq_zero_of_dvd hmem)
  have hs : decide (size = p.alignToPageSize size) = true :=
    decide_eq_true (Platform.alignToPageSize_self hle hsize).symm
  cases answer with
  | success => exact gives_assert_bind hm (gives_assert_bind hs (gives_modify_bind (gives_pure ⟨rfl, rfl⟩)))
  | failure changed => exact gives_assert_bind hm (gives_assert_bind hs (gives_modify_bind (gives_pure ⟨rfl, rfl⟩)))

theorem memcpy_ok {dst size : ℕ} (hsize : 0 < size)
    (h : ∀ q, dst < (q + 1) * p.kPageSize → q * p.kPageSize < dst + size → s.prot q = .readWrite) :
    Gives (memcpy p dst size) s fun _ s' => s' = s := by
  have hpos := p.kPageSize_pos
  have hwritable : writable p s dst size = true := by
    unfold writable
    rw [List.all_eq_true]
    intro q hq
    rw [List.mem_range'_1] at hq
    apply decide_eq_true
    apply h q
    · exact (Nat.div_lt_iff_lt_mul hpos).mp (Nat.lt_succ_of_le hq.1)
    · have hle : q ≤ (dst + size - 1) / p.kPageSize := by omega
      have := (Nat.le_div_iff_mul_le hpos).mp hle
      omega
  unfold memcpy
  apply gives_get_bind
  rw [if_pos hwritable]
  exact gives_pure rfl

/-! ### New blocks -/

theorem allocatePages_ok (p : Platform) (s : CodeAllocator) (ans : Answers) :
    Gives (allocatePages p s.blockSize ans) s fun block s' => block = ans.pages ∧
      (ans.pages = 0 → s' = s) ∧
      (ans.pages ≠ 0 → s' = setPages (ans.pages / p.kPageSize) (s.span p / p.kPageSize) .readWrite s) := by
  unfold allocatePages
  apply gives_assert_bind
  · exact decide_eq_true
      (Platform.alignToPageSize_self (p.alignToPageSize_add_le _) (p.dvd_alignToPageSize _)).symm
  · by_cases hnull : ans.pages = 0
    · rw [if_pos hnull]
      exact gives_pure ⟨hnull.symm, fun _ => rfl, fun h => absurd hnull h⟩
    · rw [if_neg hnull]
      exact gives_modify_bind (gives_pure ⟨rfl, fun h => absurd h hnull, fun _ => rfl⟩)

/-- Making a block current: its pages are writable and belong to no allocation. -/
theorem AllocInv.newBlock (h : AllocInv p s live) (hnull : ans.pages ≠ 0) (hfresh : ans.Fresh p s)
    (infos : List ℕ) :
    AllocInv p { setPages (ans.pages / p.kPageSize) (s.span p / p.kPageSize) .readWrite s with
      blockPos := ans.pages, blockEnd := ans.pages + s.blockSize, blocks := s.blocks ++ [ans.pages],
      unwindInfos := infos } live := by
  obtain ⟨hspan, hdvd, hle, hapart⟩ := hfresh hnull
  have hsize : s.blockSize ≤ s.span p := Platform.le_alignToPageSize h.blocks.size_lt hspan
  have hspandvd : p.kPageSize ∣ s.span p := p.dvd_alignToPageSize _
  have hpage := Platform.page_iff hdvd hspandvd
  refine ⟨⟨h.blocks.reserved, h.blocks.size_lt, ?_, ?_, Or.inr ?_⟩, fun a ha => ?_, h.apart, ?_, h.counter⟩
  · intro b hb
    rcases List.mem_append.mp hb with hb | hb
    · exact h.blocks.aligned b hb
    · rw [List.mem_singleton.mp hb]
      exact ⟨hnull, hdvd⟩
  · intro b hb
    rcases List.mem_append.mp hb with hb | hb
    · exact h.blocks.bounded b hb
    · rw [List.mem_singleton.mp hb]
      exact ⟨hsize, hle⟩
  · refine ⟨ans.pages, List.mem_append_right _ (List.mem_singleton.mpr rfl), le_rfl, Nat.le_add_right _ _, rfl,
      Or.inl hdvd, fun q hlo hhi => ?_⟩
    exact if_pos ((hpage q).mpr ⟨hlo, hhi⟩)
  · refine (h.placed a ha).mono (fun b hb => List.mem_append_left _ hb) rfl fun q hq => ?_
    obtain ⟨b, hb, hlo, -, hend⟩ := (h.placed a ha).inBlock
    refine if_neg fun hnew => ?_
    have hnew := (hpage q).mp hnew
    have hqlo := hq.1
    have hqhi := hq.2
    rcases hapart b hb with hb' | hb' <;> omega
  · intro b hb q hlo hhi hprot
    by_cases hnew : ans.pages ≤ q * p.kPageSize ∧ q * p.kPageSize < ans.pages + s.span p
    · exact absurd (if_pos ((hpage q).mpr hnew)) hprot
    · have hold : s.prot q ≠ .readWrite := fun heq => hprot ((if_neg fun hin => hnew ((hpage q).mp hin)).trans heq)
      rcases List.mem_append.mp hb with hb | hb
      · exact h.owned b hb q hlo hhi hold
      · rw [List.mem_singleton.mp hb] at hlo hhi
        exact absurd ⟨hlo, hhi⟩ hnew

theorem allocateNewBlock_ok (h : AllocInv p s live) (hfresh : ans.Fresh p s) (hreserved : ans.Reserved) :
    Gives (allocateNewBlock p 0 ans) s fun r s' => AllocInv p s' live ∧ s'.blockSize = s.blockSize ∧
      (r.1 = true → r.2 ≤ kMaxReservedDataSize ∧ kCodeAlignment ∣ r.2 ∧ s'.blockPos ≠ 0 ∧
        p.kPageSize ∣ s'.blockPos ∧ s'.blockEnd = s'.blockPos + s'.blockSize) ∧
      (ans.NewBlock s → r.1 = true) := by
  unfold allocateNewBlock
  apply gives_get_bind
  apply gives_ite
  · intro hlimit
    exact gives_pure ⟨h, rfl, fun hr => Bool.noConfusion hr, fun hnew => absurd hnew.1 (Nat.not_le.mpr hlimit)⟩
  intro _
  refine (allocatePages_ok p s ans).bind fun block s₁ ⟨hblock, hnone, hsome⟩ => ?_
  subst hblock
  apply gives_ite
  · intro hnull
    rw [hnone hnull]
    exact gives_pure ⟨h, rfl, fun hr => Bool.noConfusion hr, fun hnew => absurd hnull hnew.2.1⟩
  intro hnull
  rw [hsome hnull]
  apply gives_modify_bind
  cases hunwind : ans.unwind with
  | none =>
    exact gives_pure ⟨h.newBlock hnull hfresh _, rfl, fun _ => ⟨Nat.zero_le _, Nat.dvd_zero _, hnull,
      (hfresh hnull).2.1, rfl⟩, fun _ => rfl⟩
  | some answer =>
    have hoffset := hreserved answer hunwind
    have hcode : alignCode answer.startOffset = Align.up kCodeAlignment answer.startOffset :=
      alignCode_eq ((Nat.add_le_add_right hoffset kCodeAlignment).trans (by decide))
    have hle : alignCode answer.startOffset ≤ kMaxReservedDataSize := by
      rw [hcode]
      exact Align.up_least (by decide) hoffset (by decide)
    have hdvd : kCodeAlignment ∣ alignCode answer.startOffset := by
      rw [hcode]
      exact Align.dvd_up _ _
    apply gives_assert_bind (decide_eq_true hle)
    apply gives_ite
    · intro hinfo
      exact gives_pure ⟨h.newBlock hnull hfresh _, rfl, fun hr => Bool.noConfusion hr,
        fun hnew => absurd hinfo (hnew.2.2 answer hunwind)⟩
    · intro _
      exact gives_modify_bind (gives_pure ⟨h.newBlock hnull hfresh _, rfl, fun _ =>
        ⟨hle, hdvd, hnull, (hfresh hnull).2.1, rfl⟩, fun _ => rfl⟩)

theorem makeRoom_ok (h : AllocInv p s live) (hfresh : ans.Fresh p s) (hreserved : ans.Reserved) {size : ℕ}
    {needed : ℕ → ℕ} (hneeded : ∀ off ≤ kMaxReservedDataSize, needed off ≤ s.blockSize)
    (hempty : size = 0 → s.blockPos ≠ 0 ∧ p.kPageSize ∣ s.blockPos) :
    Gives (makeRoom p size needed ans) s fun r s' => AllocInv p s' live ∧ s'.blockSize = s.blockSize ∧
      (∀ off, r = some off → off ≤ kMaxReservedDataSize ∧ kCodeAlignment ∣ off ∧ s'.blockPos ≠ 0 ∧
        p.kPageSize ∣ s'.blockPos ∧
        (off = 0 ∧ s'.blockPos + size ≤ s'.blockEnd ∨ s'.blockEnd = s'.blockPos + s'.blockSize)) ∧
      (size ≤ s.blockEnd - s.blockPos ∨ ans.NewBlock s → r ≠ none) := by
  unfold makeRoom
  apply gives_get_bind
  apply gives_ite
  · intro hlarge
    refine (allocateNewBlock_ok h hfresh hreserved).bind fun r s₁ ⟨hinv, hsize, hmade, hnew⟩ => ?_
    have hready : size ≤ s.blockEnd - s.blockPos ∨ ans.NewBlock s → r.1 = true := fun hr =>
      hnew (hr.resolve_left (Nat.not_le.mpr hlarge))
    apply gives_ite
    · intro hfailed
      have hfalse : r.1 = false := by simpa using hfailed
      refine gives_pure ⟨hinv, hsize, nofun, fun hr => ?_⟩
      rw [hready hr] at hfalse
      exact Bool.noConfusion hfalse
    · intro hok
      obtain ⟨hle, hdvd, hpos, hpage, hend⟩ := hmade (by simpa using hok)
      apply gives_get_bind
      apply gives_assert_bind
      · apply decide_eq_true
        rw [hend, Nat.add_sub_cancel_left, hsize]
        exact hneeded r.2 hle
      · refine gives_pure ⟨hinv, hsize, fun off hoff => ?_, fun _ => Option.some_ne_none _⟩
        cases hoff
        exact ⟨hle, hdvd, hpos, hpage, Or.inr hend⟩
  · intro hfits
    have hcurrent : s.blockPos ≠ 0 ∧ p.kPageSize ∣ s.blockPos ∧ s.blockPos + size ≤ s.blockEnd := by
      rcases h.blocks.current with ⟨hpos, hend⟩ | ⟨b, hb, hlo, hhi, hend, hpage, -⟩
      · have hzero : size = 0 := by omega
        exact absurd hpos (hempty hzero).1
      · have hb0 := (h.blocks.aligned b hb).1
        refine ⟨by omega, ?_, by omega⟩
        rcases hpage with hpage | hpage
        · exact hpage
        · exact (hempty (by omega)).2
    refine gives_pure ⟨h, rfl, fun off hoff => ?_, fun _ => Option.some_ne_none _⟩
    cases hoff
    exact ⟨Nat.zero_le _, Nat.dvd_zero _, hcurrent.1, hcurrent.2.1, Or.inl ⟨rfl, hcurrent.2.2⟩⟩

end CodeAllocator

/-- The fit test of the request passes. -/
def Fits (p : Platform) (s : CodeAllocator) (protectData : Bool) (dataSize codeSize : ℕ) : Prop :=
  if protectData = true then
    if dataSize ≠ 0 then p.alignToPageSize (kMaxReservedDataSize + dataSize) + codeSize ≤ s.blockSize
    else codeSize ≤ s.blockSize - kMaxReservedDataSize
  else alignCode dataSize + codeSize ≤ s.blockSize - kMaxReservedDataSize

/-- What the request takes from a block. -/
def needed (p : Platform) (protectData : Bool) (dataSize codeSize : ℕ) : ℕ :=
  if protectData = true then
    if dataSize ≠ 0 then p.alignToPageSize dataSize + codeSize else codeSize
  else alignCode dataSize + codeSize

/-- The sizes, with the reserved bytes and two roundings, are sums that do not wrap. -/
def NoWrap (p : Platform) (dataSize codeSize : ℕ) : Prop :=
  dataSize + codeSize + kMaxReservedDataSize + 2 * p.kPageSize ≤ 2 ^ sizeBits

namespace CodeAllocator

variable {s s' : CodeAllocator} {a c : Allocation} {live : List Allocation} {ans : Answers} {protectData : Bool}
  {dataSize codeSize : ℕ}

/-- Offsets that `place` may answer, at the position in `s`. -/
structure Laid (p : Platform) (s : CodeAllocator) (protectData : Bool) (dataSize codeSize : ℕ)
    (pl : Placement) : Prop where
  pos : s.blockPos ≠ 0 ∧ p.kPageSize ∣ s.blockPos
  start : pl.startOffset ≤ pl.dataOffset
  data : pl.dataOffset + dataSize = pl.codeOffset
  code : s.blockPos + (pl.codeOffset + codeSize) ≤ s.blockEnd
  codeAligned : kCodeAlignment ∣ pl.codeOffset
  pageAligned : protectData = true → dataSize ≠ 0 → p.kPageSize ∣ pl.codeOffset
  size : pl.pageAlignedSize = Align.up p.kPageSize (pl.codeOffset + codeSize)

/-- The layout with data and code on pages of their own. -/
theorem place_data_ok (h : AllocInv p s live) (hfresh : ans.Fresh p s) (hreserved : ans.Reserved)
    (hwrap : NoWrap p dataSize codeSize) (hdata : dataSize ≠ 0) :
    Gives (place p true dataSize codeSize ans) s fun r s' => AllocInv p s' live ∧ s'.blockSize = s.blockSize ∧
      (∀ pl, r = some pl → s'.Laid p true dataSize codeSize pl) ∧
      (Fits p s true dataSize codeSize →
        needed p true dataSize codeSize ≤ s.blockEnd - s.blockPos ∨ ans.NewBlock s → r ≠ none) := by
  have hpos := p.kPageSize_pos
  have hcode := p.code_dvd
  unfold NoWrap at hwrap
  have hround {x : ℕ} (hx : x ≤ kMaxReservedDataSize + dataSize) :
      p.alignToPageSize (x % 2 ^ sizeBits) = Align.up p.kPageSize x ∧
        (p.alignToPageSize (x % 2 ^ sizeBits) + codeSize) % 2 ^ sizeBits = Align.up p.kPageSize x + codeSize ∧
        p.alignToPageSize ((Align.up p.kPageSize x + codeSize) % 2 ^ sizeBits) =
          Align.up p.kPageSize (Align.up p.kPageSize x + codeSize) := by
    have hlt := Align.up_lt (x := x) hpos
    have hmod : x % 2 ^ sizeBits = x := Nat.mod_eq_of_lt (by omega)
    have hmod' : (Align.up p.kPageSize x + codeSize) % 2 ^ sizeBits = Align.up p.kPageSize x + codeSize :=
      Nat.mod_eq_of_lt (by omega)
    have heq : p.alignToPageSize x = Align.up p.kPageSize x := Platform.alignToPageSize_eq (by omega)
    rw [hmod, heq, hmod']
    exact ⟨rfl, rfl, Platform.alignToPageSize_eq (by omega)⟩
  have hdataSize : dataSize % 2 ^ sizeBits = dataSize := Nat.mod_eq_of_lt (by omega)
  have hplain := hround (x := dataSize) (by omega)
  rw [hdataSize] at hplain
  have hmax := hround (x := kMaxReservedDataSize + dataSize) le_rfl
  have hmaxSize : (kMaxReservedDataSize + dataSize) % 2 ^ sizeBits = kMaxReservedDataSize + dataSize :=
    Nat.mod_eq_of_lt (by omega)
  unfold place
  apply gives_get_bind
  rw [if_pos rfl, if_pos hdata]
  apply gives_ite
  · intro hlarge
    refine gives_pure ⟨h, rfl, nofun, fun hfits => ?_⟩
    unfold Fits at hfits
    rw [if_pos rfl, if_pos hdata] at hfits
    rw [hmax.2.1] at hlarge
    rw [hmaxSize] at hmax
    rw [hmax.1] at hfits
    omega
  intro hfit
  rw [hmax.2.1] at hfit
  have hneeded : ∀ off ≤ kMaxReservedDataSize,
      (p.alignToPageSize ((off + dataSize) % 2 ^ sizeBits) + codeSize) % 2 ^ sizeBits ≤ s.blockSize := by
    intro off hoff
    rw [(hround (x := off + dataSize) (by omega)).2.1]
    have := Align.up_mono hpos (Nat.add_le_add_right hoff dataSize)
    omega
  have hle := Align.le_up (x := dataSize) hpos
  refine (makeRoom_ok h hfresh hreserved hneeded ?_).bind fun r s₁ ⟨hinv, hsize, hroom, hready⟩ => ?_
  · intro hzero
    rw [hplain.2.1] at hzero
    omega
  cases r with
  | none =>
    refine gives_pure ⟨hinv, hsize, nofun, fun _ hr => ?_⟩
    unfold needed at hr
    rw [if_pos rfl, if_pos hdata, hplain.1, ← hplain.2.1] at hr
    exact absurd rfl (hready hr)
  | some off =>
    obtain ⟨hoff, -, hblock, hpage, hspace⟩ := hroom off rfl
    obtain ⟨hofs, hofs', hend⟩ := hround (x := off + dataSize) (by omega)
    have hle' := Align.le_up (x := off + dataSize) hpos
    have hdvd := Align.dvd_up p.kPageSize (off + dataSize)
    refine gives_pure ⟨hinv, hsize, fun pl hpl => ?_, fun _ _ => Option.some_ne_none _⟩
    cases hpl
    rw [hofs]
    refine ⟨⟨hblock, hpage⟩, ?_, ?_, ?_, hcode.trans hdvd, fun _ _ => hdvd, hend⟩
    · show off ≤ Align.up p.kPageSize (off + dataSize) - dataSize
      omega
    · show Align.up p.kPageSize (off + dataSize) - dataSize + dataSize = Align.up p.kPageSize (off + dataSize)
      omega
    · show s₁.blockPos + (Align.up p.kPageSize (off + dataSize) + codeSize) ≤ s₁.blockEnd
      rcases hspace with ⟨rfl, hspace⟩ | hspace
      · rw [hplain.2.1] at hspace
        rw [Nat.zero_add]
        exact hspace
      · have hneed := hneeded off hoff
        rw [hofs', ← hsize] at hneed
        rw [hspace]
        omega

/-- The layout of code alone, which starts directly after the unwinding data. -/
theorem place_code_ok (h : AllocInv p s live) (hfresh : ans.Fresh p s) (hreserved : ans.Reserved)
    (hwrap : NoWrap p 0 codeSize) (hempty : codeSize = 0 → s.blockPos ≠ 0 ∧ p.kPageSize ∣ s.blockPos) :
    Gives (place p true 0 codeSize ans) s fun r s' => AllocInv p s' live ∧ s'.blockSize = s.blockSize ∧
      (∀ pl, r = some pl → s'.Laid p true 0 codeSize pl) ∧
      (Fits p s true 0 codeSize →
        needed p true 0 codeSize ≤ s.blockEnd - s.blockPos ∨ ans.NewBlock s → r ≠ none) := by
  have hpos := p.kPageSize_pos
  have hreserve := h.blocks.reserved
  unfold NoWrap at hwrap
  unfold place
  apply gives_get_bind
  rw [if_pos rfl, if_neg (fun hne => hne rfl)]
  apply gives_ite
  · intro hlarge
    exact gives_pure ⟨h, rfl, nofun, fun hfits => absurd hfits (Nat.not_le.mpr hlarge)⟩
  intro hfit
  refine (makeRoom_ok h hfresh hreserved (fun _ _ => by omega) hempty).bind
    fun r s₁ ⟨hinv, hsize, hroom, hready⟩ => ?_
  cases r with
  | none => exact gives_pure ⟨hinv, hsize, nofun, fun _ hr => absurd rfl (hready hr)⟩
  | some off =>
    obtain ⟨hoff, hdvd, hblock, hpage, hspace⟩ := hroom off rfl
    refine gives_pure ⟨hinv, hsize, fun pl hpl => ?_, fun _ _ => Option.some_ne_none _⟩
    cases hpl
    refine ⟨⟨hblock, hpage⟩, le_rfl, rfl, ?_, hdvd, fun _ hne => absurd rfl hne, ?_⟩
    · show s₁.blockPos + (off + codeSize) ≤ s₁.blockEnd
      rcases hspace with ⟨rfl, hspace⟩ | hspace <;> omega
    · show p.alignToPageSize ((off + codeSize) % 2 ^ sizeBits) = Align.up p.kPageSize (off + codeSize)
      rw [Nat.mod_eq_of_lt (by omega)]
      exact Platform.alignToPageSize_eq (by omega)

/-- The layout without protection of data: data in front of the code, rounded to the alignment of code. -/
theorem place_plain_ok (h : AllocInv p s live) (hfresh : ans.Fresh p s) (hreserved : ans.Reserved)
    (hwrap : NoWrap p dataSize codeSize)
    (hempty : dataSize = 0 → codeSize = 0 → s.blockPos ≠ 0 ∧ p.kPageSize ∣ s.blockPos) :
    Gives (place p false dataSize codeSize ans) s fun r s' => AllocInv p s' live ∧ s'.blockSize = s.blockSize ∧
      (∀ pl, r = some pl → s'.Laid p false dataSize codeSize pl) ∧
      (Fits p s false dataSize codeSize →
        needed p false dataSize codeSize ≤ s.blockEnd - s.blockPos ∨ ans.NewBlock s → r ≠ none) := by
  have hpos := p.kPageSize_pos
  have hcode : kCodeAlignment ≤ p.kPageSize := Nat.le_of_dvd hpos p.code_dvd
  have hreserve := h.blocks.reserved
  have hlt := Align.up_lt (a := kCodeAlignment) (x := dataSize) (by decide)
  have hle := Align.le_up (a := kCodeAlignment) (x := dataSize) (by decide)
  unfold NoWrap at hwrap
  have hdata : alignCode dataSize = Align.up kCodeAlignment dataSize := alignCode_eq (by omega)
  have htotal : (alignCode dataSize + codeSize) % 2 ^ sizeBits = alignCode dataSize + codeSize :=
    Nat.mod_eq_of_lt (by omega)
  unfold place
  apply gives_get_bind
  rw [if_neg Bool.false_ne_true]
  dsimp only
  rw [htotal]
  apply gives_ite
  · intro hlarge
    exact gives_pure ⟨h, rfl, nofun, fun hfits => absurd hfits (Nat.not_le.mpr hlarge)⟩
  intro hfit
  refine (makeRoom_ok h hfresh hreserved (fun _ _ => by omega) ?_).bind
    fun r s₁ ⟨hinv, hsize, hroom, hready⟩ => ?_
  · intro hzero
    exact hempty (by omega) (by omega)
  cases r with
  | none => exact gives_pure ⟨hinv, hsize, nofun, fun _ hr => absurd rfl (hready hr)⟩
  | some off =>
    obtain ⟨hoff, hdvd, hblock, hpage, hspace⟩ := hroom off rfl
    have hofs : (off + alignCode dataSize) % 2 ^ sizeBits = off + alignCode dataSize := Nat.mod_eq_of_lt (by omega)
    have hofs' : (off + alignCode dataSize - dataSize) % 2 ^ sizeBits = off + alignCode dataSize - dataSize :=
      Nat.mod_eq_of_lt (by omega)
    refine gives_pure ⟨hinv, hsize, fun pl hpl => ?_, fun _ _ => Option.some_ne_none _⟩
    cases hpl
    rw [hofs, hofs']
    refine ⟨⟨hblock, hpage⟩, ?_, ?_, ?_, ?_, fun hp => Bool.noConfusion hp, ?_⟩
    · show off ≤ off + alignCode dataSize - dataSize
      omega
    · show off + alignCode dataSize - dataSize + dataSize = off + alignCode dataSize
      omega
    · show s₁.blockPos + (off + alignCode dataSize + codeSize) ≤ s₁.blockEnd
      rcases hspace with ⟨rfl, hspace⟩ | hspace <;> omega
    · exact Nat.dvd_add hdvd (hdata ▸ Align.dvd_up _ _)
    · show p.alignToPageSize ((off + (alignCode dataSize + codeSize)) % 2 ^ sizeBits) =
        Align.up p.kPageSize (off + alignCode dataSize + codeSize)
      rw [Nat.mod_eq_of_lt (by omega), ← Nat.add_assoc]
      exact Platform.alignToPageSize_eq (by omega)

theorem place_ok (h : AllocInv p s live) (hfresh : ans.Fresh p s) (hreserved : ans.Reserved)
    (hwrap : NoWrap p dataSize codeSize)
    (hempty : dataSize = 0 → codeSize = 0 → s.blockPos ≠ 0 ∧ p.kPageSize ∣ s.blockPos) :
    Gives (place p protectData dataSize codeSize ans) s fun r s' => AllocInv p s' live ∧
      s'.blockSize = s.blockSize ∧ (∀ pl, r = some pl → s'.Laid p protectData dataSize codeSize pl) ∧
      (Fits p s protectData dataSize codeSize →
        needed p protectData dataSize codeSize ≤ s.blockEnd - s.blockPos ∨ ans.NewBlock s → r ≠ none) := by
  cases protectData with
  | false => exact place_plain_ok h hfresh hreserved hwrap hempty
  | true =>
    rcases Nat.eq_zero_or_pos dataSize with rfl | hdata
    · exact place_code_ok h hfresh hreserved hwrap (hempty rfl)
    · exact place_data_ok h hfresh hreserved hwrap (Nat.pos_iff_ne_zero.mp hdata)

end CodeAllocator

/-- A protection call of `allocate` that fails leaves every page writable: it changed none, and it is not the one
that follows the protection of data. -/
def Answers.Clean (protectData : Bool) (dataSize : ℕ) (ans : Answers) : Prop :=
  if protectData = true ∧ dataSize ≠ 0 then
    (∀ n, ans.readOnly = .failure n → n = 0) ∧ (ans.readOnly = .success → ans.executable = .success)
  else ∀ n, ans.executable = .failure n → n = 0

namespace CodeAllocator

variable {s s' : CodeAllocator} {a c : Allocation} {live : List Allocation} {ans : Answers} {protectData : Bool}
  {dataSize codeSize : ℕ} {pl : Placement}

/-- The pages of the allocation to be, seen from the position. -/
def Ahead (p : Platform) (s : CodeAllocator) (pl : Placement) (q : ℕ) : Prop :=
  s.blockPos ≤ q * p.kPageSize ∧ q * p.kPageSize < s.blockPos + pl.pageAlignedSize

theorem protect_ok (hl : s.Laid p protectData dataSize codeSize pl)
    (hle : pl.pageAlignedSize + p.kPageSize ≤ 2 ^ sizeBits) (hclean : ans.Clean protectData dataSize) :
    Gives (protect p protectData dataSize pl ans) s fun r s' =>
      (r = false → s' = s ∧ ¬(ans.readOnly = .success ∧ ans.executable = .success)) ∧
      (r = true → ∃ prot, s' = { s with prot := prot } ∧ (∀ q, ¬s.Ahead p pl q → prot q = s.prot q) ∧
        ∀ q, s.Ahead p pl q → prot q =
          if protectData = true ∧ dataSize ≠ 0 ∧ q * p.kPageSize < s.blockPos + pl.codeOffset then .readOnly
          else .readExecute) := by
  have hpos := p.kPageSize_pos
  have hsize : p.kPageSize ∣ pl.pageAlignedSize := hl.size ▸ Align.dvd_up _ _
  have hcodeLe : pl.codeOffset ≤ pl.pageAlignedSize := by
    rw [hl.size]
    exact (Nat.le_add_right _ _).trans (Align.le_up hpos)
  unfold protect
  apply gives_get_bind
  apply gives_ite
  · intro hboth
    have hdata : protectData = true ∧ dataSize ≠ 0 := by simpa using hboth
    unfold Answers.Clean at hclean
    rw [if_pos hdata] at hclean
    have hcode := hl.pageAligned hdata.1 hdata.2
    refine (makePages_ok hl.pos.2 hcode (by omega) ans.readOnly).bind fun r s₁ hfirst => ?_
    cases hro : ans.readOnly with
    | failure changed =>
      rw [hro] at hfirst
      obtain ⟨rfl, rfl⟩ := hfirst
      rw [hclean.1 changed hro, Nat.zero_min, setPages_zero]
      exact gives_pure ⟨fun _ => ⟨rfl, nofun⟩, nofun⟩
    | success =>
      rw [hro] at hfirst
      obtain ⟨rfl, rfl⟩ := hfirst
      refine (makePages_ok (Nat.dvd_add hl.pos.2 hcode) (Nat.dvd_sub hsize hcode) (by omega) ans.executable).mono
        fun r s₂ hsecond => ?_
      rw [hclean.2 hro] at hsecond
      obtain ⟨rfl, rfl⟩ := hsecond
      have hfirst := Platform.page_iff (p := p) hl.pos.2 hcode
      have hsecond := Platform.page_iff (p := p) (Nat.dvd_add hl.pos.2 hcode) (Nat.dvd_sub hsize hcode)
      refine ⟨nofun, fun _ => ⟨_, rfl, fun q hq => ?_, fun q hq => ?_⟩⟩
      · show (if _ then _ else if _ then _ else _) = _
        unfold Ahead at hq
        rw [if_neg fun hin => hq (by have := (hsecond q).mp hin; omega),
          if_neg fun hin => hq (by have := (hfirst q).mp hin; omega)]
      · show (if _ then _ else if _ then _ else _) = _
        unfold Ahead at hq
        rcases Nat.lt_or_ge (q * p.kPageSize) (s.blockPos + pl.codeOffset) with hlt | hge
        · rw [if_neg fun hin => by have := (hsecond q).mp hin; omega, if_pos ((hfirst q).mpr ⟨hq.1, hlt⟩),
            if_pos ⟨hdata.1, hdata.2, hlt⟩]
        · rw [if_pos ((hsecond q).mpr ⟨hge, by omega⟩), if_neg fun hall => by omega]
  · intro hboth
    have hdata : ¬(protectData = true ∧ dataSize ≠ 0) := by simpa using hboth
    unfold Answers.Clean at hclean
    rw [if_neg hdata] at hclean
    refine (makePages_ok hl.pos.2 hsize hle ans.executable).mono fun r s₁ hcall => ?_
    cases hexec : ans.executable with
    | failure changed =>
      rw [hexec] at hcall
      obtain ⟨rfl, rfl⟩ := hcall
      rw [hclean changed hexec, Nat.zero_min, setPages_zero]
      exact ⟨fun _ => ⟨rfl, nofun⟩, nofun⟩
    | success =>
      rw [hexec] at hcall
      obtain ⟨rfl, rfl⟩ := hcall
      have hpage := Platform.page_iff (p := p) hl.pos.2 hsize
      refine ⟨nofun, fun _ => ⟨_, rfl, fun q hq => if_neg fun hin => hq ((hpage q).mp hin), fun q hq => ?_⟩⟩
      show (if _ then _ else _) = _
      rw [if_pos ((hpage q).mpr hq), if_neg fun hall => hdata ⟨hall.1, hall.2.1⟩]

/-- The allocation to be lies in the writable rest of the current block. -/
theorem Laid.ahead (h : s.BlocksOk p) (hl : s.Laid p protectData dataSize codeSize pl) :
    ∃ b ∈ s.blocks, b ≤ s.blockPos ∧ s.blockEnd = b + s.blockSize ∧
      s.blockPos + pl.pageAlignedSize ≤ b + s.span p ∧
      ∀ q, s.blockPos ≤ q * p.kPageSize → q * p.kPageSize < b + s.span p → s.prot q = .readWrite := by
  rcases h.current with ⟨hnull, -⟩ | ⟨b, hb, hlo, hhi, hend, -, hfree⟩
  · exact absurd hnull hl.pos.1
  refine ⟨b, hb, hlo, hend, ?_, hfree⟩
  have hbdvd := (h.aligned b hb).2
  have hspan : p.kPageSize ∣ s.span p := p.dvd_alignToPageSize _
  have hsize := (h.bounded b hb).1
  have hcode := hl.code
  have hle : pl.pageAlignedSize ≤ b + s.span p - s.blockPos := by
    rw [hl.size]
    exact Align.up_least p.kPageSize_pos (by omega) (Nat.dvd_sub (Nat.dvd_add hbdvd hspan) hl.pos.2)
  omega

/-- Bytes of the allocation to be can be written. -/
theorem Laid.memcpy_ok (h : s.BlocksOk p) (hl : s.Laid p protectData dataSize codeSize pl) {offset size : ℕ}
    (hsize : size ≠ 0) (hle : offset + size ≤ pl.codeOffset + codeSize) :
    Gives (memcpy p (s.blockPos + offset) size) s fun _ s' => s' = s := by
  obtain ⟨b, hb, hlo, hend, hspan, hfree⟩ := hl.ahead h
  have hup := Align.le_up (x := pl.codeOffset + codeSize) p.kPageSize_pos
  rw [← hl.size] at hup
  apply CodeAllocator.memcpy_ok (Nat.pos_of_ne_zero hsize)
  intro q hqlo hqhi
  apply hfree q
  · obtain ⟨m, hm⟩ := hl.pos.2
    rw [hm, Nat.mul_comm p.kPageSize] at hqlo ⊢
    have : m < q + 1 := Nat.lt_of_mul_lt_mul_right ((Nat.le_add_right _ _).trans_lt hqlo)
    exact Nat.mul_le_mul_right _ (Nat.lt_succ_iff.mp this)
  · omega

/-- Where the next allocation starts. -/
def nextPos (s : CodeAllocator) (pageAlignedSize : ℕ) : ℕ :=
  if pageAlignedSize ≤ s.blockEnd - s.blockPos then s.blockPos + pageAlignedSize else s.blockEnd

theorem advance_ok (hpos : p.kPageSize ∣ s.blockPos) {size : ℕ} (hsize : p.kPageSize ∣ size)
    (hle : s.blockPos ≤ s.blockEnd) :
    Gives (advance p size) s fun _ s' => s' = { s with blockPos := s.nextPos size } := by
  unfold advance nextPos
  apply gives_get_bind
  apply gives_ite
  · intro hfits
    rw [if_pos hfits]
    apply gives_modify_bind
    apply gives_get_bind
    apply gives_assert_bind (decide_eq_true (Nat.mod_eq_zero_of_dvd (Nat.dvd_add hpos hsize)))
    refine ⟨⟨⟩, _, ?_, rfl⟩
    show codegenAssert _ _ = _
    rw [decide_eq_true (by dsimp only; omega)]
    rfl
  · intro hfull
    rw [if_neg hfull]
    exact ⟨⟨⟩, _, rfl, rfl⟩

/-- What `allocate` returns. -/
def result (s : CodeAllocator) (pl : Placement) : CodeAllocationData where
  start := s.blockPos + pl.startOffset
  size := pl.totalSize
  codeStart := s.blockPos + pl.codeOffset
  allocationStart := s.blockPos
  allocationSize := pl.pageAlignedSize

/-- With its pages protected and the position moved past it, the allocation is live. -/
theorem AllocInv.commit (h : AllocInv p s live) (hl : s.Laid p protectData dataSize codeSize pl)
    {prot : ℕ → Protection} (hold : ∀ q, ¬s.Ahead p pl q → prot q = s.prot q)
    (hnew : ∀ q, s.Ahead p pl q → prot q =
      if protectData = true ∧ dataSize ≠ 0 ∧ q * p.kPageSize < s.blockPos + pl.codeOffset then .readOnly
      else .readExecute) :
    AllocInv p { s with
      prot := prot, liveAllocations := s.liveAllocations + 1, blockPos := s.nextPos pl.pageAlignedSize }
      (⟨s.result pl, protectData, dataSize, codeSize⟩ :: live) := by
  obtain ⟨b, hb, hlo, hend, hspan, hfree⟩ := hl.ahead h.blocks
  have hpos := p.kPageSize_pos
  have hbounded := h.blocks.bounded b hb
  have hspandvd : p.kPageSize ∣ s.span p := p.dvd_alignToPageSize _
  have hspanle : s.span p + p.kPageSize ≤ 2 ^ sizeBits := p.alignToPageSize_add_le _
  have hsize : p.kPageSize ∣ pl.pageAlignedSize := hl.size ▸ Align.dvd_up _ _
  have hstart := hl.start
  have hdata := hl.data
  have hcode := hl.code
  have hup := Align.le_up (x := pl.codeOffset + codeSize) hpos
  rw [← hl.size] at hup
  have hcodeAligned := hl.codeAligned
  have hnotAhead : ∀ a ∈ live, ∀ q, a.Page p q → ¬s.Ahead p pl q := fun a ha q hq hahead =>
    (h.placed a ha).not_writable hq (hfree q hahead.1 (by have := hahead.2; omega))
  refine ⟨⟨h.blocks.reserved, h.blocks.size_lt, h.blocks.aligned, h.blocks.bounded, Or.inr ⟨b, hb, ?_⟩⟩, ?_, ?_, ?_,
    congrArg Nat.succ h.counter⟩
  · show b ≤ s.nextPos pl.pageAlignedSize ∧ s.nextPos pl.pageAlignedSize ≤ s.blockEnd ∧ _
    unfold nextPos
    split
    · refine ⟨by omega, by omega, hend, Or.inl (Nat.dvd_add hl.pos.2 hsize), fun q hqlo hqhi => ?_⟩
      dsimp only at hqlo hqhi ⊢
      have hqhi : q * p.kPageSize < b + s.span p := hqhi
      rw [hold q fun hahead => by have := hahead.2; omega]
      exact hfree q (by omega) hqhi
    · refine ⟨by omega, le_rfl, hend, Or.inr rfl, fun q hqlo hqhi => ?_⟩
      -- behind the end of the block there is no page: its size was rounded up to the next one
      exfalso
      have hqlo : s.blockEnd ≤ q * p.kPageSize := hqlo
      have hqhi : q * p.kPageSize < b + s.span p := hqhi
      have hup : s.span p = Align.up p.kPageSize s.blockSize := Platform.alignToPageSize_eq (by omega)
      have hle := Align.up_least (x := s.blockSize) (y := q * p.kPageSize - b) hpos (by omega)
        (Nat.dvd_sub (Nat.dvd_mul_left _ _) (h.blocks.aligned b hb).2)
      omega
  · intro a ha
    rcases List.mem_cons.mp ha with rfl | ha
    · exact {
        inBlock := ⟨b, hb, hlo, by show s.blockPos + pl.codeOffset + codeSize ≤ b + s.blockSize; omega, hspan⟩
        startAligned := hl.pos.2
        sizeAligned := hsize
        start := Nat.le_add_right _ _
        data := by show s.blockPos + pl.startOffset + dataSize ≤ s.blockPos + pl.codeOffset; omega
        code := by
          show s.blockPos + pl.codeOffset + codeSize ≤ s.blockPos + pl.pageAlignedSize
          omega
        codeAligned := Nat.dvd_add (p.code_dvd.trans hl.pos.2) hcodeAligned
        pageAligned := fun hp hd => Nat.dvd_add hl.pos.2 (hl.pageAligned hp hd)
        prot := hnew }
    · exact (h.placed a ha).mono (fun _ hb => hb) rfl fun q hq => hold q (hnotAhead a ha q hq)
  · exact List.pairwise_cons.mpr ⟨fun a ha q hq => hnotAhead a ha q hq.2 hq.1, h.apart⟩
  · intro b' hb' q hqlo hqhi hprot
    by_cases hahead : s.Ahead p pl q
    · exact ⟨_, List.mem_cons_self, hahead⟩
    · have hkept : prot q = s.prot q := hold q hahead
      obtain ⟨a, ha, hq⟩ := h.owned b' hb' q hqlo hqhi fun heq => hprot (hkept.trans heq)
      exact ⟨a, List.mem_cons_of_mem _ ha, hq⟩

theorem allocate_ok (h : AllocInv p s live) (hfresh : ans.Fresh p s) (hreserved : ans.Reserved)
    (hwrap : NoWrap p dataSize codeSize)
    (hempty : dataSize = 0 → codeSize = 0 → s.blockPos ≠ 0 ∧ p.kPageSize ∣ s.blockPos)
    (hclean : ans.Clean protectData dataSize) :
    Gives (allocate p protectData dataSize codeSize ans) s fun r s' =>
      (r = .null ∧ AllocInv p s' live ∨
        r.start ≠ 0 ∧ AllocInv p s' (⟨r, protectData, dataSize, codeSize⟩ :: live)) ∧
      (Fits p s protectData dataSize codeSize → ans.readOnly = .success → ans.executable = .success →
        needed p protectData dataSize codeSize ≤ s.blockEnd - s.blockPos ∨ ans.NewBlock s → r.start ≠ 0) := by
  unfold allocate
  refine (place_ok h hfresh hreserved hwrap hempty).bind fun r s₁ ⟨hinv, hsize, hlaid, hready⟩ => ?_
  cases r with
  | none => exact gives_pure ⟨Or.inl ⟨rfl, hinv⟩, fun hfits _ _ hroom => absurd rfl (hready hfits hroom)⟩
  | some pl =>
    have hl := hlaid pl rfl
    obtain ⟨b, hb, hlo, hend, hspan, -⟩ := hl.ahead hinv.blocks
    have hb0 := (hinv.blocks.aligned b hb).1
    have hble := Nat.le_of_dvd (Nat.pos_of_ne_zero hb0) (hinv.blocks.aligned b hb).2
    have hbounded := (hinv.blocks.bounded b hb).2
    have hcode := hl.code
    have hdata := hl.data
    apply gives_get_bind
    apply gives_assert_bind (decide_eq_true (Nat.mod_eq_zero_of_dvd hl.pos.2))
    refine gives_when (fun hne => hl.memcpy_ok hinv.blocks hne (by omega)) ?_
    refine gives_when (fun hne => hl.memcpy_ok hinv.blocks hne le_rfl) ?_
    refine (protect_ok hl (by omega) hclean).bind fun r s₄ ⟨hfailed, hdone⟩ => ?_
    cases r with
    | false =>
      obtain ⟨rfl, hans⟩ := hfailed rfl
      exact gives_pure ⟨Or.inl ⟨rfl, hinv⟩, fun _ hro hexec _ => absurd ⟨hro, hexec⟩ hans⟩
    | true =>
      obtain ⟨prot, rfl, hold, hnew⟩ := hdone rfl
      apply gives_modify_bind
      refine (advance_ok (by exact hl.pos.2) (hl.size ▸ Align.dvd_up _ _) (by dsimp only; omega)).bind
        fun _ s₅ hs₅ => ?_
      subst hs₅
      have hstart : s₁.blockPos + pl.startOffset ≠ 0 := fun hzero => hl.pos.1 (Nat.add_eq_zero_iff.mp hzero).1
      exact gives_pure ⟨Or.inr ⟨hstart, hinv.commit hl hold hnew⟩, fun _ _ _ _ => hstart⟩

end CodeAllocator

end Luwu.Native
