import Luwu.Lib.Deltas
import Mathlib.Data.BitVec
import Mathlib.Data.List.GetD
import Mathlib.Tactic

/-!
# Line info

The lines of the instructions are kept in windows of a power of two: a byte for each instruction, its distance from the
lowest line of its window, and an int for each window.  The builder writes both as differences to the one before
(`writeLineInfo`), the loader adds them up (`loadLineInfo`), and the inliner's builder fills the arrays without
differences (`finishLineInfo`).

Lines are ints and instructions are counted without a bound.
-/

namespace Luwu.Bytecode

open Deltas

abbrev Byte := BitVec 8

/-- `while (v >= (2 << r)) r++` -/
def log2Loop (v : ℕ) : ℕ → ℕ → ℕ
  | 0, r => r
  | fuel + 1, r => if 2 <<< r ≤ v then log2Loop v fuel (r + 1) else r

def log2 (v : ℕ) : ℕ := log2Loop v v 0

/-- The inner loop of `calcLinesSpan`, which stops at a line that is too far from those before -/
def nextLoop (lines : List ℤ) (limit : ℕ) : ℕ → ℕ → ℤ → ℤ → ℕ
  | 0, next, _, _ => next
  | fuel + 1, next, lo, hi =>
    if next < lines.length ∧ next < limit then
      let lo := min lo (lines.getD next 0)
      let hi := max hi (lines.getD next 0)
      if hi - lo > 255 then next else nextLoop lines limit fuel (next + 1) lo hi
    else next

def spanLoop (lines : List ℤ) : ℕ → ℕ → ℕ → Option ℕ
  | 0, _, _ => none
  | fuel + 1, offset, span =>
    if offset < lines.length then
      let line := lines.getD offset 0
      let next := nextLoop lines (offset + span) lines.length offset line line
      -- not all lines in the range fit, so the span shrinks
      let span := if next < lines.length ∧ next - offset < span then 1 <<< log2 (next - offset) else span
      spanLoop lines fuel (offset + span) span
    else some span

def calcLinesSpan (lines : List ℤ) : Option ℕ := spanLoop lines (lines.length + 1) 0 (1 <<< 24)

/-- The lowest line of a window -/
def windowMin (lines : List ℤ) (offset span : ℕ) : ℤ :=
  ((lines.drop offset).take span).foldl min (lines.getD offset 0)

/-- `fillBaselineInfo` -/
def fillBaselineInfo (lines : List ℤ) (span baselineSize : ℕ) : List ℤ :=
  (List.range baselineSize).map fun w => windowMin lines (w * span) span

/-! ### The stream -/

def writeInt (value : ℤ) : List Byte :=
  let v := BitVec.ofInt 32 value
  [v.extractLsb' 0 8, v.extractLsb' 8 8, v.extractLsb' 16 8, v.extractLsb' 24 8]

abbrev Reader := StateT (List Byte) Option

def readByte : Reader Byte := fun data =>
  match data with
  | b :: rest => some (b, rest)
  | [] => none

def readInt : Reader ℤ := do
  let b0 ← readByte
  let b1 ← readByte
  let b2 ← readByte
  let b3 ← readByte
  return (b3 ++ b2 ++ b1 ++ b0).toInt

def writeLineInfo (lines : List ℤ) : Option (List Byte) := do
  let span ← calcLinesSpan lines
  let baselineSize := (lines.length - 1) / span + 1
  let baseline := fillBaselineInfo lines span baselineSize
  let logspan := log2 span
  let deltas := (List.range lines.length).map fun i => lines.getD i 0 - baseline.getD (i >>> logspan) 0
  return BitVec.ofNat 8 logspan :: differences 0 (deltas.map (BitVec.ofInt 8)) ++
    (differences 0 baseline).flatMap writeInt

/-- `linegaplog2`, `lineinfo` and `abslineinfo` of a proto -/
structure LineInfo where
  linegaplog2 : ℕ
  lineinfo : List Byte
  abslineinfo : List ℤ

/-- `lastoffset += read<uint8_t>(..)` -/
def loadOffsets : ℕ → Byte → Reader (List Byte)
  | 0, _ => pure []
  | n + 1, lastoffset => do
    let lastoffset := lastoffset + (← readByte)
    return lastoffset :: (← loadOffsets n lastoffset)

/-- `lastline += read<int32_t>(..)` -/
def loadLines : ℕ → ℤ → Reader (List ℤ)
  | 0, _ => pure []
  | n + 1, lastline => do
    let lastline := lastline + (← readInt)
    return lastline :: (← loadLines n lastline)

def loadLineInfo (sizecode : ℕ) : Reader LineInfo := do
  let linegaplog2 := (← readByte).toNat
  let intervals := ((sizecode - 1) >>> linegaplog2) + 1
  let lineinfo ← loadOffsets sizecode 0
  let abslineinfo ← loadLines intervals 0
  return ⟨linegaplog2, lineinfo, abslineinfo⟩

/-- The line info of `RuntimeBytecodeBuilder::finishAndDumpCode` -/
def finishLineInfo (lines : List ℤ) : Option LineInfo := do
  let span ← calcLinesSpan lines
  let linegaplog2 := log2 span
  let intervals := ((lines.length - 1) >>> linegaplog2) + 1
  let abslineinfo := fillBaselineInfo lines span intervals
  let lineinfo := (List.range lines.length).map fun i =>
    BitVec.ofInt 8 (lines.getD i 0 - abslineinfo.getD (i >>> linegaplog2) 0)
  return ⟨linegaplog2, lineinfo, abslineinfo⟩

/-- `luaG_getline` -/
def LineInfo.getline (p : LineInfo) (pc : ℕ) : ℤ :=
  p.abslineinfo.getD (pc >>> p.linegaplog2) 0 + (p.lineinfo.getD pc 0).toNat

/-! ### The span -/

section Span

variable {lines : List ℤ} {v r fuel offset next span limit : ℕ} {lo hi : ℤ}

theorem log2Loop_spec (h : 2 ^ r ≤ v) (hfuel : v < 2 ^ (r + fuel + 1)) :
    2 ^ log2Loop v fuel r ≤ v ∧ v < 2 ^ (log2Loop v fuel r + 1) := by
  induction fuel generalizing r with
  | zero => exact ⟨h, hfuel⟩
  | succ fuel ih =>
    have hshift : 2 <<< r = 2 ^ (r + 1) := by
      rw [Nat.shiftLeft_eq, pow_succ, mul_comm]
    unfold log2Loop
    rw [hshift]
    by_cases hle : 2 ^ (r + 1) ≤ v
    · rw [if_pos hle]
      apply ih hle
      rwa [show r + 1 + fuel + 1 = r + (fuel + 1) + 1 from by omega]
    · rw [if_neg hle]
      exact ⟨h, not_le.mp hle⟩

theorem log2_spec (h : 0 < v) : 2 ^ log2 v ≤ v ∧ v < 2 ^ (log2 v + 1) := by
  apply log2Loop_spec
  · exact h
  · have hlt : v < 2 ^ v := Nat.lt_two_pow_self
    rw [Nat.zero_add, pow_succ]
    omega

theorem log2_two_pow (k : ℕ) : log2 (2 ^ k) = k := by
  obtain ⟨h1, h2⟩ := @log2_spec (2 ^ k) (by positivity)
  have hle : log2 (2 ^ k) ≤ k := (Nat.pow_le_pow_iff_right (by omega)).mp h1
  have hlt : k < log2 (2 ^ k) + 1 := (Nat.pow_lt_pow_iff_right (by omega)).mp h2
  omega

/-- Lines are near each other when a byte holds their distance. -/
def Near (lines : List ℤ) (i j : ℕ) : Prop := lines.getD i 0 - lines.getD j 0 ≤ 255

/-- The bounds that the inner loop keeps -/
structure Bounds (lines : List ℤ) (offset next : ℕ) (lo hi : ℤ) : Prop where
  lower : ∀ i, offset ≤ i → i < next → lo ≤ lines.getD i 0
  upper : ∀ i, offset ≤ i → i < next → lines.getD i 0 ≤ hi
  near : hi - lo ≤ 255

theorem Bounds.extend (h : Bounds lines offset next lo hi)
    (hnear : max hi (lines.getD next 0) - min lo (lines.getD next 0) ≤ 255) :
    Bounds lines offset (next + 1) (min lo (lines.getD next 0)) (max hi (lines.getD next 0)) := by
  refine ⟨fun i h1 h2 => ?_, fun i h1 h2 => ?_, hnear⟩
  · rcases Nat.lt_succ_iff_lt_or_eq.mp h2 with hlt | rfl
    · exact (min_le_left _ _).trans (h.lower i h1 hlt)
    · exact min_le_right _ _
  · rcases Nat.lt_succ_iff_lt_or_eq.mp h2 with hlt | rfl
    · exact (h.upper i h1 hlt).trans (le_max_left _ _)
    · exact le_max_right _ _

/-- The inner loop passes lines that are near each other, and stops early only inside the list. -/
theorem nextLoop_spec (h : Bounds lines offset next lo hi) (hfuel : lines.length ≤ next + fuel) :
    let next' := nextLoop lines limit fuel next lo hi
    next ≤ next' ∧ (∀ i j, offset ≤ i → i < next' → offset ≤ j → j < next' → Near lines i j) ∧
      (next' < lines.length ∧ next' < limit ∨ lines.length ≤ next' ∨ limit ≤ next') := by
  induction fuel generalizing next lo hi with
  | zero =>
    refine ⟨le_rfl, fun i j hi1 hi2 hj1 hj2 => ?_, Or.inr (Or.inl hfuel)⟩
    have h1 := h.upper i hi1 hi2
    have h2 := h.lower j hj1 hj2
    have h3 := h.near
    unfold Near
    omega
  | succ fuel ih =>
    have hall : ∀ i j, offset ≤ i → i < next → offset ≤ j → j < next → Near lines i j := by
      intro i j hi1 hi2 hj1 hj2
      have h1 := h.upper i hi1 hi2
      have h2 := h.lower j hj1 hj2
      have h3 := h.near
      unfold Near
      omega
    unfold nextLoop
    dsimp only
    by_cases hin : next < lines.length ∧ next < limit
    · rw [if_pos hin]
      by_cases hfar : max hi (lines.getD next 0) - min lo (lines.getD next 0) > 255
      · rw [if_pos hfar]
        exact ⟨le_rfl, hall, Or.inl hin⟩
      · rw [if_neg hfar]
        obtain ⟨hle, hnear, hend⟩ := ih (h.extend (by omega)) (by omega)
        exact ⟨by omega, hnear, hend⟩
    · rw [if_neg hin]
      exact ⟨le_rfl, hall, Or.inr (by omega)⟩

/-- The first turn passes the line it starts with. -/
theorem nextLoop_first (hin : offset < lines.length) (hspan : offset < limit) :
    let line := lines.getD offset 0
    nextLoop lines limit lines.length offset line line
      = nextLoop lines limit (lines.length - 1) (offset + 1) line line := by
  obtain ⟨n, hn⟩ : ∃ n, lines.length = n + 1 := ⟨lines.length - 1, by omega⟩
  dsimp only
  rw [hn, Nat.add_sub_cancel]
  conv_lhs => unfold nextLoop
  dsimp only
  rw [if_pos ⟨hin, hspan⟩, min_self, max_self, sub_self, if_neg (by omega)]

/-- The windows below an offset -/
structure Spanned (lines : List ℤ) (offset span : ℕ) : Prop where
  power : ∃ k ≤ 24, span = 2 ^ k
  aligned : span ∣ offset
  near : ∀ i j, i < offset → j < offset → i < lines.length → j < lines.length → i / span = j / span → Near lines i j

/-- Smaller windows lie in the larger ones. -/
theorem Spanned.shrink (h : Spanned lines offset span) {k : ℕ} (hk : 2 ^ k ≤ span) : Spanned lines offset (2 ^ k) := by
  obtain ⟨m, hm, rfl⟩ := h.power
  have hkm : k ≤ m := (Nat.pow_le_pow_iff_right (by omega)).mp hk
  have hdvd : 2 ^ k ∣ 2 ^ m := pow_dvd_pow 2 hkm
  refine ⟨⟨k, by omega, rfl⟩, hdvd.trans h.aligned, fun i j hi hj hi' hj' hij => h.near i j hi hj hi' hj' ?_⟩
  obtain ⟨c, hc⟩ := hdvd
  rw [hc, ← Nat.div_div_eq_div_mul, ← Nat.div_div_eq_div_mul, hij]

/-- The window at the offset -/
theorem Spanned.advance (h : Spanned lines offset span)
    (hnear : ∀ i j, offset ≤ i → i < offset + span → offset ≤ j → j < offset + span → i < lines.length →
      j < lines.length → Near lines i j) : Spanned lines (offset + span) span := by
  obtain ⟨k, _, hk⟩ := h.power
  have hpos : 0 < span := by
    rw [hk]
    positivity
  obtain ⟨c, rfl⟩ := h.aligned
  have hbelow : ∀ i, i / span < c ↔ i < span * c := fun i => by
    rw [Nat.div_lt_iff_lt_mul hpos, mul_comm]
  refine ⟨h.power, Dvd.intro (c + 1) (by ring), fun i j hi hj hi' hj' hij => ?_⟩
  by_cases hold : i < span * c
  · have hj'' : j < span * c := by
      rw [← hbelow, ← hij, hbelow]
      exact hold
    exact h.near i j hold hj'' hi' hj' hij
  · have hj'' : ¬j < span * c := by
      rw [← hbelow, ← hij, hbelow]
      exact hold
    exact hnear i j (not_lt.mp hold) hi (not_lt.mp hj'') hj hi' hj'

/-- What the span is for -/
def Span (lines : List ℤ) (span : ℕ) : Prop :=
  (∃ k ≤ 24, span = 2 ^ k) ∧
    ∀ i j, i < lines.length → j < lines.length → i / span = j / span → Near lines i j

theorem spanLoop_spec (h : Spanned lines offset span) (hfuel : lines.length - offset < fuel) :
    ∃ span', spanLoop lines fuel offset span = some span' ∧ Span lines span' := by
  induction fuel generalizing offset span with
  | zero => omega
  | succ fuel ih =>
    unfold spanLoop
    by_cases hin : offset < lines.length
    · obtain ⟨m, _, hm⟩ := h.power
      have hpos : 0 < span := by
        rw [hm]
        positivity
      rw [if_pos hin]
      dsimp only
      have hbounds : Bounds lines offset (offset + 1) (lines.getD offset 0) (lines.getD offset 0) := by
        refine ⟨fun i h1 h2 => ?_, fun i h1 h2 => ?_, by omega⟩ <;> rw [show i = offset from by omega]
      have hnext := @nextLoop_spec lines (lines.length - 1) offset (offset + 1) (offset + span) _ _ hbounds (by omega)
      rw [nextLoop_first hin (show offset < offset + span from by omega)]
      set next := nextLoop lines (offset + span) (lines.length - 1) (offset + 1) (lines.getD offset 0)
        (lines.getD offset 0)
      obtain ⟨hle, hnear, hend⟩ := hnext
      by_cases hshort : next < lines.length ∧ next - offset < span
      · rw [if_pos hshort, Nat.shiftLeft_eq, one_mul]
        obtain ⟨hlog, _⟩ := @log2_spec (next - offset) (by omega)
        have hpower : 0 < 2 ^ log2 (next - offset) := by positivity
        refine ih ((h.shrink (by omega)).advance fun i j hi hi' hj hj' _ _ => ?_) (by omega)
        exact hnear i j hi (by omega) hj (by omega)
      · rw [if_neg hshort]
        refine ih (h.advance fun i j hi hi' hj hj' hi'' hj'' => ?_) (by omega)
        exact hnear i j hi (by omega) hj (by omega)
    · rw [if_neg hin]
      exact ⟨span, rfl, h.power, fun i j hi hj => h.near i j (by omega) (by omega) hi hj⟩

/-- **`calcLinesSpan`** ends, with a span whose windows fit. -/
theorem calcLinesSpan_spec (lines : List ℤ) : ∃ span, calcLinesSpan lines = some span ∧ Span lines span := by
  have hstart : Spanned lines 0 (1 <<< 24) := by
    refine ⟨⟨24, le_rfl, rfl⟩, dvd_zero _, fun i j hi => ?_⟩
    exact absurd hi (Nat.not_lt_zero i)
  exact spanLoop_spec hstart (by omega)

/-! ### The lowest lines -/

theorem foldl_min_le (a : ℤ) (l : List ℤ) : ∀ x ∈ a :: l, l.foldl min a ≤ x := by
  induction l generalizing a with
  | nil =>
    intro x hx
    rw [List.mem_singleton.mp hx]
    exact le_rfl
  | cons b l ih =>
    intro x hx
    rcases List.mem_cons.mp hx with rfl | hx
    · exact (ih (min x b) _ List.mem_cons_self).trans (min_le_left x b)
    · rcases List.mem_cons.mp hx with rfl | hx
      · exact (ih (min a x) _ List.mem_cons_self).trans (min_le_right a x)
      · exact ih (min a b) x (List.mem_cons_of_mem _ hx)

theorem foldl_min_mem (a : ℤ) (l : List ℤ) : l.foldl min a ∈ a :: l := by
  induction l generalizing a with
  | nil => exact List.mem_singleton.mpr rfl
  | cons b l ih =>
    rcases List.mem_cons.mp (ih (min a b)) with heq | hmem
    · rw [List.foldl_cons, heq]
      rcases min_choice a b with h | h
      · rw [h]
        exact List.mem_cons_self
      · rw [h]
        exact List.mem_cons_of_mem a List.mem_cons_self
    · exact List.mem_cons_of_mem a (List.mem_cons_of_mem b hmem)

theorem mem_window {x : ℤ} :
    x ∈ (lines.drop offset).take span ↔ ∃ i, offset ≤ i ∧ i < offset + span ∧ i < lines.length ∧ lines.getD i 0 = x := by
  rw [List.mem_iff_getElem]
  constructor
  · rintro ⟨i, hi, rfl⟩
    rw [List.length_take, List.length_drop] at hi
    have hlt : offset + i < lines.length := by omega
    refine ⟨offset + i, by omega, by omega, hlt, ?_⟩
    rw [List.getElem_take, List.getElem_drop, List.getD_eq_getElem _ _ hlt]
  · rintro ⟨i, h1, h2, h3, rfl⟩
    refine ⟨i - offset, ?_, ?_⟩
    · rw [List.length_take, List.length_drop]
      omega
    · rw [List.getElem_take, List.getElem_drop, List.getD_eq_getElem _ _ h3]
      congr 1
      omega

/-- The lowest line of a window is one of its lines. -/
theorem windowMin_spec (hin : offset < lines.length) (hpos : 0 < span) :
    (∀ i, offset ≤ i → i < offset + span → i < lines.length → windowMin lines offset span ≤ lines.getD i 0) ∧
      ∃ j, offset ≤ j ∧ j < offset + span ∧ j < lines.length ∧ lines.getD j 0 = windowMin lines offset span := by
  constructor
  · intro i h1 h2 h3
    exact foldl_min_le _ _ _ (List.mem_cons_of_mem _ (mem_window.mpr ⟨i, h1, h2, h3, rfl⟩))
  · rcases List.mem_cons.mp (foldl_min_mem (lines.getD offset 0) ((lines.drop offset).take span)) with heq | hmem
    · exact ⟨offset, le_rfl, by omega, hin, heq.symm⟩
    · exact mem_window.mp hmem

end Span

/-! ### The round trip -/

section RoundTrip

variable {lines : List ℤ} {k i : ℕ}

/-- The distance of a line from the lowest of its window fits a byte. -/
theorem delta_fits (hspan : Span lines (2 ^ k)) (hi : i < lines.length) {size : ℕ}
    (hsize : (lines.length - 1) / 2 ^ k < size) :
    let delta := lines.getD i 0 - (fillBaselineInfo lines (2 ^ k) size).getD (i >>> k) 0
    0 ≤ delta ∧ delta ≤ 255 := by
  have hpos : 0 < 2 ^ k := by positivity
  have hwindow : i / 2 ^ k < size := (Nat.div_le_div_right (by omega)).trans_lt hsize
  have hstart : i / 2 ^ k * 2 ^ k ≤ i := Nat.div_mul_le_self i _
  have hend : i < i / 2 ^ k * 2 ^ k + 2 ^ k := Nat.lt_div_mul_add hpos
  have hbase : (fillBaselineInfo lines (2 ^ k) size).getD (i >>> k) 0 = windowMin lines (i / 2 ^ k * 2 ^ k) (2 ^ k) := by
    unfold fillBaselineInfo
    rw [Nat.shiftRight_eq_div_pow, List.getD_eq_getElem _ _ (by rw [List.length_map, List.length_range]; exact hwindow),
      List.getElem_map, List.getElem_range]
  obtain ⟨hle, j, h1, h2, h3, hj⟩ := @windowMin_spec lines (i / 2 ^ k * 2 ^ k) (2 ^ k) (by omega) hpos
  have hsame : i / 2 ^ k = j / 2 ^ k := by
    apply le_antisymm
    · rw [Nat.le_div_iff_mul_le hpos]
      exact h1
    · rw [← Nat.lt_succ_iff, Nat.div_lt_iff_lt_mul hpos, Nat.succ_mul]
      exact h2
  have hnear := hspan.2 i j hi h3 hsame
  have hlow := hle i hstart hend hi
  unfold Near at hnear
  dsimp only
  rw [hbase]
  omega

theorem readInt_writeInt {d : ℤ} (h1 : -2 ^ 31 ≤ d) (h2 : d < 2 ^ 31) (rest : List Byte) :
    readInt (writeInt d ++ rest) = some (d, rest) := by
  have hjoin (v : BitVec 32) :
      (v.extractLsb' 24 8 ++ v.extractLsb' 16 8 ++ v.extractLsb' 8 8 ++ v.extractLsb' 0 8 : BitVec 32) = v := by
    apply BitVec.eq_of_getLsbD_eq
    intro i hi
    simp only [BitVec.getLsbD_append, BitVec.getLsbD_extractLsb']
    grind
  show some ((_ : BitVec 32).toInt, rest) = _
  rw [hjoin, BitVec.toInt_ofInt, Int.bmod_eq_of_le (by norm_num; omega) (by norm_num; omega)]

theorem loadOffsets_differences (last : Byte) (bs rest : List Byte) :
    loadOffsets bs.length last (differences last bs ++ rest) = some (bs, rest) := by
  induction bs generalizing last with
  | nil => rfl
  | cons b bs ih =>
    have hb : last + (b - last) = b := add_sub_cancel last b
    show (do
      let (rest', data) ← loadOffsets bs.length (last + (b - last)) (differences b bs ++ rest)
      some ((last + (b - last)) :: rest', data)) = _
    rw [hb, ih b]
    rfl

theorem loadLines_differences {last : ℤ} {ls : List ℤ} (h : ∀ d ∈ differences last ls, -2 ^ 31 ≤ d ∧ d < 2 ^ 31)
    (rest : List Byte) :
    loadLines ls.length last ((differences last ls).flatMap writeInt ++ rest) = some (ls, rest) := by
  induction ls generalizing last with
  | nil => rfl
  | cons l ls ih =>
    have hl : last + (l - last) = l := add_sub_cancel last l
    have hd : -2 ^ 31 ≤ l - last ∧ l - last < 2 ^ 31 := h (l - last) List.mem_cons_self
    have hread := readInt_writeInt hd.1 hd.2 ((differences l ls).flatMap writeInt ++ rest)
    have hrest := ih fun d hmem => h d (List.mem_cons_of_mem _ hmem)
    show (do
      let (d, data) ← readInt (writeInt (l - last) ++ (differences l ls).flatMap writeInt ++ rest)
      let (rest', data) ← loadLines ls.length (last + d) data
      some ((last + d) :: rest', data)) = _
    rw [List.append_assoc, hread]
    show (do
      let (rest', data) ← loadLines ls.length (last + (l - last)) ((differences l ls).flatMap writeInt ++ rest)
      some ((last + (l - last)) :: rest', data)) = _
    rw [hl, hrest]
    rfl

/-- The lowest line of a window is a line. -/
theorem mem_fillBaselineInfo {span size : ℕ} (hpos : 0 < span) (hsize : (size - 1) * span < lines.length) {x : ℤ}
    (hx : x ∈ fillBaselineInfo lines span size) : x ∈ lines := by
  obtain ⟨w, hw, rfl⟩ := List.mem_map.mp hx
  rw [List.mem_range] at hw
  have hin : w * span < lines.length := (Nat.mul_le_mul_right span (by omega)).trans_lt hsize
  obtain ⟨_, j, _, _, h3, hj⟩ := windowMin_spec hin hpos
  rw [← hj, List.getD_eq_getElem _ _ h3]
  exact List.getElem_mem h3

/-- A byte and the lowest line of the window give the line. -/
theorem getline_of_delta (hspan : Span lines (2 ^ k)) {size : ℕ} (hsize : (lines.length - 1) / 2 ^ k < size)
    (hi : i < lines.length) :
    (LineInfo.mk k ((List.range lines.length).map fun i =>
        BitVec.ofInt 8 (lines.getD i 0 - (fillBaselineInfo lines (2 ^ k) size).getD (i >>> k) 0))
      (fillBaselineInfo lines (2 ^ k) size)).getline i = lines.getD i 0 := by
  obtain ⟨h0, h255⟩ := delta_fits hspan hi hsize
  have hbyte : ((List.range lines.length).map fun i =>
      BitVec.ofInt 8 (lines.getD i 0 - (fillBaselineInfo lines (2 ^ k) size).getD (i >>> k) 0)).getD i 0
      = BitVec.ofInt 8 (lines.getD i 0 - (fillBaselineInfo lines (2 ^ k) size).getD (i >>> k) 0) := by
    rw [List.getD_eq_getElem _ _ (by rw [List.length_map, List.length_range]; exact hi), List.getElem_map,
      List.getElem_range]
  unfold LineInfo.getline
  rw [hbyte, BitVec.toNat_ofInt]
  show (fillBaselineInfo lines (2 ^ k) size).getD (i >>> k) 0 + _ = _
  omega

/-- The loader reads what is written. -/
theorem loadLineInfo_differences (hk : k < 256) {n : ℕ} {bytes : List Byte} {baseline : List ℤ} (hn : bytes.length = n)
    (hm : baseline.length = (n - 1) >>> k + 1) (hfits : ∀ d ∈ differences 0 baseline, -2 ^ 31 ≤ d ∧ d < 2 ^ 31)
    (rest : List Byte) :
    loadLineInfo n (BitVec.ofNat 8 k :: differences 0 bytes ++ (differences 0 baseline).flatMap writeInt ++ rest)
      = some (⟨k, bytes, baseline⟩, rest) := by
  have hgap : (BitVec.ofNat 8 k).toNat = k := by
    rw [BitVec.toNat_ofNat]
    omega
  have hoffsets := loadOffsets_differences 0 bytes ((differences 0 baseline).flatMap writeInt ++ rest)
  have hlines := loadLines_differences hfits rest
  rw [hn] at hoffsets
  rw [hm] at hlines
  show (do
    let (lineinfo, data) ← loadOffsets n 0 (differences 0 bytes ++ (differences 0 baseline).flatMap writeInt ++ rest)
    let (abslineinfo, data) ← loadLines ((n - 1) >>> (BitVec.ofNat 8 k).toNat + 1) 0 data
    some (LineInfo.mk (BitVec.ofNat 8 k).toNat lineinfo abslineinfo, data)) = _
  rw [hgap, List.append_assoc, hoffsets]
  show (do
    let (abslineinfo, data) ← loadLines ((n - 1) >>> k + 1) 0 ((differences 0 baseline).flatMap writeInt ++ rest)
    some (LineInfo.mk k bytes abslineinfo, data)) = _
  rw [hlines]
  rfl

/-- Positive ints differ by ints. -/
theorem fits_differences (hpos : ∀ l ∈ lines, 0 < l ∧ l < 2 ^ 31) {span : ℕ} (hspan : 0 < span)
    (hlen : 0 < lines.length) :
    ∀ d ∈ differences 0 (fillBaselineInfo lines span ((lines.length - 1) / span + 1)), -2 ^ 31 ≤ d ∧ d < 2 ^ 31 := by
  have hrange : ∀ b ∈ (0 : ℤ) :: fillBaselineInfo lines span ((lines.length - 1) / span + 1), 0 ≤ b ∧ b < 2 ^ 31 := by
    intro b hb
    rcases List.mem_cons.mp hb with rfl | hb
    · norm_num
    · have hle := Nat.div_mul_le_self (lines.length - 1) span
      have hline := hpos b (mem_fillBaselineInfo hspan (by rw [Nat.add_sub_cancel]; omega) hb)
      omega
  refine forall_mem_differences fun a ha b hb => ?_
  have h1 := hrange a ha
  have h2 := hrange b hb
  omega

end RoundTrip

end Luwu.Bytecode
