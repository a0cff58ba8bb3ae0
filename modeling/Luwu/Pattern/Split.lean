import Luwu.Lib.Scan

/-!
# Splitting a string

`string.split`, on positions of the haystack.  A pointer is an offset, which may lie before the haystack; a read outside the
haystack, or of a length that is negative, stops the run.  A string fits in an `int`, so matches are counted without a bound.
-/

namespace Luwu.Pattern

open Luwu.Scan

/-! ### The function -/

/-- `memcmp(iter, needle, needleLen) == 0` -/
def matchesAt (haystack needle : List UInt8) (iter : ℤ) : Option Bool :=
  if 0 ≤ iter ∧ iter + needle.length ≤ haystack.length then some (needle.isPrefixOf (haystack.drop iter.toNat)) else none

/-- What `lua_pushlstring` pushes -/
def span (haystack : List UInt8) (spanStart len : ℤ) : Option (List UInt8) :=
  if 0 ≤ spanStart ∧ 0 ≤ len ∧ spanStart + len ≤ haystack.length then
    some ((haystack.drop spanStart.toNat).take len.toNat)
  else none

/-- The state of the loop; the table as the list of what was set -/
structure Splitting where
  spanStart : ℤ
  numMatches : ℕ
  table : List (ℕ × List UInt8)

/-- `lua_settable` with the next number -/
def Splitting.push (s : Splitting) (piece : List UInt8) : Splitting :=
  { s with numMatches := s.numMatches + 1, table := s.table ++ [(s.numMatches + 1, piece)] }

def splitLoop (haystack needle : List UInt8) (iter : ℤ) (s : Splitting) : Option Splitting :=
  if iter ≤ haystack.length - needle.length then
    match matchesAt haystack needle iter with
    | none => none
    | some false => splitLoop haystack needle (iter + 1) s
    | some true =>
      match span haystack s.spanStart (iter - s.spanStart) with
      | none => none
      | some piece =>
        let s := { s.push piece with spanStart := iter + needle.length }
        splitLoop haystack needle ((if 0 < needle.length then iter + (needle.length - 1 : ℕ) else iter) + 1) s
  else some s
termination_by (haystack.length + 1 - iter).toNat
decreasing_by
  · omega
  · split <;> omega

def str_split (haystack : List UInt8) (arg2 : Option (List UInt8)) : Option (List (ℕ × List UInt8)) := do
  let needle := arg2.getD [','.toUInt8]
  let begin_ : ℤ := if needle.length = 0 then 1 else 0
  let s ← splitLoop haystack needle begin_ ⟨0, 0, []⟩
  if 0 < needle.length then
    let piece ← span haystack s.spanStart (haystack.length - s.spanStart)
    return (s.push piece).table
  else return s.table

/-! ### The loop is a scan -/

section Loop

variable {haystack needle : List UInt8} {pos start : ℕ}

/-- Where an occurrence of the needle ends -/
def occurrence (haystack needle : List UInt8) (pos : ℕ) : Option ℕ :=
  if needle <+: haystack.drop pos then some (pos + needle.length) else none

/-- The leftmost occurrences that do not overlap -/
def occurrences (haystack needle : List UInt8) (pos : ℕ) : List Span := scan haystack.length (occurrence haystack needle) pos

/-- The pieces with their numbers -/
def numbered (n : ℕ) : List (List UInt8) → List (ℕ × List UInt8)
  | [] => []
  | piece :: rest => (n + 1, piece) :: numbered (n + 1) rest

theorem matchesAt_eq (h : pos + needle.length ≤ haystack.length) :
    matchesAt haystack needle pos = some (occurrence haystack needle pos).isSome := by
  unfold matchesAt occurrence
  rw [if_pos ⟨Int.natCast_nonneg _, by exact_mod_cast h⟩, Int.toNat_natCast]
  by_cases hp : needle <+: haystack.drop pos
  · rw [if_pos hp, List.isPrefixOf_iff_prefix.mpr hp]
    rfl
  · rw [if_neg hp, Bool.eq_false_iff.mpr fun hc => hp (List.isPrefixOf_iff_prefix.mp hc)]
    rfl

theorem span_eq {a b : ℕ} (hab : a ≤ b) (hb : b ≤ haystack.length) : span haystack a (b - a) = some (slice haystack (a, b)) := by
  unfold span slice
  rw [if_pos ⟨by omega, by omega, by omega⟩, Int.toNat_natCast, show ((b : ℤ) - a).toNat = b - a by omega]

theorem occurrence_none (h : haystack.length < pos + needle.length) (hpos : pos ≤ haystack.length) :
    occurrence haystack needle pos = none := by
  unfold occurrence
  rw [if_neg]
  intro hp
  have hlen := hp.length_le
  rw [List.length_drop] at hlen
  omega

theorem scan_short (h : haystack.length < pos + needle.length) : occurrences haystack needle pos = [] := by
  unfold occurrences
  fun_induction scan haystack.length (occurrence haystack needle) pos with
  | case1 pos hle hfind ih => exact ih (by omega)
  | case2 pos hle e hfind ih =>
    rw [occurrence_none h hle] at hfind
    cases hfind
  | case3 pos hgt => rfl

theorem occurrence_some {e : ℕ} (h : occurrence haystack needle pos = some e) (hpos : pos ≤ haystack.length) :
    needle <+: haystack.drop pos ∧ e = pos + needle.length ∧ e ≤ haystack.length := by
  unfold occurrence at h
  by_cases hp : needle <+: haystack.drop pos
  · rw [if_pos hp] at h
    have hlen := hp.length_le
    rw [List.length_drop] at hlen
    obtain rfl := Option.some.inj h
    exact ⟨hp, rfl, by omega⟩
  · rw [if_neg hp] at h
    cases h

/-- What the loop ends with, given the occurrences that are left -/
def collected (haystack : List UInt8) (start : ℕ) (s : Splitting) (spans : List Span) : Splitting where
  spanStart := (lastEnd start spans : ℕ)
  numMatches := s.numMatches + spans.length
  table := s.table ++ numbered s.numMatches (cuts haystack start spans)

theorem collected_nil (s : Splitting) (hs : s.spanStart = start) : collected haystack start s [] = s := by
  obtain ⟨spanStart, numMatches, table⟩ := s
  obtain rfl : spanStart = start := hs
  unfold collected
  rw [show cuts haystack start [] = [] from rfl, show numbered numMatches [] = [] from rfl, List.append_nil]
  rfl

theorem collected_cons (s : Splitting) (sp : Span) (rest : List Span) :
    collected haystack start s (sp :: rest) =
      collected haystack sp.2 { s.push (slice haystack (start, sp.1)) with spanStart := sp.2 } rest := by
  unfold collected Splitting.push
  rw [List.length_cons, ← Nat.add_assoc, Nat.add_right_comm, List.append_assoc]
  rfl

/-- **The loop collects the texts between the occurrences.** -/
theorem splitLoop_spec (hstart : start ≤ pos) (s : Splitting) (hs : s.spanStart = start) :
    splitLoop haystack needle pos s = some (collected haystack start s (occurrences haystack needle pos)) := by
  unfold occurrences
  fun_induction scan haystack.length (occurrence haystack needle) pos generalizing start s with
  | case1 pos hle hfind ih =>
    unfold splitLoop
    by_cases hroom : pos + needle.length ≤ haystack.length
    · rw [if_pos (by omega), matchesAt_eq hroom, hfind]
      exact ih (by omega) s hs
    · rw [if_neg (by omega), show scan _ _ _ = [] from scan_short (by omega), collected_nil s hs]
  | case2 pos hle e hfind ih =>
    obtain ⟨-, rfl, hend⟩ := occurrence_some hfind hle
    have hnext : (if 0 < needle.length then (pos : ℤ) + (needle.length - 1 : ℕ) else pos) + 1 =
        ((if pos < pos + needle.length then pos + needle.length else pos + 1 : ℕ) : ℤ) := by
      split <;> split <;> omega
    unfold splitLoop
    rw [if_pos (by omega), matchesAt_eq hend, hfind, hs, span_eq hstart hle, collected_cons]
    dsimp only [Option.isSome_some]
    rw [hnext]
    exact ih (by split <;> omega) _ (Nat.cast_add pos needle.length).symm
  | case3 pos hgt =>
    unfold splitLoop
    rw [if_neg (by omega), collected_nil s hs]

end Loop

/-! ### What is returned -/

section Result

variable {haystack needle : List UInt8}

/-- Occurrences that do not overlap, and none that starts before the next of them and behind the last -/
structure Leftmost (haystack needle : List UInt8) (spans : List Span) : Prop where
  occur : ∀ sp ∈ spans, needle <+: haystack.drop sp.1 ∧ sp.2 = sp.1 + needle.length
  sorted : spans.Pairwise Before
  covers : ∀ q, q ≤ haystack.length → needle <+: haystack.drop q → ∃ sp ∈ spans, sp.1 ≤ q ∧ q < sp.2

theorem occurrence_bounded : Bounded haystack.length (occurrence haystack needle) := by
  intro s e hs h
  obtain ⟨-, rfl, hend⟩ := occurrence_some h hs
  exact ⟨Nat.le_add_right _ _, hend⟩

theorem occurrence_proper (hne : needle ≠ []) (s e : ℕ) (h : occurrence haystack needle s = some e) : s < e := by
  have hpos := List.length_pos_iff.mpr hne
  unfold occurrence at h
  split at h
  · obtain rfl := Option.some.inj h
    omega
  · cases h

theorem occurrences_leftmost (hne : needle ≠ []) : Leftmost haystack needle (occurrences haystack needle 0) where
  occur sp hsp := by
    obtain ⟨-, hle, hfind⟩ := mem_scan hsp
    obtain ⟨hinitial, hend, -⟩ := occurrence_some hfind hle
    exact ⟨hinitial, hend⟩
  sorted := scan_sorted occurrence_bounded 0
  covers q hq hinitial := by
    refine scan_covers (occurrence_proper hne) (Nat.zero_le q) hq ?_
    unfold occurrence
    rw [if_pos hinitial]
    rfl

theorem slice_occurrence {sp : Span} (hinitial : needle <+: haystack.drop sp.1) (hend : sp.2 = sp.1 + needle.length) :
    slice haystack sp = needle := by
  unfold slice
  rw [hend, Nat.add_sub_cancel_left]
  exact (List.prefix_iff_eq_take.mp hinitial).symm

/-- A piece with a needle in it would have an occurrence between two occurrences. -/
theorem no_needle (hne : needle ≠ []) {p : List UInt8} (hp : p ∈ pieces haystack 0 (occurrences haystack needle 0)) :
    ¬needle <:+: p := by
  obtain ⟨a, b, rfl, hb, hgap⟩ := scan_gap (occurrence_proper hne) le_rfl (fun q _ hlt => absurd hlt (Nat.not_lt_zero q)) hp
  rintro ⟨front, back, hjoin⟩
  have hlen := congrArg List.length hjoin
  unfold slice at hlen hjoin
  rw [List.length_append, List.length_append, List.length_take, List.length_drop] at hlen
  have hpos := List.length_pos_iff.mpr hne
  have hnone := hgap (a + front.length) (by omega) (by omega)
  have hinitial : needle <+: haystack.drop (a + front.length) := by
    have htake : needle <+: ((haystack.drop a).take (b - a)).drop front.length := by
      rw [← hjoin, List.append_assoc, List.drop_left]
      exact List.prefix_append _ _
    rw [List.drop_take, List.drop_drop] at htake
    exact htake.trans (List.take_prefix _ _)
  unfold occurrence at hnone
  rw [if_pos hinitial] at hnone
  cases hnone

theorem occurrence_empty (pos : ℕ) : occurrence haystack [] pos = some pos := by
  unfold occurrence
  rw [if_pos (List.nil_prefix)]
  rfl

/-- With the empty needle each byte is cut off. -/
theorem cuts_bytes {pos : ℕ} : cuts haystack pos (occurrences haystack [] (pos + 1)) = (haystack.drop pos).map fun c => [c] := by
  obtain ⟨n, hn⟩ : ∃ n, n = haystack.length - pos := ⟨_, rfl⟩
  unfold occurrences
  induction n generalizing pos with
  | zero =>
    rw [scan_end (by omega), List.drop_of_length_le (by omega)]
    rfl
  | succ n ih =>
    have hlt : pos < haystack.length := by omega
    have hbyte : slice haystack (pos, pos + 1) = [haystack.get ⟨pos, hlt⟩] := by
      unfold slice
      rw [List.drop_eq_getElem_cons hlt, Nat.add_sub_cancel_left, List.take_succ_cons, List.take_zero]
      rfl
    rw [scan_some hlt (occurrence_empty (pos + 1)), if_neg (lt_irrefl _), cuts, ih (by omega), List.drop_eq_getElem_cons hlt,
      List.map_cons, hbyte]
    rfl

theorem numbered_snoc (l : List (List UInt8)) (x : List UInt8) (n : ℕ) :
    numbered n (l ++ [x]) = numbered n l ++ [(n + l.length + 1, x)] := by
  induction l generalizing n with
  | nil => rfl
  | cons y l ih =>
    have hnumber : n + 1 + l.length + 1 = n + (y :: l).length + 1 := by
      rw [List.length_cons]
      omega
    rw [List.cons_append, numbered, ih, hnumber]
    rfl

theorem lastEnd_le {spans : List Span} {start len : ℕ} (hstart : start ≤ len) (h : ∀ sp ∈ spans, sp.2 ≤ len) :
    lastEnd start spans ≤ len := by
  induction spans generalizing start with
  | nil => exact hstart
  | cons sp rest ih => exact ih (h sp List.mem_cons_self) fun sp' hsp' => h sp' (List.mem_cons_of_mem _ hsp')

/-- A separator that is not empty: the last piece goes behind the loop's. -/
theorem split_run (arg2 : Option (List UInt8)) (hne : arg2.getD [','.toUInt8] ≠ []) :
    str_split haystack arg2 =
      some (numbered 0 (pieces haystack 0 (occurrences haystack (arg2.getD [','.toUInt8]) 0))) := by
  unfold str_split
  generalize arg2.getD [','.toUInt8] = needle at hne
  have hpos := List.length_pos_iff.mpr hne
  have hlast : lastEnd 0 (occurrences haystack needle 0) ≤ haystack.length := by
    refine lastEnd_le (Nat.zero_le _) fun sp hsp => ?_
    obtain ⟨-, hle, hfind⟩ := mem_scan hsp
    exact (occurrence_some hfind hle).2.2
  have hloop : splitLoop haystack needle (0 : ℕ) ⟨0, 0, []⟩ =
      some (collected haystack 0 ⟨0, 0, []⟩ (occurrences haystack needle 0)) := splitLoop_spec le_rfl _ rfl
  have hspan := span_eq hlast le_rfl
  unfold slice at hspan
  rw [List.take_of_length_le (by rw [List.length_drop])] at hspan
  dsimp only
  rw [if_neg (by omega)]
  show (splitLoop haystack needle (0 : ℕ) _ >>= _) = _
  rw [hloop]
  show (if 0 < needle.length then _ else _) = _
  rw [if_pos hpos]
  show (span haystack (lastEnd 0 (occurrences haystack needle 0) : ℕ) _ >>= _) = _
  rw [show ((collected haystack 0 ⟨0, 0, []⟩ (occurrences haystack needle 0)).spanStart) = (lastEnd 0 (occurrences haystack needle 0) : ℕ)
    from rfl, hspan]
  unfold pieces
  rw [numbered_snoc, length_cuts]
  rfl

theorem split_run_empty (arg2 : Option (List UInt8)) (hempty : arg2.getD [','.toUInt8] = []) :
    str_split haystack arg2 = some (numbered 0 (haystack.map fun c => [c])) := by
  unfold str_split
  rw [hempty]
  have hloop : splitLoop haystack [] (1 : ℕ) ⟨0, 0, []⟩ =
      some (collected haystack 0 ⟨0, 0, []⟩ (occurrences haystack [] 1)) := splitLoop_spec (Nat.zero_le 1) _ rfl
  show (splitLoop haystack [] (1 : ℕ) _ >>= _) = _
  rw [hloop]
  unfold collected
  rw [cuts_bytes]
  rfl

end Result

end Luwu.Pattern
