import Mathlib.Tactic

/-!
# Scans of a text

A search tells, for a position, where the match that starts there ends.  The scan collects the matches from left to right: after
a match it goes on behind it, after an empty one and where there is none a position further.  `splice` puts a text in the place
of each match.
-/

namespace Luwu.Scan

/-- A start and an end -/
abbrev Span := ℕ × ℕ

section Scan

variable (len : ℕ) (find : ℕ → Option ℕ)

def scan (pos : ℕ) : List Span :=
  if pos ≤ len then
    match find pos with
    | none => scan (pos + 1)
    | some e => (pos, e) :: scan (if pos < e then e else pos + 1)
  else []
termination_by len + 1 - pos
decreasing_by
  · omega
  · split <;> omega

/-- A match ends in the text, and not before it starts. -/
def Bounded : Prop := ∀ s e, s ≤ len → find s = some e → s ≤ e ∧ e ≤ len

variable {len find} {pos e : ℕ}

theorem scan_end (h : len < pos) : scan len find pos = [] := by
  unfold scan
  rw [if_neg (by omega)]

theorem scan_none (h : find pos = none) : scan len find pos = scan len find (pos + 1) := by
  by_cases hle : pos ≤ len
  · conv_lhs => unfold scan
    rw [if_pos hle, h]
  · rw [scan_end (by omega), scan_end (by omega)]

theorem scan_some (hle : pos ≤ len) (h : find pos = some e) :
    scan len find pos = (pos, e) :: scan len find (if pos < e then e else pos + 1) := by
  conv_lhs => unfold scan
  rw [if_pos hle, h]

/-- What the scan visits are matches. -/
theorem mem_scan {sp : Span} (h : sp ∈ scan len find pos) : pos ≤ sp.1 ∧ sp.1 ≤ len ∧ find sp.1 = some sp.2 := by
  fun_induction scan len find pos with
  | case1 pos hle hfind ih =>
    obtain ⟨hpos, hrest⟩ := ih h
    exact ⟨by omega, hrest⟩
  | case2 pos hle e hfind ih =>
    rcases List.mem_cons.mp h with rfl | hmem
    · exact ⟨le_rfl, hle, hfind⟩
    · obtain ⟨hpos, hrest⟩ := ih hmem
      refine ⟨?_, hrest⟩
      split at hpos <;> omega
  | case3 pos hgt => exact absurd h List.not_mem_nil

/-- One before the other: the first ends where the second starts, or before. -/
def Before (a b : Span) : Prop := a.1 < b.1 ∧ a.2 ≤ b.1

/-- **The matches are disjoint and in order**, and no two start at one position. -/
theorem scan_sorted (hb : Bounded len find) (pos : ℕ) : (scan len find pos).Pairwise Before := by
  fun_induction scan len find pos with
  | case1 pos hle hfind ih => exact ih
  | case2 pos hle e hfind ih =>
    refine List.pairwise_cons.mpr ⟨?_, ih⟩
    intro sp hsp
    obtain ⟨hpos, -⟩ := mem_scan hsp
    obtain ⟨hle', -⟩ := hb pos e hle hfind
    unfold Before
    split at hpos
    · exact ⟨by omega, hpos⟩
    · exact ⟨by omega, by omega⟩
  | case3 pos hgt => exact List.Pairwise.nil

/-- **The scan goes past no match**: one that is not visited starts inside one that is. -/
theorem scan_covers (hproper : ∀ s e, find s = some e → s < e) {q : ℕ} (hpos : pos ≤ q) (hq : q ≤ len) (hmatch : (find q).isSome) :
    ∃ sp ∈ scan len find pos, sp.1 ≤ q ∧ q < sp.2 := by
  fun_induction scan len find pos with
  | case1 pos hle hfind ih =>
    refine ih (lt_of_le_of_ne hpos ?_)
    rintro rfl
    rw [hfind] at hmatch
    cases hmatch
  | case2 pos hle e hfind ih =>
    by_cases hin : q < e
    · exact ⟨(pos, e), List.mem_cons_self, hpos, hin⟩
    · have he := hproper pos e hfind
      rw [if_pos he]
      simp only [he, dite_true] at ih
      obtain ⟨sp, hsp, hrest⟩ := ih (by omega)
      exact ⟨sp, List.mem_cons_of_mem _ hsp, hrest⟩
  | case3 pos hgt => omega

/-- There is a match for each position at most. -/
theorem length_scan (pos : ℕ) : (scan len find pos).length ≤ len + 1 - pos := by
  fun_induction scan len find pos with
  | case1 pos hle hfind ih => omega
  | case2 pos hle e hfind ih =>
    have hnext : pos < if pos < e then e else pos + 1 := by split <;> omega
    rw [dite_eq_ite] at ih
    rw [List.length_cons]
    omega
  | case3 pos hgt => exact Nat.zero_le _

end Scan

/-! ### Putting texts in the place of the matches -/

section Splice

variable {α : Type*} (text : List α)

def slice (sp : Span) : List α := (text.drop sp.1).take (sp.2 - sp.1)

/-- The text from a position on, with each match replaced -/
def splice (pos : ℕ) : List (Span × List α) → List α
  | [] => text.drop pos
  | (sp, t) :: rest => slice text (pos, sp.1) ++ t ++ splice sp.2 rest

variable {text} {pos : ℕ}

/-- Where nothing is replaced at a position, its element stays. -/
theorem splice_step {l : List (Span × List α)} (hlt : pos < text.length) (hl : ∀ x ∈ l, pos < x.1.1) :
    splice text pos l = text.get ⟨pos, hlt⟩ :: splice text (pos + 1) l := by
  cases l with
  | nil => exact List.drop_eq_getElem_cons hlt
  | cons x rest =>
    have hstart := hl x List.mem_cons_self
    obtain ⟨k, hk⟩ : ∃ k, x.1.1 = pos + 1 + k := ⟨x.1.1 - (pos + 1), by omega⟩
    unfold splice slice
    dsimp only
    rw [hk, show pos + 1 + k - pos = k + 1 by omega, show pos + 1 + k - (pos + 1) = k by omega,
      List.drop_eq_getElem_cons hlt, List.take_succ_cons]
    rfl

/-- Where each match is replaced by itself, the text stays. -/
theorem splice_self {l : List Span} (hsorted : l.Pairwise Before) (hin : ∀ sp ∈ l, pos ≤ sp.1 ∧ sp.1 ≤ sp.2) :
    splice text pos (l.map fun sp => (sp, slice text sp)) = text.drop pos := by
  induction l generalizing pos with
  | nil => rfl
  | cons sp l ih =>
    obtain ⟨hbefore, hrest⟩ := List.pairwise_cons.mp hsorted
    obtain ⟨hpos, hle⟩ := hin sp List.mem_cons_self
    have hnext : splice text sp.2 (l.map fun sp => (sp, slice text sp)) = text.drop sp.2 :=
      ih hrest (fun sp' h => ⟨(hbefore sp' h).2, (hin sp' (List.mem_cons_of_mem _ h)).2⟩)
    have hjoin : ∀ a b : ℕ, a ≤ b → slice text (a, b) ++ text.drop b = text.drop a := by
      intro a b hab
      unfold slice
      conv_rhs => rw [← List.take_append_drop (b - a) (text.drop a)]
      rw [List.drop_drop, Nat.add_sub_cancel' hab]
    rw [List.map_cons]
    show slice text (pos, sp.1) ++ slice text (sp.1, sp.2) ++ splice text sp.2 _ = _
    rw [hnext, List.append_assoc, hjoin sp.1 sp.2 hle, hjoin pos sp.1 hpos]

end Splice

/-! ### Cutting a text at the matches -/

section Cuts

variable {α : Type*} (text : List α)

/-- The texts between the matches, from a position on -/
def cuts (start : ℕ) : List Span → List (List α)
  | [] => []
  | sp :: rest => slice text (start, sp.1) :: cuts sp.2 rest

/-- Where the last match ends -/
def lastEnd (start : ℕ) : List Span → ℕ
  | [] => start
  | sp :: rest => lastEnd sp.2 rest

def pieces (start : ℕ) (spans : List Span) : List (List α) := cuts text start spans ++ [text.drop (lastEnd start spans)]

variable {text} {start : ℕ}

theorem length_cuts (spans : List Span) : (cuts text start spans).length = spans.length := by
  induction spans generalizing start with
  | nil => rfl
  | cons sp rest ih => exact congrArg (· + 1) ih

theorem length_pieces (spans : List Span) : (pieces text start spans).length = spans.length + 1 := by
  unfold pieces
  rw [List.length_append, List.length_singleton, length_cuts]

theorem pieces_cons (sp : Span) (rest : List Span) :
    pieces text start (sp :: rest) = slice text (start, sp.1) :: pieces text sp.2 rest := rfl

theorem slice_join {a b : ℕ} (hab : a ≤ b) : slice text (a, b) ++ text.drop b = text.drop a := by
  unfold slice
  conv_rhs => rw [← List.take_append_drop (b - a) (text.drop a)]
  rw [List.drop_drop, Nat.add_sub_cancel' hab]

/-- **Joined with what was matched, the pieces are the text.** -/
theorem join_pieces {sep : List α} {spans : List Span} (hsorted : spans.Pairwise Before)
    (hin : ∀ sp ∈ spans, start ≤ sp.1 ∧ sp.1 ≤ sp.2) (hsep : ∀ sp ∈ spans, slice text sp = sep) :
    sep.intercalate (pieces text start spans) = text.drop start := by
  induction spans generalizing start with
  | nil => exact List.intercalate_singleton
  | cons sp rest ih =>
    obtain ⟨hbefore, hrest⟩ := List.pairwise_cons.mp hsorted
    obtain ⟨hstart, hle⟩ := hin sp List.mem_cons_self
    have hnext : sep.intercalate (pieces text sp.2 rest) = text.drop sp.2 :=
      ih hrest (fun sp' h => ⟨(hbefore sp' h).2, (hin sp' (List.mem_cons_of_mem _ h)).2⟩)
        (fun sp' h => hsep sp' (List.mem_cons_of_mem _ h))
    have hcons : sep.intercalate (slice text (start, sp.1) :: pieces text sp.2 rest) =
        slice text (start, sp.1) ++ sep ++ sep.intercalate (pieces text sp.2 rest) := by
      cases hp : pieces text sp.2 rest with
      | nil => exact absurd (congrArg List.length hp) (by rw [length_pieces]; exact Nat.succ_ne_zero _)
      | cons x l => exact List.intercalate_cons_cons
    rw [pieces_cons, hcons, hnext, ← hsep sp List.mem_cons_self, List.append_assoc]
    exact (congrArg _ (slice_join hle)).trans (slice_join hstart)

/-- **Between the matches of a scan there is no match**, if none is empty. -/
theorem scan_gap {find : ℕ → Option ℕ} (hproper : ∀ s e, find s = some e → s < e) {pos : ℕ} (hpos : start ≤ pos)
    (hnone : ∀ q, start ≤ q → q < pos → find q = none) {p : List α} (hp : p ∈ pieces text start (scan text.length find pos)) :
    ∃ a b, p = slice text (a, b) ∧ b ≤ text.length ∧ ∀ q, a ≤ q → q < b → find q = none := by
  fun_induction scan text.length find pos generalizing start with
  | case1 pos hle hfind ih =>
    refine ih (by omega) (fun q hq hlt => ?_) hp
    by_cases heq : q = pos
    · rw [heq, hfind]
    · exact hnone q hq (by omega)
  | case2 pos hle e hfind ih =>
    have he := hproper pos e hfind
    rw [pieces_cons] at hp
    rcases List.mem_cons.mp hp with rfl | hmem
    · exact ⟨start, pos, rfl, hle, hnone⟩
    · rw [if_pos he] at hmem
      simp only [he, dite_true] at ih
      exact ih le_rfl (fun q hq hlt => by omega) hmem
  | case3 pos hgt =>
    refine ⟨start, text.length, ?_, le_rfl, fun q hq hlt => hnone q hq (by omega)⟩
    obtain rfl := List.mem_singleton.mp hp
    unfold slice lastEnd
    exact (List.take_of_length_le (by rw [List.length_drop])).symm

end Cuts

end Luwu.Scan
