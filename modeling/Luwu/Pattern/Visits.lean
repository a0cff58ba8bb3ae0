import Luwu.Pattern.Replace

/-!
# The matches that `gsub` and `gmatch` visit

Both loops visit the matches of the scan of the subject (`gsubLoop_spec`, `gmatchLoop_spec`); the search at a position is the
first way in which the items of the pattern match there.
-/

namespace Luwu.Pattern

open Scan

variable {src pat : List UInt8}

/-! ### Ends of matches -/

section Ways

theorem counts_le {n i : ℕ} {r : Repeat} (h : i ∈ r.counts n) : i ≤ n := by
  cases r <;> simp only [Repeat.counts, List.mem_reverse, List.mem_range, List.mem_map] at h
  · split at h
    · exact absurd h List.not_mem_nil
    · rw [List.mem_singleton.mp h]
      omega
  · split at h
    · rw [List.mem_singleton.mp h]
      omega
    · rcases List.mem_cons.mp h with rfl | h'
      · omega
      · rw [List.mem_singleton.mp h']
        omega
  · omega
  · obtain ⟨k, hk, rfl⟩ := h
    omega
  · omega

/-- A match ends in the subject, not before it starts, and its captures lie before its end. -/
theorem ways_bounds {items : List Item} {s e : ℕ} {caps caps' : Captures} (hs : s ≤ src.length) (hok : CapturesOk caps s)
    (h : .ok (e, caps') ∈ ways src items s caps) : s ≤ e ∧ e ≤ src.length ∧ CapturesOk caps' e := by
  induction items generalizing s caps with
  | nil =>
    obtain ⟨rfl, rfl⟩ := Prod.mk.inj (Except.ok.inj (List.mem_singleton.mp h))
    exact ⟨le_rfl, hs, hok⟩
  | cons item rest ih =>
    cases item with
    | malformed msg => cases List.mem_singleton.mp h
    | openCapture =>
      unfold ways at h
      split at h
      · cases List.mem_singleton.mp h
      · exact ih hs (hok.open (Or.inl rfl)) h
    | openPosition =>
      unfold ways at h
      split at h
      · cases List.mem_singleton.mp h
      · exact ih hs (hok.open (Or.inr rfl)) h
    | close =>
      unfold ways at h
      cases hlast : lastOpen caps with
      | none =>
        rw [hlast] at h
        cases List.mem_singleton.mp h
      | some l =>
        rw [hlast] at h
        have hlt := lastOpen_lt hlast
        have hinit : (caps.getD l ⟨0, 0⟩).init ≤ s := by
          rw [List.getD_eq_getElem?_getD, List.getElem?_eq_getElem hlt]
          exact (hok _ (List.getElem_mem hlt)).1
        have hset : CapturesOk (caps.set l ⟨(caps.getD l ⟨0, 0⟩).init, s - (caps.getD l ⟨0, 0⟩).init⟩) s :=
          hok.set ⟨hinit, sub_nonneg.mpr (Nat.cast_le.mpr hinit), le_of_eq (add_sub_cancel _ _)⟩
        exact ih hs hset h
    | atEnd =>
      unfold ways at h
      split at h
      · exact ih hs hok h
      · exact absurd h List.not_mem_nil
    | balance b e' =>
      unfold ways at h
      cases hend : balanceEnd src b e' s with
      | none =>
        rw [hend] at h
        exact absurd h List.not_mem_nil
      | some t =>
        rw [hend] at h
        obtain ⟨hle, hin⟩ := balanceEnd_bounds hend
        obtain ⟨hlo, hrest⟩ := ih hin (hok.mono hle) h
        exact ⟨by omega, hrest⟩
    | frontier set =>
      change .ok (e, caps') ∈ (if (!set.mem (if s = 0 then 0 else byteAt src (s - 1)) && set.mem (byteAt src s)) = true then
        ways src rest s caps else []) at h
      by_cases hedge : (!set.mem (if s = 0 then 0 else byteAt src (s - 1)) && set.mem (byteAt src s)) = true
      · rw [if_pos hedge] at h
        exact ih hs hok h
      · rw [if_neg hedge] at h
        exact absurd h List.not_mem_nil
    | backref d =>
      unfold ways at h
      cases href : backref caps d with
      | error msg =>
        rw [href] at h
        cases List.mem_singleton.mp h
      | ok c =>
        rw [href] at h
        dsimp only at h
        by_cases htext : textAt src c s = true
        · rw [if_pos htext] at h
          unfold textAt at htext
          obtain ⟨-, hin, -⟩ := of_decide_eq_true htext
          obtain ⟨hlo, hrest⟩ := ih hin (hok.mono (Nat.le_add_right _ _)) h
          exact ⟨by omega, hrest⟩
        · rw [if_neg htext] at h
          exact absurd h List.not_mem_nil
    | single x r =>
      unfold ways at h
      obtain ⟨i, hi, hmem⟩ := List.mem_flatMap.mp h
      have hrun := runLength_le x hs
      have hcount := counts_le hi
      obtain ⟨hlo, hrest⟩ := ih (by omega) (hok.mono (Nat.le_add_right _ _)) hmem
      exact ⟨by omega, hrest⟩

/-- The first way in which the pattern matches at a position, where that is a match -/
def firstWay (src pat : List UInt8) (p s : ℕ) : Option (ℕ × Captures) :=
  match ways src (parse pat p) s [] with
  | .ok r :: _ => some r
  | _ => none

def matchEnd (src pat : List UInt8) (p s : ℕ) : Option ℕ := (firstWay src pat p s).map Prod.fst

theorem firstWay_bounds {p s e : ℕ} {caps : Captures} (hs : s ≤ src.length) (h : firstWay src pat p s = some (e, caps)) :
    s ≤ e ∧ e ≤ src.length ∧ CapturesOk caps e := by
  unfold firstWay at h
  match hways : ways src (parse pat p) s [], h with
  | .ok r :: l, h =>
    obtain rfl := Option.some.inj h
    exact ways_bounds hs (fun c hc => absurd hc List.not_mem_nil) (hways ▸ List.mem_cons_self)

theorem matchEnd_bounded (p : ℕ) : Bounded src.length (matchEnd src pat p) := by
  intro s e hs h
  obtain ⟨⟨e', caps⟩, hway, rfl⟩ := Option.map_eq_some_iff.mp h
  obtain ⟨hlo, hhi, -⟩ := firstWay_bounds hs hway
  exact ⟨hlo, hhi⟩

end Ways

/-! ### A call of the matcher -/

section Call

variable {p s : ℕ}

/-- The matcher fails at a position. -/
def Raises (src pat : List UInt8) (p s : ℕ) : Prop :=
  ∃ ms e, ms.matchdepth = LUAI_MAXCCALLS ∧ ms.level = 0 ∧ matchFrom src pat ms s p = .error e

/-- What a call of the matcher in one of the loops does -/
inductive Called (src pat : List UInt8) (p s : ℕ) : Result → Prop
  | raises (msg : String) (h : Raises src pat p s) : Called src pat p s (.error (.error msg))
  | fails (ms : MatchState) (hdepth : ms.matchdepth = LUAI_MAXCCALLS) (h : firstWay src pat p s = none) :
    Called src pat p s (.ok (none, ms))
  | matched (e : ℕ) (ms : MatchState) (hdepth : ms.matchdepth = LUAI_MAXCCALLS)
    (h : firstWay src pat p s = some (e, ms.caps)) : Called src pat p s (.ok (some e, ms))

theorem caps_reprepstate (ms : MatchState) : (reprepstate ms).caps = [] := rfl

theorem matchFrom_called (hsize : src.length ≤ MAXSSIZE) (hp : p ≤ pat.length) (hs : s ≤ src.length) {ms : MatchState}
    (hdepth : ms.matchdepth = LUAI_MAXCCALLS) : Called src pat p s (matchFrom src pat (reprepstate ms) s p) := by
  have hok : CapturesOk (reprepstate ms).caps s := fun c hc => absurd hc List.not_mem_nil
  have hagrees := matchFrom_refines hsize hp (reprepstate ms) s hs hok
  have hraises : ∀ e, matchFrom src pat (reprepstate ms) s p = .error e → Raises src pat p s :=
    fun e he => ⟨reprepstate ms, e, hdepth, rfl, he⟩
  rw [caps_reprepstate] at hagrees
  rcases hagrees with hdeep | hmatch
  · have h := hraises _ hdeep
    rw [hdeep]
    exact .raises _ h
  · match hways : ways src (parse pat p) s [], hmatch with
    | [], hmatch =>
      obtain ⟨ms', hrun, -, hd⟩ := hmatch
      rw [hrun]
      refine .fails ms' (hd.trans hdepth) ?_
      unfold firstWay
      rw [hways]
    | .ok (e, caps) :: l, hmatch =>
      obtain ⟨ms', hrun, rfl, hd⟩ := hmatch
      rw [hrun]
      refine .matched e ms' (hd.trans hdepth) ?_
      unfold firstWay
      rw [hways]
    | .error msg :: l, hmatch =>
      have h := hraises _ hmatch
      rw [hmatch]
      exact .raises msg h

end Call

/-! ### `gsub` -/

section Gsub

variable {N W : Type} {num : Numbers N} {repl : Replacement N W}

/-- A match that was replaced: the captures, the worlds before and after, and the text in its place -/
structure Visit (W : Type) where
  ms : MatchState
  span : Span
  before : W
  text : List UInt8
  after : W

/-- The matches are those of the pattern, and each is replaced in the world that the one before it left. -/
inductive Visited (num : Numbers N) (src pat : List UInt8) (repl : Replacement N W) (p : ℕ) : W → List (Visit W) → W → Prop
  | nil (w : W) : Visited num src pat repl p w [] w
  | cons {v : Visit W} {vs : List (Visit W)} {w w' : W} (hbefore : v.before = w)
    (hway : firstWay src pat p v.span.1 = some (v.span.2, v.ms.caps))
    (hadd : add_value num src repl v.ms v.span.1 v.span.2 v.before = .ok (v.text, v.after))
    (hrest : Visited num src pat repl p v.after vs w') : Visited num src pat repl p w (v :: vs) w'

/-- The matcher fails, or the replacement of a match does. -/
def Fails (num : Numbers N) (src pat : List UInt8) (repl : Replacement N W) (p : ℕ) (x : MatchStop) : Prop :=
  (∃ s ≤ src.length, Raises src pat p s) ∨
  ∃ ms s e w, firstWay src pat p s = some (e, ms.caps) ∧ add_value num src repl ms s e w = .error x

/-- An anchored pattern is tried at the start only. -/
def tried (src pat : List UInt8) (anchor : Bool) (p s : ℕ) : Option ℕ :=
  if anchor = true ∧ s ≠ 0 then none else matchEnd src pat p s

/-- The matches that are left from a position on, when so many may still be replaced -/
def left (src pat : List UInt8) (anchor : Bool) (p s : ℕ) (count : ℤ) : List Span :=
  (scan src.length (tried src pat anchor p) s).take count.toNat

def Visit.part (v : Visit W) : Span × List UInt8 := (v.span, v.text)

/-- What the loop of `str_gsub` does from a position on -/
def Meets (num : Numbers N) (src pat : List UInt8) (repl : Replacement N W) (anchor : Bool) (p : ℕ) (max_s : ℤ) (s : ℕ) (n : ℤ)
    (b : List UInt8) (w : W) (r : Except MatchStop (List UInt8 × ℕ × ℤ × W)) : Prop :=
  (∃ vs b' s' w', r = .ok (b', s', n + vs.length, w') ∧ Visited num src pat repl p w vs w' ∧
    vs.map Visit.span = left src pat anchor p s (max_s - n) ∧
    b' ++ src.drop s' = b ++ splice src s (vs.map Visit.part)) ∨
  ∃ x, r = .error x ∧ Fails num src pat repl p x

variable {anchor : Bool} {p s e : ℕ} {max_s n : ℤ} {b t : List UInt8} {w w' : W}
  {r : Except MatchStop (List UInt8 × ℕ × ℤ × W)} {ms : MatchState}

theorem tried_bounded : Bounded src.length (tried src pat anchor p) := by
  intro s e hs h
  unfold tried at h
  split at h
  · cases h
  · exact matchEnd_bounded p s e hs h

theorem tried_here (hanchor : anchor = true → s = 0) : tried src pat anchor p s = matchEnd src pat p s :=
  if_neg (fun h => h.2 (hanchor h.1))

theorem left_starts {count : ℤ} : ∀ sp ∈ left src pat anchor p s count, s ≤ sp.1 :=
  fun _ h => (mem_scan (List.mem_of_mem_take h)).1

/-- Nothing is left. -/
theorem meets_stop (h : left src pat anchor p s (max_s - n) = []) :
    Meets num src pat repl anchor p max_s s n b w (.ok (b, s, n, w)) :=
  Or.inl ⟨[], b, s, w, by simp, .nil w, h.symm, rfl⟩

theorem left_anchored {count : ℤ} (hanchor : anchor = true) (hs : s ≠ 0) : left src pat anchor p s count = [] := by
  have hnone : scan src.length (tried src pat anchor p) s = [] := by
    apply List.eq_nil_iff_forall_not_mem.mpr
    intro sp hsp
    obtain ⟨hle, -, hfind⟩ := mem_scan hsp
    unfold tried at hfind
    rw [if_pos ⟨hanchor, by omega⟩] at hfind
    cases hfind
  unfold left
  rw [hnone, List.take_nil]

theorem left_end {count : ℤ} (hs : src.length < s) : left src pat anchor p s count = [] := by
  unfold left
  rw [scan_end hs, List.take_nil]

/-- The element at a position is copied. -/
theorem splice_left {vs : List (Visit W)} {count : ℤ} (hlt : s < src.length)
    (hvs : vs.map Visit.span = left src pat anchor p (s + 1) count) :
    splice src s (vs.map Visit.part) = src.getD s 0 :: splice src (s + 1) (vs.map Visit.part) := by
  have hstarts : ∀ x ∈ vs.map Visit.part, s < x.1.1 := by
    intro x hx
    obtain ⟨v, hv, rfl⟩ := List.mem_map.mp hx
    have hmem : v.span ∈ left src pat anchor p (s + 1) count := by
      rw [← hvs]
      exact List.mem_map_of_mem hv
    exact left_starts _ hmem
  rw [splice_step hlt hstarts, List.getD_eq_getElem?_getD, List.getElem?_eq_getElem hlt]
  rfl

/-- A turn without a match -/
theorem meets_skip (hnone : tried src pat anchor p s = none) (hlt : s < src.length)
    (h : Meets num src pat repl anchor p max_s (s + 1) n (b ++ [src.getD s 0]) w r) :
    Meets num src pat repl anchor p max_s s n b w r := by
  have hleft : left src pat anchor p s (max_s - n) = left src pat anchor p (s + 1) (max_s - n) := by
    unfold left
    rw [scan_none hnone]
  obtain ⟨vs, b', s', w', hr, hvisited, hspans, htext⟩ | herror := h
  · refine Or.inl ⟨vs, b', s', w', hr, hvisited, hspans.trans hleft.symm, ?_⟩
    rw [htext, splice_left hlt hspans, List.append_assoc]
    rfl
  · exact Or.inr herror

/-- A turn with a match: the loop goes on behind it. -/
theorem meets_visit (hmax : n < max_s) (hs : s ≤ src.length) (hway : firstWay src pat p s = some (e, ms.caps))
    (hfind : tried src pat anchor p s = some e) (hadd : add_value num src repl ms s e w = .ok (t, w')) {next : ℕ}
    {copied : List UInt8} (hnext : next = if s < e then e else s + 1)
    (hcopied : ∀ vs : List (Visit W), vs.map Visit.span = left src pat anchor p next (max_s - (n + 1)) →
      splice src e (vs.map Visit.part) = copied ++ splice src next (vs.map Visit.part))
    (h : Meets num src pat repl anchor p max_s next (n + 1) (b ++ t ++ copied) w' r) :
    Meets num src pat repl anchor p max_s s n b w r := by
  have hleft : left src pat anchor p s (max_s - n) = (s, e) :: left src pat anchor p next (max_s - (n + 1)) := by
    unfold left
    rw [scan_some hs hfind, ← hnext, show (max_s - n).toNat = (max_s - (n + 1)).toNat + 1 by omega, List.take_succ_cons]
  obtain ⟨vs, b', s', w'', rfl, hvisited, hspans, htext⟩ | herror := h
  · refine Or.inl ⟨⟨ms, (s, e), w, t, w'⟩ :: vs, b', s', w'', ?_, .cons rfl hway hadd hvisited, ?_, ?_⟩
    · rw [List.length_cons]
      push_cast
      rw [add_assoc, add_comm (1 : ℤ)]
    · rw [List.map_cons, hspans, hleft]
    · rw [htext, List.map_cons]
      show _ = b ++ (slice src (s, s) ++ t ++ splice src e (vs.map Visit.part))
      rw [hcopied vs hspans]
      unfold slice
      simp
  · exact Or.inr herror

/-- **The loop of `str_gsub`** -/
theorem gsubLoop_meets (hsize : src.length ≤ MAXSSIZE) (hp : p ≤ pat.length) {turns : ℕ} (hs : s ≤ src.length)
    (hturns : src.length < s + turns) (hdepth : ms.matchdepth = LUAI_MAXCCALLS) (hanchor : anchor = true → s = 0) :
    Meets num src pat repl anchor p max_s s n b w (gsubLoop num src pat repl anchor p max_s turns ms s n b w) := by
  induction turns generalizing ms s n b w with
  | zero => omega
  | succ turns ih =>
    -- an anchored loop stops after its turn
    have hgo : ∀ ms' next n b w, ms'.matchdepth = LUAI_MAXCCALLS → s < next → next ≤ src.length →
        Meets num src pat repl anchor p max_s next n b w (if anchor = true then .ok (b, next, n, w) else
          gsubLoop num src pat repl anchor p max_s turns ms' next n b w) := by
      intro ms' next n b w hdepth' hlt hle
      by_cases ha : anchor = true
      · rw [if_pos ha]
        exact meets_stop (left_anchored ha (by omega))
      · rw [if_neg ha]
        exact ih hle (by omega) hdepth' (fun h => absurd h ha)
    have hcalled := matchFrom_called hsize hp hs hdepth
    unfold gsubLoop
    by_cases hmax : n < max_s
    · rw [if_pos hmax]
      generalize matchFrom src pat (reprepstate ms) s p = result at hcalled
      cases hcalled with
      | raises msg h => exact Or.inr ⟨_, rfl, Or.inl ⟨s, hs, h⟩⟩
      | fails ms' hd h =>
        have hnone : tried src pat anchor p s = none := by
          rw [tried_here hanchor]
          unfold matchEnd
          rw [h]
          rfl
        show Meets num src pat repl anchor p max_s s n b w (if s < s then _ else _)
        rw [if_neg (lt_irrefl s)]
        by_cases hlt : s < src.length
        · rw [if_pos hlt, peek_eq hs]
          exact meets_skip hnone hlt (hgo ms' (s + 1) n _ w hd (Nat.lt_succ_self s) hlt)
        · rw [if_neg hlt]
          apply meets_stop
          unfold left
          rw [scan_none hnone]
          exact left_end (by omega)
      | matched e ms' hd h =>
        have hfind : tried src pat anchor p s = some e := by
          rw [tried_here hanchor]
          unfold matchEnd
          rw [h]
          rfl
        obtain ⟨hlo, hhi, -⟩ := firstWay_bounds hs h
        show Meets num src pat repl anchor p max_s s n b w (add_value num src repl ms' s e w >>= _)
        cases hadd : add_value num src repl ms' s e w with
        | error x => exact Or.inr ⟨x, rfl, Or.inr ⟨ms', s, e, w, h, hadd⟩⟩
        | ok tw =>
          obtain ⟨t, w'⟩ := tw
          show Meets num src pat repl anchor p max_s s n b w (if s < e then _ else _)
          by_cases hne : s < e
          · rw [if_pos hne]
            have hrest := hgo ms' e (n + 1) (b ++ t ++ []) w' hd hne hhi
            rw [List.append_nil] at hrest
            exact meets_visit hmax hs h hfind hadd (if_pos hne).symm (fun _ _ => (List.nil_append _).symm)
              ((List.append_nil (b ++ t)).symm ▸ hrest)
          · obtain rfl : e = s := by omega
            rw [if_neg hne]
            by_cases hlt : e < src.length
            · rw [if_pos hlt, peek_eq hs]
              exact meets_visit hmax hs h hfind hadd (if_neg hne).symm (fun vs hvs => splice_left hlt hvs)
                (hgo ms' (e + 1) (n + 1) _ w' hd (Nat.lt_succ_self e) hlt)
            · rw [if_neg hlt]
              have hend : left src pat anchor p (e + 1) (max_s - (n + 1)) = [] := left_end (by omega)
              have hnil : ∀ k, e ≤ k → src.drop k = [] := fun k hk => List.drop_eq_nil_of_le (by omega)
              have hcopied : ∀ vs : List (Visit W), vs.map Visit.span = left src pat anchor p (e + 1) (max_s - (n + 1)) →
                  splice src e (vs.map Visit.part) = [] ++ splice src (e + 1) (vs.map Visit.part) := by
                intro vs hvs
                obtain rfl : vs = [] := List.map_eq_nil_iff.mp (hvs.trans hend)
                exact (hnil e le_rfl).trans (hnil (e + 1) (Nat.le_succ e)).symm
              refine meets_visit hmax hs h hfind hadd (if_neg hne).symm hcopied ?_
              · refine Or.inl ⟨[], b ++ t, e, w', ?_, .nil w', hend.symm, ?_⟩
                · rw [List.length_nil, Nat.cast_zero, add_zero]
                  rfl
                · show _ = b ++ t ++ [] ++ src.drop (e + 1)
                  rw [hnil e le_rfl, hnil (e + 1) (Nat.le_succ e)]
                  simp
    · rw [if_neg hmax]
      apply meets_stop
      unfold left
      rw [show (max_s - n).toNat = 0 by omega, List.take_zero]

end Gsub

/-! ### Replacements that keep the match -/

section Keeps

variable {N W : Type} {num : Numbers N} {repl : Replacement N W} {s e p : ℕ} {ms : MatchState}

/-- The replacement of a visit is the whole match, or a value that is false. -/
def Visit.Keeps (num : Numbers N) (src : List UInt8) (repl : Replacement N W) (v : Visit W) : Prop :=
  match repl with
  | .string news => news = [L_ESC, '0'.toUInt8]
  | .function call => ∃ args x, push_captures num src v.ms v.span.1 v.span.2 = .ok args ∧
    call args v.before = .ok (x, v.after) ∧ (x.toboolean = false ∨ x = .string (slice src v.span))
  | .table gettable => ∃ key x, push_onecapture num src v.ms 0 v.span.1 v.span.2 = .ok key ∧
    gettable key v.before = .ok (x, v.after) ∧ (x.toboolean = false ∨ x = .string (slice src v.span))

theorem substring_match (hlo : s ≤ e) (hhi : e ≤ src.length) : substring src s (e - s) = .ok (slice src (s, e)) := by
  have hnat : ((e : ℤ) - s).toNat = e - s := by omega
  unfold substring
  rw [hnat, if_pos ⟨by omega, by omega⟩]
  rfl

theorem addAnswer_keeps {x : Value N} (hlo : s ≤ e) (hhi : e ≤ src.length)
    (hx : x.toboolean = false ∨ x = .string (slice src (s, e))) :
    addAnswer num src x s e = .ok (slice src (s, e)) := by
  unfold addAnswer
  rcases hx with hfalse | rfl
  · rw [hfalse]
    exact substring_match hlo hhi
  · rfl

/-- `%0` is the whole match. -/
theorem add_s_whole (hlo : s ≤ e) (hhi : e ≤ src.length) :
    add_s num src [L_ESC, '0'.toUInt8] ms s e = .ok (slice src (s, e)) := by
  have hend : addLoop num src [L_ESC, '0'.toUInt8] ms s e 2 = .ok [] := by
    unfold addLoop
    rfl
  unfold add_s addLoop
  show (substring src s (e - s) >>= fun t => addLoop num src [L_ESC, '0'.toUInt8] ms s e 2 >>= fun rest => .ok (t ++ rest)) = _
  rw [hend, substring_match hlo hhi]
  exact congrArg Except.ok (List.append_nil _)

theorem Visit.Keeps.text_eq {v : Visit W} (h : v.Keeps num src repl) (hlo : v.span.1 ≤ v.span.2)
    (hhi : v.span.2 ≤ src.length) (hadd : add_value num src repl v.ms v.span.1 v.span.2 v.before = .ok (v.text, v.after)) :
    v.text = slice src v.span := by
  cases repl with
  | string news =>
    obtain rfl : news = [L_ESC, '0'.toUInt8] := h
    unfold add_value at hadd
    dsimp only at hadd
    rw [add_s_whole hlo hhi] at hadd
    exact (Prod.mk.inj (Except.ok.inj hadd)).1.symm
  | function call =>
    obtain ⟨args, x, hargs, hcall, hx⟩ := h
    unfold add_value at hadd
    dsimp only at hadd
    rw [hargs, ok_bind, hcall, ok_bind] at hadd
    dsimp only at hadd
    rw [addAnswer_keeps hlo hhi hx] at hadd
    exact (Prod.mk.inj (Except.ok.inj hadd)).1.symm
  | table gettable =>
    obtain ⟨key, x, hkey, hget, hx⟩ := h
    unfold add_value at hadd
    dsimp only at hadd
    rw [hkey, ok_bind, hget, ok_bind] at hadd
    dsimp only at hadd
    rw [addAnswer_keeps hlo hhi hx] at hadd
    exact (Prod.mk.inj (Except.ok.inj hadd)).1.symm

/-- Where each replacement keeps its match, each match is replaced by itself. -/
theorem Visited.parts_eq {w w' : W} {vs : List (Visit W)} (h : Visited num src pat repl p w vs w')
    (hin : ∀ v ∈ vs, v.span.1 ≤ v.span.2 ∧ v.span.2 ≤ src.length) (hkeeps : ∀ v ∈ vs, v.Keeps num src repl) :
    vs.map Visit.part = (vs.map Visit.span).map fun sp => (sp, slice src sp) := by
  induction h with
  | nil w => rfl
  | @cons v vs w w' hbefore hway hadd hrest ih =>
    obtain ⟨hlo, hhi⟩ := hin v List.mem_cons_self
    have htext := (hkeeps v List.mem_cons_self).text_eq hlo hhi hadd
    have hpart : v.part = (v.span, slice src v.span) := by
      unfold Visit.part
      rw [htext]
    rw [List.map_cons, List.map_cons, List.map_cons, hpart,
      ih (fun v hv => hin v (List.mem_cons_of_mem _ hv)) (fun v hv => hkeeps v (List.mem_cons_of_mem _ hv))]

end Keeps

/-! ### `gmatch` -/

section Gmatch

variable {N : Type} {num : Numbers N} {s e p : ℕ} {ms : MatchState}

theorem push_onecapture_error {i : ℕ} {x : MatchStop} (hok : CapturesOk ms.caps e) (hlo : s ≤ e) (hhi : e ≤ src.length)
    (hi : i < ms.level ∨ i = 0) (h : push_onecapture num src ms i s e = .error x) : x = .error "unfinished capture" := by
  unfold push_onecapture at h
  by_cases hlevel : ms.level ≤ i
  · obtain rfl : i = 0 := by omega
    rw [if_pos hlevel, if_pos rfl, substring_match hlo hhi] at h
    cases h
  · rw [if_neg hlevel] at h
    dsimp only at h
    split_ifs at h with hopen hpos
    · exact (Except.error.inj h).symm
    · obtain ⟨-, hlen⟩ := hok _ (mem_caps ms (show i < ms.level by omega))
      obtain ⟨hnonneg, hin⟩ := (hlen.resolve_left hopen).resolve_left hpos
      have hsub : substring src (ms.capture i).init (ms.capture i).len = .ok _ := if_pos ⟨hnonneg, by omega⟩
      rw [hsub] at h
      cases h

theorem mapM_error {α β : Type} {f : α → Except MatchStop β} {l : List α} {x : MatchStop} (h : l.mapM f = .error x) :
    ∃ a ∈ l, f a = .error x := by
  induction l with
  | nil => cases h
  | cons a l ih =>
    rw [List.mapM_cons] at h
    cases ha : f a with
    | error y =>
      rw [ha] at h
      obtain rfl := Except.error.inj h
      exact ⟨a, List.mem_cons_self, ha⟩
    | ok b =>
      rw [ha, ok_bind] at h
      cases hl : l.mapM f with
      | error y =>
        rw [hl] at h
        obtain rfl := Except.error.inj h
        obtain ⟨a', hmem, ha'⟩ := ih hl
        exact ⟨a', List.mem_cons_of_mem _ hmem, ha'⟩
      | ok bs =>
        rw [hl] at h
        cases h

theorem push_captures_error {x : MatchStop} (hok : CapturesOk ms.caps e) (hlo : s ≤ e) (hhi : e ≤ src.length)
    (h : push_captures num src ms s e = .error x) : x = .error "unfinished capture" := by
  obtain ⟨i, hi, hx⟩ := mapM_error h
  refine push_onecapture_error hok hlo hhi ?_ hx
  rw [List.mem_range] at hi
  split at hi <;> omega

/-- The values that the iterator answers with for a match -/
def Answered (num : Numbers N) (src pat : List UInt8) (sp : Span) (values : List (Value N)) : Prop :=
  ∃ ms, firstWay src pat 0 sp.1 = some (sp.2, ms.caps) ∧ push_captures num src ms sp.1 sp.2 = .ok values

/-- The pattern raises an error, in the matcher or with a capture that is open at its end. -/
def PatternFails (src pat : List UInt8) (x : MatchStop) : Prop :=
  (∃ s ≤ src.length, Raises src pat 0 s) ∨ x = .error "unfinished capture"

/-- **A call of the iterator** finds the next match of the scan. -/
theorem gmatchLoop_spec (hsize : src.length ≤ MAXSSIZE) (hdepth : ms.matchdepth = LUAI_MAXCCALLS) :
    (∃ x, gmatchLoop num src pat ms s = .error x ∧ PatternFails src pat x) ∨
    (gmatchLoop num src pat ms s = .ok none ∧ scan src.length (matchEnd src pat 0) s = []) ∨
    ∃ sp values next, gmatchLoop num src pat ms s = .ok (some (values, next)) ∧ Answered num src pat sp values ∧
      scan src.length (matchEnd src pat 0) s = sp :: scan src.length (matchEnd src pat 0) next := by
  induction hn : src.length + 1 - s using Nat.strong_induction_on generalizing s ms with
  | _ n ih =>
    unfold gmatchLoop
    by_cases hs : s ≤ src.length
    · have hcalled := matchFrom_called hsize (Nat.zero_le pat.length) hs hdepth
      rw [if_pos hs]
      generalize matchFrom src pat (reprepstate ms) s 0 = result at hcalled
      cases hcalled with
      | raises msg h => exact Or.inl ⟨_, rfl, Or.inl ⟨s, hs, h⟩⟩
      | fails ms' hd h =>
        have hnone : matchEnd src pat 0 s = none := by
          unfold matchEnd
          rw [h]
          rfl
        rw [scan_none hnone]
        exact ih _ (by omega) hd rfl
      | matched e ms' hd h =>
        have hfind : matchEnd src pat 0 s = some e := by
          unfold matchEnd
          rw [h]
          rfl
        obtain ⟨hlo, hhi, hok⟩ := firstWay_bounds hs h
        rw [ok_bind]
        dsimp only
        cases hpush : push_captures num src ms' s e with
        | error x => exact Or.inl ⟨x, rfl, Or.inr (push_captures_error hok hlo hhi hpush)⟩
        | ok values =>
          have hnext : (if e = s then e + 1 else e) = if s < e then e else s + 1 := by
            by_cases heq : e = s
            · rw [if_pos heq, if_neg (by omega), heq]
            · rw [if_neg heq, if_pos (by omega)]
          refine Or.inr (Or.inr ⟨(s, e), values, _, rfl, ⟨ms', h, hpush⟩, ?_⟩)
          rw [hnext]
          exact scan_some hs hfind
    · rw [if_neg hs, scan_end (by omega)]
      exact Or.inr (Or.inl ⟨rfl, rfl⟩)

/-- The calls of the iterator go through the scan. -/
theorem gmatchCalls_spec (hsize : src.length ≤ MAXSSIZE) (calls : ℕ) :
    (∃ values, gmatchCalls num src pat calls s = .ok values ∧
      List.Forall₂ (Answered num src pat) ((scan src.length (matchEnd src pat 0) s).take calls) values) ∨
    ∃ x, gmatchCalls num src pat calls s = .error x ∧ PatternFails src pat x := by
  induction calls generalizing s with
  | zero => exact Or.inl ⟨[], rfl, by rw [List.take_zero]; exact .nil⟩
  | succ calls ih =>
    unfold gmatchCalls gmatch_aux
    rcases @gmatchLoop_spec src pat N num s prepstate hsize rfl with
      ⟨x, hrun, hx⟩ | ⟨hrun, hscan⟩ | ⟨sp, values, next, hrun, hanswered, hscan⟩
    · rw [hrun]
      exact Or.inr ⟨x, rfl, hx⟩
    · rw [hrun, hscan]
      exact Or.inl ⟨[], rfl, by rw [List.take_nil]; exact .nil⟩
    · rw [hrun, hscan, ok_bind]
      dsimp only
      rcases ih (s := next) with ⟨rest, hrest, hall⟩ | ⟨x, hrest, hx⟩
      · rw [hrest]
        refine Or.inl ⟨values :: rest, rfl, ?_⟩
        rw [List.take_succ_cons]
        exact .cons hanswered hall
      · rw [hrest]
        exact Or.inr ⟨x, rfl, hx⟩

end Gmatch

/-! ### The two together -/

section Library

variable {N W : Type}

def anchored (pat : List UInt8) : Bool := byteAt pat 0 = '^'.toUInt8

/-- Where the pattern begins behind an anchor -/
def patternStart (pat : List UInt8) : ℕ := if anchored pat then 1 else 0

theorem patternStart_le (pat : List UInt8) : patternStart pat ≤ pat.length := by
  unfold patternStart
  by_cases h : anchored pat = true
  · have hlt : 0 < pat.length := by
      apply lt_of_byteAt
      rw [of_decide_eq_true h]
      decide
    rw [if_pos h]
    exact hlt
  · rw [if_neg h]
    exact Nat.zero_le _

/-- What `gsub` promises: its text is the subject with each match replaced, and its count is that of the matches. -/
def GsubMeets (num : Numbers N) (src pat : List UInt8) (repl : Replacement N W) (max_s : Option ℤ) (w : W) : Prop :=
  (∃ vs w', str_gsub num src pat repl max_s w = .ok ((splice src 0 (vs.map Visit.part), vs.length), w') ∧
    Visited num src pat repl (patternStart pat) w vs w' ∧
    vs.map Visit.span = left src pat (anchored pat) (patternStart pat) 0 (max_s.getD (src.length + 1)) ∧
    (vs.map Visit.span).Pairwise Before ∧ vs.length ≤ src.length + 1 ∧
    ((∀ v ∈ vs, v.Keeps num src repl) → splice src 0 (vs.map Visit.part) = src)) ∨
  ∃ x, str_gsub num src pat repl max_s w = .error x ∧ Fails num src pat repl (patternStart pat) x

/-- What `gmatch` promises: its calls answer with the matches in order, and the scan is short. -/
def GmatchMeets (num : Numbers N) (src pat : List UInt8) : Prop :=
  (scan src.length (matchEnd src pat 0) 0).Pairwise Before ∧ (scan src.length (matchEnd src pat 0) 0).length ≤ src.length + 1 ∧
  ∀ calls, (∃ values, gmatch num src pat calls = .ok values ∧
      List.Forall₂ (Answered num src pat) ((scan src.length (matchEnd src pat 0) 0).take calls) values) ∨
    ∃ x, gmatch num src pat calls = .error x ∧ PatternFails src pat x

theorem gsubMeets (num : Numbers N) {src : List UInt8} (hsize : src.length ≤ MAXSSIZE) (pat : List UInt8)
    (repl : Replacement N W) (max_s : Option ℤ) (w : W) : GsubMeets num src pat repl max_s w := by
  have hloop : Meets num src pat repl (anchored pat) (patternStart pat) (max_s.getD (src.length + 1)) 0 0 [] w
      (gsubLoop num src pat repl (anchored pat) (patternStart pat) (max_s.getD (src.length + 1)) (src.length + 1) prepstate
        0 0 [] w) :=
    gsubLoop_meets hsize (patternStart_le pat) (Nat.zero_le _) (by omega) rfl (fun _ => rfl)
  have hrun : str_gsub num src pat repl max_s w =
      (gsubLoop num src pat repl (anchored pat) (patternStart pat) (max_s.getD (src.length + 1)) (src.length + 1) prepstate
        0 0 [] w >>= fun r => .ok ((r.1 ++ src.drop r.2.1, r.2.2.1), r.2.2.2)) := by
    unfold str_gsub
    rw [peek_eq (Nat.zero_le _)]
    rfl
  obtain ⟨vs, b, s, w', hok, hvisited, hspans, htext⟩ | ⟨x, herror, hfails⟩ := hloop
  · have hsorted : (vs.map Visit.span).Pairwise Before := by
      rw [hspans]
      exact (scan_sorted tried_bounded 0).sublist (List.take_sublist _ _)
    have hcount : vs.length ≤ src.length + 1 := by
      rw [← List.length_map Visit.span, hspans]
      exact (List.length_take_le' _ _).trans (length_scan 0)
    have hin : ∀ v ∈ vs, v.span.1 ≤ v.span.2 ∧ v.span.2 ≤ src.length := by
      intro v hv
      have hmem : v.span ∈ left src pat (anchored pat) (patternStart pat) 0 (max_s.getD (src.length + 1) - 0) := by
        rw [← hspans]
        exact List.mem_map_of_mem hv
      obtain ⟨-, hle, hfind⟩ := mem_scan (List.mem_of_mem_take hmem)
      exact tried_bounded _ _ hle hfind
    rw [List.nil_append] at htext
    refine Or.inl ⟨vs, w', ?_, hvisited, by rw [hspans, sub_zero], hsorted, hcount, ?_⟩
    · rw [hrun, hok, ok_bind]
      dsimp only
      rw [htext, zero_add]
    · intro hkeeps
      rw [hvisited.parts_eq hin hkeeps]
      refine splice_self hsorted ?_
      intro sp hsp
      obtain ⟨v, hv, rfl⟩ := List.mem_map.mp hsp
      exact ⟨Nat.zero_le _, (hin v hv).1⟩
  · refine Or.inr ⟨x, ?_, hfails⟩
    rw [hrun, herror]
    rfl

end Library

end Luwu.Pattern
