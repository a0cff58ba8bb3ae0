import Luwu.Pattern.Reading

/-!
# The matcher finds the first match

A call of the matcher ends with the first match that its items have from its position, with nothing where
there is none, and with the error of an item where that comes first; or it runs out of depth.
-/

namespace Luwu.Pattern

variable {src pat : List UInt8}

/-- The run ends as the first of the matches says.  Where there is none it gives back the captures as they
were; in both cases it gives back the depth. -/
def Agrees (ms : MatchState) (r : Result) (l : List Outcome) : Prop :=
  r = .error (.error "pattern too complex") ∨
    match l with
    | [] => ∃ ms', r = .ok (none, ms') ∧ ms'.caps = ms.caps ∧ ms'.matchdepth = ms.matchdepth
    | .ok (e, caps) :: _ => ∃ ms', r = .ok (some e, ms') ∧ ms'.caps = caps ∧ ms'.matchdepth = ms.matchdepth
    | .error msg :: _ => r = .error (.error msg)

theorem agrees_fail (ms : MatchState) : Agrees ms (.ok (none, ms)) [] := Or.inr ⟨ms, rfl, rfl, rfl⟩

theorem agrees_error (ms : MatchState) (msg : String) : Agrees ms (.error (.error msg)) [.error msg] := Or.inr rfl

theorem Agrees.of_same {ms ms' : MatchState} {r : Result} {l : List Outcome} (hcaps : ms'.caps = ms.caps)
    (hdepth : ms'.matchdepth = ms.matchdepth) (h : Agrees ms' r l) : Agrees ms r l := by
  unfold Agrees at h ⊢
  rwa [hcaps, hdepth] at h

/-- Where the first alternatives have no match, the run goes on with the next ones. -/
theorem Agrees.orElse {ms : MatchState} {r : Result} {l l' : List Outcome} (k : MatchState → Result)
    (hr : Agrees ms r l)
    (hk : ∀ ms', ms'.caps = ms.caps → ms'.matchdepth = ms.matchdepth → Agrees ms' (k ms') l') :
    Agrees ms (do
      let (res, ms') ← r
      match res with
      | some e => return (some e, ms')
      | none => k ms') (l ++ l') := by
  obtain hdeep | hmatch := hr
  · rw [hdeep]
    exact Or.inl rfl
  match l, hmatch with
  | [], hmatch =>
    obtain ⟨ms', rfl, hcaps, hdepth⟩ := hmatch
    exact (hk ms' hcaps hdepth).of_same hcaps hdepth
  | .ok (e, caps) :: _, hmatch =>
    obtain ⟨ms', rfl, hcaps, hdepth⟩ := hmatch
    exact Or.inr ⟨ms', rfl, hcaps, hdepth⟩
  | .error msg :: _, hmatch =>
    rw [hmatch]
    exact Or.inr rfl

/-- The matcher ends as the items from `p` on say, wherever its captures lie before the position. -/
def Refines (src pat : List UInt8) (m : Matcher) (p : ℕ) : Prop :=
  ∀ ms s, s ≤ src.length → CapturesOk ms.caps s → Agrees ms (m ms s p) (ways src (parse pat p) s ms.caps)

theorem matchCall_refines {m : Matcher} {p : ℕ} (h : Refines src pat m p) : Refines src pat (matchCall m) p := by
  intro ms s hs hok
  unfold matchCall
  split
  · exact Or.inl rfl
  · next hdepth =>
    obtain hdeep | hmatch := h { ms with matchdepth := ms.matchdepth - 1 } s hs hok
    · rw [hdeep]
      exact Or.inl rfl
    have hcaps : ({ ms with matchdepth := ms.matchdepth - 1 } : MatchState).caps = ms.caps := rfl
    rw [hcaps] at hmatch
    generalize ways src (parse pat p) s ms.caps = l at hmatch ⊢
    match l, hmatch with
    | [], hmatch =>
      obtain ⟨ms', hrun, hsame, hback⟩ := hmatch
      rw [hrun]
      refine Or.inr ⟨{ ms' with matchdepth := ms'.matchdepth + 1 }, rfl, hsame, ?_⟩
      show ms'.matchdepth + 1 = ms.matchdepth
      rw [hback]
      show ms.matchdepth - 1 + 1 = ms.matchdepth
      omega
    | .ok (e, caps) :: _, hmatch =>
      obtain ⟨ms', hrun, hsame, hback⟩ := hmatch
      rw [hrun]
      refine Or.inr ⟨{ ms' with matchdepth := ms'.matchdepth + 1 }, rfl, hsame, ?_⟩
      show ms'.matchdepth + 1 = ms.matchdepth
      rw [hback]
      show ms.matchdepth - 1 + 1 = ms.matchdepth
      omega
    | .error msg :: _, hmatch =>
      rw [hmatch]
      exact Or.inr rfl

/-! ### Captures that are opened and closed -/

theorem caps_push (ms : MatchState) (c : Capture) :
    ({ ms.setCapture ms.level c with level := ms.level + 1 } : MatchState).caps = ms.caps ++ [c] := by
  unfold MatchState.caps MatchState.setCapture
  dsimp only
  rw [List.range_succ, List.map_append, List.map_singleton, Function.update_self]
  congr 1
  apply List.map_congr_left
  intro l hl
  rw [List.mem_range] at hl
  exact Function.update_of_ne (by omega) _ _

theorem caps_pop {ms : MatchState} {caps : Captures} {c : Capture} (h : ms.caps = caps ++ [c]) :
    ({ ms with level := ms.level - 1 } : MatchState).caps = caps := by
  have hlevel : ms.level = caps.length + 1 := by
    rw [← length_caps, h, List.length_append, List.length_singleton]
  unfold MatchState.caps at h ⊢
  dsimp only
  rw [hlevel, List.range_succ, List.map_append] at h
  rw [hlevel, Nat.add_sub_cancel]
  exact (List.append_inj h (by rw [List.length_map, List.length_range])).1

theorem caps_setCapture (ms : MatchState) (l : ℕ) (c : Capture) :
    (ms.setCapture l c).caps = ms.caps.set l c := by
  apply List.ext_getElem
  · rw [length_caps, List.length_set, length_caps]
    rfl
  · intro i h1 h2
    rw [List.getElem_set]
    simp only [MatchState.caps, MatchState.setCapture, List.getElem_map, List.getElem_range, Function.update_apply]
    by_cases hil : l = i
    · rw [if_pos hil, if_pos hil.symm]
    · rw [if_neg hil, if_neg (Ne.symm hil)]

/-- A match with a capture that has changed, which is undone where there is no match -/
theorem Agrees.undo {ms ms₀ : MatchState} {r : Result} {l : List Outcome} (fix : MatchState → MatchState)
    (hr : Agrees ms r l) (hdepth : ms.matchdepth = ms₀.matchdepth)
    (hfix : ∀ ms', ms'.caps = ms.caps → (fix ms').caps = ms₀.caps ∧ (fix ms').matchdepth = ms'.matchdepth) :
    Agrees ms₀ (do
      let (res, ms') ← r
      match res with
      | some e => return (some e, ms')
      | none => return (none, fix ms')) l := by
  obtain hdeep | hmatch := hr
  · rw [hdeep]
    exact Or.inl rfl
  match l, hmatch with
  | [], hmatch =>
    obtain ⟨ms', rfl, hsame, hback⟩ := hmatch
    obtain ⟨hcaps, hkept⟩ := hfix ms' hsame
    exact Or.inr ⟨fix ms', rfl, hcaps, by rw [hkept, hback, hdepth]⟩
  | .ok (e, caps) :: _, hmatch =>
    obtain ⟨ms', rfl, hsame, hback⟩ := hmatch
    exact Or.inr ⟨ms', rfl, hsame, by rw [hback, hdepth]⟩
  | .error msg :: _, hmatch =>
    rw [hmatch]
    exact Or.inr rfl

theorem start_capture_agrees {m : Matcher} {q : ℕ} (h : Refines src pat m q) (ms : MatchState) {s : ℕ} {what : ℤ}
    (hs : s ≤ src.length) (hok : CapturesOk ms.caps s) (hwhat : what = CAP_UNFINISHED ∨ what = CAP_POSITION) :
    Agrees ms (start_capture m ms s q what)
      (if LUA_MAXCAPTURES ≤ ms.caps.length then [.error "too many captures"]
        else ways src (parse pat q) s (ms.caps ++ [⟨s, what⟩])) := by
  unfold start_capture
  rw [length_caps]
  split
  · exact agrees_error ms _
  · have hopened := hok.open hwhat
    rw [← caps_push ms ⟨s, what⟩] at hopened ⊢
    refine Agrees.undo (fun ms' => { ms' with level := ms'.level - 1 }) (h _ s hs hopened) rfl fun ms' hsame => ?_
    rw [caps_push] at hsame
    exact ⟨caps_pop hsame, rfl⟩

theorem end_capture_agrees {m : Matcher} {q : ℕ} (h : Refines src pat m q) (ms : MatchState) {s : ℕ}
    (hs : s ≤ src.length) (hok : CapturesOk ms.caps s) :
    Agrees ms (end_capture m ms s q)
      (match lastOpen ms.caps with
        | none => [.error "invalid pattern capture"]
        | some l =>
          ways src (parse pat q) s
            (ms.caps.set l ⟨(ms.caps.getD l ⟨0, 0⟩).init, s - (ms.caps.getD l ⟨0, 0⟩).init⟩)) := by
  unfold end_capture
  have hclose := capture_to_close_eq ms
  cases hlast : lastOpen ms.caps with
  | none =>
    rw [hlast] at hclose
    rw [hclose]
    exact agrees_error ms _
  | some l =>
    rw [hlast] at hclose
    have hl : l < ms.level := by
      rw [← length_caps]
      exact lastOpen_lt hlast
    have hopen := lastOpen_open hlast
    rw [caps_getD ms hl] at hopen
    rw [hclose, ok_bind]
    show Agrees ms _ (ways src (parse pat q) s
      (ms.caps.set l ⟨(ms.caps.getD l ⟨0, 0⟩).init, s - (ms.caps.getD l ⟨0, 0⟩).init⟩))
    rw [caps_getD ms hl, ← caps_setCapture ms l]
    have hinit := (hok _ (mem_caps ms hl)).1
    have hclosed : CapturesOk (ms.setCapture l ⟨(ms.capture l).init, s - (ms.capture l).init⟩).caps s := by
      rw [caps_setCapture ms l]
      exact hok.set ⟨hinit, by dsimp only; omega, by dsimp only; omega⟩
    refine Agrees.undo (fun ms' => ms'.setCapture l ⟨(ms'.capture l).init, CAP_UNFINISHED⟩) (h _ s hs hclosed) rfl
      fun ms' hsame => ?_
    rw [caps_setCapture ms l] at hsame
    refine ⟨?_, rfl⟩
    have hlevel : l < ms'.level := by
      rw [← length_caps, hsame, List.length_set, length_caps]
      exact hl
    have hstart : (ms'.capture l).init = (ms.capture l).init := by
      rw [← caps_getD ms' hlevel ⟨0, 0⟩, hsame, List.getD_eq_getElem?_getD, List.getElem?_set_self (by rwa [length_caps])]
      rfl
    have hwas : (⟨(ms.capture l).init, CAP_UNFINISHED⟩ : Capture) = ms.capture l := by
      rw [← hopen]
    rw [caps_setCapture ms' l, hsame, List.set_set, hstart, hwas]
    apply List.ext_getElem
    · rw [List.length_set]
    · intro i h1 h2
      rw [List.getElem_set]
      split
      · next hil =>
        subst hil
        simp only [MatchState.caps, List.getElem_map, List.getElem_range]
      · rfl

/-! ### Repetitions -/

section

variable {m : Matcher} {q : ℕ} (h : Refines src pat m q)

include h

theorem maxExpandLoop_agrees (i : ℕ) (ms : MatchState) {s : ℕ} (hs : s + i ≤ src.length) (hok : CapturesOk ms.caps s) :
    Agrees ms (maxExpandLoop m s q ms i)
      ((List.range (i + 1)).reverse.flatMap fun j => ways src (parse pat q) (s + j) ms.caps) := by
  induction i generalizing ms with
  | zero =>
    have hfirst := h ms s hs hok
    rw [maxExpandLoop]
    simpa using hfirst
  | succ i ih =>
    rw [maxExpandLoop, List.range_succ, List.reverse_append, List.reverse_singleton, List.singleton_append,
      List.flatMap_cons]
    apply Agrees.orElse (fun ms' => maxExpandLoop m s q ms' i) (h ms _ hs (hok.mono (by omega)))
    intro ms' hcaps hdepth
    rw [← hcaps]
    exact ih ms' (by omega) (by rwa [hcaps])

theorem max_expand_agrees {p ep : ℕ} (hq : q = ep + 1) (hp : p < pat.length) (hep : ep ≤ pat.length) (ms : MatchState)
    {s : ℕ} (hs : s ≤ src.length) (hok : CapturesOk ms.caps s) :
    Agrees ms (max_expand src pat m ms s p ep)
      ((List.range (runLength src (singleAt pat p ep) s + 1)).reverse.flatMap fun j =>
        ways src (parse pat q) (s + j) ms.caps) := by
  subst hq
  unfold max_expand
  rw [expandCount_eq hp hep, ok_bind]
  exact maxExpandLoop_agrees h _ ms (runLength_le _ hs) hok

theorem min_expand_agrees {p ep : ℕ} (hq : q = ep + 1) (hp : p < pat.length) (hep : ep ≤ pat.length) (ms : MatchState)
    {s : ℕ} (hs : s ≤ src.length) (hok : CapturesOk ms.caps s) :
    Agrees ms (min_expand src pat m p ep ms s)
      ((List.range (runLength src (singleAt pat p ep) s + 1)).flatMap fun j =>
        ways src (parse pat q) (s + j) ms.caps) := by
  subst hq
  induction hn : src.length - s using Nat.strong_induction_on generalizing ms s with
  | _ n ih =>
    unfold min_expand
    rw [List.range_succ_eq_map, List.flatMap_cons]
    apply Agrees.orElse (fun ms' =>
      if h : s < src.length then do
        if ← singlematch src pat s p ep then min_expand src pat m p ep ms' (s + 1) else return (none, ms')
      else return (none, ms')) (h ms s hs hok)
    intro ms' hcaps _
    by_cases hlt : s < src.length
    · rw [dif_pos hlt, singlematch_iff hp hep, ok_bind]
      cases hrun : runLength src (singleAt pat p ep) s with
      | zero => exact agrees_fail ms'
      | succ k =>
        have hmem : (singleAt pat p ep).mem (byteAt src s) = true := by
          by_contra hfalse
          rw [runLength_of_not_mem hlt (by simpa using hfalse)] at hrun
          omega
        rw [runLength_of_mem hlt hmem] at hrun
        have hk : k = runLength src (singleAt pat p ep) (s + 1) := by omega
        have hrest := ih _ (by omega) ms' (show s + 1 ≤ src.length by omega)
          (by rw [hcaps]; exact hok.mono (by omega)) rfl
        rw [hk, List.flatMap_map, ← hcaps]
        simp only [Nat.add_assoc, Nat.add_comm 1] at hrest
        exact hrest
    · rw [dif_neg hlt, runLength_end (by omega)]
      exact agrees_fail ms'

end

/-! ### The label `init` -/

section

variable {m : Matcher} {p : ℕ} (h : ∀ q, p < q → q ≤ pat.length → Refines src pat m q) (ms : MatchState) {s : ℕ}
  (hs : s ≤ src.length) (hok : CapturesOk ms.caps s)

include h hs hok

theorem dflt_agrees (hp : p < pat.length) :
    Agrees ms (dflt src pat m ms s p)
      (ways src ((classAt pat p).1 :: parse pat (classAt pat p).2) s ms.caps) := by
  unfold dflt classAt
  obtain ⟨msg, hend⟩ | ⟨ep, hend, hlo, hhi⟩ := classend_ends hp
  · rw [hend]
    exact agrees_error ms msg
  have hbounds := suffixAt_bounds hhi
  rw [hend, ok_bind, peek_eq hhi, ok_bind, singlematch_iff hp hhi, ok_bind]
  show Agrees ms _ ((Repeat.counts (runLength src (singleAt pat p ep) s) (suffixAt pat ep).1).flatMap fun i =>
    ways src (parse pat (suffixAt pat ep).2) (s + i) ms.caps)
  have hnext := h (suffixAt pat ep).2 (by omega) hbounds.2
  have hcall := matchCall_refines hnext
  have hskip := hnext ms s hs hok
  have hlen := runLength_le (singleAt pat p ep) hs
  generalize hn : runLength src (singleAt pat p ep) s = n at hlen ⊢
  have hone : n ≠ 0 → Agrees ms (m ms (s + 1) (suffixAt pat ep).2)
      (ways src (parse pat (suffixAt pat ep).2) (s + 1) ms.caps) := by
    intro hne
    exact hnext ms (s + 1) (by omega) (hok.mono (by omega))
  by_cases hopt : byteAt pat ep = '?'.toUInt8
  · have hsuffix : suffixAt pat ep = (.opt, ep + 1) := if_pos hopt
    rw [hsuffix] at hcall hskip ⊢
    rw [if_pos hopt, if_pos (Or.inr (Or.inl hopt))]
    by_cases hz : n = 0
    · rw [hz]
      show Agrees ms (m ms s (ep + 1)) (ways src (parse pat (ep + 1)) s ms.caps ++ [])
      rwa [List.append_nil]
    · rw [if_pos (decide_eq_true hz), Repeat.counts, if_neg hz, List.flatMap_cons]
      apply Agrees.orElse (fun ms' => m ms' s (ep + 1)) (hcall ms (s + 1) (by omega) (hok.mono (by omega)))
      intro ms' hcaps _
      rw [hsuffix] at hnext
      have hagain := hnext ms' s hs (by rwa [hcaps])
      rw [List.flatMap_cons, List.flatMap_nil, List.append_nil, ← hcaps]
      exact hagain
  rw [if_neg hopt]
  by_cases hplus : byteAt pat ep = '+'.toUInt8
  · have hsuffix : suffixAt pat ep = (.plus, ep + 1) := by
      unfold suffixAt
      dsimp only
      rw [if_neg hopt, if_pos hplus]
    rw [hsuffix] at hcall ⊢
    rw [if_pos hplus]
    by_cases hz : n = 0
    · have hnot : ¬(byteAt pat ep = '*'.toUInt8 ∨ byteAt pat ep = '?'.toUInt8 ∨ byteAt pat ep = '-'.toUInt8) := by
        rw [hplus]
        decide
      rw [hz, if_neg hnot]
      exact agrees_fail ms
    · rw [if_pos (decide_eq_true hz)]
      have hmem : (singleAt pat p ep).mem (byteAt src s) = true := by
        by_contra hfalse
        rw [runLength_of_not_mem (by omega) (by simpa using hfalse)] at hn
        exact hz hn.symm
      rw [runLength_of_mem (by omega) hmem] at hn
      have hrest := max_expand_agrees hcall rfl hp hhi ms (show s + 1 ≤ src.length by omega) (hok.mono (by omega))
      rw [hn] at hrest
      show Agrees ms _ (((List.range n).map (· + 1)).reverse.flatMap fun i => _)
      rw [← List.map_reverse, List.flatMap_map]
      simp only [Nat.add_assoc, Nat.add_comm 1] at hrest
      exact hrest
  rw [if_neg hplus]
  by_cases hstar : byteAt pat ep = '*'.toUInt8
  · have hsuffix : suffixAt pat ep = (.star, ep + 1) := by
      unfold suffixAt
      dsimp only
      rw [if_neg hopt, if_neg hplus, if_pos hstar]
    rw [hsuffix] at hcall hskip ⊢
    rw [if_pos hstar, if_pos (Or.inl hstar)]
    by_cases hz : n = 0
    · rw [hz]
      show Agrees ms (m ms s (ep + 1)) (ways src (parse pat (ep + 1)) s ms.caps ++ [])
      rwa [List.append_nil]
    · rw [if_pos (decide_eq_true hz), ← hn]
      exact max_expand_agrees hcall rfl hp hhi ms hs hok
  rw [if_neg hstar]
  by_cases hlazy : byteAt pat ep = '-'.toUInt8
  · have hsuffix : suffixAt pat ep = (.lazy, ep + 1) := by
      unfold suffixAt
      dsimp only
      rw [if_neg hopt, if_neg hplus, if_neg hstar, if_pos hlazy]
    rw [hsuffix] at hcall hskip ⊢
    rw [if_pos hlazy, if_pos (Or.inr (Or.inr hlazy))]
    by_cases hz : n = 0
    · rw [hz]
      show Agrees ms (m ms s (ep + 1)) (ways src (parse pat (ep + 1)) s ms.caps ++ [])
      rwa [List.append_nil]
    · rw [if_pos (decide_eq_true hz), ← hn]
      exact min_expand_agrees hcall rfl hp hhi ms hs hok
  · have hsuffix : suffixAt pat ep = (.one, ep) := by
      unfold suffixAt
      dsimp only
      rw [if_neg hopt, if_neg hplus, if_neg hstar, if_neg hlazy]
    rw [hsuffix] at hone ⊢
    rw [if_neg hlazy]
    by_cases hz : n = 0
    · have hnot : ¬(byteAt pat ep = '*'.toUInt8 ∨ byteAt pat ep = '?'.toUInt8 ∨ byteAt pat ep = '-'.toUInt8) := by
        rw [not_or, not_or]
        exact ⟨hstar, hopt, hlazy⟩
      rw [hz, if_neg hnot]
      exact agrees_fail ms
    · rw [if_pos (decide_eq_true hz), Repeat.counts, if_neg hz, List.flatMap_cons, List.flatMap_nil, List.append_nil]
      exact hone hz

theorem frontier_agrees (hc : byteAt pat p = L_ESC) (hd : byteAt pat (p + 1) = 'f'.toUInt8)
    (hlt : p + 2 ≤ pat.length) :
    Agrees ms (frontier src pat m ms s (p + 2))
      (ways src ((itemAt pat p).1 :: parse pat (itemAt pat p).2) s ms.caps) := by
  have hitem : itemAt pat p =
      if byteAt pat (p + 2) ≠ '['.toUInt8 then (.malformed "missing '[' after '%f' in pattern", pat.length)
      else withEnd pat (classend pat (p + 2)) fun ep => (.frontier (charSet pat (p + 2) (ep - 1)), ep) := by
    unfold itemAt
    dsimp only
    rw [hc, hd, if_neg (by decide), if_neg (by decide), if_neg (by rintro ⟨hx, _⟩; exact absurd hx (by decide)),
      if_pos rfl, if_neg (by decide), if_pos rfl]
  unfold frontier
  rw [hitem, peek_eq hlt, ok_bind]
  by_cases hset : byteAt pat (p + 2) ≠ '['.toUInt8
  · rw [if_pos hset, if_pos hset]
    exact agrees_error ms _
  · rw [if_neg hset, if_neg hset]
    rw [not_not] at hset
    have hset' : p + 2 < pat.length := lt_of_byteAt (by rw [hset]; decide)
    obtain ⟨msg, hend⟩ | ⟨ep, hend, hlo, hhi⟩ := classend_ends hset'
    · rw [hend]
      exact agrees_error ms msg
    · have hprevious : (if s = 0 then .ok 0 else peek src (s - 1)) =
          (Except.ok (if s = 0 then 0 else byteAt src (s - 1)) : Except MatchStop UInt8) := by
        split
        · rfl
        · exact peek_eq (by omega)
      rw [hend, ok_bind, hprevious, ok_bind, matchbracketclass_eq _ hset' (by omega), ok_bind, peek_eq hs, ok_bind,
        matchbracketclass_eq _ hset' (by omega), ok_bind]
      show Agrees ms _ (if !(charSet pat (p + 2) (ep - 1)).mem (if s = 0 then 0 else byteAt src (s - 1)) &&
        (charSet pat (p + 2) (ep - 1)).mem (byteAt src s) then ways src (parse pat ep) s ms.caps else [])
      generalize (!(charSet pat (p + 2) (ep - 1)).mem (if s = 0 then 0 else byteAt src (s - 1)) &&
        (charSet pat (p + 2) (ep - 1)).mem (byteAt src s)) = inside
      cases inside with
      | true => exact h ep (by omega) hhi ms s hs hok
      | false => exact agrees_fail ms

theorem backref_agrees (hsize : src.length ≤ MAXSSIZE) (q : ℕ) (hq : p < q ∧ q ≤ pat.length) (d : UInt8) :
    Agrees ms
      (do
        match ← match_capture src ms s d with
        | some s => m ms s q
        | none => return (none, ms))
      (ways src (.backref d :: parse pat q) s ms.caps) := by
  have hcapture := match_capture_eq ms d hs hsize hok
  rw [ways]
  cases hb : backref ms.caps d with
  | error msg =>
    rw [hb] at hcapture
    rw [hcapture]
    exact agrees_error ms msg
  | ok c =>
    rw [hb] at hcapture
    have hcapture' : match_capture src ms s d = .ok (if textAt src c s then some (s + c.len.toNat) else none) := hcapture
    rw [hcapture', ok_bind]
    cases htext : textAt src c s with
    | true =>
      have hbound : s + c.len.toNat ≤ src.length := by
        unfold textAt at htext
        rw [decide_eq_true_eq] at htext
        exact htext.2.1
      have hrest := h q hq.1 hq.2 ms _ hbound (hok.mono (by omega))
      dsimp only
      rw [htext]
      exact hrest
    | false =>
      dsimp only
      rw [htext]
      exact agrees_fail ms

theorem balance_agrees (hlt : p + 3 < pat.length) :
    Agrees ms
      (do
        match ← matchbalance src pat s (p + 2) with
        | some s => m ms s (p + 4)
        | none => return (none, ms))
      (ways src (.balance (byteAt pat (p + 2)) (byteAt pat (p + 3)) :: parse pat (p + 4)) s ms.caps) := by
  rw [matchbalance_eq hs (by omega), ok_bind, ways]
  cases hend : balanceEnd src (byteAt pat (p + 2)) (byteAt pat (p + 2 + 1)) s with
  | none => exact agrees_fail ms
  | some t =>
    have hbounds := balanceEnd_bounds hend
    exact h (p + 4) (by omega) (by omega) ms t hbounds.2 (hok.mono hbounds.1)

theorem escape_agrees (hsize : src.length ≤ MAXSSIZE) (hp : p < pat.length) (hc : byteAt pat p = L_ESC) :
    Agrees ms (initBody src pat m ms s p) (ways src ((itemAt pat p).1 :: parse pat (itemAt pat p).2) s ms.caps) := by
  have hopen : byteAt pat p ≠ '('.toUInt8 := by
    rw [hc]
    decide
  have hclose : byteAt pat p ≠ ')'.toUInt8 := by
    rw [hc]
    decide
  have hdollar : ¬(byteAt pat p = '$'.toUInt8 ∧ p + 1 = pat.length) := by
    rw [hc]
    rintro ⟨hx, _⟩
    exact absurd hx (by decide)
  have hnext : byteAt pat (p + 1) ≠ 0 → p + 2 ≤ pat.length := fun hne => lt_of_byteAt hne
  unfold initBody
  rw [if_neg (by omega), peek_eq hp.le, ok_bind, if_neg hopen, if_neg hclose, if_neg hdollar, if_pos hc, peek_eq hp,
    ok_bind]
  by_cases hb : byteAt pat (p + 1) = 'b'.toUInt8
  · have hitem : itemAt pat p =
        if pat.length ≤ p + 3 then (.malformed "malformed pattern (missing arguments to '%b')", pat.length)
        else (.balance (byteAt pat (p + 2)) (byteAt pat (p + 3)), p + 4) := by
      unfold itemAt
      dsimp only
      rw [if_neg hopen, if_neg hclose, if_neg hdollar, if_pos hc, if_pos hb]
    rw [if_pos hb, hitem]
    by_cases hshort : pat.length ≤ p + 3
    · rw [if_pos hshort, matchbalance_malformed hshort]
      exact agrees_error ms _
    · rw [if_neg hshort]
      exact balance_agrees h ms hs hok (by omega)
  rw [if_neg hb]
  by_cases hf : byteAt pat (p + 1) = 'f'.toUInt8
  · rw [if_pos hf]
    exact frontier_agrees h ms hs hok hc hf (hnext (by rw [hf]; decide))
  rw [if_neg hf]
  by_cases hdigit : isdigit (byteAt pat (p + 1)) = true
  · have hitem : itemAt pat p = (.backref (byteAt pat (p + 1)), p + 2) := by
      unfold itemAt
      dsimp only
      rw [if_neg hopen, if_neg hclose, if_neg hdollar, if_pos hc, if_neg hb, if_neg hf, if_pos hdigit]
    have hne : byteAt pat (p + 1) ≠ 0 := by
      intro hzero
      rw [hzero] at hdigit
      exact absurd hdigit (by decide)
    rw [if_pos hdigit, hitem]
    exact backref_agrees h ms hs hok hsize (p + 2) ⟨by omega, hnext hne⟩ _
  · have hitem : itemAt pat p = classAt pat p := by
      unfold itemAt
      dsimp only
      rw [if_neg hopen, if_neg hclose, if_neg hdollar, if_pos hc, if_neg hb, if_neg hf, if_neg hdigit]
    rw [if_neg hdigit, hitem]
    exact dflt_agrees h ms hs hok hp

end

theorem initBody_refines {m : Matcher} {p : ℕ} (hsize : src.length ≤ MAXSSIZE) (hp : p ≤ pat.length)
    (h : ∀ q, p < q → q ≤ pat.length → Refines src pat m q) : Refines src pat (initBody src pat m) p := by
  intro ms s hs hok
  by_cases hend : p = pat.length
  · rw [parse_end (by omega)]
    unfold initBody
    rw [if_pos hend]
    exact Or.inr ⟨ms, rfl, rfl, rfl⟩
  have hlt : p < pat.length := by omega
  rw [parse_of_lt hlt]
  by_cases hesc : byteAt pat p = L_ESC
  · exact escape_agrees h ms hs hok hsize hlt hesc
  have hcall : ∀ q, p < q → q ≤ pat.length → Refines src pat (matchCall m) q := fun q hlo hhi =>
    matchCall_refines (h q hlo hhi)
  unfold initBody
  rw [if_neg hend, peek_eq hp, ok_bind]
  by_cases hopen : byteAt pat p = '('.toUInt8
  · rw [if_pos hopen, peek_eq hlt, ok_bind]
    by_cases hpos : byteAt pat (p + 1) = ')'.toUInt8
    · have hnext : p + 1 < pat.length := lt_of_byteAt (by rw [hpos]; decide)
      have hitem : itemAt pat p = (.openPosition, p + 2) := by
        unfold itemAt
        dsimp only
        rw [if_pos hopen, if_pos hpos]
      rw [if_pos hpos, hitem]
      exact start_capture_agrees (hcall (p + 2) (by omega) (by omega)) ms hs hok (Or.inr rfl)
    · have hitem : itemAt pat p = (.openCapture, p + 1) := by
        unfold itemAt
        dsimp only
        rw [if_pos hopen, if_neg hpos]
      rw [if_neg hpos, hitem]
      exact start_capture_agrees (hcall (p + 1) (by omega) (by omega)) ms hs hok (Or.inl rfl)
  rw [if_neg hopen]
  by_cases hclose : byteAt pat p = ')'.toUInt8
  · have hitem : itemAt pat p = (.close, p + 1) := by
      unfold itemAt
      dsimp only
      rw [if_neg hopen, if_pos hclose]
    rw [if_pos hclose, hitem]
    exact end_capture_agrees (hcall (p + 1) (by omega) (by omega)) ms hs hok
  rw [if_neg hclose]
  by_cases hdollar : byteAt pat p = '$'.toUInt8 ∧ p + 1 = pat.length
  · have hitem : itemAt pat p = (.atEnd, p + 1) := by
      unfold itemAt
      dsimp only
      rw [if_neg hopen, if_neg hclose, if_pos hdollar]
    rw [if_pos hdollar, hitem]
    show Agrees ms _ (if s = src.length then ways src (parse pat (p + 1)) s ms.caps else [])
    rw [parse_end (by omega)]
    by_cases hfin : s = src.length
    · rw [if_pos hfin, if_pos hfin]
      exact Or.inr ⟨ms, rfl, rfl, rfl⟩
    · rw [if_neg hfin, if_neg hfin]
      exact agrees_fail ms
  rw [if_neg hdollar, if_neg hesc]
  have hitem : itemAt pat p = classAt pat p := by
    unfold itemAt
    dsimp only
    rw [if_neg hopen, if_neg hclose, if_neg hdollar, if_neg hesc]
  rw [hitem]
  exact dflt_agrees h ms hs hok hlt

theorem init_refines {p fuel : ℕ} (hsize : src.length ≤ MAXSSIZE) (hp : p ≤ pat.length) (hfuel : pat.length - p < fuel) :
    Refines src pat (init src pat fuel) p := by
  induction fuel generalizing p with
  | zero => omega
  | succ fuel ih =>
    apply initBody_refines hsize hp
    intro q hlo hhi
    exact ih hhi (by omega)

/-- **The matcher finds the first match of a pattern.** -/
theorem matchFrom_refines {p : ℕ} (hsize : src.length ≤ MAXSSIZE) (hp : p ≤ pat.length) :
    Refines src pat (matchFrom src pat) p :=
  matchCall_refines (init_refines hsize hp (by omega))

/-- A string of the virtual machine -/
structure LuaString where
  bytes : List UInt8
  size : bytes.length ≤ MAXSSIZE

theorem Agrees.message {ms : MatchState} {r : Result} {l : List Outcome} {e : MatchStop} (h : Agrees ms r l)
    (he : r = .error e) : ∃ msg, e = .error msg := by
  obtain hdeep | hmatch := h
  · rw [he] at hdeep
    injection hdeep with hdeep
    exact ⟨_, hdeep⟩
  match l, hmatch with
  | [], hmatch =>
    obtain ⟨_, hrun, _⟩ := hmatch
    rw [he] at hrun
    cases hrun
  | .ok (_, _) :: _, hmatch =>
    obtain ⟨_, hrun, _⟩ := hmatch
    rw [he] at hrun
    cases hrun
  | .error msg :: _, hmatch =>
    rw [he] at hmatch
    injection hmatch with hmatch
    exact ⟨msg, hmatch⟩

/-- A call of `match` ends as the matches of its items say, and ends with nothing but an error of the library
where it fails: no byte outside of the two strings is read. -/
theorem match_semantics (src pat : LuaString) {s p : ℕ} (hs : s ≤ src.bytes.length) (hp : p ≤ pat.bytes.length)
    (ms : MatchState) (hok : CapturesOk ms.caps s) :
    Agrees ms (matchFrom src.bytes pat.bytes ms s p) (ways src.bytes (parse pat.bytes p) s ms.caps) ∧
      ∀ e, matchFrom src.bytes pat.bytes ms s p = .error e → ∃ msg, e = .error msg := by
  have hagrees := matchFrom_refines src.size hp ms s hs hok
  exact ⟨hagrees, fun e he => hagrees.message he⟩

/-- The pattern `(b)%1` from the second byte of `abb` -/
theorem match_semantics_backref :
    Agrees ⟨LUAI_MAXCCALLS, 0, fun _ => ⟨0, 0⟩⟩
        (matchFrom [97, 98, 98] [40, 98, 41, 37, 49] ⟨LUAI_MAXCCALLS, 0, fun _ => ⟨0, 0⟩⟩ 1 0)
        (ways [97, 98, 98] (parse [40, 98, 41, 37, 49] 0) 1 []) ∧
      ∀ e, matchFrom [97, 98, 98] [40, 98, 41, 37, 49] ⟨LUAI_MAXCCALLS, 0, fun _ => ⟨0, 0⟩⟩ 1 0 = .error e →
        ∃ msg, e = .error msg :=
  match_semantics ⟨[97, 98, 98], by decide⟩ ⟨[40, 98, 41, 37, 49], by decide⟩ (by decide) (by decide)
    ⟨LUAI_MAXCCALLS, 0, fun _ => ⟨0, 0⟩⟩ (fun c hc => absurd hc List.not_mem_nil)

end Luwu.Pattern
