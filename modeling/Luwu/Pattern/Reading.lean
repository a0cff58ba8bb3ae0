import Luwu.Pattern.Core

/-!
# The parts of the matcher and the items

Each function of the matcher that reads the pattern answers what the item at that place says, without a read
past the end of a string.
-/

namespace Luwu.Pattern

variable {src pat : List UInt8} {α β : Type}

@[simp] theorem ok_bind (a : α) (f : α → Except MatchStop β) : (Except.ok a >>= f) = f a := rfl

@[simp] theorem error_bind (e : MatchStop) (f : α → Except MatchStop β) : (Except.error e >>= f) = .error e := rfl

theorem peek_eq {bytes : List UInt8} {i : ℕ} (h : i ≤ bytes.length) : peek bytes i = .ok (byteAt bytes i) := if_pos h

/-- A byte that is not zero is not the terminator. -/
theorem lt_of_byteAt {bytes : List UInt8} {i : ℕ} (h : byteAt bytes i ≠ 0) : i < bytes.length := by
  by_contra hge
  have hnone : bytes[i]? = none := List.getElem?_eq_none (by omega)
  exact h (by rw [byteAt, List.getD_eq_getElem?_getD, hnone]; rfl)

/-! ### Classes -/

/-- A class ends behind its start and within the pattern, or the pattern is malformed there. -/
def Ends (pat : List UInt8) (p : ℕ) (r : Except MatchStop ℕ) : Prop :=
  (∃ msg, r = .error (.error msg)) ∨ ∃ ep, r = .ok ep ∧ p < ep ∧ ep ≤ pat.length

theorem classendSet_ends {p : ℕ} (hp : p ≤ pat.length) : Ends pat p (classendSet pat p) := by
  induction hn : pat.length - p using Nat.strong_induction_on generalizing p with
  | _ n ih =>
    unfold classendSet
    split
    · exact Or.inl ⟨_, rfl⟩
    · next hne =>
      have hlt : p < pat.length := by omega
      rw [dif_pos hlt, peek_eq hp, ok_bind]
      generalize hnext : (if byteAt pat p = L_ESC ∧ p + 1 < pat.length then p + 2 else p + 1) = next
      have hbounds : p < next ∧ next ≤ pat.length := by
        split at hnext <;> omega
      dsimp only
      rw [peek_eq hbounds.2, ok_bind]
      split
      · next hclose =>
        have hlt' : next < pat.length := lt_of_byteAt (by rw [hclose]; decide)
        exact Or.inr ⟨next + 1, rfl, by omega, by omega⟩
      · obtain ⟨msg, hmsg⟩ | ⟨ep, hep, hlo, hhi⟩ := ih (pat.length - next) (by omega) hbounds.2 rfl
        · exact Or.inl ⟨msg, hmsg⟩
        · exact Or.inr ⟨ep, hep, by omega, hhi⟩

theorem classend_ends {p : ℕ} (hp : p < pat.length) : Ends pat p (classend pat p) := by
  unfold classend
  rw [peek_eq hp.le, ok_bind]
  split
  · split
    · exact Or.inl ⟨_, rfl⟩
    · exact Or.inr ⟨p + 2, rfl, by omega, by omega⟩
  · split
    · rw [peek_eq (by omega), ok_bind]
      split
      · next hneg =>
        have hlt : p + 1 < pat.length := lt_of_byteAt (by rw [hneg]; decide)
        obtain ⟨msg, hmsg⟩ | ⟨ep, hep, hlo, hhi⟩ := classendSet_ends (show p + 2 ≤ pat.length by omega)
        · exact Or.inl ⟨msg, hmsg⟩
        · exact Or.inr ⟨ep, hep, by omega, hhi⟩
      · obtain ⟨msg, hmsg⟩ | ⟨ep, hep, hlo, hhi⟩ := classendSet_ends (show p + 1 ≤ pat.length by omega)
        · exact Or.inl ⟨msg, hmsg⟩
        · exact Or.inr ⟨ep, hep, by omega, hhi⟩
    · exact Or.inr ⟨p + 1, rfl, by omega, by omega⟩

theorem setElems_eq (ec p : ℕ) :
    setElems pat ec p =
      if p + 1 < ec then
        if byteAt pat (p + 1) = L_ESC then .cls (byteAt pat (p + 2)) :: setElems pat ec (p + 2)
        else if byteAt pat (p + 2) = '-'.toUInt8 ∧ p + 3 < ec then
          .range (byteAt pat (p + 1)) (byteAt pat (p + 3)) :: setElems pat ec (p + 3)
        else .lit (byteAt pat (p + 1)) :: setElems pat ec (p + 1)
      else [] := by
  rw [setElems]
  rfl

theorem any_cons_ite (c : UInt8) (sig : Bool) (x : SetElem) (l : List SetElem) :
    (if (x :: l).any (SetElem.mem c) then sig else !sig) =
      if x.mem c then sig else if l.any (SetElem.mem c) then sig else !sig := by
  rw [List.any_cons]
  cases x.mem c <;> rfl

theorem bracketLoop_eq (c : UInt8) (sig : Bool) {ec p : ℕ} (hec : ec ≤ pat.length) :
    bracketLoop pat c sig ec p = .ok (if (setElems pat ec p).any (SetElem.mem c) then sig else !sig) := by
  induction hn : ec - p using Nat.strong_induction_on generalizing p with
  | _ n ih =>
    unfold bracketLoop
    rw [setElems_eq]
    by_cases hlt : p + 1 < ec
    · rw [dif_pos hlt, if_pos hlt, peek_eq (by omega), ok_bind, peek_eq (by omega), ok_bind]
      by_cases hesc : byteAt pat (p + 1) = L_ESC
      · rw [if_pos hesc, if_pos hesc, any_cons_ite, ih (ec - (p + 2)) (by omega) rfl]
        unfold SetElem.mem
        split <;> rfl
      · rw [if_neg hesc, if_neg hesc]
        by_cases hrange : byteAt pat (p + 2) = '-'.toUInt8 ∧ p + 3 < ec
        · rw [if_pos hrange, if_pos hrange, any_cons_ite, peek_eq (by omega), ok_bind, ih (ec - (p + 3)) (by omega) rfl]
          unfold SetElem.mem
          simp only [decide_eq_true_eq]
          split <;> rfl
        · rw [if_neg hrange, if_neg hrange, any_cons_ite, ih (ec - (p + 1)) (by omega) rfl]
          unfold SetElem.mem
          simp only [decide_eq_true_eq]
          split <;> rfl
    · rw [dif_neg hlt, if_neg hlt]
      rfl

theorem matchbracketclass_eq (c : UInt8) {ec p : ℕ} (hp : p < pat.length) (hec : ec ≤ pat.length) :
    matchbracketclass pat c p ec = .ok ((charSet pat p ec).mem c) := by
  unfold matchbracketclass charSet
  rw [peek_eq (by omega), ok_bind]
  split
  · rw [bracketLoop_eq c false hec, CharSet.mem]
    cases (setElems pat ec (p + 1)).any (SetElem.mem c) <;> rfl
  · rw [bracketLoop_eq c true hec, CharSet.mem]
    cases (setElems pat ec p).any (SetElem.mem c) <;> rfl

theorem singlematch_eq {s p ep : ℕ} (hs : s < src.length) (hp : p < pat.length) (hep : ep ≤ pat.length) :
    singlematch src pat s p ep = .ok ((singleAt pat p ep).mem (byteAt src s)) := by
  unfold singlematch singleAt
  rw [if_neg (by omega), peek_eq hs.le, ok_bind, peek_eq hp.le, ok_bind]
  dsimp only
  split
  · rfl
  · split
    · rw [peek_eq (by omega)]
      rfl
    · split
      · exact matchbracketclass_eq _ hp (by omega)
      · rfl

theorem singlematch_end {s p ep : ℕ} (hs : src.length ≤ s) : singlematch src pat s p ep = .ok false := if_pos hs

/-! ### Repetitions -/

theorem drop_eq_byteAt {s : ℕ} (hs : s < src.length) : src.drop s = byteAt src s :: src.drop (s + 1) := by
  rw [List.drop_eq_getElem_cons hs, byteAt, List.getD_eq_getElem?_getD, List.getElem?_eq_getElem hs]
  rfl

theorem runLength_of_mem {x : Single} {s : ℕ} (hs : s < src.length) (hx : x.mem (byteAt src s) = true) :
    runLength src x s = runLength src x (s + 1) + 1 := by
  unfold runLength
  rw [drop_eq_byteAt hs, List.takeWhile_cons_of_pos (p := fun c => x.mem c) hx, List.length_cons]

theorem runLength_of_not_mem {x : Single} {s : ℕ} (hs : s < src.length) (hx : x.mem (byteAt src s) = false) :
    runLength src x s = 0 := by
  unfold runLength
  have hneg : ¬x.mem (byteAt src s) = true := by
    rw [hx]
    decide
  rw [drop_eq_byteAt hs, List.takeWhile_cons_of_neg (p := fun c => x.mem c) hneg, List.length_nil]

theorem runLength_end {x : Single} {s : ℕ} (hs : src.length ≤ s) : runLength src x s = 0 := by
  unfold runLength
  rw [List.drop_eq_nil_of_le hs]
  rfl

theorem runLength_le (x : Single) {s : ℕ} (hs : s ≤ src.length) : s + runLength src x s ≤ src.length := by
  have hle := (List.takeWhile_prefix (l := src.drop s) x.mem).length_le
  rw [List.length_drop] at hle
  unfold runLength
  omega

theorem singlematch_iff {s p ep : ℕ} (hp : p < pat.length) (hep : ep ≤ pat.length) :
    singlematch src pat s p ep = .ok (decide (runLength src (singleAt pat p ep) s ≠ 0)) := by
  by_cases hs : s < src.length
  · rw [singlematch_eq hs hp hep]
    cases hx : (singleAt pat p ep).mem (byteAt src s) with
    | true =>
      rw [runLength_of_mem hs hx]
      rfl
    | false =>
      rw [runLength_of_not_mem hs hx]
      rfl
  · rw [singlematch_end (by omega), runLength_end (by omega)]
    rfl

theorem expandCount_eq {s p ep : ℕ} (hp : p < pat.length) (hep : ep ≤ pat.length) :
    expandCount src pat p ep s = .ok (runLength src (singleAt pat p ep) s) := by
  induction hn : src.length - s using Nat.strong_induction_on generalizing s with
  | _ n ih =>
    unfold expandCount
    by_cases hs : s < src.length
    · rw [dif_pos hs, singlematch_eq hs hp hep, ok_bind]
      cases hx : (singleAt pat p ep).mem (byteAt src s) with
      | true =>
        rw [if_pos rfl, ih (src.length - (s + 1)) (by omega) rfl, runLength_of_mem hs hx]
        rfl
      | false =>
        rw [runLength_of_not_mem hs hx]
        rfl
    · rw [dif_neg hs, runLength_end (by omega)]
      rfl

/-! ### Balanced strings -/

theorem nesting_self (b e : UInt8) (s : ℕ) : nesting src b e s s = 1 := by
  rw [nesting, Nat.sub_self, List.take_zero]
  rfl

theorem nesting_succ (b e : UInt8) {s k : ℕ} (hsk : s ≤ k) (hk : k + 1 < src.length) :
    nesting src b e s (k + 1) = nesting src b e s k +
      if byteAt src (k + 1) = e then -1 else if byteAt src (k + 1) = b then 1 else 0 := by
  have hindex : s + 1 + (k - s) = k + 1 := by omega
  have hget : (src.drop (s + 1))[k - s]? = some (byteAt src (k + 1)) := by
    rw [List.getElem?_drop, hindex, byteAt, List.getD_eq_getElem?_getD, List.getElem?_eq_getElem hk]
    rfl
  have htake : (src.drop (s + 1)).take (k + 1 - s) = (src.drop (s + 1)).take (k - s) ++ [byteAt src (k + 1)] := by
    rw [show k + 1 - s = k - s + 1 by omega, List.take_add_one, hget]
    rfl
  rw [nesting, nesting, htake, List.map_append, List.sum_append, List.map_singleton, List.sum_singleton, add_assoc]

/-- The positions after `s`, in order -/
def later (src : List UInt8) (s : ℕ) : List ℕ := List.range' (s + 1) (src.length - (s + 1))

theorem later_of_lt {s : ℕ} (h : s + 1 < src.length) : later src s = (s + 1) :: later src (s + 1) := by
  rw [later, later, show src.length - (s + 1) = src.length - (s + 1 + 1) + 1 by omega, List.range'_succ]

theorem later_of_ge {s : ℕ} (h : src.length ≤ s + 1) : later src s = [] := by
  rw [later, show src.length - (s + 1) = 0 by omega]
  rfl

/-- The count of the loop is the nesting from the place where the string opened. -/
theorem balanceLoop_eq (b e : UInt8) {start s cont : ℕ} (hle : start ≤ s) (hpos : 0 < cont)
    (hcont : (cont : ℤ) = nesting src b e start s) :
    balanceLoop src b e cont s = .ok (((later src s).find? fun k => nesting src b e start k = 0).map (· + 1)) := by
  induction hn : src.length - s using Nat.strong_induction_on generalizing s cont with
  | _ n ih =>
    unfold balanceLoop
    by_cases hlt : s + 1 < src.length
    · rw [dif_pos hlt, peek_eq hlt.le, ok_bind, later_of_lt hlt, List.find?_cons]
      have hstep := nesting_succ b e hle hlt
      by_cases he : byteAt src (s + 1) = e
      · rw [if_pos he] at hstep ⊢
        by_cases hzero : cont - 1 = 0
        · have hnest : nesting src b e start (s + 1) = 0 := by omega
          rw [if_pos hzero, hnest]
          rfl
        · have hnest : ¬nesting src b e start (s + 1) = 0 := by omega
          rw [if_neg hzero, decide_eq_false hnest]
          exact ih _ (by omega) (by omega) (by omega) (by omega) rfl
      · rw [if_neg he] at hstep ⊢
        by_cases hb : byteAt src (s + 1) = b
        · rw [if_pos hb] at hstep ⊢
          have hnest : ¬nesting src b e start (s + 1) = 0 := by omega
          rw [decide_eq_false hnest]
          exact ih _ (by omega) (by omega) (by omega) (by push_cast; omega) rfl
        · rw [if_neg hb] at hstep ⊢
          have hnest : ¬nesting src b e start (s + 1) = 0 := by omega
          rw [decide_eq_false hnest]
          exact ih _ (by omega) (by omega) hpos (by omega) rfl
    · rw [dif_neg hlt, later_of_ge (by omega)]
      rfl

theorem matchbalance_eq {s p : ℕ} (hs : s ≤ src.length) (hp : p + 1 < pat.length) :
    matchbalance src pat s p = .ok (balanceEnd src (byteAt pat p) (byteAt pat (p + 1)) s) := by
  unfold matchbalance balanceEnd
  rw [if_neg (by omega), peek_eq (by omega), ok_bind, peek_eq hs, ok_bind]
  by_cases hb : byteAt src s = byteAt pat p
  · rw [if_neg (not_not.mpr hb), if_pos hb, peek_eq (by omega), ok_bind,
      balanceLoop_eq _ _ le_rfl Nat.one_pos (by rw [nesting_self]; rfl)]
    rfl
  · rw [if_pos hb, if_neg hb]
    rfl

theorem matchbalance_malformed {s p : ℕ} (hp : pat.length ≤ p + 1) :
    matchbalance src pat s p = .error (.error "malformed pattern (missing arguments to '%b')") := by
  unfold matchbalance
  rw [if_pos hp]
  rfl

theorem balanceEnd_bounds {b e : UInt8} {s t : ℕ} (h : balanceEnd src b e s = some t) : s ≤ t ∧ t ≤ src.length := by
  unfold balanceEnd at h
  split at h
  · obtain ⟨k, hfind, rfl⟩ := Option.map_eq_some_iff.mp h
    have hmem := List.mem_of_find?_eq_some hfind
    rw [List.mem_range'_1] at hmem
    omega
  · cases h

/-! ### Captures -/

/-- The captures below the level -/
def MatchState.caps (ms : MatchState) : Captures := (List.range ms.level).map ms.capture

@[simp] theorem length_caps (ms : MatchState) : ms.caps.length = ms.level := by
  rw [MatchState.caps, List.length_map, List.length_range]

theorem caps_getD (ms : MatchState) {l : ℕ} (h : l < ms.level) (d : Capture) : ms.caps.getD l d = ms.capture l := by
  rw [List.getD_eq_getElem?_getD, MatchState.caps, List.getElem?_map, List.getElem?_range h]
  rfl

/-- Captures lie before the position that the match has reached. -/
def CapturesOk (caps : Captures) (s : ℕ) : Prop :=
  ∀ c ∈ caps, c.init ≤ s ∧ (c.len = CAP_UNFINISHED ∨ c.len = CAP_POSITION ∨ 0 ≤ c.len ∧ c.init + c.len ≤ s)

theorem CapturesOk.mono {caps : Captures} {s t : ℕ} (h : CapturesOk caps s) (hst : s ≤ t) : CapturesOk caps t := by
  intro c hc
  obtain ⟨hinit, hlen⟩ := h c hc
  refine ⟨by omega, ?_⟩
  obtain hopen | hpos | hclosed := hlen
  · exact Or.inl hopen
  · exact Or.inr (Or.inl hpos)
  · exact Or.inr (Or.inr ⟨hclosed.1, by omega⟩)

theorem CapturesOk.open {caps : Captures} {s : ℕ} {what : ℤ} (h : CapturesOk caps s)
    (hwhat : what = CAP_UNFINISHED ∨ what = CAP_POSITION) : CapturesOk (caps ++ [⟨s, what⟩]) s := by
  intro c hc
  obtain hold | hnew := List.mem_append.mp hc
  · exact h c hold
  · rw [List.mem_singleton.mp hnew]
    exact ⟨le_rfl, hwhat.imp_right Or.inl⟩

theorem CapturesOk.set {caps : Captures} {s l : ℕ} {c : Capture} (h : CapturesOk caps s)
    (hc : c.init ≤ s ∧ 0 ≤ c.len ∧ c.init + c.len ≤ s) : CapturesOk (caps.set l c) s := by
  intro d hd
  obtain hold | rfl := List.mem_or_eq_of_mem_set hd
  · exact h d hold
  · exact ⟨hc.1, Or.inr (Or.inr hc.2)⟩

theorem captureToClose_eq (capture : ℕ → Capture) (n : ℕ) :
    captureToClose capture n =
      match (List.range n).reverse.find? fun l => (capture l).len = CAP_UNFINISHED with
      | none => .error (.error "invalid pattern capture")
      | some l => .ok l := by
  induction n with
  | zero => rfl
  | succ n ih =>
    rw [List.range_succ, List.reverse_append, List.reverse_singleton, List.singleton_append, List.find?_cons,
      captureToClose]
    by_cases hopen : (capture n).len = CAP_UNFINISHED
    · rw [if_pos hopen, decide_eq_true hopen]
    · rw [if_neg hopen, decide_eq_false hopen]
      exact ih

theorem find_congr {p q : ℕ → Bool} {l : List ℕ} (h : ∀ x ∈ l, p x = q x) : l.find? p = l.find? q := by
  induction l with
  | nil => rfl
  | cons a l ih =>
    rw [List.find?_cons, List.find?_cons, h a List.mem_cons_self, ih fun x hx => h x (List.mem_cons_of_mem a hx)]

theorem capture_to_close_eq (ms : MatchState) :
    capture_to_close ms =
      match lastOpen ms.caps with
      | none => .error (.error "invalid pattern capture")
      | some l => .ok l := by
  rw [capture_to_close, captureToClose_eq, lastOpen, length_caps]
  have hcongr : ((List.range ms.level).reverse.find? fun l => (ms.capture l).len = CAP_UNFINISHED) =
      (List.range ms.level).reverse.find? fun l => (ms.caps.getD l ⟨0, 0⟩).len = CAP_UNFINISHED := by
    apply find_congr
    intro l hl
    rw [List.mem_reverse, List.mem_range] at hl
    rw [caps_getD ms hl]
  rw [hcongr]

theorem lastOpen_lt {caps : Captures} {l : ℕ} (h : lastOpen caps = some l) : l < caps.length := by
  have hmem := List.mem_of_find?_eq_some h
  rwa [List.mem_reverse, List.mem_range] at hmem

theorem lastOpen_open {caps : Captures} {l : ℕ} (h : lastOpen caps = some l) :
    (caps.getD l ⟨0, 0⟩).len = CAP_UNFINISHED :=
  of_decide_eq_true (List.find?_some (p := fun l => decide ((caps.getD l ⟨0, 0⟩).len = CAP_UNFINISHED)) h)

/-- A back reference to no closed capture is an error, and the same one. -/
theorem check_capture_cases (ms : MatchState) (d : UInt8) :
    (∃ msg, backref ms.caps d = .error msg ∧ check_capture ms d = .error (.error msg)) ∨
      ∃ l < ms.level, backref ms.caps d = .ok (ms.capture l) ∧ check_capture ms d = .ok l ∧
        (ms.capture l).len ≠ CAP_UNFINISHED := by
  unfold backref check_capture
  dsimp only
  rw [length_caps]
  generalize (d.toNat : ℤ) - 49 = l
  by_cases hrange : l < 0 ∨ (ms.level : ℤ) ≤ l
  · left
    rw [if_pos (by tauto), if_pos (by tauto)]
    exact ⟨_, rfl, rfl⟩
  · have hlt : l.toNat < ms.level := by omega
    rw [caps_getD ms hlt]
    by_cases hopen : (ms.capture l.toNat).len = CAP_UNFINISHED
    · left
      rw [if_pos (by tauto), if_pos (by tauto)]
      exact ⟨_, rfl, rfl⟩
    · right
      rw [if_neg (by tauto), if_neg (by tauto)]
      exact ⟨l.toNat, hlt, rfl, rfl, hopen⟩

theorem mem_caps (ms : MatchState) {l : ℕ} (h : l < ms.level) : ms.capture l ∈ ms.caps :=
  List.mem_map.mpr ⟨l, List.mem_range.mpr h, rfl⟩

/-- The largest string -/
def MAXSSIZE : ℕ := 2 ^ 30

theorem match_capture_eq (ms : MatchState) {s : ℕ} (d : UInt8) (hs : s ≤ src.length) (hsize : src.length ≤ MAXSSIZE)
    (hok : CapturesOk ms.caps s) :
    match_capture src ms s d =
      match backref ms.caps d with
      | .error msg => .error (.error msg)
      | .ok c => .ok (if textAt src c s then some (s + c.len.toNat) else none) := by
  unfold match_capture
  obtain ⟨msg, hb, hcheck⟩ | ⟨l, hl, hb, hcheck, hopen⟩ := check_capture_cases ms d
  · rw [hb, hcheck]
    rfl
  rw [hb, hcheck, ok_bind]
  obtain ⟨hinit, hlen⟩ := hok _ (mem_caps ms hl)
  unfold MAXSSIZE at hsize
  unfold textAt
  dsimp only
  obtain hunfinished | hpos | ⟨hnonneg, hend⟩ := hlen
  · exact absurd hunfinished hopen
  · have hbig : ¬((ms.capture l).len % 2 ^ 64).toNat ≤ src.length - s := by
      rw [hpos]
      unfold CAP_POSITION
      norm_num
      omega
    have hneg : ¬0 ≤ (ms.capture l).len := by
      rw [hpos]
      decide
    simp only [hbig, hneg, if_false, false_and, decide_false, Bool.false_eq_true]
    rfl
  · have hmod : ((ms.capture l).len % 2 ^ 64).toNat = (ms.capture l).len.toNat := by omega
    rw [hmod]
    by_cases hfit : (ms.capture l).len.toNat ≤ src.length - s
    · have hle : s + (ms.capture l).len.toNat ≤ src.length := by omega
      rw [if_pos hfit, memcmpEq, if_pos ⟨by omega, by omega⟩, ok_bind]
      simp only [hnonneg, hle, true_and, decide_eq_true_eq]
      split <;> rfl
    · have hle : ¬s + (ms.capture l).len.toNat ≤ src.length := by omega
      rw [if_neg hfit]
      simp only [hle, false_and, and_false, decide_false, Bool.false_eq_true, if_false]
      rfl

/-! ### Reading the items -/

/-- An item and the place after it, behind the place where it stands -/
def After (pat : List UInt8) (p : ℕ) (r : Item × ℕ) : Prop := p < r.2 ∧ r.2 ≤ pat.length

theorem withEnd_after {p q : ℕ} {r : Except MatchStop ℕ} {f : ℕ → Item × ℕ} (hp : p < pat.length)
    (hr : Ends pat q r) (hf : ∀ ep, q < ep → ep ≤ pat.length → After pat p (f ep)) : After pat p (withEnd pat r f) := by
  obtain ⟨msg, rfl⟩ | ⟨ep, rfl, hlo, hhi⟩ := hr
  · exact ⟨hp, le_rfl⟩
  · exact hf ep hlo hhi

theorem suffixAt_bounds {ep : ℕ} (h : ep ≤ pat.length) : ep ≤ (suffixAt pat ep).2 ∧ (suffixAt pat ep).2 ≤ pat.length := by
  have hlt : ∀ c : UInt8, c ≠ 0 → byteAt pat ep = c → ep + 1 ≤ pat.length := by
    intro c hc hbyte
    have := @lt_of_byteAt pat ep (by rw [hbyte]; exact hc)
    omega
  unfold suffixAt
  dsimp only
  split
  · next hx => exact ⟨by dsimp only; omega, hlt _ (by decide) hx⟩
  · split
    · next hx => exact ⟨by dsimp only; omega, hlt _ (by decide) hx⟩
    · split
      · next hx => exact ⟨by dsimp only; omega, hlt _ (by decide) hx⟩
      · split
        · next hx => exact ⟨by dsimp only; omega, hlt _ (by decide) hx⟩
        · exact ⟨le_rfl, h⟩

theorem classAt_after {p : ℕ} (hp : p < pat.length) : After pat p (classAt pat p) := by
  apply withEnd_after hp (classend_ends hp)
  intro ep hlo hhi
  have hsuffix := suffixAt_bounds hhi
  exact ⟨by dsimp only; omega, hsuffix.2⟩

theorem itemAt_after {p : ℕ} (hp : p < pat.length) : After pat p (itemAt pat p) := by
  have hlt : ∀ c : UInt8, c ≠ 0 → byteAt pat (p + 1) = c → p + 2 ≤ pat.length := by
    intro c hc hbyte
    have := @lt_of_byteAt pat (p + 1) (by rw [hbyte]; exact hc)
    omega
  unfold itemAt
  dsimp only
  split
  · split
    · next hd => exact ⟨by dsimp only; omega, hlt _ (by decide) hd⟩
    · exact ⟨by dsimp only; omega, hp⟩
  split
  · exact ⟨by dsimp only; omega, hp⟩
  split
  · exact ⟨by dsimp only; omega, hp⟩
  split
  · split
    · split
      · exact ⟨hp, le_rfl⟩
      · exact ⟨by dsimp only; omega, by dsimp only; omega⟩
    split
    · split
      · exact ⟨hp, le_rfl⟩
      · next hset =>
        rw [not_not] at hset
        have hset' : p + 2 < pat.length := lt_of_byteAt (by rw [hset]; decide)
        apply withEnd_after hp (classend_ends hset')
        intro ep hlo hhi
        exact ⟨by dsimp only; omega, hhi⟩
    split
    · next hdigit =>
      refine ⟨by dsimp only; omega, hlt (byteAt pat (p + 1)) ?_ rfl⟩
      intro hzero
      rw [hzero] at hdigit
      exact absurd hdigit (by decide)
    · exact classAt_after hp
  · exact classAt_after hp

/-- The items of a pattern from a position on -/
def parse (pat : List UInt8) (p : ℕ) : List Item :=
  if _h : p < pat.length then (itemAt pat p).1 :: parse pat (itemAt pat p).2 else []
termination_by pat.length - p
decreasing_by
  have := (itemAt_after _h).1
  omega

theorem parse_of_lt {p : ℕ} (h : p < pat.length) : parse pat p = (itemAt pat p).1 :: parse pat (itemAt pat p).2 := by
  rw [parse, dif_pos h]

theorem parse_end {p : ℕ} (h : pat.length ≤ p) : parse pat p = [] := by
  rw [parse, dif_neg (by omega)]

end Luwu.Pattern
