import Luwu.Pattern.Refine

/-!
# Finding a string

`string.find`: the search for plain text, the test whether a pattern is plain text, and the loop that tries
the matcher at one position after another.
-/

namespace Luwu.Pattern

/-! ### Plain text -/

/-- `memchr` on `len` bytes from `start` -/
def memchr (bytes : List UInt8) (c : UInt8) (start len : ℕ) : Option ℕ :=
  (List.range' start len).find? fun i => byteAt bytes i = c

theorem memchr_some {bytes : List UInt8} {c : UInt8} {start len i : ℕ} (h : memchr bytes c start len = some i) :
    start ≤ i ∧ i < start + len := by
  have hmem := List.mem_of_find?_eq_some h
  rwa [List.mem_range'_1] at hmem

/-- The loop of `lmemfind`.  The rest of the needle has `l2` bytes, and the needle may start at `l1`
places. -/
def lmemfindLoop (hay needle : List UInt8) (l2 s1 l1 : ℕ) : Option ℕ :=
  if _hl : 0 < l1 then
    match _h : memchr hay (byteAt needle 0) s1 l1 with
    | none => none
    | some i =>
      if (hay.drop (i + 1)).take l2 = (needle.drop 1).take l2 then some i
      else lmemfindLoop hay needle l2 (i + 1) (l1 - (i + 1 - s1))
  else none
termination_by l1
decreasing_by
  have := memchr_some _h
  omega

/-- `lmemfind` on the `l1` bytes of the subject from `s1` -/
def lmemfind (hay : List UInt8) (s1 l1 : ℕ) (needle : List UInt8) : Option ℕ :=
  if needle.length = 0 then some s1
  else if l1 < needle.length then none
  else lmemfindLoop hay needle (needle.length - 1) s1 (l1 - (needle.length - 1))

def SPECIALS : List UInt8 :=
  ['^'.toUInt8, '$'.toUInt8, '*'.toUInt8, '+'.toUInt8, '?'.toUInt8, '.'.toUInt8, '('.toUInt8, '['.toUInt8,
    '%'.toUInt8, '-'.toUInt8]

/-- The C string at a position -/
def cstring (bytes : List UInt8) (i : ℕ) : List UInt8 := (bytes.drop i).takeWhile (· ≠ 0)

/-- The loop of `nospecials` -/
def nospecialsLoop (p : List UInt8) (upto : ℕ) : Bool :=
  if (cstring p upto).any (SPECIALS.contains ·) then false
  else if _h : upto + (cstring p upto).length + 1 ≤ p.length then
    nospecialsLoop p (upto + (cstring p upto).length + 1)
  else true
termination_by p.length - upto

def nospecials (p : List UInt8) : Bool := nospecialsLoop p 0

/-! ### `string.find` -/

def posrelat (pos : ℤ) (len : ℕ) : ℤ :=
  let pos := if pos < 0 then pos + len + 1 else pos
  if 0 ≤ pos then pos else 0

/-- What `string.find` answers: the start, the end and the captures -/
abbrev Found := Option (ℤ × ℤ × Captures)

def prepstate : MatchState := ⟨LUAI_MAXCCALLS, 0, fun _ => ⟨0, 0⟩⟩

def reprepstate (ms : MatchState) : MatchState := { ms with level := 0 }

section

variable (src pat : List UInt8)

/-- The loop that tries the matcher -/
def findLoop (anchor : Bool) (p : ℕ) (ms : MatchState) (s1 : ℕ) : Except MatchStop Found := do
  let (res, ms) ← matchFrom src pat (reprepstate ms) s1 p
  match res with
  | some e => return some (s1 + 1, e, ms.caps)
  | none => if _h : s1 < src.length ∧ !anchor then findLoop anchor p ms (s1 + 1) else return none
termination_by src.length - s1

/-- The search with the matcher from the position `s1` -/
def matchFind (s1 : ℕ) : Except MatchStop Found := do
  let anchor := (← peek pat 0) = '^'.toUInt8
  findLoop src pat anchor (if anchor then 1 else 0) prepstate s1

/-- The plain search from the position `s1` -/
def plainFind (s1 : ℕ) : Found :=
  (lmemfind src s1 (src.length - s1) pat).map fun s2 => (s2 + 1, s2 + pat.length, [])

/-- The position where a search begins; there is none behind the end of the subject. -/
def findStart (start : ℤ) : Option ℕ :=
  let init := posrelat start src.length
  let init := if init < 1 then 1 else init
  if src.length + 1 < init then none else some (init - 1).toNat

/-- `str_find_aux` of `string.find` -/
def str_find_aux (start : ℤ) (plain : Bool) : Except MatchStop Found :=
  match findStart src start with
  | none => .ok none
  | some s1 => if plain || nospecials pat then .ok (plainFind src pat s1) else matchFind src pat s1

end

/-! ### The first occurrence -/

/-- The needle stands at `i` within the bytes before `limit`. -/
def Occurs (hay needle : List UInt8) (limit i : ℕ) : Prop :=
  i + needle.length ≤ limit ∧ (hay.drop i).take needle.length = needle

/-- The first place from `s1` on where the needle stands, if there is one -/
def FirstAt (hay needle : List UInt8) (limit s1 : ℕ) : Option ℕ → Prop
  | some i => s1 ≤ i ∧ Occurs hay needle limit i ∧ ∀ j, s1 ≤ j → j < i → ¬Occurs hay needle limit j
  | none => ∀ j, s1 ≤ j → ¬Occurs hay needle limit j

section

variable {hay needle : List UInt8} {limit : ℕ}

theorem FirstAt.of_skip {s1 s2 : ℕ} {r : Option ℕ} (h : FirstAt hay needle limit s2 r) (hle : s1 ≤ s2)
    (hskip : ∀ j, s1 ≤ j → j < s2 → ¬Occurs hay needle limit j) : FirstAt hay needle limit s1 r := by
  cases r with
  | none =>
    intro j hj
    by_cases hlt : j < s2
    · exact hskip j hj hlt
    · exact h j (by omega)
  | some i =>
    obtain ⟨hlo, hocc, hbefore⟩ := h
    refine ⟨by omega, hocc, ?_⟩
    intro j hj hji
    by_cases hlt : j < s2
    · exact hskip j hj hlt
    · exact hbefore j (by omega) hji

/-- The first byte and the rest are compared apart. -/
theorem occurs_iff {i : ℕ} (hpos : 0 < needle.length) (hlimit : limit ≤ hay.length) (hi : i + needle.length ≤ limit) :
    Occurs hay needle limit i ↔
      byteAt hay i = byteAt needle 0 ∧
        (hay.drop (i + 1)).take (needle.length - 1) = (needle.drop 1).take (needle.length - 1) := by
  obtain ⟨c, rest, rfl⟩ := List.exists_cons_of_length_pos hpos
  have hlt : i < hay.length := by omega
  have htake : (rest.take ((c :: rest).length - 1)) = rest := List.take_length
  unfold Occurs
  rw [drop_eq_byteAt hlt, List.length_cons, List.take_succ_cons, List.drop_one, List.tail_cons, Nat.add_sub_cancel,
    List.take_length]
  constructor
  · rintro ⟨_, heq⟩
    exact List.cons.inj heq
  · rintro ⟨hc, hrest⟩
    refine ⟨hi, ?_⟩
    rw [hrest, hc]
    rfl

theorem memchr_before {c : UInt8} {start len i : ℕ} (h : memchr hay c start len = some i) :
    byteAt hay i = c ∧ ∀ j, start ≤ j → j < i → byteAt hay j ≠ c := by
  obtain ⟨hc, _, hbefore⟩ := List.find?_range'_eq_some.mp h
  refine ⟨of_decide_eq_true hc, ?_⟩
  intro j hlo hhi
  simpa using hbefore j hlo hhi

theorem memchr_none {c : UInt8} {start len : ℕ} (h : memchr hay c start len = none) :
    ∀ j, start ≤ j → j < start + len → byteAt hay j ≠ c := by
  intro j hlo hhi
  simpa using List.find?_range'_eq_none.mp h j hlo hhi

theorem lmemfindLoop_first (hpos : 0 < needle.length) (hlimit : limit ≤ hay.length) {s1 l1 : ℕ}
    (hrange : s1 + l1 + (needle.length - 1) = limit) :
    FirstAt hay needle limit s1 (lmemfindLoop hay needle (needle.length - 1) s1 l1) := by
  induction hn : l1 using Nat.strong_induction_on generalizing s1 l1 with
  | _ n ih =>
    subst hn
    unfold lmemfindLoop
    by_cases hl : 0 < l1
    · rw [dif_pos hl]
      split
      · next hnone =>
        intro j hj hocc
        have hfirst := ((occurs_iff hpos hlimit hocc.1).mp hocc).1
        exact memchr_none hnone j hj (by have := hocc.1; omega) hfirst
      · next i hsome =>
        have hbounds := memchr_some hsome
        obtain ⟨hc, hbefore⟩ := memchr_before hsome
        have hskip : ∀ j, s1 ≤ j → j < i → ¬Occurs hay needle limit j := by
          intro j hlo hhi hocc
          exact hbefore j hlo hhi ((occurs_iff hpos hlimit hocc.1).mp hocc).1
        split
        · next heq => exact ⟨hbounds.1, (occurs_iff hpos hlimit (by omega)).mpr ⟨hc, heq⟩, hskip⟩
        · next hne =>
          apply (ih (l1 - (i + 1 - s1)) (by omega) (by omega) rfl).of_skip (by omega)
          intro j hlo hhi
          by_cases hji : j = i
          · rw [hji]
            intro hocc
            exact hne ((occurs_iff hpos hlimit hocc.1).mp hocc).2
          · exact hskip j hlo (by omega)
    · rw [dif_neg hl]
      intro j hj hocc
      have := hocc.1
      omega

/-- `lmemfind` finds the first occurrence of the needle. -/
theorem lmemfind_first (s1 l1 : ℕ) (hlimit : s1 + l1 ≤ hay.length) :
    FirstAt hay needle (s1 + l1) s1 (lmemfind hay s1 l1 needle) := by
  unfold lmemfind
  split
  · next hempty =>
    refine ⟨le_rfl, ⟨by omega, ?_⟩, fun j hlo hhi => by omega⟩
    rw [List.length_eq_zero_iff.mp hempty]
    rfl
  · split
    · intro j hj hocc
      have := hocc.1
      omega
    · exact lmemfindLoop_first (by omega) hlimit (by omega)

end

/-! ### Plain patterns -/

/-- A byte of the rest is in the C string there, or the zero that ends it, or behind that. -/
theorem mem_drop_cstring {p : List UInt8} {i : ℕ} {c : UInt8} :
    c ∈ p.drop i → c ∈ cstring p i ∨ c = 0 ∨ c ∈ p.drop (i + (cstring p i).length + 1) := by
  intro hc
  have hsplit : cstring p i ++ (p.drop i).dropWhile (· ≠ 0) = p.drop i := List.takeWhile_append_dropWhile
  have hrest : (p.drop i).dropWhile (· ≠ 0) = p.drop (i + (cstring p i).length) := by
    have hdrop := congrArg (List.drop (cstring p i).length) hsplit
    rwa [List.drop_left, List.drop_drop] at hdrop
  rw [← hsplit] at hc
  obtain hseg | hlater := List.mem_append.mp hc
  · exact Or.inl hseg
  right
  cases hw : (p.drop i).dropWhile (· ≠ 0) with
  | nil =>
    rw [hw] at hlater
    cases hlater
  | cons d tail =>
    have hzero : d = 0 := by
      have hhead := List.head_dropWhile_not (l := p.drop i) (· ≠ 0) (by rw [hw]; exact List.cons_ne_nil d tail)
      simp only [hw, List.head_cons] at hhead
      simpa using hhead
    have htail : p.drop (i + (cstring p i).length + 1) = tail := by
      rw [← List.drop_drop, ← hrest, hw]
      rfl
    rw [hw] at hlater
    obtain rfl | hmem := List.mem_cons.mp hlater
    · exact Or.inl hzero
    · right
      rwa [htail]

theorem nospecialsLoop_iff (p : List UInt8) {upto : ℕ} :
    nospecialsLoop p upto = true ↔ ∀ c ∈ p.drop upto, c ∉ SPECIALS := by
  induction hn : p.length - upto using Nat.strong_induction_on generalizing upto with
  | _ n ih =>
    unfold nospecialsLoop
    have hpre : cstring p upto <+: p.drop upto := List.takeWhile_prefix _
    by_cases hspecial : (cstring p upto).any (SPECIALS.contains ·) = true
    · rw [if_pos hspecial]
      obtain ⟨c, hc, hmem⟩ := List.any_eq_true.mp hspecial
      constructor
      · intro h
        cases h
      · intro h
        exact absurd (by simpa using hmem) (h c (hpre.subset hc))
    · rw [if_neg hspecial]
      have hseg : ∀ c ∈ cstring p upto, c ∉ SPECIALS := by
        intro c hc hmem
        exact hspecial (List.any_eq_true.mpr ⟨c, hc, by simpa using hmem⟩)
      have hall : (∀ c ∈ p.drop upto, c ∉ SPECIALS) ↔
          ∀ c ∈ p.drop (upto + (cstring p upto).length + 1), c ∉ SPECIALS := by
        constructor
        · intro h c hc
          apply h c
          rw [Nat.add_assoc, ← List.drop_drop] at hc
          exact List.mem_of_mem_drop hc
        · intro h c hc
          obtain hin | rfl | hlater := mem_drop_cstring hc
          · exact hseg c hin
          · decide
          · exact h c hlater
      rw [hall]
      split
      · next hmore => exact ih _ (by omega) rfl
      · next hmore =>
        rw [List.drop_eq_nil_of_le (by omega)]
        exact iff_of_true rfl fun c hc => absurd hc List.not_mem_nil

/-- `nospecials` looks at every byte, also behind a zero. -/
theorem nospecials_iff (p : List UInt8) : nospecials p = true ↔ ∀ c ∈ p, c ∉ SPECIALS := by
  rw [nospecials, nospecialsLoop_iff, List.drop_zero]

/-- A pattern of bytes that stand for themselves -/
def Literal (p : List UInt8) : Prop := nospecials p = true ∧ ')'.toUInt8 ∉ p

section

variable {src pat : List UInt8}

theorem occurs_length {s : ℕ} (hs : s ≤ src.length) :
    (src.drop s).take pat.length = pat ↔ Occurs src pat src.length s := by
  constructor
  · intro h
    refine ⟨?_, h⟩
    have hlen := congrArg List.length h
    rw [List.length_take, List.length_drop] at hlen
    omega
  · intro h
    exact h.2

variable (hlit : Literal pat)

include hlit

theorem literal_byte {i : ℕ} (hi : i < pat.length) : byteAt pat i ∉ SPECIALS ∧ byteAt pat i ≠ ')'.toUInt8 := by
  have hmem : byteAt pat i ∈ pat := by
    rw [byteAt, List.getD_eq_getElem?_getD, List.getElem?_eq_getElem hi]
    exact List.getElem_mem hi
  refine ⟨(nospecials_iff pat).mp hlit.1 _ hmem, ?_⟩
  intro heq
  rw [heq] at hmem
  exact hlit.2 hmem

theorem literal_suffix (i : ℕ) : byteAt pat i ∉ SPECIALS := by
  by_cases hi : i < pat.length
  · exact (literal_byte hlit hi).1
  · have hzero : byteAt pat i = 0 := by
      by_contra hne
      exact hi (lt_of_byteAt hne)
    rw [hzero]
    decide

/-- On such a pattern the matcher compares the bytes. -/
theorem init_literal {fuel p : ℕ} (hp : p ≤ pat.length) (hfuel : pat.length - p < fuel) (ms : MatchState) {s : ℕ}
    (hs : s ≤ src.length) :
    init src pat fuel ms s p =
      .ok (if (src.drop s).take (pat.length - p) = pat.drop p then some (s + (pat.length - p)) else none, ms) := by
  induction fuel generalizing p s with
  | zero => omega
  | succ fuel ih =>
    unfold init initBody
    by_cases hend : p = pat.length
    · rw [if_pos hend, hend, Nat.sub_self, List.take_zero, List.drop_length, if_pos rfl]
      rfl
    have hlt : p < pat.length := by omega
    obtain ⟨hspecial, hclose⟩ := literal_byte hlit hlt
    have hsuffix := literal_suffix hlit (p + 1)
    have hnot : ∀ c ∈ SPECIALS, byteAt pat p ≠ c := fun c hc heq => hspecial (heq ▸ hc)
    have hnot' : ∀ c ∈ SPECIALS, byteAt pat (p + 1) ≠ c := fun c hc heq => hsuffix (heq ▸ hc)
    have hesc : byteAt pat p ≠ L_ESC := hnot _ (by decide)
    have hset : byteAt pat p ≠ '['.toUInt8 := hnot _ (by decide)
    have hdot : byteAt pat p ≠ '.'.toUInt8 := hnot _ (by decide)
    rw [if_neg hend, peek_eq hp, ok_bind, if_neg (hnot _ (by decide)), if_neg hclose,
      if_neg (fun h => hnot _ (by decide) h.1), if_neg hesc]
    have hclassend : classend pat p = .ok (p + 1) := by
      unfold classend
      rw [peek_eq hp, ok_bind, if_neg hesc, if_neg hset]
      rfl
    have hsingle : singleAt pat p (p + 1) = .lit (byteAt pat p) := by
      unfold singleAt
      dsimp only
      rw [if_neg hdot, if_neg hesc, if_neg hset]
    unfold dflt
    rw [hclassend, ok_bind, peek_eq hlt, ok_bind]
    have hrest : pat.length - p = pat.length - (p + 1) + 1 := by omega
    have hopt : ¬(byteAt pat (p + 1) = '*'.toUInt8 ∨ byteAt pat (p + 1) = '?'.toUInt8 ∨
        byteAt pat (p + 1) = '-'.toUInt8) := by
      rintro (h | h | h)
      · exact hnot' _ (by decide) h
      · exact hnot' _ (by decide) h
      · exact hnot' _ (by decide) h
    by_cases hsrc : s < src.length
    · rw [singlematch_eq hsrc hlt hlt, hsingle, ok_bind, hrest, drop_eq_byteAt hsrc, drop_eq_byteAt hlt,
        List.take_succ_cons]
      by_cases heq : byteAt pat p = byteAt src s
      · have hstep := ih (show p + 1 ≤ pat.length by omega) (by omega) (show s + 1 ≤ src.length by omega)
        have hmem : Single.mem (byteAt src s) (.lit (byteAt pat p)) = true := decide_eq_true heq
        rw [hmem, if_pos rfl, if_neg (hnot' _ (by decide)), if_neg (hnot' _ (by decide)), if_neg (hnot' _ (by decide)),
          if_neg (hnot' _ (by decide)), hstep, heq]
        simp only [List.cons.injEq, true_and, Nat.add_assoc, Nat.add_comm 1]
      · have hmem : Single.mem (byteAt src s) (.lit (byteAt pat p)) = false := decide_eq_false heq
        have hne : ¬(byteAt src s :: (src.drop (s + 1)).take (pat.length - (p + 1)) =
            byteAt pat p :: pat.drop (p + 1)) := fun h => heq (List.cons.inj h).1.symm
        rw [hmem, if_neg (by decide), if_neg hopt, if_neg hne]
        rfl
    · have hne : ¬(([] : List UInt8) = byteAt pat p :: pat.drop (p + 1)) := fun h => by cases h
      rw [singlematch_end (by omega), ok_bind, List.drop_eq_nil_of_le (show src.length ≤ s by omega), List.take_nil,
        drop_eq_byteAt hlt, if_neg (by decide), if_neg hopt, if_neg hne]
      rfl

/-- At one position the matcher answers whether the pattern stands there. -/
theorem matchFrom_literal (ms : MatchState) (hdepth : ms.matchdepth ≠ 0) {s : ℕ} (hs : s ≤ src.length) :
    matchFrom src pat ms s 0 =
      .ok (if (src.drop s).take pat.length = pat then some (s + pat.length) else none, ms) := by
  have hback : ms.matchdepth - 1 + 1 = ms.matchdepth := by omega
  unfold matchFrom matchCall
  rw [if_neg hdepth, init_literal hlit (Nat.zero_le _) (by omega) _ hs, ok_bind, Nat.sub_zero, List.drop_zero]
  dsimp only
  rw [hback]
  rfl

/-- The loop that tries the matcher stops at the first occurrence. -/
theorem findLoop_literal {r : Option ℕ} {s1 : ℕ} (hs : s1 ≤ src.length)
    (hr : FirstAt src pat src.length s1 r) (ms : MatchState) (hdepth : ms.matchdepth ≠ 0) :
    findLoop src pat false 0 ms s1 = .ok (r.map fun s2 => ((s2 : ℤ) + 1, (s2 : ℤ) + pat.length, [])) := by
  induction hn : src.length - s1 using Nat.strong_induction_on generalizing s1 ms with
  | _ n ih =>
    unfold findLoop
    rw [matchFrom_literal hlit (reprepstate ms) hdepth hs, ok_bind]
    by_cases hhere : (src.drop s1).take pat.length = pat
    · have hocc := (occurs_length hs).mp hhere
      rw [if_pos hhere]
      cases r with
      | none => exact absurd hocc (hr s1 le_rfl)
      | some i =>
        obtain ⟨hlo, _, hbefore⟩ := hr
        have hi : i = s1 := by
          by_contra hne
          exact hbefore s1 le_rfl (by omega) hocc
        rw [hi]
        rfl
    · have hnot : ¬Occurs src pat src.length s1 := fun h => hhere ((occurs_length hs).mpr h)
      rw [if_neg hhere]
      by_cases hmore : s1 < src.length
      · have hnext : FirstAt src pat src.length (s1 + 1) r := by
          cases r with
          | none => exact fun j hj => hr j (by omega)
          | some i =>
            obtain ⟨hlo, hocc, hbefore⟩ := hr
            have hne : i ≠ s1 := by
              rintro rfl
              exact hnot hocc
            exact ⟨by omega, hocc, fun j hj => hbefore j (by omega)⟩
        have hrest := ih (src.length - (s1 + 1)) (by omega) (by omega) hnext (reprepstate ms) hdepth rfl
        rw [← hrest]
        exact dif_pos ⟨hmore, rfl⟩
      · cases r with
        | none => exact dif_neg (fun h => hmore h.1)
        | some i =>
          obtain ⟨hlo, hocc, _⟩ := hr
          have hi : i = s1 := by
            have := hocc.1
            omega
          exact absurd (hi ▸ hocc) hnot

end

/-- **The plain search answers what the matcher answers.** -/
theorem matchFind_literal {src pat : List UInt8} (hlit : Literal pat) {s1 : ℕ} (hs : s1 ≤ src.length) :
    matchFind src pat s1 = .ok (plainFind src pat s1) := by
  have hfirst := @lmemfind_first src pat s1 (src.length - s1) (by omega)
  rw [show s1 + (src.length - s1) = src.length by omega] at hfirst
  have hanchor : byteAt pat 0 ≠ '^'.toUInt8 := by
    intro h
    have hsuffix := literal_suffix hlit 0
    rw [h] at hsuffix
    exact hsuffix (by decide)
  unfold matchFind
  rw [peek_eq (Nat.zero_le _), ok_bind]
  simp only [hanchor, decide_false, if_false]
  exact findLoop_literal hlit hs hfirst prepstate (by decide)

theorem findStart_le {src : List UInt8} {start : ℤ} {s1 : ℕ} (h : findStart src start = some s1) :
    s1 ≤ src.length := by
  unfold findStart at h
  dsimp only at h
  generalize (if posrelat start src.length < 1 then 1 else posrelat start src.length) = init at h
  by_cases hlt : (src.length : ℤ) + 1 < init
  · rw [if_pos hlt] at h
    cases h
  · rw [if_neg hlt] at h
    injection h with h
    omega

/-- For a pattern without special bytes `string.find` answers what the matcher answers, and the search it uses
finds the first occurrence in any part of any string. -/
theorem str_find_plain (src pat : List UInt8) (start : ℤ) (plain : Bool) (hlit : Literal pat) :
    (str_find_aux src pat start plain =
      match findStart src start with
      | none => .ok none
      | some s1 => matchFind src pat s1) ∧
    ∀ (hay needle : List UInt8) (s1 l1 : ℕ), s1 + l1 ≤ hay.length →
      FirstAt hay needle (s1 + l1) s1 (lmemfind hay s1 l1 needle) := by
  refine ⟨?_, fun hay needle s1 l1 h => lmemfind_first s1 l1 h⟩
  unfold str_find_aux
  cases hstart : findStart src start with
  | none => rfl
  | some s1 =>
    have hplain : (plain || nospecials pat) = true := by
      rw [hlit.1, Bool.or_true]
    dsimp only
    rw [if_pos hplain, matchFind_literal hlit (findStart_le hstart)]

/-- The pattern `b`, zero in the subject `a`, zero, `b`, zero -/
theorem str_find_plain_zero :
    (str_find_aux [97, 0, 98, 0] [98, 0] 1 false =
      match findStart [97, 0, 98, 0] 1 with
      | none => .ok none
      | some s1 => matchFind [97, 0, 98, 0] [98, 0] s1) ∧
    ∀ (hay needle : List UInt8) (s1 l1 : ℕ), s1 + l1 ≤ hay.length →
      FirstAt hay needle (s1 + l1) s1 (lmemfind hay s1 l1 needle) :=
  str_find_plain [97, 0, 98, 0] [98, 0] 1 false ⟨(nospecials_iff _).mpr (by decide +kernel), by decide +kernel⟩

end Luwu.Pattern
