import Mathlib.Tactic

/-!
# The pattern matcher of the string library

`match` and what it calls, on positions of the subject and of the pattern.  A byte is read up to the
terminator of its string, and a read past it stops the run.  Interrupts of the matcher are left out.
-/

namespace Luwu.Pattern

/-- What ends a match other than its result -/
inductive MatchStop
  | error (msg : String)
  | outOfBounds
  | fuel
deriving DecidableEq

/-- The byte at a position; the terminator stands after the last one. -/
def peek (bytes : List UInt8) (i : ℕ) : Except MatchStop UInt8 :=
  if i ≤ bytes.length then .ok (bytes.getD i 0) else .error .outOfBounds

structure Capture where
  init : ℕ
  len : ℤ
deriving DecidableEq

def CAP_UNFINISHED : ℤ := -1

def CAP_POSITION : ℤ := -2

def LUA_MAXCAPTURES : ℕ := 32

def LUAI_MAXCCALLS : ℕ := 200

/-- The part of a `MatchState` that changes -/
structure MatchState where
  matchdepth : ℕ
  level : ℕ
  capture : ℕ → Capture

def L_ESC : UInt8 := '%'.toUInt8

/-! ### Characters of the C locale -/

def isupper (c : UInt8) : Bool := 'A'.toUInt8 ≤ c && c ≤ 'Z'.toUInt8

def islower (c : UInt8) : Bool := 'a'.toUInt8 ≤ c && c ≤ 'z'.toUInt8

def isdigit (c : UInt8) : Bool := '0'.toUInt8 ≤ c && c ≤ '9'.toUInt8

def isalpha (c : UInt8) : Bool := isupper c || islower c

def isalnum (c : UInt8) : Bool := isalpha c || isdigit c

def iscntrl (c : UInt8) : Bool := c < 32 || c = 127

def isgraph (c : UInt8) : Bool := 32 < c && c < 127

def ispunct (c : UInt8) : Bool := isgraph c && !isalnum c

def isspace (c : UInt8) : Bool := c = 32 || (9 ≤ c && c ≤ 13)

def isxdigit (c : UInt8) : Bool :=
  isdigit c || ('A'.toUInt8 ≤ c && c ≤ 'F'.toUInt8) || ('a'.toUInt8 ≤ c && c ≤ 'f'.toUInt8)

def tolower (c : UInt8) : UInt8 := if isupper c then c + 32 else c

def match_class (c cl : UInt8) : Bool :=
  let signed (res : Bool) : Bool := if islower cl then res else !res
  let k := tolower cl
  if k = 'a'.toUInt8 then signed (isalpha c)
  else if k = 'c'.toUInt8 then signed (iscntrl c)
  else if k = 'd'.toUInt8 then signed (isdigit c)
  else if k = 'g'.toUInt8 then signed (isgraph c)
  else if k = 'l'.toUInt8 then signed (islower c)
  else if k = 'p'.toUInt8 then signed (ispunct c)
  else if k = 's'.toUInt8 then signed (isspace c)
  else if k = 'u'.toUInt8 then signed (isupper c)
  else if k = 'w'.toUInt8 then signed (isalnum c)
  else if k = 'x'.toUInt8 then signed (isxdigit c)
  else if k = 'z'.toUInt8 then signed (c = 0)
  else cl = c

section

variable (src pat : List UInt8)

/-! ### Classes -/

/-- The loop of `classend` that looks for the end of a set -/
def classendSet (p : ℕ) : Except MatchStop ℕ :=
  if p = pat.length then .error (.error "malformed pattern (missing ']')")
  else if h : p < pat.length then do
    let c ← peek pat p
    let next := if c = L_ESC ∧ p + 1 < pat.length then p + 2 else p + 1
    if (← peek pat next) = ']'.toUInt8 then return next + 1 else classendSet next
  else .error .outOfBounds
termination_by pat.length - p
decreasing_by split <;> omega

def classend (p : ℕ) : Except MatchStop ℕ := do
  let c ← peek pat p
  if c = L_ESC then
    if p + 1 = pat.length then throw (.error "malformed pattern (ends with '%')")
    return p + 2
  else if c = '['.toUInt8 then
    if (← peek pat (p + 1)) = '^'.toUInt8 then classendSet pat (p + 2) else classendSet pat (p + 1)
  else return p + 1

/-- `while (++p < ec)` of `matchbracketclass` -/
def bracketLoop (c : UInt8) (sig : Bool) (ec p : ℕ) : Except MatchStop Bool :=
  if h : p + 1 < ec then do
    let x ← peek pat (p + 1)
    let y ← peek pat (p + 2)
    if x = L_ESC then
      if match_class c y then return sig else bracketLoop c sig ec (p + 2)
    else if y = '-'.toUInt8 ∧ p + 3 < ec then
      let z ← peek pat (p + 3)
      if x ≤ c ∧ c ≤ z then return sig else bracketLoop c sig ec (p + 3)
    else if x = c then return sig
    else bracketLoop c sig ec (p + 1)
  else return !sig
termination_by ec - p

def matchbracketclass (c : UInt8) (p ec : ℕ) : Except MatchStop Bool := do
  if (← peek pat (p + 1)) = '^'.toUInt8 then bracketLoop pat c false ec (p + 1) else bracketLoop pat c true ec p

def singlematch (s p ep : ℕ) : Except MatchStop Bool :=
  if src.length ≤ s then return false
  else do
    let c ← peek src s
    let x ← peek pat p
    if x = '.'.toUInt8 then return true
    else if x = L_ESC then return match_class c (← peek pat (p + 1))
    else if x = '['.toUInt8 then matchbracketclass pat c p (ep - 1)
    else return x = c

/-- `while (++s < ms->src_end)` of `matchbalance` -/
def balanceLoop (b e : UInt8) (cont s : ℕ) : Except MatchStop (Option ℕ) :=
  if h : s + 1 < src.length then do
    let c ← peek src (s + 1)
    if c = e then
      if cont - 1 = 0 then return some (s + 2) else balanceLoop b e (cont - 1) (s + 1)
    else if c = b then balanceLoop b e (cont + 1) (s + 1)
    else balanceLoop b e cont (s + 1)
  else return none
termination_by src.length - s

def matchbalance (s p : ℕ) : Except MatchStop (Option ℕ) := do
  if pat.length ≤ p + 1 then throw (.error "malformed pattern (missing arguments to '%b')")
  let b ← peek pat p
  if (← peek src s) ≠ b then return none
  balanceLoop src b (← peek pat (p + 1)) 1 s

/-! ### Captures -/

def check_capture (ms : MatchState) (l : UInt8) : Except MatchStop ℕ :=
  let l : ℤ := l.toNat - 49
  if l < 0 ∨ ms.level ≤ l ∨ (ms.capture l.toNat).len = CAP_UNFINISHED then
    .error (.error ("invalid capture index %" ++ toString (l + 1)))
  else .ok l.toNat

/-- `capture_to_close`, down from a level -/
def captureToClose (capture : ℕ → Capture) : ℕ → Except MatchStop ℕ
  | 0 => .error (.error "invalid pattern capture")
  | l + 1 => if (capture l).len = CAP_UNFINISHED then .ok l else captureToClose capture l

def capture_to_close (ms : MatchState) : Except MatchStop ℕ := captureToClose ms.capture ms.level

/-- `memcmp(src + a, src + b, len) == 0` -/
def memcmpEq (a b len : ℕ) : Except MatchStop Bool :=
  if a + len ≤ src.length ∧ b + len ≤ src.length then .ok ((src.drop a).take len = (src.drop b).take len)
  else .error .outOfBounds

/-- The length is compared as a `size_t`, so that of a position capture is larger than any subject. -/
def match_capture (ms : MatchState) (s : ℕ) (l : UInt8) : Except MatchStop (Option ℕ) := do
  let l ← check_capture ms l
  let len := ((ms.capture l).len % 2 ^ 64).toNat
  if len ≤ src.length - s then
    if ← memcmpEq src (ms.capture l).init s len then return some (s + len) else return none
  else return none

def MatchState.setCapture (ms : MatchState) (l : ℕ) (c : Capture) : MatchState :=
  { ms with capture := Function.update ms.capture l c }

/-! ### Matching

`matchAt` is the function `match` itself. -/

abbrev Result := Except MatchStop (Option ℕ × MatchState)

abbrev Matcher := MatchState → ℕ → ℕ → Result

/-- `singlematch` from `s` on, as often as it succeeds -/
def expandCount (p ep s : ℕ) : Except MatchStop ℕ :=
  if h : s < src.length then do
    if ← singlematch src pat s p ep then return (← expandCount p ep (s + 1)) + 1 else return 0
  else return 0
termination_by src.length - s

def maxExpandLoop (matchAt : Matcher) (s p : ℕ) (ms : MatchState) : ℕ → Result
  | 0 => matchAt ms s p
  | i + 1 => do
    let (res, ms) ← matchAt ms (s + (i + 1)) p
    match res with
    | some e => return (some e, ms)
    | none => maxExpandLoop matchAt s p ms i

def max_expand (matchAt : Matcher) (ms : MatchState) (s p ep : ℕ) : Result := do
  maxExpandLoop matchAt s (ep + 1) ms (← expandCount src pat p ep s)

def min_expand (matchAt : Matcher) (p ep : ℕ) (ms : MatchState) (s : ℕ) : Result := do
  let (res, ms) ← matchAt ms s (ep + 1)
  match res with
  | some e => return (some e, ms)
  | none =>
    -- at the end of the subject `singlematch` is false
    if h : s < src.length then
      if ← singlematch src pat s p ep then min_expand matchAt p ep ms (s + 1) else return (none, ms)
    else return (none, ms)
termination_by src.length - s

def start_capture (matchAt : Matcher) (ms : MatchState) (s p : ℕ) (what : ℤ) : Result := do
  if LUA_MAXCAPTURES ≤ ms.level then throw (.error "too many captures")
  let (res, ms) ← matchAt { ms.setCapture ms.level ⟨s, what⟩ with level := ms.level + 1 } s p
  match res with
  | some e => return (some e, ms)
  | none => return (none, { ms with level := ms.level - 1 })

def end_capture (matchAt : Matcher) (ms : MatchState) (s p : ℕ) : Result := do
  let l ← capture_to_close ms
  let (res, ms) ← matchAt (ms.setCapture l ⟨(ms.capture l).init, s - (ms.capture l).init⟩) s p
  match res with
  | some e => return (some e, ms)
  | none => return (none, ms.setCapture l ⟨(ms.capture l).init, CAP_UNFINISHED⟩)

/-- A call of `match`: the label `init` is reached with the depth counted down. -/
def matchCall (init : Matcher) : Matcher := fun ms s p =>
  if ms.matchdepth = 0 then .error (.error "pattern too complex")
  else do
    let (res, ms) ← init { ms with matchdepth := ms.matchdepth - 1 } s p
    return (res, { ms with matchdepth := ms.matchdepth + 1 })

/-- The label `dflt`: a class with an optional suffix -/
def dflt (init : Matcher) (ms : MatchState) (s p : ℕ) : Result := do
  let ep ← classend pat p
  let suffix ← peek pat ep
  if ← singlematch src pat s p ep then
    if suffix = '?'.toUInt8 then
      let (res, ms) ← matchCall init ms (s + 1) (ep + 1)
      match res with
      | some e => return (some e, ms)
      | none => init ms s (ep + 1)
    else if suffix = '+'.toUInt8 then max_expand src pat (matchCall init) ms (s + 1) p ep
    else if suffix = '*'.toUInt8 then max_expand src pat (matchCall init) ms s p ep
    else if suffix = '-'.toUInt8 then min_expand src pat (matchCall init) p ep ms s
    else init ms (s + 1) ep
  else if suffix = '*'.toUInt8 ∨ suffix = '?'.toUInt8 ∨ suffix = '-'.toUInt8 then init ms s (ep + 1)
  else return (none, ms)

/-- `%f`, from its set on -/
def frontier (init : Matcher) (ms : MatchState) (s p : ℕ) : Result := do
  if (← peek pat p) ≠ '['.toUInt8 then throw (.error "missing '[' after '%f' in pattern")
  let ep ← classend pat p
  let previous ← (if s = 0 then .ok 0 else peek src (s - 1) : Except MatchStop UInt8)
  let before ← matchbracketclass pat previous p (ep - 1)
  let after ← matchbracketclass pat (← peek src s) p (ep - 1)
  if !before && after then init ms s ep else return (none, ms)

/-- What stands at the label `init`; `init` in it is a jump back to the label. -/
def initBody (init : Matcher) (ms : MatchState) (s p : ℕ) : Result :=
  if p = pat.length then .ok (some s, ms)
  else do
    let c ← peek pat p
    if c = '('.toUInt8 then
      if (← peek pat (p + 1)) = ')'.toUInt8 then start_capture (matchCall init) ms s (p + 2) CAP_POSITION
      else start_capture (matchCall init) ms s (p + 1) CAP_UNFINISHED
    else if c = ')'.toUInt8 then end_capture (matchCall init) ms s (p + 1)
    else if c = '$'.toUInt8 ∧ p + 1 = pat.length then return (if s = src.length then some s else none, ms)
    else if c = L_ESC then
      let d ← peek pat (p + 1)
      if d = 'b'.toUInt8 then
        match ← matchbalance src pat s (p + 2) with
        | some s => init ms s (p + 4)
        | none => return (none, ms)
      else if d = 'f'.toUInt8 then frontier src pat init ms s (p + 2)
      else if isdigit d then
        match ← match_capture src ms s d with
        | some s => init ms s (p + 2)
        | none => return (none, ms)
      else dflt src pat init ms s p
    else dflt src pat init ms s p

def init : ℕ → Matcher
  | 0 => fun _ _ _ => .error .fuel
  | fuel + 1 => initBody src pat (init fuel)

/-- `match`.  Every jump and every call in it moves on in the pattern. -/
def matchFrom : Matcher := matchCall (init src pat (pat.length + 1))

end

end Luwu.Pattern

/-!
## What a pattern matches

A pattern is read as a list of items.  Its meaning is the list of all its matches from a position, in the
order in which backtracking tries them: a match is an end and the captures there, and an item that is not
well formed stands in the list as its error.
-/

namespace Luwu.Pattern

/-! ### Items -/

inductive SetElem
  | cls (cl : UInt8)
  | range (lo hi : UInt8)
  | lit (b : UInt8)

def SetElem.mem (c : UInt8) : SetElem → Bool
  | cls cl => match_class c cl
  | range lo hi => lo ≤ c ∧ c ≤ hi
  | lit b => b = c

/-- A set, or its complement -/
structure CharSet where
  complement : Bool
  elems : List SetElem

def CharSet.mem (c : UInt8) (s : CharSet) : Bool := s.elems.any (SetElem.mem c) != s.complement

inductive Single
  | any
  | cls (cl : UInt8)
  | set (s : CharSet)
  | lit (b : UInt8)

def Single.mem (c : UInt8) : Single → Bool
  | any => true
  | cls cl => match_class c cl
  | set s => s.mem c
  | lit b => b = c

inductive Repeat
  | one
  | opt
  | star
  | plus
  | lazy

/-- The numbers of repetitions to try where `n` are possible -/
def Repeat.counts (n : ℕ) : Repeat → List ℕ
  | one => if n = 0 then [] else [1]
  | opt => if n = 0 then [0] else [1, 0]
  | star => (List.range (n + 1)).reverse
  | plus => ((List.range n).map (· + 1)).reverse
  | lazy => List.range (n + 1)

inductive Item
  | openCapture
  | openPosition
  | close
  | atEnd
  | balance (b e : UInt8)
  | frontier (s : CharSet)
  | backref (d : UInt8)
  | single (x : Single) (r : Repeat)
  | malformed (msg : String)

/-! ### Reading a pattern -/

section

variable (pat : List UInt8)

/-- The byte at a position, zero after the last one -/
def byteAt (bytes : List UInt8) (i : ℕ) : UInt8 := bytes.getD i 0

/-- The elements between `p`, where a set opens, and `ec`, where it closes -/
def setElems (ec p : ℕ) : List SetElem :=
  if h : p + 1 < ec then
    let x := byteAt pat (p + 1)
    let y := byteAt pat (p + 2)
    if x = L_ESC then .cls y :: setElems ec (p + 2)
    else if y = '-'.toUInt8 ∧ p + 3 < ec then .range x (byteAt pat (p + 3)) :: setElems ec (p + 3)
    else .lit x :: setElems ec (p + 1)
  else []
termination_by ec - p

def charSet (p ec : ℕ) : CharSet :=
  if byteAt pat (p + 1) = '^'.toUInt8 then ⟨true, setElems pat ec (p + 1)⟩ else ⟨false, setElems pat ec p⟩

/-- The class at `p`, which ends before `ep` -/
def singleAt (p ep : ℕ) : Single :=
  let x := byteAt pat p
  if x = '.'.toUInt8 then .any
  else if x = L_ESC then .cls (byteAt pat (p + 1))
  else if x = '['.toUInt8 then .set (charSet pat p (ep - 1))
  else .lit x

/-- The suffix at `ep` and the place after it -/
def suffixAt (ep : ℕ) : Repeat × ℕ :=
  let x := byteAt pat ep
  if x = '?'.toUInt8 then (.opt, ep + 1)
  else if x = '+'.toUInt8 then (.plus, ep + 1)
  else if x = '*'.toUInt8 then (.star, ep + 1)
  else if x = '-'.toUInt8 then (.lazy, ep + 1)
  else (.one, ep)

/-- A position where a class ends, or an item that says why there is none -/
def withEnd (end_ : Except MatchStop ℕ) (f : ℕ → Item × ℕ) : Item × ℕ :=
  match end_ with
  | .ok ep => f ep
  | .error (.error msg) => (.malformed msg, pat.length)
  | .error _ => (.malformed "", pat.length)

def classAt (p : ℕ) : Item × ℕ :=
  withEnd pat (classend pat p) fun ep => (.single (singleAt pat p ep) (suffixAt pat ep).1, (suffixAt pat ep).2)

/-- The item at a position and the place after it -/
def itemAt (p : ℕ) : Item × ℕ :=
  let c := byteAt pat p
  let d := byteAt pat (p + 1)
  if c = '('.toUInt8 then if d = ')'.toUInt8 then (.openPosition, p + 2) else (.openCapture, p + 1)
  else if c = ')'.toUInt8 then (.close, p + 1)
  else if c = '$'.toUInt8 ∧ p + 1 = pat.length then (.atEnd, p + 1)
  else if c = L_ESC then
    if d = 'b'.toUInt8 then
      if pat.length ≤ p + 3 then (.malformed "malformed pattern (missing arguments to '%b')", pat.length)
      else (.balance (byteAt pat (p + 2)) (byteAt pat (p + 3)), p + 4)
    else if d = 'f'.toUInt8 then
      if byteAt pat (p + 2) ≠ '['.toUInt8 then (.malformed "missing '[' after '%f' in pattern", pat.length)
      else withEnd pat (classend pat (p + 2)) fun ep => (.frontier (charSet pat (p + 2) (ep - 1)), ep)
    else if isdigit d then (.backref d, p + 2)
    else classAt pat p
  else classAt pat p

end

/-! ### Matches -/

section

variable (src : List UInt8)

abbrev Captures := List Capture

/-- How often a class matches from `s` on -/
def runLength (x : Single) (s : ℕ) : ℕ := ((src.drop s).takeWhile x.mem).length

/-- How deep the brackets `b` and `e` are nested after position `k`, with one open at `s`; a byte that is
both closes. -/
def nesting (b e : UInt8) (s k : ℕ) : ℤ :=
  1 + (((src.drop (s + 1)).take (k - s)).map fun c => if c = e then (-1 : ℤ) else if c = b then 1 else 0).sum

/-- The end of the balanced string that opens at `s`: after the first byte that closes it -/
def balanceEnd (b e : UInt8) (s : ℕ) : Option ℕ :=
  if byteAt src s = b then
    ((List.range' (s + 1) (src.length - (s + 1))).find? fun k => nesting src b e s k = 0).map (· + 1)
  else none

/-- The last capture that is open -/
def lastOpen (caps : Captures) : Option ℕ :=
  (List.range caps.length).reverse.find? fun l => (caps.getD l ⟨0, 0⟩).len = CAP_UNFINISHED

/-- The capture that a back reference names -/
def backref (caps : Captures) (d : UInt8) : Except String Capture :=
  let l : ℤ := d.toNat - 49
  if l < 0 ∨ caps.length ≤ l ∨ (caps.getD l.toNat ⟨0, 0⟩).len = CAP_UNFINISHED then
    .error ("invalid capture index %" ++ toString (l + 1))
  else .ok (caps.getD l.toNat ⟨0, 0⟩)

/-- The subject has the text of a capture at `s`; the text of a position is nowhere. -/
def textAt (c : Capture) (s : ℕ) : Bool :=
  0 ≤ c.len ∧ s + c.len.toNat ≤ src.length ∧
    (src.drop c.init).take c.len.toNat = (src.drop s).take c.len.toNat

abbrev Outcome := Except String (ℕ × Captures)

/-- All matches of the items from `s`, in the order in which they are tried -/
def ways : List Item → ℕ → Captures → List Outcome
  | [], s, caps => [.ok (s, caps)]
  | .malformed msg :: _, _, _ => [.error msg]
  | .openCapture :: rest, s, caps =>
    if LUA_MAXCAPTURES ≤ caps.length then [.error "too many captures"]
    else ways rest s (caps ++ [⟨s, CAP_UNFINISHED⟩])
  | .openPosition :: rest, s, caps =>
    if LUA_MAXCAPTURES ≤ caps.length then [.error "too many captures"]
    else ways rest s (caps ++ [⟨s, CAP_POSITION⟩])
  | .close :: rest, s, caps =>
    match lastOpen caps with
    | none => [.error "invalid pattern capture"]
    | some l => ways rest s (caps.set l ⟨(caps.getD l ⟨0, 0⟩).init, s - (caps.getD l ⟨0, 0⟩).init⟩)
  | .atEnd :: rest, s, caps => if s = src.length then ways rest s caps else []
  | .balance b e :: rest, s, caps =>
    match balanceEnd src b e s with
    | none => []
    | some t => ways rest t caps
  | .frontier set :: rest, s, caps =>
    let previous := if s = 0 then 0 else byteAt src (s - 1)
    if !set.mem previous && set.mem (byteAt src s) then ways rest s caps else []
  | .backref d :: rest, s, caps =>
    match backref caps d with
    | .error msg => [.error msg]
    | .ok c => if textAt src c s then ways rest (s + c.len.toNat) caps else []
  | .single x r :: rest, s, caps => (r.counts (runLength src x s)).flatMap fun i => ways rest (s + i) caps

end

end Luwu.Pattern
