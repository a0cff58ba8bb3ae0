import Luwu.Lib.Scan
import Luwu.Pattern.Find

/-!
# `gsub` and `gmatch`

The subject, the pattern and the replacement are given; a function or a table as the replacement answers with a value and
changes the world.  Room on the stack and in the buffer is not modelled.
-/

namespace Luwu.Pattern

inductive Value (N : Type)
  | nil
  | boolean (b : Bool)
  | number (x : N)
  | string (bytes : List UInt8)
  | other (typename : String)

/-- What the library uses of numbers -/
structure Numbers (N : Type) where
  ofInt : ℤ → N
  tostring : N → List UInt8

def Value.toboolean {N : Type} : Value N → Bool
  | .nil => false
  | .boolean b => b
  | _ => true

/-- The third argument of `gsub`; a number is its text. -/
inductive Replacement (N W : Type)
  | string (news : List UInt8)
  | function (call : List (Value N) → W → Except MatchStop (Value N × W))
  | table (gettable : Value N → W → Except MatchStop (Value N × W))

section

variable {N W : Type} (num : Numbers N) (src pat : List UInt8)

/-- The bytes of the subject that are pushed or added -/
def substring (init : ℕ) (len : ℤ) : Except MatchStop (List UInt8) :=
  if 0 ≤ len ∧ init + len.toNat ≤ src.length then .ok ((src.drop init).take len.toNat) else .error .outOfBounds

/-! ### Captures -/

def push_onecapture (ms : MatchState) (i s e : ℕ) : Except MatchStop (Value N) :=
  if ms.level ≤ i then
    if i = 0 then do return .string (← substring src s (e - s)) -- add whole match
    else .error (.error "invalid capture index")
  else
    let l := (ms.capture i).len
    if l = CAP_UNFINISHED then .error (.error "unfinished capture")
    else if l = CAP_POSITION then .ok (.number (num.ofInt ((ms.capture i).init + 1)))
    else do return .string (← substring src (ms.capture i).init l)

def push_captures (ms : MatchState) (s e : ℕ) : Except MatchStop (List (Value N)) :=
  let nlevels := if ms.level = 0 then 1 else ms.level
  (List.range nlevels).mapM fun i => push_onecapture num src ms i s e

/-! ### The replacement of a match -/

/-- The text of a string or a number, as `luaL_addvalue` adds it -/
def addvalue : Value N → Except MatchStop (List UInt8)
  | .number x => .ok (num.tostring x)
  | .string bytes => .ok bytes
  | _ => .error .outOfBounds

/-- The loop of `add_s` -/
def addLoop (news : List UInt8) (ms : MatchState) (s e : ℕ) (i : ℕ) : Except MatchStop (List UInt8) :=
  if i < news.length then do
    let c ← peek news i
    if c ≠ L_ESC then return c :: (← addLoop news ms s e (i + 1))
    let d ← peek news (i + 1) -- skip ESC
    if !isdigit d then
      if d ≠ L_ESC then throw (.error "invalid use of '%' in replacement string")
      return d :: (← addLoop news ms s e (i + 2))
    let t ← if d = '0'.toUInt8 then substring src s (e - s)
      else do addvalue num (← push_onecapture num src ms (d - '1'.toUInt8).toNat s e)
    return t ++ (← addLoop news ms s e (i + 2))
  else return []
termination_by news.length - i

def add_s (news : List UInt8) (ms : MatchState) (s e : ℕ) : Except MatchStop (List UInt8) := addLoop num src news ms s e 0

/-- What is added for the value that a function or a table answers with -/
def addAnswer (v : Value N) (s e : ℕ) : Except MatchStop (List UInt8) :=
  if !v.toboolean then substring src s (e - s) -- keep original text
  else
    match v with
    | .nil => .error (.error "invalid replacement value (a nil)")
    | .boolean _ => .error (.error "invalid replacement value (a boolean)")
    | .other typename => .error (.error ("invalid replacement value (a " ++ typename ++ ")"))
    | v => addvalue num v

variable (repl : Replacement N W)

def add_value (ms : MatchState) (s e : ℕ) (w : W) : Except MatchStop (List UInt8 × W) :=
  match repl with
  | .function call => do
    let (v, w) ← call (← push_captures num src ms s e) w
    return (← addAnswer num src v s e, w)
  | .table gettable => do
    let (v, w) ← gettable (← push_onecapture num src ms 0 s e) w
    return (← addAnswer num src v s e, w)
  | .string news => do return (← add_s num src news ms s e, w)

/-! ### The loops -/

/-- The loop of `str_gsub`, with the turns that it may still take; `b` is the text that was added. -/
def gsubLoop (anchor : Bool) (p : ℕ) (max_s : ℤ) :
    ℕ → MatchState → ℕ → ℤ → List UInt8 → W → Except MatchStop (List UInt8 × ℕ × ℤ × W)
  | 0, _, _, _, _, _ => .error .fuel
  | turns + 1, ms, s, n, b, w =>
    if n < max_s then do
      let (e, ms) ← matchFrom src pat (reprepstate ms) s p
      let (n, b, w) ← match e with
        | some e => do
          let (t, w) ← add_value num src repl ms s e w
          pure (n + 1, b ++ t, w)
        | none => pure (n, b, w)
      if s < e.getD s then -- non empty match?
        if anchor then return (b, e.getD s, n, w) else gsubLoop anchor p max_s turns ms (e.getD s) n b w
      else if s < src.length then
        let b := b ++ [← peek src s]
        if anchor then return (b, s + 1, n, w) else gsubLoop anchor p max_s turns ms (s + 1) n b w
      else return (b, s, n, w)
    else return (b, s, n, w)

def str_gsub (max_s : Option ℤ) (w : W) : Except MatchStop ((List UInt8 × ℤ) × W) := do
  let max_s := max_s.getD (src.length + 1)
  let anchor : Bool := (← peek pat 0) = '^'.toUInt8
  let (b, s, n, w) ← gsubLoop num src pat repl anchor (if anchor then 1 else 0) max_s (src.length + 1) prepstate 0 0 [] w
  return ((b ++ src.drop s, n), w)

/-- The loop of `gmatch_aux`; the answer has the captures and the position that is kept. -/
def gmatchLoop (ms : MatchState) (s : ℕ) : Except MatchStop (Option (List (Value N) × ℕ)) :=
  if s ≤ src.length then do
    let (e, ms) ← matchFrom src pat (reprepstate ms) s 0
    match e with
    | some e =>
      let newstart := if e = s then e + 1 else e -- empty match? go at least one position
      return some (← push_captures num src ms s e, newstart)
    | none => gmatchLoop ms (s + 1)
  else return none
termination_by src.length + 1 - s

def gmatch_aux (start : ℕ) : Except MatchStop (Option (List (Value N) × ℕ)) := gmatchLoop num src pat prepstate start

/-- What the iterator answers when it is called so many times, up to the call that finds nothing -/
def gmatchCalls : ℕ → ℕ → Except MatchStop (List (List (Value N)))
  | 0, _ => .ok []
  | calls + 1, start => do
    match ← gmatch_aux num src pat start with
    | none => return []
    | some (values, newstart) => return values :: (← gmatchCalls calls newstart)

/-- `gmatch`, called so many times -/
def gmatch (calls : ℕ) : Except MatchStop (List (List (Value N))) := gmatchCalls num src pat calls 0

end

end Luwu.Pattern
