import Luwu.Text.Fixup

/-!
# Quoting and lexing strings

The texts that `escape` and `string.format('%q')` write for a string, and how the lexer reads the tokens of strings.  Every byte
is written as a byte, as a backslash and a character, or as a backslash and three digits, none of which is read in another way
for what follows it.  So a text is one token, and its contents are decoded to the string.  The offsets are natural numbers; lines
and tokens that are not strings are left out.
-/

namespace Luwu.Escapes

/-! ### Writing -/

/-- `%03u` -/
def threeDigits (c : Byte) : List Byte :=
  [UInt8.ofNat (48 + c.toNat / 100), UInt8.ofNat (48 + c.toNat / 10 % 10), UInt8.ofNat (48 + c.toNat % 10)]

/-- What `escape` writes for a character -/
def escapeChar (escapeForInterpString : Bool) (c : Byte) : List Byte :=
  if c ≥ ' '.toUInt8 && c ≠ '\\'.toUInt8 && c ≠ '\''.toUInt8 && c ≠ '"'.toUInt8 && c ≠ '`'.toUInt8 && c ≠ '{'.toUInt8 then [c]
  else if escapeForInterpString && (c = '`'.toUInt8 || c = '{'.toUInt8) then ['\\'.toUInt8, c]
  else if c = 7 then ['\\'.toUInt8, 'a'.toUInt8]
  else if c = 8 then ['\\'.toUInt8, 'b'.toUInt8]
  else if c = 12 then ['\\'.toUInt8, 'f'.toUInt8]
  else if c = '\n'.toUInt8 then ['\\'.toUInt8, 'n'.toUInt8]
  else if c = '\r'.toUInt8 then ['\\'.toUInt8, 'r'.toUInt8]
  else if c = '\t'.toUInt8 then ['\\'.toUInt8, 't'.toUInt8]
  else if c = 11 then ['\\'.toUInt8, 'v'.toUInt8]
  else if c = '\''.toUInt8 then ['\\'.toUInt8, '\''.toUInt8]
  else if c = '"'.toUInt8 then ['\\'.toUInt8, '"'.toUInt8]
  else if c = '\\'.toUInt8 then ['\\'.toUInt8, '\\'.toUInt8]
  else '\\'.toUInt8 :: threeDigits c

def escapeString (s : List Byte) (escapeForInterpString : Bool) : List Byte := s.flatMap (escapeChar escapeForInterpString)

/-- What `addquoted` writes for a character -/
def quotedChar (c : Byte) : List Byte :=
  if c = '"'.toUInt8 || c = '\\'.toUInt8 || c = '\n'.toUInt8 then ['\\'.toUInt8, c]
  else if c = '\r'.toUInt8 then ['\\'.toUInt8, 'r'.toUInt8]
  else if c = 0 then ['\\'.toUInt8, '0'.toUInt8, '0'.toUInt8, '0'.toUInt8]
  else [c]

def addquoted (s : List Byte) : List Byte := '"'.toUInt8 :: s.flatMap quotedChar ++ ['"'.toUInt8]

/-! ### Lexing -/

inductive BraceType where
  | interpolatedString
  | normal
  deriving DecidableEq

/-- The tokens of strings, with the place and the length of their contents -/
inductive Lexeme where
  | eof
  | quotedString (start length : ℕ)
  | interpStringBegin (start length : ℕ)
  | interpStringSimple (start length : ℕ)
  | brokenInterpDoubleBrace (start length : ℕ)
  | brokenString
  deriving DecidableEq

structure Lexer where
  buffer : List Byte
  offset : ℕ
  braceStack : List BraceType
  deriving DecidableEq

section Lexing

variable (buffer : List Byte)

/-- `peekch()`, which is zero behind the end -/
def peekch (offset : ℕ) : Byte := charAt buffer offset

/-- Where `readBackslashInString` ends -/
def readBackslashInString (offset : ℕ) : ℕ :=
  let offset := offset + 1
  if peekch buffer offset = '\r'.toUInt8 then
    if peekch buffer (offset + 1) = '\n'.toUInt8 then offset + 2 else offset + 1
  else if peekch buffer offset = 0 then offset
  else if peekch buffer offset = 'z'.toUInt8 then spaceLoop buffer (buffer.length - (offset + 1)) (offset + 1)
  else offset + 1

/-- How a loop ends: at the delimiter, at a brace, at two, or where a string may not go on -/
inductive Stopped where
  | closed (offset : ℕ)
  | brace (offset : ℕ)
  | doubleBrace (offset : ℕ)
  | broken (offset : ℕ)

/-- The loop of `readQuotedString` -/
def quotedLoop (delimiter : Byte) : ℕ → ℕ → Option Stopped
  | 0, _ => none
  | n + 1, offset =>
    if peekch buffer offset = delimiter then some (.closed offset)
    else if peekch buffer offset = 0 || peekch buffer offset = '\r'.toUInt8 || peekch buffer offset = '\n'.toUInt8 then
      some (.broken offset)
    else if peekch buffer offset = '\\'.toUInt8 then quotedLoop delimiter n (readBackslashInString buffer offset)
    else quotedLoop delimiter n (offset + 1)

/-- The loop of `readInterpolatedStringSection` -/
def interpolatedLoop : ℕ → ℕ → Option Stopped
  | 0, _ => none
  | n + 1, offset =>
    if peekch buffer offset = '`'.toUInt8 then some (.closed offset)
    else if peekch buffer offset = 0 || peekch buffer offset = '\r'.toUInt8 || peekch buffer offset = '\n'.toUInt8 then
      some (.broken offset)
    else if peekch buffer offset = '\\'.toUInt8 then
      if peekch buffer (offset + 1) = 'u'.toUInt8 && peekch buffer (offset + 2) = '{'.toUInt8 then
        interpolatedLoop n (offset + 3)
      else interpolatedLoop n (readBackslashInString buffer offset)
    else if peekch buffer offset = '{'.toUInt8 then
      if peekch buffer (offset + 1) = '{'.toUInt8 then some (.doubleBrace offset) else some (.brace offset)
    else interpolatedLoop n (offset + 1)

end Lexing

def Lexer.readQuotedString (l : Lexer) : Option (Lexeme × Lexer) :=
  let start := l.offset + 1
  match quotedLoop l.buffer (peekch l.buffer l.offset) (l.buffer.length + 1) start with
  | some (.closed offset) => some (.quotedString start (offset - start), { l with offset := offset + 1 })
  | some (.broken offset) => some (.brokenString, { l with offset := offset })
  | _ => none

def Lexer.readInterpolatedStringBegin (l : Lexer) : Option (Lexeme × Lexer) :=
  let start := l.offset + 1
  match interpolatedLoop l.buffer (l.buffer.length + 1) start with
  | some (.closed offset) => some (.interpStringSimple start (offset - start), { l with offset := offset + 1 })
  | some (.brace offset) =>
    some (.interpStringBegin start (offset - start),
      { l with offset := offset + 1, braceStack := .interpolatedString :: l.braceStack })
  | some (.doubleBrace offset) =>
    some (.brokenInterpDoubleBrace start (offset - start),
      { l with offset := offset + 2, braceStack := .interpolatedString :: l.braceStack })
  | some (.broken offset) => some (.brokenString, { l with offset := offset })
  | none => none

/-- The next token, if it is a string or the end -/
def Lexer.next (l : Lexer) : Option (Lexeme × Lexer) :=
  let l := { l with offset := spaceLoop l.buffer (l.buffer.length - l.offset) l.offset }
  if peekch l.buffer l.offset = 0 then some (.eof, l)
  else if peekch l.buffer l.offset = '"'.toUInt8 || peekch l.buffer l.offset = '\''.toUInt8 then l.readQuotedString
  else if peekch l.buffer l.offset = '`'.toUInt8 then l.readInterpolatedStringBegin
  else none

/-! ### One byte of a string -/

variable {buffer rest tail u s text : List Byte} {c delimiter x : Byte} {offset n : ℕ} {stops : Byte → Bool}

/-- A byte for itself, an escape of one character, or one of three digits -/
def unitOk (stops : Byte → Bool) (c : Byte) : List Byte → Bool
  | [x] => x = c && x ≠ '\\'.toUInt8 && !stops x
  | [b, e] =>
    b = '\\'.toUInt8 && e ≠ '\r'.toUInt8 && e ≠ 0 && e ≠ 'x'.toUInt8 && e ≠ 'z'.toUInt8 && e ≠ 'u'.toUInt8 &&
      !isDigit e && (if e = '\n'.toUInt8 then c = '\n'.toUInt8 else unescape e = c)
  | [b, d₁, d₂, d₃] =>
    b = '\\'.toUInt8 && isDigit d₁ && isDigit d₂ && isDigit d₃ && decimalValue [d₁, d₂, d₃] = c.toNat
  | _ => false

/-- Where the loop over a quoted string stops -/
def quotedStops (delimiter x : Byte) : Bool :=
  x = delimiter || x = 0 || x = '\r'.toUInt8 || x = '\n'.toUInt8

/-- Where the loop over an interpolated string stops -/
def interpolatedStops (x : Byte) : Bool := quotedStops '`'.toUInt8 x || x = '{'.toUInt8

/-- What holds of all bytes -/
theorem forall_byte {P : Byte → Prop} (h : ∀ x : Fin 256, P (UInt8.ofFin x)) (c : Byte) : P c := h c.toFin

theorem quotedChar_ok (c : Byte) : unitOk (quotedStops '"'.toUInt8) c (quotedChar c) = true :=
  forall_byte (P := fun c => unitOk (quotedStops '"'.toUInt8) c (quotedChar c) = true) (by decide +kernel) c

theorem escapeChar_ok (c : Byte) : unitOk (quotedStops '"'.toUInt8) c (escapeChar false c) = true :=
  forall_byte (P := fun c => unitOk (quotedStops '"'.toUInt8) c (escapeChar false c) = true) (by decide +kernel) c

theorem escapeChar_interp_ok (c : Byte) : unitOk interpolatedStops c (escapeChar true c) = true :=
  forall_byte (P := fun c => unitOk interpolatedStops c (escapeChar true c) = true) (by decide +kernel) c

/-- A digit is no other character of an escape, and no loop stops at it. -/
theorem digit_spec {d : Byte} (h : isDigit d = true) :
    d ≠ '\n'.toUInt8 ∧ d ≠ '\r'.toUInt8 ∧ d ≠ 0 ∧ d ≠ 'x'.toUInt8 ∧ d ≠ 'z'.toUInt8 ∧ d ≠ 'u'.toUInt8 ∧ d ≠ '\\'.toUInt8 ∧
      quotedStops '"'.toUInt8 d = false ∧ interpolatedStops d = false := by
  revert h
  exact forall_byte (P := fun d => isDigit d = true → d ≠ '\n'.toUInt8 ∧ d ≠ '\r'.toUInt8 ∧ d ≠ 0 ∧ d ≠ 'x'.toUInt8 ∧
    d ≠ 'z'.toUInt8 ∧ d ≠ 'u'.toUInt8 ∧ d ≠ '\\'.toUInt8 ∧ quotedStops '"'.toUInt8 d = false ∧
    interpolatedStops d = false) (by decide +kernel) d

/-- The three forms of a byte -/
inductive Written (stops : Byte → Bool) (c : Byte) : List Byte → Prop where
  | plain (hc : c ≠ '\\'.toUInt8) (hstops : stops c = false) : Written stops c [c]
  | simple (e : Byte) (hr : e ≠ '\r'.toUInt8) (h0 : e ≠ 0) (hx : e ≠ 'x'.toUInt8) (hz : e ≠ 'z'.toUInt8) (hu : e ≠ 'u'.toUInt8)
      (hdigit : isDigit e = false) (hc : (if e = '\n'.toUInt8 then '\n'.toUInt8 else unescape e) = c) :
      Written stops c ['\\'.toUInt8, e]
  | digits (d₁ d₂ d₃ : Byte) (h₁ : isDigit d₁ = true) (h₂ : isDigit d₂ = true) (h₃ : isDigit d₃ = true)
      (hvalue : decimalValue [d₁, d₂, d₃] = c.toNat) : Written stops c ['\\'.toUInt8, d₁, d₂, d₃]

theorem written_of_ok (h : unitOk stops c u = true) : Written stops c u := by
  unfold unitOk at h
  split at h
  · simp only [Bool.and_eq_true, decide_eq_true_eq, Bool.not_eq_true', ne_eq, decide_not] at h
    obtain ⟨⟨rfl, hc⟩, hstops⟩ := h
    exact .plain (by simpa using hc) hstops
  · simp only [Bool.and_eq_true, decide_eq_true_eq, Bool.not_eq_true', ne_eq, decide_not, decide_eq_false_iff_not] at h
    obtain ⟨⟨⟨⟨⟨⟨⟨rfl, hr⟩, h0⟩, hx⟩, hz⟩, hu⟩, hdigit⟩, hc⟩ := h
    refine .simple _ hr h0 hx hz hu hdigit ?_
    split at hc
    · next he => rw [if_pos he, of_decide_eq_true hc]
    · next he => rw [if_neg he, of_decide_eq_true hc]
  · simp only [Bool.and_eq_true, decide_eq_true_eq] at h
    obtain ⟨⟨⟨⟨rfl, h₁⟩, h₂⟩, h₃⟩, hvalue⟩ := h
    exact .digits _ _ _ h₁ h₂ h₃ hvalue
  · cases h

/-- What is written for a byte stands for it, whatever follows. -/
theorem Written.piece (h : Written stops c u) (rest : List Byte) : piece (u ++ rest) = some (.bytes [c], rest) := by
  cases h with
  | plain hc _ =>
    rw [List.singleton_append, piece_cons, if_neg hc]
  | simple e hr h0 hx hz hu hdigit hc =>
    rw [List.cons_append, List.singleton_append, piece_cons, if_pos rfl]
    unfold escape
    dsimp only
    rw [if_neg hr, if_neg h0, if_neg hx, if_neg hz, if_neg hu, hdigit]
    split at hc
    · next he => rw [if_pos he, ← hc]
    · next he => rw [if_neg he, ← hc]; rfl
  | digits d₁ d₂ d₃ h₁ h₂ h₃ hvalue =>
    obtain ⟨hn, hr, h0, hx, hz, hu, -⟩ := digit_spec h₁
    have hdigits : ((d₁ :: d₂ :: d₃ :: rest).take 3).takeWhile isDigit = [d₁, d₂, d₃] := by
      simp [h₁, h₂, h₃]
    show Luwu.Escapes.piece ('\\'.toUInt8 :: d₁ :: d₂ :: d₃ :: rest) = _
    rw [piece_cons, if_pos rfl]
    unfold escape
    dsimp only
    rw [if_neg hn, if_neg hr, if_neg h0, if_neg hx, if_neg hz, if_neg hu, if_pos h₁]
    unfold decimalEscape
    dsimp only
    rw [hdigits, hvalue, if_pos (by have := c.toNat_lt; omega)]
    simp

/-! ### The loops -/

/-- The lexer goes over what a backslash and a character stand for. -/
theorem readBackslash_of_drop {e : Byte} (h : buffer.drop offset = '\\'.toUInt8 :: e :: rest) (hr : e ≠ '\r'.toUInt8)
    (h0 : e ≠ 0) (hz : e ≠ 'z'.toUInt8) : readBackslashInString buffer offset = offset + 2 := by
  have he : peekch buffer (offset + 1) = e := charAt_of_drop (drop_succ h)
  unfold readBackslashInString
  dsimp only
  rw [he, if_neg hr, if_neg h0, if_neg hz]

theorem quotedLoop_plain (h : buffer.drop offset = x :: rest) (hx : x ≠ '\\'.toUInt8)
    (hstops : quotedStops delimiter x = false) (n : ℕ) :
    quotedLoop buffer delimiter (n + 1) offset = quotedLoop buffer delimiter n (offset + 1) := by
  simp only [quotedStops, Bool.or_eq_false_iff, decide_eq_false_iff_not] at hstops
  obtain ⟨⟨⟨hd, h0⟩, hr⟩, hn⟩ := hstops
  have hat : peekch buffer offset = x := charAt_of_drop h
  rw [quotedLoop, hat, if_neg hd, if_neg (by simp [h0, hr, hn]), if_neg hx]

theorem quotedLoop_escape {e : Byte} (h : buffer.drop offset = '\\'.toUInt8 :: e :: rest) (hr : e ≠ '\r'.toUInt8)
    (h0 : e ≠ 0) (hz : e ≠ 'z'.toUInt8) (n : ℕ) :
    quotedLoop buffer '"'.toUInt8 (n + 1) offset = quotedLoop buffer '"'.toUInt8 n (offset + 2) := by
  have hat : peekch buffer offset = '\\'.toUInt8 := charAt_of_drop h
  rw [quotedLoop, hat, if_neg (by decide), if_neg (by decide), if_pos rfl, readBackslash_of_drop h hr h0 hz]

theorem interpolatedLoop_plain (h : buffer.drop offset = x :: rest) (hx : x ≠ '\\'.toUInt8)
    (hstops : interpolatedStops x = false) (n : ℕ) :
    interpolatedLoop buffer (n + 1) offset = interpolatedLoop buffer n (offset + 1) := by
  simp only [interpolatedStops, quotedStops, Bool.or_eq_false_iff, decide_eq_false_iff_not] at hstops
  obtain ⟨⟨⟨⟨hd, h0⟩, hr⟩, hn⟩, hbrace⟩ := hstops
  have hat : peekch buffer offset = x := charAt_of_drop h
  rw [interpolatedLoop, hat, if_neg hd, if_neg (by simp [h0, hr, hn]), if_neg hx, if_neg hbrace]

theorem interpolatedLoop_escape {e : Byte} (h : buffer.drop offset = '\\'.toUInt8 :: e :: rest) (hr : e ≠ '\r'.toUInt8)
    (h0 : e ≠ 0) (hz : e ≠ 'z'.toUInt8) (hu : e ≠ 'u'.toUInt8) (n : ℕ) :
    interpolatedLoop buffer (n + 1) offset = interpolatedLoop buffer n (offset + 2) := by
  have hat : peekch buffer offset = '\\'.toUInt8 := charAt_of_drop h
  have hat' : peekch buffer (offset + 1) = e := charAt_of_drop (drop_succ h)
  rw [interpolatedLoop, hat, hat', if_neg (by decide), if_neg (by decide), if_pos rfl, if_neg (by simp [hu]),
    readBackslash_of_drop h hr h0 hz]

/-- A loop that goes over what is written for a byte -/
def Passes (buffer : List Byte) (loop : ℕ → ℕ → Option Stopped) (u : List Byte) : Prop :=
  ∀ offset rest, buffer.drop offset = u ++ rest → ∃ k ≤ u.length, ∀ n, loop (n + k) offset = loop n (offset + u.length)

/-- A loop that goes over bytes and over escapes goes over what is written for a byte. -/
theorem Written.passes {loop : ℕ → ℕ → Option Stopped} (h : Written stops c u)
    (hplain : ∀ {offset x rest}, buffer.drop offset = x :: rest → x ≠ '\\'.toUInt8 → stops x = false →
      ∀ n, loop (n + 1) offset = loop n (offset + 1))
    (hescape : ∀ {offset e rest}, buffer.drop offset = '\\'.toUInt8 :: e :: rest → e ≠ '\r'.toUInt8 → e ≠ 0 →
      e ≠ 'z'.toUInt8 → e ≠ 'u'.toUInt8 → ∀ n, loop (n + 1) offset = loop n (offset + 2))
    (hdigit : ∀ d, isDigit d = true → stops d = false) : Passes buffer loop u := by
  intro offset rest hdrop
  cases h with
  | plain hc hstops => exact ⟨1, by simp, hplain hdrop hc hstops⟩
  | simple e hr h0 _ hz hu _ _ => exact ⟨1, by simp, hescape hdrop hr h0 hz hu⟩
  | digits d₁ d₂ d₃ h₁ h₂ h₃ _ =>
    have hback : buffer.drop (offset + 2) = d₂ :: d₃ :: rest := drop_succ (drop_succ hdrop)
    obtain ⟨-, hr, h0, -, hz, hu, -⟩ := digit_spec h₁
    obtain ⟨-, -, -, -, -, -, hb₂, -⟩ := digit_spec h₂
    obtain ⟨-, -, -, -, -, -, hb₃, -⟩ := digit_spec h₃
    refine ⟨3, by simp, fun n => ?_⟩
    rw [show n + 3 = n + 1 + 1 + 1 by omega, hescape hdrop hr h0 hz hu, hplain hback hb₂ (hdigit d₂ h₂),
      hplain (drop_succ hback) hb₃ (hdigit d₃ h₃)]
    rfl

theorem Passes.flatMap {loop : ℕ → ℕ → Option Stopped} {f : Byte → List Byte} (h : ∀ c, Passes buffer loop (f c)) :
    Passes buffer loop (s.flatMap f) := by
  induction s with
  | nil => exact fun offset rest _ => ⟨0, le_rfl, fun n => rfl⟩
  | cons c s ih =>
    intro offset rest hdrop
    rw [List.flatMap_cons, List.append_assoc] at hdrop
    obtain ⟨k, hk, hloop⟩ := h c offset _ hdrop
    have hrest : buffer.drop (offset + (f c).length) = s.flatMap f ++ rest := by
      rw [← List.drop_drop, hdrop, List.drop_left]
    obtain ⟨m, hm, hloop'⟩ := ih _ _ hrest
    refine ⟨m + k, by rw [List.flatMap_cons, List.length_append]; omega, fun n => ?_⟩
    rw [← Nat.add_assoc, hloop, hloop', List.flatMap_cons, List.length_append, Nat.add_assoc]

/-- A text that is read back as what was written -/
theorem decodes_flatMap {rule : ℕ → List Byte → Option ℕ} {f : Byte → List Byte} (h : ∀ c, Written stops c (f c)) :
    Decodes rule (s.flatMap f) s := by
  induction s with
  | nil => exact decodes_nil.mpr rfl
  | cons c s ih =>
    rw [List.flatMap_cons, decodes_cons ((h c).piece _)]
    exact ⟨[c], s, rfl, ih, rfl⟩

/-! ### Texts -/

theorem spaceLoop_stop {i : ℕ} (h : isSpace (charAt buffer i) = false) : spaceLoop buffer n i = i := by
  cases n with
  | zero => rfl
  | succ n =>
    unfold spaceLoop
    rw [h, if_neg (by simp)]

/-- The text is one token of its length whatever follows it, nothing comes after it, and its contents are decoded to `s`. -/
def ReadsBack (text s : List Byte) (token : ℕ → ℕ → Lexeme) : Prop :=
  (∀ tail, Lexer.next ⟨text ++ tail, 0, []⟩ =
    some (token 1 (text.length - 2), ⟨text ++ tail, text.length, []⟩)) ∧
  Lexer.next ⟨text, text.length, []⟩ = some (.eof, ⟨text, text.length, []⟩) ∧
  fixupQuotedString ((text.drop 1).take (text.length - 2)) = some s

theorem next_end (text : List Byte) : Lexer.next ⟨text, text.length, []⟩ = some (.eof, ⟨text, text.length, []⟩) := by
  have hend : charAt text text.length = 0 := by
    rw [charAt, List.getD_eq_getElem?_getD, List.getElem?_eq_none le_rfl]
    rfl
  unfold Lexer.next peekch
  dsimp only
  rw [spaceLoop_stop (by rw [hend]; decide), hend, if_pos rfl]

section Texts

variable {f : Byte → List Byte} {body : List Byte}

/-- The loop that goes over what is written for each byte stops at the delimiter. -/
theorem loop_closes {loop : ℕ → ℕ → Option Stopped} (hpasses : Passes buffer loop body)
    (hdrop : buffer.drop 1 = body ++ delimiter :: tail)
    (hclose : ∀ offset n, charAt buffer offset = delimiter → loop (n + 1) offset = some (.closed offset)) :
    loop (buffer.length + 1) 1 = some (.closed (1 + body.length)) := by
  obtain ⟨k, hk, hloop⟩ := hpasses 1 _ hdrop
  have hrest : buffer.drop (1 + body.length) = delimiter :: tail := by
    rw [← List.drop_drop, hdrop, List.drop_left]
  have hlength := lt_of_drop hrest
  rw [show buffer.length + 1 = (buffer.length - k) + 1 + k by omega, hloop, hclose _ _ (charAt_of_drop hrest)]

theorem next_quoted (h : ∀ buffer, Passes buffer (quotedLoop buffer '"'.toUInt8) body) (tail : List Byte) :
    Lexer.next ⟨'"'.toUInt8 :: body ++ ['"'.toUInt8] ++ tail, 0, []⟩ =
      some (.quotedString 1 body.length, ⟨'"'.toUInt8 :: body ++ ['"'.toUInt8] ++ tail, body.length + 2, []⟩) := by
  have hdrop : ('"'.toUInt8 :: body ++ ['"'.toUInt8] ++ tail).drop 1 = body ++ '"'.toUInt8 :: tail := by simp
  have hfirst : charAt ('"'.toUInt8 :: body ++ ['"'.toUInt8] ++ tail) 0 = '"'.toUInt8 := rfl
  generalize '"'.toUInt8 :: body ++ ['"'.toUInt8] ++ tail = buffer at hdrop hfirst
  have hclose : ∀ offset n, charAt buffer offset = '"'.toUInt8 →
      quotedLoop buffer '"'.toUInt8 (n + 1) offset = some (.closed offset) := by
    intro offset n hat
    unfold quotedLoop peekch
    rw [if_pos hat]
  unfold Lexer.next Lexer.readQuotedString peekch
  dsimp only
  rw [spaceLoop_stop (by rw [hfirst]; decide), hfirst, if_neg (by decide), if_pos (by decide),
    loop_closes (h buffer) hdrop hclose]
  simp only [Nat.zero_add, Option.some.injEq, Prod.mk.injEq, Lexeme.quotedString.injEq, Lexer.mk.injEq, true_and, and_true]
  omega

theorem next_interpolated (h : ∀ buffer, Passes buffer (interpolatedLoop buffer) body) (tail : List Byte) :
    Lexer.next ⟨'`'.toUInt8 :: body ++ ['`'.toUInt8] ++ tail, 0, []⟩ =
      some (.interpStringSimple 1 body.length, ⟨'`'.toUInt8 :: body ++ ['`'.toUInt8] ++ tail, body.length + 2, []⟩) := by
  have hdrop : ('`'.toUInt8 :: body ++ ['`'.toUInt8] ++ tail).drop 1 = body ++ '`'.toUInt8 :: tail := by simp
  have hfirst : charAt ('`'.toUInt8 :: body ++ ['`'.toUInt8] ++ tail) 0 = '`'.toUInt8 := rfl
  generalize '`'.toUInt8 :: body ++ ['`'.toUInt8] ++ tail = buffer at hdrop hfirst
  have hclose : ∀ offset n, charAt buffer offset = '`'.toUInt8 →
      interpolatedLoop buffer (n + 1) offset = some (.closed offset) := by
    intro offset n hat
    unfold interpolatedLoop peekch
    rw [if_pos hat]
  unfold Lexer.next Lexer.readInterpolatedStringBegin peekch
  dsimp only
  rw [spaceLoop_stop (by rw [hfirst]; decide), hfirst, if_neg (by decide), if_neg (by decide), if_pos rfl,
    loop_closes (h buffer) hdrop hclose]
  simp only [Nat.zero_add, Option.some.injEq, Prod.mk.injEq, Lexeme.interpStringSimple.injEq, Lexer.mk.injEq, true_and,
    and_true]
  omega

theorem quoted_passes (h : ∀ c, Written (quotedStops '"'.toUInt8) c (f c)) (s buffer : List Byte) :
    Passes buffer (quotedLoop buffer '"'.toUInt8) (s.flatMap f) := by
  refine Passes.flatMap fun c => (h c).passes ?_ ?_ ?_
  · exact fun hdrop hx hstops n => quotedLoop_plain hdrop hx hstops n
  · exact fun hdrop hr h0 hz _ n => quotedLoop_escape hdrop hr h0 hz n
  · intro d hd
    obtain ⟨-, -, -, -, -, -, -, hstops, -⟩ := digit_spec hd
    exact hstops

theorem interpolated_passes (h : ∀ c, Written interpolatedStops c (f c)) (s buffer : List Byte) :
    Passes buffer (interpolatedLoop buffer) (s.flatMap f) := by
  refine Passes.flatMap fun c => (h c).passes ?_ ?_ ?_
  · exact fun hdrop hx hstops n => interpolatedLoop_plain hdrop hx hstops n
  · exact fun hdrop hr h0 hz hu n => interpolatedLoop_escape hdrop hr h0 hz hu n
  · intro d hd
    obtain ⟨-, -, -, -, -, -, -, -, hstops⟩ := digit_spec hd
    exact hstops

theorem fixup_contents (h : ∀ c, Written stops c (f c)) (s : List Byte) (delimiter : Byte) :
    fixupQuotedString (((delimiter :: s.flatMap f ++ [delimiter]).drop 1).take (s.flatMap f).length) = some s := by
  have hcontents : ((delimiter :: s.flatMap f ++ [delimiter]).drop 1).take (s.flatMap f).length = s.flatMap f := by simp
  rw [hcontents]
  exact fixup_iff.mpr (decodes_flatMap h)

theorem readsBack_quoted (h : ∀ c, Written (quotedStops '"'.toUInt8) c (f c)) (s : List Byte) :
    ReadsBack ('"'.toUInt8 :: s.flatMap f ++ ['"'.toUInt8]) s .quotedString := by
  have hlength : ('"'.toUInt8 :: s.flatMap f ++ ['"'.toUInt8]).length = (s.flatMap f).length + 2 := by simp
  refine ⟨fun tail => ?_, next_end _, ?_⟩
  · rw [next_quoted (quoted_passes h s) tail, hlength, Nat.add_sub_cancel]
  · rw [hlength, Nat.add_sub_cancel]
    exact fixup_contents h s _

theorem readsBack_interpolated (h : ∀ c, Written interpolatedStops c (f c)) (s : List Byte) :
    ReadsBack ('`'.toUInt8 :: s.flatMap f ++ ['`'.toUInt8]) s .interpStringSimple := by
  have hlength : ('`'.toUInt8 :: s.flatMap f ++ ['`'.toUInt8]).length = (s.flatMap f).length + 2 := by simp
  refine ⟨fun tail => ?_, next_end _, ?_⟩
  · rw [next_interpolated (interpolated_passes h s) tail, hlength, Nat.add_sub_cancel]
  · rw [hlength, Nat.add_sub_cancel]
    exact fixup_contents h s _

end Texts

end Luwu.Escapes
