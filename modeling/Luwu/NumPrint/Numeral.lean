import Luwu.NumPrint.Schubfach

/-!
# Numerals

The decimal numerals that `strtod` reads to their end: a sign, digits with at most one point among them, and an exponent.
-/

namespace Luwu.NumPrint

/-! ### The grammar -/

def isDigit (c : UInt8) : Bool := 48 ≤ c && c ≤ 57

def digitsValue (ds : List UInt8) : ℕ := ds.foldl (fun v c => v * 10 + (c.toNat - 48)) 0

/-- The digits at the start, and what follows them -/
def readDigits (text : List UInt8) : List UInt8 × List UInt8 := (text.takeWhile isDigit, text.dropWhile isDigit)

/-- What follows the letter of an exponent -/
def readExponent (text : List UInt8) : Option ℤ :=
  let (neg, text) := match text with
    | 45 :: rest => (true, rest)
    | 43 :: rest => (false, rest)
    | rest => (false, rest)
  let (ds, rest) := readDigits text
  if ds = [] ∨ rest ≠ [] then none
  else some (if neg then -digitsValue ds else digitsValue ds)

def readFraction : List UInt8 → List UInt8 × List UInt8
  | 46 :: rest => readDigits rest
  | rest => ([], rest)

/-- What follows the digits -/
def readTail (mantissa : ℚ) : List UInt8 → Option ℚ
  | [] => some mantissa
  | c :: rest => if c = 101 ∨ c = 69 then (readExponent rest).map fun e => mantissa * 10 ^ e else none

def readUnsigned (text : List UInt8) : Option ℚ :=
  let (int, rest) := readDigits text
  let (frac, rest) := readFraction rest
  if int ++ frac = [] then none else readTail (digitsValue (int ++ frac) * 10 ^ (-(frac.length : ℤ))) rest

def readNumber (text : List UInt8) : Option ℚ :=
  match text with
  | 45 :: rest => (readUnsigned rest).map fun v => -v
  | rest => readUnsigned rest

/-! ### Digits -/

section Digits

variable {ds int frac rest : List UInt8} {c : UInt8} {n : ℕ}

/-- Only digits -/
def Digits (ds : List UInt8) : Prop := ∀ c ∈ ds, isDigit c = true

theorem digit_isDigit {d : ℕ} (hd : d < 10) : isDigit (digit d) = true := by
  interval_cases d <;> rfl

theorem digit_toNat {d : ℕ} (hd : d < 10) : (digit d).toNat - 48 = d := by
  interval_cases d <;> rfl

theorem digitsValue_snoc (ds : List UInt8) (c : UInt8) : digitsValue (ds ++ [c]) = digitsValue ds * 10 + (c.toNat - 48) := by
  unfold digitsValue
  rw [List.foldl_append]
  rfl

/-- **The digits of a number** denote it. -/
theorem digitsValue_decimal (n : ℕ) : digitsValue (decimal n) = n := by
  induction n using Nat.strongRecOn with
  | ind n ih =>
    by_cases hn : n = 0
    · rw [hn, decimal_zero]
      rfl
    · rw [decimal_step hn, digitsValue_snoc, ih (n / 10) (by omega), digit_toNat (Nat.mod_lt n (by norm_num))]
      omega

theorem digits_decimal (n : ℕ) : Digits (decimal n) := by
  intro c hc
  unfold decimal at hc
  obtain ⟨d, hd, rfl⟩ := List.mem_map.mp hc
  exact digit_isDigit (Nat.digits_lt_base (by norm_num) (List.mem_reverse.mp hd))

theorem digits_zeros (n : ℕ) : Digits (List.replicate n '0'.toUInt8) := by
  intro c hc
  rw [List.eq_of_mem_replicate hc]
  rfl

theorem Digits.append (h : Digits int) (h' : Digits frac) : Digits (int ++ frac) := by
  intro c hc
  rcases List.mem_append.mp hc with hc | hc
  · exact h c hc
  · exact h' c hc

theorem Digits.of_initial (h : Digits ds) (hp : int <+: ds) : Digits int := fun c hc => h c (hp.subset hc)

theorem Digits.drop (h : Digits ds) (n : ℕ) : Digits (ds.drop n) := fun c hc => h c (List.mem_of_mem_drop hc)

theorem readDigits_all (h : Digits ds) : readDigits ds = (ds, []) := by
  unfold readDigits
  rw [List.takeWhile_eq_self_iff.mpr h, List.dropWhile_eq_nil_iff.mpr h]

theorem readDigits_stop (h : Digits ds) (hc : isDigit c = false) : readDigits (ds ++ c :: rest) = (ds, c :: rest) := by
  unfold readDigits
  rw [List.takeWhile_append_of_pos h, List.dropWhile_append_of_pos h, List.takeWhile_cons, List.dropWhile_cons, hc]
  simp

theorem digitsValue_replicate (ds : List UInt8) (n : ℕ) :
    digitsValue (ds ++ List.replicate n '0'.toUInt8) = digitsValue ds * 10 ^ n := by
  induction n with
  | zero => rw [List.replicate_zero, List.append_nil, Nat.pow_zero, Nat.mul_one]
  | succ n ih =>
    rw [List.replicate_succ', ← List.append_assoc, digitsValue_snoc, ih, Nat.pow_succ]
    show _ * 10 + 0 = _
    rw [Nat.add_zero, Nat.mul_assoc]

theorem digitsValue_zeros (n : ℕ) (ds : List UInt8) : digitsValue (List.replicate n '0'.toUInt8 ++ ds) = digitsValue ds := by
  induction ds using List.reverseRecOn with
  | nil =>
    have h := digitsValue_replicate [] n
    rw [List.nil_append] at h
    rw [List.append_nil, h]
    exact Nat.zero_mul _
  | append_singleton ds c ih => rw [← List.append_assoc, digitsValue_snoc, digitsValue_snoc, ih]

/-- **Zeros at the end of the fraction** do not count. -/
theorem value_trim (int frac : List UInt8) :
    (digitsValue (int ++ trim frac) : ℚ) * 10 ^ (-((trim frac).length : ℤ)) = digitsValue (int ++ frac) * 10 ^ (-(frac.length : ℤ)) := by
  induction frac using List.reverseRecOn with
  | nil => rw [trim_nil]
  | append_singleton f d ih =>
    by_cases hd : d = '0'.toUInt8
    · rw [hd, trim_snoc_zero, ih, ← List.append_assoc, digitsValue_snoc, List.length_append, List.length_singleton]
      show _ = ((digitsValue (int ++ f) * 10 + 0 : ℕ) : ℚ) * _
      rw [Nat.add_zero, Nat.cast_add, neg_add, zpow_add₀ (by norm_num)]
      push_cast
      norm_num
      ring
    · rw [trim_snoc hd]

end Digits

/-! ### The forms of a number -/

section Forms

variable {sign int frac rest : List UInt8} {n : ℤ}

/-- A fraction with its point, or nothing -/
def pointed (frac : List UInt8) : List UInt8 := if frac = [] then [] else '.'.toUInt8 :: frac

/-- At least two digits -/
def exponentDigits (v : ℕ) : List UInt8 := if 100 ≤ v then digit (v / 100) :: pair (v % 100) else pair v

def exponentText (n : ℤ) : List UInt8 :=
  ['e'.toUInt8, if n < 0 then '-'.toUInt8 else '+'.toUInt8] ++ exponentDigits n.natAbs

/-- A number in fixed or in exponent form -/
structure Form where
  int : List UInt8
  frac : List UInt8
  exp : Option ℤ

def Form.text (f : Form) : List UInt8 := f.int ++ pointed f.frac ++ (f.exp.map exponentText).getD []

structure Form.Good (f : Form) : Prop where
  int : Digits f.int
  int_ne : f.int ≠ []
  frac : Digits f.frac
  trimmed : trim f.frac = f.frac
  exp : ∀ n, f.exp = some n → n.natAbs < 1000

def Form.value (f : Form) : ℚ := digitsValue (f.int ++ f.frac) * 10 ^ (-(f.frac.length : ℤ)) * 10 ^ (f.exp.getD 0)

theorem digits_pair {v : ℕ} (h : v < 100) : Digits (pair v) ∧ digitsValue (pair v) = v := by
  have h1 : v / 10 < 10 := by omega
  have h2 : v % 10 < 10 := Nat.mod_lt _ (by norm_num)
  constructor
  · intro c hc
    rcases List.mem_cons.mp hc with rfl | hc
    · exact digit_isDigit h1
    · rw [List.mem_singleton.mp hc]
      exact digit_isDigit h2
  · show (0 * 10 + ((digit (v / 10)).toNat - 48)) * 10 + ((digit (v % 10)).toNat - 48) = v
    rw [digit_toNat h1, digit_toNat h2]
    omega

theorem exponentDigits_spec {v : ℕ} (h : v < 1000) :
    Digits (exponentDigits v) ∧ digitsValue (exponentDigits v) = v ∧ exponentDigits v ≠ [] := by
  unfold exponentDigits
  by_cases hv : 100 ≤ v
  · rw [if_pos hv]
    have h1 : v / 100 < 10 := by omega
    have h2 : v % 100 / 10 < 10 := by omega
    have h3 : v % 100 % 10 < 10 := Nat.mod_lt _ (by norm_num)
    refine ⟨?_, ?_, by simp⟩
    · intro c hc
      rcases List.mem_cons.mp hc with rfl | hc
      · exact digit_isDigit h1
      · exact (digits_pair (Nat.mod_lt v (by norm_num))).1 c hc
    · show ((0 * 10 + ((digit (v / 100)).toNat - 48)) * 10 + ((digit (v % 100 / 10)).toNat - 48)) * 10 +
        ((digit (v % 100 % 10)).toNat - 48) = v
      rw [digit_toNat h1, digit_toNat h2, digit_toNat h3]
      omega
  · rw [if_neg hv]
    exact ⟨(digits_pair (by omega)).1, (digits_pair (by omega)).2, by simp [pair]⟩

theorem readExponent_minus {ds : List UInt8} (h : Digits ds) (hne : ds ≠ []) :
    readExponent ('-'.toUInt8 :: ds) = some (-(digitsValue ds : ℤ)) := by
  show (if (readDigits ds).1 = [] ∨ (readDigits ds).2 ≠ [] then none else some (-(digitsValue (readDigits ds).1 : ℤ))) = _
  rw [readDigits_all h, if_neg (by simpa using hne)]

theorem readExponent_plus {ds : List UInt8} (h : Digits ds) (hne : ds ≠ []) :
    readExponent ('+'.toUInt8 :: ds) = some (digitsValue ds : ℤ) := by
  show (if (readDigits ds).1 = [] ∨ (readDigits ds).2 ≠ [] then none else some (digitsValue (readDigits ds).1 : ℤ)) = _
  rw [readDigits_all h, if_neg (by simpa using hne)]

theorem digits_no_point (h : Digits int) : '.'.toUInt8 ∉ int := fun hc => Bool.false_ne_true (h _ hc)

theorem readExponent_text (hn : n.natAbs < 1000) :
    ∃ rest, exponentText n = 'e'.toUInt8 :: rest ∧ readExponent rest = some n ∧ '.'.toUInt8 ∉ exponentText n := by
  obtain ⟨hdigits, hvalue, hne⟩ := exponentDigits_spec hn
  have hpoint := digits_no_point hdigits
  unfold exponentText
  refine ⟨_, rfl, ?_, ?_⟩
  · by_cases hneg : n < 0
    · rw [if_pos hneg]
      refine (readExponent_minus hdigits hne).trans (congrArg some ?_)
      rw [hvalue]
      omega
    · rw [if_neg hneg]
      refine (readExponent_plus hdigits hne).trans (congrArg some ?_)
      rw [hvalue]
      omega
  · have hsign : ∀ c : UInt8, '.'.toUInt8 ≠ c → '.'.toUInt8 ∉ ['e'.toUInt8, c] ++ exponentDigits n.natAbs := by
      intro c hc hmem
      rcases List.mem_cons.mp hmem with h | hmem
      · exact absurd h (by decide)
      rcases List.mem_cons.mp hmem with h | hmem
      · exact hc h
      · exact hpoint hmem
    by_cases hneg : n < 0
    · rw [if_pos hneg]
      exact hsign _ (by decide)
    · rw [if_neg hneg]
      exact hsign _ (by decide)

/-- What is read of the digits and of the point -/
theorem readUnsigned_eq {int frac e : List UInt8} (hint : Digits int) (hne : int ≠ []) (hfrac : Digits frac)
    (he : e = [] ∨ ∃ r, e = 'e'.toUInt8 :: r) : readUnsigned (int ++ pointed frac ++ e) =
      readTail (digitsValue (int ++ frac) * 10 ^ (-(frac.length : ℤ))) e := by
  have hint' : int ++ frac ≠ [] := by simp [hne]
  have hread : ∀ ds : List UInt8, Digits ds → readDigits (ds ++ e) = (ds, e) := by
    intro ds hds
    rcases he with rfl | ⟨r, rfl⟩
    · rw [List.append_nil, readDigits_all hds]
    · exact readDigits_stop hds rfl
  have hparts : ∃ rest, readDigits (int ++ pointed frac ++ e) = (int, rest) ∧ readFraction rest = (frac, e) := by
    unfold pointed
    by_cases hnil : frac = []
    · refine ⟨e, ?_, ?_⟩
      · rw [if_pos hnil, List.append_nil, hread int hint]
      · rw [hnil]
        rcases he with rfl | ⟨r, rfl⟩
        · rfl
        · rfl
    · refine ⟨'.'.toUInt8 :: (frac ++ e), ?_, hread frac hfrac⟩
      rw [if_neg hnil, List.append_assoc, List.cons_append, readDigits_stop hint rfl]
  obtain ⟨rest, hdigits, hfraction⟩ := hparts
  unfold readUnsigned
  rw [hdigits]
  dsimp only
  rw [hfraction]
  exact if_neg hint'

theorem readTail_exponent (mantissa : ℚ) (r : List UInt8) :
    readTail mantissa ('e'.toUInt8 :: r) = (readExponent r).map fun e => mantissa * 10 ^ e := by
  have hletter : 'e'.toUInt8 = 101 ∨ 'e'.toUInt8 = 69 := Or.inl rfl
  rw [readTail, if_pos hletter]

/-- **A form is read as its value.** -/
theorem readUnsigned_form {f : Form} (hf : f.Good) : readUnsigned f.text = some f.value := by
  obtain ⟨int, frac, exp⟩ := f
  unfold Form.text Form.value
  cases exp with
  | none =>
    rw [show ((none : Option ℤ).map exponentText).getD [] = [] from rfl, readUnsigned_eq hf.int hf.int_ne hf.frac (Or.inl rfl)]
    show some _ = some (_ * (10 : ℚ) ^ (0 : ℤ))
    rw [zpow_zero, mul_one]
  | some n =>
    obtain ⟨r, htext, hread, -⟩ := readExponent_text (hf.exp n rfl)
    rw [show ((some n).map exponentText).getD [] = exponentText n from rfl, htext,
      readUnsigned_eq hf.int hf.int_ne hf.frac (Or.inr ⟨r, rfl⟩)]
    rw [readTail_exponent, hread]
    rfl

/-- The text of a number: its sign and its form -/
def numeralText (neg : Bool) (f : Form) : List UInt8 := (if neg then ['-'.toUInt8] else []) ++ f.text

theorem readNumber_text {f : Form} (hf : f.Good) (neg : Bool) :
    readNumber (numeralText neg f) = some (if neg then -f.value else f.value) := by
  have hread := readUnsigned_form hf
  unfold numeralText
  cases neg with
  | true =>
    show (readUnsigned f.text).map _ = _
    rw [hread]
    rfl
  | false =>
    rw [if_neg Bool.false_ne_true, if_neg Bool.false_ne_true, List.nil_append, ← hread]
    obtain ⟨c, l, htext⟩ : ∃ c l, f.text = c :: l ∧ isDigit c = true := by
      obtain ⟨c, l, hint⟩ := List.exists_cons_of_ne_nil hf.int_ne
      refine ⟨c, l ++ pointed f.frac ++ (f.exp.map exponentText).getD [], ?_, hf.int c (by rw [hint]; exact List.mem_cons_self)⟩
      unfold Form.text
      rw [hint]
      rfl
    rw [htext.1]
    unfold readNumber
    split
    · next rest heq =>
      obtain ⟨rfl, -⟩ := List.cons.inj heq
      exact absurd htext.2 (by decide)
    · next rest heq => rfl

/-- After a point there are digits, and the last of them is not a zero. -/
def NoTrailing (text : List UInt8) : Prop :=
  ∀ a b, text = a ++ '.'.toUInt8 :: b → ∃ ds c, (readDigits b).1 = ds ++ [c] ∧ c ≠ '0'.toUInt8

theorem noTrailing_text {f : Form} (hf : f.Good) (neg : Bool) : NoTrailing (numeralText neg f) := by
  intro a b hab
  have hsign : '.'.toUInt8 ∉ (if neg then ['-'.toUInt8] else []) := by
    cases neg <;> decide
  have hint := digits_no_point hf.int
  have hfrac := digits_no_point hf.frac
  obtain ⟨e, he, hepoint, hetext⟩ : ∃ e, (e = [] ∨ ∃ r, e = 'e'.toUInt8 :: r) ∧ '.'.toUInt8 ∉ e ∧
      (f.exp.map exponentText).getD [] = e := by
    cases hexp : f.exp with
    | none => exact ⟨[], Or.inl rfl, by simp, rfl⟩
    | some n =>
      obtain ⟨r, htext, -, hpoint⟩ := readExponent_text (hf.exp n hexp)
      exact ⟨exponentText n, Or.inr ⟨r, htext⟩, hpoint, rfl⟩
  unfold numeralText Form.text pointed at hab
  rw [hetext] at hab
  by_cases hnil : f.frac = []
  · rw [hnil, if_pos rfl, List.append_nil] at hab
    have hmem : '.'.toUInt8 ∈ (if neg then ['-'.toUInt8] else []) ++ (f.int ++ e) := by
      rw [hab]
      simp
    simp only [List.mem_append] at hmem
    tauto
  · rw [if_neg hnil, List.append_assoc, List.cons_append, ← List.append_assoc] at hab
    have hleft : '.'.toUInt8 ∉ (if neg then ['-'.toUInt8] else []) ++ f.int := by
      simp only [List.mem_append]
      tauto
    have hright : '.'.toUInt8 ∉ f.frac ++ e := by
      simp only [List.mem_append]
      tauto
    obtain ⟨-, -, hb⟩ := (List.append_cons_inj_of_notMem hleft hright).mp hab
    have hfirst : (readDigits b).1 = f.frac := by
      rw [← hb]
      rcases he with rfl | ⟨r, rfl⟩
      · rw [List.append_nil, readDigits_all hf.frac]
      · rw [readDigits_stop hf.frac rfl]
    have hlast := List.rdropWhile_last_not (· == '0'.toUInt8) f.frac (by
      show trim f.frac ≠ []
      rwa [hf.trimmed])
    refine ⟨f.frac.dropLast, f.frac.getLast hnil, ?_, ?_⟩
    · rw [hfirst, List.dropLast_append_getLast]
    · intro hzero
      apply hlast
      have htrim : List.rdropWhile (· == '0'.toUInt8) f.frac = f.frac := hf.trimmed
      simp only [htrim, hzero, beq_self_eq_true]

end Forms

end Luwu.NumPrint
