import Luwu.Text.Escapes
import Mathlib.Data.List.TakeWhile

/-!
# Decoding escapes in place

What a turn of the loop does is said of what was written and of what is left to read (`Reads`); the writes stay behind the
reads.  So the loop decodes the string by the rule that the code has for code points.
-/

namespace Luwu.Escapes

open Luwu.Utf8

variable {data out rest rest' bytes text : List Byte} {s s' : Fixup} {c d : Byte} {i n : ℕ} {p : Piece}

/-! ### Reading and writing -/

theorem charAt_of_drop (h : data.drop i = c :: rest) : charAt data i = c := by
  have hat : (data.drop i)[0]? = some c := by rw [h]; rfl
  rw [List.getElem?_drop, Nat.add_zero] at hat
  rw [charAt, List.getD_eq_getElem?_getD, hat]
  rfl

theorem lt_of_drop (h : data.drop i = c :: rest) : i < data.length := by
  by_contra hge
  rw [List.drop_eq_nil_of_le (Nat.le_of_not_lt hge)] at h
  cases h

theorem drop_succ (h : data.drop i = c :: rest) : data.drop (i + 1) = rest := by
  rw [← List.drop_drop, h]
  rfl

theorem length_of_drop (h : data.drop i = rest) (hi : i ≤ data.length) : data.length = i + rest.length := by
  rw [← h, List.length_drop]
  omega

theorem emit_i (s : Fixup) (bytes : List Byte) : (s.emit bytes).i = s.i := by
  induction bytes generalizing s with
  | nil => rfl
  | cons b bytes ih => exact ih _

theorem emit_write (s : Fixup) (bytes : List Byte) : (s.emit bytes).write = s.write + bytes.length := by
  induction bytes generalizing s with
  | nil => rfl
  | cons b bytes ih =>
    rw [Fixup.emit, ih, List.length_cons]
    dsimp only
    omega

theorem emit_data (h : s.write + bytes.length ≤ s.data.length) :
    (s.emit bytes).data = s.data.take s.write ++ bytes ++ s.data.drop (s.write + bytes.length) := by
  induction bytes generalizing s with
  | nil => simp [Fixup.emit]
  | cons b bytes ih =>
    rw [List.length_cons] at h
    have hb : s.write < s.data.length := by omega
    have hset : s.data.set s.write b = s.data.take s.write ++ b :: s.data.drop (s.write + 1) := by
      rw [List.set_eq_take_append_cons_drop, if_pos hb]
    have hlength : (s.data.take s.write).length = s.write := List.length_take_of_le hb.le
    rw [Fixup.emit, ih (by dsimp only; rw [List.length_set]; omega)]
    dsimp only
    have htake : (s.data.set s.write b).take (s.write + 1) = s.data.take s.write ++ [b] := by
      rw [hset, List.take_append, hlength, List.take_of_length_le (by omega)]
      simp
    have hdrop : (s.data.set s.write b).drop (s.write + 1 + bytes.length) = s.data.drop (s.write + (bytes.length + 1)) := by
      rw [List.drop_set_of_lt (by omega)]
      congr 1
      omega
    rw [htake, hdrop, List.length_cons]
    simp

/-- `out` is written and `rest` is left to read. -/
structure Reads (out rest : List Byte) (s : Fixup) : Prop where
  out : s.data.take s.write = out
  rest : s.data.drop s.i = rest
  write_le : s.write ≤ s.i
  i_le : s.i ≤ s.data.length

theorem Reads.length (h : Reads out rest s) : s.data.length = s.i + rest.length := length_of_drop h.rest h.i_le

theorem Reads.charAt (h : Reads out (c :: rest) s) : charAt s.data s.i = c := charAt_of_drop h.rest

/-- What was read may be written over. -/
theorem Reads.emit (h : Reads out rest s) (hroom : s.write + bytes.length ≤ s.i) : Reads (out ++ bytes) rest (s.emit bytes) := by
  have hle := h.i_le
  have hdata : (s.emit bytes).data = s.data.take s.write ++ bytes ++ s.data.drop (s.write + bytes.length) :=
    emit_data (by omega)
  have hlength : (s.data.take s.write ++ bytes).length = s.write + bytes.length := by
    rw [List.length_append, List.length_take_of_le (by omega)]
  refine ⟨?_, ?_, ?_, ?_⟩
  · rw [hdata, emit_write, List.take_append, hlength, Nat.sub_self, List.take_zero, List.append_nil,
      List.take_of_length_le (by omega), h.out]
  · rw [hdata, emit_i, List.drop_append, hlength, List.drop_drop, List.drop_of_length_le (by omega), List.nil_append]
    rw [show s.write + bytes.length + (s.i - (s.write + bytes.length)) = s.i by omega]
    exact h.rest
  · rw [emit_write, emit_i]
    exact hroom
  · rw [hdata, emit_i, List.length_append, hlength, List.length_drop]
    omega

/-- The reads go on. -/
theorem Reads.skip (h : Reads out rest s) (hrest : s.data.drop i = rest') (hle : s.i ≤ i) (hi : i ≤ s.data.length) :
    Reads out rest' { s with i := i } := ⟨h.out, hrest, h.write_le.trans hle, hi⟩

theorem Reads.next (h : Reads out (c :: rest) s) : Reads out rest { s with i := s.i + 1 } :=
  h.skip (drop_succ h.rest) (by omega) (lt_of_drop h.rest)

/-! ### The loops over digits and spaces -/

theorem toNat_hexDigit (code : UInt32) (ch : Byte) :
    (16 * code + hexDigit ch).toNat = (16 * code.toNat + (hexDigit ch).toNat) % 2 ^ 32 := by
  rw [UInt32.toNat_add, UInt32.toNat_mul]
  show ((16 * code.toNat) % 2 ^ 32 + (hexDigit ch).toNat) % 2 ^ 32 = _
  omega

/-- The value of digits after others -/
def hexValueFrom (value : ℕ) (digits : List Byte) : ℕ :=
  digits.foldl (fun value ch => 16 * value + (hexDigit ch).toNat) value

theorem hexValueFrom_mod (m : ℕ) (digits : List Byte) :
    hexValueFrom (m % 2 ^ 32) digits % 2 ^ 32 = hexValueFrom m digits % 2 ^ 32 := by
  induction digits generalizing m with
  | nil => exact Nat.mod_mod m _
  | cons ch digits ih =>
    show hexValueFrom (16 * (m % 2 ^ 32) + (hexDigit ch).toNat) digits % 2 ^ 32 = _
    rw [← ih, show (16 * (m % 2 ^ 32) + (hexDigit ch).toNat) % 2 ^ 32 = (16 * m + (hexDigit ch).toNat) % 2 ^ 32 by omega,
      ih]
    rfl

theorem hexDigit_lt (ch : Byte) (h : isHexDigit ch = true) : (hexDigit ch).toNat < 16 := by
  have hall : ∀ x : Fin 256, isHexDigit (UInt8.ofFin x) = true → (hexDigit (UInt8.ofFin x)).toNat < 16 := by decide +kernel
  exact hall ch.toFin h

theorem hexLoop_two (h : data.drop i = c :: d :: rest) :
    hexLoop data 2 i 0 = if isHexDigit c && isHexDigit d then some (16 * hexDigit c + hexDigit d) else none := by
  simp only [hexLoop, charAt_of_drop h, charAt_of_drop (drop_succ h)]
  cases isHexDigit c <;> cases isHexDigit d <;> simp

theorem spaceLoop_eq (h : data.drop i = rest) (hn : rest.length ≤ n) (hi : i ≤ data.length) :
    data.drop (spaceLoop data n i) = rest.dropWhile isSpace ∧ i ≤ spaceLoop data n i ∧
      spaceLoop data n i ≤ data.length := by
  induction n generalizing i rest with
  | zero =>
    obtain rfl := List.length_eq_zero_iff.mp (Nat.le_zero.mp hn)
    exact ⟨h, le_rfl, hi⟩
  | succ n ih =>
    unfold spaceLoop
    cases rest with
    | nil =>
      have hlength := length_of_drop h hi
      rw [List.length_nil] at hlength
      rw [if_neg (by simp; omega)]
      exact ⟨h, le_rfl, hi⟩
    | cons c rest =>
      have hlt := lt_of_drop h
      rw [charAt_of_drop h, List.dropWhile_cons]
      cases isSpace c with
      | false =>
        rw [if_neg (by simp)]
        exact ⟨h, le_rfl, hi⟩
      | true =>
        rw [if_pos (by simpa using hlt)]
        obtain ⟨hdrop, hle, hle'⟩ := ih (drop_succ h) (Nat.le_of_succ_le_succ hn) hlt
        exact ⟨hdrop, by omega, hle'⟩

/-- Digits up to a closing brace -/
structure Braced (n : ℕ) (digits rest' rest : List Byte) : Prop where
  eq : rest = digits ++ '}'.toUInt8 :: rest'
  hex : ∀ ch ∈ digits, isHexDigit ch = true
  le : digits.length ≤ n

theorem unicodeLoop_braced {digits : List Byte} {code : UInt32} (h : data.drop i = rest) (hb : Braced n digits rest' rest) :
    unicodeLoop data n i code =
      some (i + digits.length, digits.foldl (fun code ch => 16 * code + hexDigit ch) code) := by
  induction n generalizing i rest digits code with
  | zero =>
    obtain rfl := List.length_eq_zero_iff.mp (Nat.le_zero.mp hb.le)
    rfl
  | succ n ih =>
    unfold unicodeLoop
    cases digits with
    | nil =>
      rw [hb.eq] at h
      rw [if_neg (lt_of_drop h).ne, if_pos (charAt_of_drop h)]
      rfl
    | cons ch digits =>
      rw [hb.eq] at h
      have hch : isHexDigit ch = true := hb.hex ch List.mem_cons_self
      have hne : ch ≠ '}'.toUInt8 := by
        rintro rfl
        revert hch
        decide
      rw [if_neg (lt_of_drop h).ne, charAt_of_drop h, if_neg hne, hch]
      have hrest : Braced n digits rest' (digits ++ '}'.toUInt8 :: rest') :=
        ⟨rfl, fun d hd => hb.hex d (List.mem_cons_of_mem ch hd), Nat.le_of_succ_le_succ hb.le⟩
      rw [if_neg (by simp), ih (drop_succ h) hrest, List.length_cons, List.foldl_cons]
      congr 2
      omega

theorem braced_nil (hi : i < data.length) (h : data.drop i = rest) (hc : charAt data i = '}'.toUInt8) :
    Braced n [] (data.drop (i + 1)) rest := by
  refine ⟨?_, by simp, Nat.zero_le n⟩
  rw [← h, List.drop_eq_getElem_cons hi, List.nil_append]
  rw [charAt, List.getD_eq_getElem?_getD, List.getElem?_eq_getElem hi] at hc
  rw [← hc]
  rfl

theorem braced_of_unicodeLoop {code code' : UInt32} {i' : ℕ} (h : data.drop i = rest)
    (hrun : unicodeLoop data n i code = some (i', code')) (hi : i' ≠ data.length) (hle : i ≤ data.length)
    (hclose : charAt data i' = '}'.toUInt8) : ∃ digits rest', Braced n digits rest' rest := by
  induction n generalizing i rest code with
  | zero =>
    obtain ⟨rfl, -⟩ := Prod.mk.inj (Option.some.inj hrun)
    exact ⟨[], _, braced_nil (by omega) h hclose⟩
  | succ n ih =>
    unfold unicodeLoop at hrun
    split at hrun
    · cases hrun
    · next hne =>
      split at hrun
      · next hc => exact ⟨[], _, braced_nil (by omega) h hc⟩
      · split at hrun
        · cases hrun
        · next hhex =>
          obtain ⟨ch, rest, rfl⟩ : ∃ ch rest₁, rest = ch :: rest₁ := by
            have hlength := length_of_drop h hle
            cases rest with
            | nil => simp at hlength; omega
            | cons ch rest => exact ⟨ch, rest, rfl⟩
          rw [charAt_of_drop h] at hhex
          obtain ⟨digits, rest', hb⟩ := ih (drop_succ h) hrun (lt_of_drop h)
          refine ⟨ch :: digits, rest', by rw [hb.eq]; rfl, ?_, Nat.succ_le_succ hb.le⟩
          exact List.forall_mem_cons.mpr ⟨by simpa using hhex, hb.hex⟩

/-- Digits up to a brace are what the grammar takes. -/
theorem Braced.split {digits : List Byte} (h : Braced n digits rest' rest) :
    rest.takeWhile isHexDigit = digits ∧ rest.dropWhile isHexDigit = '}'.toUInt8 :: rest' := by
  have hbrace : isHexDigit '}'.toUInt8 = false := by decide
  rw [h.eq]
  constructor
  · rw [List.takeWhile_append_of_pos h.hex, List.takeWhile_cons, hbrace]
    simp
  · rw [List.dropWhile_append_of_pos h.hex, List.dropWhile_cons, hbrace]
    simp

theorem braced_of_dropWhile (h : rest.dropWhile isHexDigit = '}'.toUInt8 :: rest') :
    Braced (rest.takeWhile isHexDigit).length (rest.takeWhile isHexDigit) rest' rest := by
  refine ⟨?_, fun ch hch => List.mem_takeWhile_imp hch, le_rfl⟩
  rw [← h, List.takeWhile_append_dropWhile]

theorem toNat_foldl (code : UInt32) (digits : List Byte) :
    (digits.foldl (fun code ch => 16 * code + hexDigit ch) code).toNat = hexValueFrom code.toNat digits % 2 ^ 32 := by
  induction digits generalizing code with
  | nil => exact (Nat.mod_eq_of_lt code.toNat_lt).symm
  | cons ch digits ih =>
    rw [List.foldl_cons, ih, toNat_hexDigit, hexValueFrom_mod]
    rfl

theorem decimalLoop_eq {code : ℕ} (h : data.drop i = rest) (hi : i ≤ data.length) :
    decimalLoop data n i code =
      (i + ((rest.take n).takeWhile isDigit).length,
        ((rest.take n).takeWhile isDigit).foldl (fun value ch => 10 * value + (ch - '0'.toUInt8).toNat) code) := by
  induction n generalizing i rest code with
  | zero => rfl
  | succ n ih =>
    unfold decimalLoop
    cases rest with
    | nil =>
      have hlength := length_of_drop h hi
      rw [List.length_nil, Nat.add_zero] at hlength
      rw [if_pos (by simp [hlength])]
      rfl
    | cons c rest =>
      have hne : i ≠ data.length := (lt_of_drop h).ne
      rw [charAt_of_drop h, List.take_succ_cons, List.takeWhile_cons]
      cases isDigit c with
      | false => simp
      | true =>
        rw [if_neg (by simp [hne]), ih (drop_succ h) (lt_of_drop h), if_pos rfl, List.length_cons, List.foldl_cons]
        congr 1
        omega

/-! ### The escapes -/

/-- What a step should do, given what is read: fail when there is no piece, or go behind it and write what it stands for. -/
def Does (out : List Byte) (s : Fixup) (read : Option (Piece × List Byte)) (result : Option Fixup) : Prop :=
  match read.bind fun r => (r.1.decode codeRule).map fun bytes => (bytes, r.2) with
  | none => result = none
  | some (bytes, rest) => ∃ s', result = some s' ∧ Reads (out ++ bytes) rest s' ∧ s.i ≤ s'.i ∧ s'.data.length = s.data.length

theorem length_emit (hroom : s.write + bytes.length ≤ s.data.length) : (s.emit bytes).data.length = s.data.length := by
  rw [emit_data hroom, List.length_append, List.length_append, List.length_take_of_le (by omega), List.length_drop]
  omega

/-- Going behind the piece and writing is what a step should do. -/
theorem does_emit (h : Reads out rest s) {read : Option (Piece × List Byte)} (hread : read = some (p, rest'))
    (hp : p.decode codeRule = some bytes) (hrest : s.data.drop i = rest') (hle : s.i ≤ i) (hi : i ≤ s.data.length)
    (hroom : s.write + bytes.length ≤ i) : Does out s read (some (Fixup.emit { s with i := i } bytes)) := by
  unfold Does
  rw [hread, Option.bind_some, hp]
  exact ⟨_, rfl, (h.skip hrest hle hi).emit hroom, by rw [emit_i]; exact hle, length_emit (hroom.trans hi)⟩

theorem does_none {read : Option (Piece × List Byte)} (hread : read = none) : Does out s read none := by
  unfold Does
  rw [hread]
  rfl

theorem emit_skip (s : Fixup) (bytes : List Byte) (i : ℕ) :
    Fixup.emit { s with i := i } bytes = { s.emit bytes with i := i } := by
  induction bytes generalizing s with
  | nil => rfl
  | cons b bytes ih => exact ih { s with data := s.data.set s.write b, write := s.write + 1 }

theorem hex_does (h : Reads out rest s) (hroom : s.write + 2 ≤ s.i) : Does out s (hexEscape rest) s.hex := by
  have hlength := h.length
  unfold Fixup.hex
  match rest, h with
  | [], h =>
    rw [if_pos (by simp at hlength; omega)]
    exact does_none rfl
  | [c], h =>
    rw [if_pos (by simp at hlength; omega)]
    exact does_none rfl
  | c :: d :: rest, h =>
    rw [if_neg (by simp at hlength; omega), hexLoop_two h.rest]
    split
    · next hnone =>
      split at hnone
      · cases hnone
      · next hhex => exact does_none (if_neg hhex)
    · next code hsome =>
      split at hsome
      · next hhex =>
        obtain rfl := Option.some.inj hsome
        have hread : hexEscape (c :: d :: rest) = some (.bytes [UInt8.ofNat (hexValue [c, d])], rest) := if_pos hhex
        have hcode : octet (16 * hexDigit c + hexDigit d) = UInt8.ofNat (hexValue [c, d]) := by
          apply octet_eq
          rw [toNat_hexDigit]
          obtain ⟨hc, hd⟩ := Bool.and_eq_true_iff.mp hhex
          have hc' := hexDigit_lt c hc
          have hd' := hexDigit_lt d hd
          rw [Nat.mod_eq_of_lt (by omega)]
          show _ = 16 * (16 * 0 + (hexDigit c).toNat) + (hexDigit d).toNat
          omega
        have hdrop : s.data.drop (s.i + 2) = rest := drop_succ (drop_succ h.rest)
        have hi : s.i + 2 ≤ s.data.length := lt_of_drop (drop_succ h.rest)
        have hdoes := does_emit h hread rfl hdrop (by omega) hi (by simp; omega)
        rw [emit_skip, ← hcode] at hdoes
        exact hdoes
      · cases hsome

theorem unicodeEscape_braced {digits : List Byte} (hb : Braced n digits rest' rest) (hne : digits ≠ []) :
    unicodeEscape ('{'.toUInt8 :: rest) = some (.unicode digits, rest') := by
  obtain ⟨htake, hdrop⟩ := hb.split
  simp only [unicodeEscape, htake, hdrop, ne_eq, hne, not_false_eq_true, and_self, if_true]

theorem of_unicodeEscape (h : unicodeEscape text = some (p, rest')) :
    ∃ digits rest, text = '{'.toUInt8 :: rest ∧ Braced digits.length digits rest' rest ∧ digits ≠ [] ∧
      p = .unicode digits := by
  unfold unicodeEscape at h
  split at h
  · cases h
  · next c rest =>
    split at h
    · next hc =>
      split at h
      · cases h
      · next d rest₁ hdrop =>
        split at h
        · next hd =>
          obtain ⟨rfl, rfl⟩ := Prod.mk.inj (Option.some.inj h)
          rw [hd] at hdrop
          exact ⟨_, rest, by rw [hc.1], braced_of_dropWhile hdrop, hc.2, rfl⟩
        · cases h
    · cases h

/-- What passes the checks of the code has a brace, digits and a brace. -/
theorem of_unicode (h : Reads out rest s) (hrun : s.unicode = some s') :
    ∃ digits rest₁ rest', rest = '{'.toUInt8 :: rest₁ ∧ Braced 16 digits rest' rest₁ ∧ digits ≠ [] := by
  have hlength := h.length
  unfold Fixup.unicode at hrun
  split at hrun
  · cases hrun
  next hlong =>
  split at hrun
  · cases hrun
  next hopen =>
  split at hrun
  · cases hrun
  next hempty =>
  split at hrun
  · cases hrun
  next i code hloop =>
  split at hrun
  · cases hrun
  next hclose =>
  obtain ⟨c, rest, rfl⟩ : ∃ c rest₁, rest = c :: rest₁ := by
    cases rest with
    | nil => simp at hlength; omega
    | cons c rest => exact ⟨c, rest, rfl⟩
  obtain ⟨hi, hbrace⟩ : i ≠ s.data.length ∧ charAt s.data i = '}'.toUInt8 := by simpa using hclose
  have hc : c = '{'.toUInt8 := by simpa [h.charAt] using hopen
  obtain ⟨digits, rest', hb⟩ := braced_of_unicodeLoop (drop_succ h.rest) hloop hi (lt_of_drop h.rest) hbrace
  refine ⟨digits, rest, rest', by rw [hc], hb, ?_⟩
  rintro rfl
  have hdrop := drop_succ h.rest
  rw [hb.eq] at hdrop
  exact hempty (charAt_of_drop hdrop)

theorem unicode_does (h : Reads out rest s) (hroom : s.write + 2 ≤ s.i) :
    Does out s (unicodeEscape rest) s.unicode := by
  have hnone : (∀ digits rest₁ rest', rest = '{'.toUInt8 :: rest₁ → digits ≠ [] → ¬Braced 16 digits rest' rest₁) →
      s.unicode = none := by
    intro hno
    cases hrun : s.unicode with
    | none => rfl
    | some s' =>
      obtain ⟨digits, rest₁, rest', heq, hb, hne⟩ := of_unicode h hrun
      exact absurd hb (hno digits rest₁ rest' heq hne)
  cases hread : unicodeEscape rest with
  | none =>
    rw [hnone]
    · exact does_none rfl
    · intro digits rest₁ rest' heq hne hb
      rw [heq, unicodeEscape_braced hb hne] at hread
      cases hread
  | some r =>
    obtain ⟨p, rest'⟩ := r
    obtain ⟨digits, rest₁, rfl, hb, hne, rfl⟩ := of_unicodeEscape hread
    by_cases hlong : 16 < digits.length
    · have hfail : s.unicode = none := by
        apply hnone
        intro digits' rest₂ rest₃ heq _ hb'
        obtain ⟨-, rfl⟩ := List.cons.inj heq
        rw [← hb'.split.1, hb.split.1] at hb'
        exact absurd hb'.le (by omega)
      have hrule : (Piece.unicode digits).decode codeRule = none := by
        rw [Piece.decode_unicode, codeRule, if_neg (by omega)]
        rfl
      unfold Does
      rw [hfail, Option.bind_some, hrule]
      rfl
    · have hb16 : Braced 16 digits rest' rest₁ := ⟨hb.eq, hb.hex, by omega⟩
      have hdrop := drop_succ h.rest
      obtain ⟨ch, digits₁, hdigits⟩ := List.exists_cons_of_ne_nil hne
      have hlength := h.length
      rw [hb.eq, List.length_cons, List.length_append, List.length_cons] at hlength
      have hpos : 0 < digits.length := List.length_pos_iff.mpr hne
      have hfirst : charAt s.data (s.i + 1) ≠ '}'.toUInt8 := by
        have hch := hb.hex ch (by rw [hdigits]; exact List.mem_cons_self)
        rw [hb.eq, hdigits] at hdrop
        rw [charAt_of_drop hdrop]
        rintro rfl
        revert hch
        decide
      have hclose : s.data.drop (s.i + 1 + digits.length) = '}'.toUInt8 :: rest' := by
        rw [← List.drop_drop, hdrop, hb.eq, List.drop_left]
      have hcode : (digits.foldl (fun code ch => 16 * code + hexDigit ch) 0).toNat = hexValue digits % 2 ^ 32 :=
        toNat_foldl 0 digits
      have hrun : s.unicode =
          if (toUtf8 (digits.foldl (fun code ch => 16 * code + hexDigit ch) 0)).length = 0 then none
          else some (Fixup.emit { s with i := s.i + 1 + digits.length + 1 }
            (toUtf8 (digits.foldl (fun code ch => 16 * code + hexDigit ch) 0))) := by
        unfold Fixup.unicode
        rw [if_neg (by omega), if_neg (by simp [h.charAt]), if_neg hfirst, unicodeLoop_braced hdrop hb16]
        dsimp only
        rw [if_neg (by simp [charAt_of_drop hclose]; omega)]
      generalize digits.foldl (fun code ch => 16 * code + hexDigit ch) 0 = code at hcode hrun
      rw [hrun]
      by_cases hsmall : hexValue digits % 2 ^ 32 < 0x110000
      · obtain ⟨hlo, hhi⟩ := encode_length_pos (hexValue digits % 2 ^ 32)
        have hrule : (Piece.unicode digits).decode codeRule = some (toUtf8 code) := by
          rw [Piece.decode_unicode, codeRule, if_pos ⟨by omega, hsmall⟩, toUtf8_eq (by rw [hcode]; exact hsmall), hcode]
          rfl
        have hlen : (toUtf8 code).length = (encode (hexValue digits % 2 ^ 32)).length := by
          rw [toUtf8_eq (by rw [hcode]; exact hsmall), List.length_map, hcode]
        rw [if_neg (by omega)]
        exact does_emit h rfl hrule (drop_succ hclose) (by omega) (lt_of_drop hclose) (by omega)
      · have hrule : (Piece.unicode digits).decode codeRule = none := by
          rw [Piece.decode_unicode, codeRule, if_neg (by omega)]
          rfl
        rw [toUtf8_nil (by rw [hcode]; exact hsmall), List.length_nil, if_pos rfl]
        unfold Does
        rw [Option.bind_some, hrule]
        rfl

theorem other_does (h : Reads out rest s) (hroom : s.write + 2 ≤ s.i) (c : Byte) :
    Does out s (if isDigit c then decimalEscape (c :: rest) else some (.bytes [unescape c], rest)) (s.other c) := by
  unfold Fixup.other
  split
  · next hdigit =>
    have hdigits : ((c :: rest).take 3).takeWhile isDigit = c :: (rest.take 2).takeWhile isDigit := by
      rw [List.take_succ_cons, List.takeWhile_cons, hdigit]
      rfl
    rw [decimalLoop_eq h.rest h.i_le]
    unfold decimalEscape
    rw [hdigits]
    dsimp only
    have hvalue : decimalValue (c :: (rest.take 2).takeWhile isDigit) =
        ((rest.take 2).takeWhile isDigit).foldl (fun value ch => 10 * value + (ch - '0'.toUInt8).toNat)
          (c - '0'.toUInt8).toNat := by
      unfold decimalValue
      rw [List.foldl_cons, Nat.mul_zero, Nat.zero_add]
    rw [hvalue]
    generalize ((rest.take 2).takeWhile isDigit).foldl (fun value ch => 10 * value + (ch - '0'.toUInt8).toNat)
      (c - '0'.toUInt8).toNat = value
    have hle : ((rest.take 2).takeWhile isDigit).length ≤ rest.length :=
      (List.takeWhile_prefix _).length_le.trans (List.length_take_le' _ _)
    have hlength := h.length
    by_cases hbig : 255 < value
    · rw [if_neg (by omega), if_pos hbig]
      exact does_none rfl
    · rw [if_pos (by omega), if_neg hbig]
      refine does_emit h rfl rfl ?_ (by omega) (by omega) (by simp; omega)
      rw [← List.drop_drop, h.rest]
      rfl
  · exact does_emit h rfl rfl h.rest le_rfl h.i_le (by simp; omega)

/-- A carriage return, with the newline that follows it -/
theorem return_does (h : Reads out rest s) (hroom : s.write + 2 ≤ s.i) :
    Does out s (some (.bytes ['\n'.toUInt8], if rest.head? = some '\n'.toUInt8 then rest.tail else rest))
      (if (s.emit ['\n'.toUInt8]).i < (s.emit ['\n'.toUInt8]).data.length &&
          charAt (s.emit ['\n'.toUInt8]).data (s.emit ['\n'.toUInt8]).i = '\n'.toUInt8 then
        some { s.emit ['\n'.toUInt8] with i := (s.emit ['\n'.toUInt8]).i + 1 }
      else some (s.emit ['\n'.toUInt8])) := by
  have hemit : Reads (out ++ ['\n'.toUInt8]) rest (s.emit ['\n'.toUInt8]) := h.emit (by simp; omega)
  have hlen : (s.emit ['\n'.toUInt8]).data.length = s.data.length :=
    length_emit (by have := h.i_le; simp; omega)
  have hi : s.i ≤ (s.emit ['\n'.toUInt8]).i := by rw [emit_i]
  generalize s.emit ['\n'.toUInt8] = s₁ at hemit hlen hi
  unfold Does
  cases rest with
  | nil =>
    have hend := hemit.length
    rw [List.length_nil] at hend
    rw [if_neg (by simp), if_neg (by simp; omega)]
    exact ⟨s₁, rfl, hemit, hi, hlen⟩
  | cons c rest =>
    rw [hemit.charAt]
    by_cases hc : c = '\n'.toUInt8
    · rw [if_pos (by simp [hc]), if_pos (by simp [hc, lt_of_drop hemit.rest])]
      exact ⟨_, rfl, hemit.next, Nat.le_succ_of_le hi, hlen⟩
    · rw [if_neg (by simpa using hc), if_neg (by simp [hc])]
      exact ⟨s₁, rfl, hemit, hi, hlen⟩

theorem space_does (h : Reads out rest s) (hroom : s.write + 2 ≤ s.i) :
    Does out s (some (.bytes [], rest.dropWhile isSpace))
      (some { s with i := spaceLoop s.data (s.data.length - s.i) s.i }) := by
  have hlength := h.length
  obtain ⟨hdrop, hle, hle'⟩ := spaceLoop_eq (n := s.data.length - s.i) h.rest (by omega) h.i_le
  exact @does_emit _ _ _ [] _ _ _ h _ rfl rfl hdrop hle hle' (by simp; omega)

/-! ### The turn and the loop -/

theorem piece_cons (c : Byte) (rest : List Byte) :
    piece (c :: rest) = if c = '\\'.toUInt8 then escape rest else some (.bytes [c], rest) := rfl

theorem turn_does (h : Reads out (c :: rest) s) :
    Does out { s with i := s.i + 1 } (piece (c :: rest)) s.turn := by
  have hwrite := h.write_le
  rw [piece_cons]
  unfold Fixup.turn
  rw [h.charAt]
  by_cases hc : c = '\\'.toUInt8
  · rw [if_neg (not_not.mpr hc), if_pos hc]
    have hlength := h.length
    cases rest with
    | nil =>
      rw [if_pos (by simpa using hlength.symm)]
      exact does_none rfl
    | cons e rest =>
      rw [List.length_cons, List.length_cons] at hlength
      rw [if_neg (by omega), charAt_of_drop (drop_succ h.rest)]
      have hnext : Reads out rest { s with i := s.i + 2 } := h.next.next
      have hback : ∀ {read result}, Does out { s with i := s.i + 2 } read result →
          Does out { s with i := s.i + 1 } read result := by
        intro read result hdoes
        unfold Does at hdoes ⊢
        split at hdoes
        · exact hdoes
        · obtain ⟨s', hs', hreads, hle, hlen⟩ := hdoes
          refine ⟨s', hs', hreads, ?_, hlen⟩
          have hle' : s.i + 2 ≤ s'.i := hle
          show s.i + 1 ≤ s'.i
          omega
      apply hback
      unfold escape
      dsimp only
      by_cases hnewline : e = '\n'.toUInt8
      · rw [if_pos hnewline, if_pos hnewline]
        exact does_emit hnext rfl rfl hnext.rest le_rfl hnext.i_le (by simp; omega)
      rw [if_neg hnewline, if_neg hnewline]
      by_cases hreturn : e = '\r'.toUInt8
      · rw [if_pos hreturn, if_pos hreturn]
        exact return_does hnext (by dsimp only; omega)
      rw [if_neg hreturn, if_neg hreturn]
      by_cases hnul : e = 0
      · rw [if_pos hnul, if_pos hnul]
        exact does_none rfl
      rw [if_neg hnul, if_neg hnul]
      by_cases hx : e = 'x'.toUInt8
      · rw [if_pos hx, if_pos hx]
        exact hex_does hnext (by dsimp only; omega)
      rw [if_neg hx, if_neg hx]
      by_cases hz : e = 'z'.toUInt8
      · rw [if_pos hz, if_pos hz]
        exact space_does hnext (by dsimp only; omega)
      rw [if_neg hz, if_neg hz]
      by_cases hu : e = 'u'.toUInt8
      · rw [if_pos hu, if_pos hu]
        exact unicode_does hnext (by dsimp only; omega)
      rw [if_neg hu, if_neg hu]
      exact other_does hnext (by dsimp only; omega) e
  · rw [if_pos hc, if_neg hc]
    have hnext := h.next
    have hdoes := does_emit hnext (p := .bytes [c]) rfl rfl hnext.rest le_rfl hnext.i_le (by simp; omega)
    rw [emit_skip] at hdoes
    exact hdoes

theorem Pieces.eq_nil {ps : List Piece} (h : Pieces [] ps) : ps = [] := by
  cases h with
  | nil => rfl
  | cons h _ => cases h

theorem decodes_nil {rule : ℕ → List Byte → Option ℕ} : Decodes rule [] out ↔ out = [] := by
  constructor
  · rintro ⟨ps, outs, hps, houts, rfl⟩
    obtain rfl := hps.eq_nil
    obtain rfl := Option.some.inj houts
    rfl
  · rintro rfl
    exact ⟨[], [], .nil, rfl, rfl⟩

theorem decodes_cons {rule : ℕ → List Byte → Option ℕ} (hp : piece text = some (p, rest)) :
    Decodes rule text out ↔ ∃ bytes o, p.decode rule = some bytes ∧ Decodes rule rest o ∧ out = bytes ++ o := by
  constructor
  · rintro ⟨ps, outs, hps, houts, rfl⟩
    cases hps with
    | nil => cases hp
    | @cons _ rest' p' ps h hs =>
      obtain ⟨rfl, rfl⟩ := Prod.mk.inj (Option.some.inj (h.symm.trans hp))
      rw [List.mapM_cons] at houts
      cases hd : p'.decode rule with
      | none => simp [hd] at houts
      | some bytes =>
        cases hm : ps.mapM (Piece.decode rule) with
        | none => simp [hd, hm] at houts
        | some outs' =>
          obtain rfl : bytes :: outs' = outs := by simpa [hd, hm] using houts
          exact ⟨bytes, outs'.flatten, rfl, ⟨ps, outs', hs, hm, rfl⟩, by simp⟩
  · rintro ⟨bytes, o, hd, ⟨ps, outs, hps, houts, rfl⟩, rfl⟩
    refine ⟨p :: ps, bytes :: outs, .cons hp hps, ?_, by simp⟩
    rw [List.mapM_cons, hd, houts]
    rfl

theorem not_decodes {rule : ℕ → List Byte → Option ℕ} (hp : piece (c :: rest) = none) : ¬Decodes rule (c :: rest) out := by
  rintro ⟨ps, outs, hps, -, -⟩
  cases hps with
  | cons h _ =>
    rw [hp] at h
    cases h

/-- At the end of the string, what was written is the result. -/
theorem loop_end (h : Reads out [] s) : s.loop n = some out := by
  have hend := h.length
  rw [List.length_nil] at hend
  unfold Fixup.loop
  rw [if_neg (by omega), h.out]

/-- **The loop decodes what is left to read**, by the rule of the code. -/
theorem loop_iff (h : Reads out rest s) (hn : rest.length ≤ n) (r : List Byte) :
    s.loop n = some r ↔ ∃ o, Decodes codeRule rest o ∧ r = out ++ o := by
  induction n generalizing out rest s with
  | zero =>
    obtain rfl := List.length_eq_zero_iff.mp (Nat.le_zero.mp hn)
    rw [loop_end h]
    simp [decodes_nil, eq_comm]
  | succ n ih =>
    cases rest with
    | nil =>
      rw [loop_end h]
      simp [decodes_nil, eq_comm]
    | cons c rest =>
      have hlength := h.length
      have hdoes := turn_does h
      unfold Fixup.loop
      rw [if_pos (lt_of_drop h.rest)]
      unfold Does at hdoes
      split at hdoes
      · next hnone =>
        rw [hdoes]
        refine iff_of_false (by simp) ?_
        rintro ⟨o, ho, -⟩
        cases hp : piece (c :: rest) with
        | none => exact not_decodes hp ho
        | some q =>
          obtain ⟨bytes, o', hbytes, -⟩ := (decodes_cons hp).mp ho
          simp [hp, hbytes] at hnone
      · next bytes rest' hsome =>
        obtain ⟨s', hs', hreads, hle, hlen⟩ := hdoes
        rw [hs']
        dsimp only
        have hlength' := hreads.length
        dsimp only at hle hlen
        rw [ih hreads (by rw [List.length_cons] at hn hlength; omega)]
        obtain ⟨⟨q, rest''⟩, hp, hq⟩ := Option.bind_eq_some_iff.mp hsome
        obtain ⟨bytes', hbytes, heq⟩ := Option.map_eq_some_iff.mp hq
        obtain ⟨rfl, rfl⟩ := Prod.mk.inj heq
        constructor
        · rintro ⟨o, ho, rfl⟩
          exact ⟨bytes' ++ o, (decodes_cons hp).mpr ⟨bytes', o, hbytes, ho, rfl⟩, by simp⟩
        · rintro ⟨o, ho, rfl⟩
          obtain ⟨b, o', hb, ho', rfl⟩ := (decodes_cons hp).mp ho
          obtain rfl := Option.some.inj (hbytes.symm.trans hb)
          exact ⟨o', ho', by simp⟩

theorem decodes_plain {rule : ℕ → List Byte → Option ℕ} (h : '\\'.toUInt8 ∉ data) : Decodes rule data out ↔ out = data := by
  induction data generalizing out with
  | nil => exact decodes_nil
  | cons c data ih =>
    have hc : c ≠ '\\'.toUInt8 := fun heq => h (by rw [heq]; exact List.mem_cons_self)
    have hp : piece (c :: data) = some (.bytes [c], data) := by rw [piece_cons, if_neg hc]
    have hrest : '\\'.toUInt8 ∉ data := fun hmem => h (List.mem_cons_of_mem c hmem)
    rw [decodes_cons hp]
    constructor
    · rintro ⟨bytes, o, hbytes, ho, rfl⟩
      rw [← Option.some.inj hbytes, (ih hrest).mp ho]
      rfl
    · rintro rfl
      exact ⟨[c], data, rfl, (ih hrest).mpr rfl, rfl⟩

/-- The result is what the string stands for by the rule of the code. -/
theorem fixup_iff : fixupQuotedString data = some out ↔ Decodes codeRule data out := by
  unfold fixupQuotedString
  split
  · next hplain =>
    have hnone : '\\'.toUInt8 ∉ data := by
      intro hmem
      cases data with
      | nil => cases hmem
      | cons c data =>
        have hcontains : (c :: data).contains '\\'.toUInt8 = true := by simpa using hmem
        rw [hcontains] at hplain
        cases hplain
    rw [decodes_plain hnone, Option.some.injEq, eq_comm]
  · have hstart : Reads [] data ⟨data, 0, 0⟩ := ⟨rfl, rfl, le_rfl, Nat.zero_le _⟩
    rw [loop_iff hstart le_rfl]
    simp

/-! ### Where the two rules differ -/

/-- The states at the start of the turns -/
def Reached (data : List Byte) (s : Fixup) : Prop :=
  Relation.ReflTransGen (fun s s' => s.i < s.data.length ∧ s.turn = some s') ⟨data, 0, 0⟩ s

theorem Reached.reads (h : Reached data s) : ∃ out rest, Reads out rest s := by
  induction h with
  | refl => exact ⟨[], data, rfl, rfl, le_rfl, Nat.zero_le _⟩
  | @tail s s' _ hstep ih =>
    obtain ⟨out, rest, hreads⟩ := ih
    obtain ⟨hlt, hturn⟩ := hstep
    have hlength := hreads.length
    cases rest with
    | nil => simp at hlength; omega
    | cons c rest =>
      have hdoes := turn_does hreads
      rw [hturn] at hdoes
      unfold Does at hdoes
      split at hdoes
      · cases hdoes
      · next bytes rest' _ =>
        obtain ⟨s'', heq, hreads', -⟩ := hdoes
        rw [Option.some.inj heq]
        exact ⟨_, _, hreads'⟩

theorem Pieces.unique {ps qs : List Piece} (h : Pieces data ps) (h' : Pieces data qs) : ps = qs := by
  induction h generalizing qs with
  | nil => exact h'.eq_nil.symm
  | cons hp _ ih =>
    cases h' with
    | nil => cases hp
    | cons hp' hs' =>
      obtain ⟨rfl, rfl⟩ := Prod.mk.inj (Option.some.inj (hp.symm.trans hp'))
      rw [ih hs']

theorem mapM_congr {f g : Piece → Option (List Byte)} {ps : List Piece} (h : ∀ p ∈ ps, f p = g p) :
    ps.mapM f = ps.mapM g := by
  induction ps with
  | nil => rfl
  | cons p ps ih =>
    rw [List.mapM_cons, List.mapM_cons, h p List.mem_cons_self, ih fun q hq => h q (List.mem_cons_of_mem p hq)]

theorem isSome_mapM {f : Piece → Option (List Byte)} {ps : List Piece} :
    (ps.mapM f).isSome = true ↔ ∀ p ∈ ps, (f p).isSome = true := by
  induction ps with
  | nil => simp
  | cons p ps ih =>
    rw [List.mapM_cons, List.forall_mem_cons, ← ih]
    cases f p <;> cases ps.mapM f <;> simp

/-- The value of every code point is in range. -/
def InRange (ps : List Piece) : Prop := ∀ digits, .unicode digits ∈ ps → hexValue digits < 0x110000

/-- Every code point has at most sixteen digits, and a value that is in range modulo `2 ^ 32`. -/
def InRangeModulo (ps : List Piece) : Prop :=
  ∀ digits, .unicode digits ∈ ps → digits.length ≤ 16 ∧ hexValue digits % 2 ^ 32 < 0x110000

theorem isSome_language {ps : List Piece} :
    (∀ p ∈ ps, (p.decode languageRule).isSome = true) ↔ InRange ps := by
  constructor
  · intro h digits hmem
    by_contra hbig
    have := h _ hmem
    rw [Piece.decode_unicode, languageRule, if_neg hbig] at this
    cases this
  · intro h p hp
    cases p with
    | bytes => rfl
    | unicode digits =>
      rw [Piece.decode_unicode, languageRule, if_pos (h digits hp)]
      rfl

theorem isSome_code {ps : List Piece} : (∀ p ∈ ps, (p.decode codeRule).isSome = true) ↔ InRangeModulo ps := by
  constructor
  · intro h digits hmem
    by_contra hbig
    have := h _ hmem
    rw [Piece.decode_unicode, codeRule, if_neg hbig] at this
    cases this
  · intro h p hp
    cases p with
    | bytes => rfl
    | unicode digits =>
      rw [Piece.decode_unicode, codeRule, if_pos (h digits hp)]
      rfl

theorem decode_same {ps : List Piece} (h : InRange ps) (h' : InRangeModulo ps) :
    ps.mapM (Piece.decode codeRule) = ps.mapM (Piece.decode languageRule) := by
  apply mapM_congr
  intro p hp
  cases p with
  | bytes => rfl
  | unicode digits =>
    have hvalue := h digits hp
    rw [Piece.decode_unicode, Piece.decode_unicode, languageRule, if_pos hvalue, codeRule, if_pos (h' digits hp),
      Nat.mod_eq_of_lt (by omega)]

/-- All escapes are well formed, and one for a code point has more than sixteen digits, the first ones zeros. -/
def TooLong (data : List Byte) : Prop :=
  ∃ ps, Pieces data ps ∧ InRange ps ∧ ∃ digits, .unicode digits ∈ ps ∧ 16 < digits.length

/-- The value of a code point does not fit into 32 bits, what is left of it is in range, and so are all others. -/
def Wraps (data : List Byte) : Prop :=
  ∃ ps, Pieces data ps ∧ InRangeModulo ps ∧ ∃ digits, .unicode digits ∈ ps ∧ 2 ^ 32 ≤ hexValue digits

/-- The result is true exactly when all escapes are well formed, the string is then decoded, and no write passes a read. -/
def Exact (data : List Byte) : Prop :=
  (∀ out, fixupQuotedString data = some out ↔ Decodes languageRule data out) ∧ ∀ s, Reached data s → s.write ≤ s.i

/-- **Escapes are decoded as the language says** unless a code point has more than sixteen digits or more than 32 bits. -/
theorem exact_iff (data : List Byte) : Exact data ↔ ¬TooLong data ∧ ¬Wraps data := by
  have hdecodes : ∀ {rule ps}, Pieces data ps → (∀ p ∈ ps, (p.decode rule).isSome = true) → ∃ out, Decodes rule data out := by
    intro rule ps hps hall
    obtain ⟨outs, houts⟩ := Option.isSome_iff_exists.mp (isSome_mapM.mpr hall)
    exact ⟨outs.flatten, ps, outs, hps, houts, rfl⟩
  have hall : ∀ {rule ps out}, Pieces data ps → Decodes rule data out → ∀ p ∈ ps, (p.decode rule).isSome = true := by
    rintro rule ps out hps ⟨qs, outs, hqs, houts, -⟩
    rw [hps.unique hqs]
    exact isSome_mapM.mp (by rw [houts]; rfl)
  constructor
  · rintro ⟨hexact, -⟩
    constructor
    · rintro ⟨ps, hps, hrange, digits, hmem, hlong⟩
      obtain ⟨out, hout⟩ := hdecodes hps (isSome_language.mpr hrange)
      have hcode := isSome_code.mp (hall hps (fixup_iff.mp ((hexact out).mpr hout)))
      exact absurd (hcode digits hmem).1 (by omega)
    · rintro ⟨ps, hps, hrange, digits, hmem, hwide⟩
      obtain ⟨out, hout⟩ := hdecodes hps (isSome_code.mpr hrange)
      have hlanguage := isSome_language.mp (hall hps ((hexact out).mp (fixup_iff.mpr hout)))
      exact absurd (hlanguage digits hmem) (by omega)
  · rintro ⟨hlong, hwide⟩
    refine ⟨fun out => fixup_iff.trans ⟨?_, ?_⟩, fun s hs => ?_⟩
    · rintro ⟨ps, outs, hps, houts, rfl⟩
      have hcode := isSome_code.mp (isSome_mapM.mp (by rw [houts]; rfl))
      have hrange : InRange ps := by
        intro digits hmem
        by_contra hbig
        refine hwide ⟨ps, hps, hcode, digits, hmem, ?_⟩
        have := hcode digits hmem
        by_contra hlt
        rw [Nat.mod_eq_of_lt (by omega)] at this
        exact hbig this.2
      exact ⟨ps, outs, hps, by rw [← decode_same hrange hcode, houts], rfl⟩
    · rintro ⟨ps, outs, hps, houts, rfl⟩
      have hrange := isSome_language.mp (isSome_mapM.mp (by rw [houts]; rfl))
      have hcode : InRangeModulo ps := by
        intro digits hmem
        have hvalue := hrange digits hmem
        rw [Nat.mod_eq_of_lt (by omega)]
        refine ⟨?_, hvalue⟩
        by_contra hbig
        exact hlong ⟨ps, hps, hrange, digits, hmem, by omega⟩
      exact ⟨ps, outs, hps, by rw [decode_same hrange hcode, houts], rfl⟩
    · obtain ⟨out, rest, hreads⟩ := hs.reads
      exact hreads.write_le

/-- `\u{100000041}`, which is taken for a letter -/
theorem wide_code_point_accepted : ¬Exact [92, 117, 123, 49, 48, 48, 48, 48, 48, 48, 52, 49, 125] := by
  rintro ⟨hexact, -⟩
  have hrun : fixupQuotedString [92, 117, 123, 49, 48, 48, 48, 48, 48, 48, 52, 49, 125] = some [65] := by decide +kernel
  have hpiece : piece [92, 117, 123, 49, 48, 48, 48, 48, 48, 48, 52, 49, 125] =
      some (.unicode [49, 48, 48, 48, 48, 48, 48, 52, 49], []) := rfl
  obtain ⟨bytes, o, hbytes, -⟩ := (decodes_cons hpiece).mp ((hexact [65]).mp hrun)
  have hvalue : ¬hexValue [49, 48, 48, 48, 48, 48, 48, 52, 49] < 0x110000 := by decide
  rw [Piece.decode_unicode, languageRule, if_neg hvalue] at hbytes
  cases hbytes

end Luwu.Escapes
