import Luwu.Utf8Lib.Text

/-!
# Positions

The searches of `utf8.offset` stop at bytes that continue nothing, which in a text are the starts of its characters and its
end: `moveOn` and `moveBack` lead from start to start.  So `utf8.offset` and `utf8.len` are inverse to one another.
-/

namespace Luwu.Utf8Lib

open Utf8

section Positions

variable {s : List Byte} {vs : List ℕ} {m n i : ℕ}

theorem iscont_eq (hi : i ≤ s.length) : iscont s i = .ok (decide (IsTail (oct s i))) := by
  unfold iscont
  rw [byteAt_ok hi]
  show Except.ok (decide (s.getD i 0 &&& 0xC0#8 = 0x80#8)) = _
  rw [decide_eq_decide.mpr (isTail_iff _)]
  rfl

variable (hs : s.map BitVec.toNat = text vs) (hv : ∀ v ∈ vs, Scalar v)
include hs

theorem start_le (hn : n ≤ vs.length) : start vs n ≤ s.length := by
  rw [← length_text hs]
  exact start_le_length hn

theorem start_end : start vs vs.length = s.length := by
  rw [start_length, length_text hs]

include hv

theorem not_isTail_of_start (hn : n ≤ vs.length) : ¬IsTail (oct s (start vs n)) := by
  by_cases hlt : n < vs.length
  · rw [oct_eq_text hs]
    exact not_isTail_start (fun v h => (hv v h).1) hlt
  · obtain rfl : n = vs.length := by omega
    intro htail
    have := lt_length_of_isTail htail
    rw [start_end hs] at this
    exact lt_irrefl _ this

theorem iscont_start (hn : n ≤ vs.length) : iscont s (start vs n) = .ok false := by
  rw [iscont_eq (start_le hs hn), decide_eq_false (not_isTail_of_start hs hv hn)]

theorem iscont_between (hn : n < vs.length) (hlo : start vs n < i) (hhi : i < start vs (n + 1)) :
    iscont s i = .ok true := by
  have hle := start_le hs (show n + 1 ≤ vs.length by omega)
  have htail : IsTail (oct s i) := by
    rw [oct_eq_text hs]
    exact isTail_between (fun v h => (hv v h).1) hn hlo hhi
  rw [iscont_eq (by omega), decide_eq_true htail]

/-- Forward from within a character -/
theorem next_spec (hn : n < vs.length) {fuel : ℕ} (hlo : start vs n ≤ i) (hhi : i < start vs (n + 1))
    (hfuel : start vs (n + 1) ≤ i + fuel) : next s fuel i = .ok (start vs (n + 1)) := by
  induction fuel generalizing i with
  | zero => omega
  | succ fuel ih =>
    unfold next
    by_cases hlast : i + 1 = start vs (n + 1)
    · rw [hlast, iscont_start hs hv hn]
      rfl
    · rw [iscont_between hs hv hn (by omega) (by omega)]
      exact ih (by omega) (by omega) (by omega)

/-- Back from within a character, or from its end -/
theorem previous_spec (hn : n < vs.length) (hlo : start vs n < i) (hhi : i ≤ start vs (n + 1)) :
    previous s i = .ok (start vs n) := by
  induction i with
  | zero => omega
  | succ i ih =>
    unfold previous
    by_cases hfirst : i = start vs n
    · by_cases hpos : 0 < i
      · rw [if_pos hpos, hfirst, iscont_start hs hv hn.le]
        rfl
      · rw [if_neg hpos, hfirst]
        rfl
    · rw [if_pos (by omega), iscont_between hs hv hn (by omega) (by omega)]
      exact ih (by omega) (by omega)

theorem moveOn_spec (hm : m ≤ vs.length) (k : ℕ) :
    moveOn s (start vs m) k = .ok (start vs (min (m + k) vs.length), k - (vs.length - m)) := by
  induction k generalizing m with
  | zero =>
    rw [Nat.add_zero, Nat.min_eq_left hm, Nat.zero_sub]
    rfl
  | succ k ih =>
    unfold moveOn
    by_cases hlt : m < vs.length
    · have hlast := start_le hs (show m + 1 ≤ vs.length from hlt)
      have hstep := start_lt_succ hlt
      rw [if_pos (by omega), next_spec hs hv hlt le_rfl hstep (by omega)]
      show moveOn s (start vs (m + 1)) k = _
      rw [ih (show m + 1 ≤ vs.length from hlt), show m + 1 + k = m + (k + 1) by omega,
        show k - (vs.length - (m + 1)) = k + 1 - (vs.length - m) by omega]
    · obtain rfl : m = vs.length := by omega
      rw [start_end hs, if_neg (lt_irrefl _), Nat.min_eq_right (Nat.le_add_right _ _), start_end hs, Nat.sub_self]
      rfl

theorem moveBack_spec (hm : m ≤ vs.length) (k : ℕ) : moveBack s (start vs m) k = .ok (start vs (m - k), k - m) := by
  induction k generalizing m with
  | zero =>
    rw [Nat.sub_zero, Nat.zero_sub]
    rfl
  | succ k ih =>
    unfold moveBack
    cases m with
    | zero =>
      rw [start_zero, if_neg (lt_irrefl _), Nat.zero_sub, start_zero]
      rfl
    | succ m =>
      have hstep := start_lt_succ (show m < vs.length by omega)
      rw [if_pos (by omega), previous_spec hs hv (show m < vs.length by omega) hstep le_rfl]
      show moveBack s (start vs m) k = _
      rw [ih (by omega), Nat.add_sub_add_right, Nat.add_sub_add_right]

end Positions

section Offset

variable {s : List Byte} {vs : List ℕ} {i : ℕ}

/-- `utf8.offset` from a position that is no tail -/
theorem byteoffset_eq {x : ℤ} (hx : x ≠ 0) (hpos : u_posrelat (if 0 ≤ x then 1 else s.length + 1) s.length = i + 1)
    (hi : i ≤ s.length) (hcont : iscont s i = .ok false) :
    byteoffset s x none = (if x < 0 then moveBack s i (-x).toNat else moveOn s i (x - 1).toNat) >>= fun p =>
      .ok (if p.2 = 0 then some ((p.1 : ℤ) + 1) else none) := by
  unfold byteoffset
  rw [Option.getD_none, hpos]
  dsimp only
  rw [argcheck_ok ⟨by omega, by omega⟩, if_neg hx, show ((i : ℤ) + 1 - 1).toNat = i by omega, hcont]
  show (if x < 0 then (moveBack s i (-x).toNat >>= _) else (moveOn s i (x - 1).toNat >>= _)) = _
  by_cases hneg : x < 0
  · rw [if_pos hneg, if_pos hneg]
    rfl
  · rw [if_neg hneg, if_neg hneg]
    rfl

variable (hs : s.map BitVec.toNat = text vs) (hv : ∀ v ∈ vs, Scalar v)
include hs hv

/-- **`utf8.offset` for a positive number** -/
theorem byteoffset_pos (n : ℕ) : byteoffset s (n + 1) none =
    .ok (if n ≤ vs.length then some (start vs n + 1) else none) := by
  have hpos : u_posrelat (if (0 : ℤ) ≤ n + 1 then 1 else s.length + 1) s.length = (start vs 0 : ℕ) + 1 := by
    rw [if_pos (by omega)]
    rfl
  rw [byteoffset_eq (by omega) hpos (Nat.zero_le _) (iscont_start hs hv (Nat.zero_le _)), if_neg (by omega),
    show ((n : ℤ) + 1 - 1).toNat = n by omega, moveOn_spec hs hv (Nat.zero_le _)]
  show Except.ok (if n - (vs.length - 0) = 0 then _ else _) = _
  by_cases hle : n ≤ vs.length
  · rw [if_pos (by omega), if_pos hle, Nat.zero_add, Nat.min_eq_left hle]
  · rw [if_neg (by omega), if_neg hle]

/-- **`utf8.offset` for a negative number** -/
theorem byteoffset_neg (k : ℕ) : byteoffset s (-(k + 1)) none =
    .ok (if k + 1 ≤ vs.length then some (start vs (vs.length - (k + 1)) + 1) else none) := by
  have hpos : u_posrelat (if (0 : ℤ) ≤ -(k + 1) then 1 else s.length + 1) s.length = (start vs vs.length : ℕ) + 1 := by
    rw [if_neg (by omega), start_end hs]
    exact if_pos (by omega)
  rw [byteoffset_eq (by omega) hpos (start_le hs le_rfl) (iscont_start hs hv le_rfl), if_pos (by omega),
    show (- -((k : ℤ) + 1)).toNat = k + 1 by omega, moveBack_spec hs hv le_rfl]
  show Except.ok (if k + 1 - vs.length = 0 then _ else _) = _
  by_cases hle : k + 1 ≤ vs.length
  · rw [if_pos (by omega), if_pos hle]
  · rw [if_neg (by omega), if_neg hle]

/-- A position that is no tail is a start. -/
theorem exists_start (hi : i ≤ s.length) (htail : ¬IsTail (oct s i)) : ∃ n ≤ vs.length, i = start vs n := by
  have hsearch : ∀ k ≤ vs.length, i ≤ start vs k → ∃ n ≤ vs.length, i = start vs n := by
    intro k
    induction k with
    | zero => exact fun _ hle => ⟨0, Nat.zero_le _, Nat.le_zero.mp hle⟩
    | succ k ih =>
      intro hk hle
      by_cases heq : i = start vs (k + 1)
      · exact ⟨k + 1, hk, heq⟩
      · by_cases hlt : start vs k < i
        · refine absurd ?_ htail
          rw [oct_eq_text hs]
          exact isTail_between (fun v h => (hv v h).1) hk hlt (by omega)
        · exact ih (by omega) (by omega)
  exact hsearch vs.length le_rfl (by rw [start_end hs]; exact hi)

end Offset

/-! ### The functions together -/

section Library

/-- A string of well-formed sequences -/
def IsText (s : List Byte) (ls : List (List ℕ)) : Prop := (∀ l ∈ ls, WellFormed l) ∧ s.map BitVec.toNat = ls.flatten

theorem IsText.scalars {s : List Byte} {ls : List (List ℕ)} (h : IsText s ls) :
    ∃ vs, (∀ v ∈ vs, Scalar v) ∧ s.map BitVec.toNat = text vs ∧ vs.length = ls.length := by
  have hall : ∀ ls : List (List ℕ), (∀ l ∈ ls, WellFormed l) →
      ∃ vs, (∀ v ∈ vs, Scalar v) ∧ ls.flatten = text vs ∧ vs.length = ls.length := by
    intro ls
    induction ls with
    | nil => exact fun _ => ⟨[], by simp, rfl, rfl⟩
    | cons l ls ih =>
      intro hls
      obtain ⟨v, hv, rfl⟩ := (wellFormed_iff l).mp (hls l List.mem_cons_self)
      obtain ⟨vs, hvs, hflat, hlen⟩ := ih (fun l' h' => hls l' (List.mem_cons_of_mem _ h'))
      refine ⟨v :: vs, List.forall_mem_cons.mpr ⟨hv, hvs⟩, ?_, congrArg (· + 1) hlen⟩
      rw [List.flatten_cons, hflat]
      rfl
  obtain ⟨vs, hvs, hflat, hlen⟩ := hall ls h.1
  exact ⟨vs, hvs, h.2.trans hflat, hlen⟩

/-- What is accepted at a position, and what is rejected -/
def DecodeMeets (s : List Byte) (o : ℕ) : Prop :=
  (∀ o' r, utf8_decode s o = .ok (some (o', r)) ↔
    ∃ l, WellFormed l ∧ Starts s o l ∧ o' = o + l.length ∧ encode r.toNat = l) ∧
  ((¬∃ l, WellFormed l ∧ Starts s o l) → utf8_decode s o = .ok none)

/-- `utf8.offset` and `utf8.len` on a string of `count` characters: forth and back for a positive number, for a negative number,
and back and forth. -/
def PositionsMeet (s : List Byte) (count : ℕ) : Prop :=
  (∀ n ≤ count, ∃ p : ℤ, byteoffset s (n + 1) none = .ok (some p) ∧ utflen s (some 1) (some (p - 1)) = .ok (.inl n)) ∧
  (∀ k < count, ∃ p : ℤ, byteoffset s (-(k + 1)) none = .ok (some p) ∧
    utflen s (some 1) (some (p - 1)) = .ok (.inl (count - (k + 1)))) ∧
  ∀ i ≤ s.length, ¬IsTail (oct s i) → ∃ n ≤ count, utflen s (some 1) (some i) = .ok (.inl n) ∧
    byteoffset s (n + 1) none = .ok (some (i + 1)) ∧
    (n < count → byteoffset s (n - count) none = .ok (some (i + 1)))

theorem decodeMeets {s : List Byte} {o : ℕ} (ho : o < s.length) (hlong : ¬Overlong s o) : DecodeMeets s o := by
  constructor
  · intro o' r
    rw [utf8_decode_iff ho]
    constructor
    · rintro ⟨v, hv, hst, rfl, rfl⟩
      have hmax := hv.1
      refine ⟨encode v, (wellFormed_iff _).mpr ⟨v, hv, rfl⟩, hst, rfl, ?_⟩
      rw [BitVec.toNat_ofNat, Nat.mod_eq_of_lt (by omega)]
    · rintro ⟨l, hl, hst, rfl, hr⟩
      obtain ⟨v, hv, rfl⟩ := (wellFormed_iff l).mp hl
      refine ⟨v, hv, hst, rfl, ?_⟩
      rw [← encode_injective hr, BitVec.ofNat_toNat, BitVec.setWidth_eq]
  · intro hno
    refine utf8_decode_rejects ho ?_ hlong
    rintro ⟨v, hv, hst⟩
    exact hno ⟨encode v, (wellFormed_iff _).mpr ⟨v, hv, rfl⟩, hst⟩

/-- The terminator ends every sequence. -/
theorem utf8_decode_inside {s : List Byte} {o : ℕ} (ho : o ≤ s.length) : utf8_decode s o ≠ .error .outside := by
  by_cases hlt : o < s.length
  · by_cases hlong : Overlong s o
    · rw [decode_overlong hlong]
      decide
    · by_cases hno : ∃ v, Scalar v ∧ Starts s o (encode v)
      · obtain ⟨v, hv, hst⟩ := hno
        rw [utf8_decode_accepts hv hst]
        simp
      · rw [utf8_decode_rejects hlt hno hlong]
        simp
  · have hzero : s.getD o 0 = 0 := by
      rw [List.getD_eq_getElem?_getD, List.getElem?_eq_none (by omega)]
      rfl
    unfold utf8_decode
    rw [byteAt_ok ho, hzero]
    show (Except.ok (some (o + 1, 0#32)) : LibM (Option (ℕ × BitVec 32))) ≠ .error .outside
    simp

theorem positionsMeet {s : List Byte} {vs : List ℕ} (hs : s.map BitVec.toNat = text vs) (hv : ∀ v ∈ vs, Scalar v) :
    PositionsMeet s vs.length := by
  refine ⟨?_, ?_, ?_⟩
  · intro n hn
    refine ⟨start vs n + 1, ?_, ?_⟩
    · rw [byteoffset_pos hs hv, if_pos hn]
    · rw [add_sub_cancel_right, utflen_start hs hv hn]
  · intro k hk
    refine ⟨start vs (vs.length - (k + 1)) + 1, ?_, ?_⟩
    · rw [byteoffset_neg hs hv, if_pos (show k + 1 ≤ vs.length from hk)]
    · rw [add_sub_cancel_right, utflen_start hs hv (Nat.sub_le _ _), Nat.cast_sub (show k + 1 ≤ vs.length from hk)]
      norm_cast
  · intro i hi htail
    obtain ⟨n, hn, rfl⟩ := exists_start hs hv hi htail
    refine ⟨n, hn, utflen_start hs hv hn, ?_, ?_⟩
    · rw [byteoffset_pos hs hv, if_pos hn]
    · intro hlt
      obtain ⟨k, hk⟩ : ∃ k, vs.length = n + (k + 1) := ⟨vs.length - n - 1, by omega⟩
      have hnum : (n : ℤ) - vs.length = -(k + 1) := by
        rw [hk]
        push_cast
        ring
      rw [hnum, byteoffset_neg hs hv, if_pos (by omega), show vs.length - (k + 1) = n by omega]

/-- **The UTF-8 library.**  `utf8.char` builds the string of a list of code points, `utf8.len` counts them, and
`utf8.codepoint` reads them back where the stack of a C function has the room.  Decoding never reads behind the terminator and
accepts the well-formed sequences, except where a byte of ones announces seven continuation bytes and has them.
`utf8.offset` and `utf8.len` are inverse to one another. -/
theorem utf8_library :
    (∀ vs : List ℕ, (∀ v ∈ vs, Scalar v) → ∃ s, utfchar (vs.map Int.ofNat) = .ok s ∧ IsText s (vs.map encode) ∧
      utflen s none none = .ok (.inl vs.length) ∧
      (3 + s.length ≤ LUAI_MAXCSTACK → codepoint s (some 1) (some (-1)) 3 = .ok (vs.map (BitVec.ofNat 32))) ∧
      (LUAI_MAXCSTACK < 3 + s.length → ∃ msg, codepoint s (some 1) (some (-1)) 3 = .error (.error msg))) ∧
    (∀ (s : List Byte) (o : ℕ), o ≤ s.length → utf8_decode s o ≠ .error .outside) ∧
    (∀ (s : List Byte) (o : ℕ), o < s.length → ¬Overlong s o → DecodeMeets s o) ∧
    ∀ (s : List Byte) (ls : List (List ℕ)), IsText s ls → PositionsMeet s ls.length := by
  refine ⟨?_, fun s o => utf8_decode_inside, fun s o => decodeMeets, ?_⟩
  · intro vs hv
    obtain ⟨s, hchar, hs⟩ := utfchar_spec (fun v h => (hv v h).1)
    have htext : IsText s (vs.map encode) := by
      refine ⟨?_, hs⟩
      intro l hl
      obtain ⟨v, hmem, rfl⟩ := List.mem_map.mp hl
      exact (wellFormed_iff _).mpr ⟨v, hv v hmem, rfl⟩
    have hmax : LUAI_MAXCSTACK = 8000 := rfl
    exact ⟨s, hchar, htext, utflen_spec hs hv, fun hroom => codepoint_spec hs hv hroom (by decide),
      fun hroom => codepoint_overflow (by omega) hroom⟩
  · intro s ls h
    obtain ⟨vs, hv, hs, hlen⟩ := h.scalars
    rw [← hlen]
    exact positionsMeet hs hv

theorem utf8_library_sample : ∃ s, utfchar [0x41, 0x20AC, 0x1F600] = .ok s ∧ utflen s none none = .ok (.inl 3) := by
  obtain ⟨s, hchar, -, hlen, -⟩ := utf8_library.1 [0x41, 0x20AC, 0x1F600] (by decide)
  exact ⟨s, hchar, hlen⟩

/-- The slots of the stack bound the code points that `utf8.codepoint` returns. -/
theorem codepoint_of_long_fails :
    ¬∀ vs : List ℕ, (∀ v ∈ vs, Scalar v) → ∀ s, utfchar (vs.map Int.ofNat) = .ok s →
      codepoint s (some 1) (some (-1)) 3 = .ok (vs.map (BitVec.ofNat 32)) := by
  intro h
  have hv : ∀ v ∈ List.replicate 8000 0x41, Scalar v := by
    intro v hmem
    rw [(List.mem_replicate.mp hmem).2]
    decide
  obtain ⟨s, hchar, hs⟩ := utfchar_spec (fun v h => (hv v h).1)
  have hlen : s.length = 8000 := by
    rw [← length_text hs]
    unfold text
    rw [List.length_flatMap, List.map_replicate, List.sum_replicate]
    rfl
  have hmax : LUAI_MAXCSTACK = 8000 := rfl
  obtain ⟨msg, herror⟩ := codepoint_overflow (s := s) (by omega) (show LUAI_MAXCSTACK < 3 + s.length by omega)
  have hread := h _ hv s hchar
  rw [herror] at hread
  cases hread

end Library

end Luwu.Utf8Lib
