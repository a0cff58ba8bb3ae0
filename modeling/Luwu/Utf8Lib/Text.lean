import Luwu.Utf8Lib.Decode

/-!
# Texts

What `utf8.char` builds are the octets of its arguments (`utfchar_spec`); `utf8.len` counts them and `utf8.codepoint` reads
them back.  Both step from the start of a character to that of the next one (`decode_start`).
-/

namespace Luwu.Utf8Lib

open Utf8

/-! ### Encoding -/

section Encode

variable {x room : ℕ} {mfb : BitVec 32} {buff : List Byte}

theorem toNat_contByte (x : ℕ) : (BitVec.ofNat 8 (0x80 ||| (x &&& 0x3f))).toNat = 0x80 + x % 64 := by
  have hall : ∀ n : Fin 64, (BitVec.ofNat 8 (0x80 ||| n.val)).toNat = 0x80 + n.val := by decide +kernel
  have hmask : x &&& 0x3f = x % 64 := Nat.and_two_pow_sub_one_eq_mod x 6
  rw [hmask]
  exact hall ⟨x % 64, Nat.mod_lt _ (by decide)⟩

/-- The continuation byte that a turn puts down -/
def contByte (x : ℕ) : Byte := BitVec.ofNat 8 (0x80 ||| (x &&& 0x3f))

theorem escLoop_more (h : (mfb >>> 1).toNat < x / 64) :
    escLoop (room + 1) x mfb buff = escLoop room (x / 64) (mfb >>> 1) (contByte x :: buff) := by
  have hshift : x >>> 6 = x / 64 := Nat.shiftRight_eq_div_pow x 6
  conv_lhs => unfold escLoop
  rw [hshift, if_pos h]
  rfl

theorem escLoop_last (h : ¬(mfb >>> 1).toNat < x / 64) (hroom : room ≠ 0) :
    escLoop (room + 1) x mfb buff =
      .ok (BitVec.ofNat 8 ((~~~(mfb >>> 1) <<< 1).toNat ||| x / 64) :: contByte x :: buff) := by
  have hshift : x >>> 6 = x / 64 := Nat.shiftRight_eq_div_pow x 6
  unfold escLoop
  rw [hshift, if_neg h, if_neg hroom]
  rfl

/-- The bits that the first byte begins with -/
theorem toNat_firstByte_one (h : x < 32) : (BitVec.ofNat 8 ((~~~(0x1f#32) <<< 1).toNat ||| x)).toNat = 0xC0 + x := by
  have hall : ∀ n : Fin 32, (BitVec.ofNat 8 ((~~~(0x1f#32) <<< 1).toNat ||| n.val)).toNat = 0xC0 + n.val := by
    decide +kernel
  exact hall ⟨x, h⟩

theorem toNat_firstByte_two (h : x < 16) : (BitVec.ofNat 8 ((~~~(0xf#32) <<< 1).toNat ||| x)).toNat = 0xE0 + x := by
  have hall : ∀ n : Fin 16, (BitVec.ofNat 8 ((~~~(0xf#32) <<< 1).toNat ||| n.val)).toNat = 0xE0 + n.val := by
    decide +kernel
  exact hall ⟨x, h⟩

theorem toNat_firstByte_three (h : x < 8) : (BitVec.ofNat 8 ((~~~(0x7#32) <<< 1).toNat ||| x)).toNat = 0xF0 + x := by
  have hall : ∀ n : Fin 8, (BitVec.ofNat 8 ((~~~(0x7#32) <<< 1).toNat ||| n.val)).toNat = 0xF0 + n.val := by
    decide +kernel
  exact hall ⟨x, h⟩

theorem drop_tail_one {a b : ℕ} (hb : b < 64) : (a * 64 + b) / 64 = a := by
  omega

theorem drop_tail_two {a b c : ℕ} (hc : c < 64) : (a * 4096 + b * 64 + c) / 64 = a * 64 + b := by
  omega

/-- The bytes of a code point are its octets. -/
theorem luaO_utf8esc_spec (h : x ≤ 0x10FFFF) :
    ∃ bytes, luaO_utf8esc x = .ok bytes ∧ bytes.map BitVec.toNat = encode x := by
  have h1 : (0x3f : BitVec 32) >>> 1 = 0x1f#32 := rfl
  have h2 : 0x1f#32 >>> 1 = 0xf#32 := rfl
  have h3 : 0xf#32 >>> 1 = 0x7#32 := rfl
  have htail := toNat_contByte
  unfold luaO_utf8esc
  rcases encode_cases h with ⟨hlt, he⟩ | ⟨a, b, ha, ha', hb, rfl, he⟩ | ⟨a, b, c, ha, hb, hc, rfl, hlow, he⟩ |
    ⟨a, b, c, d, ha, hb, hc, hd, rfl, hlow, he⟩ <;> rw [he]
  · rw [if_pos hlt]
    refine ⟨_, rfl, ?_⟩
    rw [List.map_singleton, BitVec.toNat_ofNat, Nat.mod_eq_of_lt (by omega)]
  · have hx : (a * 64 + b) / 64 = a := drop_tail_one hb
    rw [if_neg (by omega), escLoop_last (by rw [h1, hx]; exact (show ¬31 < a by omega)) (by decide), h1, hx]
    refine ⟨_, rfl, ?_⟩
    rw [List.map_cons, toNat_firstByte_one ha', List.map_singleton]
    show [_, (BitVec.ofNat 8 (0x80 ||| ((a * 64 + b) &&& 0x3f))).toNat] = _
    rw [htail, show (a * 64 + b) % 64 = b by omega]
  · have hx : (a * 4096 + b * 64 + c) / 64 = a * 64 + b := drop_tail_two hc
    have hx' : (a * 64 + b) / 64 = a := drop_tail_one hb
    rw [if_neg (by omega), escLoop_more (by rw [h1, hx]; exact (show 31 < a * 64 + b by omega)), h1, hx,
      escLoop_last (by rw [h2, hx']; exact (show ¬15 < a by omega)) (by decide), h2, hx']
    refine ⟨_, rfl, ?_⟩
    rw [List.map_cons, toNat_firstByte_two ha, List.map_cons, List.map_singleton]
    show [_, (BitVec.ofNat 8 (0x80 ||| ((a * 64 + b) &&& 0x3f))).toNat,
      (BitVec.ofNat 8 (0x80 ||| ((a * 4096 + b * 64 + c) &&& 0x3f))).toNat] = _
    rw [htail, htail, show (a * 64 + b) % 64 = b by omega, show (a * 4096 + b * 64 + c) % 64 = c by omega]
  · have hx : (a * 262144 + b * 4096 + c * 64 + d) / 64 = a * 4096 + b * 64 + c := by omega
    have hx' : (a * 4096 + b * 64 + c) / 64 = a * 64 + b := drop_tail_two hc
    have hx'' : (a * 64 + b) / 64 = a := drop_tail_one hb
    rw [if_neg (by omega), escLoop_more (by rw [h1, hx]; exact (show 31 < a * 4096 + b * 64 + c by omega)), h1, hx,
      escLoop_more (by rw [h2, hx']; exact (show 15 < a * 64 + b by omega)), h2, hx',
      escLoop_last (by rw [h3, hx'']; exact (show ¬7 < a by omega)) (by decide), h3, hx'']
    refine ⟨_, rfl, ?_⟩
    rw [List.map_cons, toNat_firstByte_three (by omega), List.map_cons, List.map_cons, List.map_singleton]
    show [_, (BitVec.ofNat 8 (0x80 ||| ((a * 64 + b) &&& 0x3f))).toNat,
      (BitVec.ofNat 8 (0x80 ||| ((a * 4096 + b * 64 + c) &&& 0x3f))).toNat,
      (BitVec.ofNat 8 (0x80 ||| ((a * 262144 + b * 4096 + c * 64 + d) &&& 0x3f))).toNat] = _
    rw [htail, htail, htail, show (a * 64 + b) % 64 = b by omega, show (a * 4096 + b * 64 + c) % 64 = c by omega,
      show (a * 262144 + b * 4096 + c * 64 + d) % 64 = d by omega]

theorem utfcharLoop_spec {vs : List ℕ} (hv : ∀ v ∈ vs, v ≤ 0x10FFFF) (arg : ℕ) :
    ∃ s, utfcharLoop arg (vs.map Int.ofNat) = .ok s ∧ s.map BitVec.toNat = text vs := by
  induction vs generalizing arg with
  | nil => exact ⟨[], rfl, rfl⟩
  | cons v vs ih =>
    have hmax : v ≤ 0x10FFFF := hv v List.mem_cons_self
    obtain ⟨bytes, hbytes, hoct⟩ := luaO_utf8esc_spec hmax
    obtain ⟨s, hs, htext⟩ := ih (fun w hw => hv w (List.mem_cons_of_mem v hw)) (arg + 1)
    have hcode : 0 ≤ Int.ofNat v ∧ Int.ofNat v ≤ MAXUNICODE.toNat :=
      ⟨Int.natCast_nonneg v, show (v : ℤ) ≤ ((0x10FFFF : ℕ) : ℤ) by omega⟩
    refine ⟨bytes ++ s, ?_, ?_⟩
    · rw [List.map_cons]
      unfold utfcharLoop
      rw [argcheck_ok hcode]
      show (luaO_utf8esc v >>= _) = _
      rw [hbytes]
      show (utfcharLoop (arg + 1) (vs.map Int.ofNat) >>= _) = _
      rw [hs]
      rfl
    · rw [List.map_append, hoct, htext]
      rfl

/-- **`utf8.char`** -/
theorem utfchar_spec {vs : List ℕ} (hv : ∀ v ∈ vs, v ≤ 0x10FFFF) :
    ∃ s, utfchar (vs.map Int.ofNat) = .ok s ∧ s.map BitVec.toNat = text vs := utfcharLoop_spec hv 1

end Encode

/-! ### Reading -/

section Read

variable {s : List Byte} {vs : List ℕ} {m n : ℕ}

theorem oct_eq_text (hs : s.map BitVec.toNat = text vs) (i : ℕ) : oct s i = (text vs).getD i 0 := by
  rw [← hs, List.getD_eq_getElem?_getD, List.getElem?_map]
  unfold oct
  rw [List.getD_eq_getElem?_getD]
  cases s[i]? <;> rfl

theorem length_text (hs : s.map BitVec.toNat = text vs) : (text vs).length = s.length := by
  rw [← hs, List.length_map]

theorem starts_start (hs : s.map BitVec.toNat = text vs) (h : m < vs.length) :
    Starts s (start vs m) (encode (vs.get ⟨m, h⟩)) := by
  unfold Starts
  rw [hs, drop_start h]
  exact List.prefix_append _ _

/-- Decoding at a start leads to the next one. -/
theorem decode_start (hs : s.map BitVec.toNat = text vs) (hv : ∀ v ∈ vs, Scalar v) (h : m < vs.length) :
    utf8_decode s (start vs m) = .ok (some (start vs (m + 1), BitVec.ofNat 32 (vs.get ⟨m, h⟩))) := by
  rw [start_succ h]
  exact utf8_decode_accepts (hv _ (List.get_mem vs _)) (starts_start hs h)

theorem lenLoop_spec (hs : s.map BitVec.toNat = text vs) (hv : ∀ v ∈ vs, Scalar v) (hn : n ≤ vs.length) {d fuel : ℕ}
    (hd : m + d = n) (hfuel : d < fuel) (count : ℤ) :
    lenLoop s (start vs n - 1) fuel (start vs m) count = .ok (.inl (count + d)) := by
  induction d generalizing m fuel count with
  | zero =>
    obtain ⟨fuel, rfl⟩ : ∃ k, fuel = k + 1 := ⟨fuel - 1, by omega⟩
    rw [← hd]
    unfold lenLoop
    rw [if_neg (by rw [Nat.add_zero]; omega)]
    show Except.ok (Sum.inl count) = _
    simp
  | succ d ih =>
    obtain ⟨fuel, rfl⟩ : ∃ k, fuel = k + 1 := ⟨fuel - 1, by omega⟩
    have hlt : start vs m < start vs n := start_strictMono (by omega) hn
    have hrec : lenLoop s (start vs n - 1) fuel (start vs (m + 1)) (count + 1) = .ok (.inl (count + 1 + d)) :=
      ih (by omega) (by omega) (count + 1)
    unfold lenLoop
    rw [if_pos (by omega), decode_start hs hv (by omega)]
    show lenLoop s (start vs n - 1) fuel (start vs (m + 1)) (count + 1) = _
    rw [hrec, Nat.cast_succ]
    congr 2
    ring

theorem le_start (hn : n ≤ vs.length) : n ≤ start vs n := by
  induction n with
  | zero => exact Nat.zero_le _
  | succ n ih =>
    have := ih (by omega)
    have := start_lt_succ (show n < vs.length by omega)
    omega

/-- **`utf8.len` up to a start** -/
theorem utflen_start (hs : s.map BitVec.toNat = text vs) (hv : ∀ v ∈ vs, Scalar v) (hn : n ≤ vs.length) :
    utflen s (some 1) (some (start vs n)) = .ok (.inl n) := by
  have hle := start_le_length hn
  have hcount := le_start hn
  rw [length_text hs] at hle
  have hposj : u_posrelat (start vs n) s.length = start vs n := if_pos (by omega)
  have hloop : lenLoop s (start vs n - 1) (s.length + 1) (start vs 0) 0 = .ok (.inl (0 + (n : ℤ))) :=
    lenLoop_spec hs hv hn (by omega) (by omega) 0
  unfold utflen
  show (do
    argcheck (1 ≤ u_posrelat 1 s.length ∧ u_posrelat 1 s.length - 1 ≤ s.length) 2 "initial position out of string"
    argcheck (u_posrelat (start vs n) s.length - 1 < s.length) 3 "final position out of string"
    lenLoop s (u_posrelat (start vs n) s.length - 1) (s.length + 1) (u_posrelat 1 s.length - 1).toNat 0) = _
  rw [hposj, show u_posrelat 1 s.length = 1 from rfl]
  rw [argcheck_ok ⟨le_rfl, by omega⟩, argcheck_ok (by omega)]
  show lenLoop s (start vs n - 1) (s.length + 1) (start vs 0) 0 = _
  rw [hloop, zero_add]

/-- `utf8.len` of a whole text -/
theorem utflen_spec (hs : s.map BitVec.toNat = text vs) (hv : ∀ v ∈ vs, Scalar v) :
    utflen s none none = .ok (.inl vs.length) := by
  have hlast := utflen_start hs hv le_rfl
  have hpos : u_posrelat (-1) s.length = s.length := by
    unfold u_posrelat
    rw [if_neg (by omega)]
    split_ifs <;> omega
  have hpos' : u_posrelat s.length s.length = s.length := if_pos (by omega)
  rw [start_length, length_text hs] at hlast
  rw [← hlast]
  unfold utflen
  show (do
    argcheck (1 ≤ u_posrelat 1 s.length ∧ u_posrelat 1 s.length - 1 ≤ s.length) 2 "initial position out of string"
    argcheck (u_posrelat (-1) s.length - 1 < s.length) 3 "final position out of string"
    lenLoop s (u_posrelat (-1) s.length - 1) (s.length + 1) (u_posrelat 1 s.length - 1).toNat 0) = _
  rw [hpos]
  show _ = (do
    argcheck (1 ≤ u_posrelat 1 s.length ∧ u_posrelat 1 s.length - 1 ≤ s.length) 2 "initial position out of string"
    argcheck (u_posrelat s.length s.length - 1 < s.length) 3 "final position out of string"
    lenLoop s (u_posrelat s.length s.length - 1) (s.length + 1) (u_posrelat 1 s.length - 1).toNat 0)
  rw [hpos']

theorem codepointLoop_spec (hs : s.map BitVec.toNat = text vs) (hv : ∀ v ∈ vs, Scalar v) {d fuel : ℕ}
    (hd : m + d = vs.length) (hfuel : d < fuel) :
    codepointLoop s s.length fuel (start vs m) = .ok ((vs.drop m).map (BitVec.ofNat 32)) := by
  have hend : start vs vs.length = s.length := by rw [start_length, length_text hs]
  induction d generalizing m fuel with
  | zero =>
    obtain ⟨fuel, rfl⟩ : ∃ k, fuel = k + 1 := ⟨fuel - 1, by omega⟩
    obtain rfl : m = vs.length := by omega
    unfold codepointLoop
    rw [hend, if_neg (by omega), List.drop_length]
    rfl
  | succ d ih =>
    obtain ⟨fuel, rfl⟩ : ∃ k, fuel = k + 1 := ⟨fuel - 1, by omega⟩
    have hlt : start vs m < s.length := by
      rw [← hend]
      exact start_strictMono (by omega) le_rfl
    have hrec : codepointLoop s s.length fuel (start vs (m + 1)) = .ok ((vs.drop (m + 1)).map (BitVec.ofNat 32)) :=
      ih (by omega) (by omega)
    unfold codepointLoop
    rw [if_pos (by omega), decode_start hs hv (show m < vs.length by omega)]
    show (codepointLoop s s.length fuel (start vs (m + 1)) >>= _) = _
    rw [hrec, List.drop_eq_getElem_cons (show m < vs.length by omega), List.map_cons]
    rfl

/-- What `utf8.codepoint` does before it reads the whole string -/
theorem codepoint_whole {top : ℤ} (hne : 0 < s.length) :
    codepoint s (some 1) (some (-1)) top = (do
      if INT_MAX ≤ (s.length : ℤ) - 1 then .error (.error "string slice too long")
      luaL_checkstack top s.length "string slice too long"
      codepointLoop s s.length (s.length + 1) 0) := by
  have hpos : u_posrelat (-1) s.length = s.length := by
    unfold u_posrelat
    rw [if_neg (by omega), if_neg (by omega)]
    omega
  unfold codepoint
  show ((do
    argcheck (1 ≤ u_posrelat 1 s.length) 2 "out of range"
    argcheck (u_posrelat (-1) s.length ≤ s.length) 3 "out of range"
    if u_posrelat (-1) s.length < u_posrelat 1 s.length then return []
    if INT_MAX ≤ u_posrelat (-1) s.length - u_posrelat 1 s.length then .error (.error "string slice too long")
    luaL_checkstack top (u_posrelat (-1) s.length - u_posrelat 1 s.length + 1) "string slice too long"
    codepointLoop s (u_posrelat (-1) s.length) (s.length + 1) (u_posrelat 1 s.length - 1).toNat) : LibM (List (BitVec 32))) = _
  rw [hpos, show u_posrelat 1 s.length = 1 from rfl, sub_add_cancel, argcheck_ok le_rfl, argcheck_ok le_rfl]
  show (if (s.length : ℤ) < 1 then _ else _) = _
  rw [if_neg (by omega)]
  rfl

/-- **`utf8.codepoint` of a whole text**, where the stack has the room -/
theorem codepoint_spec {top : ℤ} (hs : s.map BitVec.toNat = text vs) (hv : ∀ v ∈ vs, Scalar v)
    (hroom : top + s.length ≤ LUAI_MAXCSTACK) (htop : 0 ≤ top) :
    codepoint s (some 1) (some (-1)) top = .ok (vs.map (BitVec.ofNat 32)) := by
  by_cases hne : 0 < s.length
  · have hcount := le_start (le_refl vs.length)
    rw [start_length, length_text hs] at hcount
    have hloop : codepointLoop s s.length (s.length + 1) (start vs 0) = .ok ((vs.drop 0).map (BitVec.ofNat 32)) :=
      codepointLoop_spec hs hv (Nat.zero_add _) (by omega)
    have hmax : LUAI_MAXCSTACK = 8000 := rfl
    have hint : INT_MAX = 2147483647 := rfl
    rw [codepoint_whole hne, if_neg (by omega)]
    unfold luaL_checkstack
    rw [if_neg (by omega)]
    exact hloop
  · have hzero : (text vs).length = 0 := by
      rw [length_text hs]
      omega
    have hcount := le_start (le_refl vs.length)
    rw [start_length, hzero] at hcount
    obtain rfl : vs = [] := List.length_eq_zero_iff.mp (by omega)
    obtain rfl : s = [] := List.length_eq_zero_iff.mp (by omega)
    rfl

/-- Where the stack lacks the room, `utf8.codepoint` fails. -/
theorem codepoint_overflow {top : ℤ} (hne : 0 < s.length) (hroom : LUAI_MAXCSTACK < top + s.length) :
    ∃ msg, codepoint s (some 1) (some (-1)) top = .error (.error msg) := by
  rw [codepoint_whole hne]
  by_cases hlong : INT_MAX ≤ (s.length : ℤ) - 1
  · rw [if_pos hlong]
    exact ⟨_, rfl⟩
  · rw [if_neg hlong]
    unfold luaL_checkstack
    rw [if_pos (Or.inr hroom)]
    exact ⟨_, rfl⟩

end Read

end Luwu.Utf8Lib
