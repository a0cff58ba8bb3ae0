import Luwu.NumPrint.Numeral

/-!
# The forms that are printed

Each branch of `printdecimal` writes the text of a form whose value is the decimal, inside the buffer.
-/

namespace Luwu.NumPrint

section Layout

variable {buf decbuf pre ds rest : List UInt8} {pos dec s : ℕ} {k : ℤ}

/-- The digits of `s` are in one buffer, and the sign is in the other. -/
structure Ready (buf decbuf pre ds rest : List UInt8) (pos dec s : ℕ) : Prop where
  sign : pre <+: buf
  place : pos = pre.length
  short : pos ≤ 1
  room : buf.length = LUAI_MAXNUM2STR
  source : decbuf.drop dec = ds ++ rest
  sourceRoom : decbuf.length = 40
  sourcePlace : dec + ds.length = 20
  few : ds.length ≤ 17
  digits : Digits ds
  value : digitsValue ds = s
  pos : 0 < s

theorem Ready.ne_nil (R : Ready buf decbuf pre ds rest pos dec s) : ds ≠ [] := by
  rintro rfl
  exact R.pos.ne R.value

/-- The text of a form is written behind the sign. -/
def Writes (buf pre : List UInt8) (run : Option (List UInt8 × ℕ)) (v : ℚ) : Prop :=
  ∃ f : Form, f.Good ∧ f.value = v ∧ ∃ buf' e, run = some (buf', e) ∧ buf'.length = buf.length ∧ pre ++ f.text <+: buf' ∧
    e = (pre ++ f.text).length

/-- Where the digits of a fraction are not all zeros, some are left. -/
theorem trim_ne_nil {int frac : List UInt8} (h : digitsValue (int ++ frac) ≠ digitsValue int * 10 ^ frac.length) : trim frac ≠ [] := by
  intro hnil
  have hvalue := value_trim int frac
  rw [hnil, List.append_nil, List.length_nil, Nat.cast_zero, neg_zero, zpow_zero, mul_one, zpow_neg, zpow_natCast,
    ← div_eq_mul_inv, eq_div_iff (by positivity)] at hvalue
  exact h (by exact_mod_cast hvalue.symm)

theorem trim_trim (l : List UInt8) : trim (trim l) = trim l := List.rdropWhile_idempotent _ _

theorem pointed_ne {frac : List UInt8} (h : frac ≠ []) : pointed frac = '.'.toUInt8 :: frac := if_neg h

/-- No digit before the point -/
theorem writes_small (R : Ready buf decbuf pre ds rest pos dec s) {z : ℕ} (hz : z ≤ 5) :
    Writes buf pre (do
      let buf ← write buf pos ['0'.toUInt8, '.'.toUInt8]
      let buf ← fastmemset buf (pos + 2) '0'.toUInt8 z 5
      let buf ← fastmemcpy buf (pos + 2 + z) decbuf dec ds.length 17
      let end_ ← trimzero buf (pos + 2 + z + ds.length)
      return (buf, end_)) (s * 10 ^ (-((z + ds.length : ℕ) : ℤ))) := by
  have hroom : buf.length = 48 := R.room
  have hshort := R.short
  have hplace := R.place
  have hfew := R.few
  have hsource := R.sourcePlace
  have hsourceRoom := R.sourceRoom
  obtain ⟨frac, hfrac⟩ : ∃ frac, frac = List.replicate z '0'.toUInt8 ++ ds := ⟨_, rfl⟩
  have hfraclen : frac.length = z + ds.length := by
    rw [hfrac, List.length_append, List.length_replicate]
  have hfracvalue : digitsValue (['0'.toUInt8] ++ frac) = s := by
    have h := digitsValue_zeros (1 + z) ds
    rw [List.replicate_add, List.append_assoc, ← hfrac, R.value] at h
    exact h
  have hne : trim frac ≠ [] := by
    have hpos := R.pos
    have hzero : digitsValue ['0'.toUInt8] * 10 ^ frac.length = 0 := Nat.zero_mul _
    exact trim_ne_nil (by rw [hfracvalue, hzero]; omega)
  have hdigits : Digits frac := by
    rw [hfrac]
    exact (digits_zeros z).append R.digits
  refine ⟨⟨['0'.toUInt8], trim frac, none⟩, ⟨digits_zeros 1, by simp, hdigits.of_initial (trim_le _), trim_trim _, by simp⟩, ?_, ?_⟩
  · show (digitsValue (['0'.toUInt8] ++ trim frac) : ℚ) * 10 ^ (-((trim frac).length : ℤ)) * 10 ^ (0 : ℤ) = _
    rw [value_trim, hfracvalue, hfraclen, zpow_zero, mul_one]
  · obtain ⟨buf1, hrun1, hlen1, hpre1⟩ := write_prefix ['0'.toUInt8, '.'.toUInt8] R.sign hplace
      (show pos + 2 ≤ buf.length by omega) (List.prefix_refl _)
    obtain ⟨buf2, hrun2, hlen2, hpre2⟩ := fastmemset_prefix '0'.toUInt8 z 5 hpre1
      (show pos + 2 = (pre ++ ['0'.toUInt8, '.'.toUInt8]).length by rw [List.length_append, ← hplace]; rfl) hz (by omega)
    obtain ⟨buf3, hrun3, hlen3, hpre3⟩ := fastmemcpy_prefix 0 ds.length 17 hpre2
      (show pos + 2 + z = _ by rw [List.length_append, List.length_append, List.length_replicate, ← hplace]; rfl) R.source
      (by omega) hfew (by omega) (by omega)
    rw [List.drop_zero, List.take_length, List.append_assoc, ← hfrac] at hpre3
    have hpre3' : pre ++ ['0'.toUInt8] ++ ['.'.toUInt8] ++ frac <+: buf3 := by
      rwa [List.append_assoc pre]
    have hlen : pos + 2 + z + ds.length = (pre ++ ['0'.toUInt8] ++ ['.'.toUInt8] ++ frac).length := by
      rw [List.length_append, hfraclen, List.append_assoc pre, List.length_append, ← hplace]
      show _ = pos + 2 + (z + ds.length)
      omega
    have htrim := trimzero_eq (by decide) frac hpre3' hlen
    have htext : pre ++ (Form.mk ['0'.toUInt8] (trim frac) none).text = pre ++ ['0'.toUInt8] ++ ['.'.toUInt8] ++ trim frac := by
      show pre ++ (['0'.toUInt8] ++ pointed (trim frac) ++ []) = _
      rw [pointed_ne hne, List.append_nil, List.append_assoc, List.append_assoc]
      rfl
    refine ⟨buf3, _, ?_, by omega, ?_, rfl⟩
    · change fastmemcpy buf2 (pos + 2 + z) decbuf dec ds.length 17 = some buf3 at hrun3
      rw [htext]
      simp only [hrun1, hrun2, hrun3, htrim, Option.bind_eq_bind, Option.bind_some]
      rfl
    · rw [htext]
      exact (List.prefix_append_right_inj _).mpr (trim_le frac) |>.trans hpre3'

/-- A whole number -/
theorem writes_whole (R : Ready buf decbuf pre ds rest pos dec s) :
    Writes buf pre (do
      let buf ← fastmemcpy buf pos decbuf dec ds.length 17
      return (buf, pos + ds.length)) s := by
  have hroom : buf.length = 48 := R.room
  have hshort := R.short
  have hplace := R.place
  have hsource := R.sourcePlace
  have hsourceRoom := R.sourceRoom
  refine ⟨⟨ds, [], none⟩, ⟨R.digits, R.ne_nil, by simp [Digits], trim_nil, by simp⟩, ?_, ?_⟩
  · show (digitsValue (ds ++ []) : ℚ) * 10 ^ (-((0 : ℕ) : ℤ)) * 10 ^ (0 : ℤ) = _
    rw [List.append_nil, R.value, Nat.cast_zero, neg_zero, zpow_zero, mul_one, mul_one]
  · obtain ⟨buf1, hrun1, hlen1, hpre1⟩ := fastmemcpy_prefix 0 ds.length 17 R.sign hplace R.source (by omega) R.few (by omega) (by omega)
    change fastmemcpy buf pos decbuf dec ds.length 17 = some buf1 at hrun1
    rw [List.drop_zero, List.take_length] at hpre1
    have htext : pre ++ (Form.mk ds [] none).text = pre ++ ds := by
      show pre ++ (ds ++ [] ++ []) = _
      rw [List.append_nil, List.append_nil]
    rw [htext, hrun1, hplace]
    exact ⟨buf1, _, rfl, hlen1, hpre1, List.length_append.symm⟩

/-- The point between the digits -/
theorem writes_middle (R : Ready buf decbuf pre ds rest pos dec s) (n : ℕ) (hn : 0 < n) (hlt : n < ds.length)
    (hdvd : ¬ 10 ^ (ds.length - n) ∣ s) :
    Writes buf pre (do
      let buf ← fastmemcpy buf pos decbuf dec n 16
      let buf ← write buf (pos + n) ['.'.toUInt8]
      let buf ← fastmemcpy buf (pos + n + 1) decbuf (dec + n) (ds.length - n) 16
      let end_ ← trimzero buf (pos + ds.length + 1)
      return (buf, end_)) (s * 10 ^ (-((ds.length - n : ℕ) : ℤ))) := by
  have hroom : buf.length = 48 := R.room
  have hshort := R.short
  have hplace := R.place
  have hfew := R.few
  have hsource := R.sourcePlace
  have hsourceRoom := R.sourceRoom
  have hparts : ds.take n ++ ds.drop n = ds := List.take_append_drop n ds
  have hlen : (ds.drop n).length = ds.length - n := List.length_drop
  have htake : (ds.take n).length = n := List.length_take_of_le hlt.le
  have hne : trim (ds.drop n) ≠ [] := by
    have hcut : digitsValue (ds.take n ++ ds.drop n) ≠ digitsValue (ds.take n) * 10 ^ (ds.drop n).length := by
      rw [hparts, R.value, hlen]
      exact fun h => hdvd (Dvd.intro_left _ h.symm)
    exact trim_ne_nil hcut
  have hint : ds.take n ≠ [] := List.ne_nil_of_length_pos (by rw [htake]; exact hn)
  refine ⟨⟨ds.take n, trim (ds.drop n), none⟩,
    ⟨R.digits.of_initial (List.take_prefix _ _), hint, (R.digits.drop n).of_initial (trim_le _), trim_trim _, by simp⟩, ?_, ?_⟩
  · show (digitsValue (ds.take n ++ trim (ds.drop n)) : ℚ) * 10 ^ (-((trim (ds.drop n)).length : ℤ)) * 10 ^ (0 : ℤ) = _
    rw [value_trim, hparts, R.value, hlen, zpow_zero, mul_one]
  · obtain ⟨buf1, hrun1, hlen1, hpre1⟩ := fastmemcpy_prefix 0 n 16 R.sign hplace R.source (by omega) (by omega) (by omega) (by omega)
    change fastmemcpy buf pos decbuf dec n 16 = some buf1 at hrun1
    rw [List.drop_zero] at hpre1
    have hpos1 : pos + n = (pre ++ ds.take n).length := by rw [List.length_append, htake, ← hplace]
    obtain ⟨buf2, hrun2, hlen2, hpre2⟩ := write_prefix ['.'.toUInt8] hpre1 hpos1 (show pos + n + 1 ≤ buf1.length by omega)
      (List.prefix_refl _)
    have hpos2 : pos + n + 1 = (pre ++ ds.take n ++ ['.'.toUInt8]).length := by rw [List.length_append, ← hpos1]; rfl
    obtain ⟨buf3, hrun3, hlen3, hpre3⟩ := fastmemcpy_prefix n (ds.length - n) 16 hpre2 hpos2 R.source (by omega) (by omega) (by omega)
      (by omega)
    have hall : (ds.drop n).take (ds.length - n) = ds.drop n := List.take_of_length_le hlen.le
    rw [hall] at hpre3
    have hpos3 : pos + ds.length + 1 = (pre ++ ds.take n ++ ['.'.toUInt8] ++ ds.drop n).length := by
      rw [List.length_append, ← hpos2, hlen]
      omega
    have htrim := trimzero_eq (by decide) (ds.drop n) hpre3 hpos3
    have htext : pre ++ (Form.mk (ds.take n) (trim (ds.drop n)) none).text =
        pre ++ ds.take n ++ ['.'.toUInt8] ++ trim (ds.drop n) := by
      show pre ++ (ds.take n ++ pointed (trim (ds.drop n)) ++ []) = _
      rw [pointed_ne hne, List.append_nil, List.append_assoc, List.append_assoc]
      rfl
    refine ⟨buf3, _, ?_, by omega, ?_, rfl⟩
    · rw [htext]
      simp only [hrun1, hrun2, hrun3, htrim, Option.bind_eq_bind, Option.bind_some]
      rfl
    · rw [htext]
      exact (List.prefix_append_right_inj _).mpr (trim_le _) |>.trans hpre3

/-- Zeros behind the digits -/
theorem writes_padded (R : Ready buf decbuf pre ds rest pos dec s) {z : ℕ} (hz : z ≤ 8) :
    Writes buf pre (do
      let buf ← fastmemcpy buf pos decbuf dec ds.length 17
      let buf ← fastmemset buf (pos + ds.length) '0'.toUInt8 z 8
      return (buf, pos + (ds.length + z))) (s * 10 ^ (z : ℤ)) := by
  have hroom : buf.length = 48 := R.room
  have hshort := R.short
  have hplace := R.place
  have hfew := R.few
  have hsource := R.sourcePlace
  have hsourceRoom := R.sourceRoom
  refine ⟨⟨ds ++ List.replicate z '0'.toUInt8, [], none⟩,
    ⟨R.digits.append (digits_zeros z), by simp [R.ne_nil], by simp [Digits], trim_nil, by simp⟩, ?_, ?_⟩
  · show (digitsValue (ds ++ List.replicate z '0'.toUInt8 ++ []) : ℚ) * 10 ^ (-((0 : ℕ) : ℤ)) * 10 ^ (0 : ℤ) = _
    rw [List.append_nil, digitsValue_replicate, R.value, Nat.cast_zero, neg_zero, zpow_zero, mul_one, mul_one, zpow_natCast]
    push_cast
    rfl
  · obtain ⟨buf1, hrun1, hlen1, hpre1⟩ := fastmemcpy_prefix 0 ds.length 17 R.sign hplace R.source (by omega) hfew (by omega) (by omega)
    change fastmemcpy buf pos decbuf dec ds.length 17 = some buf1 at hrun1
    rw [List.drop_zero, List.take_length] at hpre1
    have hpos1 : pos + ds.length = (pre ++ ds).length := by rw [List.length_append, ← hplace]
    obtain ⟨buf2, hrun2, hlen2, hpre2⟩ := fastmemset_prefix '0'.toUInt8 z 8 hpre1 hpos1 hz (by omega)
    have htext : pre ++ (Form.mk (ds ++ List.replicate z '0'.toUInt8) [] none).text = pre ++ ds ++ List.replicate z '0'.toUInt8 := by
      show pre ++ (ds ++ List.replicate z '0'.toUInt8 ++ [] ++ []) = _
      rw [List.append_nil, List.append_nil, List.append_assoc]
    refine ⟨buf2, pos + (ds.length + z), ?_, by omega, ?_, ?_⟩
    · simp only [hrun1, hrun2, Option.bind_eq_bind, Option.bind_some]
      rfl
    · rwa [htext]
    · rw [htext, List.length_append, ← hpos1, List.length_replicate, Nat.add_assoc]

/-- The exponent behind a text -/
theorem printexp_spec (num : ℤ) (hpre : pre <+: buf) (hpos : pos = pre.length)
    (hroom : pos + 5 ≤ buf.length) : ∃ buf', printexp buf pos num = some (buf', pos + (exponentText num).length) ∧
      buf'.length = buf.length ∧ pre ++ exponentText num <+: buf' := by
  obtain ⟨sign, hsign⟩ : ∃ c, c = if num < 0 then '-'.toUInt8 else '+'.toUInt8 := ⟨_, rfl⟩
  obtain ⟨buf1, hrun1, hlen1, hpre1⟩ := write_prefix ['e'.toUInt8, sign] hpre hpos (show pos + 2 ≤ buf.length by omega) (List.prefix_refl _)
  have hpos1 : pos + 2 = (pre ++ ['e'.toUInt8, sign]).length := by rw [List.length_append, ← hpos]; rfl
  unfold printexp exponentText exponentDigits
  rw [← hsign, hrun1]
  dsimp only [Option.bind_eq_bind, Option.bind_some]
  by_cases hbig : 100 ≤ num.natAbs
  · obtain ⟨buf2, hrun2, hlen2, hpre2⟩ := write_prefix [digit (num.natAbs / 100)] hpre1 hpos1 (show pos + 2 + 1 ≤ buf1.length by omega)
      (List.prefix_refl _)
    have hpos2 : pos + 2 + 1 = (pre ++ ['e'.toUInt8, sign] ++ [digit (num.natAbs / 100)]).length := by
      rw [List.length_append, ← hpos1]
      rfl
    obtain ⟨buf3, hrun3, hlen3, hpre3⟩ := write_prefix (pair (num.natAbs % 100)) hpre2 hpos2 (show pos + 2 + 1 + 2 ≤ buf2.length by omega)
      (List.prefix_refl _)
    rw [if_pos hbig, if_pos hbig, hrun2]
    dsimp only [Option.bind_some]
    rw [hrun3]
    refine ⟨buf3, rfl, by omega, ?_⟩
    rwa [List.append_assoc, List.append_assoc] at hpre3
  · obtain ⟨buf2, hrun2, hlen2, hpre2⟩ := write_prefix (pair num.natAbs) hpre1 hpos1 (show pos + 2 + 2 ≤ buf1.length by omega)
      (List.prefix_refl _)
    rw [if_neg hbig, if_neg hbig, hrun2]
    refine ⟨buf2, rfl, by omega, ?_⟩
    rwa [List.append_assoc] at hpre2

theorem read_last {l : List UInt8} {c : UInt8} (h : l ++ [c] <+: buf) : read buf l.length 1 = some [c] := by
  obtain ⟨t, rfl⟩ := h
  unfold read
  rw [if_pos (by simp), List.append_assoc, List.drop_left]
  rfl

/-- The exponent form -/
theorem writes_scientific (R : Ready buf decbuf pre ds rest pos dec s) {n : ℤ} (hn : n.natAbs < 1000) :
    Writes buf pre (do
      let first ← read decbuf dec 1
      let buf ← write buf pos first
      let buf ← write buf (pos + 1) ['.'.toUInt8]
      let buf ← fastmemcpy buf (pos + 2) decbuf (dec + 1) (ds.length - 1) 16
      let exp ← trimzero buf (pos + ds.length + 1)
      let last ← read buf (exp - 1) 1
      printexp buf (if last = ['.'.toUInt8] then exp - 1 else exp) n) (s * 10 ^ (n - (ds.length - 1 : ℕ))) := by
  have hroom : buf.length = 48 := R.room
  have hshort := R.short
  have hplace := R.place
  have hfew := R.few
  have hsource := R.sourcePlace
  have hsourceRoom := R.sourceRoom
  have hread := R.source
  have hdigits := R.digits
  have hvalue := R.value
  obtain ⟨d, frac, rfl⟩ := List.exists_cons_of_ne_nil R.ne_nil
  rw [List.length_cons] at *
  rw [Nat.add_sub_cancel]
  have hint : Digits [d] := hdigits.of_initial ⟨frac, rfl⟩
  have hfrac : Digits frac := hdigits.drop 1
  refine ⟨⟨[d], trim frac, some n⟩, ⟨hint, by simp, hfrac.of_initial (trim_le _), trim_trim _, ?_⟩, ?_, ?_⟩
  · rintro _ ⟨⟩
    exact hn
  · show (digitsValue ([d] ++ trim frac) : ℚ) * 10 ^ (-((trim frac).length : ℤ)) * 10 ^ n = _
    rw [value_trim, List.singleton_append, hvalue, mul_assoc, ← zpow_add₀ (by norm_num), neg_add_eq_sub]
  · have hfirst : read decbuf dec 1 = some [d] := by
      unfold read
      rw [if_pos (by omega), hread]
      rfl
    obtain ⟨buf1, hrun1, hlen1, hpre1⟩ := write_prefix [d] R.sign hplace (show pos + 1 ≤ buf.length by omega) (List.prefix_refl _)
    have hpos1 : pos + 1 = (pre ++ [d]).length := by rw [List.length_append, ← hplace]; rfl
    obtain ⟨buf2, hrun2, hlen2, hpre2⟩ := write_prefix ['.'.toUInt8] hpre1 hpos1 (show pos + 1 + 1 ≤ buf1.length by omega)
      (List.prefix_refl _)
    have hpos2 : pos + 2 = (pre ++ [d] ++ ['.'.toUInt8]).length := by rw [List.length_append, ← hpos1]; rfl
    obtain ⟨buf3, hrun3, hlen3, hpre3⟩ := fastmemcpy_prefix 1 frac.length 16 hpre2 hpos2 hread (by rw [List.length_cons]; omega)
      (by omega) (by omega) (by omega)
    rw [List.drop_one, List.tail_cons, List.take_length] at hpre3
    have hpos3 : pos + (frac.length + 1) + 1 = (pre ++ [d] ++ ['.'.toUInt8] ++ frac).length := by
      rw [List.length_append, ← hpos2]
      omega
    have htrim := trimzero_eq (by decide) frac hpre3 hpos3
    have hsub : pre ++ [d] ++ ['.'.toUInt8] ++ trim frac <+: buf3 :=
      (List.prefix_append_right_inj _).mpr (trim_le frac) |>.trans hpre3
    obtain ⟨exp, hexp⟩ : ∃ exp, exp = (pre ++ [d] ++ ['.'.toUInt8] ++ trim frac).length := ⟨_, rfl⟩
    have hexplen : exp ≤ 19 := by
      have htrimlen := (trim_le frac).length_le
      rw [List.length_append, ← hpos2] at hexp
      omega
    rw [← hexp] at htrim
    -- the point goes too if nothing is left behind it
    obtain ⟨e, last, hlast, hpoint, hle, hpre4, hlen4⟩ : ∃ e last, read buf3 (exp - 1) 1 = some last ∧
        (if last = ['.'.toUInt8] then exp - 1 else exp) = e ∧ e ≤ exp ∧ pre ++ ([d] ++ pointed (trim frac)) <+: buf3 ∧
        e = (pre ++ ([d] ++ pointed (trim frac))).length := by
      by_cases hnil : trim frac = []
      · rw [hnil, List.append_nil] at hsub hexp
        rw [List.length_append, List.length_singleton] at hexp
        refine ⟨exp - 1, ['.'.toUInt8], ?_, if_pos rfl, exp.sub_le 1, ?_, ?_⟩
        · rw [hexp]
          exact read_last hsub
        · rw [hnil, pointed, if_pos rfl, List.append_nil]
          exact (List.prefix_append _ _).trans hsub
        · rw [hnil, pointed, if_pos rfl, List.append_nil, hexp]
          rfl
      · obtain ⟨init, c, hinit⟩ := List.eq_nil_or_concat (trim frac) |>.resolve_left hnil
        have hc : c ≠ '.'.toUInt8 := by
          rintro rfl
          refine digits_no_point (hfrac.of_initial (trim_le frac)) ?_
          rw [hinit]
          simp
        have hassoc : pre ++ ([d] ++ pointed (trim frac)) = pre ++ [d] ++ ['.'.toUInt8] ++ trim frac := by
          rw [pointed_ne hnil, List.append_assoc, List.append_assoc]
          rfl
        refine ⟨exp, [c], ?_, if_neg (by simpa using hc), le_rfl, by rwa [hassoc], by rw [hassoc, hexp]⟩
        rw [hinit, List.concat_eq_append, ← List.append_assoc] at hsub hexp
        rw [List.length_append, List.length_singleton] at hexp
        rw [hexp]
        exact read_last hsub
    obtain ⟨buf5, hrun5, hlen5, hpre5⟩ := printexp_spec n hpre4 hlen4 (by omega)
    have htext : pre ++ (Form.mk [d] (trim frac) (some n)).text = pre ++ ([d] ++ pointed (trim frac)) ++ exponentText n := by
      show pre ++ ([d] ++ pointed (trim frac) ++ exponentText n) = _
      exact (List.append_assoc _ _ _).symm
    refine ⟨buf5, _, ?_, by omega, ?_, rfl⟩
    · rw [htext, List.length_append, ← hlen4]
      simp only [hfirst, hrun1, hrun2, hrun3, htrim, hlast, hpoint, Option.bind_eq_bind, Option.bind_some]
      exact hrun5
    · rwa [htext]

/-- **`printdecimal`** writes a form of the decimal.  The bounds are those of the double format: at most 17 digits, at least 13 if there
is a positive exponent, and no fraction that is zero. -/
theorem printdecimal_spec (R : Ready buf decbuf pre ds rest pos dec s) (hlow : -900 ≤ k) (hhigh : k ≤ 900)
    (hfraction : ∀ n : ℕ, 0 < n → k = -n → ¬ 10 ^ n ∣ s) (hlong : 0 < k → 13 ≤ ds.length) :
    Writes buf pre (printdecimal buf pos decbuf dec ds.length (ds.length + k)) (s * 10 ^ k) := by
  have hfew := R.few
  have hlen : 0 < ds.length := List.length_pos_of_ne_nil R.ne_nil
  unfold printdecimal
  by_cases hfixed : -5 ≤ (ds.length : ℤ) + k ∧ (ds.length : ℤ) + k ≤ 21
  · rw [if_pos hfixed]
    by_cases hsmall : (ds.length : ℤ) + k ≤ 0
    · rw [if_pos hsmall]
      have h := writes_small R (show (-((ds.length : ℤ) + k)).toNat ≤ 5 by omega)
      have hk : -((((-((ds.length : ℤ) + k)).toNat + ds.length : ℕ) : ℤ)) = k := by omega
      rwa [hk] at h
    rw [if_neg hsmall]
    by_cases hwhole : (ds.length : ℤ) + k = ds.length
    · have hk : k = 0 := by omega
      have hnat : ((ds.length : ℤ) + k).toNat = ds.length := by omega
      have h := writes_whole R
      rw [if_pos hwhole, hnat, hk, zpow_zero, mul_one]
      exact h
    rw [if_neg hwhole]
    by_cases hmiddle : (ds.length : ℤ) + k < ds.length
    · rw [if_pos hmiddle]
      have hcut : k = -((ds.length - ((ds.length : ℤ) + k).toNat : ℕ) : ℤ) := by omega
      have h := writes_middle R ((ds.length : ℤ) + k).toNat (by omega) (by omega) (hfraction _ (by omega) hcut)
      rwa [← hcut] at h
    · rw [if_neg hmiddle]
      have hpos : 0 < k := by omega
      have hlong' := hlong hpos
      obtain ⟨z, hz⟩ : ∃ z : ℕ, k = z := ⟨k.toNat, by omega⟩
      have hnat : ((ds.length : ℤ) + k).toNat = ds.length + z := by omega
      have h := writes_padded R (show z ≤ 8 by omega)
      rw [hnat, Nat.add_sub_cancel_left, hz]
      exact h
  · rw [if_neg hfixed]
    have h := writes_scientific R (show ((ds.length : ℤ) + k - 1).natAbs < 1000 by omega)
    have hk : (ds.length : ℤ) + k - 1 - (ds.length - 1 : ℕ) = k := by omega
    rwa [hk] at h

end Layout

end Luwu.NumPrint
