import Luwu.NumPrint.Layout
import Luwu.NumPrint.Shortest

/-!
# Number formatting is faithful

The text of a finite number denotes the decimal of `schubfach`, and every text fits in the buffer.
-/

namespace Luwu.NumPrint

open Luwu.Floating

section Decimals

variable {n c : ℕ} {q : ℤ}

/-! ### The exponent of the decimal -/

/-- The decimal exponent has the sign of the binary one. -/
theorem exponents_sign (q : ℤ) (irr : Bool) : (0 < q → 0 ≤ (exponents q irr).1) ∧ (q < 0 → (exponents q irr).1 < 0) ∧
    (q = 0 → (exponents q irr).1 ≤ 0) := by
  unfold exponents
  simp only [Int.shiftRight_eq_div_pow]
  cases irr with
  | true =>
    rw [if_pos rfl]
    norm_num
    omega
  | false =>
    rw [if_neg Bool.false_ne_true]
    norm_num
    omega

theorem general_bounds (D : Decomposed n c q) : -324 ≤ (general c q).k ∧ (general c q).k ≤ 293 := by
  have hfit := fitting_bounds D.low D.high (irregular c q)
  obtain ⟨-, w, hcase, -⟩ := general_choice D
  have hlow := hfit.low
  have hhigh := hfit.high
  unfold decimalExponent at hcase
  omega

/-- With a positive exponent there are at least 13 digits. -/
theorem general_long (D : Decomposed n c q) (hk : 0 < (general c q).k) (hq : q ≠ 0) : 10 ^ 13 ≤ (general c q).s := by
  have hsign := exponents_sign q (irregular c q)
  have hfit := fitting_bounds D.low D.high (irregular c q)
  obtain ⟨-, w, hcase, hclosest⟩ := general_choice D
  have hqpos : 0 < q := by
    unfold decimalExponent at hcase
    omega
  have hc : 2 ^ 52 ≤ c := by
    by_contra hlt
    have := D.normal (by omega)
    omega
  have hw : w ≤ 10 := by omega
  have hle : ((4 * c - 2 : ℕ) : ℚ) ≤ 4 * (w * (general c q).s : ℕ) := by
    have hlower : ((4 * c - 2 : ℕ) : ℚ) ≤ lowerBoundary c q (decimalExponent c q) := by
      refine le_trans ?_ (le_mul_of_one_le_right (Nat.cast_nonneg _) hfit.one_le)
      exact_mod_cast Nat.le_add_right _ _
    rcases hclosest.inside.low with h | ⟨h, -⟩
    · exact hlower.trans h.le
    · exact hlower.trans h.le
  have hle' : 4 * c - 2 ≤ 4 * (w * (general c q).s) := by exact_mod_cast hle
  have hmul : w * (general c q).s ≤ 10 * (general c q).s := Nat.mul_le_mul_right _ hw
  omega

/-! ### Integers -/

/-- **An integer is read as a double with a fraction bit** only if it is the double. -/
theorem integer_exact (D : Decomposed n c q) (hn : 0 < n) (htop : n < Format.double.top) (hq : q ≤ 0) {N : ℕ}
    (hreads : (Format.double.roundMag (N * 10 ^ (0 : ℤ)) : ℕ) = n) : N * 2 ^ (-q).toNat = c := by
  have hin := (reads_iff D hn htop N 0).mp hreads
  obtain ⟨p, hp⟩ : ∃ p, p = 2 ^ (-q).toNat := ⟨_, rfl⟩
  have hpos : 0 < p := by
    rw [hp]
    exact Nat.two_pow_pos _
  have hratio : ratio q 0 * p = 1 := by
    unfold ratio
    rw [hp, neg_zero, zpow_zero, mul_one, Nat.cast_pow, Nat.cast_two, ← zpow_natCast, ← zpow_add₀ two_ne_zero,
      show q + ((-q).toNat : ℤ) = 0 by omega, zpow_zero]
  have hpq : (0 : ℚ) < p := by exact_mod_cast hpos
  have hlow : 4 * c - 2 + (irregular c q).toNat ≤ 4 * (N * p) := by
    have h : lowerBoundary c q 0 ≤ 4 * N := hin.low.elim le_of_lt fun h => h.1.le
    have hmul := mul_le_mul_of_nonneg_right h hpq.le
    unfold lowerBoundary at hmul
    rw [mul_assoc, hratio, mul_one, mul_assoc] at hmul
    exact_mod_cast hmul
  have hhigh : 4 * (N * p) ≤ 4 * c + 2 := by
    have h : 4 * N ≤ upperBoundary c q 0 := hin.high.elim le_of_lt fun h => h.1.le
    have hmul := mul_le_mul_of_nonneg_right h hpq.le
    unfold upperBoundary at hmul
    rw [mul_assoc _ (ratio q 0), hratio, mul_one, mul_assoc] at hmul
    exact_mod_cast hmul
  rw [← hp]
  have hcpos := D.pos
  omega

/-- Where the general path is taken the decimal has no fraction of zeros. -/
theorem general_fraction (D : Decomposed n c q) (hn : 0 < n) (htop : n < Format.double.top) (hint : isSmallInteger c q = false)
    {m : ℕ} (hm : 0 < m) (hk : (general c q).k = -m) : ¬ 10 ^ m ∣ (general c q).s := by
  rintro ⟨N, hN⟩
  have hreads := (general_shortest D hn htop).1.reads
  have hsign := exponents_sign q (irregular c q)
  obtain ⟨-, w, hcase, -⟩ := general_choice D
  have hq : q ≤ 0 := by
    unfold decimalExponent at hcase
    omega
  have hvalue : ((general c q).s : ℚ) * 10 ^ (general c q).k = N * 10 ^ (0 : ℤ) := by
    rw [hN, hk, zpow_zero, mul_one, zpow_neg, zpow_natCast]
    push_cast
    field_simp
  rw [hvalue] at hreads
  have hc := integer_exact D hn htop hq hreads
  have hNpos : 0 < N := by
    apply Nat.pos_of_ne_zero
    rintro rfl
    have hpos := D.pos
    omega
  have hlt : 2 ^ (-q).toNat < 2 ^ 53 := (Nat.le_mul_of_pos_left _ hNpos).trans_lt (hc ▸ D.lt)
  have hexp := (Nat.pow_lt_pow_iff_right (by norm_num)).mp hlt
  have hmod : c % 2 ^ (-q).toNat = 0 := by
    rw [← hc]
    exact Nat.mul_mod_left _ _
  exact absurd hint (by rw [isSmallInteger, decide_eq_true ⟨by omega, by omega, hmod⟩]; decide)

/-- **The fast path** gives the value that the general path gives. -/
theorem integer_general (D : Decomposed n c q) (hn : 0 < n) (htop : n < Format.double.top) (hint : isSmallInteger c q = true) :
    ((general c q).s : ℚ) * 10 ^ (general c q).k = (c / 2 ^ (-q).toNat : ℕ) := by
  obtain ⟨hq, -, -⟩ := of_decide_eq_true hint
  have hvalue := (integer_shortest D htop hint).2
  rw [zpow_zero, mul_one] at hvalue
  obtain ⟨hshortest, -⟩ := general_shortest D hn htop
  have hsign := exponents_sign q (irregular c q)
  obtain ⟨-, w, hcase, -⟩ := general_choice D
  rcases lt_or_ge 0 (general c q).k with hk | hk
  · -- the exponent is one
    have hone : (general c q).k = 1 := by
      unfold decimalExponent at hcase
      omega
    have hreads := hshortest.reads
    have hten : ((general c q).s : ℚ) * 10 ^ (general c q).k = ((general c q).s * 10 : ℕ) * 10 ^ (0 : ℤ) := by
      rw [hone, zpow_one, zpow_zero, mul_one]
      push_cast
      rfl
    rw [hten] at hreads
    have hc := integer_exact D hn htop (by omega) hreads
    have hdiv : c / 2 ^ (-q).toNat = (general c q).s * 10 := Nat.div_eq_of_eq_mul_left (Nat.two_pow_pos _) hc.symm
    rw [hten, zpow_zero, mul_one, hdiv]
  · -- the integer is one of the decimals
    obtain ⟨m, hm⟩ : ∃ m : ℕ, (general c q).k = -m := ⟨(-(general c q).k).toNat, by omega⟩
    have hinteger : ((c / 2 ^ (-q).toNat * 10 ^ m : ℕ) : ℚ) * 10 ^ (general c q).k = (c / 2 ^ (-q).toNat : ℕ) := by
      rw [hm, zpow_neg, zpow_natCast, Nat.cast_mul, Nat.cast_pow, Nat.cast_ofNat]
      field_simp
    have hread : (Format.double.roundMag ((c / 2 ^ (-q).toNat * 10 ^ m : ℕ) * 10 ^ (general c q).k) : ℕ) = n := by
      rw [hinteger, hvalue]
      exact congrArg Fin.val (Format.roundMag_magnitude ⟨n, Nat.lt_succ_of_lt htop⟩)
    have hclosest := hshortest.closest _ hread
    rw [hinteger, hvalue, sub_self, abs_zero] at hclosest
    rw [hvalue]
    exact sub_eq_zero.mp (abs_eq_zero.mp (le_antisymm hclosest (abs_nonneg _)))

end Decimals

/-! ### The text -/

section Text

variable {buf decbuf pre : List UInt8} {n pos : ℕ} {bits : BitVec 64}

/-- The digits are written in front of the middle of the second buffer. -/
theorem ready_decimal {s : ℕ} (hpre : pre <+: buf) (hpos : pos = pre.length) (hshort : pos ≤ 1) (hbuf : buf.length = LUAI_MAXNUM2STR)
    (hdecbuf : decbuf.length = 40) (hs : 0 < s) (hs' : s < 10 ^ 17) : ∃ decbuf' rest dec,
      printunsignedrev decbuf 20 s = some (decbuf', dec) ∧ Ready buf decbuf' pre (decimal s) rest pos dec s := by
  have hlen := length_decimal_le hs'
  obtain ⟨decbuf', hrun, hlen', hdrop⟩ := printunsignedrev_spec s decbuf 20 (by omega) (by omega)
  exact ⟨decbuf', _, _, hrun, hpre, hpos, hshort, hbuf, hdrop, by omega, by omega, hlen, digits_decimal s, digitsValue_decimal s, hs⟩

/-- **The decimal of a double** is written in one of its forms. -/
theorem writes_schubfach (hn : 0 < n) (htop : n < Format.double.top) (hpre : pre <+: buf) (hpos : pos = pre.length) (hshort : pos ≤ 1)
    (hbuf : buf.length = LUAI_MAXNUM2STR) (hdecbuf : decbuf.length = 40) {d : Decimal}
    (hd : schubfach (n / 2 ^ 52) (n % 2 ^ 52) = d) :
    Writes buf pre (if 10 ^ 17 ≤ d.s then none
      else do
        let (decbuf, dec) ← printunsignedrev decbuf 20 d.s
        let declen := 20 - dec
        if 17 < declen then none
        else printdecimal buf pos decbuf dec declen (declen + d.k)) (d.s * 10 ^ d.k) := by
  have D := decompose_spec hn htop
  obtain ⟨c, q, hdecompose⟩ : ∃ c q, decompose (n / 2 ^ 52) (n % 2 ^ 52) = (c, q) := ⟨_, _, rfl⟩
  rw [hdecompose] at D
  obtain ⟨d', hd', hshortest, -⟩ := schubfach_shortest hn htop hdecompose
  obtain rfl : d' = d := hd'.symm.trans hd
  rw [schubfach_eq hdecompose] at hd
  obtain ⟨decbuf', rest, dec, hrun, R⟩ := ready_decimal hpre hpos hshort hbuf hdecbuf hshortest.pos hshortest.digits
  have hdeclen : 20 - dec = (decimal d'.s).length := by
    have := R.sourcePlace
    omega
  have hfew : ¬ 17 < (decimal d'.s).length := Nat.not_lt.mpr R.few
  have hsmall : ¬ 10 ^ 17 ≤ d'.s := Nat.not_le.mpr hshortest.digits
  rw [if_neg hsmall, hrun]
  dsimp only [Option.bind_eq_bind, Option.bind_some]
  rw [hdeclen, if_neg hfew]
  cases hint : isSmallInteger c q with
  | true =>
    rw [if_pos hint] at hd
    have hk : d'.k = 0 := by rw [← hd]
    rw [hk]
    exact printdecimal_spec R (by norm_num) (by norm_num) (fun m hm h => by omega) (fun h => by omega)
  | false =>
    rw [if_neg (by simp [hint])] at hd
    have hq : q ≠ 0 := by
      rintro rfl
      rw [isSmallInteger, decide_eq_true ⟨by norm_num, by norm_num, Nat.mod_one c⟩] at hint
      exact Bool.noConfusion hint
    have hbounds := general_bounds D
    rw [hd] at hbounds
    refine printdecimal_spec R (by omega) (by omega) (fun m hm h => ?_) (fun h => ?_)
    · rw [← hd] at h ⊢
      exact general_fraction D hn htop hint hm h
    · rw [← hd] at h ⊢
      exact (le_length_decimal (general_long D h hq)).le

theorem write_some (buf : List UInt8) {bytes : List UInt8} (hroom : pos + bytes.length ≤ buf.length) :
    ∃ buf', write buf pos bytes = some buf' ∧ buf'.length = buf.length := by
  refine ⟨_, if_pos hroom, ?_⟩
  rw [List.length_append, List.length_append, List.length_take, List.length_drop]
  omega

/-- An infinity or no number -/
theorem printspecial_spec (hbuf : buf.length = LUAI_MAXNUM2STR) {sign : ℕ} (hsign : sign ≤ 1) (fraction : ℕ) :
    ∃ buf' e, printspecial buf 0 sign fraction = some (buf', e) ∧ e ≤ LUAI_MAXNUM2STR := by
  have hroom : buf.length = 48 := hbuf
  unfold printspecial
  by_cases hf : fraction = 0
  · rw [if_pos hf]
    have hlen : (((['-', 'i', 'n', 'f'].map Char.toUInt8 ++ [0]).drop (1 - sign)).take 4).length ≤ 4 := List.length_take_le _ _
    obtain ⟨text, htext⟩ : ∃ text, text = ((['-', 'i', 'n', 'f'].map Char.toUInt8 ++ [0]).drop (1 - sign)).take 4 := ⟨_, rfl⟩
    rw [← htext] at hlen ⊢
    obtain ⟨buf', hrun, -⟩ := write_some buf (show 0 + text.length ≤ buf.length by omega)
    rw [hrun]
    exact ⟨buf', _, rfl, show 0 + 3 + sign ≤ 48 by omega⟩
  · rw [if_neg hf]
    have hlen : 0 + (['n', 'a', 'n'].map Char.toUInt8 ++ [0]).length ≤ buf.length := show 0 + 4 ≤ buf.length by omega
    obtain ⟨buf', hrun, -⟩ := write_some buf hlen
    rw [hrun]
    exact ⟨buf', _, rfl, by decide⟩

/-- The sign is written first, and kept if there is one. -/
theorem sign_written (hbuf : buf.length = LUAI_MAXNUM2STR) {sign : ℕ} (hsign : sign ≤ 1) : ∃ buf',
    write buf 0 ['-'.toUInt8] = some buf' ∧ buf'.length = LUAI_MAXNUM2STR ∧
      (if decide (sign = 1) then ['-'.toUInt8] else []) <+: buf' ∧
      sign = (if decide (sign = 1) then ['-'.toUInt8] else [] : List UInt8).length := by
  have hroom : buf.length = 48 := hbuf
  obtain ⟨buf', hrun, hlen, hpre⟩ := write_prefix ['-'.toUInt8] (List.nil_prefix (l := buf)) rfl (show 0 + 1 ≤ buf.length by omega)
    (List.prefix_refl _)
  refine ⟨buf', hrun, hlen.trans hbuf, ?_, ?_⟩
  · by_cases hone : sign = 1
    · rw [decide_eq_true hone]
      exact hpre
    · rw [decide_eq_false hone]
      exact List.nil_prefix
  · by_cases hone : sign = 1
    · rw [decide_eq_true hone, hone]
      rfl
    · rw [decide_eq_false hone]
      show sign = 0
      omega

/-- **Printing a number**: the run stays inside its buffers, and the text of a finite number other than zero is a numeral in fixed or in
exponent form that denotes the decimal of `schubfach` with the sign, without a zero or nothing at the end of its fraction.  Where the
fast path is taken the value is the one of the general path. -/
theorem luai_num2str_faithful (bits : BitVec 64) (buf decbuf : List UInt8) (hbuf : buf.length = LUAI_MAXNUM2STR) (hdecbuf : decbuf.length = 40)
    {exponent fraction : ℕ} (hexponent : exponent = bits.toNat / 2 ^ 52 % 2048) (hfraction : fraction = bits.toNat % 2 ^ 52)
    {neg : Bool} (hneg : neg = decide (bits.toNat / 2 ^ 63 = 1)) :
    ∃ buf' e, luai_num2str buf decbuf bits = some (buf', e) ∧ e ≤ LUAI_MAXNUM2STR ∧
      (exponent ≠ 0x7ff → ¬ (exponent = 0 ∧ fraction = 0) → ∃ d, schubfach exponent fraction = d ∧
        (∃ f : Form, f.Good ∧ buf'.take e = numeralText neg f) ∧
        readNumber (buf'.take e) = some (if neg then -((d.s : ℚ) * 10 ^ d.k) else d.s * 10 ^ d.k) ∧ NoTrailing (buf'.take e) ∧
        ∀ c q, decompose exponent fraction = (c, q) → isSmallInteger c q = true →
          ((general c q).s : ℚ) * 10 ^ (general c q).k = d.s * 10 ^ d.k) := by
  have hroom : buf.length = 48 := hbuf
  have hbits := bits.isLt
  have hsign : bits.toNat / 2 ^ 63 ≤ 1 := by omega
  unfold luai_num2str
  dsimp only
  rw [← hexponent, ← hfraction]
  by_cases hspecial : exponent = 0x7ff
  · rw [if_pos hspecial]
    obtain ⟨buf', e, hrun, he⟩ := printspecial_spec hbuf hsign fraction
    exact ⟨buf', e, hrun, he, fun h => absurd hspecial h⟩
  rw [if_neg hspecial]
  obtain ⟨buf1, hrun1, hlen1, hpre1, hpos1⟩ := sign_written hbuf hsign
  rw [← hneg] at hpre1 hpos1
  rw [hrun1]
  dsimp only [Option.bind_eq_bind, Option.bind_some]
  by_cases hzero : exponent = 0 ∧ fraction = 0
  · rw [if_pos hzero]
    have hlen : bits.toNat / 2 ^ 63 + ['0'.toUInt8].length ≤ buf1.length := by
      rw [hlen1]
      show bits.toNat / 2 ^ 63 + 1 ≤ 48
      omega
    obtain ⟨buf2, hrun2, -⟩ := write_some buf1 hlen
    rw [hrun2]
    exact ⟨buf2, _, rfl, show bits.toNat / 2 ^ 63 + 1 ≤ 48 by omega, fun _ h => absurd hzero h⟩
  rw [if_neg hzero]
  obtain ⟨n, hn⟩ : ∃ n, n = bits.toNat % 2 ^ 63 := ⟨_, rfl⟩
  have hexp : n / 2 ^ 52 = exponent := by omega
  have hfrac : n % 2 ^ 52 = fraction := by omega
  have hpos : 0 < n := by omega
  have htop : n < Format.double.top := by
    show n < 2047 * 2 ^ 52
    omega
  obtain ⟨d, hd⟩ : ∃ d, schubfach exponent fraction = d := ⟨_, rfl⟩
  have hd' : schubfach (n / 2 ^ 52) (n % 2 ^ 52) = d := by
    rw [hexp, hfrac, hd]
  rw [hd]
  obtain ⟨f, hf, hvalue, buf', e, hrun, hlen', hpre', he⟩ := writes_schubfach hpos htop hpre1 hpos1 hsign hlen1 hdecbuf hd'
  have htext : buf'.take e = numeralText neg f := by
    rw [he]
    exact (List.prefix_iff_eq_take.mp hpre').symm
  refine ⟨buf', e, hrun, ?_, fun _ _ => ⟨d, rfl, ⟨f, hf, htext⟩, ?_, ?_, fun c q hdecompose hint => ?_⟩⟩
  · rw [he, ← hlen1, ← hlen']
    exact hpre'.length_le
  · rw [htext, readNumber_text hf neg, hvalue]
  · rw [htext]
    exact noTrailing_text hf neg
  · have D := decompose_spec hpos htop
    rw [hexp, hfrac, hdecompose] at D
    rw [integer_general D hpos htop hint, ← hd, schubfach_eq hdecompose, if_pos hint, zpow_zero, mul_one]

/-- `1.5` -/
theorem luai_num2str_faithful_sample : ∃ buf' e,
    luai_num2str (List.replicate 48 0) (List.replicate 40 0) 0x3ff8000000000000 = some (buf', e) ∧ e ≤ LUAI_MAXNUM2STR ∧
      ∃ d, schubfach 1023 (2 ^ 51) = d ∧ readNumber (buf'.take e) = some ((d.s : ℚ) * 10 ^ d.k) ∧ NoTrailing (buf'.take e) := by
  obtain ⟨buf', e, hrun, he, h⟩ := luai_num2str_faithful 0x3ff8000000000000 (List.replicate 48 0) (List.replicate 40 0)
    (by decide) (by decide) (show 1023 = _ by decide) (show 2 ^ 51 = _ by decide) (show false = _ by decide)
  obtain ⟨d, hd, -, hread, htrail, -⟩ := h (by decide) (by decide)
  exact ⟨buf', e, hrun, he, d, hd, hread, htrail⟩

end Text

end Luwu.NumPrint
