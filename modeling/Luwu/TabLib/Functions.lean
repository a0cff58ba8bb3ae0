import Luwu.TabLib.Elements

/-!
# `table.insert`, `table.remove` and `table.move`

Inserting and removing shift the elements from the position on by one place.  Moving a range grows the array part of the
destination first; `adjustasize` then computes one more than the new size, which is the one place where an int may
overflow (`Overruns`).
-/

namespace Luwu.TabLib

open Checked Copies

section Shift

variable {c : Call} {h : Tables} {g g₁ : Cells} {p : GCPtr} {pos n : ℤ} {v : TValue}

/-- The elements `pos..n` are one place higher, and `pos` has the new value. -/
structure ShiftedUp (g g' : Cells) (p : GCPtr) (pos n : ℤ) (v : TValue) : Prop where
  new : g' (cell p pos) = v
  shifted : ∀ j, pos ≤ j → j ≤ n → g' (cell p (j + 1)) = g (cell p j)
  kept : ∀ q k, (q = p → ∀ j, pos ≤ j → j ≤ n + 1 → isNumberEq k j = false) → g' (q, k) = g (q, k)

/-- The elements `pos + 1..n` are one place lower, and `n` has none. -/
structure ShiftedDown (g g' : Cells) (p : GCPtr) (pos n : ℤ) : Prop where
  shifted : ∀ j, pos ≤ j → j < n → g' (cell p j) = g (cell p (j + 1))
  last : g' (cell p n) = .nil
  kept : ∀ q k, (q = p → ∀ j, pos ≤ j → j ≤ n → isNumberEq k j = false) → g' (q, k) = g (q, k)

theorem assign_self (hn : Fits 32 n) (g : Cells) (p : GCPtr) (v : TValue) : g.assign p n v (cell p n) = v :=
  if_pos ((holdsAt_cell_iff hn hn).mpr ⟨rfl, rfl⟩)

theorem assign_cell_ne {m : ℤ} (hn : Fits 32 n) (hm : Fits 32 m) (hne : n ≠ m) (g : Cells) (p : GCPtr) (v : TValue) :
    g.assign p n v (cell p m) = g (cell p m) :=
  if_neg fun hat => hne ((holdsAt_cell_iff hn hm).mp hat).2

theorem assign_other (hn : Fits 32 n) (g : Cells) (v : TValue) {q : GCPtr} {k : TValue}
    (hk : q = p → isNumberEq k n = false) : g.assign p n v (q, k) = g (q, k) := by
  apply if_neg
  intro hat
  obtain ⟨hq, he⟩ := (holdsAt_iff hn).mp hat
  rw [hk hq] at he
  cases he

/-- One cell is set. -/
theorem shiftedUp_assign (hpos : Fits 32 pos) (g : Cells) (p : GCPtr) (v : TValue) :
    ShiftedUp g (g.assign p pos v) p pos (pos - 1) v := by
  refine ⟨assign_self hpos g p v, fun j h1 h2 => by omega, fun q k hk => ?_⟩
  exact assign_other hpos g v fun hq => hk hq pos le_rfl (by omega)

/-- Moving the elements up and setting the gap -/
theorem shiftedUp_of_moved (hpos : 1 ≤ pos) (hn : pos ≤ n) (hmax : n < 2 ^ 30)
    (hm : Moved g g₁ p p pos (pos + 1) (n - pos + 1).toNat) : ShiftedUp g (g₁.assign p pos v) p pos n v := by
  have hfits : ∀ j, 0 ≤ j → j ≤ n + 1 → Fits 32 j := fun j h0 hj => fits_int (by omega) (by unfold INT_MAX; omega)
  have hp := hfits pos (by omega) (by omega)
  refine ⟨assign_self hp g₁ p v, fun j h1 h2 => ?_, fun q k hk => ?_⟩
  · rw [assign_cell_ne hp (hfits (j + 1) (by omega) (by omega)) (by omega)]
    have hmoved := hm.moved (j - pos).toNat (by omega)
    rw [show pos + 1 + ((j - pos).toNat : ℤ) = j + 1 from by omega,
      show pos + ((j - pos).toNat : ℤ) = j from by omega] at hmoved
    exact hmoved _ (isNumberEq_cast_num (hfits (j + 1) (by omega) (by omega)))
  · rw [assign_other hp g₁ v fun hq => hk hq pos le_rfl (by omega)]
    apply hm.kept
    intro hq i hi
    exact hk hq _ (by omega) (by omega)

/-- Moving the elements down and clearing the last place -/
theorem shiftedDown_of_moved (hpos : 1 ≤ pos) (hn : pos ≤ n) (hmax : n < 2 ^ 30)
    (hm : Moved g g₁ p p (pos + 1) pos (n - (pos + 1) + 1).toNat) :
    ShiftedDown g (g₁.assign p n .nil) p pos n := by
  have hfits : ∀ j, 0 ≤ j → j ≤ n + 1 → Fits 32 j := fun j h0 hj => fits_int (by omega) (by unfold INT_MAX; omega)
  have hp := hfits n (by omega) (by omega)
  refine ⟨fun j h1 h2 => ?_, assign_self hp g₁ p .nil, fun q k hk => ?_⟩
  · rw [assign_cell_ne hp (hfits j (by omega) (by omega)) (by omega)]
    have hmoved := hm.moved (j - pos).toNat (by omega)
    rw [show pos + ((j - pos).toNat : ℤ) = j from by omega,
      show pos + 1 + ((j - pos).toNat : ℤ) = j + 1 from by omega] at hmoved
    exact hmoved _ (isNumberEq_cast_num (hfits j (by omega) (by omega)))
  · rw [assign_other hp g₁ .nil fun hq => hk hq n hn le_rfl]
    apply hm.kept
    intro hq i hi
    exact hk hq _ (by omega) (by omega)

/-- The length of a table is below the limit of sizes. -/
theorem luaH_getn_lt {E : Env} (hA : Agrees E h g) (p : GCPtr) : (luaH_getn (h p)).1 < 2 ^ 30 := by
  have hM : MAXSIZE = 2 ^ 26 := rfl
  have hle := (luaH_getn_spec (h p)).1.le
  have hmax := (hA p).wf.inv.sizeMax
  dsimp only at hmax
  omega

/-- **`table.insert`** shifts the elements from the position on, if it is one of the sequence, and sets it. -/
theorem tinsert_position (ha : c.env.Roomy) (hA : Agrees c.env h g) (hpos : Fits 32 pos) (v : TValue) :
    Ends c.env (tinsert c (.position pos v) h) fun _ h' => ∃ g', Agrees c.env h' g' ∧
      ShiftedUp g g' (c.base 1) pos
        (if 1 ≤ pos ∧ pos ≤ (luaH_getn (h (c.base 1))).1 then (luaH_getn (h (c.base 1))).1 else pos - 1) v := by
  have hmax := luaH_getn_lt hA (c.base 1)
  obtain ⟨h', hrun, hA'⟩ := lua_objlen_run hA 1
  set n := (luaH_getn (h (c.base 1))).1 with hn
  have hlen : Ends c.env (lua_objlen c 1 h) fun m h₁ => m = (n : ℤ) ∧ h₁ = h' := Or.inl ⟨_, h', hrun, rfl, rfl⟩
  unfold tinsert
  refine hlen.bind fun m h₁ hm => ?_
  obtain ⟨rfl, rfl⟩ := hm
  by_cases hin : 1 ≤ pos ∧ pos ≤ (n : ℤ)
  · rw [if_pos hin]
    simp only [hin, and_self, if_true]
    have hnext : Fits 32 (pos + 1) := fits_int (by omega) (by unfold INT_MAX; omega)
    apply ends_checked_bind (add_ok hnext)
    have hmove := moveelements_moves (e := (n : ℤ)) ha hA' 1 1 hpos hnext rfl (by omega) (by omega) (by omega) (by omega)
    refine hmove.bind fun _ h₂ hmoved => ?_
    obtain ⟨g₁, hA₁, hmoved⟩ := hmoved
    refine (lua_rawseti_ends ha hA₁ 1 hpos v).mono fun _ h₃ hA₃ => ?_
    exact ⟨_, hA₃, shiftedUp_of_moved hin.1 hin.2 (by omega) hmoved⟩
  · rw [if_neg hin]
    simp only [hin, if_false]
    refine (lua_rawseti_ends ha hA' 1 hpos v).mono fun _ h₃ hA₃ => ?_
    exact ⟨_, hA₃, shiftedUp_assign hpos g (c.base 1) v⟩

/-- **`table.insert`** without a position appends. -/
theorem tinsert_value (ha : c.env.Roomy) (hA : Agrees c.env h g) (v : TValue) :
    Ends c.env (tinsert c (.value v) h) fun _ h' => ∃ g', Agrees c.env h' g' ∧
      ShiftedUp g g' (c.base 1) ((luaH_getn (h (c.base 1))).1 + 1) (luaH_getn (h (c.base 1))).1 v := by
  have hmax := luaH_getn_lt hA (c.base 1)
  obtain ⟨h', hrun, hA'⟩ := lua_objlen_run hA 1
  set n := (luaH_getn (h (c.base 1))).1 with hn
  have hlen : Ends c.env (lua_objlen c 1 h) fun m h₁ => m = (n : ℤ) ∧ h₁ = h' := Or.inl ⟨_, h', hrun, rfl, rfl⟩
  have hnext : Fits 32 ((n : ℤ) + 1) := fits_int (by omega) (by unfold INT_MAX; omega)
  unfold tinsert
  refine hlen.bind fun m h₁ hm => ?_
  obtain ⟨rfl, rfl⟩ := hm
  apply ends_checked_bind (add_ok hnext)
  refine (lua_rawseti_ends ha hA' 1 hnext v).mono fun _ h₃ hA₃ => ⟨_, hA₃, ?_⟩
  have hshift := shiftedUp_assign hnext g (c.base 1) v
  rwa [add_sub_cancel_right] at hshift

/-- **`table.remove`** answers the element at the position and shifts those behind it, if it is one of the sequence. -/
theorem tremove_ends (ha : c.env.Roomy) (hA : Agrees c.env h g) (arg : Option ℤ) :
    Ends c.env (tremove c arg h) fun r h' =>
      let n : ℤ := (luaH_getn (h (c.base 1))).1
      let pos := arg.getD n
      if 1 ≤ pos ∧ pos ≤ n then
        r = some (g (cell (c.base 1) pos)) ∧ ∃ g', Agrees c.env h' g' ∧ ShiftedDown g g' (c.base 1) pos n
      else r = none ∧ Agrees c.env h' g := by
  have hmax := luaH_getn_lt hA (c.base 1)
  obtain ⟨h', hrun, hA'⟩ := lua_objlen_run hA 1
  dsimp only
  set n := (luaH_getn (h (c.base 1))).1 with hn
  have hlen : Ends c.env (lua_objlen c 1 h) fun m h₁ => m = (n : ℤ) ∧ h₁ = h' := Or.inl ⟨_, h', hrun, rfl, rfl⟩
  unfold tremove
  refine hlen.bind fun m h₁ hm => ?_
  obtain ⟨rfl, rfl⟩ := hm
  set pos := arg.getD (n : ℤ) with hposdef
  by_cases hin : 1 ≤ pos ∧ pos ≤ (n : ℤ)
  · simp only [hin, and_self, not_true_eq_false, if_true, if_false]
    have hpos : Fits 32 pos := fits_int (by omega) (by unfold INT_MAX; omega)
    have hnext : Fits 32 (pos + 1) := fits_int (by omega) (by unfold INT_MAX; omega)
    have hlast : Fits 32 (n : ℤ) := fits_int (by omega) (by unfold INT_MAX; omega)
    have hget : Ends c.env (lua_rawgeti c 1 pos h₁) fun v h₂ => v = g (cell (c.base 1) pos) ∧ h₂ = h₁ :=
      Or.inl ⟨_, h₁, lua_rawgeti_run hA' c 1 hpos, rfl, rfl⟩
    refine hget.bind fun v h₂ hv => ?_
    obtain ⟨rfl, rfl⟩ := hv
    apply ends_checked_bind (add_ok hnext)
    have hmove := moveelements_moves (e := (n : ℤ)) ha hA' 1 1 hnext hpos rfl (by omega) (by omega) (by omega) (by omega)
    refine hmove.bind fun _ h₂ hmoved => ?_
    obtain ⟨g₁, hA₁, hmoved⟩ := hmoved
    refine (lua_rawseti_ends ha hA₁ 1 hlast .nil).bind fun _ h₃ hA₃ => ?_
    exact ends_pure ⟨rfl, _, hA₃, shiftedDown_of_moved hin.1 hin.2 (by omega) hmoved⟩
  · simp only [hin, not_false_eq_true, if_true, if_false]
    exact ends_pure ⟨rfl, hA'⟩

end Shift

section Grow

variable {E : Env} {c : Call} {h : Tables} {g : Cells} {p : GCPtr} {tbl : LuaTable} {tbound : Bool} {fuel tt : ℕ}
  {size s f e t : ℤ}

/-- The keys behind a size up to an end, and the next one is absent -/
def StopsAt (tbl : LuaTable) (size s : ℤ) : Prop :=
  size ≤ s ∧ (∀ j, size < j → j ≤ s → rawgeti tbl j ≠ .nil) ∧ rawgeti tbl (s + 1) = .nil

theorem StopsAt.unique {s' : ℤ} (h : StopsAt tbl size s) (h' : StopsAt tbl size s') : s = s' := by
  obtain ⟨hle, hpassed, hstop⟩ := h
  obtain ⟨hle', hpassed', hstop'⟩ := h'
  rcases lt_trichotomy s s' with hlt | heq | hgt
  · exact absurd hstop (hpassed' (s + 1) (by omega) (by omega))
  · exact heq
  · exact absurd hstop' (hpassed (s' + 1) (by omega) (by omega))

/-- The loop of `adjustasize` stops at the first key that is absent, or overflows when there is none. -/
theorem adjustasizeInt_cases (h0 : 0 ≤ size) (hs : size ≤ INT_MAX) (hfuel : INT_MAX - size < fuel)
    (hbound : tbound = false → ∀ j, size < j → j ≤ INT_MAX → rawgeti tbl j = .nil) :
    (∃ s, adjustasizeInt tbl tbound fuel size = .ok s ∧ s < INT_MAX ∧ StopsAt tbl size s) ∨
      (adjustasizeInt tbl tbound fuel size = .error .overflow ∧
        ∀ j, size < j → j ≤ INT_MAX → rawgeti tbl j ≠ .nil) := by
  induction fuel generalizing size with
  | zero =>
    rw [Nat.cast_zero] at hfuel
    omega
  | succ fuel ih =>
    rw [Nat.cast_succ] at hfuel
    unfold adjustasizeInt
    by_cases hlast : size = INT_MAX
    · have hover : ¬Fits 32 (size + 1) := by
        rw [hlast]
        unfold INT_MAX
        exact fun hfits => absurd hfits.2 (by norm_num)
      rw [add_overflow hover]
      exact Or.inr ⟨rfl, fun j h1 h2 => by omega⟩
    · rw [add_ok (fits_int (by omega) (by omega))]
      show (∃ s, (if tbound ∧ !(rawgeti tbl (size + 1)).isNil then adjustasizeInt tbl tbound fuel (size + 1)
        else .ok size) = .ok s ∧ _) ∨ (if tbound ∧ !(rawgeti tbl (size + 1)).isNil then
        adjustasizeInt tbl tbound fuel (size + 1) else .ok size) = .error .overflow ∧ _
      by_cases hnext : rawgeti tbl (size + 1) = .nil
      · rw [if_neg (by rw [hnext]; exact fun hand => absurd hand.2 Bool.false_ne_true)]
        exact Or.inl ⟨size, rfl, by omega, le_rfl, fun j h1 h2 => by omega, hnext⟩
      · have htb : tbound = true := by
          by_contra hfalse
          rw [Bool.not_eq_true] at hfalse
          exact hnext (hbound hfalse (size + 1) (by omega) (by omega))
        have hturn : tbound = true ∧ (!(rawgeti tbl (size + 1)).isNil) = true := by
          rw [Bool.not_eq_true', TValue.isNil_eq_false_iff]
          exact ⟨htb, hnext⟩
        rw [if_pos hturn]
        rcases @ih (size + 1) (by omega) (by omega) (by omega)
          (fun hfalse => absurd htb (by rw [hfalse]; exact Bool.false_ne_true)) with
          ⟨s, hrun, hlt, hle, hpassed, hstop⟩ | ⟨hrun, hall⟩
        · refine Or.inl ⟨s, hrun, hlt, by omega, fun j h1 h2 => ?_, hstop⟩
          by_cases hj : j = size + 1
          · rwa [hj]
          · exact hpassed j (by omega) h2
        · refine Or.inr ⟨hrun, fun j h1 h2 => ?_⟩
          by_cases hj : j = size + 1
          · rwa [hj]
          · exact hall j (by omega) h2

theorem rawgeti_eq_cell {j : ℤ} (hA : Agrees c.env h g) (p : GCPtr) (hj : Fits 32 j) :
    rawgeti (h p) j = g (cell p j) := by
  have hvalid : (TValue.number (cast_num j)).ValidKey := validKey_of_isNumberEq (isNumberEq_cast_num hj)
  exact (rawgeti_eq_lookup hj).trans ((hA p).lookup _ hvalid)

/-- The loop over naturals that the resize of a table model runs stops there too. -/
theorem adjustasize_stopsAt {n s : ℕ} (hinv : Inv E tbl) (hn : n < 2 ^ 30) (hrun : adjustasize tbl n none = some s) :
    StopsAt tbl n s ∧ s < 2 ^ 31 - 1 := by
  obtain ⟨s', hs', hle, hmax, hpassed, hstop⟩ := adjustasize_spec hinv none hn
  rw [hrun] at hs'
  obtain rfl := Option.some.inj hs'
  have hpresent : ∀ i : ℕ, i + 1 < 2 ^ 31 →
      (rawgeti tbl ((i : ℤ) + 1) ≠ .nil ↔ ∃ k ∈ tbl.rehashKeys none, isNumberEq k ((i : ℤ) + 1) = true) := by
    intro i hi
    obtain ⟨sl, hsl, hiff⟩ := hinv.getnum_present hi
    unfold rawgeti
    rw [hsl]
    exact hiff
  refine ⟨⟨by exact_mod_cast hle, fun j h1 h2 => ?_, ?_⟩, by omega⟩
  · obtain ⟨k, hk, he⟩ := hpassed (j - 1).toNat (by omega) (by omega)
    have hj : (((j - 1).toNat : ℕ) : ℤ) + 1 = j := by omega
    rw [hj] at he
    have hiff := hpresent (j - 1).toNat (by omega)
    rw [hj] at hiff
    exact hiff.mpr ⟨k, hk, he⟩
  · by_contra hne
    obtain ⟨k, hk, he⟩ := (hpresent s (by omega)).mp hne
    rw [hstop k hk] at he
    cases he

/-- **Growing the array part** keeps the contents, or overflows when every key behind the new size is present. -/
theorem resizearray_ends (ha : c.env.Roomy) (hA : Agrees c.env h g) (h0 : 0 ≤ size) (hs : size ≤ INT_MAX)
    (hgrow : ((h p).sizearray : ℤ) ≤ size) :
    (Ends c.env (resizearray c p size h) (fun _ h' => Agrees c.env h' g) ∧
        ∃ j, size < j ∧ j ≤ INT_MAX ∧ g (cell p j) = .nil) ∨
      (resizearray c p size h = .error (.fault .overflow) h ∧
        ∀ j, size < j → j ≤ INT_MAX → g (cell p j) ≠ .nil) := by
  have hM : MAXSIZE = 2 ^ 26 := rfl
  have hinv := (hA p).wf.inv
  have hcell : ∀ j, size < j → j ≤ INT_MAX → rawgeti (h p) j = g (cell p j) := fun j h1 h2 =>
    rawgeti_eq_cell hA p (fits_int (by omega) h2)
  have hbound : decide ((h p).node ≠ none ∨ size < (h p).sizearray) = false →
      ∀ j, size < j → j ≤ INT_MAX → rawgeti (h p) j = .nil := by
    intro htb j h1 h2
    rw [decide_eq_false_iff_not, not_or, not_not] at htb
    have hout : ¬cast_unsigned (j - 1) < (h p).sizearray := by
      unfold cast_unsigned
      unfold INT_MAX at h2
      omega
    unfold rawgeti luaH_getnum
    rw [if_neg hout, if_neg (fun hne => hne htb.1)]
    rfl
  rcases @adjustasizeInt_cases (h p) _ ((INT_MAX - size).toNat + 1) size h0 hs (by omega) hbound with
    ⟨s, hrun, hlt, hstops⟩ | ⟨hrun, hall⟩
  · refine Or.inl ⟨?_, s + 1, by have := hstops.1; omega, by omega, ?_⟩
    · have hexec : resizearray c p size h
          = onTable p (resize c.env (newkey c.env newkeyFuel) s.toNat (h p).hashsize) h := by
        show (checked _ >>= fun asize : ℤ =>
          onTable p (resize c.env (newkey c.env newkeyFuel) asize.toNat (h p).hashsize)) h = _
        rw [hrun]
        rfl
      rw [hexec]
      by_cases hsmall : size < 2 ^ 30
      · -- the resize of the table
        have hfits := @fits_of_grow c.env (h p) (hA p).wf size.toNat (by omega) (by omega)
        obtain ⟨n, hn, _⟩ := adjustasize_spec hinv none (show size.toNat < 2 ^ 30 by omega)
        obtain ⟨hstops', _⟩ := adjustasize_stopsAt hinv (show size.toNat < 2 ^ 30 by omega) hn
        rw [Int.toNat_of_nonneg h0] at hstops'
        obtain rfl := hstops.unique hstops'
        have hsame : luaH_resizearray c.env size.toNat (h p)
            = resize c.env (newkey c.env newkeyFuel) n (h p).hashsize (h p) := by
          show (orLoop (adjustasize (h p) size.toNat none) >>= fun asize =>
            resize c.env (newkey c.env newkeyFuel) asize (h p).hashsize) (h p) = _
          rw [hn]
          rfl
        rw [Int.toNat_natCast]
        rcases exec_outcome ha (.resizearray size.toNat) hfits (hA p) with ⟨t', hok, ht⟩ | ⟨t', herr, ht⟩
        · exact Or.inl ⟨⟨⟩, _, onTable_ok (hsame.symm.trans hok), hA.update ht fun _ _ _ => rfl⟩
        · exact Or.inr ⟨_, _, onTable_error (hsame.symm.trans herr), Or.inr rfl, g, hA.update ht fun _ _ _ => rfl⟩
      · -- the size is refused
        have hle := hstops.1
        have hover := @resize_overflow c.env (h p) s.toNat (h p).hashsize (newkey c.env newkeyFuel)
          (Or.inl (by omega))
        exact Or.inr ⟨_, _, onTable_error hover, Or.inr rfl, g, hA.update (hA p) fun _ _ _ => rfl⟩
    · rw [← hcell (s + 1) (by have := hstops.1; omega) (by omega)]
      exact hstops.2.2
  · refine Or.inr ⟨?_, fun j h1 h2 => ?_⟩
    · show (checked _ >>= fun asize : ℤ =>
        onTable p (resize c.env (newkey c.env newkeyFuel) asize.toNat (h p).hashsize)) h = _
      rw [hrun]
      rfl
    · rw [← hcell j h1 h2]
      exact hall j h1 h2

/-- The destination grows up to the last int although every key behind its new size is present. -/
structure Overruns (c : Call) (h : Tables) (g : Cells) (tt : ℕ) (f e t : ℤ) : Prop where
  range : f ≤ e ∧ e - f < INT_MAX
  destination : 0 < t ∧ t + (e - f) ≤ INT_MAX
  writable : c.readonly (c.base tt) = false
  grows : t - 1 ≤ (h (c.base tt)).sizearray ∧ (h (c.base tt)).sizearray < t + (e - f)
  present : ∀ j, t + (e - f) < j → j ≤ INT_MAX → g (cell (c.base tt) j) ≠ .nil

/-- What `table.move` does: it moves the range and answers the destination, or raises an error and leaves the tables
intact, the arguments being refused only where the range or the destination is too long. -/
def Moves (c : Call) (h : Tables) (g : Cells) (tt : ℕ) (f e t : ℤ) : EStateM.Result LibError Tables GCPtr → Prop
  | .ok p h' => p = c.base tt ∧
      ∃ g', Agrees c.env h' g' ∧ Moved g g' (c.base 1) (c.base tt) f t (e - f + 1).toNat
  | .error (.argerror 3 _) h' => INT_MAX ≤ e - f ∧ h' = h
  | .error (.argerror 4 _) h' => INT_MAX < t + (e - f) ∧ h' = h
  | .error .readonly h' | .error (.table (.runerror _)) h' => ∃ g', Agrees c.env h' g'
  | .error _ _ => False

theorem moves_of_ends {r : EStateM.Result LibError Tables GCPtr}
    (hr : Ends c.env r fun p h' => p = c.base tt ∧
      ∃ g', Agrees c.env h' g' ∧ Moved g g' (c.base 1) (c.base tt) f t (e - f + 1).toNat) :
    Moves c h g tt f e t r := by
  rcases hr with ⟨p, h', rfl, hmoved⟩ | ⟨_, h', rfl, rfl | rfl, hA⟩
  · exact hmoved
  · exact hA
  · exact hA

/-- The destination grows as the call asks, or every key behind its new size is present. -/
theorem growdestination_ends (ha : c.env.Roomy) (hA : Agrees c.env h g) (hle : f ≤ e)
    (hn : e - f < INT_MAX) (hend : t + (e - f) ≤ INT_MAX) (hw : c.readonly (c.base tt) = false) :
    (Ends c.env (growdestination c tt t (e - f + 1) h) (fun _ h' => Agrees c.env h' g) ∧
        ¬Overruns c h g tt f e t) ∨
      (growdestination c tt t (e - f + 1) h = .error (.fault .overflow) h ∧ Overruns c h g tt f e t) := by
  by_cases hgrows : 0 < t ∧ t - 1 ≤ (h (c.base tt)).sizearray ∧ ((h (c.base tt)).sizearray : ℤ) < t + (e - f)
  · obtain ⟨hpos, hnear, hshort⟩ := hgrows
    have hlast : Checked.sub 32 t 1 = .ok (t - 1) := sub_ok (fits_int (by omega) (by omega))
    have hnasize : Checked.add 32 (t - 1) (e - f + 1) = .ok (t + (e - f)) := by
      have hsum : t - 1 + (e - f + 1) = t + (e - f) := by ring
      have hfits : Fits 32 (t - 1 + (e - f + 1)) := fits_int (by omega) (by omega)
      rw [add_ok hfits, hsum]
    have hrun : growdestination c tt t (e - f + 1) h = resizearray c (c.base tt) (t + (e - f)) h := by
      unfold growdestination
      show (if 0 < t then _ else _ : LibM Unit) h = _
      rw [if_pos hpos, hlast]
      show (if t - 1 ≤ ((h (c.base tt)).sizearray : ℤ) then _ else _ : LibM Unit) h = _
      rw [if_pos hnear, hnasize]
      show (if ((h (c.base tt)).sizearray : ℤ) < t + (e - f) then _ else _ : LibM Unit) h = _
      rw [if_pos hshort]
    rw [hrun]
    rcases @resizearray_ends c h g (c.base tt) (t + (e - f)) ha hA (by omega) hend (by omega) with
      ⟨hends, j, h1, h2, hnil⟩ | ⟨hfault, hall⟩
    · exact Or.inl ⟨hends, fun hover => hover.present j h1 h2 hnil⟩
    · exact Or.inr ⟨hfault, ⟨hle, hn⟩, ⟨hpos, hend⟩, hw, ⟨hnear, hshort⟩, hall⟩
  · refine Or.inl ⟨?_, fun hover => hgrows ⟨hover.destination.1, hover.grows.1, hover.grows.2⟩⟩
    have hrun : growdestination c tt t (e - f + 1) h = .ok ⟨⟩ h := by
      unfold growdestination
      show (if 0 < t then _ else _ : LibM Unit) h = _
      by_cases hpos : 0 < t
      · have hlast : Checked.sub 32 t 1 = .ok (t - 1) := sub_ok (fits_int (by omega) (by omega))
        rw [if_pos hpos, hlast]
        show (if t - 1 ≤ ((h (c.base tt)).sizearray : ℤ) then _ else _ : LibM Unit) h = _
        by_cases hnear : t - 1 ≤ ((h (c.base tt)).sizearray : ℤ)
        · have hsum : t - 1 + (e - f + 1) = t + (e - f) := by ring
          have hfits : Fits 32 (t - 1 + (e - f + 1)) := fits_int (by omega) (by omega)
          rw [if_pos hnear, add_ok hfits, hsum]
          show (if ((h (c.base tt)).sizearray : ℤ) < t + (e - f) then _ else _ : LibM Unit) h = _
          rw [if_neg fun hshort => hgrows ⟨hpos, hnear, hshort⟩]
          rfl
        · rw [if_neg hnear]
          rfl
      · rw [if_neg hpos]
        rfl
    exact Or.inl ⟨⟨⟩, h, hrun, hA⟩

/-- The end of `tmove`, behind the checks of the arguments -/
theorem tmove_grown (ha : c.env.Roomy) (hA : Agrees c.env h g) (hf : Fits 32 f) (he : Fits 32 e) (ht : Fits 32 t)
    (hle : f ≤ e) (hn : e - f < INT_MAX) (hend : t + (e - f) ≤ INT_MAX) (hw : c.readonly (c.base tt) = false) :
    Moves c h g tt f e t ((do
        growdestination c tt t (e - f + 1)
        moveelements c 1 tt f e t
        return c.base tt : LibM GCPtr) h) ↔ ¬Overruns c h g tt f e t := by
  have hmax : INT_MAX = 2 ^ 31 - 1 := rfl
  obtain ⟨_, he2⟩ := he
  norm_num at he2
  rcases growdestination_ends ha hA hle hn hend hw with ⟨hends, hno⟩ | ⟨hfault, hover⟩
  · refine iff_of_true (moves_of_ends (hends.bind fun _ h₁ hA₁ => ?_)) hno
    have hmove := moveelements_moves (e := e) ha hA₁ 1 tt hf ht rfl (by omega) (by omega) (by omega) (by omega)
    exact hmove.bind fun _ h₂ hmoved => ends_pure ⟨rfl, hmoved⟩
  · refine iff_of_false ?_ (not_not_intro hover)
    have hrun : (do
        growdestination c tt t (e - f + 1)
        moveelements c 1 tt f e t
        return c.base tt : LibM GCPtr) h = .error (.fault .overflow) h := by
      show EStateM.bind _ _ h = _
      unfold EStateM.bind
      rw [hfault]
    rw [hrun]
    exact id

/-- `tmove` behind the check of the range -/
theorem tmove_counted (ha : c.env.Roomy) (hA : Agrees c.env h g) (hf : Fits 32 f) (he : Fits 32 e) (ht : Fits 32 t)
    (hle : f ≤ e) (hn : e - f < INT_MAX) :
    Moves c h g tt f e t ((do
        let n ← checked (count f e)
        argcheck (t ≤ (← checked (do Checked.add 32 (← Checked.sub 32 INT_MAX n) 1))) 4 "destination wrap around"
        if c.readonly (c.base tt) then throw .readonly
        growdestination c tt t n
        moveelements c 1 tt f e t
        return c.base tt : LibM GCPtr) h) ↔ ¬Overruns c h g tt f e t := by
  have hmax : INT_MAX = 2 ^ 31 - 1 := rfl
  have hcount : count f e = .ok (e - f + 1) := by
    unfold count
    rw [sub_ok (fits_int (by omega) (by omega))]
    exact add_ok (fits_int (by omega) (by omega))
  have hlimit : (do Checked.add 32 (← Checked.sub 32 INT_MAX (e - f + 1)) 1) = .ok (INT_MAX - (e - f + 1) + 1) := by
    rw [sub_ok (fits_int (by omega) (by omega))]
    exact add_ok (fits_int (by omega) (by omega))
  rw [hcount]
  show Moves c h g tt f e t ((do
    argcheck (t ≤ (← checked (do Checked.add 32 (← Checked.sub 32 INT_MAX (e - f + 1)) 1))) 4 "destination wrap around"
    if c.readonly (c.base tt) then throw .readonly
    growdestination c tt t (e - f + 1)
    moveelements c 1 tt f e t
    return c.base tt : LibM GCPtr) h) ↔ _
  rw [hlimit]
  show Moves c h g tt f e t ((do
    argcheck (t ≤ INT_MAX - (e - f + 1) + 1) 4 "destination wrap around"
    if c.readonly (c.base tt) then throw .readonly
    growdestination c tt t (e - f + 1)
    moveelements c 1 tt f e t
    return c.base tt : LibM GCPtr) h) ↔ _
  unfold argcheck
  by_cases hend : t + (e - f) ≤ INT_MAX
  · rw [if_pos (show t ≤ INT_MAX - (e - f + 1) + 1 by omega)]
    cases hw : c.readonly (c.base tt) with
    | true => exact iff_of_true ⟨g, hA⟩ fun hover => absurd (hw.symm.trans hover.writable) Bool.true_eq_false.mp
    | false => exact tmove_grown ha hA hf he ht hle hn hend hw
  · rw [if_neg (show ¬t ≤ INT_MAX - (e - f + 1) + 1 by omega)]
    exact iff_of_true ⟨by omega, rfl⟩ fun hover => hend hover.destination.2

/-- **`table.move`** moves the range, with one exception. -/
theorem tmove_iff (ha : c.env.Roomy) (hA : Agrees c.env h g) (tt : ℕ) (hf : Fits 32 f) (he : Fits 32 e)
    (ht : Fits 32 t) : Moves c h g tt f e t (tmove c tt f e t h) ↔ ¬Overruns c h g tt f e t := by
  have hmax : INT_MAX = 2 ^ 31 - 1 := rfl
  have ⟨hf1, hf2⟩ := hf
  have ⟨he1, he2⟩ := he
  norm_num at hf1 hf2 he1 he2
  unfold tmove
  by_cases hle : f ≤ e
  · rw [if_pos hle]
    by_cases hpos : 0 < f
    · rw [if_neg (not_not.mpr hpos)]
      exact tmove_counted ha hA hf he ht hle (by omega)
    · rw [if_pos hpos, add_ok (fits_int (by omega) (by omega))]
      unfold argcheck
      by_cases hn : e < INT_MAX + f
      · have hrest := @tmove_counted c h g tt f e t ha hA hf he ht hle (by omega)
        rw [← hrest]
        show Moves c h g tt f e t (((if e < INT_MAX + f then pure ⟨⟩ else _ : LibM Unit) >>= _) h) ↔ _
        rw [if_pos hn]
        rfl
      · show Moves c h g tt f e t (((if e < INT_MAX + f then pure ⟨⟩ else _ : LibM Unit) >>= _) h) ↔ _
        rw [if_neg hn]
        exact iff_of_true ⟨by omega, rfl⟩ fun hover => hn (by have := hover.range.2; omega)
  · rw [if_neg hle]
    refine iff_of_true (moves_of_ends (ends_pure ⟨rfl, g, hA, ?_⟩)) fun hover => hle hover.range.1
    rw [show (e - f + 1).toNat = 0 from by omega]
    exact ⟨fun i hi => absurd hi (Nat.not_lt_zero i), fun _ _ _ => rfl⟩

end Grow

section Claims

/-- A table that a run of operations reaches, with the entries it then has -/
def Reachable (E : Env) (t : LuaTable) (m : KeyMap) : Prop :=
  ∃ E₀ narray nhash t₀ t₁ ops, E₀.Roomy ∧ luaH_new E₀ narray nhash t₀ = .ok ⟨⟩ t₁ ∧
    TableOp.Contracts ⟨E₀, t₁, fun _ => .nil⟩ ops ∧ TableOp.run ⟨E₀, t₁, fun _ => .nil⟩ ops = ⟨E, t, m⟩

theorem Reachable.simulates {E : Env} {t : LuaTable} {m : KeyMap} (h : Reachable E t m) :
    Simulates ⟨E, t, m⟩ ∧ E.Roomy := by
  obtain ⟨E₀, narray, nhash, t₀, t₁, ops, ha, hnew, hc, hrun⟩ := h
  have hends := run_simulates ha ops hc (luaH_new_simulates ha hnew)
  rwa [hrun] at hends

/-- A call on the table at address 0 in a heap of empty tables -/
def emptyCall : Call := ⟨plainEnv, fun _ => false, fun _ => 0⟩

theorem reachable_empty : Reachable plainEnv emptyTable fun _ => .nil :=
  ⟨plainEnv, 0, 0, emptyTable, emptyTable, [], fun _ _ => rfl, rfl, trivial, rfl⟩

end Claims

end Luwu.TabLib
