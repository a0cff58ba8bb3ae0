import Luwu.Table.Resize

/-!
# The sizes `rehash` chooses

`rehash` counts the integer keys by the power of two they are below, picks the largest array that is
more than half full, and then lets `adjustasize` move its end past every key that is present.

All of this is counting over one list, `rehashKeys`: the keys with a value, and the new key.  `Tally`
says that the counters `nums` are right for a list of keys; `computesizes_spec` turns them into the
count of one prefix; and `adjustasize_spec` says that every slot it adds belongs to a key of the list.
`rehashSizes_spec` puts this together: the hash part is asked for as many elements as will belong there,
and the key behind the array part is absent.
-/

namespace Luwu

section Counting

/-! ### Integer keys below a bound -/

/-- The key is an integer in `1..m`. -/
def below (m : ℕ) : TValue → Bool
  | .number d => decide (0 < arrayindex d ∧ arrayindex d ≤ m)
  | _ => false

/-- The counter a key is counted in. -/
def keylog (lg : ℕ) : TValue → Bool
  | .number d =>
    decide (0 < arrayindex d ∧ arrayindex d ≤ MAXSIZE) && ceillog2 (arrayindex d).toNat == lg
  | _ => false

theorem arrayindex_eq_iff {d : Double} {i : ℤ} (hi : 0 < i) (hi' : i < 2 ^ 31) :
    arrayindex d = i ↔ d.eq (cast_num i) = true := by
  rw [cast_num2int_eq_iff ⟨by omega, hi'⟩]
  unfold arrayindex
  dsimp only
  split
  · rename_i h
    simp [h]
  · rename_i h
    simp only [h, Bool.false_eq_true, false_and, iff_false]
    omega

theorem below_iff {m : ℕ} (hm : m < 2 ^ 31) {k : TValue} :
    below m k = true ↔ ∃ i : ℕ, i < m ∧ isNumberEq k (i + 1) = true := by
  cases k <;> simp only [below, isNumberEq, Bool.false_eq_true, and_false, exists_false]
  rename_i d
  rw [decide_eq_true_iff]
  constructor
  · rintro ⟨h0, hle⟩
    refine ⟨(arrayindex d).toNat - 1, by omega, ?_⟩
    exact (arrayindex_eq_iff (by omega) (by omega)).mp (by omega)
  · rintro ⟨i, hi, he⟩
    have := (arrayindex_eq_iff (by omega) (by omega)).mpr he
    omega

theorem isSome_arrayslot {m : ℕ} (hm : m ≤ MAXSIZE) (k : TValue) :
    (arrayslot m k).isSome = below m k := by
  have hM : MAXSIZE = 2 ^ 26 := rfl
  rw [Bool.eq_iff_iff, below_iff (by omega), Option.isSome_iff_exists]
  refine exists_congr fun i => ?_
  rw [arrayslot_eq_some_iff hm, and_comm]

theorem below_succ {m : ℕ} (hm : m + 1 < 2 ^ 31) {k : TValue} :
    below (m + 1) k = true ↔ below m k = true ∨ isNumberEq k (m + 1) = true := by
  rw [below_iff hm, below_iff (by omega)]
  constructor
  · rintro ⟨i, hi, he⟩
    by_cases hlt : i < m
    · exact Or.inl ⟨i, hlt, he⟩
    · exact Or.inr ((show i = m by omega) ▸ he)
  · rintro (⟨i, hi, he⟩ | he)
    · exact ⟨i, by omega, he⟩
    · exact ⟨m, by omega, he⟩

theorem below_mono {m n : ℕ} (h : m ≤ n) {k : TValue} (hk : below m k = true) :
    below n k = true := by
  cases k <;> simp only [below, Bool.false_eq_true] at hk
  rw [decide_eq_true_iff] at hk
  simp only [below, decide_eq_true_iff]
  omega

/-- A key of the list at `m + 1` makes the count grow. -/
theorem countP_below_succ {S : List TValue} {m : ℕ} (hm : m + 1 < 2 ^ 31) {k : TValue}
    (hk : k ∈ S) (he : isNumberEq k (m + 1) = true) :
    S.countP (below m) + 1 ≤ S.countP (below (m + 1)) := by
  have hnot : below m k = false := by
    rw [← Bool.not_eq_true]
    intro hb
    obtain ⟨i, hi, he'⟩ := (below_iff (by omega)).mp hb
    have := isNumberEq_inj (by omega) (by omega) he he'
    omega
  have hin : below (m + 1) k = true := (below_succ hm).mpr (Or.inr he)
  obtain ⟨xs, ys, rfl⟩ := List.append_of_mem hk
  have hmono : ∀ l : List TValue, l.countP (below m) ≤ l.countP (below (m + 1)) := fun l =>
    List.countP_mono_left fun k _ => below_mono (by omega)
  have h1 := hmono xs
  have h2 := hmono ys
  rw [List.countP_append, List.countP_append, List.countP_cons, List.countP_cons, hnot, hin]
  simp only [Bool.false_eq_true, if_false, if_true]
  omega

/-- A run of keys of the list makes the count grow by its length. -/
theorem countP_below_run {S : List TValue} {m n : ℕ} (hn : m + n < 2 ^ 31)
    (hrun : ∀ i, m ≤ i → i < m + n → ∃ k ∈ S, isNumberEq k (i + 1) = true) :
    S.countP (below m) + n ≤ S.countP (below (m + n)) := by
  induction n with
  | zero => exact le_rfl
  | succ n ih =>
    have h1 := ih (by omega) fun i h1 h2 => hrun i h1 (by omega)
    obtain ⟨k, hk, he⟩ := hrun (m + n) (by omega) (by omega)
    have h2 : S.countP (below (m + n)) + 1 ≤ S.countP (below (m + (n + 1))) :=
      countP_below_succ (by omega) hk he
    omega

/-! ### The counters -/

/-- The counters are right for the keys of a list. -/
structure Tally (S : List TValue) (nums : List ℕ) : Prop where
  length : nums.length = MAXBITS + 1
  count : ∀ lg, lg < MAXBITS + 1 → nums.getD lg 0 = S.countP (keylog lg)

theorem Tally.nil : Tally [] (List.replicate (MAXBITS + 1) 0) := by
  refine ⟨by simp, fun lg hlg => ?_⟩
  rw [List.getD_eq_getElem?_getD, List.getElem?_replicate, if_pos hlg]
  rfl

theorem getD_modify (nums : List ℕ) (i j d : ℕ) :
    (nums.modify i (· + d)).getD j 0
      = nums.getD j 0 + if i = j ∧ j < nums.length then d else 0 := by
  rw [List.getD_eq_getElem?_getD, List.getD_eq_getElem?_getD, List.getElem?_modify]
  by_cases hj : j < nums.length
  · rw [List.getElem?_eq_getElem hj]
    by_cases hij : i = j <;> simp [hij, hj]
  · rw [List.getElem?_eq_none (not_lt.mp hj)]
    simp [hj]

theorem keylog_lt {lg : ℕ} {k : TValue} (h : keylog lg k = true) : lg < MAXBITS + 1 := by
  cases k <;> simp only [keylog, Bool.false_eq_true, Bool.and_eq_true, decide_eq_true_iff,
    beq_iff_eq] at h
  rename_i d
  have : ceillog2 (arrayindex d).toNat ≤ MAXBITS := ceillog2_le (by omega)
  omega

/-- Counting one number key. -/
theorem Tally.countint {S : List TValue} {nums : List ℕ} (h : Tally S nums) (d : Double) :
    Tally (.number d :: S) (countint d nums).1 ∧
      (countint d nums).2 = if below MAXSIZE (.number d) = true then 1 else 0 := by
  unfold Luwu.countint
  dsimp only
  by_cases hk : 0 < arrayindex d ∧ arrayindex d ≤ MAXSIZE
  · have hlt : ceillog2 (arrayindex d).toNat < MAXBITS + 1 :=
      keylog_lt (k := .number d) (by simp [keylog, hk])
    rw [if_pos hk]
    refine ⟨⟨by simp [h.length], fun lg hlg => ?_⟩, by simp [below, hk]⟩
    rw [getD_modify, h.count lg hlg, List.countP_cons, h.length]
    congr 1
    by_cases he : ceillog2 (arrayindex d).toNat = lg
    · rw [if_pos ⟨he, hlg⟩, if_pos (by simp [keylog, hk, he])]
    · rw [if_neg (fun h => he h.1), if_neg (by simp [keylog, he])]
  · rw [if_neg hk]
    refine ⟨⟨h.length, fun lg hlg => ?_⟩, by simp [below, hk]⟩
    rw [List.countP_cons, if_neg (by simp [keylog, hk]), h.count lg hlg]
    rfl

/-- Counting a key: only numbers are counted. -/
theorem Tally.countkey {S : List TValue} {nums : List ℕ} (h : Tally S nums) (k : TValue) :
    Tally (k :: S) (countkey k nums).1 ∧
      (countkey k nums).2 = if below MAXSIZE k = true then 1 else 0 := by
  have hother : (∀ lg, keylog lg k = false) → Tally (k :: S) nums := fun hk =>
    ⟨h.length, fun lg hlg => by
      rw [List.countP_cons, hk, h.count lg hlg]
      rfl⟩
  cases k with
  | number d => exact h.countint d
  | _ => exact ⟨hother fun _ => rfl, rfl⟩

theorem Tally.perm {S S' : List TValue} {nums : List ℕ} (h : Tally S nums) (hp : S.Perm S') :
    Tally S' nums :=
  ⟨h.length, fun lg hlg => (h.count lg hlg).trans (hp.countP_eq _)⟩

end Counting

/-! ### Counting the table -/

section Table

variable {E : Env} {t : LuaTable}

/-- The keys of the array slots `i..lim` in use. -/
def LuaTable.sliceKeys (t : LuaTable) (i lim : ℕ) : List TValue :=
  ((List.range' i (lim + 1 - i)).filter fun j => !(t.arr (j - 1)).isNil).map
    fun j : ℕ => .number (cast_num j)

/-- The keys of the nodes in use. -/
def LuaTable.nodeKeys (t : LuaTable) : List TValue :=
  (t.nodes.filter fun n => !n.val.isNil).map (·.key.tv)

/-- The keys of a table: those with a value. -/
def LuaTable.liveKeys (t : LuaTable) : List TValue := t.nodeKeys ++ t.sliceKeys 1 t.sizearray

/-- The keys `rehash` counts: those of the table, and the new one. -/
def LuaTable.rehashKeys (t : LuaTable) (ek : Option TValue) : List TValue := ek.toList ++ t.liveKeys

theorem numuseslice_eq (t : LuaTable) (i lim : ℕ) : numuseslice t i lim = (t.sliceKeys i lim).length := by
  unfold numuseslice LuaTable.sliceKeys
  rw [List.length_map, List.countP_eq_length_filter]

theorem sliceKeys_append {i m n : ℕ} (him : i ≤ m + 1) (hmn : m ≤ n) :
    t.sliceKeys i n = t.sliceKeys i m ++ t.sliceKeys (m + 1) n := by
  unfold LuaTable.sliceKeys
  rw [← List.map_append, ← List.filter_append]
  congr 2
  have hsplit := List.range'_append_1 (s := i) (m := m + 1 - i) (n := n - m)
  rw [show i + (m + 1 - i) = m + 1 from by omega] at hsplit
  rw [show n + 1 - (m + 1) = n - m from by omega, hsplit]
  congr 1
  omega

theorem mem_sliceKeys {i lim : ℕ} {k : TValue} :
    k ∈ t.sliceKeys i lim ↔
      ∃ j, i ≤ j ∧ j ≤ lim ∧ t.arr (j - 1) ≠ .nil ∧ k = .number (cast_num j) := by
  unfold LuaTable.sliceKeys
  simp only [List.mem_map, List.mem_filter, List.mem_range'_1, Bool.not_eq_true',
    TValue.isNil_eq_false_iff]
  constructor
  · rintro ⟨j, ⟨⟨h1, h2⟩, h3⟩, rfl⟩
    exact ⟨j, h1, by omega, h3, rfl⟩
  · rintro ⟨j, h1, h2, h3, rfl⟩
    exact ⟨j, ⟨⟨h1, by omega⟩, h3⟩, rfl⟩

theorem arrayindex_cast_num {j : ℕ} (h0 : 0 < j) (hj : j ≤ MAXSIZE) :
    arrayindex (cast_num j) = j := by
  have hM : MAXSIZE = 2 ^ 26 := rfl
  rw [arrayindex_eq_iff (by omega) (by omega)]
  exact Double.eq_refl (Double.ofInt_not_nan (by omega))

/-- The bound below which counter `lg` does not count: the slice is `(2^(lg-1), 2^lg]`. -/
def slicelow (lg : ℕ) : ℕ := if lg = 0 then 0 else 2 ^ (lg - 1)

theorem slicelow_succ (lg : ℕ) : slicelow (lg + 1) = 2 ^ lg := by
  unfold slicelow
  rw [if_neg (by omega), Nat.add_sub_cancel]

theorem slicelow_le (lg : ℕ) : slicelow lg ≤ 2 ^ lg := by
  unfold slicelow
  split
  · exact Nat.zero_le _
  · exact Nat.pow_le_pow_right (by norm_num) (by omega)

theorem ceillog2_eq_iff {j lg : ℕ} (h0 : 0 < j) : ceillog2 j = lg ↔ slicelow lg < j ∧ j ≤ 2 ^ lg := by
  rw [ceillog2_eq]
  have hle := Nat.clog_le_iff_le_pow (b := 2) (by norm_num) (x := j) (y := lg)
  unfold slicelow
  by_cases hlg : lg = 0
  · subst hlg
    rw [if_pos rfl]
    omega
  · rw [if_neg hlg]
    have hlt := Nat.lt_clog_iff_pow_lt (b := 2) (by norm_num) (x := j) (y := lg - 1)
    omega

theorem keylog_cast_num {j lg : ℕ} (h0 : 0 < j) (hj : j ≤ MAXSIZE) :
    keylog lg (.number (cast_num j)) = true ↔ slicelow lg < j ∧ j ≤ 2 ^ lg := by
  have hM : MAXSIZE = 2 ^ 26 := rfl
  simp only [keylog]
  rw [arrayindex_cast_num h0 hj, Int.toNat_natCast, ← ceillog2_eq_iff h0, Bool.and_eq_true,
    decide_eq_true_iff, beq_iff_eq]
  exact ⟨fun h => h.2, fun h => ⟨⟨by omega, by omega⟩, h⟩⟩

theorem numusearrayLoop_spec (hmax : t.sizearray ≤ MAXSIZE) {rest lg i : ℕ} {nums : List ℕ}
    {ause : ℕ} (hlg : lg + rest = MAXBITS + 1) (hi : i = min (slicelow lg) t.sizearray + 1)
    (h : Tally (t.sliceKeys 1 (i - 1)) nums) (ha : ause = (t.sliceKeys 1 (i - 1)).length) :
    Tally (t.sliceKeys 1 t.sizearray) (numusearrayLoop t rest lg i nums ause).1 ∧
      (numusearrayLoop t rest lg i nums ause).2 = (t.sliceKeys 1 t.sizearray).length := by
  induction rest generalizing lg i nums ause with
  | zero =>
    have hlow : slicelow lg = MAXSIZE := by
      rw [show lg = MAXBITS + 1 from by omega, slicelow_succ]
      rfl
    have hend : i - 1 = t.sizearray := by omega
    rw [hend] at h ha
    exact ⟨h, ha⟩
  | succ rest ih =>
    have hlow := slicelow_le lg
    unfold numusearrayLoop
    dsimp only
    set lim := if t.sizearray < 2 ^ lg then t.sizearray else 2 ^ lg with hlim
    have hlim' : lim = min (2 ^ lg) t.sizearray := by
      rw [hlim]
      split <;> omega
    by_cases hbreak : t.sizearray < 2 ^ lg ∧ lim < i
    · have hend : i - 1 = t.sizearray := by omega
      rw [if_pos hbreak]
      rw [hend] at h ha
      exact ⟨h, ha⟩
    · rw [if_neg hbreak]
      have hkeys : t.sliceKeys 1 lim = t.sliceKeys 1 (i - 1) ++ t.sliceKeys i lim := by
        have := sliceKeys_append (t := t) (i := 1) (m := i - 1) (n := lim) (by omega) (by omega)
        rwa [show i - 1 + 1 = i from by omega] at this
      have hnext : max i (lim + 1) - 1 = lim := by omega
      have hlen : numuseslice t i lim = (t.sliceKeys i lim).length := numuseslice_eq t i lim
      refine ih (by omega) (by rw [slicelow_succ]; omega) ?_ ?_
      · rw [hnext, hkeys]
        refine ⟨by simp [h.length], fun lg' hlg' => ?_⟩
        rw [getD_modify, h.count lg' hlg', List.countP_append, h.length, hlen]
        congr 1
        -- every key of the slice is counted in `lg`, and in no other counter
        have hslice : ∀ k ∈ t.sliceKeys i lim, keylog lg' k = true ↔ lg' = lg := by
          intro k hk
          obtain ⟨j, h1, h2, _, rfl⟩ := mem_sliceKeys.mp hk
          have hself : keylog lg (.number (cast_num j)) = true :=
            (keylog_cast_num (by omega) (by omega)).mpr ⟨by omega, by omega⟩
          constructor
          · intro hk'
            have h1 : ceillog2 j = lg' :=
              (ceillog2_eq_iff (by omega)).mpr ((keylog_cast_num (by omega) (by omega)).mp hk')
            have h2 : ceillog2 j = lg :=
              (ceillog2_eq_iff (by omega)).mpr ((keylog_cast_num (by omega) (by omega)).mp hself)
            omega
          · rintro rfl
            exact hself
        by_cases heq : lg = lg'
        · rw [if_pos ⟨heq, hlg'⟩]
          exact (List.countP_eq_length.mpr fun k hk => (hslice k hk).mpr heq.symm).symm
        · rw [if_neg fun h => heq h.1]
          exact (List.countP_eq_zero.mpr fun k hk hk' => heq ((hslice k hk).mp hk').symm).symm
      · rw [hnext, hkeys, List.length_append, ha, hlen]

/-- **`numusearray`** counts the array part. -/
theorem numusearray_spec (hmax : t.sizearray ≤ MAXSIZE) :
    Tally (t.sliceKeys 1 t.sizearray) (numusearray t (List.replicate (MAXBITS + 1) 0)).1 ∧
      (numusearray t (List.replicate (MAXBITS + 1) 0)).2 = (t.sliceKeys 1 t.sizearray).length :=
  numusearrayLoop_spec hmax (by omega) rfl Tally.nil rfl

/-- **`numusehash`** counts the hash part. -/
theorem numusehashLoop_spec {S : List TValue} {nums : List ℕ} (h : Tally S nums)
    (ns : List LuaNode) (ause totaluse : ℕ) :
    let keys := (ns.filter fun n => !n.val.isNil).map fun n => n.key.tv
    Tally (keys ++ S) (numusehashLoop ns nums ause totaluse).1 ∧
      (numusehashLoop ns nums ause totaluse).2
        = (ause + keys.countP (below MAXSIZE), totaluse + keys.length) := by
  induction ns generalizing S nums ause totaluse with
  | nil => exact ⟨h, rfl⟩
  | cons n ns ih =>
    by_cases hv : n.val.isNil = true
    · rw [numusehashLoop, if_pos hv, List.filter_cons_of_neg (by simp [hv])]
      exact ih h ause totaluse
    · rw [List.filter_cons_of_pos (by simp [hv]), List.map_cons]
      rw [Bool.not_eq_true] at hv
      have hmove : ∀ keys : List TValue,
          (keys ++ n.key.tv :: S).Perm (n.key.tv :: keys ++ S) := fun keys =>
        List.perm_middle
      obtain ⟨hc, hext⟩ := h.countkey n.key.tv
      obtain ⟨h1, h2⟩ := ih hc (ause + (countkey n.key.tv nums).2) (totaluse + 1)
      rw [numusehashLoop, hv]
      refine ⟨h1.perm (hmove _), ?_⟩
      refine h2.trans ?_
      rw [hext, List.countP_cons, List.length_cons]
      congr 1 <;> omega

/-! ### `computesizes` -/

/-- The counters split the keys below a power of two. -/
theorem countP_below_log (S : List TValue) {lg : ℕ} (hlg : lg ≤ MAXBITS) :
    S.countP (below (slicelow lg)) + S.countP (keylog lg) = S.countP (below (2 ^ lg)) := by
  have hpow : 2 ^ lg ≤ MAXSIZE := Nat.pow_le_pow_right (by norm_num) hlg
  have hlow := slicelow_le lg
  induction S with
  | nil => rfl
  | cons k S ih =>
    rw [List.countP_cons, List.countP_cons, List.countP_cons, ← ih]
    have hone : (if below (slicelow lg) k = true then 1 else 0) + (if keylog lg k = true then 1 else 0)
        = if below (2 ^ lg) k = true then 1 else 0 := by
      cases k <;> try rfl
      rename_i d
      simp only [below, keylog, Bool.and_eq_true, decide_eq_true_iff, beq_iff_eq]
      by_cases hd : 0 < arrayindex d ∧ arrayindex d ≤ MAXSIZE
      · have : ceillog2 (arrayindex d).toNat = lg ↔ _ := ceillog2_eq_iff (by omega)
        split_ifs <;> omega
      · rw [if_neg (by omega), if_neg (by omega), if_neg (by omega)]
    omega

theorem computesizesLoop_spec {S : List TValue} {nums : List ℕ} (h : Tally S nums) {narray : ℕ}
    {lg n : ℕ} (hlg : lg ≤ MAXBITS + 1) (hn : n ≤ MAXSIZE) {cs : List ℕ} (hcs : cs = nums.drop lg) :
    let r := computesizesLoop narray cs (2 ^ lg) (S.countP (below (slicelow lg)))
      (S.countP (below n)) n
    r.1 ≤ MAXSIZE ∧ r.2 = S.countP (below r.1) := by
  induction cs generalizing lg n with
  | nil => exact ⟨hn, rfl⟩
  | cons c cs ih =>
    have hlt : lg < MAXBITS + 1 := by
      by_contra hge
      rw [List.drop_eq_nil_of_le (by rw [h.length]; omega)] at hcs
      cases hcs
    have hc : c = S.countP (keylog lg) := by
      rw [← h.count lg hlt, List.getD_eq_getElem?_getD]
      have := congrArg List.head? hcs
      rw [List.head?_drop] at this
      rw [← this]
      rfl
    have htail : cs = nums.drop (lg + 1) := by
      rw [← List.tail_drop, ← hcs]
      rfl
    have hsum := countP_below_log S (show lg ≤ MAXBITS by omega)
    rw [← hc] at hsum
    have hpow : 2 ^ lg ≤ MAXSIZE := Nat.pow_le_pow_right (by norm_num) (by omega)
    unfold computesizesLoop
    dsimp only
    split
    · rw [hsum]
      -- the answer so far, after this counter
      set n' := if 0 < c ∧ 2 ^ lg / 2 < S.countP (below (2 ^ lg)) then 2 ^ lg else n with hn'
      have hna : (if 0 < c ∧ 2 ^ lg / 2 < S.countP (below (2 ^ lg)) then S.countP (below (2 ^ lg))
          else S.countP (below n)) = S.countP (below n') := by
        rw [hn']
        split <;> rfl
      have hmax : n' ≤ MAXSIZE := by
        rw [hn']
        split <;> assumption
      rw [hna]
      split
      · exact ⟨hmax, rfl⟩
      · have := @ih (lg + 1) n' (by omega) hmax htail
        rw [slicelow_succ, pow_succ] at this
        exact this
    · exact ⟨hn, rfl⟩

/-- **`computesizes`** counts the keys that the array it chooses will hold. -/
theorem computesizes_spec {S : List TValue} {nums : List ℕ} (h : Tally S nums) (narray : ℕ) :
    (computesizes nums narray).1 ≤ MAXSIZE ∧
      (computesizes nums narray).2 = S.countP (below (computesizes nums narray).1) := by
  have hzero : ∀ k : TValue, below 0 k = false := fun k => by
    cases k <;> simp [below]
  have h0 : S.countP (below 0) = 0 := List.countP_eq_zero.mpr fun k _ => by simp [hzero k]
  have hlow : slicelow 0 = 0 := rfl
  have := @computesizesLoop_spec S nums h narray 0 0 (by omega) (by omega) _ rfl
  simp only [hlow, h0, pow_zero] at this
  exact this

/-- **The count of `rehash`**: the hash part is asked for the keys outside the array part. -/
theorem rehashCount_spec (h : Inv E t) (ek : TValue) :
    (rehashCount t ek).1 ≤ MAXSIZE ∧
      (rehashCount t ek).2 + (t.rehashKeys (some ek)).countP (below (rehashCount t ek).1)
        = (t.rehashKeys (some ek)).length := by
  obtain ⟨htally₁, hause⟩ := numusearray_spec h.sizeMax
  obtain ⟨htally₂, huse⟩ := numusehashLoop_spec htally₁ t.nodes.reverse 0 0
  have hperm : ((t.nodes.reverse.filter fun n => !n.val.isNil).map fun n => n.key.tv).Perm
      t.nodeKeys := ((List.reverse_perm t.nodes).filter _).map _
  have htally₃ := ((htally₂.perm (hperm.append_right _)).countkey ek).1
  obtain ⟨_, huse⟩ := Prod.mk.inj huse
  rw [hperm.length_eq] at huse
  have hlen : (t.rehashKeys (some ek)).length
      = (numusearray t (List.replicate (MAXBITS + 1) 0)).2
        + (numusehash t (numusearray t (List.replicate (MAXBITS + 1) 0)).1).2.2 + 1 := by
    rw [hause]
    unfold numusehash
    rw [huse]
    show (ek :: (t.nodeKeys ++ t.sliceKeys 1 t.sizearray)).length = _
    rw [List.length_cons, List.length_append]
    omega
  have hle : ∀ n, (t.rehashKeys (some ek)).countP (below n) ≤ (t.rehashKeys (some ek)).length :=
    fun n => List.countP_le_length
  obtain ⟨hmax, hna⟩ := computesizes_spec htally₃
    ((numusearray t (List.replicate (MAXBITS + 1) 0)).2
      + (numusehash t (numusearray t (List.replicate (MAXBITS + 1) 0)).1).2.1
      + (countkey ek (numusehash t (numusearray t (List.replicate (MAXBITS + 1) 0)).1).1).2)
  refine ⟨hmax, ?_⟩
  have := hle (rehashCount t ek).1
  have hnh : (rehashCount t ek).2 = (t.rehashKeys (some ek)).length
      - (t.rehashKeys (some ek)).countP (below (rehashCount t ek).1) := by
    rw [hlen]
    exact congrArg (_ - ·) hna
  omega

/-! ### `adjustasize` -/

/-- The integer lookup, as a lookup of the number. -/
theorem Inv.getnum_eq_get (h : Inv E t) {i : ℤ} (hi : -2 ^ 31 ≤ i ∧ i < 2 ^ 31) :
    luaH_getnum t i = luaH_get E t (.number (cast_num i)) := by
  rw [h.getnum_eq hi, h.get_eq (validKey_of_isNumberEq (isNumberEq_cast_num hi))]

/-- The integers with an entry are those among the keys of the table. -/
theorem Inv.holds_int_iff (h : Inv E t) {i : ℕ} (hi : i + 1 < 2 ^ 31) {key : TValue}
    (hkey : isNumberEq key (i + 1) = true) :
    (∃ w, t.Holds key w) ↔ ∃ k ∈ t.liveKeys, isNumberEq k (i + 1) = true := by
  have hM : MAXSIZE = 2 ^ 26 := rfl
  have hmax := h.sizeMax
  simp only [holds_iff_entries hmax, LuaTable.liveKeys, List.mem_append,
    LuaTable.nodeKeys, mem_sliceKeys, List.mem_map, List.mem_filter]
  constructor
  · rintro ⟨w, hw, ⟨j, hj, hget, he⟩ | ⟨n, hn, hget, he⟩⟩
    · have hij := isNumberEq_inj (by omega) (by omega) hkey he
      refine ⟨.number (cast_num ((j + 1 : ℕ) : ℤ)), Or.inr ⟨j + 1, by omega, by omega, ?_, rfl⟩, ?_⟩
      · rw [Nat.add_sub_cancel, hget]
        exact hw
      · rw [show ((j + 1 : ℕ) : ℤ) = i + 1 from by omega]
        exact isNumberEq_cast_num (by omega)
    · refine ⟨n.key.tv, Or.inl ⟨n, ⟨hn, ?_⟩, rfl⟩, ?_⟩
      · rw [hget, TValue.isNil_eq_false_iff.mpr hw]
        rfl
      · rw [isNumberEq_congr he]
        exact hkey
  · rintro ⟨k, ⟨n, ⟨hn, hv⟩, rfl⟩ | ⟨j, h1, h2, hv, rfl⟩, he⟩
    · refine ⟨n.val, ?_, Or.inr ⟨n, hn, rfl, rawequal_of_isNumberEq he hkey⟩⟩
      rw [Bool.not_eq_true', TValue.isNil_eq_false_iff] at hv
      exact hv
    · have hij := isNumberEq_inj (by omega) (by omega) he (isNumberEq_cast_num (by omega))
      refine ⟨t.arr (j - 1), hv, Or.inl ⟨j - 1, by omega, rfl, ?_⟩⟩
      rw [show ((j - 1 : ℕ) : ℤ) = i from by omega]
      exact hkey

/-- The lookup of an integer ends, and finds a value when the integer is a key of the table. -/
theorem Inv.getnum_present (h : Inv E t) {i : ℕ} (hi : i + 1 < 2 ^ 31) :
    ∃ s, luaH_getnum t (i + 1) = some s ∧
      (t.slotGet s ≠ .nil ↔ ∃ k ∈ t.liveKeys, isNumberEq k (i + 1) = true) := by
  have hself : isNumberEq (.number (cast_num (i + 1))) (i + 1) = true :=
    isNumberEq_cast_num ⟨by omega, by omega⟩
  have hk := validKey_of_isNumberEq hself
  rw [h.getnum_eq_get ⟨by omega, by omega⟩, ← h.holds_int_iff hi hself]
  rcases h.get_cases hk with ⟨s, hs, hget⟩ | ⟨hget, hno⟩
  · refine ⟨s, hget, fun hv => ⟨_, hv, s, hs, rfl⟩, ?_⟩
    rintro ⟨w, hw, s', hs', hget'⟩
    rw [h.slotOf_unique hk hs hs', hget']
    exact hw
  · refine ⟨.nilobject, hget, fun hv => absurd rfl hv, ?_⟩
    rintro ⟨w, _, s, hs, _⟩
    exact absurd hs (hno s)

theorem ekindexOf_eq_iff {ek : Option TValue} {i : ℕ} (hi : i + 1 < 2 ^ 31) :
    ((i : ℤ) + 1 = ekindexOf ek) ↔ ∃ k ∈ ek.toList, isNumberEq k (i + 1) = true := by
  cases ek with
  | none =>
    simp only [ekindexOf, Option.toList_none, List.not_mem_nil, false_and, exists_false, iff_false]
    omega
  | some k =>
    simp only [Option.toList_some, List.mem_singleton, exists_eq_left]
    cases k <;> simp only [ekindexOf, isNumberEq, Bool.false_eq_true, iff_false] <;> try omega
    rename_i d
    rw [← arrayindex_eq_iff (by omega) (by omega)]
    exact eq_comm

/-- The loop of `adjustasize`: the slots it passes belong to keys, and it stops at one that does not,
or else for lack of fuel. -/
theorem adjustasizeLoop_spec (h : Inv E t) {ek : Option TValue} {tbound : Bool} {fuel size : ℕ}
    (hmax : size + fuel < 2 ^ 31)
    (hbound : tbound = false → ∀ i, size ≤ i → i < 2 ^ 31 →
      luaH_getnum t (i + 1) = some .nilobject) :
    (∃ s, adjustasizeLoop t tbound (ekindexOf ek) fuel size = some s ∧ size ≤ s ∧
        s < size + fuel ∧
        (∀ i, size ≤ i → i < s → ∃ k ∈ t.rehashKeys ek, isNumberEq k (i + 1) = true) ∧
        ∀ k ∈ t.rehashKeys ek, isNumberEq k (s + 1) = false) ∨
      (adjustasizeLoop t tbound (ekindexOf ek) fuel size = none ∧
        ∀ i, size ≤ i → i < size + fuel → ∃ k ∈ t.rehashKeys ek, isNumberEq k (i + 1) = true) := by
  induction fuel generalizing size with
  | zero => exact Or.inr ⟨rfl, fun i h1 h2 => by omega⟩
  | succ fuel ih =>
    have hek := @ekindexOf_eq_iff ek size (by omega)
    obtain ⟨s, hs, hpresent⟩ := h.getnum_present (i := size) (by omega)
    have hkeys : (∃ k ∈ t.rehashKeys ek, isNumberEq k (size + 1) = true) ↔
        (size : ℤ) + 1 = ekindexOf ek ∨ t.slotGet s ≠ .nil := by
      rw [hek, hpresent]
      unfold LuaTable.rehashKeys
      simp only [List.mem_append, or_and_right, exists_or]
    have hstep : (if (∃ k ∈ t.rehashKeys ek, isNumberEq k (size + 1) = true) then
          adjustasizeLoop t tbound (ekindexOf ek) fuel (size + 1) else some size)
        = adjustasizeLoop t tbound (ekindexOf ek) (fuel + 1) size := by
      conv_rhs => unfold adjustasizeLoop
      by_cases he : (size : ℤ) + 1 = ekindexOf ek
      · rw [if_pos (hkeys.mpr (Or.inl he)), if_pos he]
      · rw [if_neg he, hs]
        cases htb : tbound with
        | true =>
          by_cases hv : t.slotGet s = .nil
          · rw [if_neg (fun hc => (hkeys.mp hc).elim he fun hv' => hv' hv)]
            simp [hv, TValue.isNil]
          · rw [if_pos (hkeys.mpr (Or.inr hv))]
            simp [TValue.isNil_eq_false_iff.mpr hv]
        | false =>
          have hnil := hbound htb size le_rfl (by omega)
          rw [hs] at hnil
          have hv : t.slotGet s = .nil := by
            rw [Option.some.inj hnil]
            rfl
          rw [if_neg (fun hc => (hkeys.mp hc).elim he fun hv' => hv' hv)]
          rfl
    rw [← hstep]
    split
    · rename_i hc
      rcases @ih (size + 1) (by omega) (fun htb i hi => hbound htb i (by omega)) with
        ⟨s', hrun, hle, hlt, hpassed, hstop⟩ | ⟨hrun, hall⟩
      · refine Or.inl ⟨s', hrun, by omega, by omega, fun i h1 h2 => ?_, hstop⟩
        by_cases hi : i = size
        · rw [hi]
          exact hc
        · exact hpassed i (by omega) h2
      · refine Or.inr ⟨hrun, fun i h1 h2 => ?_⟩
        by_cases hi : i = size
        · rw [hi]
          exact hc
        · exact hall i (by omega) (by omega)
    · rename_i hc
      refine Or.inl ⟨size, rfl, le_rfl, by omega, fun i h1 h2 => by omega, fun k hk => ?_⟩
      rw [← Bool.not_eq_true]
      exact fun he => hc ⟨k, hk, he⟩

theorem Inv.length_nodes (h : Inv E t) : t.nodes.length = t.sizenode := by
  unfold LuaTable.nodes
  by_cases hn : t.node = none
  · rw [hn, LuaTable.sizenode, h.dummySize hn]
    rfl
  · obtain ⟨ns, hns⟩ := Option.ne_none_iff_exists'.mp hn
    have := (h.nodeSize hn).1
    unfold LuaTable.nodeCount at this
    rw [hns] at this ⊢
    exact this

theorem Inv.sizenode_le (h : Inv E t) : t.sizenode ≤ MAXSIZE := by
  unfold LuaTable.sizenode
  by_cases hn : t.node = none
  · rw [h.dummySize hn]
    exact Nat.one_le_two_pow
  · exact Nat.pow_le_pow_right (by norm_num) (h.nodeSize hn).2

theorem Inv.length_rehashKeys (h : Inv E t) (ek : Option TValue) :
    (t.rehashKeys ek).length ≤ t.sizearray + t.sizenode + 1 := by
  have h1 : ek.toList.length ≤ 1 := by cases ek <;> simp
  have h2 : t.nodeKeys.length ≤ t.nodes.length := by
    unfold LuaTable.nodeKeys
    rw [List.length_map]
    exact List.length_filter_le _ _
  have h3 : (t.sliceKeys 1 t.sizearray).length ≤ t.sizearray := by
    unfold LuaTable.sliceKeys
    rw [List.length_map]
    refine (List.length_filter_le _ _).trans ?_
    rw [List.length_range']
    omega
  have h4 := h.length_nodes
  unfold LuaTable.rehashKeys LuaTable.liveKeys
  rw [List.length_append, List.length_append]
  omega

/-- **`adjustasize`** ends, passes only slots of keys, and stops where the next key is absent. -/
theorem adjustasize_spec (h : Inv E t) (ek : Option TValue) {size : ℕ} (hmax : size < 2 ^ 30) :
    ∃ s, adjustasize t size ek = some s ∧ size ≤ s ∧ s ≤ size + 2 ^ 28 ∧
      (∀ i, size ≤ i → i < s → ∃ k ∈ t.rehashKeys ek, isNumberEq k (i + 1) = true) ∧
      ∀ k ∈ t.rehashKeys ek, isNumberEq k (s + 1) = false := by
  have hM : MAXSIZE = 2 ^ 26 := rfl
  have hsize := h.sizeMax
  have hnode := h.sizenode_le
  unfold adjustasize
  dsimp only
  have hbound : decide (t.node ≠ none ∨ size < t.sizearray) = false → ∀ i, size ≤ i → i < 2 ^ 31 →
      luaH_getnum t (i + 1) = some .nilobject := by
    intro htb i hi hlt
    rw [decide_eq_false_iff_not, not_or, not_not] at htb
    unfold luaH_getnum
    have hout : ¬ cast_unsigned ((i : ℤ) + 1 - 1) < t.sizearray := by
      unfold cast_unsigned
      omega
    rw [if_neg hout, if_neg (fun hne => hne htb.1)]
  rcases @adjustasizeLoop_spec E t h ek _ (t.sizearray + t.sizenode + 2) size (by omega) hbound with ⟨s, hrun, hle, hlt, hpassed, hstop⟩ | ⟨_, hall⟩
  · exact ⟨s, hrun, hle, by omega, hpassed, hstop⟩
  · -- there are fewer keys than fuel
    exfalso
    have hrun := countP_below_run (S := t.rehashKeys ek) (m := size)
      (n := t.sizearray + t.sizenode + 2) (by omega) hall
    have hle : (t.rehashKeys ek).countP (below (size + (t.sizearray + t.sizenode + 2)))
        ≤ (t.rehashKeys ek).length := List.countP_le_length
    have hlen := h.length_rehashKeys ek
    omega

theorem below_cast_num {j na : ℕ} (h0 : 0 < j) (hj : j ≤ MAXSIZE) :
    below na (.number (cast_num j)) = true ↔ j ≤ na := by
  simp only [below]
  rw [arrayindex_cast_num h0 hj, decide_eq_true_iff]
  omega

/-- The array slots that stay, and those of the vanishing slice. -/
theorem sliceKeys_split (hmax : t.sizearray ≤ MAXSIZE) (na : ℕ) :
    (t.sliceKeys 1 t.sizearray).countP (below na)
      + (List.range' na (t.sizearray - na)).countP (fun i => !(t.arr i).isNil)
      = (t.sliceKeys 1 t.sizearray).length := by
  have hkeep : ∀ m, m ≤ na → m ≤ t.sizearray →
      (t.sliceKeys 1 m).countP (below na) = (t.sliceKeys 1 m).length := by
    intro m hna hm
    refine List.countP_eq_length.mpr fun k hk => ?_
    obtain ⟨j, h1, h2, _, rfl⟩ := mem_sliceKeys.mp hk
    exact (below_cast_num (by omega) (by omega)).mpr (by omega)
  by_cases hle : t.sizearray ≤ na
  · rw [hkeep _ hle le_rfl, show t.sizearray - na = 0 from by omega]
    rfl
  · have hgone : (t.sliceKeys (na + 1) t.sizearray).countP (below na) = 0 := by
      refine List.countP_eq_zero.mpr fun k hk => ?_
      obtain ⟨j, h1, h2, _, rfl⟩ := mem_sliceKeys.mp hk
      rw [below_cast_num (by omega) (by omega)]
      omega
    have hcount : (t.sliceKeys (na + 1) t.sizearray).length
        = (List.range' na (t.sizearray - na)).countP fun i => !(t.arr i).isNil := by
      rw [← numuseslice_eq, numuseslice, show t.sizearray + 1 - (na + 1) = t.sizearray - na from by omega,
        show na + 1 = 1 + na from by omega, ← List.map_add_range', List.countP_map]
      simp [Function.comp_def]
    rw [sliceKeys_append (show 1 ≤ na + 1 by omega) (show na ≤ t.sizearray by omega),
      List.countP_append, List.length_append, hkeep na le_rfl (by omega), hgone, hcount]
    omega

/-- The keys are those below `na` and those that go to the hash part of a table with `na` array slots. -/
theorem outside_eq (hmax : t.sizearray ≤ MAXSIZE) {na : ℕ} (hna : na ≤ MAXSIZE) (ek : TValue) :
    (t.rehashKeys (some ek)).countP (below na)
      + (t.outside na + if arrayslot na ek = none then 1 else 0)
      = (t.rehashKeys (some ek)).length := by
  have hkey : (if below na ek = true then 1 else 0) + (if arrayslot na ek = none then 1 else 0) = 1 := by
    rw [← isSome_arrayslot hna]
    cases arrayslot na ek <;> simp
  have hnodes : t.nodeKeys.countP (below na) + t.nodes.countP (LuaNode.stays na) = t.nodeKeys.length := by
    unfold LuaTable.nodeKeys
    rw [List.countP_map, List.length_map, ← List.countP_eq_length_filter, List.countP_filter]
    generalize t.nodes = ns
    induction ns with
    | nil => rfl
    | cons n ns ih =>
      rw [List.countP_cons, List.countP_cons, List.countP_cons, ← ih]
      unfold LuaNode.stays
      simp only [Function.comp_apply, ← isSome_arrayslot hna]
      cases n.val.isNil <;> cases arrayslot na n.key.tv <;> simp <;> omega
  have harray := sliceKeys_split hmax na
  unfold LuaTable.rehashKeys LuaTable.liveKeys LuaTable.outside
  simp only [Option.toList_some, List.singleton_append, List.countP_cons, List.countP_append,
    List.length_cons, List.length_append]
  omega

/-- **The sizes of `rehash`.**  The computation ends; the hash part is asked for at least as many
elements as will belong there, the new key included; and neither the new key nor a key of the table is
the one just behind the new array part. -/
theorem rehashSizes_spec (h : Inv E t) (ek : TValue) :
    ∃ na nh, rehashSizes t ek = some (na, nh) ∧
      (na ≤ MAXSIZE → (t.outside na + if arrayslot na ek = none then 1 else 0) ≤ nh) ∧
      ∀ k ∈ t.rehashKeys (some ek), isNumberEq k (na + 1) = false := by
  have hM : MAXSIZE = 2 ^ 26 := rfl
  obtain ⟨hmax, hcount⟩ := rehashCount_spec h ek
  generalize hr : rehashCount t ek = r at *
  obtain ⟨n, nh⟩ := r
  dsimp only at hmax hcount
  obtain ⟨nadj, hadj, hle, hbound, hpassed, hstop⟩ :=
    @adjustasize_spec E t h (some ek) n (by omega)
  -- the slots that `adjustasize` passed belong to keys that were counted for the hash part
  have hextra := countP_below_run (S := t.rehashKeys (some ek)) (m := n) (n := nadj - n) (by omega)
    fun i h1 h2 => hpassed i h1 (by omega)
  rw [show n + (nadj - n) = nadj from by omega] at hextra
  have hmono : ∀ m m', m ≤ m' → (t.rehashKeys (some ek)).countP (below m)
      ≤ (t.rehashKeys (some ek)).countP (below m') := fun m m' hmm =>
    List.countP_mono_left fun k _ => below_mono hmm
  unfold rehashSizes
  rw [hr]
  simp only [Option.bind_eq_bind, hadj, Option.bind_some]
  by_cases hz : nadj - n ≠ 0
  · obtain ⟨na, hrun, hle', _, _, hstop'⟩ :=
      @adjustasize_spec E t h (some ek) (nadj + (nadj - n)) (by omega)
    rw [if_pos hz, hrun]
    refine ⟨na, nh - (nadj - n), rfl, fun hna => ?_, hstop'⟩
    have h1 := outside_eq h.sizeMax hna ek
    have h2 := hmono nadj na (by omega)
    omega
  · rw [if_neg hz]
    have hn : nadj = n := by omega
    rw [hn] at hstop
    refine ⟨n, nh, rfl, fun hna => ?_, hstop⟩
    have h1 := outside_eq h.sizeMax hna ek
    omega

end Table

end Luwu
