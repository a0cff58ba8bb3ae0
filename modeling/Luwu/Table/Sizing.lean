import Luwu.Table.FiniteMap

/-!
# What `rehash` makes of the array part

The array part gets the largest power of two of which more than half is in use, up to the limit of sizes; or a
larger size, where the keys behind it are present as well.  Slots are counted in the abstract map, with the slot of
the new key.
-/

namespace Luwu

section Largest

variable {S : List TValue} {nums : List ℕ} {narray : ℕ}

/-- The number of keys up to `2 ^ i` is more than half of it. -/
def HalfFull (S : List TValue) (i : ℕ) : Prop := 2 ^ i < 2 * S.countP (below (2 ^ i))

/-- `n` is the largest of the powers with an exponent below `lg` that are more than half full. -/
structure LargestBelow (S : List TValue) (lg n : ℕ) : Prop where
  power : n = 0 ∨ ∃ i < lg, n = 2 ^ i ∧ HalfFull S i
  largest : ∀ i < lg, HalfFull S i → 2 ^ i ≤ n

/-- Keys are counted once. -/
def Sparse (S : List TValue) : Prop := ∀ m ≤ MAXSIZE, S.countP (below m) ≤ m

theorem two_pow_div_two (lg : ℕ) : 2 ^ lg / 2 = slicelow lg := by
  unfold slicelow
  by_cases h : lg = 0
  · rw [if_pos h, h]
    rfl
  · rw [if_neg h]
    obtain ⟨k, rfl⟩ := Nat.exists_eq_succ_of_ne_zero h
    rw [Nat.pow_succ, Nat.mul_div_cancel _ (by norm_num), Nat.succ_sub_one]

theorem halfFull_iff {i : ℕ} : HalfFull S i ↔ 2 ^ i / 2 < S.countP (below (2 ^ i)) := by
  unfold HalfFull
  omega

/-- A power is not half full when its keys are no more than half of it. -/
theorem not_halfFull {i m : ℕ} (hi : i ≤ MAXBITS) (hm : m ≤ slicelow i)
    (hcount : S.countP (below MAXSIZE) ≤ m) : ¬HalfFull S i := by
  rw [halfFull_iff, two_pow_div_two]
  have hpow : 2 ^ i ≤ MAXSIZE := Nat.pow_le_pow_right (by norm_num) hi
  have hmono : S.countP (below (2 ^ i)) ≤ S.countP (below MAXSIZE) :=
    List.countP_mono_left fun k _ => below_mono hpow
  omega

theorem slicelow_mono {i j : ℕ} (h : i ≤ j) : slicelow i ≤ slicelow j := by
  rw [← two_pow_div_two, ← two_pow_div_two]
  exact Nat.div_le_div_right (Nat.pow_le_pow_right (by norm_num) h)

theorem LargestBelow.step {lg n : ℕ} (h : LargestBelow S lg n) :
    LargestBelow S (lg + 1) (if 2 ^ lg / 2 < S.countP (below (2 ^ lg)) then 2 ^ lg else n) := by
  by_cases hfull : 2 ^ lg / 2 < S.countP (below (2 ^ lg))
  · rw [if_pos hfull]
    refine ⟨Or.inr ⟨lg, by omega, rfl, halfFull_iff.mpr hfull⟩, ?_⟩
    intro i hi _
    exact Nat.pow_le_pow_right (by norm_num) (by omega)
  · rw [if_neg hfull]
    constructor
    · obtain hzero | ⟨i, hi, hn, hhalf⟩ := h.power
      · exact Or.inl hzero
      · exact Or.inr ⟨i, by omega, hn, hhalf⟩
    · intro i hi hhalf
      by_cases heq : i = lg
      · rw [heq, halfFull_iff] at hhalf
        exact absurd hhalf hfull
      · exact h.largest i (by omega) hhalf

/-- Where no further power is half full, the search is over. -/
theorem LargestBelow.extend {lg n : ℕ} (h : LargestBelow S lg n)
    (hrest : ∀ i, lg ≤ i → i ≤ MAXBITS → ¬HalfFull S i) (hlg : lg ≤ MAXBITS + 1) :
    LargestBelow S (MAXBITS + 1) n := by
  constructor
  · obtain hzero | ⟨i, hi, hn, hhalf⟩ := h.power
    · exact Or.inl hzero
    · exact Or.inr ⟨i, by omega, hn, hhalf⟩
  · intro i hi hhalf
    by_cases hlt : i < lg
    · exact h.largest i hlt hhalf
    · exact absurd hhalf (hrest i (by omega) (by omega))

theorem computesizesLoop_largest (h : Tally S nums) (hsparse : Sparse S) (hnarray : narray = S.countP (below MAXSIZE))
    {lg n na : ℕ} (hlg : lg ≤ MAXBITS + 1) (hn : LargestBelow S lg n) {cs : List ℕ} (hcs : cs = nums.drop lg) :
    LargestBelow S (MAXBITS + 1)
      (computesizesLoop narray cs (2 ^ lg) (S.countP (below (slicelow lg))) na n).1 := by
  induction cs generalizing lg n na with
  | nil =>
    have hend : lg = MAXBITS + 1 := by
      have hlen := congrArg List.length hcs
      rw [List.length_drop, h.length, List.length_nil] at hlen
      omega
    rw [← hend]
    exact hn
  | cons c cs ih =>
    have hlt : lg < MAXBITS + 1 := by
      by_contra hge
      rw [List.drop_eq_nil_of_le (by rw [h.length]; omega)] at hcs
      cases hcs
    have hc : c = S.countP (keylog lg) := by
      rw [← h.count lg hlt, List.getD_eq_getElem?_getD]
      have hhead := congrArg List.head? hcs
      rw [List.head?_drop] at hhead
      rw [← hhead]
      rfl
    have htail : cs = nums.drop (lg + 1) := by
      rw [← List.tail_drop, ← hcs]
      rfl
    have hsum := countP_below_log S (show lg ≤ MAXBITS by omega)
    rw [← hc] at hsum
    have hpow : 2 ^ lg ≤ MAXSIZE := Nat.pow_le_pow_right (by norm_num) (by omega)
    have hlow := hsparse (slicelow lg) ((slicelow_le lg).trans hpow)
    unfold computesizesLoop
    dsimp only
    by_cases hgo : 2 ^ lg / 2 < narray
    · rw [if_pos hgo, hsum]
      -- an empty slice does not make its power half full
      have hmore : (0 < c ∧ 2 ^ lg / 2 < S.countP (below (2 ^ lg))) ↔ 2 ^ lg / 2 < S.countP (below (2 ^ lg)) := by
        refine and_iff_right_of_imp fun hfull => ?_
        rw [two_pow_div_two] at hfull
        omega
      rw [if_congr hmore rfl rfl]
      by_cases hall : S.countP (below (2 ^ lg)) = narray
      · rw [if_pos hall]
        apply hn.step.extend _ (by omega)
        intro i hi himax
        have hcount := hsparse (2 ^ lg) hpow
        refine not_halfFull himax ?_ (hnarray.symm.trans_le (hall.symm.trans_le hcount))
        rw [← slicelow_succ]
        exact slicelow_mono hi
      · rw [if_neg hall]
        have hnext := @ih (lg + 1) _ (if 0 < c ∧ 2 ^ lg / 2 < S.countP (below (2 ^ lg)) then
          S.countP (below (2 ^ lg)) else na) (by omega) hn.step htail
        rw [slicelow_succ, pow_succ] at hnext
        exact hnext
    · rw [if_neg hgo]
      apply hn.extend _ (by omega)
      intro i hi himax
      rw [two_pow_div_two] at hgo
      exact not_halfFull himax (slicelow_mono hi) (by omega)

/-- **`computesizes`** finds the largest power of two that is more than half full. -/
theorem computesizes_largest (h : Tally S nums) (hsparse : Sparse S) (hnarray : narray = S.countP (below MAXSIZE)) :
    LargestBelow S (MAXBITS + 1) (computesizes nums narray).1 := by
  have hzero : S.countP (below 0) = 0 := by
    refine List.countP_eq_zero.mpr fun k _ => ?_
    cases k <;> simp [below]
  have hstart : LargestBelow S 0 0 := ⟨Or.inl rfl, fun i hi => absurd hi (Nat.not_lt_zero i)⟩
  have hrun := @computesizesLoop_largest S nums narray h hsparse hnarray 0 0 0 (Nat.zero_le _) hstart _ rfl
  have hlow : slicelow 0 = 0 := rfl
  rw [hlow, hzero, pow_zero] at hrun
  exact hrun

end Largest

/-! ### Slots in use -/

section Slots

variable {E : Env} {t : LuaTable} {m : KeyMap} {ek : TValue}

/-- The key `i + 1` has a value, or is the new one. -/
def slotUsed (m : KeyMap) (ek : TValue) (i : ℕ) : Bool :=
  !(m (.number (cast_num (i + 1)))).isNil || isNumberEq ek (i + 1)

/-- The number of slots in use among the keys `1..n` -/
def usedSlots (m : KeyMap) (ek : TValue) (n : ℕ) : ℕ := (List.range n).countP (slotUsed m ek)

theorem countP_below_eq {S : List TValue} {n : ℕ} (hn : n + 1 < 2 ^ 31) :
    S.countP (below (n + 1)) = S.countP (below n) + S.countP fun k => isNumberEq k (n + 1) := by
  induction S with
  | nil => rfl
  | cons k S ih =>
    rw [List.countP_cons, List.countP_cons, List.countP_cons, ih]
    have hone : (if below (n + 1) k = true then 1 else 0)
        = (if below n k = true then 1 else 0) + if isNumberEq k (n + 1) = true then 1 else 0 := by
      by_cases hk : isNumberEq k (n + 1) = true
      · have hnot : ¬below n k = true := by
          intro hb
          obtain ⟨i, hi, he⟩ := (below_iff (by omega)).mp hb
          have := isNumberEq_inj (by omega) (by omega) hk he
          omega
        rw [if_pos hk, if_neg hnot, if_pos ((below_succ hn).mpr (Or.inr hk))]
      · rw [if_neg hk, if_congr (below_succ hn) rfl rfl, if_congr (or_iff_left hk) rfl rfl]
        rfl
    omega

theorem countP_le_one {α : Type} {R : α → α → Prop} {p : α → Bool} {l : List α} (h : l.Pairwise fun a b => ¬R a b)
    (hR : ∀ a b, p a = true → p b = true → R a b) : l.countP p ≤ 1 := by
  induction h with
  | nil => exact Nat.zero_le 1
  | @cons a l ha _ ih =>
    by_cases hp : p a = true
    · rw [List.countP_cons_of_pos hp, List.countP_eq_zero.mpr]
      intro b hb hpb
      exact ha b hb (hR a b hp hpb)
    · rw [List.countP_cons_of_neg hp]
      exact ih

/-- The keys of a table are distinct. -/
theorem Inv.liveKeys_distinct (h : Inv E t) :
    t.liveKeys.Pairwise fun a b => ¬luaO_rawequalObj a b = true := by
  have hM : MAXSIZE = 2 ^ 26 := rfl
  have hmax := h.sizeMax
  obtain ⟨hvalid, hdistinct⟩ := h.nodes_distinct
  unfold LuaTable.liveKeys
  rw [List.pairwise_append]
  refine ⟨?_, ?_, ?_⟩
  · unfold LuaTable.nodeKeys
    rw [List.pairwise_map, List.pairwise_filter]
    refine hdistinct.imp ?_
    intro a b hab ha hb
    rw [Bool.not_eq_true]
    rw [Bool.not_eq_true', TValue.isNil_eq_false_iff] at ha hb
    exact hab ha hb
  · unfold LuaTable.sliceKeys
    rw [List.pairwise_map, List.pairwise_filter]
    refine (List.pairwise_lt_range' (s := 1) (n := t.sizearray + 1 - 1)).imp_of_mem ?_
    intro i j hi hj hij _ _ heq
    rw [List.mem_range'_1] at hi hj
    have he : isNumberEq (.number (cast_num i)) j = true := heq
    have := isNumberEq_inj (by omega) (by omega) he (isNumberEq_cast_num (by omega))
    omega
  · intro a ha b hb heq
    obtain ⟨j, h1, h2, _, rfl⟩ := mem_sliceKeys.mp hb
    simp only [LuaTable.nodeKeys, List.mem_map, List.mem_filter] at ha
    obtain ⟨n, ⟨hn, hv⟩, rfl⟩ := ha
    rw [Bool.not_eq_true', TValue.isNil_eq_false_iff] at hv
    obtain ⟨i, hlt, hi⟩ := List.mem_iff_getElem.mp hn
    have hnode : t.gnode i = n := by
      show t.nodes.getD i luaH_dummynode = _
      rw [List.getD_eq_getElem?_getD, List.getElem?_eq_getElem hlt, Option.getD_some, hi]
    have hkey : t.gkey i = n.key.tv := by rw [LuaTable.gkey, hnode]
    have hnumber : isNumberEq n.key.tv j = true := by
      rw [isNumberEq_congr heq]
      exact isNumberEq_cast_num (by omega)
    have hno := h.hashOnly i (by rw [LuaTable.Keyed, hkey]; exact hvalid n hn hv)
    have hslot : arrayslot t.sizearray n.key.tv = some (j - 1) := by
      rw [arrayslot_eq_some_iff hmax]
      refine ⟨?_, by omega⟩
      rw [show ((j - 1 : ℕ) : ℤ) + 1 = j from by omega]
      exact hnumber
    rw [hkey, hslot] at hno
    cases hno

/-- An integer is among the keys that `rehash` counts where its slot is in use. -/
theorem Simulates.slotUsed_iff (hs : Simulates ⟨E, t, m⟩) (ek : TValue) {i : ℕ} (hi : i + 1 < 2 ^ 31) :
    slotUsed m ek i = true ↔ ∃ k ∈ t.rehashKeys (some ek), isNumberEq k (i + 1) = true := by
  have hself : isNumberEq (.number (cast_num (i + 1))) (i + 1) = true := isNumberEq_cast_num ⟨by omega, by omega⟩
  have hvalid := validKey_of_isNumberEq hself
  have hlive : m (.number (cast_num (i + 1))) ≠ .nil ↔ ∃ k ∈ t.liveKeys, isNumberEq k (i + 1) = true := by
    have hlookup : Luwu.lookup E t (.number (cast_num (i + 1))) = m (.number (cast_num (i + 1))) := hs.lookup _ hvalid
    have hinv : Inv E t := hs.wf.inv
    rw [← hinv.holds_int_iff hi hself, ← hlookup, Ne, hinv.lookup_eq_nil_iff hvalid, not_forall_not]
  unfold slotUsed LuaTable.rehashKeys
  rw [Bool.or_eq_true, Bool.not_eq_true', TValue.isNil_eq_false_iff, hlive]
  simp only [Option.toList_some, List.singleton_append, List.mem_cons, exists_eq_or_imp]
  exact or_comm

/-- The count of the keys is the count of the slots. -/
theorem Simulates.countP_below (hs : Simulates ⟨E, t, m⟩) (hk : ek.ValidKey) (habsent : m ek = .nil) {n : ℕ}
    (hn : n < 2 ^ 31) : (t.rehashKeys (some ek)).countP (below n) = usedSlots m ek n := by
  have hinv : Inv E t := hs.wf.inv
  have hno : ∀ w, ¬t.Holds ek w := (hinv.lookup_eq_nil_iff hk).mp ((hs.lookup ek hk).trans habsent)
  induction n with
  | zero =>
    refine List.countP_eq_zero.mpr fun k _ => ?_
    cases k <;> simp [below]
  | succ n ih =>
    rw [countP_below_eq hn, ih (by omega)]
    unfold usedSlots
    rw [List.range_succ, List.countP_append, List.countP_singleton]
    congr 1
    -- one of the keys at most is the integer
    have hlive : t.liveKeys.countP (fun k => isNumberEq k (n + 1)) ≤ 1 :=
      countP_le_one hinv.liveKeys_distinct fun a b ha hb => rawequal_of_isNumberEq ha hb
    have hkeys : (t.rehashKeys (some ek)).countP (fun k => isNumberEq k (n + 1)) ≤ 1 := by
      unfold LuaTable.rehashKeys
      rw [Option.toList_some, List.singleton_append, List.countP_cons]
      by_cases hek : isNumberEq ek (n + 1) = true
      · rw [if_pos hek, List.countP_eq_zero.mpr]
        intro k hmem he
        obtain ⟨w, hw⟩ := (hinv.holds_int_iff hn hek).mpr ⟨k, hmem, he⟩
        exact hno w hw
      · rw [if_neg hek]
        exact hlive
    have hused := hs.slotUsed_iff ek hn
    by_cases hslot : slotUsed m ek n = true
    · rw [if_pos hslot]
      have hpos := List.countP_pos_iff.mpr (hused.mp hslot)
      omega
    · rw [if_neg hslot, List.countP_eq_zero]
      intro k hmem he
      exact hslot (hused.mpr ⟨k, hmem, he⟩)

theorem usedSlots_le (m : KeyMap) (ek : TValue) (n : ℕ) : usedSlots m ek n ≤ n := by
  have hle := List.countP_le_length (p := slotUsed m ek) (l := List.range n)
  rwa [List.length_range] at hle

end Slots

/-! ### The size chosen -/

section Chosen

variable {E : Env} {t : LuaTable} {m : KeyMap} {ek : TValue}

/-- More than half of the slots `1..n` are in use. -/
def MoreThanHalf (m : KeyMap) (ek : TValue) (n : ℕ) : Prop := n < 2 * usedSlots m ek n

/-- `n` is the largest power of two, up to the limit of sizes, of which more than half is in use; or zero, where
there is none. -/
structure LargestPower (m : KeyMap) (ek : TValue) (n : ℕ) : Prop where
  power : n = 0 ∨ ∃ i ≤ MAXBITS, n = 2 ^ i ∧ MoreThanHalf m ek n
  largest : ∀ i ≤ MAXBITS, MoreThanHalf m ek (2 ^ i) → 2 ^ i ≤ n

/-- From the key `n + 1` on, the slots up to `b` are in use, and the next is not. -/
structure Border (m : KeyMap) (ek : TValue) (n b : ℕ) : Prop where
  le : n ≤ b
  used : ∀ i, n ≤ i → i < b → slotUsed m ek i = true
  unused : slotUsed m ek b = false

/-- The size that `n` is adjusted to.  If its border `b` is beyond it, as much again is added, and the border taken
from there. -/
def Adjusted (m : KeyMap) (ek : TValue) (n na : ℕ) : Prop :=
  ∃ b, Border m ek n b ∧ if b = n then na = n else Border m ek (b + (b - n)) na

/-- The array part gets the largest power of two that the keys fill by more than half. -/
theorem rehashCount_largest (h : Inv E t) (hsparse : Sparse (t.rehashKeys (some ek))) :
    LargestBelow (t.rehashKeys (some ek)) (MAXBITS + 1) (rehashCount t ek).1 := by
  have hM : MAXSIZE = 2 ^ 26 := rfl
  have hmax := h.sizeMax
  obtain ⟨htally₁, hause⟩ := numusearray_spec hmax
  obtain ⟨htally₂, huse⟩ := numusehashLoop_spec htally₁ t.nodes.reverse 0 0
  obtain ⟨huse, _⟩ := Prod.mk.inj huse
  have hperm : ((t.nodes.reverse.filter fun n => !n.val.isNil).map fun n => n.key.tv).Perm
      t.nodeKeys := ((List.reverse_perm t.nodes).filter _).map _
  obtain ⟨htally₃, hextra⟩ := (htally₂.perm (hperm.append_right _)).countkey ek
  rw [hperm.countP_eq] at huse
  -- every key of the array part is counted
  have hslice : (t.sliceKeys 1 t.sizearray).countP (below MAXSIZE) = (t.sliceKeys 1 t.sizearray).length := by
    refine List.countP_eq_length.mpr fun k hk => ?_
    obtain ⟨j, h1, h2, _, rfl⟩ := mem_sliceKeys.mp hk
    exact (below_cast_num (by omega) (by omega)).mpr (by omega)
  have hnarray : (numusearray t (List.replicate (MAXBITS + 1) 0)).2
      + (numusehash t (numusearray t (List.replicate (MAXBITS + 1) 0)).1).2.1
      + (countkey ek (numusehash t (numusearray t (List.replicate (MAXBITS + 1) 0)).1).1).2
      = (t.rehashKeys (some ek)).countP (below MAXSIZE) := by
    unfold numusehash
    rw [hause, huse, hextra]
    show _ = (ek :: (t.nodeKeys ++ t.sliceKeys 1 t.sizearray)).countP (below MAXSIZE)
    rw [List.countP_cons, List.countP_append, hslice]
    omega
  exact computesizes_largest htally₃ hsparse hnarray

theorem Simulates.largestPower (hs : Simulates ⟨E, t, m⟩) (hk : ek.ValidKey) (habsent : m ek = .nil) :
    LargestPower m ek (rehashCount t ek).1 := by
  have hM : MAXSIZE = 2 ^ 26 := rfl
  have hcount : ∀ n ≤ MAXSIZE, (t.rehashKeys (some ek)).countP (below n) = usedSlots m ek n := fun n hn =>
    hs.countP_below hk habsent (by omega)
  have hsparse : Sparse (t.rehashKeys (some ek)) := fun n hn => (hcount n hn).trans_le (usedSlots_le m ek n)
  have hinv : Inv E t := hs.wf.inv
  have hlargest := rehashCount_largest hinv hsparse
  have hhalf : ∀ i ≤ MAXBITS, (HalfFull (t.rehashKeys (some ek)) i ↔ MoreThanHalf m ek (2 ^ i)) := by
    intro i hi
    have hpow : 2 ^ i ≤ MAXSIZE := Nat.pow_le_pow_right (by norm_num) hi
    unfold HalfFull MoreThanHalf
    rw [hcount _ hpow]
  constructor
  · obtain hzero | ⟨i, hi, hn, hfull⟩ := hlargest.power
    · exact Or.inl hzero
    · refine Or.inr ⟨i, by omega, hn, ?_⟩
      rw [hn]
      exact (hhalf i (by omega)).mp hfull
  · intro i hi hmore
    exact hlargest.largest i (by omega) ((hhalf i hi).mpr hmore)

theorem Simulates.border (hs : Simulates ⟨E, t, m⟩) (ek : TValue) {n : ℕ} (hn : n < 2 ^ 30) :
    ∃ b, adjustasize t n (some ek) = some b ∧ b ≤ n + 2 ^ 28 ∧ Border m ek n b := by
  have hinv : Inv E t := hs.wf.inv
  obtain ⟨b, hrun, hle, hbound, hpassed, hstop⟩ := adjustasize_spec hinv (some ek) hn
  refine ⟨b, hrun, hbound, hle, ?_, ?_⟩
  · intro i h1 h2
    exact (hs.slotUsed_iff ek (by omega)).mpr (hpassed i h1 h2)
  · rw [← Bool.not_eq_true, hs.slotUsed_iff ek (by omega)]
    rintro ⟨k, hmem, he⟩
    rw [hstop k hmem] at he
    cases he

theorem Simulates.adjusted (hs : Simulates ⟨E, t, m⟩) {na nh : ℕ} (hsizes : rehashSizes t ek = some (na, nh)) :
    Adjusted m ek (rehashCount t ek).1 na := by
  have hM : MAXSIZE = 2 ^ 26 := rfl
  have hinv : Inv E t := hs.wf.inv
  have hmax := (rehashCount_spec hinv ek).1
  obtain ⟨b, hrun, hbound, hborder⟩ := hs.border ek (show (rehashCount t ek).1 < 2 ^ 30 by omega)
  have hle := hborder.le
  refine ⟨b, hborder, ?_⟩
  unfold rehashSizes at hsizes
  simp only [Option.bind_eq_bind, hrun, Option.bind_some] at hsizes
  by_cases heq : b = (rehashCount t ek).1
  · rw [if_neg (by omega)] at hsizes
    rw [if_pos heq]
    exact (Prod.mk.inj (Option.some.inj hsizes)).1.symm
  · obtain ⟨b', hrun', _, hborder'⟩ :=
      hs.border ek (show b + (b - (rehashCount t ek).1) < 2 ^ 30 by omega)
    rw [if_pos (by omega), hrun'] at hsizes
    rw [if_neg heq, ← (Prod.mk.inj (Option.some.inj hsizes)).1]
    exact hborder'

/-- **The sizes of `rehash`.**  After any run from `luaH_new`, for any key without an entry: the array part gets the
largest power of two that is more than half in use, or its border; the hash part is asked for the entries that will
live there, the new key among them; and neither moving the entries nor inserting the key calls `grow`, whatever it
does.  Where a size is beyond the limit, the table stays as it was. -/
theorem rehash_sizes (ha : E.Roomy) {narray nhash : ℕ} {t₀ : LuaTable}
    (hnew : luaH_new E narray nhash t₀ = .ok ⟨⟩ t) (ops : List TableOp)
    (hc : TableOp.Contracts ⟨E, t, fun _ => .nil⟩ ops) :
    let w := TableOp.run ⟨E, t, fun _ => .nil⟩ ops
    ∀ ek : TValue, ek.ValidKey → w.map ek = .nil →
      ∃ n na nh, rehashSizes w.table ek = some (na, nh) ∧
        LargestPower w.map ek n ∧ Adjusted w.map ek n na ∧
        (na ≤ MAXSIZE → w.table.outside na + (if arrayslot na ek = none then 1 else 0) ≤ nh) ∧
        ∀ grow : Inserter,
          (∃ t₁ s t₂, rehash w.env (newkeyOr w.env grow) ek w.table = .ok ⟨⟩ t₁ ∧ t₁.sizearray = na ∧
            arrayornewkey (newkeyOr w.env grow) ek t₁ = .ok s t₂) ∨
          ((MAXSIZE < na ∨ MAXSIZE < nh) ∧
            rehash w.env (newkeyOr w.env grow) ek w.table = .error (.runerror "table overflow") w.table) := by
  intro w ek hk habsent
  obtain ⟨hs, ha'⟩ : Simulates w ∧ w.env.Roomy := run_simulates ha ops hc (luaH_new_simulates ha hnew)
  have hinv : Inv w.env w.table := hs.wf.inv
  have hno : ∀ v, ¬w.table.Holds ek v := (hinv.lookup_eq_nil_iff hk).mp ((hs.lookup ek hk).trans habsent)
  obtain ⟨na, nh, hsizes, houtside, _⟩ := rehashSizes_spec hinv ek
  refine ⟨(rehashCount w.table ek).1, na, nh, hsizes, hs.largestPower hk habsent, hs.adjusted hsizes, houtside, ?_⟩
  intro grow
  have hcall : Inserts w.env (newkeyOr w.env grow) := inserts_newkeyOr w.env grow
  by_cases hmax : MAXSIZE < na ∨ MAXSIZE < nh
  · exact Or.inr ⟨hmax, (rehash_run hsizes).trans (resize_overflow _ hmax)⟩
  · left
    rw [not_or, not_lt, not_lt] at hmax
    obtain ⟨t₁, hrun, hrehashed, hsize⟩ :=
      (rehash_outcomes hs.wf hcall hsizes hmax.1 hmax.2).resolve_right fun ⟨_, _, hshort⟩ => hshort.not_roomy ha'
    obtain ⟨s, t₂, hrun', _⟩ := arrayornewkey_rehashed hrehashed hk hno hcall
    exact ⟨t₁, s, t₂, hrun, hsize, hrun'⟩

theorem rehash_sizes_sample :
    let w := TableOp.run ⟨plainEnv, emptyTable, fun _ => .nil⟩ sampleOps
    ∃ n na nh, rehashSizes w.table (.number (cast_num 2)) = some (na, nh) ∧
      LargestPower w.map (.number (cast_num 2)) n ∧ Adjusted w.map (.number (cast_num 2)) n na := by
  intro w
  have hnew : luaH_new plainEnv 0 0 emptyTable = .ok ⟨⟩ emptyTable := rfl
  have hvalid : (TValue.number (cast_num 2)).ValidKey := by decide +kernel
  have habsent : w.map (.number (cast_num 2)) = .nil := by decide +kernel
  obtain ⟨n, na, nh, hsizes, hpower, hadjusted, _⟩ :=
    rehash_sizes (fun _ _ => rfl) hnew sampleOps sampleOps_contracts _ hvalid habsent
  exact ⟨n, na, nh, hsizes, hpower, hadjusted⟩

end Chosen

/-! ### A full array part of the greatest size -/

section Full

variable {E : Env} {t : LuaTable} {m : KeyMap} {ek : TValue}

/-- `t[1], .., t[n]` are set. -/
def fillOps (n : ℕ) : List TableOp := (List.range n).map fun i : ℕ => .setnum (i + 1) (.boolean true)

/-- An array part of the greatest size, all nil. -/
def widestTable : LuaTable :=
  { emptyTable with array := List.replicate MAXSIZE .nil, sizearray := MAXSIZE }

theorem luaH_new_array (ha : E.Roomy) {n : ℕ} (h0 : 0 < n) (hn : n ≤ MAXSIZE) :
    luaH_new E n 0 t = .ok ⟨⟩ { emptyTable with array := List.replicate n .nil, sizearray := n } := by
  unfold luaH_new
  rw [TableM.set_bind, if_pos h0, TableM.bind_ok _ (setarrayvector_run ha hn)]
  rfl

theorem fillOps_succ (n : ℕ) : fillOps (n + 1) = fillOps n ++ [.setnum (n + 1) (.boolean true)] := by
  unfold fillOps
  rw [List.range_succ, List.map_append]
  rfl

theorem contracts_of_forall {ops : List TableOp} (h : ∀ op ∈ ops, ∀ E t, op.Contract E t) (w : World) :
    TableOp.Contracts w ops := by
  induction ops generalizing w with
  | nil => exact trivial
  | cons op ops ih =>
    refine ⟨h op List.mem_cons_self _ _, ?_⟩
    apply ih
    intro op' hmem
    exact h op' (List.mem_cons_of_mem _ hmem)

theorem fillOps_contracts {n : ℕ} (hn : n < 2 ^ 31) (w : World) : TableOp.Contracts w (fillOps n) := by
  apply contracts_of_forall
  intro op hmem E t
  obtain ⟨i, hi, rfl⟩ := List.mem_map.mp hmem
  rw [List.mem_range] at hi
  show -2 ^ 31 ≤ (i : ℤ) + 1 ∧ (i : ℤ) + 1 < 2 ^ 31
  omega

/-- Setting the slots of the array part one after the other. -/
theorem run_fillOps {w : World} (hmax : w.table.sizearray ≤ MAXSIZE) {n : ℕ} (hn : n ≤ w.table.sizearray) :
    (TableOp.run w (fillOps n)).table.sizearray = w.table.sizearray ∧
      ∀ k, (TableOp.run w (fillOps n)).map k = if below n k = true then .boolean true else w.map k := by
  have hM : MAXSIZE = 2 ^ 26 := rfl
  induction n with
  | zero =>
    refine ⟨rfl, fun k => ?_⟩
    rw [if_neg (by cases k <;> simp [below])]
    rfl
  | succ n ih =>
    obtain ⟨hsize, hmap⟩ := ih (by omega)
    have hstep : TableOp.run w (fillOps (n + 1))
        = TableOp.step (TableOp.run w (fillOps n)) (.setnum (n + 1) (.boolean true)) := by
      unfold TableOp.run
      rw [fillOps_succ, List.foldl_append]
      rfl
    set w' := TableOp.run w (fillOps n) with hw'
    have hslot : cast_unsigned ((n : ℤ) + 1 - 1) < w'.table.sizearray := by
      unfold cast_unsigned
      omega
    have hexec : (TableOp.setnum (n + 1) (.boolean true)).exec w'.env w'.table
        = .ok ⟨⟩ (w'.table.slotSet (.boolean true) (.array ((n : ℤ) + 1 - 1).toNat)) := by
      show storeThrough (luaH_setnum w'.env (n + 1)) _ _ = _
      unfold storeThrough luaH_setnum
      rw [bind_assoc, TableM.get_bind, if_pos hslot]
      rfl
    rw [hstep]
    unfold TableOp.step
    rw [hexec]
    refine ⟨hsize, fun k => ?_⟩
    show (if luaO_rawequalObj (.number (cast_num (n + 1))) k = true then _ else w'.map k) = _
    rw [hmap k, if_congr (rawequal_slotkey (by omega)) rfl rfl]
    by_cases hk : isNumberEq k (n + 1) = true
    · rw [if_pos hk, if_pos ((below_succ (by omega)).mpr (Or.inr hk))]
    · rw [if_neg hk, if_congr (below_succ (by omega)) rfl rfl, if_congr (or_iff_left hk) rfl rfl]

theorem usedSlots_succ (m : KeyMap) (ek : TValue) (n : ℕ) :
    usedSlots m ek (n + 1) = usedSlots m ek n + if slotUsed m ek n = true then 1 else 0 := by
  unfold usedSlots
  rw [List.range_succ, List.countP_append, List.countP_singleton]

theorem usedSlots_mono {n n' : ℕ} (h : n ≤ n') : usedSlots m ek n ≤ usedSlots m ek n' := by
  obtain ⟨d, rfl⟩ := Nat.exists_eq_add_of_le h
  induction d with
  | zero => exact le_rfl
  | succ d ih =>
    have hstep := usedSlots_succ m ek (n + d)
    have := ih (by omega)
    rw [← Nat.add_assoc]
    omega

theorem usedSlots_full {n : ℕ} (h : ∀ i < n, slotUsed m ek i = true) : usedSlots m ek n = n := by
  unfold usedSlots
  rw [List.countP_eq_length.mpr fun i hi => h i (List.mem_range.mp hi), List.length_range]

/-- The search stops at the limit of sizes: with an array part that is full and the key two behind it, more than half
of the next power would be in use. -/
theorem rehash_size_limited :
    luaH_new plainEnv MAXSIZE 0 emptyTable = .ok ⟨⟩ widestTable ∧
    TableOp.Contracts ⟨plainEnv, widestTable, fun _ => .nil⟩ (fillOps MAXSIZE) ∧
    let w := TableOp.run ⟨plainEnv, widestTable, fun _ => .nil⟩ (fillOps MAXSIZE)
    let ek : TValue := .number (cast_num (MAXSIZE + 2))
    ek.ValidKey ∧ w.map ek = .nil ∧
      ∃ na nh, rehashSizes w.table ek = some (na, nh) ∧
        ¬∃ n, (∀ i, MoreThanHalf w.map ek (2 ^ i) → 2 ^ i ≤ n) ∧ Adjusted w.map ek n na := by
  -- a number of this size is not to be evaluated
  obtain ⟨N, hN⟩ : ∃ N, N = MAXSIZE := ⟨_, rfl⟩
  have hM : N = 2 ^ 26 := hN
  rw [← hN]
  have ha : plainEnv.Roomy := fun _ _ => rfl
  have hnew : luaH_new plainEnv N 0 emptyTable = .ok ⟨⟩ widestTable := by
    rw [luaH_new_array ha (by omega) hN.le, hN]
    rfl
  have hlt : N < 2 ^ 31 := by omega
  have hc : TableOp.Contracts ⟨plainEnv, widestTable, fun _ => .nil⟩ (fillOps N) := fillOps_contracts hlt _
  refine ⟨hnew, hc, ?_⟩
  intro w ek
  have hs : Simulates w := (run_simulates ha _ hc (luaH_new_simulates ha hnew)).1
  have hmap : ∀ k, w.map k = if below N k = true then .boolean true else .nil :=
    (run_fillOps (w := ⟨plainEnv, widestTable, fun _ => .nil⟩) le_rfl hN.le).2
  clear_value w
  have hek : isNumberEq ek (N + 2) = true := isNumberEq_cast_num (by omega)
  have hvalid : ek.ValidKey := validKey_of_isNumberEq hek
  have hbeyond : ∀ (k : TValue) (i : ℕ), N < i → i < 2 ^ 31 → isNumberEq k i = true → w.map k = .nil := by
    intro k i h1 h2 he
    rw [hmap k, if_neg]
    intro hb
    obtain ⟨j, hj, he'⟩ := (below_iff (by omega)).mp hb
    have := isNumberEq_inj (by omega) (by omega) he he'
    omega
  have habsent : w.map ek = .nil := hbeyond ek (N + 2) (by omega) (by omega) hek
  -- the slots in use: the whole array part, and the one of the key
  have hfull : ∀ i < N, slotUsed w.map ek i = true := by
    intro i hi
    have hself : isNumberEq (.number (cast_num (i + 1))) (i + 1) = true := isNumberEq_cast_num (by omega)
    unfold slotUsed
    rw [hmap, if_pos ((below_iff (by omega)).mpr ⟨i, hi, hself⟩)]
    rfl
  have hgap : slotUsed w.map ek N = false := by
    have hself : isNumberEq (.number (cast_num (N + 1))) (N + 1) = true := isNumberEq_cast_num (by omega)
    have hnot : isNumberEq ek (N + 1) = false := by
      rw [← Bool.not_eq_true]
      intro he
      have := isNumberEq_inj (by omega) (by omega) hek he
      omega
    unfold slotUsed
    rw [hbeyond _ (N + 1) (by omega) (by omega) hself, hnot]
    rfl
  have hlast : slotUsed w.map ek (N + 1) = true := by
    unfold slotUsed
    rw [show ((N + 1 : ℕ) : ℤ) + 1 = N + 2 from by omega, hek, Bool.or_true]
  have hcount : usedSlots w.map ek (N + 2) = N + 1 := by
    rw [usedSlots_succ, usedSlots_succ, usedSlots_full hfull, hgap, hlast]
    rfl
  obtain ⟨na, nh, hsizes, _⟩ := rehashSizes_spec hs.wf.inv ek
  refine ⟨hvalid, habsent, na, nh, hsizes, ?_⟩
  -- the size chosen is that of the array part
  have hpower := hs.largestPower hvalid habsent
  have hn : (rehashCount w.table ek).1 = N := by
    have hhalf : MoreThanHalf w.map ek (2 ^ MAXBITS) := by
      show MAXSIZE < 2 * usedSlots w.map ek MAXSIZE
      rw [← hN, usedSlots_full hfull]
      omega
    have hle : 2 ^ MAXBITS ≤ (rehashCount w.table ek).1 := hpower.largest MAXBITS le_rfl hhalf
    have hge := (rehashCount_spec hs.wf.inv ek).1
    rw [hN]
    exact le_antisymm hge hle
  have hna : na = N := by
    obtain ⟨b, hborder, hadjusted⟩ := hs.adjusted hsizes
    have hb : b = (rehashCount w.table ek).1 := by
      by_contra hne
      have hlt : (rehashCount w.table ek).1 < b := lt_of_le_of_ne hborder.le (Ne.symm hne)
      have hused := hborder.used (rehashCount w.table ek).1 le_rfl hlt
      rw [hn, hgap] at hused
      cases hused
    rw [if_pos hb] at hadjusted
    exact hadjusted.trans hn
  -- but the next power of two would be more than half in use as well
  rintro ⟨n, hlargest, b, hborder, hadjusted⟩
  have hnext : MoreThanHalf w.map ek (2 ^ 27) := by
    have hmono : usedSlots w.map ek (N + 2) ≤ usedSlots w.map ek (2 ^ 27) := usedSlots_mono (by omega)
    unfold MoreThanHalf
    omega
  have hge := hlargest 27 hnext
  have hle := hborder.le
  by_cases hb : b = n
  · rw [if_pos hb] at hadjusted
    omega
  · rw [if_neg hb] at hadjusted
    have := hadjusted.le
    omega

end Full

end Luwu
