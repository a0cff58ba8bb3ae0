import Mathlib.Data.List.Range
import Mathlib.Algebra.Order.Ring.Nat
import Luwu.Lib.OpenAddressing

/-!
# Bit sets

The `BitSet` of `DenseHashTable2`: words of 64 bits, and an iterator that takes the lowest bit out of the
current word.  Reading past the words is a fault (`none`).  The iterator gives the members in ascending order
(`indices_eq`).
-/

namespace Luwu.DenseHash2

def numElements : ℕ := 64
def numElementsLog2 : ℕ := 6

structure BitSet where
  capacity : ℕ
  data : List (BitVec 64)

namespace BitSet

/-- `BitSet(capacity)` -/
def make (capacity : ℕ) : BitSet :=
  if capacity = 0 then ⟨0, []⟩
  else ⟨capacity, List.replicate (if capacity < numElements then 1 else capacity >>> numElementsLog2) 0⟩

def contains (s : BitSet) (bucket : ℕ) : Option Bool :=
  (s.data[bucket >>> numElementsLog2]?).map fun (word : BitVec 64) =>
    ((word >>> (bucket &&& (numElements - 1))) &&& 1) == 1

def clear (s : BitSet) : BitSet := { s with data := s.data.map fun _ => 0 }

def set (s : BitSet) (bucket : ℕ) (v : Bool) : Option BitSet :=
  (s.data[bucket >>> numElementsLog2]?).map fun word =>
    let bit := (1 : BitVec 64) <<< (bucket &&& (numElements - 1))
    { s with data := s.data.set (bucket >>> numElementsLog2) (if v then word ||| bit else word &&& ~~~bit) }

/-- `BitSet::iterator`, with the words after the current one. -/
structure Iterator where
  wordIdx : ℕ
  word : BitVec 64
  rest : List (BitVec 64)

/-- Skip all words that are 0's. -/
def skip (wordIdx : ℕ) : List (BitVec 64) → Iterator
  | [] => ⟨wordIdx, 0, []⟩
  | word :: rest => if word = 0 then skip (wordIdx + 1) rest else ⟨wordIdx, word, rest⟩

def begin (s : BitSet) : Iterator := skip 0 s.data

/-- `operator*` -/
def Iterator.currentBucket (it : Iterator) : ℕ := it.wordIdx * numElements + it.word.ctz.toNat

/-- `operator++` -/
def Iterator.next (it : Iterator) : Iterator :=
  let word := it.word &&& (it.word - 1)
  if word = 0 then skip (it.wordIdx + 1) it.rest else { it with word := word }

/-- What a loop over the set sees; only the end has an empty word. -/
def Iterator.collect : ℕ → Iterator → List ℕ
  | 0, _ => []
  | fuel + 1, it => if it.word = 0 then [] else it.currentBucket :: collect fuel it.next

/-- The members, as `for (size_t bucket : usedTable)` gives them. -/
def indices (s : BitSet) : List ℕ := s.begin.collect (numElements * s.data.length)

/-! ### Members -/

/-- The bucket is in the set. -/
def has (s : BitSet) (bucket : ℕ) : Bool := (s.data[bucket / 64]?.getD 0).getLsbD (bucket % 64)

/-- The words of the set have a bit for every bucket of a table with that capacity. -/
def Covers (s : BitSet) (capacity : ℕ) : Prop := ∀ bucket < capacity, bucket / 64 < s.data.length

variable {s : BitSet} {bucket i j : ℕ} {v : Bool} {capacity : ℕ}

theorem word_index (bucket : ℕ) : bucket >>> numElementsLog2 = bucket / 64 := Nat.shiftRight_eq_div_pow bucket 6

theorem bit_index (bucket : ℕ) : bucket &&& (numElements - 1) = bucket % 64 :=
  Nat.and_two_pow_sub_one_eq_mod bucket 6

theorem contains_eq (h : s.Covers capacity) (hb : bucket < capacity) :
    s.contains bucket = some (s.has bucket) := by
  have hlt := h bucket hb
  unfold contains has
  rw [word_index, bit_index, List.getElem?_eq_getElem hlt, Option.map_some, Option.getD_some]
  congr 1
  rw [Bool.eq_iff_iff, beq_iff_eq]
  constructor
  · intro hone
    have hbit := congrArg (BitVec.getLsbD · 0) hone
    simpa using hbit
  · intro hbit
    apply BitVec.eq_of_getLsbD_eq
    intro k hk
    by_cases hzero : k = 0
    · subst hzero
      simpa using hbit
    · simp [hzero]

theorem set_some (h : s.Covers capacity) (hb : bucket < capacity) (v : Bool) :
    ∃ s', s.set bucket v = some s' ∧ s'.Covers capacity ∧
      ∀ b, s'.has b = if b = bucket then v else s.has b := by
  have hlt := h bucket hb
  unfold set
  rw [word_index, bit_index, List.getElem?_eq_getElem hlt, Option.map_some]
  refine ⟨_, rfl, fun b hb' => ?_, fun b => ?_⟩
  · show b / 64 < (s.data.set _ _).length
    rw [List.length_set]
    exact h b hb'
  · have hm : b % 64 < 64 := Nat.mod_lt _ (by omega)
    have hbit : b / 64 = bucket / 64 → (b % 64 = bucket % 64 ↔ b = bucket) := fun hw => by omega
    unfold has
    by_cases hw : b / 64 = bucket / 64
    · rw [hw, List.getElem?_set_self hlt, List.getElem?_eq_getElem hlt, Option.getD_some, Option.getD_some]
      by_cases he : b = bucket
      · subst he
        rw [if_pos rfl]
        cases v <;> simp [hm]
      · have hne : b % 64 ≠ bucket % 64 := fun hc => he ((hbit hw).mp hc)
        rw [if_neg he]
        cases v <;> simp [hm] <;> omega
    · have hne : b ≠ bucket := fun he => hw (by rw [he])
      rw [if_neg hne, List.getElem?_set_ne (Ne.symm hw)]

theorem has_of_zero (h : ∀ word ∈ s.data, word = 0) (bucket : ℕ) : s.has bucket = false := by
  unfold has
  cases hw : s.data[bucket / 64]? with
  | none => simp
  | some word =>
    rw [h word (List.mem_of_getElem? hw)]
    simp

theorem has_make (capacity bucket : ℕ) : (make capacity).has bucket = false := by
  apply has_of_zero
  unfold make
  split
  · intro word hw
    cases hw
  · intro word hw
    exact List.eq_of_mem_replicate hw

theorem has_clear (s : BitSet) (bucket : ℕ) : s.clear.has bucket = false := by
  apply has_of_zero
  intro word hw
  obtain ⟨_, _, rfl⟩ := List.mem_map.mp hw
  rfl

theorem covers_clear (h : s.Covers capacity) : s.clear.Covers capacity := by
  intro bucket hb
  show bucket / 64 < (s.data.map _).length
  rw [List.length_map]
  exact h bucket hb

/-- The words of a set for a power of two of buckets. -/
theorem covers_make (e : ℕ) : (make (2 ^ e)).Covers (2 ^ e) := by
  intro bucket hb
  unfold make
  rw [if_neg (Nat.two_pow_pos e).ne']
  show bucket / 64 < (List.replicate _ _).length
  rw [List.length_replicate, word_index]
  split
  · next hsmall =>
    have : bucket < 64 := lt_trans hb hsmall
    omega
  · next hlarge =>
    have hge : 64 ≤ 2 ^ e := Nat.le_of_not_lt hlarge
    have he : 6 ≤ e := by
      by_contra hlt
      have : 2 ^ e < 2 ^ 6 := Nat.pow_lt_pow_right (by omega) (by omega)
      omega
    have hmul : 2 ^ e = 2 ^ (e - 6) * 64 := by
      rw [show (64 : ℕ) = 2 ^ 6 by rfl, ← Nat.pow_add]
      congr 1
      omega
    omega

/-! ### Iteration -/

/-- The bits of a word. -/
def bits (word : BitVec 64) : List ℕ := (List.range 64).filter word.getLsbD

/-- The members in some words, from the index of the first. -/
def members (wordIdx : ℕ) : List (BitVec 64) → List ℕ
  | [] => []
  | word :: rest => (bits word).map (wordIdx * 64 + ·) ++ members (wordIdx + 1) rest

/-- Taking one off clears the lowest bit and sets those below. -/
theorem getLsbD_and_pred {word : BitVec 64} (h : word ≠ 0) (j : ℕ) :
    (word &&& (word - 1)).getLsbD j = (word.getLsbD j && decide (j ≠ word.ctz.toNat)) := by
  obtain ⟨n, hn⟩ : ∃ n, n = word.ctz.toNat := ⟨_, rfl⟩
  have hlow : ∀ i < n, word.toNat.testBit i = false := fun i hi =>
    BitVec.getLsbD_false_of_lt_ctz (hn ▸ hi)
  have htrue : word.toNat.testBit n = true := hn ▸ BitVec.getLsbD_true_ctz_of_ne_zero h
  have hmod : word.toNat % 2 ^ (n + 1) = 2 ^ n := by
    apply Nat.eq_of_testBit_eq
    intro i
    rw [Nat.testBit_mod_two_pow, Nat.testBit_two_pow]
    rcases Nat.lt_trichotomy i n with hi | hi | hi
    · rw [hlow i hi, Bool.and_false]
      exact (decide_eq_false (by omega)).symm
    · rw [hi, htrue, Bool.and_true]
      exact (decide_eq_true (by omega)).trans (decide_eq_true rfl).symm
    · rw [decide_eq_false (by omega), Bool.false_and]
      exact (decide_eq_false (by omega)).symm
  have hdiv := Nat.div_add_mod word.toNat (2 ^ (n + 1))
  rw [hmod] at hdiv
  have hpos : 0 < 2 ^ n := Nat.two_pow_pos n
  have hlt : 2 ^ n < 2 ^ (n + 1) := Nat.pow_lt_pow_right (by omega) (by omega)
  have hpred : (word - 1).toNat = 2 ^ (n + 1) * (word.toNat / 2 ^ (n + 1)) + (2 ^ n - 1) := by
    rw [BitVec.toNat_sub_of_le]
    · show word.toNat - 1 = _
      omega
    · show 1 ≤ word.toNat
      omega
  show (word &&& (word - 1)).toNat.testBit j = (word.toNat.testBit j && _)
  rw [BitVec.toNat_and, Nat.testBit_and, hpred, Nat.testBit_two_pow_mul_add _ (by omega), ← hn]
  by_cases hj : j < n + 1
  · rw [if_pos hj, Nat.testBit_two_pow_sub_one]
    by_cases he : j = n
    · rw [he]
      simp
    · rw [hlow j (by omega)]
      simp
  · rw [if_neg hj]
    have hword : word.toNat.testBit j = (word.toNat / 2 ^ (n + 1)).testBit (j - (n + 1)) := by
      conv_lhs => rw [← hdiv, Nat.testBit_two_pow_mul_add _ hlt, if_neg hj]
    rw [hword, Bool.and_self, decide_eq_true (by omega), Bool.and_true]

theorem bits_zero : bits 0 = [] := by
  unfold bits
  simp

/-- The lowest bit, and the bits without it. -/
theorem bits_eq {word : BitVec 64} (h : word ≠ 0) :
    bits word = word.ctz.toNat :: bits (word &&& (word - 1)) := by
  obtain ⟨n, hn⟩ : ∃ n, n = word.ctz.toNat := ⟨_, rfl⟩
  have hlt : n < 64 := by
    have hctz := BitVec.ctz_lt_iff_ne_zero.mpr h
    rw [hn]
    exact hctz
  have htrue : word.getLsbD n = true := hn ▸ BitVec.getLsbD_true_ctz_of_ne_zero h
  have hpred : ∀ j, (word &&& (word - 1)).getLsbD j = (word.getLsbD j && decide (j ≠ n)) := by
    intro j
    rw [hn]
    exact getLsbD_and_pred h j
  unfold bits
  rw [← hn, OpenAddressing.range_split hlt, List.filter_append, List.filter_append, List.filter_cons_of_pos htrue,
    List.filter_cons_of_neg (by rw [hpred]; simp)]
  have hbelow : ∀ w : BitVec 64, (∀ i < n, w.getLsbD i = false) → (List.range n).filter w.getLsbD = [] := by
    intro w hw
    apply List.filter_eq_nil_iff.mpr
    intro i hi
    rw [hw i (List.mem_range.mp hi)]
    exact Bool.false_ne_true
  rw [hbelow word fun i hi => BitVec.getLsbD_false_of_lt_ctz (hn ▸ hi), hbelow (word &&& (word - 1)) fun i hi => ?_,
    List.nil_append, List.nil_append]
  · congr 1
    apply List.filter_congr
    intro j hj
    obtain ⟨i, _, rfl⟩ := List.mem_map.mp hj
    rw [hpred, decide_eq_true (by omega), Bool.and_true]
  · rw [hpred, BitVec.getLsbD_false_of_lt_ctz (hn ▸ hi), Bool.false_and]

/-- What an iterator still has to give. -/
def Iterator.remaining (it : Iterator) : List ℕ :=
  (bits it.word).map (it.wordIdx * 64 + ·) ++ members (it.wordIdx + 1) it.rest

theorem skip_remaining (wordIdx : ℕ) (words : List (BitVec 64)) :
    (skip wordIdx words).remaining = members wordIdx words ∧
      ((skip wordIdx words).word = 0 → (skip wordIdx words).rest = []) := by
  induction words generalizing wordIdx with
  | nil =>
    refine ⟨?_, fun _ => rfl⟩
    unfold skip Iterator.remaining members
    rw [bits_zero]
    rfl
  | cons word rest ih =>
    unfold skip
    split
    · next hzero =>
      obtain ⟨hrem, hend⟩ := ih (wordIdx + 1)
      refine ⟨?_, hend⟩
      rw [hrem, members, hzero, bits_zero]
      rfl
    · next hne => exact ⟨rfl, fun hzero => absurd hzero hne⟩

theorem collect_eq {fuel : ℕ} {it : Iterator} (hend : it.word = 0 → it.rest = [])
    (hfuel : it.remaining.length ≤ fuel) : it.collect fuel = it.remaining := by
  induction fuel generalizing it with
  | zero => exact (List.length_eq_zero_iff.mp (Nat.le_zero.mp hfuel)).symm
  | succ fuel ih =>
    unfold Iterator.collect
    by_cases hzero : it.word = 0
    · rw [if_pos hzero]
      unfold Iterator.remaining
      rw [hzero, hend hzero, bits_zero]
      rfl
    · rw [if_neg hzero]
      have hnext : it.next.remaining = ((bits (it.word &&& (it.word - 1))).map (it.wordIdx * 64 + ·) ++
          members (it.wordIdx + 1) it.rest) ∧ (it.next.word = 0 → it.next.rest = []) := by
        unfold Iterator.next
        simp only
        split
        · next hlast =>
          rw [hlast, bits_zero]
          exact skip_remaining _ _
        · next hmore => exact ⟨rfl, fun hz => absurd hz hmore⟩
      have hrem : it.remaining = it.currentBucket :: it.next.remaining := by
        rw [hnext.1]
        unfold Iterator.remaining
        rw [bits_eq hzero]
        rfl
      rw [hrem] at hfuel ⊢
      rw [ih hnext.2 (Nat.le_of_succ_le_succ hfuel)]

theorem members_eq (wordIdx : ℕ) (words : List (BitVec 64)) :
    members wordIdx words = ((List.range (64 * words.length)).filter fun j =>
      (words[j / 64]?.getD 0).getLsbD (j % 64)).map (wordIdx * 64 + ·) := by
  induction words generalizing wordIdx with
  | nil => rfl
  | cons word rest ih =>
    have hfirst : bits word = (List.range 64).filter fun j =>
        ((word :: rest)[j / 64]?.getD 0).getLsbD (j % 64) := by
      apply List.filter_congr
      intro j hj
      have hj' := List.mem_range.mp hj
      rw [Nat.div_eq_of_lt hj', Nat.mod_eq_of_lt hj']
      rfl
    have hrest : ((List.range (64 * rest.length)).map (64 + ·)).filter (fun j =>
        ((word :: rest)[j / 64]?.getD 0).getLsbD (j % 64)) =
          ((List.range (64 * rest.length)).filter fun j =>
            (rest[j / 64]?.getD 0).getLsbD (j % 64)).map (64 + ·) := by
      rw [List.filter_map]
      congr 1
      apply List.filter_congr
      intro j _
      show ((word :: rest)[(64 + j) / 64]?.getD 0).getLsbD ((64 + j) % 64) = _
      rw [show (64 + j) / 64 = j / 64 + 1 by omega, show (64 + j) % 64 = j % 64 by omega, List.getElem?_cons_succ]
    rw [members, ih, List.length_cons, show 64 * (rest.length + 1) = 64 + 64 * rest.length by omega,
      List.range_add, List.filter_append, List.map_append, ← hfirst, hrest, List.map_map]
    congr 1
    apply List.map_congr_left
    intro j _
    show (wordIdx + 1) * 64 + j = wordIdx * 64 + (64 + j)
    omega

/-- The iterator gives the members in ascending order. -/
theorem indices_eq (s : BitSet) : s.indices = (List.range (64 * s.data.length)).filter s.has := by
  obtain ⟨hrem, hend⟩ := skip_remaining 0 s.data
  have hmem : members 0 s.data = (List.range (64 * s.data.length)).filter s.has := by
    rw [members_eq]
    have hid : ((0 * 64 + ·) : ℕ → ℕ) = id := by
      funext j
      show 0 * 64 + j = j
      omega
    rw [hid, List.map_id]
    rfl
  have hlen : s.begin.remaining.length ≤ numElements * s.data.length := by
    show (skip 0 s.data).remaining.length ≤ 64 * s.data.length
    rw [hrem, hmem]
    calc ((List.range (64 * s.data.length)).filter s.has).length
        ≤ (List.range (64 * s.data.length)).length := List.length_filter_le _ _
      _ = 64 * s.data.length := List.length_range
  have hcollect : s.indices = s.begin.remaining := collect_eq hend hlen
  exact hcollect.trans (hrem.trans hmem)

theorem has_lt (h : s.has bucket = true) : bucket < 64 * s.data.length := by
  by_contra hge
  unfold has at h
  rw [List.getElem?_eq_none (by omega)] at h
  simp at h

theorem mem_indices : bucket ∈ s.indices ↔ s.has bucket = true := by
  rw [indices_eq, List.mem_filter, List.mem_range]
  exact ⟨fun h => h.2, fun h => ⟨has_lt h, h⟩⟩

theorem nodup_indices (s : BitSet) : s.indices.Nodup := by
  rw [indices_eq]
  exact List.nodup_range.filter _

end BitSet

end Luwu.DenseHash2
