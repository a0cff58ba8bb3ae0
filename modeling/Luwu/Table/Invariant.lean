import Luwu.Table.Core
import Luwu.Lib.Links

/-!
# The representation invariant of a table

The hash part is read through three functions of the slot — key, value and `link`, the successor that
the relative offset `gnext` denotes — so that the edits of `newkey` become edits of these functions
and the chain lemmas of `Links` apply.

`Inv` is what every operation restores.  Besides the shape of the chains (in range, `Ranked`,
`Unshared`, empty slots outside every chain) it says where keys live: a valid key is reachable from
its own main position (`reach`), no two slots hold equal keys (`unique`), no slot holds a key that
belongs to the array part (`hashOnly`) or the key just behind it (`boundary`).  `head` is the header
comment's "if an element is not in its main position then the colliding element is in its own main
position": the slot a key hashes to holds a dead key or a key that hashes there.  That is why moving a
colliding node out of its slot never cuts another key off its main position.
-/

namespace Luwu

open Links

namespace LuaTable

variable (t : LuaTable)

/-- The number of real nodes; `0` for the shared dummy node. -/
def nodeCount : ℕ := (t.node.getD []).length

/-- The successor of a slot in its chain. -/
def link (i : ℕ) : Option ℕ := if t.gnext i = 0 then none else some (i + t.gnext i).toNat

variable {t}

theorem gnode_of_ge {i : ℕ} (h : t.nodeCount ≤ i) : t.gnode i = luaH_dummynode := by
  unfold gnode
  unfold nodeCount at h
  cases hn : t.node with
  | none =>
    rcases i with _ | i
    · rfl
    · simp
  | some ns =>
    rw [hn] at h
    simp only [Option.getD_some] at h ⊢
    simp [h]

theorem gkey_of_ge {i : ℕ} (h : t.nodeCount ≤ i) : t.gkey i = .nil := by
  rw [gkey, gnode_of_ge h]
  rfl

theorem gval_of_ge {i : ℕ} (h : t.nodeCount ≤ i) : t.gval i = .nil := by
  rw [gval, gnode_of_ge h]
  rfl

theorem gnext_of_ge {i : ℕ} (h : t.nodeCount ≤ i) : t.gnext i = 0 := by
  rw [gnext, gnode_of_ge h]
  rfl

theorem lt_of_gkey {i : ℕ} (h : t.gkey i ≠ .nil) : i < t.nodeCount := by
  by_contra hge
  exact h (gkey_of_ge (not_lt.mp hge))

theorem lt_of_gval {i : ℕ} (h : t.gval i ≠ .nil) : i < t.nodeCount := by
  by_contra hge
  exact h (gval_of_ge (not_lt.mp hge))

/-! ### Reading through the node setters -/

section Setters

variable {i j : ℕ}

@[simp] theorem nodeCount_setNode (n : LuaNode) : (t.setNode i n).nodeCount = t.nodeCount := by
  unfold nodeCount setNode
  cases t.node <;> simp

@[simp] theorem lsizenode_setNode (n : LuaNode) : (t.setNode i n).lsizenode = t.lsizenode := rfl
@[simp] theorem sizearray_setNode (n : LuaNode) : (t.setNode i n).sizearray = t.sizearray := rfl
@[simp] theorem array_setNode (n : LuaNode) : (t.setNode i n).array = t.array := rfl
@[simp] theorem lastfree_setNode (n : LuaNode) : (t.setNode i n).lastfree = t.lastfree := rfl

theorem gnode_setNode (n : LuaNode) (hi : i < t.nodeCount) :
    (t.setNode i n).gnode j = if j = i then n else t.gnode j := by
  unfold nodeCount at hi
  unfold gnode setNode
  cases hn : t.node with
  | none =>
    rw [hn] at hi
    simp at hi
  | some ns =>
    rw [hn] at hi
    simp only [Option.getD_some, Option.map_some, List.getD_eq_getElem?_getD] at hi ⊢
    by_cases h : j = i
    · subst h
      simp [hi]
    · simp [h, List.getElem?_set_ne (Ne.symm h)]

@[simp] theorem nodeCount_setVal (v : TValue) : (t.setVal i v).nodeCount = t.nodeCount :=
  nodeCount_setNode _
@[simp] theorem nodeCount_setnodekey (k : TValue) : (t.setnodekey i k).nodeCount = t.nodeCount :=
  nodeCount_setNode _
@[simp] theorem nodeCount_setNext (d : ℤ) : (t.setNext i d).nodeCount = t.nodeCount :=
  nodeCount_setNode _

theorem gkey_setVal (v : TValue) (hi : i < t.nodeCount) : (t.setVal i v).gkey j = t.gkey j := by
  rw [gkey, setVal, gnode_setNode _ hi]
  split
  · rename_i h
    rw [h]
    rfl
  · rfl

theorem gval_setVal (v : TValue) (hi : i < t.nodeCount) :
    (t.setVal i v).gval j = if j = i then v else t.gval j := by
  rw [gval, setVal, gnode_setNode _ hi]
  split <;> rfl

theorem gnext_setVal (v : TValue) (hi : i < t.nodeCount) : (t.setVal i v).gnext j = t.gnext j := by
  rw [gnext, setVal, gnode_setNode _ hi]
  split
  · rename_i h
    rw [h]
    rfl
  · rfl

theorem gkey_setnodekey (k : TValue) (hi : i < t.nodeCount) :
    (t.setnodekey i k).gkey j = if j = i then k else t.gkey j := by
  rw [gkey, setnodekey, gnode_setNode _ hi]
  split <;> rfl

theorem gval_setnodekey (k : TValue) (hi : i < t.nodeCount) :
    (t.setnodekey i k).gval j = t.gval j := by
  rw [gval, setnodekey, gnode_setNode _ hi]
  split
  · rename_i h
    rw [h]
    rfl
  · rfl

theorem gnext_setnodekey (k : TValue) (hi : i < t.nodeCount) :
    (t.setnodekey i k).gnext j = t.gnext j := by
  rw [gnext, setnodekey, gnode_setNode _ hi]
  split
  · rename_i h
    rw [h]
  · rfl

theorem gkey_setNext (d : ℤ) (hi : i < t.nodeCount) : (t.setNext i d).gkey j = t.gkey j := by
  rw [gkey, setNext, gnode_setNode _ hi]
  split
  · rename_i h
    rw [h]
  · rfl

theorem gval_setNext (d : ℤ) (hi : i < t.nodeCount) : (t.setNext i d).gval j = t.gval j := by
  rw [gval, setNext, gnode_setNode _ hi]
  split
  · rename_i h
    rw [h]
    rfl
  · rfl

theorem gnext_setNext (d : ℤ) (hi : i < t.nodeCount) :
    (t.setNext i d).gnext j = if j = i then d else t.gnext j := by
  rw [gnext, setNext, gnode_setNode _ hi]
  split <;> rfl

theorem link_setVal (v : TValue) (hi : i < t.nodeCount) : (t.setVal i v).link = t.link := by
  funext j
  rw [link, link, gnext_setVal v hi]

theorem link_setnodekey (k : TValue) (hi : i < t.nodeCount) : (t.setnodekey i k).link = t.link := by
  funext j
  rw [link, link, gnext_setnodekey k hi]

end Setters

/-! ### Reading through a node store -/

/-- A link as an offset: the slot `b` behind `a`. -/
theorem link_eq_some_iff {a b : ℕ} (hr : t.gnext a ≠ 0 → 0 ≤ (a : ℤ) + t.gnext a) :
    t.link a = some b ↔ t.gnext a ≠ 0 ∧ (a : ℤ) + t.gnext a = b := by
  unfold link
  by_cases h : t.gnext a = 0
  · simp [h]
  · have := hr h
    simp only [h, if_false, Option.some.injEq, ne_eq, not_false_eq_true, true_and]
    omega

theorem link_eq_none_iff {a : ℕ} : t.link a = none ↔ t.gnext a = 0 := by
  unfold link
  split <;> simp_all

/-- **The chain loop is a walk along the links.** -/
theorem findChain_eq_walk (p : TValue → Bool) (fuel n : ℕ) :
    t.findChain p fuel n = walk t.link (fun i => p (t.gkey i)) fuel n := by
  induction fuel generalizing n with
  | zero => rfl
  | succ fuel ih =>
    unfold findChain walk link
    by_cases hp : p (t.gkey n)
    · simp [hp]
    · by_cases h : t.gnext n = 0
      · simp [hp, h]
      · simp only [hp, h, if_false, Bool.false_eq_true]
        exact ih _

end LuaTable

/-! ### Hash positions -/

section Hashing

variable {E : Env} {t : LuaTable}

theorem lmod_two_pow (s k : ℕ) : lmod s (2 ^ k) = s % 2 ^ k := by
  unfold lmod
  exact Nat.and_two_pow_sub_one_eq_mod s k

theorem mainposition_lt (k : TValue) : mainposition E t k < t.sizenode := by
  unfold mainposition hashpow2 LuaTable.sizenode
  rw [lmod_two_pow]
  exact Nat.mod_lt _ (by positivity)

theorem murmur_congr {n m : Double} (h : n.eq m = true) : hashnum n = hashnum m := by
  rcases (Binary.feq_iff.mp h).2.2 with hb | ⟨hn, hm⟩
  · unfold hashnum
    rw [hb]
  · -- two zeros differ in the sign bit alone, which the hash masks out
    have hlow : ∀ d : Double, Binary.mag (w := 63) d.bits = 0 →
        d.bits.setWidth 32 = 0#32 ∧ (d.bits >>> 32).setWidth 32 &&& 0x7fffffff#32 = 0#32 := by
      intro d hd
      have hd' : d.bits.toNat % 2 ^ 63 = 0 := hd
      have hlt := d.bits.isLt
      have hcase : d.bits = 0#64 ∨ d.bits = 0x8000000000000000#64 := by
        rcases Nat.lt_or_ge d.bits.toNat (2 ^ 63) with h | h
        · left
          apply BitVec.eq_of_toNat_eq
          simp only [BitVec.toNat_ofNat]
          omega
        · right
          apply BitVec.eq_of_toNat_eq
          simp only [BitVec.toNat_ofNat]
          omega
      rcases hcase with hc | hc <;> rw [hc] <;> decide
    unfold hashnum
    rw [(hlow n hn).1, (hlow n hn).2, (hlow m hm).1, (hlow m hm).2]

theorem hashvecComponent_congr {x y : Single} (h : x.eq y = true) :
    hashvecComponent x = hashvecComponent y := by
  rcases (Binary.feq_iff.mp h).2.2 with hb | ⟨hn, hm⟩
  · unfold hashvecComponent
    rw [hb]
  · have hzero : ∀ d : Single, Binary.mag (w := 31) d.bits = 0 → hashvecComponent d = 0#32 := by
      intro d hd
      have hd' : d.bits.toNat % 2 ^ 31 = 0 := hd
      have hlt := d.bits.isLt
      have hcase : d.bits = 0#32 ∨ d.bits = 0x80000000#32 := by
        rcases Nat.lt_or_ge d.bits.toNat (2 ^ 31) with h | h
        · left
          apply BitVec.eq_of_toNat_eq
          simp only [BitVec.toNat_ofNat]
          omega
        · right
          apply BitVec.eq_of_toNat_eq
          simp only [BitVec.toNat_ofNat]
          omega
      rcases hcase with hc | hc <;> rw [hashvecComponent, hc] <;> decide
    rw [hzero x hn, hzero y hm]

/-- **Equal keys hash alike.** -/
theorem keyhash_congr {a b : TValue} (h : luaO_rawequalObj a b = true) :
    keyhash E a = keyhash E b := by
  cases a <;> cases b <;> simp only [luaO_rawequalObj, Bool.and_eq_true, beq_iff_eq,
    Bool.false_eq_true] at h <;> simp_all only [keyhash]
  case number.number => exact murmur_congr h
  case vector.vector =>
    simp only [hashvec, hashvecComponent_congr h.1.1, hashvecComponent_congr h.1.2,
      hashvecComponent_congr h.2]

theorem mainposition_congr {a b : TValue} (h : luaO_rawequalObj a b = true) :
    mainposition E t a = mainposition E t b := by
  unfold mainposition
  rw [keyhash_congr h]

end Hashing

/-! ### Keys of the array part -/

section ArrayKeys

theorem natAbs_lt_of_int {i : ℤ} (h : -2 ^ 31 ≤ i ∧ i < 2 ^ 31) : i.natAbs < 2 ^ 53 := by omega

theorem luai_num2int_range (n : Double) : -2 ^ 31 ≤ luai_num2int n ∧ luai_num2int n < 2 ^ 31 := by
  unfold luai_num2int
  split
  · norm_num
  · split
    · assumption
    · norm_num

theorem luai_num2int_cast_num {i : ℤ} (h : -2 ^ 31 ≤ i ∧ i < 2 ^ 31) :
    luai_num2int (cast_num i) = i := by
  have hi := natAbs_lt_of_int h
  rw [luai_num2int, cast_num, Double.ofInt_not_nan hi, Double.trunc_ofInt hi,
    if_neg Bool.false_ne_true, if_pos h]

theorem luai_num2int_congr {a b : Double} (h : a.eq b = true) : luai_num2int a = luai_num2int b := by
  rw [luai_num2int, luai_num2int, Double.not_nan_of_eq h,
    Double.not_nan_of_eq (Double.eq_symm h), Double.trunc_eq_of_eq h]

theorem isNumberEq_congr {a b : TValue} (h : luaO_rawequalObj a b = true) (i : ℤ) :
    isNumberEq a i = isNumberEq b i := by
  cases a <;> cases b <;> simp only [luaO_rawequalObj, Bool.false_eq_true] at h <;>
    simp only [isNumberEq]
  rw [Bool.eq_iff_iff]
  exact ⟨Double.eq_trans (Double.eq_symm h), Double.eq_trans h⟩

/-- A key equal to two integers pins them together. -/
theorem isNumberEq_inj {k : TValue} {i j : ℤ} (hi : -2 ^ 31 ≤ i ∧ i < 2 ^ 31)
    (hj : -2 ^ 31 ≤ j ∧ j < 2 ^ 31) (h : isNumberEq k i = true) (h' : isNumberEq k j = true) :
    i = j := by
  cases k <;> simp only [isNumberEq, Bool.false_eq_true] at h h'
  exact (Double.ofInt_eq_iff (natAbs_lt_of_int hi) (natAbs_lt_of_int hj)).mp
    (Double.eq_trans (Double.eq_symm h) h')

theorem isNumberEq_cast_num {i : ℤ} (hi : -2 ^ 31 ≤ i ∧ i < 2 ^ 31) :
    isNumberEq (.number (cast_num i)) i = true :=
  Double.eq_refl (Double.ofInt_not_nan (natAbs_lt_of_int hi))

theorem validKey_of_isNumberEq {k : TValue} {i : ℤ} (h : isNumberEq k i = true) : k.ValidKey := by
  cases k <;> simp only [isNumberEq, Bool.false_eq_true] at h
  exact Double.not_nan_of_eq h

/-- Keys equal to the same integer are equal keys. -/
theorem rawequal_of_isNumberEq {a b : TValue} {i : ℤ} (ha : isNumberEq a i = true)
    (hb : isNumberEq b i = true) : luaO_rawequalObj a b = true := by
  cases a <;> simp only [isNumberEq, Bool.false_eq_true] at ha
  cases b <;> simp only [isNumberEq, Bool.false_eq_true] at hb
  exact Double.eq_trans ha (Double.eq_symm hb)

/-- The converted integer equals the number exactly when some integer does. -/
theorem cast_num2int_eq_iff {n : Double} {i : ℤ} (hi : -2 ^ 31 ≤ i ∧ i < 2 ^ 31) :
    n.eq (cast_num i) = true ↔ (cast_num (luai_num2int n)).eq n = true ∧ luai_num2int n = i := by
  constructor
  · intro h
    have he : luai_num2int n = i := (luai_num2int_congr h).trans (luai_num2int_cast_num hi)
    exact ⟨he ▸ Double.eq_symm h, he⟩
  · rintro ⟨h, rfl⟩
    exact Double.eq_symm h

theorem arrayslot_eq_some_iff {size : ℕ} (hmax : size ≤ MAXSIZE) {k : TValue} {i : ℕ} :
    arrayslot size k = some i ↔ isNumberEq k (i + 1) = true ∧ i < size := by
  have hmax' : size ≤ 2 ^ 26 := hmax
  cases k <;> simp only [arrayslot, isNumberEq, Bool.false_eq_true, false_and, reduceCtorEq]
  rename_i n
  have hr := luai_num2int_range n
  unfold cast_unsigned
  constructor
  · intro h
    split at h
    · rename_i hc
      have hi := Option.some.inj h
      refine ⟨(cast_num2int_eq_iff (by omega)).mpr ⟨hc.1, by omega⟩, by omega⟩
    · cases h
  · rintro ⟨h, hlt⟩
    obtain ⟨hc, he⟩ := (cast_num2int_eq_iff (by omega)).mp h
    rw [if_pos ⟨hc, by omega⟩, Option.some.injEq]
    omega

theorem arrayslot_congr {a b : TValue} (h : luaO_rawequalObj a b = true) (size : ℕ) :
    arrayslot size a = arrayslot size b := by
  cases a <;> cases b <;> simp only [luaO_rawequalObj, Bool.false_eq_true] at h <;>
    simp only [arrayslot]
  rename_i n m
  have he : ((cast_num (luai_num2int m)).eq n) = ((cast_num (luai_num2int m)).eq m) := by
    rw [Bool.eq_iff_iff]
    exact ⟨fun h' => Double.eq_trans h' h, fun h' => Double.eq_trans h' (Double.eq_symm h)⟩
  rw [luai_num2int_congr h, he]

end ArrayKeys

/-! ### The invariant -/

/-- Slot `i` of the hash part holds a key that is not dead. -/
def LuaTable.Keyed (t : LuaTable) (i : ℕ) : Prop := (t.gkey i).ValidKey

/-- The representation invariant. -/
structure Inv (E : Env) (t : LuaTable) : Prop where
  /-- the array block holds at least `sizearray` slots (more only while `resize` shrinks it) -/
  arrayLen : t.sizearray ≤ t.array.length
  sizeMax : t.sizearray ≤ MAXSIZE
  dummySize : t.node = none → t.lsizenode = 0
  nodeSize : t.node ≠ none → t.nodeCount = t.sizenode ∧ t.lsizenode ≤ MAXBITS
  /-- links stay inside the node vector -/
  offset : ∀ i, t.gnext i ≠ 0 → 0 ≤ (i : ℤ) + t.gnext i
  inRange : ∀ a b, t.link a = some b → b < t.nodeCount
  ranked : Ranked t.link
  unshared : Unshared t.link
  /-- an unused slot has no value and is outside every chain -/
  unused : ∀ i, t.gkey i = .nil → t.gval i = .nil ∧ Fresh t.link i
  /-- keys are unused, valid, or dead, and dead keys have no value -/
  keys : ∀ i, t.gkey i = .nil ∨ t.Keyed i ∨ ((t.gkey i).isDead = true ∧ t.gval i = .nil)
  reach : ∀ i, t.Keyed i → Reach t.link (mainposition E t (t.gkey i)) i
  unique : ∀ i j, t.Keyed i → t.Keyed j → luaO_rawequalObj (t.gkey i) (t.gkey j) = true → i = j
  head : ∀ i, t.Keyed i → (t.gkey (mainposition E t (t.gkey i))).isDead = true ∨
    (t.Keyed (mainposition E t (t.gkey i)) ∧
      mainposition E t (t.gkey (mainposition E t (t.gkey i))) = mainposition E t (t.gkey i))
  hashOnly : ∀ i, t.Keyed i → arrayslot t.sizearray (t.gkey i) = none
  boundary : ∀ i, t.Keyed i → isNumberEq (t.gkey i) (t.sizearray + 1) = false
  /-- no slot at or above `lastfree` is unused -/
  freeBelow : ∀ i, i < t.nodeCount → t.lastfree ≤ i → t.gkey i ≠ .nil
  freeMax : t.lastfree ≤ t.nodeCount
  /-- a negative union is a boundary inside the array -/
  aboundary : -t.lastfree ≤ t.sizearray

namespace Inv

variable {E : Env} {t : LuaTable}

theorem fresh (h : Inv E t) {i : ℕ} (hi : t.gkey i = .nil) : Fresh t.link i := (h.unused i hi).2

/-- A slot with a value holds a valid key. -/
theorem keyed_of_val (h : Inv E t) {i : ℕ} (hv : t.gval i ≠ .nil) : t.Keyed i := by
  rcases h.keys i with hk | hk | hk
  · exact absurd (h.unused i hk).1 hv
  · exact hk
  · exact absurd hk.2 hv

/-- The slot a key hashes to is in use. -/
theorem main_ne_nil (h : Inv E t) {i : ℕ} (hk : t.Keyed i) :
    t.gkey (mainposition E t (t.gkey i)) ≠ .nil := by
  rcases h.head i hk with hd | ⟨hk', _⟩
  · intro hn
    rw [hn] at hd
    cases hd
  · exact hk'.ne_nil

theorem keyed_lt {i : ℕ} (hk : t.Keyed i) : i < t.nodeCount :=
  LuaTable.lt_of_gkey hk.ne_nil

theorem nodeCount_le (h : Inv E t) : t.nodeCount ≤ t.sizenode := by
  by_cases hn : t.node = none
  · unfold LuaTable.nodeCount
    simp [hn]
  · exact (h.nodeSize hn).1.le

theorem mainposition_lt_nodeCount (h : Inv E t) (hn : t.node ≠ none) (k : TValue) :
    mainposition E t k < t.nodeCount := by
  rw [(h.nodeSize hn).1]
  exact mainposition_lt k

/-- Chain walks from a slot of the vector end within `sizenode` steps. -/
theorem walk_ends (h : Inv E t) (p : ℕ → Bool) {a : ℕ} (ha : a < t.sizenode) :
    walk t.link p t.sizenode a ≠ none :=
  walk_ne_none h.ranked (fun a b hab => (h.inRange a b hab).trans_le h.nodeCount_le) p ha

/-! ### Lookup under the invariant -/

theorem searchChain_found (h : Inv E t) {p : TValue → Bool} {k : TValue} {i : ℕ}
    (hki : t.Keyed i) (hm : mainposition E t k = mainposition E t (t.gkey i))
    (hp : p (t.gkey i) = true)
    (honly : ∀ j, p (t.gkey j) = true → j = i) :
    t.searchChain p (mainposition E t k) = some (.node i) := by
  have hreach := h.reach i hki
  rw [← hm] at hreach
  rw [LuaTable.searchChain, LuaTable.findChain_eq_walk,
    walk_found (h.walk_ends _ (mainposition_lt k)) hreach hp fun j _ _ hj => honly j hj]
  rfl

theorem searchChain_absent (h : Inv E t) {p : TValue → Bool} {k : TValue}
    (hp : ∀ j, p (t.gkey j) = false) :
    t.searchChain p (mainposition E t k) = some .nilobject := by
  rw [LuaTable.searchChain, LuaTable.findChain_eq_walk,
    walk_none (h.walk_ends _ (mainposition_lt k)) fun j _ => hp j]
  rfl

/-- A slot whose key equals a valid key is keyed itself. -/
theorem keyed_of_rawequal {k : TValue} {i : ℕ} (hk : k.ValidKey)
    (he : luaO_rawequalObj (t.gkey i) k = true) : t.Keyed i :=
  ValidKey.of_rawequal hk (rawequal_symm he)

theorem getgeneric_found (h : Inv E t) {k : TValue} {i : ℕ} (hk : k.ValidKey)
    (he : luaO_rawequalObj (t.gkey i) k = true) : luaH_getgeneric E t k = some (.node i) := by
  have hki := keyed_of_rawequal hk he
  refine h.searchChain_found hki (mainposition_congr (rawequal_symm he)) he ?_
  intro j hj
  exact h.unique j i (keyed_of_rawequal hk hj) hki (rawequal_trans hj (rawequal_symm he))

theorem getgeneric_absent (h : Inv E t) {k : TValue}
    (ha : ∀ j, luaO_rawequalObj (t.gkey j) k = false) :
    luaH_getgeneric E t k = some .nilobject :=
  h.searchChain_absent ha

theorem isStringKey_eq (k : TValue) (s : GCPtr) :
    isStringKey s k = luaO_rawequalObj k (.gc .string s) := by
  cases k with
  | gc tt p => cases tt <;> simp [isStringKey, luaO_rawequalObj]
  | _ => rfl

theorem isNumberKey_eq (k : TValue) (n : Double) :
    isNumberKey n k = luaO_rawequalObj k (.number n) := by
  cases k <;> rfl

/-- The string lookup is the generic one. -/
theorem getstr_eq (E : Env) (t : LuaTable) (s : GCPtr) :
    luaH_getstr E t s = luaH_getgeneric E t (.gc .string s) := by
  unfold luaH_getstr luaH_getgeneric
  rw [show isStringKey s = (luaO_rawequalObj · (.gc .string s)) from
    funext fun k => isStringKey_eq k s]
  rfl

/-- The integer lookup goes to the array part, or is the generic one. -/
theorem getnum_eq (h : Inv E t) {i : ℤ} (hi : -2 ^ 31 ≤ i ∧ i < 2 ^ 31) :
    luaH_getnum t i = match arrayslot t.sizearray (.number (cast_num i)) with
      | some j => some (.array j)
      | none => luaH_getgeneric E t (.number (cast_num i)) := by
  have hrefl : (cast_num i).eq (cast_num i) = true :=
    Double.eq_refl (Double.ofInt_not_nan (natAbs_lt_of_int hi))
  unfold luaH_getnum arrayslot
  simp only [luai_num2int_cast_num hi, hrefl, true_and]
  by_cases hc : cast_unsigned (i - 1) < t.sizearray
  · simp [hc]
  · simp only [hc, if_false]
    by_cases hn : t.node = none
    · have hnone : ∀ j, t.gkey j = .nil := fun j =>
        LuaTable.gkey_of_ge (by unfold LuaTable.nodeCount; simp [hn])
      rw [if_neg (by simp [hn]), h.getgeneric_absent fun j => by rw [hnone j]; rfl]
    · rw [if_pos hn, luaH_getgeneric, show isNumberKey (cast_num i)
        = (luaO_rawequalObj · (.number (cast_num i))) from funext fun k => isNumberKey_eq k _]
      rfl

/-- **Lookup in one equation.**  A valid key of the array part goes there; every other one is
searched for in the hash part. -/
theorem get_eq (h : Inv E t) {k : TValue} (hk : k.ValidKey) :
    luaH_get E t k = match arrayslot t.sizearray k with
      | some i => some (.array i)
      | none => luaH_getgeneric E t k := by
  cases k with
  | nil => exact hk.elim
  | deadkey p => exact hk.elim
  | gc tt p =>
    cases tt <;> first
      | exact getstr_eq E t p
      | rfl
  | number n =>
    by_cases hc : (cast_num (luai_num2int n)).eq n = true
    · -- the number is an integer: both sides only see its value
      have heq : luaO_rawequalObj (.number (cast_num (luai_num2int n))) (.number n) = true := hc
      have hgen : luaH_getgeneric E t (.number (cast_num (luai_num2int n)))
          = luaH_getgeneric E t (.number n) := by
        unfold luaH_getgeneric
        rw [mainposition_congr heq]
        congr 1
        funext x
        rw [rawequal_comm x, rawequal_comm x]
        exact rawequal_congr heq
      simp only [luaH_get, hc, if_true]
      rw [h.getnum_eq (luai_num2int_range n), arrayslot_congr heq _, hgen]
    · simp only [luaH_get, arrayslot, hc, Bool.false_eq_true, if_false, false_and]
  | _ => rfl

end Inv

end Luwu
