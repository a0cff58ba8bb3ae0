import Luwu.Bytecode.Constants
import Luwu.Dense.Values

/-!
# Constants are shared exactly

A constant has a key of its own, and the map of the keys is the inverse of the list of constants (`Inv`).  What a request was
answered with stays what it was (`Answered.mono`), so a run answers equal requests with one index and different ones with two.
-/

namespace Luwu.Bytecode

open Luwu.Dense Luwu.DenseHash BytecodeBuilder

/-! ### Keys -/

section Keys

/-- The key under which a constant is kept; a table has its shape, and a class is not shared. -/
def Constant.key : Constant → Option ConstantKey
  | .Type_Nil => some ⟨.Type_Nil, 0, 0, 0, 0⟩
  | .Type_Boolean value => some ⟨.Type_Boolean, value.toNat, 0, 0, 0⟩
  | .Type_Number value => some ⟨.Type_Number, value.toNat, 0, 0, 0⟩
  | .Type_Integer value => some ⟨.Type_Integer, value.toNat, 0, 0, 0⟩
  | .Type_Vectorf x y z w => some ⟨.Type_Vectorf, x.toNat + 2 ^ 32 * y.toNat, z.toNat + 2 ^ 32 * w.toNat, 0, 0⟩
  | .Type_Vectord x y z w => some ⟨.Type_Vectord, x.toNat, y.toNat, z.toNat, w.toNat⟩
  | .Type_String index => some ⟨.Type_String, index, 0, 0, 0⟩
  | .Type_Import iid => some ⟨.Type_Import, iid.toNat, 0, 0, 0⟩
  | .Type_Closure fid => some ⟨.Type_Closure, fid.toNat, 0, 0, 0⟩
  | .Type_Table _ => none
  | .Type_ClassShape _ => none

/-- Two words that are packed into one are told apart. -/
theorem pack_inj {x y x' y' : BitVec 32} (h : x.toNat + 2 ^ 32 * y.toNat = x'.toNat + 2 ^ 32 * y'.toNat) :
    x = x' ∧ y = y' := by
  have hx := x.isLt
  have hx' := x'.isLt
  exact ⟨BitVec.eq_of_toNat_eq (by omega), BitVec.eq_of_toNat_eq (by omega)⟩

/-- **The key says which constant it is.** -/
theorem key_injective {c c' : Constant} {k : ConstantKey} (h : c.key = some k) (h' : c'.key = some k) : c = c' := by
  have heq := h.trans h'.symm
  have hbool : ∀ a b : Bool, a.toNat = b.toNat → a = b := by decide
  cases c <;> cases c' <;>
    simp only [Constant.key, Option.some.injEq, ConstantKey.mk.injEq, reduceCtorEq, false_and, true_and, and_true] at heq h
  case Type_Nil.Type_Nil => rfl
  case Type_Boolean.Type_Boolean => rw [hbool _ _ heq]
  case Type_Number.Type_Number => rw [BitVec.eq_of_toNat_eq heq]
  case Type_Integer.Type_Integer => rw [BitVec.eq_of_toNat_eq heq]
  case Type_Vectorf.Type_Vectorf =>
    obtain ⟨rfl, rfl⟩ := pack_inj heq.1
    obtain ⟨rfl, rfl⟩ := pack_inj heq.2
    rfl
  case Type_Vectord.Type_Vectord =>
    rw [BitVec.eq_of_toNat_eq heq.1, BitVec.eq_of_toNat_eq heq.2.1, BitVec.eq_of_toNat_eq heq.2.2.1,
      BitVec.eq_of_toNat_eq heq.2.2.2]
  case Type_String.Type_String => rw [heq]
  case Type_Import.Type_Import => rw [BitVec.eq_of_toNat_eq heq]
  case Type_Closure.Type_Closure => rw [BitVec.eq_of_toNat_eq heq]

theorem key_ne_empty {c : Constant} {k : ConstantKey} (h : c.key = some k) : (k == emptyKey) = false := by
  apply beq_eq_false_iff_ne.mpr
  rintro rfl
  cases c <;> simp [Constant.key, emptyKey] at h

end Keys

/-! ### The invariant -/

section Invariant

variable {ClassShape : Type} {b b' b'' : BytecodeBuilder ClassShape}

/-- The maps are the inverses of the lists, and the strings that are used have an index each. -/
structure Inv (b : BytecodeBuilder ClassShape) : Prop where
  constantMap : TableOk constantTraits b.constantMap
  constantEmpty : b.constantMap.empty_key = emptyKey
  shapeMap : TableOk shapeTraits b.tableShapeMap
  shapeEmpty : b.tableShapeMap.empty_key = emptyShape
  stringTable : TableOk stringTraits b.stringTable
  stringEmpty : b.stringTable.empty_key = none
  keys : ∀ k id, b.constantMap.valueOf constantTraits k = some id ↔
    ∃ n : ℕ, ∃ c, id = n ∧ b.constants[n]? = some c ∧ c.key = some k
  shapes : ∀ s id, b.tableShapeMap.valueOf shapeTraits s = some id ↔
    ∃ n j : ℕ, ∃ s', id = n ∧ b.constants[n]? = some (.Type_Table j) ∧ b.tableShapes[j]? = some s' ∧ (s' == s) = true
  tables : ∀ n j : ℕ, b.constants[n]? = some (Constant.Type_Table j) → j < b.tableShapes.length
  strings : ∀ s k, b.stringTable.valueOf stringTraits s = some k → 0 < k ∧ k ≤ b.stringTable.count
  stringsInjective : ∀ s s' k, b.stringTable.valueOf stringTraits s = some k → b.stringTable.valueOf stringTraits s' = some k →
    s = s'
  stringsUsed : ∀ n k : ℕ, b.constants[n]? = some (Constant.Type_String k) → ∃ s, b.stringTable.valueOf stringTraits s = some k

def Full (b : BytecodeBuilder ClassShape) : Prop := kMaxConstantCount ≤ b.constants.length

/-- What the calls keep: constants, shapes and indices of strings stay, and a full builder takes no more constants. -/
structure Step (b b' : BytecodeBuilder ClassShape) : Prop where
  inv : Inv b'
  constants : b.constants <+: b'.constants
  tableShapes : b.tableShapes <+: b'.tableShapes
  strings : ∀ s k, b.stringTable.valueOf stringTraits s = some k → b'.stringTable.valueOf stringTraits s = some k
  full : Full b → b'.constants = b.constants ∧ b'.tableShapes = b.tableShapes

theorem Step.rfl (h : Inv b) : Step b b := ⟨h, List.prefix_rfl, List.prefix_rfl, fun _ _ h => h, fun _ => ⟨.refl _, .refl _⟩⟩

theorem Step.trans (h : Step b b') (h' : Step b' b'') : Step b b'' where
  inv := h'.inv
  constants := h.constants.trans h'.constants
  tableShapes := h.tableShapes.trans h'.tableShapes
  strings s k hs := h'.strings s k (h.strings s k hs)
  full hfull := by
    obtain ⟨hc, ht⟩ := h.full hfull
    obtain ⟨hc', ht'⟩ := h'.full (show kMaxConstantCount ≤ b'.constants.length by rw [hc]; exact hfull)
    exact ⟨hc'.trans hc, ht'.trans ht⟩

theorem getElem?_mono {α : Type} {l l' : List α} {n : ℕ} {a : α} (h : l <+: l') (hn : l[n]? = some a) : l'[n]? = some a := by
  obtain ⟨t, rfl⟩ := h
  have hlt : n < l.length := (List.getElem?_eq_some_iff.mp hn).1
  rw [List.getElem?_append_left hlt, hn]

/-! ### Answers -/

/-- The constant of a request that has one of its own -/
def Request.plain : Request → Option Constant
  | .nil => some .Type_Nil
  | .boolean value => some (.Type_Boolean value)
  | .number value => some (.Type_Number value)
  | .integer value => some (.Type_Integer value)
  | .vectorf x y z w => some (.Type_Vectorf x y z w)
  | .vectord x y z w => some (.Type_Vectord x y z w)
  | .importId iid => some (.Type_Import iid)
  | .closure fid => some (.Type_Closure fid)
  | .string _ => none
  | .table _ => none

/-- A constant is what was asked for: the bits, the bytes of the string, the keys and constants of the shape. -/
def Means (b : BytecodeBuilder ClassShape) (c : Constant) : Request → Prop
  | .string s => ∃ k, c = .Type_String k ∧ ∀ s', b.stringTable.valueOf stringTraits s' = some k ↔ s' = s
  | .table s => ∃ j s', c = .Type_Table j ∧ b.tableShapes[j]? = some s' ∧ s'.listed = s.listed
  | r => r.plain = some c

def Refers (b : BytecodeBuilder ClassShape) (id : ℤ) (r : Request) : Prop :=
  ∃ (n : ℕ) (c : Constant), id = n ∧ b.constants[n]? = some c ∧ Means b c r

/-- Requests for the same constant -/
def Request.Same : Request → Request → Prop
  | .table s, .table s' => s.listed = s'.listed
  | r, r' => r = r'

/-- The empty shape and the null pointer mark the buckets that are empty. -/
def Request.Legal : Request → Prop
  | .string s => s ≠ none
  | .table s => (s == emptyShape) = false
  | _ => True

/-- The maps have the index of a request. -/
def Known (b : BytecodeBuilder ClassShape) (id : ℤ) : Request → Prop
  | .string s => ∃ k, b.stringTable.valueOf stringTraits s = some k ∧
      b.constantMap.valueOf constantTraits ⟨.Type_String, k, 0, 0, 0⟩ = some id
  | .table s => b.tableShapeMap.valueOf shapeTraits s = some id
  | r => ∃ c k, r.plain = some c ∧ c.key = some k ∧ b.constantMap.valueOf constantTraits k = some id

/-- The answer to a request: its index, or `-1` where there is no room for it. -/
def Answered (b : BytecodeBuilder ClassShape) (id : ℤ) (r : Request) : Prop :=
  Known b id r ∨ id = -1 ∧ Full b ∧ ∀ id', ¬Known b id' r

end Invariant

/-! ### The calls -/

section Calls

variable {ClassShape : Type} {b b' : BytecodeBuilder ClassShape} {c : Constant} {k : ConstantKey} {room : ℕ → Bool}

theorem getElem?_snoc {α : Type} {l : List α} {a x : α} {n : ℕ} :
    (l ++ [a])[n]? = some x ↔ l[n]? = some x ∨ n = l.length ∧ x = a := by
  by_cases hlt : n < l.length
  · rw [List.getElem?_append_left hlt]
    constructor
    · exact Or.inl
    · rintro (h | ⟨rfl, -⟩)
      · exact h
      · exact absurd hlt (lt_irrefl _)
  · rw [List.getElem?_append_right (by omega), List.getElem?_singleton, List.getElem?_eq_none (by omega)]
    constructor
    · intro h
      split at h
      · exact Or.inr ⟨by omega, (Option.some.inj h).symm⟩
      · cases h
    · rintro (h | ⟨rfl, rfl⟩)
      · cases h
      · rw [if_pos (Nat.sub_self _)]

/-- A constant goes behind the others, with the shape that is its own. -/
theorem Inv.push (h : Inv b) {constantMap : Table ConstantKey (ConstantKey × ℤ)} (hmap : TableOk constantTraits constantMap)
    (hempty : constantMap.empty_key = emptyKey)
    (hvalues : ∀ k, constantMap.valueOf constantTraits k =
      if c.key = some k then some (b.constants.length : ℤ) else b.constantMap.valueOf constantTraits k)
    (hnew : ∀ k, c.key = some k → b.constantMap.valueOf constantTraits k = none)
    (hstring : ∀ i, c = .Type_String i → ∃ s, b.stringTable.valueOf stringTraits s = some i)
    (htable : ∀ j, c ≠ .Type_Table j) {classShapes : List ClassShape} :
    Inv { b with constantMap := constantMap, constants := b.constants ++ [c], classShapes := classShapes } where
  constantMap := hmap
  constantEmpty := hempty
  shapeMap := h.shapeMap
  shapeEmpty := h.shapeEmpty
  stringTable := h.stringTable
  stringEmpty := h.stringEmpty
  keys k id := by
    show constantMap.valueOf constantTraits k = some id ↔ ∃ n c', id = (n : ℕ) ∧ (b.constants ++ [c])[n]? = some c' ∧ c'.key = some k
    rw [hvalues]
    by_cases hk : c.key = some k
    · rw [if_pos hk]
      constructor
      · intro hid
        exact ⟨b.constants.length, c, (Option.some.inj hid).symm, getElem?_snoc.mpr (Or.inr ⟨rfl, rfl⟩), hk⟩
      · rintro ⟨n, c', rfl, hn, hc'⟩
        rcases getElem?_snoc.mp hn with hold | ⟨rfl, -⟩
        · have hthere := (h.keys k n).mpr ⟨n, c', rfl, hold, hc'⟩
          rw [hnew k hk] at hthere
          cases hthere
        · rfl
    · rw [if_neg hk, h.keys]
      constructor
      · rintro ⟨n, c', rfl, hn, hc'⟩
        exact ⟨n, c', rfl, getElem?_snoc.mpr (Or.inl hn), hc'⟩
      · rintro ⟨n, c', rfl, hn, hc'⟩
        rcases getElem?_snoc.mp hn with hold | ⟨-, rfl⟩
        · exact ⟨n, c', rfl, hold, hc'⟩
        · exact absurd hc' hk
  shapes s id := by
    rw [h.shapes]
    constructor
    · rintro ⟨n, j, s', rfl, hn, hrest⟩
      exact ⟨n, j, s', rfl, getElem?_snoc.mpr (Or.inl hn), hrest⟩
    · rintro ⟨n, j, s', rfl, hn, hrest⟩
      rcases getElem?_snoc.mp hn with hold | ⟨-, hc⟩
      · exact ⟨n, j, s', rfl, hold, hrest⟩
      · exact absurd hc.symm (htable j)
  tables n j hn := by
    rcases getElem?_snoc.mp hn with hold | ⟨-, hc⟩
    · exact h.tables n j hold
    · exact absurd hc.symm (htable j)
  strings := h.strings
  stringsInjective := h.stringsInjective
  stringsUsed n i hn := by
    rcases getElem?_snoc.mp hn with hold | ⟨-, hc⟩
    · exact h.stringsUsed n i hold
    · exact hstring i hc.symm

theorem addConstant_step (h : Inv b) (room : ℕ → Bool) (hkey : c.key = some k)
    (hstring : ∀ i, c = .Type_String i → ∃ s, b.stringTable.valueOf stringTraits s = some i) :
    b.addConstant room k c = .error .badalloc ∨ ∃ id b', b.addConstant room k c = .ok (id, b') ∧ Step b b' ∧
      b'.stringTable = b.stringTable ∧ b'.tableShapeMap = b.tableShapeMap ∧
      (b'.constantMap.valueOf constantTraits k = some id ∨
        id = -1 ∧ Full b' ∧ b'.constantMap.valueOf constantTraits k = none) := by
  unfold addConstant
  cases hv : b.constantMap.valueOf constantTraits k with
  | some id =>
    obtain ⟨a, hlookup, hid⟩ := lookup_value h.constantMap hv
    rw [hlookup]
    exact Or.inr ⟨a.2, b, rfl, Step.rfl h, rfl, rfl, Or.inl (hv.trans (congrArg some hid.symm))⟩
  | none =>
    rw [lookup_none h.constantMap hv]
    show (if kMaxConstantCount ≤ b.constants.length then _ else _) = _ ∨ _
    by_cases hfull : kMaxConstantCount ≤ b.constants.length
    · rw [if_pos hfull]
      exact Or.inr ⟨-1, b, rfl, Step.rfl h, rfl, rfl, Or.inr ⟨rfl, hfull, hv⟩⟩
    · have hne : (k == b.constantMap.empty_key) = false := by
        rw [h.constantEmpty]
        exact key_ne_empty hkey
      rw [if_neg hfull]
      obtain hbad | ⟨t', hrun, hok, hempty, hvalues⟩ := assign_value h.constantMap room hne (b.constants.length : ℤ)
      · rw [hbad]
        exact Or.inl rfl
      · rw [hrun]
        have hput : ∀ k', t'.valueOf constantTraits k' =
            if c.key = some k' then some (b.constants.length : ℤ) else b.constantMap.valueOf constantTraits k' := by
          intro k'
          rw [hvalues k']
          by_cases hk : k = k'
          · rw [if_pos (beq_iff_eq.mpr hk), if_pos (hkey.trans (congrArg some hk))]
          · rw [if_neg (fun hb => hk (eq_of_beq hb)), if_neg (fun hc => hk (Option.some.inj (hkey.symm.trans hc)))]
        have hnew : ∀ k', c.key = some k' → b.constantMap.valueOf constantTraits k' = none := by
          intro k' hk'
          rw [← Option.some.inj (hkey.symm.trans hk')]
          exact hv
        have htable : ∀ j, c ≠ .Type_Table j := by
          rintro j rfl
          cases hkey
        have hinv : Inv { b with constantMap := t', constants := b.constants ++ [c] } :=
          h.push hok (hempty.trans h.constantEmpty) hput hnew hstring htable
        refine Or.inr ⟨b.constants.length, _, rfl, ⟨hinv, List.prefix_append _ _, List.prefix_rfl, fun _ _ hs => hs,
          fun hf => absurd hf hfull⟩, rfl, rfl, Or.inl ?_⟩
        rw [hvalues, if_pos BEq.rfl]

/-- Strings get indices. -/
theorem Inv.setStrings (h : Inv b) {t : Table StringRef (StringRef × ℕ)} (hok : TableOk stringTraits t)
    (hempty : t.empty_key = none) (hmono : ∀ s k, b.stringTable.valueOf stringTraits s = some k → t.valueOf stringTraits s = some k)
    (hbound : ∀ s k, t.valueOf stringTraits s = some k → 0 < k ∧ k ≤ t.count)
    (hinj : ∀ s s' k, t.valueOf stringTraits s = some k → t.valueOf stringTraits s' = some k → s = s') :
    Step b { b with stringTable := t } where
  inv := {
    constantMap := h.constantMap
    constantEmpty := h.constantEmpty
    shapeMap := h.shapeMap
    shapeEmpty := h.shapeEmpty
    stringTable := hok
    stringEmpty := hempty
    keys := h.keys
    shapes := h.shapes
    tables := h.tables
    strings := hbound
    stringsInjective := hinj
    stringsUsed := fun n k hn => by
      obtain ⟨s, hs⟩ := h.stringsUsed n k hn
      exact ⟨s, hmono s k hs⟩ }
  constants := List.prefix_rfl
  tableShapes := List.prefix_rfl
  strings := hmono
  full := fun _ => ⟨rfl, rfl⟩

theorem addStringTableEntry_step (h : Inv b) (room : ℕ → Bool) (value : StringRef) :
    (∃ e, b.addStringTableEntry room value = .error e ∧ (e = .badalloc ∨ value = none)) ∨
      ∃ i t, b.addStringTableEntry room value = .ok (i, { b with stringTable := t }) ∧
        Step b { b with stringTable := t } ∧ t.valueOf stringTraits value = some i := by
  by_cases hnull : value = none
  · have hkey : (value == b.stringTable.empty_key) = true := by
      rw [h.stringEmpty]
      exact beq_iff_eq.mpr hnull
    obtain ⟨e, hrun⟩ := insert_empty h.stringTable room hkey
    refine Or.inl ⟨e, ?_, Or.inr hnull⟩
    unfold addStringTableEntry
    rw [hrun]
    rfl
  · have hkey : (value == b.stringTable.empty_key) = false := by
      rw [h.stringEmpty]
      exact beq_eq_false_iff_ne.mpr hnull
    obtain hbad | ⟨t, bucket, a, hrun, hok, hempty, hdata, ha, hcount, hvalues, hstore⟩ := insert_value h.stringTable room hkey
    · refine Or.inl ⟨_, ?_, Or.inl rfl⟩
      unfold addStringTableEntry
      rw [hbad]
      rfl
    · have hgoes : b.addStringTableEntry room value =
          if a.2 = 0 then (t.store stringTraits bucket t.count >>= fun t' => .ok (t.count, { b with stringTable := t' }))
          else .ok (a.2, { b with stringTable := t }) := by
        unfold addStringTableEntry
        rw [hrun]
        show (orFault (t.data bucket) >>= _) = _
        rw [hdata]
        rfl
      change a.2 = (b.stringTable.valueOf stringTraits value).getD 0 at ha
      cases hv : b.stringTable.valueOf stringTraits value with
      | some i =>
        rw [hv, Option.getD_some] at ha
        rw [hv, Option.isSome_some, if_pos rfl] at hcount
        have hpos := (h.strings value i hv).1
        have hsame : ∀ k, t.valueOf stringTraits k = b.stringTable.valueOf stringTraits k := by
          intro k
          rw [hvalues k]
          by_cases hk : value = k
          · rw [if_pos (beq_iff_eq.mpr hk), ← hk, hv]
            exact congrArg some ha
          · rw [if_neg (fun hb => hk (eq_of_beq hb))]
        refine Or.inr ⟨i, t, ?_, h.setStrings hok (hempty.trans h.stringEmpty) ?_ ?_ ?_, by rw [hsame, hv]⟩
        · rw [hgoes, if_neg (by omega), ha]
        · exact fun s k hs => by rw [hsame, hs]
        · intro s k hs
          rw [hsame] at hs
          rw [hcount]
          exact h.strings s k hs
        · intro s s' k hs hs'
          rw [hsame] at hs hs'
          exact h.stringsInjective s s' k hs hs'
      | none =>
        rw [hv, Option.getD_none] at ha
        rw [hv, Option.isSome_none, if_neg Bool.false_ne_true] at hcount
        obtain ⟨t', hstored, hok', hempty', hcount', hvalues'⟩ := hstore t.count
        have hput : ∀ k, t'.valueOf stringTraits k =
            if value = k then some (b.stringTable.count + 1) else b.stringTable.valueOf stringTraits k := by
          intro k
          rw [hvalues' k, hcount]
          by_cases hk : value = k
          · rw [if_pos (beq_iff_eq.mpr hk), if_pos hk]
          · rw [if_neg (fun hb => hk (eq_of_beq hb)), if_neg hk]
        refine Or.inr ⟨t.count, t', ?_, h.setStrings hok' (hempty'.trans h.stringEmpty) ?_ ?_ ?_, by
          rw [hput, if_pos rfl, hcount]⟩
        · rw [hgoes, if_pos ha, hstored]
          rfl
        · intro s k hs
          have hne : value ≠ s := by
            rintro rfl
            rw [hv] at hs
            cases hs
          rw [hput, if_neg hne, hs]
        · intro s k hs
          rw [hput] at hs
          rw [hcount', hcount]
          split at hs
          · obtain rfl := Option.some.inj hs
            exact ⟨Nat.succ_pos _, le_rfl⟩
          · have hb := h.strings s k hs
            exact ⟨hb.1, by omega⟩
        · intro s s' k hs hs'
          rw [hput] at hs hs'
          split at hs
          · next heq =>
            split at hs'
            · next heq' => exact heq.symm.trans heq'
            · obtain rfl := Option.some.inj hs
              have hb := h.strings s' _ hs'
              omega
          · split at hs'
            · obtain rfl := Option.some.inj hs'
              have hb := h.strings s _ hs
              omega
            · exact h.stringsInjective s s' k hs hs'

/-- A table goes behind the other constants, and its shape behind the other shapes. -/
theorem Inv.pushTable (h : Inv b) {shape : TableShape} {t : Table TableShape (TableShape × ℤ)} (hok : TableOk shapeTraits t)
    (hempty : t.empty_key = emptyShape)
    (hvalues : ∀ s, t.valueOf shapeTraits s =
      if shape == s then some (b.constants.length : ℤ) else b.tableShapeMap.valueOf shapeTraits s)
    (hnew : b.tableShapeMap.valueOf shapeTraits shape = none) :
    Inv { b with
      tableShapeMap := t
      tableShapes := b.tableShapes ++ [shape]
      constants := b.constants ++ [.Type_Table b.tableShapes.length] } where
  constantMap := h.constantMap
  constantEmpty := h.constantEmpty
  shapeMap := hok
  shapeEmpty := hempty
  stringTable := h.stringTable
  stringEmpty := h.stringEmpty
  keys k id := by
    rw [h.keys]
    constructor
    · rintro ⟨n, c, rfl, hn, hc⟩
      exact ⟨n, c, rfl, getElem?_snoc.mpr (Or.inl hn), hc⟩
    · rintro ⟨n, c, rfl, hn, hc⟩
      rcases getElem?_snoc.mp hn with hold | ⟨-, rfl⟩
      · exact ⟨n, c, rfl, hold, hc⟩
      · cases hc
  shapes s id := by
    show t.valueOf shapeTraits s = some id ↔ ∃ n j : ℕ, ∃ s', id = n ∧
      (b.constants ++ [Constant.Type_Table b.tableShapes.length])[n]? = some (.Type_Table j) ∧
      (b.tableShapes ++ [shape])[j]? = some s' ∧ (s' == s) = true
    rw [hvalues]
    by_cases hs : (shape == s) = true
    · rw [if_pos hs]
      constructor
      · intro hid
        exact ⟨b.constants.length, b.tableShapes.length, shape, (Option.some.inj hid).symm, getElem?_snoc.mpr (Or.inr ⟨rfl, rfl⟩),
          getElem?_snoc.mpr (Or.inr ⟨rfl, rfl⟩), hs⟩
      · rintro ⟨n, j, s', rfl, hn, hj, hs'⟩
        rcases getElem?_snoc.mp hn with hold | ⟨rfl, -⟩
        · have hj' : b.tableShapes[j]? = some s' := by
            rcases getElem?_snoc.mp hj with hold' | ⟨rfl, -⟩
            · exact hold'
            · exact absurd (h.tables n _ hold) (lt_irrefl _)
          have hthere := (h.shapes shape n).mpr ⟨n, j, s', rfl, hold, hj', BEq.trans hs' (BEq.symm hs)⟩
          rw [hnew] at hthere
          cases hthere
        · rfl
    · rw [if_neg hs, h.shapes]
      constructor
      · rintro ⟨n, j, s', rfl, hn, hj, hs'⟩
        exact ⟨n, j, s', rfl, getElem?_snoc.mpr (Or.inl hn), getElem?_snoc.mpr (Or.inl hj), hs'⟩
      · rintro ⟨n, j, s', rfl, hn, hj, hs'⟩
        rcases getElem?_snoc.mp hj with hold | ⟨rfl, rfl⟩
        · rcases getElem?_snoc.mp hn with hold' | ⟨-, hc⟩
          · exact ⟨n, j, s', rfl, hold', hold, hs'⟩
          · obtain rfl : j = b.tableShapes.length := Constant.Type_Table.inj hc
            exact absurd (List.getElem?_eq_some_iff.mp hold).1 (lt_irrefl _)
        · exact absurd hs' hs
  tables n j hn := by
    show j < (b.tableShapes ++ [shape]).length
    rw [List.length_append, List.length_singleton]
    rcases getElem?_snoc.mp hn with hold | ⟨-, hc⟩
    · exact Nat.lt_succ_of_lt (h.tables n j hold)
    · rw [Constant.Type_Table.inj hc]
      exact Nat.lt_succ_self _
  strings := h.strings
  stringsInjective := h.stringsInjective
  stringsUsed n i hn := by
    rcases getElem?_snoc.mp hn with hold | ⟨-, hc⟩
    · exact h.stringsUsed n i hold
    · cases hc

theorem addConstantTable_step (h : Inv b) (room : ℕ → Bool) (shape : TableShape) :
    (∃ e, b.addConstantTable room shape = .error e ∧ (e = .badalloc ∨ (shape == emptyShape) = true)) ∨
      ∃ id b', b.addConstantTable room shape = .ok (id, b') ∧ Step b b' ∧
        (b'.tableShapeMap.valueOf shapeTraits shape = some id ∨
          id = -1 ∧ Full b' ∧ b'.tableShapeMap.valueOf shapeTraits shape = none) := by
  cases hv : b.tableShapeMap.valueOf shapeTraits shape with
  | some id =>
    obtain ⟨a, hlookup, hid⟩ := lookup_value h.shapeMap hv
    refine Or.inr ⟨a.2, b, ?_, Step.rfl h, Or.inl (hv.trans (congrArg some hid.symm))⟩
    unfold addConstantTable
    rw [hlookup]
    rfl
  | none =>
    have hlookup := lookup_none h.shapeMap hv
    by_cases hfull : kMaxConstantCount ≤ b.constants.length
    · refine Or.inr ⟨-1, b, ?_, Step.rfl h, Or.inr ⟨rfl, hfull, hv⟩⟩
      unfold addConstantTable
      rw [hlookup]
      exact if_pos hfull
    · have hgoes : b.addConstantTable room shape =
          (b.tableShapeMap.assign shapeTraits room shape (b.constants.length : ℤ) >>= fun t =>
            (.ok ((b.constants.length : ℤ), { b with
              tableShapeMap := t
              tableShapes := b.tableShapes ++ [shape]
              constants := b.constants ++ [Constant.Type_Table b.tableShapes.length] }) :
              DenseM (ℤ × BytecodeBuilder ClassShape))) := by
        unfold addConstantTable
        rw [hlookup]
        exact if_neg hfull
      by_cases hempty : (shape == emptyShape) = true
      · obtain ⟨e, hrun⟩ := assign_empty h.shapeMap room (by rw [h.shapeEmpty]; exact hempty) (b.constants.length : ℤ)
        refine Or.inl ⟨e, ?_, Or.inr hempty⟩
        rw [hgoes, hrun]
        rfl
      · have hkey : (shape == b.tableShapeMap.empty_key) = false := by
          rw [h.shapeEmpty]
          exact Bool.not_eq_true _ ▸ hempty
        obtain hbad | ⟨t, hrun, hok, hemptyKey, hvalues⟩ := assign_value h.shapeMap room hkey (b.constants.length : ℤ)
        · refine Or.inl ⟨_, ?_, Or.inl rfl⟩
          rw [hgoes, hbad]
          rfl
        · rw [hgoes, hrun]
          refine Or.inr ⟨_, _, rfl, ⟨h.pushTable hok (hemptyKey.trans h.shapeEmpty) hvalues hv, List.prefix_append _ _,
            List.prefix_append _ _, fun _ _ hs => hs, fun hf => absurd hf hfull⟩, Or.inl ?_⟩
          show t.valueOf shapeTraits shape = _
          rw [hvalues, if_pos BEq.rfl]

theorem addClassShape_step (h : Inv b) (shape : ClassShape) : Step b (b.addClassShape shape).2 := by
  unfold addClassShape
  dsimp only
  by_cases hfull : kMaxConstantCount ≤ b.constants.length
  · rw [if_pos hfull]
    exact Step.rfl h
  · rw [if_neg hfull]
    have hkey : ∀ k, (Constant.Type_ClassShape b.classShapes.length).key = some k → False := by
      intro k hk
      cases hk
    have hvalues : ∀ k, b.constantMap.valueOf constantTraits k =
        if (Constant.Type_ClassShape b.classShapes.length).key = some k then some (b.constants.length : ℤ)
        else b.constantMap.valueOf constantTraits k := by
      intro k
      rw [if_neg (hkey k)]
    exact ⟨h.push h.constantMap h.constantEmpty hvalues (fun k hk => (hkey k hk).elim) (fun i hi => by cases hi)
      (fun j hj => by cases hj), List.prefix_append _ _, List.prefix_rfl, fun _ _ hs => hs, fun hf => absurd hf hfull⟩

/-- What a constant of its own is answered with -/
theorem addConstant_answer {r : Request} (h : Inv b) (room : ℕ → Bool) (hplain : r.plain = some c) (hkey : c.key = some k)
    (hknown : ∀ b : BytecodeBuilder ClassShape, ∀ id, Known b id r ↔
      ∃ c k, r.plain = some c ∧ c.key = some k ∧ b.constantMap.valueOf constantTraits k = some id)
    (hstring : ∀ i, c ≠ .Type_String i) :
    (∃ e, b.addConstant room k c = .error e ∧ (e = .badalloc ∨ ¬r.Legal)) ∨
      ∃ id b', b.addConstant room k c = .ok (id, b') ∧ Step b b' ∧ Answered b' id r := by
  obtain hbad | ⟨id, b', hrun, hstep, -, -, hanswer⟩ := addConstant_step h room hkey fun i hi => absurd hi (hstring i)
  · exact Or.inl ⟨_, hbad, Or.inl rfl⟩
  · refine Or.inr ⟨id, b', hrun, hstep, ?_⟩
    rcases hanswer with hid | ⟨hid, hfull, hnone⟩
    · exact Or.inl ((hknown b' id).mpr ⟨c, k, hplain, hkey, hid⟩)
    · refine Or.inr ⟨hid, hfull, fun id' hid' => ?_⟩
      obtain ⟨c', k', hplain', hkey', hvalue⟩ := (hknown b' id').mp hid'
      obtain rfl := Option.some.inj (hplain.symm.trans hplain')
      obtain rfl := Option.some.inj (hkey.symm.trans hkey')
      rw [hnone] at hvalue
      cases hvalue

theorem addConstantString_step (h : Inv b) (room : ℕ → Bool) (value : StringRef) :
    (∃ e, b.addConstantString room value = .error e ∧ (e = .badalloc ∨ value = none)) ∨
      ∃ id b', b.addConstantString room value = .ok (id, b') ∧ Step b b' ∧ Answered b' id (.string value) := by
  unfold addConstantString
  obtain ⟨e, hrun, he⟩ | ⟨i, t, hrun, hstep, hi⟩ := addStringTableEntry_step h room value
  · rw [hrun]
    exact Or.inl ⟨e, rfl, he⟩
  · rw [hrun]
    have hthere : ∀ j, Constant.Type_String i = .Type_String j → ∃ s, t.valueOf stringTraits s = some j := by
      rintro j hj
      rw [← Constant.Type_String.inj hj]
      exact ⟨value, hi⟩
    show (∃ e, addConstant room { b with stringTable := t } ⟨.Type_String, i, 0, 0, 0⟩ (.Type_String i) = _ ∧ _) ∨
      ∃ id b', addConstant room { b with stringTable := t } ⟨.Type_String, i, 0, 0, 0⟩ (.Type_String i) = _ ∧ _
    obtain hbad | ⟨id, b', hrun', hstep', hstrings, -, hanswer⟩ := addConstant_step hstep.inv room rfl hthere
    · exact Or.inl ⟨_, hbad, Or.inl rfl⟩
    · refine Or.inr ⟨id, b', hrun', hstep.trans hstep', ?_⟩
      have hi' : b'.stringTable.valueOf stringTraits value = some i := by
        rw [hstrings]
        exact hi
      rcases hanswer with hid | ⟨hid, hfull, hnone⟩
      · exact Or.inl ⟨i, hi', hid⟩
      · refine Or.inr ⟨hid, hfull, ?_⟩
        rintro id' ⟨i', hi'', hvalue⟩
        obtain rfl := Option.some.inj (hi'.symm.trans hi'')
        rw [hnone] at hvalue
        cases hvalue

/-- **A request** -/
theorem request_step (h : Inv b) (room : ℕ → Bool) (r : Request) :
    (∃ e, b.request room r = .error e ∧ (e = .badalloc ∨ ¬r.Legal)) ∨
      ∃ id b', b.request room r = .ok (id, b') ∧ Step b b' ∧ Answered b' id r := by
  cases r with
  | nil => exact addConstant_answer h room rfl rfl (fun _ _ => Iff.rfl) (fun _ hi => by cases hi)
  | boolean value => exact addConstant_answer h room rfl rfl (fun _ _ => Iff.rfl) (fun _ hi => by cases hi)
  | number value => exact addConstant_answer h room rfl rfl (fun _ _ => Iff.rfl) (fun _ hi => by cases hi)
  | integer value => exact addConstant_answer h room rfl rfl (fun _ _ => Iff.rfl) (fun _ hi => by cases hi)
  | vectorf x y z w => exact addConstant_answer h room rfl rfl (fun _ _ => Iff.rfl) (fun _ hi => by cases hi)
  | vectord x y z w => exact addConstant_answer h room rfl rfl (fun _ _ => Iff.rfl) (fun _ hi => by cases hi)
  | importId iid => exact addConstant_answer h room rfl rfl (fun _ _ => Iff.rfl) (fun _ hi => by cases hi)
  | closure fid => exact addConstant_answer h room rfl rfl (fun _ _ => Iff.rfl) (fun _ hi => by cases hi)
  | string value =>
    obtain ⟨e, hrun, he⟩ | hgood := addConstantString_step h room value
    · exact Or.inl ⟨e, hrun, he.imp_right fun hnone hlegal => hlegal hnone⟩
    · exact Or.inr hgood
  | table shape =>
    obtain ⟨e, hrun, he⟩ | ⟨id, b', hrun, hstep, hanswer⟩ := addConstantTable_step h room shape
    · refine Or.inl ⟨e, hrun, he.imp_right fun hempty hlegal => ?_⟩
      exact Bool.noConfusion (hempty.symm.trans hlegal)
    · refine Or.inr ⟨id, b', hrun, hstep, ?_⟩
      rcases hanswer with hid | ⟨hid, hfull, hnone⟩
      · exact Or.inl hid
      · refine Or.inr ⟨hid, hfull, fun id' hid' => ?_⟩
        have hvalue : b'.tableShapeMap.valueOf shapeTraits shape = some id' := hid'
        rw [hnone] at hvalue
        cases hvalue

end Calls

/-! ### Answers stay -/

section Answers

variable {ClassShape : Type} {b b' : BytecodeBuilder ClassShape} {id id' : ℤ} {r r' : Request}

/-- For what has a constant of its own, the map of the keys says it. -/
theorem known_plain {c : Constant} (h : r.plain = some c) :
    Known b id r ↔ ∃ k, c.key = some k ∧ b.constantMap.valueOf constantTraits k = some id := by
  have hdef : Known b id r ↔
      ∃ c k, r.plain = some c ∧ c.key = some k ∧ b.constantMap.valueOf constantTraits k = some id := by
    cases r with
    | string => cases h
    | table => cases h
    | _ => exact Iff.rfl
  rw [hdef]
  constructor
  · rintro ⟨c', k, hc', hk, hv⟩
    obtain rfl := Option.some.inj (h.symm.trans hc')
    exact ⟨k, hk, hv⟩
  · rintro ⟨k, hk, hv⟩
    exact ⟨c, k, h, hk, hv⟩

theorem plain_or (r : Request) : (∃ c, r.plain = some c) ∨ (∃ s, r = .string s) ∨ ∃ s, r = .table s := by
  cases r with
  | string s => exact Or.inr (Or.inl ⟨s, rfl⟩)
  | table s => exact Or.inr (Or.inr ⟨s, rfl⟩)
  | _ => exact Or.inl ⟨_, rfl⟩

theorem keys_mono (h : Inv b) (hs : Step b b') {k : ConstantKey} (hk : b.constantMap.valueOf constantTraits k = some id) :
    b'.constantMap.valueOf constantTraits k = some id := by
  obtain ⟨n, c, hid, hn, hc⟩ := (h.keys k id).mp hk
  exact (hs.inv.keys k id).mpr ⟨n, c, hid, getElem?_mono hs.constants hn, hc⟩

theorem keys_full (h : Inv b) (hs : Step b b') (hfull : Full b) {k : ConstantKey}
    (hk : b'.constantMap.valueOf constantTraits k = some id) : b.constantMap.valueOf constantTraits k = some id := by
  obtain ⟨n, c, hid, hn, hc⟩ := (hs.inv.keys k id).mp hk
  rw [(hs.full hfull).1] at hn
  exact (h.keys k id).mpr ⟨n, c, hid, hn, hc⟩

theorem Known.mono (h : Inv b) (hs : Step b b') (hknown : Known b id r) : Known b' id r := by
  obtain ⟨c, hc⟩ | ⟨s, rfl⟩ | ⟨s, rfl⟩ := plain_or r
  · obtain ⟨k, hk, hv⟩ := (known_plain hc).mp hknown
    exact (known_plain hc).mpr ⟨k, hk, keys_mono h hs hv⟩
  · obtain ⟨k, hk, hv⟩ := hknown
    exact ⟨k, hs.strings s k hk, keys_mono h hs hv⟩
  · obtain ⟨n, j, s', hid, hn, hj, hs'⟩ := (h.shapes s id).mp hknown
    exact (hs.inv.shapes s id).mpr ⟨n, j, s', hid, getElem?_mono hs.constants hn, getElem?_mono hs.tableShapes hj, hs'⟩

/-- A full builder learns nothing: a string whose constant it has was there before. -/
theorem Known.full (h : Inv b) (hs : Step b b') (hfull : Full b) (hknown : Known b' id r) : Known b id r := by
  obtain ⟨c, hc⟩ | ⟨s, rfl⟩ | ⟨s, rfl⟩ := plain_or r
  · obtain ⟨k, hk, hv⟩ := (known_plain hc).mp hknown
    exact (known_plain hc).mpr ⟨k, hk, keys_full h hs hfull hv⟩
  · obtain ⟨k, hk, hv⟩ := hknown
    have hold := keys_full h hs hfull hv
    obtain ⟨n, c, -, hn, hc⟩ := (h.keys _ id).mp hold
    obtain rfl : c = .Type_String k := key_injective hc rfl
    obtain ⟨s', hs'⟩ := h.stringsUsed n k hn
    obtain rfl := hs.inv.stringsInjective s s' k hk (hs.strings s' k hs')
    exact ⟨k, hs', hold⟩
  · obtain ⟨n, j, s', hid, hn, hj, hs'⟩ := (hs.inv.shapes s id).mp hknown
    obtain ⟨hconstants, hshapes⟩ := hs.full hfull
    rw [hconstants] at hn
    rw [hshapes] at hj
    exact (h.shapes s id).mpr ⟨n, j, s', hid, hn, hj, hs'⟩

theorem Full.mono (hs : Step b b') (hfull : Full b) : Full b' := le_trans hfull hs.constants.length_le

/-- **What a request was answered with stays its answer.** -/
theorem Answered.mono (h : Inv b) (hs : Step b b') (hanswer : Answered b id r) : Answered b' id r := by
  rcases hanswer with hknown | ⟨hid, hfull, hnone⟩
  · exact Or.inl (hknown.mono h hs)
  · exact Or.inr ⟨hid, hfull.mono hs, fun id' hid' => hnone id' (hid'.full h hs hfull)⟩

/-! ### What the maps know -/

theorem means_plain {c c' : Constant} (h : r.plain = some c) : Means b c' r ↔ r.plain = some c' := by
  cases r with
  | string => cases h
  | table => cases h
  | _ => exact Iff.rfl

theorem Known.refers (h : Inv b) (hknown : Known b id r) : Refers b id r := by
  obtain ⟨c, hc⟩ | ⟨s, rfl⟩ | ⟨s, rfl⟩ := plain_or r
  · obtain ⟨k, hk, hv⟩ := (known_plain hc).mp hknown
    obtain ⟨n, c', hid, hn, hc'⟩ := (h.keys k id).mp hv
    obtain rfl := key_injective hk hc'
    exact ⟨n, c, hid, hn, (means_plain hc).mpr hc⟩
  · obtain ⟨k, hk, hv⟩ := hknown
    obtain ⟨n, c, hid, hn, hc⟩ := (h.keys _ id).mp hv
    obtain rfl : c = .Type_String k := key_injective hc rfl
    refine ⟨n, _, hid, hn, k, rfl, fun s' => ⟨fun hs' => h.stringsInjective s' s k hs' hk, ?_⟩⟩
    rintro rfl
    exact hk
  · obtain ⟨n, j, s', hid, hn, hj, hs'⟩ := (h.shapes s id).mp hknown
    exact ⟨n, _, hid, hn, j, s', rfl, hj, (shape_beq_iff s' s).mp hs'⟩

theorem Known.congr (hsame : r.Same r') (hknown : Known b id r) : Known b id r' := by
  obtain ⟨c, hc⟩ | ⟨s, rfl⟩ | ⟨s, rfl⟩ := plain_or r
  · have heq : r = r' := by
      cases r with
      | string => cases hc
      | table => cases hc
      | _ => exact hsame
    rwa [← heq]
  · have heq : Request.string s = r' := hsame
    rwa [← heq]
  · cases r' with
    | table s' => exact (valueOf_congr ((shape_beq_iff s s').mpr hsame)).symm.trans hknown
    | _ => cases hsame

theorem Request.Same.symm (h : r.Same r') : r'.Same r := by
  cases r with
  | table s =>
    cases r' with
    | table s' => exact Eq.symm h
    | _ => cases h
  | _ =>
    have heq := h.symm
    subst heq
    exact rfl

theorem Known.unique (hknown : Known b id r) (hknown' : Known b id' r) : id = id' := by
  obtain ⟨c, hc⟩ | ⟨s, rfl⟩ | ⟨s, rfl⟩ := plain_or r
  · obtain ⟨k, hk, hv⟩ := (known_plain hc).mp hknown
    obtain ⟨k', hk', hv'⟩ := (known_plain hc).mp hknown'
    obtain rfl := Option.some.inj (hk.symm.trans hk')
    exact Option.some.inj (hv.symm.trans hv')
  · obtain ⟨k, hk, hv⟩ := hknown
    obtain ⟨k', hk', hv'⟩ := hknown'
    obtain rfl := Option.some.inj (hk.symm.trans hk')
    exact Option.some.inj (hv.symm.trans hv')
  · exact Option.some.inj (Eq.trans (Eq.symm hknown) hknown')

theorem plain_injective {c : Constant} (h : r.plain = some c) (h' : r'.plain = some c) : r = r' := by
  cases r <;> cases h <;> cases r' <;> cases h' <;> rfl

theorem means_string {k : ℕ} (h : Means b (.Type_String k) r) :
    ∃ s, r = .string s ∧ ∀ s', b.stringTable.valueOf stringTraits s' = some k ↔ s' = s := by
  cases r with
  | string s =>
    obtain ⟨k', hk, hs⟩ := h
    rw [← Constant.Type_String.inj hk] at hs
    exact ⟨s, rfl, hs⟩
  | table s =>
    obtain ⟨j, s', hj, -⟩ := h
    cases hj
  | _ => cases h

theorem means_table {j : ℕ} (h : Means b (.Type_Table j) r) :
    ∃ s s', r = .table s ∧ b.tableShapes[j]? = some s' ∧ s'.listed = s.listed := by
  cases r with
  | string s =>
    obtain ⟨k, hk, -⟩ := h
    cases hk
  | table s =>
    obtain ⟨j', s', hj, hs'⟩ := h
    rw [← Constant.Type_Table.inj hj] at hs'
    exact ⟨s, s', rfl, hs'⟩
  | _ => cases h

theorem means_other {c : Constant} (hstring : ∀ k, c ≠ .Type_String k) (htable : ∀ j, c ≠ .Type_Table j) (h : Means b c r) :
    r.plain = some c := by
  obtain ⟨c', hc⟩ | ⟨s, rfl⟩ | ⟨s, rfl⟩ := plain_or r
  · exact (means_plain hc).mp h
  · obtain ⟨k, hk, -⟩ := h
    exact absurd hk (hstring k)
  · obtain ⟨j, s', hj, -⟩ := h
    exact absurd hj (htable j)

/-- **A constant is one thing only.** -/
theorem Means.unique {c : Constant} (h : Means b c r) (h' : Means b c r') : r.Same r' := by
  by_cases hstring : ∃ k, c = .Type_String k
  · obtain ⟨k, rfl⟩ := hstring
    obtain ⟨s, rfl, hs⟩ := means_string h
    obtain ⟨s', rfl, hs'⟩ := means_string h'
    exact congrArg Request.string ((hs' s).mp ((hs s).mpr rfl))
  by_cases htable : ∃ j, c = .Type_Table j
  · obtain ⟨j, rfl⟩ := htable
    obtain ⟨s, t, rfl, ht, hs⟩ := means_table h
    obtain ⟨s', t', rfl, ht', hs'⟩ := means_table h'
    obtain rfl := Option.some.inj (ht.symm.trans ht')
    exact hs.symm.trans hs'
  · have hplain := means_other (fun k hk => hstring ⟨k, hk⟩) (fun j hj => htable ⟨j, hj⟩) h
    have hplain' := means_other (fun k hk => hstring ⟨k, hk⟩) (fun j hj => htable ⟨j, hj⟩) h'
    obtain rfl := plain_injective hplain hplain'
    cases r with
    | table => cases hplain
    | _ => exact rfl

/-- An index refers to one thing only. -/
theorem Refers.unique (h : Refers b id r) (h' : Refers b id r') : r.Same r' := by
  obtain ⟨n, c, rfl, hn, hc⟩ := h
  obtain ⟨n', c', hid, hn', hc'⟩ := h'
  obtain rfl := Int.ofNat.inj hid
  obtain rfl := Option.some.inj (hn.symm.trans hn')
  exact hc.unique hc'

end Answers

/-! ### Runs -/

section Runs

variable {ClassShape : Type} {b b' : BytecodeBuilder ClassShape}

/-- The states of a builder -/
inductive Begun : BytecodeBuilder ClassShape → Prop
  | make : Begun BytecodeBuilder.make
  | call {b b' : BytecodeBuilder ClassShape} {room : ℕ → Bool} {c : Call ClassShape} {id : ℤ} (h : Begun b)
      (hrun : b.call room c = .ok (id, b')) : Begun b'
  | endFunction {b : BytecodeBuilder ClassShape} (h : Begun b) : Begun b.endFunction

theorem inv_make : Inv (BytecodeBuilder.make : BytecodeBuilder ClassShape) where
  constantMap := bare_ok _ _
  constantEmpty := rfl
  shapeMap := bare_ok _ _
  shapeEmpty := rfl
  stringTable := bare_ok _ _
  stringEmpty := rfl
  keys k id := by
    constructor
    · intro hk
      cases hk
    · rintro ⟨n, c, -, hn, -⟩
      cases hn
  shapes s id := by
    constructor
    · intro hs
      cases hs
    · rintro ⟨n, j, s', -, hn, -⟩
      cases hn
  tables n j hn := by cases hn
  strings s k hs := by cases hs
  stringsInjective s s' k hs := by cases hs
  stringsUsed n k hn := by cases hn

theorem Inv.endFunction (h : Inv b) : Inv b.endFunction := by
  obtain ⟨hok, hnil, hempty⟩ := clear_ok h.constantMap thresholdToDestroy
  obtain ⟨hok', hnil', hempty'⟩ := clear_ok h.shapeMap thresholdToDestroy
  exact {
    constantMap := hok
    constantEmpty := hempty.trans h.constantEmpty
    shapeMap := hok'
    shapeEmpty := hempty'.trans h.shapeEmpty
    stringTable := h.stringTable
    stringEmpty := h.stringEmpty
    keys := fun k id => by
      show (b.constantMap.clear constantTraits thresholdToDestroy).valueOf constantTraits k = some id ↔ _
      rw [valueOf_nil hnil]
      constructor
      · intro hk
        cases hk
      · rintro ⟨n, c, -, hn, -⟩
        cases hn
    shapes := fun s id => by
      show (b.tableShapeMap.clear shapeTraits thresholdToDestroy).valueOf shapeTraits s = some id ↔ _
      rw [valueOf_nil hnil']
      constructor
      · intro hs
        cases hs
      · rintro ⟨n, j, s', -, hn, -⟩
        cases hn
    tables := fun n j hn => by cases hn
    strings := h.strings
    stringsInjective := h.stringsInjective
    stringsUsed := fun n k hn => by cases hn }

def Call.Legal : Call ClassShape → Prop
  | .add r => r.Legal
  | .classShape _ => True

/-- **A call** -/
theorem call_step (h : Inv b) (room : ℕ → Bool) (c : Call ClassShape) :
    (∃ e, b.call room c = .error e ∧ (e = .badalloc ∨ ¬c.Legal)) ∨
      ∃ id b', b.call room c = .ok (id, b') ∧ Step b b' ∧ ∀ r, c = .add r → Answered b' id r := by
  cases c with
  | add r =>
    obtain hbad | ⟨id, b', hrun, hstep, hanswer⟩ := request_step h room r
    · exact Or.inl hbad
    · refine Or.inr ⟨id, b', hrun, hstep, ?_⟩
      rintro r' hr'
      rw [← Call.add.inj hr']
      exact hanswer
  | classShape shape =>
    refine Or.inr ⟨_, _, rfl, addClassShape_step h shape, ?_⟩
    intro r hr
    cases hr

theorem Begun.inv (h : Begun b) : Inv b := by
  induction h with
  | make => exact inv_make
  | @call b b' room c id _ hrun ih =>
    obtain ⟨e, hbad, -⟩ | ⟨id', b'', hgood, hstep, -⟩ := call_step ih room c
    · rw [hrun] at hbad
      cases hbad
    · rw [hrun] at hgood
      obtain ⟨rfl, rfl⟩ := Prod.mk.inj (Except.ok.inj hgood)
      exact hstep.inv
  | endFunction _ ih => exact ih.endFunction

/-- A run: by induction over the calls, the answers of the calls before stay. -/
theorem run_steps (calls : List (Call ClassShape × (ℕ → Bool))) : ∀ b : BytecodeBuilder ClassShape, Inv b →
    (∃ e, BytecodeBuilder.run calls b = .error e ∧ (e = .badalloc ∨ ∃ c ∈ calls, ¬c.1.Legal)) ∨
      ∃ ids b', BytecodeBuilder.run calls b = .ok (ids, b') ∧ Step b b' ∧
        List.Forall₂ (fun c id => ∀ r, c.1 = Call.add r → Answered b' id r) calls ids := by
  induction calls with
  | nil => exact fun b h => Or.inr ⟨[], b, rfl, Step.rfl h, List.Forall₂.nil⟩
  | cons c calls ih =>
    intro b h
    rw [BytecodeBuilder.run]
    obtain ⟨e, hbad, he⟩ | ⟨id, b', hrun, hstep, hanswer⟩ := call_step h c.2 c.1
    · rw [hbad]
      exact Or.inl ⟨e, rfl, he.imp_right fun hc => ⟨c, List.mem_cons_self, hc⟩⟩
    · rw [hrun]
      obtain ⟨e, hbad, he⟩ | ⟨ids, b'', hrest, hsteps, hanswers⟩ := ih b' hstep.inv
      · refine Or.inl ⟨e, ?_, ?_⟩
        · show (BytecodeBuilder.run calls b' >>= _) = _
          rw [hbad]
          rfl
        · rcases he with he | ⟨c', hc', hillegal⟩
          · exact Or.inl he
          · exact Or.inr ⟨c', List.mem_cons_of_mem _ hc', hillegal⟩
      · refine Or.inr ⟨id :: ids, b'', ?_, hstep.trans hsteps, ?_⟩
        · show (BytecodeBuilder.run calls b' >>= _) = _
          rw [hrest]
          rfl
        · exact List.Forall₂.cons (fun r hr => (hanswer r hr).mono hstep.inv hsteps) hanswers

theorem forall₂_get {α β : Type} {R : α → β → Prop} {l : List α} {l' : List β} (h : List.Forall₂ R l l') {n : ℕ} {x : α} {y : β}
    (hx : l[n]? = some x) (hy : l'[n]? = some y) : R x y := by
  obtain ⟨hn, rfl⟩ := List.getElem?_eq_some_iff.mp hx
  obtain ⟨hn', rfl⟩ := List.getElem?_eq_some_iff.mp hy
  exact List.Forall₂.get h hn hn'

/-- Two answers: the same constant has the same index. -/
theorem Answered.same {id id' : ℤ} {r r' : Request} (hr : Answered b id r) (hr' : Answered b id' r')
    (hsame : r.Same r') : id = id' := by
  rcases hr with hknown | ⟨hid, -, hnone⟩
  · rcases hr' with hknown' | ⟨-, -, hnone'⟩
    · exact (hknown.congr hsame).unique hknown'
    · exact absurd (hknown.congr hsame) (hnone' id)
  · rcases hr' with hknown' | ⟨hid', -, -⟩
    · exact absurd (hknown'.congr hsame.symm) (hnone id')
    · exact hid.trans hid'.symm

/-- Two answers that are indices: one index is one constant. -/
theorem Answered.unique {id : ℤ} {r r' : Request} (h : Inv b) (hr : Answered b id r) (hr' : Answered b id r') (hid : id ≠ -1) :
    r.Same r' := by
  rcases hr with hknown | ⟨hno, -, -⟩
  · rcases hr' with hknown' | ⟨hno, -, -⟩
    · exact (hknown.refers h).unique (hknown'.refers h)
    · exact absurd hno hid
  · exact absurd hno hid

/-- Both zeros, and one string twice -/
def zeros : List (Call Unit × (ℕ → Bool)) :=
  [.number 0, .number 0x8000000000000000, .string (some [0x61]), .string (some [0x61])].map fun r => (.add r, fun _ => true)

theorem zeros_run : ((BytecodeBuilder.run zeros .make).toOption.map Prod.fst) = some [0, 1, 2, 2] := by decide +kernel

end Runs

end Luwu.Bytecode
