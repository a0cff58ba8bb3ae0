import Luwu.LuauConfig.Serialize
import Mathlib.Data.List.Perm.Subperm
import Mathlib.Data.List.OfFn

/-!
# The array of globals

The keys of the array are cut to indices before they are checked. An array with keys that have a fraction is accepted
when the indices that they are cut to are in range.
-/

namespace Luwu.LuauConfig

open Floating

/-- `static_cast<size_t>`. Where it is not defined it gives no index of an array, whatever it gives. -/
def toIndex (key : Double) : ℕ := if key.isFinite then key.truncate.toNat else 0

/-- The loop of `createLuauConfigFromLuauTable` for `globals` -/
def setGlobal (size : ℕ) (globals : List Text) (e : Key × ConfigValue) : Except Text (List Text) :=
  match e.1 with
  | .string _ => .error "configuration array \"globals\" must only have numeric keys".toList
  | .number key =>
    if toIndex key < 1 ∨ size < toIndex key then
      .error "configuration array \"globals\" contains invalid numeric key".toList
    else
      match e.2 with
      | .string global => .ok (globals.set (toIndex key - 1) global)
      | _ => .error "configuration value in \"globals\" table must be a string".toList

def readGlobals (table : ConfigTable) : Except Text (List Text) :=
  table.foldlM (setGlobal table.length) (List.replicate table.length [])

/-- The keys of the table are the integers from one on, once each, and `globals` are the values in their order. -/
structure Lists (table : ConfigTable) (globals : List Text) : Prop where
  size : globals.length = table.length
  entry : ∀ i : Fin globals.length, ∃ key : Double,
    (Key.number key, ConfigValue.string (globals.get i)) ∈ table ∧ Datum.IsInt key (i + 1)

/-- An entry that is accepted -/
def Accepted (size : ℕ) (e : Key × ConfigValue) : Prop :=
  ∃ key global, e = (.number key, .string global) ∧ 1 ≤ toIndex key ∧ toIndex key ≤ size

/-- A key without a fraction -/
def Integral (key : Key) : Prop := ∃ n a, key = .number n ∧ Datum.IsInt n a

section Globals

variable {size : ℕ} {table es : ConfigTable} {globals globals' : List Text} {e : Key × ConfigValue}

theorem setGlobal_number (key : Double) (value : ConfigValue) :
    setGlobal size globals (.number key, value) =
      if toIndex key < 1 ∨ size < toIndex key then
        .error "configuration array \"globals\" contains invalid numeric key".toList
      else
        match value with
        | .string global => .ok (globals.set (toIndex key - 1) global)
        | _ => .error "configuration value in \"globals\" table must be a string".toList := rfl

theorem setGlobal_ok (h : setGlobal size globals e = .ok globals') :
    ∃ key global, e = (.number key, .string global) ∧ 1 ≤ toIndex key ∧ toIndex key ≤ size ∧
      globals' = globals.set (toIndex key - 1) global := by
  match e with
  | (.string _, _) => cases h
  | (.number key, value) =>
    by_cases hrange : toIndex key < 1 ∨ size < toIndex key
    · rw [setGlobal_number, if_pos hrange] at h
      cases h
    · rw [setGlobal_number, if_neg hrange] at h
      cases value with
      | string global =>
        cases h
        exact ⟨key, global, rfl, by omega, by omega, rfl⟩
      | number | boolean | table => cases h

theorem setGlobal_accepted (h : Accepted size e) : ∃ globals', setGlobal size globals e = .ok globals' := by
  obtain ⟨key, global, rfl, hlow, hhigh⟩ := h
  refine ⟨globals.set (toIndex key - 1) global, ?_⟩
  rw [setGlobal_number, if_neg (by omega)]

/-- After the loop every place has the value of an entry with its index, or what it had when there is none. -/
theorem globals_run (h : es.foldlM (setGlobal size) globals = .ok globals') :
    (∀ e ∈ es, Accepted size e) ∧ globals'.length = globals.length ∧
      ∀ i, (∃ key global, (Key.number key, ConfigValue.string global) ∈ es ∧ toIndex key = i + 1 ∧
          globals'[i]? = (globals[i]?).map fun _ => global) ∨
        (∀ key global, (Key.number key, ConfigValue.string global) ∈ es → toIndex key ≠ i + 1) ∧
          globals'[i]? = globals[i]? := by
  induction es generalizing globals with
  | nil =>
    cases h
    exact ⟨fun _ he => absurd he List.not_mem_nil, rfl, fun i => Or.inr ⟨fun _ _ he => absurd he List.not_mem_nil, rfl⟩⟩
  | cons e es ih =>
    rw [List.foldlM_cons] at h
    obtain ⟨globals₁, hstep, hrest⟩ := Run.of_bind_ok h
    obtain ⟨key, global, rfl, hlow, hhigh, rfl⟩ := setGlobal_ok hstep
    obtain ⟨haccepted, hlen, hplaces⟩ := ih hrest
    refine ⟨?_, hlen.trans List.length_set, fun i => ?_⟩
    · intro e he
      rcases List.mem_cons.mp he with rfl | he
      · exact ⟨key, global, rfl, hlow, hhigh⟩
      · exact haccepted e he
    · rcases hplaces i with ⟨key', global', hmem, hindex, hvalue⟩ | ⟨hnone, hvalue⟩
      · refine Or.inl ⟨key', global', List.mem_cons_of_mem _ hmem, hindex, hvalue.trans ?_⟩
        rw [List.getElem?_set]
        split
        · rename_i heq
          rw [← heq]
          split
          · rename_i hlt
            rw [List.getElem?_eq_getElem hlt]
            rfl
          · rename_i hlt
            rw [List.getElem?_eq_none (by omega)]
        · rfl
      · by_cases hindex : toIndex key = i + 1
        · refine Or.inl ⟨key, global, List.mem_cons_self, hindex, hvalue.trans ?_⟩
          have hi : toIndex key - 1 = i := by omega
          rw [hi]
          by_cases hlt : i < globals.length
          · rw [List.getElem?_set_self hlt, List.getElem?_eq_getElem hlt]
            rfl
          · rw [List.getElem?_eq_none (by rw [List.length_set]; omega), List.getElem?_eq_none (by omega)]
            rfl
        · refine Or.inr ⟨fun key' global' hmem => ?_, hvalue.trans (List.getElem?_set_ne (by omega))⟩
          rcases List.mem_cons.mp hmem with heq | hmem
          · obtain rfl : key' = key := Key.number.inj (congrArg Prod.fst heq)
            exact hindex
          · exact hnone key' global' hmem

theorem globals_accepted (h : ∀ e ∈ es, Accepted size e) : ∃ globals', es.foldlM (setGlobal size) globals = .ok globals' := by
  induction es generalizing globals with
  | nil => exact ⟨globals, rfl⟩
  | cons e es ih =>
    obtain ⟨globals₁, hstep⟩ := @setGlobal_accepted _ globals _ (h e List.mem_cons_self)
    obtain ⟨globals', hrest⟩ := @ih globals₁ fun e' he' => h e' (List.mem_cons_of_mem _ he')
    refine ⟨globals', ?_⟩
    rw [List.foldlM_cons, hstep]
    exact hrest

theorem toIndex_isInt {key : Double} {a : ℤ} (h : Datum.IsInt key a) : toIndex key = a.toNat := by
  unfold toIndex
  rw [if_pos h.finite, h.truncate]

/-- A table that lists its values has no other entries. -/
theorem lists_entries (h : Lists table globals) (he : e ∈ table) :
    ∃ (i : Fin globals.length) (key : Double), e = (.number key, .string (globals.get i)) ∧ Datum.IsInt key (i + 1) := by
  choose key hmem hint using h.entry
  have hnodup : (List.ofFn fun i => (Key.number (key i), ConfigValue.string (globals.get i))).Nodup := by
    rw [List.nodup_ofFn]
    intro i j hij
    have hkeys : key i = key j := Key.number.inj (congrArg Prod.fst hij)
    have hi := (hint i).value
    rw [hkeys, (hint j).value] at hi
    have hval : ((j : ℕ) : ℤ) + 1 = ((i : ℕ) : ℤ) + 1 := by exact_mod_cast hi
    exact Fin.ext (by omega)
  have hsub : (List.ofFn fun i => (Key.number (key i), ConfigValue.string (globals.get i))) ⊆ table := by
    intro e he
    obtain ⟨i, rfl⟩ := List.mem_ofFn.mp he
    exact hmem i
  have hperm := (List.subperm_of_subset hnodup hsub).perm_of_length_le (by rw [List.length_ofFn, h.size])
  obtain ⟨i, hi⟩ := List.mem_ofFn.mp (hperm.mem_iff.mpr he)
  exact ⟨i, key i, hi.symm, hint i⟩

theorem entry_unique (hdistinct : (table.map Prod.fst).Nodup) {e' : Key × ConfigValue} (he : e ∈ table)
    (he' : e' ∈ table) (h : e.1 = e'.1) : e = e' :=
  List.inj_on_of_nodup_map hdistinct he he' h

theorem isInt_of_index {key : Double} {i : ℕ} (hint : Integral (.number key)) (h : toIndex key = i + 1) :
    Datum.IsInt key (i + 1) := by
  obtain ⟨n, a, hn, ha⟩ := hint
  obtain rfl : key = n := Key.number.inj hn
  have hindex := toIndex_isInt ha
  obtain rfl : a = i + 1 := by omega
  exact ha

def keyIndex : Key → ℕ
  | .number key => toIndex key
  | .string _ => 0

/-- With integers for its keys a table of accepted entries has every index. -/
theorem index_mem (hdistinct : (table.map Prod.fst).Nodup) (haccepted : ∀ e ∈ table, Accepted table.length e)
    (hintegral : ∀ e ∈ table, Integral e.1) {i : ℕ} (hi : i < table.length) :
    ∃ key global, (Key.number key, ConfigValue.string global) ∈ table ∧ toIndex key = i + 1 := by
  have hnodup : (table.map fun e => keyIndex e.1).Nodup := by
    refine (List.nodup_map_iff_inj_on hdistinct.of_map).mpr fun e he e' he' heq => ?_
    obtain ⟨key, global, rfl, hlow, -⟩ := haccepted e he
    obtain ⟨key', global', rfl, -, -⟩ := haccepted e' he'
    obtain ⟨j, hj⟩ : ∃ j, toIndex key = j + 1 := ⟨toIndex key - 1, by omega⟩
    have hint := isInt_of_index (hintegral _ he) hj
    have hint' := isInt_of_index (hintegral _ he') (Eq.trans (Eq.symm heq) hj)
    apply entry_unique hdistinct he he'
    exact congrArg Key.number (hint.unique hint' (by omega))
  have hsub : (table.map fun e => keyIndex e.1) ⊆ List.range' 1 table.length := by
    intro x hx
    obtain ⟨e, he, rfl⟩ := List.mem_map.mp hx
    obtain ⟨key, global, rfl, hlow, hhigh⟩ := haccepted e he
    exact List.mem_range'_1.mpr ⟨hlow, by show toIndex key < 1 + table.length; omega⟩
  have hperm := (List.subperm_of_subset hnodup hsub).perm_of_length_le (by rw [List.length_map, List.length_range'])
  have hmem : i + 1 ∈ table.map fun e => keyIndex e.1 :=
    hperm.mem_iff.mpr (List.mem_range'_1.mpr ⟨by omega, by omega⟩)
  obtain ⟨e, he, hindex⟩ := List.mem_map.mp hmem
  obtain ⟨key, global, rfl, -, -⟩ := haccepted e he
  exact ⟨key, global, he, hindex⟩

theorem readGlobals_lists (hdistinct : (table.map Prod.fst).Nodup) (hintegral : ∀ e ∈ table, Integral e.1)
    (h : readGlobals table = .ok globals) : Lists table globals := by
  obtain ⟨haccepted, hlen, hplaces⟩ := globals_run h
  rw [List.length_replicate] at hlen
  refine ⟨hlen, fun i => ?_⟩
  have hi : (i : ℕ) < table.length := Nat.lt_of_lt_of_eq i.isLt hlen
  rcases hplaces i with ⟨key, global, hmem, hindex, hvalue⟩ | ⟨hnone, -⟩
  · rw [List.getElem?_replicate, if_pos hi, List.getElem?_eq_getElem i.isLt] at hvalue
    obtain rfl : globals.get i = global := Option.some.inj hvalue
    exact ⟨key, hmem, isInt_of_index (hintegral _ hmem) hindex⟩
  · obtain ⟨key, global, hmem, hindex⟩ := index_mem hdistinct haccepted hintegral hi
    exact absurd hindex (hnone key global hmem)

theorem lists_unique (hdistinct : (table.map Prod.fst).Nodup) (h : Lists table globals) (h' : Lists table globals') :
    globals = globals' := by
  apply List.ext_getElem (h.size.trans h'.size.symm)
  intro i hi hi'
  obtain ⟨key, hmem, hint⟩ := h.entry ⟨i, hi⟩
  obtain ⟨key', hmem', hint'⟩ := h'.entry ⟨i, hi'⟩
  obtain rfl : key = key' := hint.unique hint' (by omega)
  have hentries := entry_unique hdistinct hmem hmem' rfl
  exact ConfigValue.string.inj (congrArg Prod.snd hentries)

/-- The array is read as it should be exactly when no accepted array has a key with a fraction. -/
theorem globals_iff (hdistinct : (table.map Prod.fst).Nodup) :
    (∀ globals, readGlobals table = .ok globals ↔ Lists table globals) ↔
      ((∀ e ∈ table, Accepted table.length e) → ∀ e ∈ table, Integral e.1) := by
  constructor
  · intro h haccepted e he
    obtain ⟨globals, hrun⟩ := @globals_accepted _ _ (List.replicate table.length []) haccepted
    obtain ⟨i, key, rfl, hint⟩ := lists_entries ((h globals).mp hrun) he
    exact ⟨key, _, rfl, hint⟩
  · intro h globals
    constructor
    · intro hrun
      exact readGlobals_lists hdistinct (h (globals_run hrun).1) hrun
    · intro hlists
      have hentries : ∀ e ∈ table, Accepted table.length e ∧ Integral e.1 := by
        intro e he
        obtain ⟨i, key, rfl, hint⟩ := lists_entries hlists he
        have hi : (i : ℕ) < table.length := Nat.lt_of_lt_of_eq i.isLt hlists.size
        have hindex := toIndex_isInt hint
        exact ⟨⟨key, _, rfl, by omega, by omega⟩, key, _, rfl, hint⟩
      obtain ⟨globals', hrun⟩ := @globals_accepted _ _ (List.replicate table.length [])
        fun e he => (hentries e he).1
      have hlists' := readGlobals_lists hdistinct (fun e he => (hentries e he).2) hrun
      rw [lists_unique hdistinct hlists hlists']
      exact hrun

end Globals

/-! ### Extraction -/

section Samples

/-- One table, with one entry -/
def oneEntry (key value : Value) (hkey : key ≠ .nil) : Heap where
  entries := fun _ => [(key, value)]
  distinct := fun _ => List.nodup_singleton _
  keys := fun _ h => hkey (List.mem_singleton.mp h).symm

/-- A table that contains itself -/
def selfHeap : Heap := oneEntry (.string "self".toList) (.table 0) nofun

theorem selfHeap_not_plain (room : ℕ) : ¬Plain selfHeap room (selfHeap.entries 0) := by
  induction room using Nat.strong_induction_on with
  | _ room ih =>
    intro h
    cases h with
    | scalar _ _ hscalar _ => exact hscalar
    | table h4 _ hinner _ => exact ih (room - 3) (by omega) hinner

/-- One and a half -/
def threeHalves : Double := .num false ⟨1023 * 2 ^ 52 + 2 ^ 51, by decide⟩

theorem threeHalves_value : threeHalves.value = 3 / 2 := by
  have hscaled : scaled 52 (1023 * 2 ^ 52 + 2 ^ 51) = 3 * 2 ^ 51 * 2 ^ 1022 := by
    have hdiv : (1023 * 2 ^ 52 + 2 ^ 51) / 2 ^ 52 = 1023 := by norm_num
    have hmod : (1023 * 2 ^ 52 + 2 ^ 51) % 2 ^ 52 = 2 ^ 51 := by norm_num
    have hsum : 2 ^ 52 + 2 ^ 51 = 3 * 2 ^ 51 := by norm_num
    rw [scaled_of_le (by norm_num), hdiv, hmod, hsum, show 1023 - 1 = 1022 from rfl]
  show ((scaled 52 (1023 * 2 ^ 52 + 2 ^ 51) : ℕ) : ℚ) / 2 ^ 1074 = 3 / 2
  have hpow : (2 : ℚ) ^ 1074 = 2 ^ 52 * 2 ^ 1022 := by rw [← pow_add]
  rw [hscaled, hpow, Nat.cast_mul, Nat.cast_pow, Nat.cast_ofNat, mul_div_mul_right _ _ (by positivity)]
  norm_num

end Samples

end Luwu.LuauConfig
