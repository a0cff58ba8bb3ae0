import Mathlib.Data.Fintype.EquivFin
import Luwu.Normal.Parts

/-!
# The string part

`unionStrings`, `intersectStrings` and the subtype test of string types, and which of them are those of sets.
-/

namespace Luwu.Normal

namespace NormalizedStringType

/-- A key goes if it is there, and comes if it is not. -/
def toggle (singletons : List String) (name : String) : List String :=
  if singletons.contains name then singletons.filter (· != name) else singletons.insert name

def unionStrings (here there : NormalizedStringType) : NormalizedStringType :=
  if there.isString then .string
  else if !here.isCofinite && !there.isCofinite then there.singletons.foldl insert here
  else if !here.isCofinite && there.isCofinite then ⟨true, there.singletons.foldl toggle here.singletons⟩
  else if here.isCofinite && !there.isCofinite then there.singletons.foldl erase here
  else { here with singletons := here.singletons.filter there.singletons.contains }

def intersectStrings (here there : NormalizedStringType) : NormalizedStringType :=
  if there.isString then here
  else if here.isString then { there with isCofinite := here.isCofinite && there.isCofinite }
  else if here.isCofinite && there.isCofinite then there.singletons.foldl insert { here with isCofinite := true }
  else if !here.isCofinite && there.isCofinite then there.singletons.foldl erase { here with isCofinite := false }
  else if here.isCofinite && !there.isCofinite then here.singletons.foldl erase ⟨false, there.singletons⟩
  else
    let result := there.singletons.foldl insert here
    ⟨false, result.singletons.filter fun name => here.singletons.contains name && there.singletons.contains name⟩

/-- `isSubtype(const NormalizedStringType& subStr, const NormalizedStringType& superStr)` -/
def isSubtype (subStr superStr : NormalizedStringType) : Bool :=
  if !subStr.isCofinite && (!superStr.isCofinite && !superStr.isNever) then subStr.singletons.all superStr.singletons.contains
  else if subStr.isString && !superStr.isCofinite then false
  else true

/-- The new string of a union -/
def add (s : NormalizedStringType) (name : String) : NormalizedStringType := if s.isCofinite then s.erase name else s.insert name

/-- `subtractSingleton` -/
def subtract (s : NormalizedStringType) (name : String) : NormalizedStringType := if s.isCofinite then s.insert name else s.erase name

def negate (s : NormalizedStringType) : NormalizedStringType := { s with isCofinite := !s.isCofinite }

end NormalizedStringType

section Strings

open NormalizedStringType

variable {here there s : NormalizedStringType} {l names : List String} {str name : String}

/-! ### The loops -/

theorem has_finite (l : List String) : (NormalizedStringType.mk false l).Has str ↔ str ∈ l := Iff.rfl

theorem has_cofinite (l : List String) : (NormalizedStringType.mk true l).Has str ↔ str ∉ l := Iff.rfl

theorem foldl_insert (names : List String) (s : NormalizedStringType) :
    (names.foldl insert s).isCofinite = s.isCofinite ∧ ∀ str, str ∈ (names.foldl insert s).singletons ↔ str ∈ names ∨ str ∈ s.singletons := by
  induction names generalizing s with
  | nil => exact ⟨rfl, fun str => by simp⟩
  | cons name names ih =>
    obtain ⟨hcofinite, hmem⟩ := ih (s.insert name)
    refine ⟨hcofinite, fun str => ?_⟩
    rw [List.foldl_cons, hmem, List.mem_cons]
    simp only [NormalizedStringType.insert, List.mem_insert_iff]
    tauto

theorem foldl_erase (names : List String) (s : NormalizedStringType) :
    (names.foldl erase s).isCofinite = s.isCofinite ∧ ∀ str, str ∈ (names.foldl erase s).singletons ↔ str ∉ names ∧ str ∈ s.singletons := by
  induction names generalizing s with
  | nil => exact ⟨rfl, fun str => by simp⟩
  | cons name names ih =>
    obtain ⟨hcofinite, hmem⟩ := ih (s.erase name)
    refine ⟨hcofinite, fun str => ?_⟩
    rw [List.foldl_cons, hmem, List.mem_cons]
    simp only [NormalizedStringType.erase, List.mem_filter, bne_iff_ne]
    tauto

theorem mem_toggle : str ∈ toggle l name ↔ (str ∈ l ↔ str ≠ name) := by
  unfold toggle
  by_cases hmem : name ∈ l
  · rw [if_pos (List.contains_iff_mem.mpr hmem), List.mem_filter, bne_iff_ne]
    by_cases hs : str = name
    · subst hs
      tauto
    · tauto
  · rw [if_neg (by rwa [List.contains_iff_mem]), List.mem_insert_iff]
    by_cases hs : str = name
    · subst hs
      tauto
    · tauto

/-- The keys of one map, and of the other, but not of both -/
theorem mem_foldl_toggle (hkeys : names.Nodup) : str ∈ names.foldl toggle l ↔ (str ∈ l ↔ str ∉ names) := by
  induction names generalizing l with
  | nil => simp
  | cons name names ih =>
    obtain ⟨hname, hkeys⟩ := List.nodup_cons.mp hkeys
    rw [List.foldl_cons, ih hkeys, mem_toggle, List.mem_cons]
    by_cases hs : str = name
    · subst hs
      tauto
    · tauto

/-! ### Intersection -/

/-- **The intersection** is the one of sets. -/
theorem has_intersectStrings : (intersectStrings here there).Has str ↔ here.Has str ∧ there.Has str := by
  unfold intersectStrings
  by_cases hstring : there.isString = true
  · rw [if_pos hstring, isString_iff.mp hstring]
    simp
  rw [if_neg hstring]
  by_cases hstring' : here.isString = true
  · rw [if_pos hstring', isString_iff.mp hstring']
    simp [NormalizedStringType.Has, NormalizedStringType.string]
  rw [if_neg hstring']
  obtain ⟨cofinite, l⟩ := here
  obtain ⟨cofinite', l'⟩ := there
  have hinsert := foldl_insert l' ⟨cofinite, l⟩
  have herase := foldl_erase l' ⟨cofinite, l⟩
  have herase' := foldl_erase l ⟨false, l'⟩
  cases cofinite with
  | true =>
    cases cofinite' with
    | true =>
      simp only [Bool.and_self, if_true, NormalizedStringType.Has, hinsert.1, hinsert.2, not_or]
      exact and_comm
    | false =>
      simp only [Bool.and_false, Bool.not_true, Bool.not_false, Bool.and_true, Bool.false_eq_true, if_true, if_false,
        NormalizedStringType.Has, herase'.1, herase'.2]
  | false =>
    cases cofinite' with
    | true =>
      simp only [Bool.and_true, Bool.not_false, Bool.and_self, Bool.false_eq_true, if_true, if_false, NormalizedStringType.Has, herase.1,
        herase.2]
      exact and_comm
    | false =>
      simp only [Bool.and_self, Bool.and_false, Bool.false_and, Bool.false_eq_true, if_false, NormalizedStringType.Has, List.mem_filter,
        hinsert.2, Bool.and_eq_true, List.contains_iff_mem]
      tauto

/-! ### Union -/

/-- The strings of a finite type that the other does not name are lost. -/
def UnionLoses (here there : NormalizedStringType) : Prop :=
  here.isCofinite = false ∧ there.isCofinite = true ∧ there.isString = false ∧ ¬ here.singletons ⊆ there.singletons

/-- **The union** is the one of sets, unless it loses strings. -/
theorem has_unionStrings_iff (hkeys : there.singletons.Nodup) :
    (∀ str, (unionStrings here there).Has str ↔ here.Has str ∨ there.Has str) ↔ ¬ UnionLoses here there := by
  unfold unionStrings UnionLoses
  by_cases hstring : there.isString = true
  · rw [if_pos hstring, isString_iff.mp hstring]
    refine iff_of_true (fun str => ?_) (fun h => by simp [isString, NormalizedStringType.string] at h)
    rw [strings_string, or_true]
  rw [if_neg hstring]
  rw [Bool.not_eq_true] at hstring
  obtain ⟨cofinite, l⟩ := here
  obtain ⟨cofinite', l'⟩ := there
  have hinsert := foldl_insert l' ⟨cofinite, l⟩
  have herase := foldl_erase l' ⟨cofinite, l⟩
  have htoggle : ∀ str, str ∈ l'.foldl toggle l ↔ (str ∈ l ↔ str ∉ l') := fun str => mem_foldl_toggle hkeys
  cases cofinite with
  | true =>
    refine iff_of_true (fun str => ?_) (fun h => by simp at h)
    cases cofinite' with
    | true =>
      simp only [Bool.not_true, Bool.and_self, Bool.and_true, Bool.and_false, Bool.false_eq_true, if_false,
        NormalizedStringType.Has, if_true, List.mem_filter, List.contains_iff_mem]
      tauto
    | false =>
      simp only [Bool.not_true, Bool.not_false, Bool.and_true, Bool.and_self, Bool.false_eq_true, if_false, if_true,
        NormalizedStringType.Has, herase.1, herase.2]
      tauto
  | false =>
    cases cofinite' with
    | true =>
      simp only [Bool.not_false, Bool.not_true, Bool.and_self, Bool.and_false, Bool.false_eq_true, if_false, if_true,
        NormalizedStringType.Has, htoggle, hstring, true_and, not_not]
      constructor
      · intro h str hl
        have := h str
        tauto
      · intro h str
        have := @h str
        tauto
    | false =>
      refine iff_of_true (fun str => ?_) (fun h => by simp at h)
      simp only [Bool.not_false, Bool.and_self, if_true, NormalizedStringType.Has, hinsert.1, hinsert.2, Bool.false_eq_true, if_false]
      exact or_comm

/-! ### Subtypes -/

theorem exists_fresh (l : List String) : ∃ str, str ∉ l := by
  obtain ⟨str, hstr⟩ := Infinite.exists_notMem_finset l.toFinset
  exact ⟨str, fun h => hstr (List.mem_toFinset.mpr h)⟩

/-- The subtype test answers yes for what is no subset. -/
def SubtypeMisses (sub super : NormalizedStringType) : Prop :=
  match sub.isCofinite, super.isCofinite with
  | false, false => super.singletons = [] ∧ sub.singletons ≠ []
  | false, true => ∃ name ∈ sub.singletons, name ∈ super.singletons
  | true, false => sub.singletons ≠ []
  | true, true => ¬ super.singletons ⊆ sub.singletons

/-- **The subtype test** is inclusion, unless it misses something. -/
theorem isSubtype_iff (sub super : NormalizedStringType) :
    (isSubtype sub super = true ↔ ∀ str, sub.Has str → super.Has str) ↔ ¬ SubtypeMisses sub super := by
  obtain ⟨cofinite, l⟩ := sub
  obtain ⟨cofinite', l'⟩ := super
  cases cofinite with
  | false =>
    cases cofinite' with
    | false =>
      simp only [SubtypeMisses, isSubtype, isNever, isString, has_finite]
      cases l' with
      | nil => simp [List.eq_nil_iff_forall_not_mem]
      | cons name' l' => simp
    | true =>
      simp only [SubtypeMisses, isSubtype, isNever, isString, has_finite, has_cofinite]
      simp
  | true =>
    cases cofinite' with
    | false =>
      simp only [SubtypeMisses, isSubtype, isNever, isString, has_finite, has_cofinite]
      have hnot : ¬ ∀ str, str ∉ l → str ∈ l' := by
        obtain ⟨str, hstr⟩ := exists_fresh (l ++ l')
        rw [List.mem_append, not_or] at hstr
        exact fun h => hstr.2 (h str hstr.1)
      cases l with
      | nil => simpa using hnot
      | cons name l => simpa using hnot
    | true =>
      simp only [SubtypeMisses, isSubtype, isNever, isString, has_cofinite, not_imp_not]
      simp [List.subset_def]

/-! ### The algebra -/

/-- The operations are those of sets. -/
structure Boolean (here there : NormalizedStringType) : Prop where
  union : ∀ str, (unionStrings here there).Has str ↔ here.Has str ∨ there.Has str
  inter : ∀ str, (intersectStrings here there).Has str ↔ here.Has str ∧ there.Has str
  compl : ∀ str, here.negate.Has str ↔ ¬ here.Has str
  member : ∀ str, here.includes str = true ↔ here.Has str
  added : ∀ name str, (here.add name).Has str ↔ here.Has str ∨ name = str
  subtracted : ∀ name str, (here.subtract name).Has str ↔ here.Has str ∧ str ≠ name
  subset : isSubtype here there = true ↔ ∀ str, here.Has str → there.Has str

/-- **The string part is a Boolean algebra** exactly where the union loses nothing and the subtype test misses nothing.  The keys of a
map are distinct. -/
theorem strings_boolean_iff (here : NormalizedStringType) (hkeys : there.singletons.Nodup) :
    Boolean here there ↔ ¬ UnionLoses here there ∧ ¬ SubtypeMisses here there := by
  constructor
  · intro h
    exact ⟨(has_unionStrings_iff hkeys).mp h.union, (isSubtype_iff here there).mp h.subset⟩
  · rintro ⟨hunion, hsubtype⟩
    exact ⟨(has_unionStrings_iff hkeys).mpr hunion, fun _ => has_intersectStrings, fun _ => strings_flip, fun _ => includes_iff,
      fun _ _ => strings_add, fun _ _ => strings_subtract, (isSubtype_iff here there).mpr hsubtype⟩

theorem strings_boolean_sample : Boolean ⟨false, ["a"]⟩ ⟨true, []⟩ :=
  (strings_boolean_iff _ (by decide)).mpr ⟨fun h => absurd h.2.2.1 (by decide), fun ⟨_, _, h⟩ => by simp at h⟩

/-- `"a"` is not in the union of `"a"` and `string & ~"b"`, and `string & ~"a"` counts as a subtype of `"b"`. -/
theorem strings_not_boolean : (unionStrings ⟨false, ["a"]⟩ ⟨true, ["b"]⟩).includes "a" = false ∧
    isSubtype ⟨true, ["a"]⟩ ⟨false, ["b"]⟩ = true ∧ ¬ ∀ here there : NormalizedStringType, Boolean here there := by
  refine ⟨by decide, by decide, fun h => ?_⟩
  have hmember := (h ⟨false, ["a"]⟩ ⟨true, ["b"]⟩).union "a"
  rw [← includes_iff] at hmember
  exact absurd (hmember.mpr (Or.inl (List.mem_singleton.mpr rfl))) (by decide)

end Strings

end Luwu.Normal
