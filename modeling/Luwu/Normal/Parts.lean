import Luwu.Normal.Form

/-!
# The operations on normal forms

Every operation on the parts keeps their form and does to their values what it does to the normal form.
-/

namespace Luwu.Normal

open Normalizer

variable {Class Obj : Type} {W : Classes Class Obj} {N : Normalizer Class}
  {n here there : NormalizedType Class} {kind t u : Ty Class} {p : PrimitiveType} {v : Value Obj} {b : Bool}

/-! ### Parts of one kind -/

theorem isPart_union (h : IsPart kind t) (h' : IsPart kind u) : IsPart kind (unionOfParts t u) := by
  unfold unionOfParts
  split
  · exact h
  · exact h'

theorem has_unionOfParts (h : IsPart kind t) (h' : IsPart kind u) :
    (unionOfParts t u).Has W v ↔ t.Has W v ∨ u.Has W v := by
  obtain rfl | rfl := h'
  · simp [unionOfParts, Ty.isNever]
  · unfold unionOfParts
    split
    · next hnever =>
      have hu : ¬ u.Has W v := by
        cases u with
        | never => exact id
        | _ => cases hnever
      simp only [hu, or_false]
    · constructor
      · exact Or.inr
      · rintro (hv | hv)
        · exact h.has hv
        · exact hv

theorem isPart_intersection (h : IsPart kind t) (h' : IsPart kind u) : IsPart kind (intersectionOfParts t u) := by
  unfold intersectionOfParts
  split
  · exact h'
  · exact h

theorem has_intersectionOfParts (h : IsPart kind t) (h' : IsPart kind u) :
    (intersectionOfParts t u).Has W v ↔ t.Has W v ∧ u.Has W v := by
  obtain rfl | rfl := h'
  · simp [intersectionOfParts, Ty.isNever]
  · unfold intersectionOfParts
    split
    · next hnever =>
      cases u with
      | never => simp
      | _ => cases hnever
    · constructor
      · intro hv
        exact ⟨hv, h.has hv⟩
      · exact And.left

theorem isPart_negate : IsPart (.primitive p) (negateOfPart t p) := by
  unfold negateOfPart
  split
  · exact Or.inr rfl
  · exact Or.inl rfl

theorem has_negateOfPart (h : IsPart (.primitive p) t) (hp : p.Has v) :
    (negateOfPart t p).Has W v ↔ ¬ t.Has W v := by
  obtain rfl | rfl := h
  · simp [negateOfPart, Ty.isNever, hp]
  · simp [negateOfPart, Ty.isNever, hp]

/-! ### Booleans -/

theorem isBools_cases (h : IsBools t) :
    t = .never ∨ t = .primitive .boolean ∨ ∃ b, t = .singleton (.boolean b) := by
  obtain (rfl | rfl) | hb := h
  · exact Or.inl rfl
  · exact Or.inr (Or.inl rfl)
  · exact Or.inr (Or.inr hb)

theorem isBools_never : IsBools (.never : Ty Class) := Or.inl (Or.inl rfl)

theorem isBools_boolean : IsBools (.primitive .boolean : Ty Class) := Or.inl (Or.inr rfl)

theorem isBools_singleton (b : Bool) : IsBools (.singleton (.boolean b) : Ty Class) := Or.inr ⟨b, rfl⟩

theorem isBools_union (h : IsBools t) (h' : IsBools u) : IsBools (unionOfBools t u) := by
  unfold unionOfBools
  split
  · exact h'
  · split
    · exact h
    · split
      · split
        · exact h
        · exact isBools_boolean
      · exact isBools_boolean

theorem has_unionOfBools (h : IsBools t) (h' : IsBools u) :
    (unionOfBools t u).Has W (.boolean b) ↔ t.Has W (.boolean b) ∨ u.Has W (.boolean b) := by
  obtain rfl | rfl | ⟨c, rfl⟩ := isBools_cases h <;> obtain rfl | rfl | ⟨d, rfl⟩ := isBools_cases h' <;>
    simp [unionOfBools, Ty.isNever, Ty.booleanSingleton?, PrimitiveType.Has]
  cases c <;> cases d <;> cases b <;> simp [SingletonType.Has, PrimitiveType.Has]

theorem isBools_intersection (h : IsBools t) (h' : IsBools u) : IsBools (intersectionOfBools t u) := by
  unfold intersectionOfBools
  split
  · exact h
  · split
    · exact h'
    · split
      · split
        · split
          · exact h
          · exact isBools_never
        · exact h
      · exact h'

theorem has_intersectionOfBools (h : IsBools t) (h' : IsBools u) :
    (intersectionOfBools t u).Has W (.boolean b) ↔ t.Has W (.boolean b) ∧ u.Has W (.boolean b) := by
  obtain rfl | rfl | ⟨c, rfl⟩ := isBools_cases h <;> obtain rfl | rfl | ⟨d, rfl⟩ := isBools_cases h' <;>
    simp [intersectionOfBools, Ty.isNever, Ty.booleanSingleton?, PrimitiveType.Has]
  cases c <;> cases d <;> cases b <;> simp [SingletonType.Has]

theorem isBools_negate (h : IsBools t) : IsBools (negateBools t) := by
  obtain rfl | rfl | ⟨c, rfl⟩ := isBools_cases h
  · exact isBools_boolean
  · exact isBools_never
  · exact isBools_singleton _

theorem has_negateBools (h : IsBools t) : (negateBools t).Has W (.boolean b) ↔ ¬ t.Has W (.boolean b) := by
  obtain rfl | rfl | ⟨c, rfl⟩ := isBools_cases h
  · simp [negateBools, PrimitiveType.Has]
  · simp [negateBools, PrimitiveType.Has]
  · cases c <;> cases b <;> simp [negateBools, SingletonType.Has]

theorem isBools_subtract (h : IsBools t) (c : Bool) : IsBools (subtractBoolean t c) := by
  obtain rfl | rfl | ⟨d, rfl⟩ := isBools_cases h
  · exact isBools_never
  · exact isBools_singleton _
  · show IsBools (if c == d then .never else .singleton (.boolean d))
    split
    · exact isBools_never
    · exact isBools_singleton d

theorem has_subtractBoolean (h : IsBools t) (c : Bool) :
    (subtractBoolean t c).Has W (.boolean b) ↔ t.Has W (.boolean b) ∧ b ≠ c := by
  obtain rfl | rfl | ⟨d, rfl⟩ := isBools_cases h
  · simp [subtractBoolean]
  · cases b <;> cases c <;> simp [subtractBoolean, PrimitiveType.Has, SingletonType.Has]
  · cases b <;> cases c <;> cases d <;> simp [subtractBoolean, SingletonType.Has]

/-! ### Strings -/

section Strings

variable {s : NormalizedStringType} {str str' : String}

@[simp] theorem strings_never : NormalizedStringType.never.Has str ↔ False := by
  simp [NormalizedStringType.Has, NormalizedStringType.never]

@[simp] theorem strings_string : NormalizedStringType.string.Has str ↔ True := by
  simp [NormalizedStringType.Has, NormalizedStringType.string]

theorem strings_add : (if s.isCofinite then s.erase str' else s.insert str').Has str ↔ s.Has str ∨ str' = str := by
  cases hcofinite : s.isCofinite with
  | true =>
    simp only [NormalizedStringType.Has, NormalizedStringType.erase, hcofinite, if_true, List.mem_filter,
      bne_iff_ne, ne_eq, not_and, not_not]
    constructor
    · intro h
      by_cases hmem : str ∈ s.singletons
      · exact Or.inr (h hmem).symm
      · exact Or.inl hmem
    · rintro (h | h) hmem
      · exact absurd hmem h
      · exact h.symm
  | false =>
    simp only [NormalizedStringType.Has, NormalizedStringType.insert, hcofinite, Bool.false_eq_true, if_false,
      List.mem_insert_iff]
    rw [or_comm, eq_comm]

theorem strings_subtract :
    (if s.isCofinite then s.insert str' else s.erase str').Has str ↔ s.Has str ∧ str ≠ str' := by
  cases hcofinite : s.isCofinite with
  | true =>
    simp only [NormalizedStringType.Has, NormalizedStringType.insert, hcofinite, if_true, List.mem_insert_iff, not_or]
    exact and_comm
  | false =>
    simp only [NormalizedStringType.Has, NormalizedStringType.erase, hcofinite, Bool.false_eq_true, if_false,
      List.mem_filter, bne_iff_ne]

theorem strings_flip : ({ s with isCofinite := !s.isCofinite } : NormalizedStringType).Has str ↔ ¬ s.Has str := by
  cases hcofinite : s.isCofinite with
  | true => simp [NormalizedStringType.Has, hcofinite]
  | false => simp [NormalizedStringType.Has, hcofinite]

theorem includes_iff : s.includes str = true ↔ s.Has str := by
  obtain ⟨cofinite, singletons⟩ := s
  cases cofinite with
  | true =>
    cases singletons with
    | nil => simp [NormalizedStringType.includes, NormalizedStringType.isString, NormalizedStringType.Has]
    | cons a as => simp [NormalizedStringType.includes, NormalizedStringType.isString, NormalizedStringType.Has]
  | false => simp [NormalizedStringType.includes, NormalizedStringType.isString, NormalizedStringType.Has]

theorem isString_iff : s.isString = true ↔ s = .string := by
  obtain ⟨cofinite, singletons⟩ := s
  simp [NormalizedStringType.isString, NormalizedStringType.string]

end Strings

/-! ### Classes -/

section Externs

variable {e : NormalizedExternType Class} {o : Obj}

@[simp] theorem externs_never : (NormalizedExternType.never : NormalizedExternType Class).Has W o ↔ False := by
  simp [NormalizedExternType.Has, NormalizedExternType.never]

theorem externs_of_isNever (h : e.isNever = true) : ¬ e.Has W o := by
  obtain ⟨l⟩ := e
  obtain rfl : l = [] := List.isEmpty_iff.mp h
  rintro ⟨p, hp, _⟩
  cases hp

@[simp] theorem externs_single {c : Class} : (NormalizedExternType.single c).Has W o ↔ W.instanceOf o c := by
  simp [NormalizedExternType.Has, NormalizedExternType.single]

theorem externs_top : (NormalizedExternType.top W.roots).Has W o := by
  obtain ⟨r, hr, ho⟩ := W.rooted o
  refine ⟨(r, []), List.mem_map.mpr ⟨r, hr, rfl⟩, ho, ?_⟩
  intro n hn
  cases hn

theorem externs_isTop [DecidableEq Class] (h : e.isTop W.roots = true) : e.Has W o := by
  obtain ⟨r, hr, ho⟩ := W.rooted o
  unfold NormalizedExternType.isTop at h
  have hlookup := List.all_eq_true.mp (Bool.and_eq_true_iff.mp h).2 r hr
  obtain ⟨before, after, hsplit, _⟩ := List.lookup_eq_some_iff.mp (beq_iff_eq.mp hlookup)
  refine ⟨(r, []), ?_, ho, ?_⟩
  · rw [hsplit]
    exact List.mem_append_right _ List.mem_cons_self
  · intro n hn
    cases hn

end Externs

/-! ### Tables -/

theorem unionTables_cases (h : here.tables = [] ∨ here.tables = [.primitive .table])
    (h' : there.tables = [] ∨ there.tables = [.primitive .table]) :
    unionTables here.tables there.tables = [] ∧ here.tables = [] ∧ there.tables = [] ∨
      unionTables here.tables there.tables = [.primitive .table] ∧
        (here.tables = [.primitive .table] ∨ there.tables = [.primitive .table]) := by
  obtain h' | h' := h'
  · rw [h']
    obtain h | h := h
    · exact Or.inl ⟨h, h, rfl⟩
    · exact Or.inr ⟨h, Or.inl h⟩
  · rw [h']
    exact Or.inr ⟨rfl, Or.inr rfl⟩

end Luwu.Normal
