import Luwu.Normal.Operations
import Luwu.Normal.Sound

/-!
# Back to types

`typeFromNormal` gives a type with the values of the normal form, part by part.
-/

namespace Luwu.Normal

open Normalizer

variable {Class Obj : Type} {W : Classes Class Obj} {N : Normalizer Class} {n : NormalizedType Class}
  {kind t : Ty Class} {s : NormalizedStringType} {e : NormalizedExternType Class} {v : Value Obj}

theorem hasSome_singleton : Ty.HasSome W [t] v ↔ t.Has W v := or_iff_left id

theorem hasSome_typeOfPart : Ty.HasSome W (typeOfPart t) v ↔ t.Has W v := by
  unfold typeOfPart
  split
  · next hnever =>
    rw [isNever_iff.mp hnever]
    rfl
  · exact hasSome_singleton

/-- The type that stands for a part is the type of the kind. -/
theorem hasSome_kind (h : IsPart kind t) :
    Ty.HasSome W (if t.isNever then [] else [kind]) v ↔ t.Has W v := by
  obtain rfl | rfl := h
  · rfl
  · split
    · next hnever =>
      rw [isNever_iff.mp hnever]
      rfl
    · exact hasSome_singleton

theorem hasSome_function {b : Bool} : Ty.HasSome W (if b then [(.primitive .function : Ty Class)] else []) v ↔
    b = true ∧ PrimitiveType.function.Has v := by
  cases b with
  | false => exact ⟨False.elim, fun h => Bool.noConfusion h.1⟩
  | true => exact hasSome_singleton.trans (and_iff_right rfl).symm

theorem has_singleton_string {str : String} : SingletonType.Has (.string str) v ↔ v = .string str := by
  cases v <;> simp [SingletonType.Has, eq_comm]

theorem has_string : PrimitiveType.string.Has v ↔ ∃ str, v = .string str := by
  cases v <;> simp [PrimitiveType.Has]

theorem hasSome_typesOfStrings : Ty.HasSome W (typesOfStrings s) v ↔ ∃ str, v = .string str ∧ s.Has str := by
  unfold typesOfStrings
  split
  · next hstring =>
    rw [isString_iff.mp hstring, hasSome_singleton]
    simp only [has_primitive, has_string, strings_string, and_true]
  · split
    · next hfinite =>
      have hcofinite : s.isCofinite = false := by simpa using hfinite
      rw [hasSome_iff]
      simp only [List.mem_map, exists_exists_and_eq_and, has_singleton, has_singleton_string,
        NormalizedStringType.Has, hcofinite]
      apply exists_congr
      intro str
      rw [and_comm]
      simp
    · next hfinite =>
      have hcofinite : s.isCofinite = true := by simpa using hfinite
      rw [hasSome_singleton]
      simp only [has_intersection, List.forall_mem_cons, List.forall_mem_map, has_primitive, has_string,
        has_negation, has_singleton, has_singleton_string, NormalizedStringType.Has, hcofinite, if_true]
      constructor
      · rintro ⟨⟨str, rfl⟩, hnot⟩
        exact ⟨str, rfl, fun hmem => (hnot str hmem).2 rfl⟩
      · rintro ⟨str, rfl, hnot⟩
        refine ⟨⟨str, rfl⟩, fun str' hmem => ⟨by simp, ?_⟩⟩
        intro heq
        cases heq
        exact hnot hmem

theorem has_typeOfExtern {p : Class × List Class} :
    (typeOfExtern p).Has W v ↔ ∃ o, v = .object o ∧ W.instanceOf o p.1 ∧ ∀ c ∈ p.2, ¬ W.instanceOf o c := by
  obtain ⟨c, negations⟩ := p
  unfold typeOfExtern
  split
  · next hempty =>
    rw [List.isEmpty_iff.mp hempty]
    simp
  · simp only [has_intersection, List.forall_mem_cons, List.forall_mem_map, has_externType, has_negation]
    constructor
    · rintro ⟨⟨o, rfl, ho⟩, hnot⟩
      exact ⟨o, rfl, ho, fun c' hc hinstance => (hnot c' hc).2 ⟨o, rfl, hinstance⟩⟩
    · rintro ⟨o, rfl, ho, hnot⟩
      refine ⟨⟨o, rfl, ho⟩, fun c' hc => ⟨by simp, ?_⟩⟩
      rintro ⟨o', heq, hinstance⟩
      cases heq
      exact hnot c' hc hinstance

/-- One type, or the union of several -/
theorem hasSome_parts {ts : List (Ty Class)} :
    Ty.HasSome W (match ts with | [] => [] | [t] => [t] | parts => [.union parts]) v ↔ Ty.HasSome W ts v := by
  split
  · rfl
  · rfl
  · exact hasSome_singleton

theorem hasSome_typesOfExterns [DecidableEq Class] (hroots : N.nominalRoots = W.roots) :
    Ty.HasSome W (N.typesOfExterns e) v ↔ ∃ o, v = .object o ∧ e.Has W o := by
  unfold typesOfExterns
  split
  · next htop =>
    rw [hroots] at htop ⊢
    rw [hasSome_iff]
    simp only [List.mem_map, exists_exists_and_eq_and, has_externType]
    constructor
    · rintro ⟨c, -, o, hv, -⟩
      exact ⟨o, hv, externs_isTop htop⟩
    · rintro ⟨o, hv, -⟩
      obtain ⟨c, hc, ho⟩ := W.rooted o
      exact ⟨c, hc, o, hv, ho⟩
  · refine hasSome_parts.trans ?_
    rw [hasSome_iff]
    simp only [List.mem_map, exists_exists_and_eq_and, has_typeOfExtern, NormalizedExternType.Has]
    constructor
    · rintro ⟨p, hp, o, hv, ho⟩
      exact ⟨o, hv, p, hp, ho⟩
    · rintro ⟨o, hv, p, hp, ho⟩
      exact ⟨p, hp, o, hv, ho⟩

/-- The type of a list of parts is never, the part, or their union. -/
theorem has_result {ts : List (Ty Class)} :
    (match ts with | [] => Ty.never | [t] => t | _ => .union ts).Has W v ↔ Ty.HasSome W ts v := by
  split
  · rfl
  · exact hasSome_singleton.symm
  · rfl

theorem typeFromNormal_ok [DecidableEq Class] (hroots : N.nominalRoots = W.roots) (h : Normalized n)
    (v : Value Obj) : (N.typeFromNormal n).Has W v ↔ n.Has W v := by
  unfold typeFromNormal
  split
  · next htops => exact (h.has_tops fun hnever => by simp [hnever, Ty.isNever] at htops).symm
  · next htops =>
    have hnever : n.tops = .never := isNever_iff.mp (by simpa using htops)
    refine has_result.trans ?_
    simp only [hasSome_append, hasSome_typeOfPart, hasSome_typesOfExterns hroots, hasSome_function,
      hasSome_typesOfStrings, hasSome_kind h.threads, hasSome_kind h.buffers, hasSome_kind h.nones,
      NormalizedType.Has, hnever, has_never, false_or]
    apply iff_of_eq
    ac_rfl

end Luwu.Normal

/-!
## Normalizing any type

What `normalize` makes of a good type, its complement and the type it gives back, and that the order and the
grouping of options and parts do not matter to the values.
-/

namespace Luwu.Normal

open Normalizer

variable {Class Obj : Type} {W : Classes Class Obj} {N : Normalizer Class} {n : NormalizedType Class}
  {t u : Ty Class} {ts us vs : List (Ty Class)} {v : Value Obj}

/-! ### Order and grouping -/

/-- Options and parts in another order or in other groups, at any depth. -/
inductive Rearranged : Ty Class → Ty Class → Prop where
  | refl (t : Ty Class) : Rearranged t t
  | symm {t u : Ty Class} (h : Rearranged t u) : Rearranged u t
  | trans {t u w : Ty Class} (h : Rearranged t u) (h' : Rearranged u w) : Rearranged t w
  | options {ts us : List (Ty Class)} (h : ts.Perm us) : Rearranged (.union ts) (.union us)
  | parts {ts us : List (Ty Class)} (h : ts.Perm us) : Rearranged (.intersection ts) (.intersection us)
  | groupOptions (ts us vs : List (Ty Class)) :
      Rearranged (.union (ts ++ us ++ vs)) (.union (ts ++ .union us :: vs))
  | groupParts (ts us vs : List (Ty Class)) :
      Rearranged (.intersection (ts ++ us ++ vs)) (.intersection (ts ++ .intersection us :: vs))
  | option {t u : Ty Class} (ts vs : List (Ty Class)) (h : Rearranged t u) :
      Rearranged (.union (ts ++ t :: vs)) (.union (ts ++ u :: vs))
  | part {t u : Ty Class} (ts vs : List (Ty Class)) (h : Rearranged t u) :
      Rearranged (.intersection (ts ++ t :: vs)) (.intersection (ts ++ u :: vs))
  | negation {t u : Ty Class} (h : Rearranged t u) : Rearranged (.negation t) (.negation u)

theorem Rearranged.has (h : Rearranged t u) : t.Has W v ↔ u.Has W v := by
  induction h with
  | refl t => exact Iff.rfl
  | symm _ ih => exact ih.symm
  | trans _ _ ih ih' => exact ih.trans ih'
  | options h => exact hasSome_perm h
  | parts h => exact hasAll_perm h
  | groupOptions ts us vs =>
    show Ty.HasSome W _ v ↔ Ty.HasSome W _ v
    rw [hasSome_append, hasSome_append, hasSome_append, or_assoc]
    rfl
  | groupParts ts us vs =>
    show Ty.HasAll W _ v ↔ Ty.HasAll W _ v
    rw [hasAll_append, hasAll_append, hasAll_append, and_assoc]
    rfl
  | option ts vs _ ih =>
    show Ty.HasSome W _ v ↔ Ty.HasSome W _ v
    rw [hasSome_append, hasSome_append]
    exact or_congr_right (or_congr_left ih)
  | part ts vs _ ih =>
    show Ty.HasAll W _ v ↔ Ty.HasAll W _ v
    rw [hasAll_append, hasAll_append]
    exact and_congr_right fun _ => and_congr_left fun _ => ih
  | negation _ ih => exact and_congr_right fun _ => not_congr ih

/-! ### Any type -/

variable [DecidableEq Class]

theorem normalize_ok (hN : Exact W N) (hgood : t.Good W N.oneTableWithExtern) :
    ∃ n, N.normalize t = some n ∧ Yields W n (fun v => t.Has W v) t.Calm := by
  obtain ⟨norm, hrun, hyields⟩ := unionTy_ok hN t .never hgood normalized_never
  obtain ⟨hn, hkeep, hsame⟩ := normalized_ok (W := W) hN hyields.normalized
  refine ⟨N.normalized norm, ?_, hn, fun v hv => ?_, fun hcalm => ?_⟩
  · unfold Normalizer.normalize
    rw [hrun]
    rfl
  · rw [hsame v, hyields.has v hv, or_iff_right has_never_form]
  · exact hkeep (hyields.errors ⟨hcalm, rfl⟩)

omit [DecidableEq Class] in
/-- With the errors in it, a normal form that is no top has nothing but the errors for its negation. -/
theorem negateNormal_errors (htops : n.tops = .never) (herrors : n.errors ≠ .never) :
    N.negateNormal n = some { NormalizedType.never with errors := n.errors } := by
  unfold Normalizer.negateNormal
  rw [if_neg (by simp [htops, Ty.isNever]), if_pos (isNever_not herrors)]

/-- A class with one object. -/
def oneClass : Classes Unit Unit where
  instanceOf _ _ := True
  roots := [()]
  rooted := fun _ => ⟨(), List.mem_singleton_self (), trivial⟩

def unionStringSets (s s' : NormalizedStringType) : NormalizedStringType :=
  match s.isCofinite, s'.isCofinite with
  | false, false => ⟨false, s.singletons ++ s'.singletons⟩
  | false, true => ⟨true, s'.singletons.filter (!s.singletons.contains ·)⟩
  | true, false => ⟨true, s.singletons.filter (!s'.singletons.contains ·)⟩
  | true, true => ⟨true, s.singletons.filter s'.singletons.contains⟩

def complementStrings (s : NormalizedStringType) : NormalizedStringType := { s with isCofinite := !s.isCofinite }

/-- The operations on sets, for one class. -/
def oneClassNormalizer : Normalizer Unit where
  nominalRoots := [()]
  oneTableWithExtern := true
  unionExternTypesWithExternType e c := ⟨(c, []) :: e.externTypes⟩
  unionExternTypes e e' := ⟨e.externTypes ++ e'.externTypes⟩
  intersectExternTypesWithExternType e _ := e
  intersectExternTypes e e' :=
    ⟨e.externTypes.flatMap fun p => e'.externTypes.map fun q => (p.1, p.2 ++ q.2)⟩
  negateExternTypes e := if e.externTypes.any (·.2.isEmpty) then .never else .top [()]
  unionStrings := unionStringSets
  intersectStrings s s' := complementStrings (unionStringSets (complementStrings s) (complementStrings s'))

theorem has_unionStringSets {s s' : NormalizedStringType} {str : String} :
    (unionStringSets s s').Has str ↔ s.Has str ∨ s'.Has str := by
  unfold unionStringSets
  cases hs : s.isCofinite <;> cases hs' : s'.isCofinite <;>
    simp [NormalizedStringType.Has, hs, hs', imp_iff_not_or, or_comm]

theorem has_oneClass {e : NormalizedExternType Unit} {o : Unit} :
    e.Has oneClass o ↔ ∃ p ∈ e.externTypes, p.2 = [] := by
  unfold NormalizedExternType.Has
  apply exists_congr
  intro p
  apply and_congr_right
  intro _
  rw [List.eq_nil_iff_forall_not_mem]
  simp [oneClass]

theorem exact_oneClass : Exact oneClass oneClassNormalizer where
  roots := rfl
  unionExternTypesWithExternType e c o := by
    simp only [has_oneClass]
    simp [oneClassNormalizer, oneClass]
  unionExternTypes e e' o := by
    simp only [has_oneClass, oneClassNormalizer, List.mem_append, or_and_right, exists_or]
  intersectExternTypesWithExternType e c o := (and_iff_left trivial).symm
  intersectExternTypes e e' o := by
    simp only [has_oneClass]
    simp [oneClassNormalizer]
  negateExternTypes e _ o := by
    simp only [has_oneClass]
    simp only [oneClassNormalizer]
    split
    · next hany => simpa [NormalizedExternType.never] using hany
    · next hany => simpa [NormalizedExternType.top] using hany
  unionStrings _ _ _ := has_unionStringSets
  intersectStrings s s' str := by
    show (complementStrings _).Has str ↔ _
    rw [complementStrings, strings_flip, has_unionStringSets, complementStrings, complementStrings, strings_flip,
      strings_flip, not_or, not_not, not_not]

end Luwu.Normal
