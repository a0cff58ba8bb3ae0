import Luwu.Normal.Parts

/-!
# Unions, intersections and complements of normal forms

The operations on whole normal forms, up to the error value where the code keeps it.
-/

namespace Luwu.Normal

open Normalizer

variable {Class Obj : Type} {W : Classes Class Obj} {N : Normalizer Class}
  {n here there : NormalizedType Class} {t : Ty Class} {p : PrimitiveType} {v : Value Obj}

/-! ### Tops -/

theorem normalized_never : Normalized (.never : NormalizedType Class) where
  tops := Or.inl rfl
  booleans := isBools_never
  errors := Or.inl rfl
  nils := Or.inl rfl
  numbers := Or.inl rfl
  integers := Or.inl rfl
  threads := Or.inl rfl
  buffers := Or.inl rfl
  nones := Or.inl rfl
  tables := Or.inl rfl
  alone := fun h => absurd rfl h

theorem normalized_top (h : t = .never ∨ t = .unknown ∨ t = .any) : Normalized (.top t : NormalizedType Class) where
  tops := h
  booleans := isBools_never
  errors := Or.inl rfl
  nils := Or.inl rfl
  numbers := Or.inl rfl
  integers := Or.inl rfl
  threads := Or.inl rfl
  buffers := Or.inl rfl
  nones := Or.inl rfl
  tables := Or.inl rfl
  alone := fun _ => rfl

/-- A normal form that is never but for its tops has no part. -/
theorem part_top : ¬ (NormalizedType.top t).Part W v := by
  cases v <;> simp [NormalizedType.Part, NormalizedType.top, NormalizedType.never, Ty.HasSome]

theorem has_never_form : ¬ (NormalizedType.never : NormalizedType Class).Has W v := by
  rw [normalized_never.has_iff]
  rintro (hv | hv)
  · exact hv
  · exact part_top (t := .never) hv

theorem has_top (h : t = .never ∨ t = .unknown ∨ t = .any) : (NormalizedType.top t).Has W v ↔ t.Has W v := by
  rw [(normalized_top h).has_iff]
  constructor
  · rintro (hv | hv)
    · exact hv
    · exact absurd hv part_top
  · exact Or.inl

theorem Normalized.has_tops (h : Normalized n) (htops : n.tops ≠ .never) : n.Has W v ↔ n.tops.Has W v := by
  rw [h.alone htops]
  exact has_top h.tops

theorem Normalized.has_parts (h : Normalized n) (htops : n.tops = .never) : n.Has W v ↔ n.Part W v := by
  rw [h.has_iff, htops, has_never, false_or]

/-- A top has every run-time value. -/
theorem Normalized.has_of_tops (h : Normalized n) (htops : n.tops ≠ .never) (hv : v ≠ .error) : n.Has W v := by
  rw [h.has_tops htops]
  obtain he | he | he := h.tops
  · exact absurd he htops
  · rw [he]
    exact hv
  · rw [he]
    exact trivial

theorem isNever_iff : t.isNever = true ↔ t = .never := by
  cases t <;> simp [Ty.isNever]

theorem isUnknown_iff : t.isUnknown = true ↔ t = .unknown := by
  cases t <;> simp [Ty.isUnknown]

theorem isPrim_iff : t.isPrim p = true ↔ t = .primitive p := by
  cases t <;> simp [Ty.isPrim]

theorem Normalized.has_error (h : Normalized n) : n.Has W .error ↔ n.tops = .any ∨ n.errors = .error := by
  rw [h.has_iff]
  obtain ht | ht | ht := h.tops <;> obtain he | he := h.errors <;> simp [NormalizedType.Part, ht, he]

/-! ### Unions -/

/-- The tops of a union, with the error value. -/
def topsOfUnion (here there : NormalizedType Class) : Ty Class :=
  if (unionOfTops here.tops there.tops).isUnknown && (here.errors.isError || there.errors.isError) then .any
  else unionOfTops here.tops there.tops

theorem topsOfUnion_cases (h : Normalized here) (h' : Normalized there) :
    topsOfUnion here there = .never ∨ topsOfUnion here there = .unknown ∨ topsOfUnion here there = .any := by
  unfold topsOfUnion
  split
  · exact Or.inr (Or.inr rfl)
  · unfold unionOfTops
    split
    · exact h'.tops
    · exact h.tops

theorem topsOfUnion_never (h : Normalized here) (h' : Normalized there) :
    topsOfUnion here there = .never ↔ here.tops = .never ∧ there.tops = .never := by
  obtain ht | ht | ht := h.tops <;> obtain ht' | ht' | ht' := h'.tops <;>
    simp [topsOfUnion, unionOfTops, Ty.isNever, Ty.isAny, Ty.isUnknown, ht, ht'] <;> split <;> simp

theorem topsOfUnion_any (h : Normalized here) (h' : Normalized there) (htops : topsOfUnion here there ≠ .never) :
    topsOfUnion here there = .any ↔ (here.tops = .any ∨ here.errors = .error) ∨ there.tops = .any ∨ there.errors = .error := by
  have hne := mt (topsOfUnion_never h h').mpr htops
  have halone : here.tops ≠ .never → here.errors = .never := fun hn => by rw [h.alone hn]; rfl
  have halone' : there.tops ≠ .never → there.errors = .never := fun hn => by rw [h'.alone hn]; rfl
  obtain ht | ht | ht := h.tops <;> obtain ht' | ht' | ht' := h'.tops <;>
    obtain he | he := h.errors <;> obtain he' | he' := h'.errors <;>
    simp_all [topsOfUnion, unionOfTops, Ty.isNever, Ty.isAny, Ty.isUnknown, Ty.isError]

theorem has_topsOfUnion (h : Normalized here) (h' : Normalized there) (htops : topsOfUnion here there ≠ .never) :
    (topsOfUnion here there).Has W v ↔ here.Has W v ∨ there.Has W v := by
  by_cases hv : v = .error
  · subst hv
    rw [h.has_error, h'.has_error, ← topsOfUnion_any h h' htops]
    obtain he | he | he := topsOfUnion_cases h h'
    · exact absurd he htops
    · simp [he]
    · simp [he]
  · have hleft : (topsOfUnion here there).Has W v := by
      obtain he | he | he := topsOfUnion_cases h h'
      · exact absurd he htops
      · rw [he]
        exact hv
      · rw [he]
        exact trivial
    have hright : here.Has W v ∨ there.Has W v := by
      by_cases ht : here.tops = .never
      · right
        exact h'.has_of_tops (fun ht' => htops ((topsOfUnion_never h h').mpr ⟨ht, ht'⟩)) hv
      · exact Or.inl (h.has_of_tops ht hv)
    exact ⟨fun _ => hright, fun _ => hleft⟩

/-- The union of normal forms that are no tops. -/
def unionOfAll (N : Normalizer Class) (here there : NormalizedType Class) : NormalizedType Class where
  tops := here.tops
  booleans := unionOfBools here.booleans there.booleans
  externTypes := N.unionExternTypes here.externTypes there.externTypes
  errors := unionOfParts here.errors there.errors
  nils := unionOfParts here.nils there.nils
  numbers := unionOfParts here.numbers there.numbers
  integers := unionOfParts here.integers there.integers
  strings := N.unionStrings here.strings there.strings
  threads := unionOfParts here.threads there.threads
  buffers := unionOfParts here.buffers there.buffers
  nones := unionOfParts here.nones there.nones
  tables := unionTables here.tables there.tables
  functionTop := here.functionTop || there.functionTop

theorem isNever_not (h : t ≠ .never) : (!t.isNever) = true := by
  rw [Bool.not_eq_true', Bool.eq_false_iff]
  exact mt isNever_iff.mp h

theorem unionNormals_all (he : topsOfUnion here there = .never) :
    N.unionNormals here there = unionOfAll N here there := by
  show (if !(topsOfUnion here there).isNever then _ else _) = _
  rw [he]
  rfl

theorem unionNormals_top (he : topsOfUnion here there ≠ .never) :
    N.unionNormals here there = .top (topsOfUnion here there) := if_pos (isNever_not he)

theorem normalized_unionOfAll (h : Normalized here) (h' : Normalized there) (ht : here.tops = .never) :
    Normalized (unionOfAll N here there) where
  tops := Or.inl ht
  booleans := isBools_union h.booleans h'.booleans
  errors := isPart_union h.errors h'.errors
  nils := isPart_union h.nils h'.nils
  numbers := isPart_union h.numbers h'.numbers
  integers := isPart_union h.integers h'.integers
  threads := isPart_union h.threads h'.threads
  buffers := isPart_union h.buffers h'.buffers
  nones := isPart_union h.nones h'.nones
  tables := by
    obtain hcase | hcase := unionTables_cases h.tables h'.tables
    · exact Or.inl hcase.1
    · exact Or.inr hcase.1
  alone := fun hne => absurd ht hne

theorem part_unionOfAll (hN : Exact W N) (h : Normalized here) (h' : Normalized there) :
    (unionOfAll N here there).Part W v ↔ here.Part W v ∨ there.Part W v := by
  cases v with
  | nil => exact has_unionOfParts h.nils h'.nils
  | none => exact has_unionOfParts h.nones h'.nones
  | boolean b => exact has_unionOfBools h.booleans h'.booleans
  | number i => exact has_unionOfParts h.numbers h'.numbers
  | integer i => exact has_unionOfParts h.integers h'.integers
  | string s => exact hN.unionStrings _ _ s
  | thread i => exact has_unionOfParts h.threads h'.threads
  | buffer i => exact has_unionOfParts h.buffers h'.buffers
  | function i =>
    show (here.functionTop || there.functionTop) = true ↔ _
    rw [Bool.or_eq_true]
    rfl
  | table i =>
    show Ty.HasSome W (unionTables here.tables there.tables) _ ↔
      Ty.HasSome W here.tables _ ∨ Ty.HasSome W there.tables _
    obtain ⟨hu, ht, ht'⟩ | ⟨hu, ht⟩ := unionTables_cases h.tables h'.tables
    · rw [hu, ht, ht', or_self]
    · have hhas : Ty.HasSome W [(.primitive .table : Ty Class)] (.table i) := Or.inl trivial
      rw [hu]
      obtain ht | ht := ht
      · rw [ht]
        exact ⟨fun _ => Or.inl hhas, fun _ => hhas⟩
      · rw [ht]
        exact ⟨fun _ => Or.inr hhas, fun _ => hhas⟩
  | object o => exact hN.unionExternTypes _ _ o
  | error => exact has_unionOfParts h.errors h'.errors

theorem unionNormals_ok (hN : Exact W N) (h : Normalized here) (h' : Normalized there) :
    Normalized (N.unionNormals here there) ∧
      ∀ v, (N.unionNormals here there).Has W v ↔ here.Has W v ∨ there.Has W v := by
  by_cases he : topsOfUnion here there = .never
  · obtain ⟨ht, ht'⟩ := (topsOfUnion_never h h').mp he
    rw [unionNormals_all he]
    have hn := normalized_unionOfAll (N := N) h h' ht
    refine ⟨hn, fun v => ?_⟩
    rw [hn.has_parts ht, h.has_parts ht, h'.has_parts ht']
    exact part_unionOfAll hN h h'
  · rw [unionNormals_top he]
    refine ⟨normalized_top (topsOfUnion_cases h h'), fun v => ?_⟩
    rw [has_top (topsOfUnion_cases h h')]
    exact has_topsOfUnion h h' he

/-! ### Complements -/

theorem negateNormal_top (htops : here.tops ≠ .never) : N.negateNormal here = some .never :=
  if_pos (isNever_not htops)

/-- The complement without the tops and errors. -/
def complement (N : Normalizer Class) (here : NormalizedType Class) : NormalizedType Class where
  tops := .never
  booleans := negateBools here.booleans
  externTypes := if here.externTypes.isNever then .top N.nominalRoots else N.negateExternTypes here.externTypes
  errors := .never
  nils := negateOfPart here.nils .nilType
  numbers := negateOfPart here.numbers .number
  integers := negateOfPart here.integers .integer
  strings := { here.strings with isCofinite := !here.strings.isCofinite }
  threads := negateOfPart here.threads .thread
  buffers := negateOfPart here.buffers .buffer
  nones := negateOfPart here.nones .noneType
  tables := if here.tables.isEmpty then [.primitive .table] else []
  functionTop := !here.functionTop

theorem negateNormal_eq (h : Normalized here) (htops : here.tops = .never) (herrors : here.errors = .never) :
    N.negateNormal here = some (complement N here) := by
  unfold Normalizer.negateNormal complement
  rw [htops, herrors]
  obtain ht | ht := h.tables
  · rw [ht]
    rfl
  · rw [ht]
    rfl

theorem normalized_complement (h : Normalized here) : Normalized (complement N here) where
  tops := Or.inl rfl
  booleans := isBools_negate h.booleans
  errors := Or.inl rfl
  nils := isPart_negate
  numbers := isPart_negate
  integers := isPart_negate
  threads := isPart_negate
  buffers := isPart_negate
  nones := isPart_negate
  tables := by
    show (if here.tables.isEmpty then _ else _) = _ ∨ (if here.tables.isEmpty then _ else _) = _
    split
    · exact Or.inr rfl
    · exact Or.inl rfl
  alone := fun hne => absurd rfl hne

theorem part_complement (hN : Exact W N) (h : Normalized here) (hv : v ≠ .error) :
    (complement N here).Part W v ↔ ¬ here.Part W v := by
  cases v with
  | nil => exact has_negateOfPart h.nils trivial
  | none => exact has_negateOfPart h.nones trivial
  | boolean b => exact has_negateBools h.booleans
  | number i => exact has_negateOfPart h.numbers trivial
  | integer i => exact has_negateOfPart h.integers trivial
  | string s => exact strings_flip
  | thread i => exact has_negateOfPart h.threads trivial
  | buffer i => exact has_negateOfPart h.buffers trivial
  | function i =>
    show (!here.functionTop) = true ↔ ¬ here.functionTop = true
    cases here.functionTop <;> simp
  | table i =>
    show Ty.HasSome W (if here.tables.isEmpty then [.primitive .table] else []) _ ↔
      ¬ Ty.HasSome W here.tables _
    obtain ht | ht := h.tables
    · rw [ht]
      simp [Ty.HasSome, PrimitiveType.Has]
    · rw [ht]
      simp [Ty.HasSome, PrimitiveType.Has]
  | object o =>
    show (if here.externTypes.isNever then NormalizedExternType.top N.nominalRoots
      else N.negateExternTypes here.externTypes).Has W o ↔ ¬ here.externTypes.Has W o
    cases hnever : here.externTypes.isNever with
    | true =>
      rw [if_pos rfl, hN.roots]
      exact ⟨fun _ => externs_of_isNever hnever, fun _ => externs_top⟩
    | false =>
      rw [if_neg Bool.false_ne_true]
      exact hN.negateExternTypes _ hnever o
  | error => exact absurd rfl hv

/-- The complement of a normal form without errors. -/
theorem negateNormal_ok (hN : Exact W N) (h : Normalized here) (herrors : here.errors = .never) :
    ∃ n, N.negateNormal here = some n ∧ Normalized n ∧ n.tops = .never ∧ n.errors = .never ∧
      ∀ v, v ≠ .error → (n.Has W v ↔ ¬ here.Has W v) := by
  by_cases htops : here.tops = .never
  · refine ⟨complement N here, negateNormal_eq h htops herrors, normalized_complement h, rfl, rfl, fun v hv => ?_⟩
    rw [(normalized_complement h).has_parts rfl, h.has_parts htops]
    exact part_complement hN h hv
  · refine ⟨.never, negateNormal_top htops, normalized_never, rfl, rfl, fun v hv => ?_⟩
    exact ⟨fun hn => absurd hn has_never_form, fun hn => absurd (h.has_of_tops htops hv) hn⟩

/-! ### Intersections -/

/-- The intersection of normal forms that are no tops. -/
def intersectionOfAll (N : Normalizer Class) (here there : NormalizedType Class) : NormalizedType Class where
  tops := here.tops
  booleans := intersectionOfBools here.booleans there.booleans
  externTypes := N.intersectExternTypes here.externTypes there.externTypes
  errors := intersectionOfParts here.errors there.errors
  nils := intersectionOfParts here.nils there.nils
  numbers := intersectionOfParts here.numbers there.numbers
  integers := intersectionOfParts here.integers there.integers
  strings := N.intersectStrings here.strings there.strings
  threads := intersectionOfParts here.threads there.threads
  buffers := intersectionOfParts here.buffers there.buffers
  nones := intersectionOfParts here.nones there.nones
  tables := intersectTables here.tables there.tables
  functionTop := here.functionTop && there.functionTop

theorem normalized_intersectionOfAll (h : Normalized here) (h' : Normalized there) (ht : here.tops = .never) :
    Normalized (intersectionOfAll N here there) where
  tops := Or.inl ht
  booleans := isBools_intersection h.booleans h'.booleans
  errors := isPart_intersection h.errors h'.errors
  nils := isPart_intersection h.nils h'.nils
  numbers := isPart_intersection h.numbers h'.numbers
  integers := isPart_intersection h.integers h'.integers
  threads := isPart_intersection h.threads h'.threads
  buffers := isPart_intersection h.buffers h'.buffers
  nones := isPart_intersection h.nones h'.nones
  tables := by
    unfold intersectionOfAll intersectTables
    split
    · exact Or.inl rfl
    · exact h.tables
  alone := fun hne => absurd ht hne

theorem part_intersectionOfAll (hN : Exact W N) (h : Normalized here) (h' : Normalized there) :
    (intersectionOfAll N here there).Part W v ↔ here.Part W v ∧ there.Part W v := by
  cases v with
  | nil => exact has_intersectionOfParts h.nils h'.nils
  | none => exact has_intersectionOfParts h.nones h'.nones
  | boolean b => exact has_intersectionOfBools h.booleans h'.booleans
  | number i => exact has_intersectionOfParts h.numbers h'.numbers
  | integer i => exact has_intersectionOfParts h.integers h'.integers
  | string s => exact hN.intersectStrings _ _ s
  | thread i => exact has_intersectionOfParts h.threads h'.threads
  | buffer i => exact has_intersectionOfParts h.buffers h'.buffers
  | function i =>
    show (here.functionTop && there.functionTop) = true ↔ _
    rw [Bool.and_eq_true]
    rfl
  | table i =>
    show Ty.HasSome W (if there.tables.isEmpty then [] else here.tables) _ ↔
      Ty.HasSome W here.tables _ ∧ Ty.HasSome W there.tables _
    obtain ht' | ht' := h'.tables
    · rw [ht']
      simp [Ty.HasSome]
    · rw [ht']
      simp [Ty.HasSome, PrimitiveType.Has]
  | object o => exact hN.intersectExternTypes _ _ o
  | error => exact has_intersectionOfParts h.errors h'.errors

theorem intersectNormals_all (ht : here.tops = .never) (ht' : there.tops = .never) :
    N.intersectNormals here there = intersectionOfAll N here there := by
  unfold Normalizer.intersectNormals intersectionOfAll
  rw [ht', ht]
  rfl

theorem intersectionOfTops_cases {t u : Ty Class} : intersectionOfTops t u = .never ∨
    intersectionOfTops t u = .unknown ∨ intersectionOfTops t u = .any := by
  unfold intersectionOfTops
  split
  · exact Or.inl rfl
  · split
    · exact Or.inr (Or.inr rfl)
    · exact Or.inr (Or.inl rfl)

theorem intersectionOfTops_never {t u : Ty Class} : intersectionOfTops t u = .never ↔ t = .never ∨ u = .never := by
  rw [← isNever_iff (t := t), ← isNever_iff (t := u), ← Bool.or_eq_true]
  unfold intersectionOfTops
  split
  · next h => exact ⟨fun _ => h, fun _ => rfl⟩
  · next h =>
    refine ⟨fun he => ?_, fun he => absurd he h⟩
    split at he
    · cases he
    · cases he

/-- A top changes nothing but the tops. -/
theorem intersectTops_same (ht : here.tops = .never) :
    ({ here with tops := intersectionOfTops here.tops t } : NormalizedType Class) = here := by
  rw [intersectionOfTops_never.mpr (Or.inl ht), ← ht]

theorem intersectTops_top (h : Normalized here) (ht : here.tops ≠ .never) :
    ({ here with tops := intersectionOfTops here.tops t } : NormalizedType Class) =
      .top (intersectionOfTops here.tops t) := by
  rw [h.alone ht]
  rfl

theorem normalized_intersectTops (h : Normalized here) :
    Normalized { here with tops := intersectionOfTops here.tops t } := by
  by_cases ht : here.tops = .never
  · rw [intersectTops_same ht]
    exact h
  · rw [intersectTops_top h ht]
    exact normalized_top intersectionOfTops_cases

theorem has_intersectTops (h : Normalized here) (ht' : t ≠ .never) (hv : v ≠ .error) :
    ({ here with tops := intersectionOfTops here.tops t } : NormalizedType Class).Has W v ↔ here.Has W v := by
  by_cases ht : here.tops = .never
  · rw [intersectTops_same ht]
  · have hne : intersectionOfTops here.tops t ≠ .never := fun he =>
      (intersectionOfTops_never.mp he).elim ht ht'
    rw [intersectTops_top h ht]
    exact ⟨fun _ => h.has_of_tops ht hv,
      fun _ => (normalized_top intersectionOfTops_cases).has_of_tops hne hv⟩

theorem intersectNormals_ok (hN : Exact W N) (h : Normalized here) (h' : Normalized there) :
    Normalized (N.intersectNormals here there) ∧
      (here.tops = .never → (N.intersectNormals here there).tops = .never) ∧
      ∀ v, v ≠ .error → ((N.intersectNormals here there).Has W v ↔ here.Has W v ∧ there.Has W v) := by
  by_cases ht' : there.tops = .never
  · by_cases ht : here.tops = .never
    · rw [intersectNormals_all ht ht']
      have hn := normalized_intersectionOfAll (N := N) h h' ht
      refine ⟨hn, fun _ => ht, fun v _ => ?_⟩
      rw [hn.has_parts ht, h.has_parts ht, h'.has_parts ht']
      exact part_intersectionOfAll hN h h'
    · have heq : N.intersectNormals here there = N.unionNormals .never there := by
        unfold Normalizer.intersectNormals
        rw [ht']
        exact if_pos (isNever_not ht)
      obtain ⟨hn, hhas⟩ := unionNormals_ok hN normalized_never h'
      rw [heq]
      refine ⟨hn, fun he => absurd he ht, fun v hv => ?_⟩
      rw [hhas v]
      exact ⟨fun hor => ⟨h.has_of_tops ht hv, hor.resolve_left has_never_form⟩, fun hand => Or.inr hand.2⟩
  · have heq : N.intersectNormals here there =
        { here with tops := intersectionOfTops here.tops there.tops } := if_pos (isNever_not ht')
    rw [heq]
    refine ⟨normalized_intersectTops h, fun ht => ?_, fun v hv => ?_⟩
    · rw [intersectTops_same ht]
      exact ht
    · rw [has_intersectTops h ht' hv]
      exact ⟨fun hhere => ⟨hhere, h'.has_of_tops ht' hv⟩, And.left⟩

end Luwu.Normal
