import Luwu.Normal.Operations

/-!
# Normal forms with a type that is not made of others

A primitive, a singleton or a class that comes to a normal form, is met with it or taken out of it.
-/

namespace Luwu.Normal

open Normalizer

variable {Class Obj : Type} {W : Classes Class Obj} {N : Normalizer Class}
  {n here : NormalizedType Class} {t : Ty Class} {p : PrimitiveType} {s : SingletonType} {c : Class} {v : Value Obj}

/-- A normal form with the values `P` that is no top. -/
structure Denotes (W : Classes Class Obj) (n : NormalizedType Class) (P : Value Obj → Prop) : Prop where
  normalized : Normalized n
  tops : n.tops = .never
  has : ∀ v, v ≠ .error → (n.Has W v ↔ P v)

theorem denotes_parts {P : Value Obj → Prop} (h : Normalized n) (ht : n.tops = .never)
    (hpart : ∀ v, v ≠ .error → (n.Part W v ↔ P v)) : Denotes W n P :=
  ⟨h, ht, fun v hv => (h.has_parts ht).trans (hpart v hv)⟩

/-! ### Primitives -/

theorem unionPrimitive_ok (h : Normalized here) (ht : here.tops = .never) :
    Denotes W (unionNormalWithPrimitive here p) fun v => here.Has W v ∨ p.Has v := by
  have halone : ∀ {n : NormalizedType Class}, n.tops = .never → n.tops ≠ .never → n = .top n.tops :=
    fun he hne => absurd he hne
  have hn : Normalized (unionNormalWithPrimitive here p) := by
    cases p with
    | boolean => exact { h with booleans := isBools_boolean, alone := halone ht }
    | nilType => exact { h with nils := Or.inr rfl, alone := halone ht }
    | number => exact { h with numbers := Or.inr rfl, alone := halone ht }
    | integer => exact { h with integers := Or.inr rfl, alone := halone ht }
    | string => exact { h with alone := halone ht }
    | thread => exact { h with threads := Or.inr rfl, alone := halone ht }
    | buffer => exact { h with buffers := Or.inr rfl, alone := halone ht }
    | noneType => exact { h with nones := Or.inr rfl, alone := halone ht }
    | function => exact { h with alone := halone ht }
    | table => exact { h with tables := Or.inr rfl, alone := halone ht }
  have htops : (unionNormalWithPrimitive here p).tops = .never := by
    cases p <;> exact ht
  apply denotes_parts hn htops
  intro v _
  rw [h.has_parts ht]
  cases p <;> cases v <;>
    simp [NormalizedType.Part, unionNormalWithPrimitive, PrimitiveType.Has, Ty.HasSome]

theorem intersectPrimitive_ok (h : Normalized here) (ht : here.tops = .never) :
    Denotes W (intersectNormalWithPrimitive here p) fun v => here.Has W v ∧ p.Has v := by
  have hn : Normalized (intersectNormalWithPrimitive here p) := by
    cases p with
    | boolean => exact { normalized_never with booleans := h.booleans, alone := fun hne => absurd rfl hne }
    | nilType => exact { normalized_never with nils := h.nils, alone := fun hne => absurd rfl hne }
    | number => exact { normalized_never with numbers := h.numbers, alone := fun hne => absurd rfl hne }
    | integer => exact { normalized_never with integers := h.integers, alone := fun hne => absurd rfl hne }
    | string => exact { normalized_never with alone := fun hne => absurd rfl hne }
    | thread => exact { normalized_never with threads := h.threads, alone := fun hne => absurd rfl hne }
    | buffer => exact { normalized_never with buffers := h.buffers, alone := fun hne => absurd rfl hne }
    | noneType => exact { normalized_never with nones := h.nones, alone := fun hne => absurd rfl hne }
    | function => exact { normalized_never with alone := fun hne => absurd rfl hne }
    | table => exact { normalized_never with tables := h.tables, alone := fun hne => absurd rfl hne }
  have htops : (intersectNormalWithPrimitive here p).tops = .never := by
    cases p <;> rfl
  apply denotes_parts hn htops
  intro v _
  rw [h.has_parts ht]
  cases p <;> cases v <;>
    simp [NormalizedType.Part, intersectNormalWithPrimitive, NormalizedType.never, PrimitiveType.Has, Ty.HasSome]

theorem subtractPrimitive_ok (h : Normalized here) (ht : here.tops = .never) :
    Denotes W (subtractPrimitive here p) fun v => here.Has W v ∧ ¬ p.Has v := by
  have halone : ∀ {n : NormalizedType Class}, n.tops = .never → n.tops ≠ .never → n = .top n.tops :=
    fun he hne => absurd he hne
  have hn : Normalized (subtractPrimitive here p) := by
    cases p with
    | boolean => exact { h with booleans := isBools_never, alone := halone ht }
    | nilType => exact { h with nils := Or.inl rfl, alone := halone ht }
    | number => exact { h with numbers := Or.inl rfl, alone := halone ht }
    | integer => exact { h with integers := Or.inl rfl, alone := halone ht }
    | string => exact { h with alone := halone ht }
    | thread => exact { h with threads := Or.inl rfl, alone := halone ht }
    | buffer => exact { h with buffers := Or.inl rfl, alone := halone ht }
    | noneType => exact { h with nones := Or.inl rfl, alone := halone ht }
    | function => exact { h with alone := halone ht }
    | table => exact { h with tables := Or.inl rfl, alone := halone ht }
  have htops : (subtractPrimitive here p).tops = .never := by
    cases p <;> exact ht
  apply denotes_parts hn htops
  intro v _
  rw [h.has_parts ht]
  cases p <;> cases v <;> simp [NormalizedType.Part, subtractPrimitive, PrimitiveType.Has, Ty.HasSome]

/-! ### Singletons -/

theorem unionSingleton_ok (h : Normalized here) (ht : here.tops = .never) :
    Denotes W (unionNormalWithSingleton here s) fun v => here.Has W v ∨ s.Has v := by
  cases s with
  | boolean b =>
    apply denotes_parts
    · exact { h with
        booleans := isBools_union h.booleans (isBools_singleton b)
        alone := fun hne => absurd ht hne }
    · exact ht
    · intro v _
      rw [h.has_parts ht]
      cases v with
      | boolean b' => exact has_unionOfBools h.booleans (isBools_singleton b)
      | _ => simp [NormalizedType.Part, unionNormalWithSingleton, SingletonType.Has]
  | string str =>
    apply denotes_parts
    · exact { h with alone := fun hne => absurd ht hne }
    · exact ht
    · intro v _
      rw [h.has_parts ht]
      cases v with
      | string str' => exact strings_add
      | _ => simp [NormalizedType.Part, unionNormalWithSingleton, SingletonType.Has]

theorem intersectSingleton_ok (h : Normalized here) (ht : here.tops = .never) :
    Denotes W (intersectNormalWithSingleton here s) fun v => here.Has W v ∧ s.Has v := by
  cases s with
  | boolean b =>
    apply denotes_parts
    · exact { normalized_never with
        booleans := isBools_intersection h.booleans (isBools_singleton b)
        alone := fun hne => absurd rfl hne }
    · rfl
    · intro v _
      rw [h.has_parts ht]
      cases v with
      | boolean b' => exact has_intersectionOfBools h.booleans (isBools_singleton b)
      | _ =>
        simp [NormalizedType.Part, intersectNormalWithSingleton, NormalizedType.never, SingletonType.Has,
          Ty.HasSome]
  | string str =>
    apply denotes_parts
    · exact { normalized_never with alone := fun hne => absurd rfl hne }
    · rfl
    · intro v _
      rw [h.has_parts ht]
      cases v with
      | string str' =>
        show (if here.strings.includes str then NormalizedStringType.never.insert str else .never).Has str' ↔
          here.strings.Has str' ∧ str = str'
        have hinsert : (NormalizedStringType.never.insert str).Has str' ↔ str' = str := by
          simp [NormalizedStringType.Has, NormalizedStringType.insert, NormalizedStringType.never]
        split
        · next hincludes =>
          rw [hinsert]
          constructor
          · rintro rfl
            exact ⟨includes_iff.mp hincludes, rfl⟩
          · exact fun hand => hand.2.symm
        · next hnot =>
          rw [strings_never]
          constructor
          · exact False.elim
          · rintro ⟨hhas, rfl⟩
            exact hnot (includes_iff.mpr hhas)
      | _ =>
        simp [NormalizedType.Part, intersectNormalWithSingleton, NormalizedType.never, SingletonType.Has,
          Ty.HasSome]

theorem subtractSingleton_ok (h : Normalized here) (ht : here.tops = .never) :
    Denotes W (subtractSingleton here s) fun v => here.Has W v ∧ ¬ s.Has v := by
  cases s with
  | boolean b =>
    apply denotes_parts
    · exact { h with
        booleans := isBools_subtract h.booleans b
        alone := fun hne => absurd ht hne }
    · exact ht
    · intro v _
      rw [h.has_parts ht]
      cases v with
      | boolean b' =>
        refine (has_subtractBoolean h.booleans b).trans (and_congr_right fun _ => ?_)
        exact ne_comm
      | _ => simp [NormalizedType.Part, subtractSingleton, SingletonType.Has]
  | string str =>
    apply denotes_parts
    · exact { h with alone := fun hne => absurd ht hne }
    · exact ht
    · intro v _
      rw [h.has_parts ht]
      cases v with
      | string str' =>
        refine strings_subtract.trans (and_congr_right fun _ => ?_)
        exact ne_comm
      | _ => simp [NormalizedType.Part, subtractSingleton, SingletonType.Has]

/-! ### Classes -/

theorem unionExtern_ok (hN : Exact W N) (h : Normalized here) (ht : here.tops = .never) :
    Denotes W { here with externTypes := N.unionExternTypesWithExternType here.externTypes c }
      fun v => here.Has W v ∨ (Ty.externType c).Has W v := by
  apply denotes_parts
  · exact { h with alone := fun hne => absurd ht hne }
  · exact ht
  · intro v _
    rw [h.has_parts ht]
    cases v with
    | object o =>
      refine (hN.unionExternTypesWithExternType _ c o).trans (or_congr_right ?_)
      simp
    | _ => simp [NormalizedType.Part]

/-- A class meets a normal form that, in the new solver, has no `table` or has classes. -/
theorem intersectExtern_ok (hN : Exact W N) (h : Normalized here) (ht : here.tops = .never)
    (htable : N.oneTableWithExtern = true → here.tables = [] ∨ here.externTypes.isNever = false) :
    Denotes W (N.intersectNormalWithExtern here c) fun v => here.Has W v ∧ (Ty.externType c).Has W v := by
  have heq : N.intersectNormalWithExtern here c =
      { NormalizedType.never with externTypes := N.intersectExternTypesWithExternType here.externTypes c } := by
    unfold Normalizer.intersectNormalWithExtern
    split
    · next hone =>
      obtain hempty | hclass := htable hone
      · rw [hempty]
        rfl
      · obtain hempty | hsingle := h.tables
        · rw [hempty]
          rfl
        · rw [hsingle, hclass]
          rfl
    · rfl
  rw [heq]
  apply denotes_parts
  · exact { normalized_never with alone := fun hne => absurd rfl hne }
  · rfl
  · intro v _
    rw [h.has_parts ht]
    cases v with
    | object o =>
      refine (hN.intersectExternTypesWithExternType _ c o).trans (and_congr_right fun _ => ?_)
      simp
    | _ => simp [NormalizedType.Part, NormalizedType.never, Ty.HasSome]

/-! ### Errors -/

theorem denotes_error : Denotes W ({ NormalizedType.never with errors := .error } : NormalizedType Class)
    fun _ => False := by
  apply denotes_parts
  · exact { normalized_never with errors := Or.inr rfl, alone := fun hne => absurd rfl hne }
  · rfl
  · intro v hv
    cases v with
    | error => exact absurd rfl hv
    | _ => simp [NormalizedType.Part, NormalizedType.never, Ty.HasSome]

/-! ### The end of normalizing -/

variable [DecidableEq Class]

/-- A normal form that has everything is unknown. -/
theorem has_of_isUnknown (hN : Exact W N) (h : Normalized n) (hall : N.isUnknown n = true) :
    n.Has W v ↔ v ≠ .error := by
  by_cases htops : n.tops = .never
  · unfold Normalizer.isUnknown at hall
    rw [htops] at hall
    simp only [Ty.isUnknown, Bool.false_or, Bool.and_eq_true, isPrim_iff, isNever_iff] at hall
    obtain ⟨⟨⟨⟨⟨⟨⟨⟨⟨⟨⟨herrors, hbooleans⟩, hnils⟩, hnumbers⟩, hstrings⟩, hthreads⟩, hbuffers⟩, hnones⟩, hintegers⟩,
      hexterns⟩, htables⟩, hfunctions⟩ := hall
    rw [h.has_parts htops]
    cases v with
    | error => simp [NormalizedType.Part, herrors]
    | object o =>
      rw [hN.roots] at hexterns
      constructor
      · intro _ hv
        cases hv
      · exact fun _ => externs_isTop hexterns
    | table i =>
      have hsingle : n.tables = [.primitive .table] := by
        obtain hempty | hsingle := h.tables
        · rw [hempty] at htables
          cases htables
        · exact hsingle
      simp [NormalizedType.Part, hsingle, Ty.HasSome, PrimitiveType.Has]
    | string str => simp [NormalizedType.Part, isString_iff.mp hstrings]
    | _ => simp [NormalizedType.Part, PrimitiveType.Has, hbooleans, hnils, hnumbers, hthreads, hbuffers, hnones,
        hintegers, hfunctions]
  · have hunknown : n.tops = .unknown := by
      unfold Normalizer.isUnknown at hall
      rw [h.alone htops] at hall
      obtain htop | hrest := Bool.or_eq_true_iff.mp hall
      · exact isUnknown_iff.mp htop
      · simp [NormalizedType.top, NormalizedType.never, Ty.isPrim] at hrest
    rw [h.has_tops htops, hunknown, has_unknown]

theorem normalized_ok (hN : Exact W N) (h : Normalized n) : Normalized (N.normalized n) ∧
    (n.errors = .never → (N.normalized n).errors = .never) ∧ ∀ v, (N.normalized n).Has W v ↔ n.Has W v := by
  unfold Normalizer.normalized
  split
  · next hall =>
    refine ⟨normalized_top (Or.inr (Or.inl rfl)), fun _ => rfl, fun v => ?_⟩
    rw [has_top (Or.inr (Or.inl rfl)), has_of_isUnknown hN h hall, has_unknown]
  · exact ⟨h, id, fun _ => Iff.rfl⟩

end Luwu.Normal
