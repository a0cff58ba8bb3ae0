import Luwu.Simplify.Relate

/-!
# What a relation says

The relation of two types holds of their run-time values, unless a pair was met twice on the way to it, or a
table type was compared with an extern type, or `table` or a table type with a table that has a metatable.
-/

namespace Luwu.Simplify

open Luwu.Normal (PrimitiveType SingletonType)
open Luwu.Flatten Luwu.Questions Luwu.Questions.Asking

variable {Class Fn : Type} [DecidableEq Class] (K : Classes Class) (W : World Class Fn) (A : Arena Class Fn)

/-- What the relation says of the run-time values. -/
def Relation.Holds (r : Relation) (left right : TypeId) : Prop :=
  match r with
  | .disjoint => ∀ x, ¬ (A.Has K W left (.run x) ∧ A.Has K W right (.run x))
  | .coincident => ∀ x, A.Has K W left (.run x) ↔ A.Has K W right (.run x)
  | .intersects => True
  | .subset => ∀ x, A.Has K W left (.run x) → A.Has K W right (.run x)
  | .superset => ∀ x, A.Has K W right (.run x) → A.Has K W left (.run x)

/-- A table that has a metatable on the right of a table that has not, and a table with an extern type -/
def Incomparable (left right : Ty Class Fn) : Prop :=
  match left, right with
  | .primitive .table, .metatable _ _ => True
  | .table _, .metatable _ _ => True
  | .table _, .externType _ => True
  | .externType _, .table _ => True
  | _, _ => False

/-- A pair that is compared for what it is -/
def Calm (p : TypeId × TypeId) : Prop := ¬ Incomparable (A.ty p.1) (A.ty p.2)

variable {K W A} {t u left right : TypeId} {r : Relation} {x : W.Val}

omit [DecidableEq Class] in
theorem negated_eq {n : Ty Class Fn} : n.negated? = some t ↔ n = .negation t := by
  cases n <;> simp [Ty.negated?]

/-! ### Turning a relation around -/

theorem Relation.Holds.flip (h : r.Holds K W A left right) : r.flip.Holds K W A right left := by
  cases r with
  | disjoint => exact fun x hx => h x hx.symm
  | coincident => exact fun x => (h x).symm
  | intersects => trivial
  | subset => exact h
  | superset => exact h

/-- A call that gives a relation which holds when the relations it asks for do -/
def Right (K : Classes Class) (W : World Class Fn) (A : Arena Class Fn) (left right : TypeId) (ask : Ask) : Prop :=
  ask.Gives (fun p r => r.Holds K W A p.1 p.2) fun r => r.Holds K W A left right

theorem right_ite {c : Prop} [Decidable c] {ask ask' : Ask} (h : c → Right K W A left right ask)
    (h' : ¬ c → Right K W A left right ask') : Right K W A left right (if c then ask else ask') := by
  split
  · next hc => exact h hc
  · next hc => exact h' hc

theorem right_flipped : Right K W A left right (flipped left right) := fun _ h => h.flip

/-! ### Tops and bottoms -/

section Values

variable (hA : A.WellFormed K)
include hA

theorem has_unknown (h : (A.ty t).isUnknown = true) : A.Has K W t (.run x) := by
  rw [hA.has_iff]
  cases hn : A.ty t <;> simp [hn, Ty.isUnknown] at h
  trivial

theorem has_any (h : (A.ty t).isAny = true) : A.Has K W t (.run x) := by
  rw [hA.has_iff]
  cases hn : A.ty t <;> simp [hn, Ty.isAny] at h
  trivial

theorem not_has_error (h : (A.ty t).isError = true) : ¬ A.Has K W t (.run x) := by
  rw [hA.has_iff]
  cases hn : A.ty t <;> simp [hn, Ty.isError] at h
  simp [Ty.Has]

theorem not_has_never (h : (A.ty t).isNever = true) : ¬ A.Has K W t (.run x) := by
  rw [hA.has_iff]
  cases hn : A.ty t <;> simp [hn, Ty.isNever] at h
  exact id

theorem has_negation (h : A.ty t = .negation u) : A.Has K W t (.run x) ↔ ¬ A.Has K W u (.run x) := has_of hA h

/-! ### Unions and negations -/

theorem right_relateUnion : ∀ parts, (∀ u ∈ parts, u ∈ A.eachOption left) →
    Right K W A left right (relateUnion right parts)
  | [], _ => trivial
  | part :: parts, hparts => by
    intro r hr
    dsimp only
    split
    · next hsuper =>
      intro x hx
      rw [has_eachOption hA]
      refine ⟨part, hparts part List.mem_cons_self, ?_⟩
      obtain rfl | rfl := hsuper
      · exact hr x hx
      · exact (hr x).mpr hx
    · exact right_relateUnion parts fun u hu => hparts u (List.mem_cons_of_mem part hu)

theorem right_relateToUnion : ∀ parts, (∀ u ∈ parts, u ∈ A.eachOption right) →
    Right K W A left right (relateToUnion left parts)
  | [], _ => trivial
  | part :: parts, hparts => by
    intro r hr
    dsimp only
    split
    · next hsub =>
      intro x hx
      rw [has_eachOption hA]
      refine ⟨part, hparts part List.mem_cons_self, ?_⟩
      obtain rfl | rfl := hsub
      · exact hr x hx
      · exact (hr x).mp hx
    · exact right_relateToUnion parts fun u hu => hparts u (List.mem_cons_of_mem part hu)

theorem right_relateNegation {leftNegation : Bool} (h : A.ty right = .negation t) :
    Right K W A left right (relateNegation left t leftNegation) := by
  intro r hr
  cases r with
  | coincident =>
    intro x hx
    exact (has_negation hA h).mp hx.2 ((hr x).mp hx.1)
  | disjoint =>
    cases leftNegation with
    | true => trivial
    | false =>
      intro x hx
      exact (has_negation hA h).mpr fun ht => hr x ⟨hx, ht⟩
  | intersects => trivial
  | subset =>
    intro x hx
    exact (has_negation hA h).mp hx.2 (hr x hx.1)
  | superset => trivial

/-! ### Tables -/

omit hA in
/-- What the relation of a table to a property says of the tables. -/
def PropHolds (K : Classes Class) (W : World Class Fn) (A : Arena Class Fn) (ps : Props) (name : String)
    (prop : TypeId) : Relation → Prop
  | .disjoint => ∃ t, ps.lookup name = some t ∧ ∀ x, ¬ (A.Has K W t (.run x) ∧ A.Has K W prop (.run x))
  | .coincident => ∃ t, ps.lookup name = some t ∧ ∀ x, A.Has K W t (.run x) ↔ A.Has K W prop (.run x)
  | .subset => ∃ t, ps.lookup name = some t ∧ ∀ x, A.Has K W t (.run x) → A.Has K W prop (.run x)
  | .intersects => True
  | .superset => False

omit hA in
theorem right_relateTableToProp {ps : Props} {name : String} {prop : TypeId} :
    (relateTableToProp ps name prop).Gives (fun p r => r.Holds K W A p.1 p.2) (PropHolds K W A ps name prop) := by
  unfold relateTableToProp
  split
  · trivial
  · next t ht =>
    intro r hr
    cases r with
    | disjoint => exact ⟨t, ht, hr⟩
    | coincident => exact ⟨t, ht, hr⟩
    | intersects => trivial
    | subset => exact ⟨t, ht, hr⟩
    | superset => trivial

omit hA in
/-- What the loop over the properties of the right table says of those that are left. -/
def PropsHold (K : Classes Class) (W : World Class Fn) (A : Arena Class Fn) (ps qs : Props) : Relation → Prop
  | .disjoint => ∃ q ∈ qs, PropHolds K W A ps q.1 q.2 .disjoint
  | .coincident => ∀ q ∈ qs, PropHolds K W A ps q.1 q.2 .coincident
  | .subset => ∀ q ∈ qs, PropHolds K W A ps q.1 q.2 .subset
  | .intersects => True
  | .superset => False

omit hA in
theorem PropHolds.subset {ps : Props} {name : String} {prop : TypeId}
    (h : PropHolds K W A ps name prop .coincident) : PropHolds K W A ps name prop .subset := by
  obtain ⟨t, ht, hsame⟩ := h
  exact ⟨t, ht, fun x => (hsame x).mp⟩

omit hA in
theorem right_relateProps {ps : Props} : ∀ (qs : Props) (hasSubset : Bool),
    (relateProps ps hasSubset qs).Gives (fun p r => r.Holds K W A p.1 p.2) fun r =>
      PropsHold K W A ps qs r ∧ (r = .coincident → hasSubset = false)
  | [], hasSubset => by
    cases hasSubset with
    | false => exact ⟨fun q hq => (List.not_mem_nil hq).elim, fun _ => rfl⟩
    | true => exact ⟨fun q hq => (List.not_mem_nil hq).elim, fun h => by cases h⟩
  | (name, prop) :: qs, hasSubset => by
    apply Gives.bind right_relateTableToProp
    intro r hr
    cases r with
    | disjoint => exact ⟨⟨(name, prop), List.mem_cons_self, hr⟩, fun h => by cases h⟩
    | superset => exact hr.elim
    | intersects => exact ⟨trivial, fun h => by cases h⟩
    | subset =>
      refine (right_relateProps qs true).imp fun r' hr' => ?_
      obtain ⟨hr', hsub⟩ := hr'
      cases r' with
      | disjoint =>
        obtain ⟨q, hq, h⟩ := hr'
        exact ⟨⟨q, List.mem_cons_of_mem _ hq, h⟩, fun h => by cases h⟩
      | coincident => cases hsub rfl
      | intersects => exact ⟨trivial, fun h => by cases h⟩
      | subset => exact ⟨List.forall_mem_cons.mpr ⟨hr, hr'⟩, fun h => by cases h⟩
      | superset => exact hr'.elim
    | coincident =>
      refine (right_relateProps qs hasSubset).imp fun r' hr' => ?_
      obtain ⟨hr', hsub⟩ := hr'
      cases r' with
      | disjoint =>
        obtain ⟨q, hq, h⟩ := hr'
        exact ⟨⟨q, List.mem_cons_of_mem _ hq, h⟩, fun h => by cases h⟩
      | coincident => exact ⟨List.forall_mem_cons.mpr ⟨hr, hr'⟩, hsub⟩
      | intersects => exact ⟨trivial, fun h => by cases h⟩
      | subset => exact ⟨List.forall_mem_cons.mpr ⟨hr.subset, hr'⟩, fun h => by cases h⟩
      | superset => exact hr'.elim

theorem has_table {ps : Props} (h : A.ty t = .table ps) :
    A.Has K W t (.run x) ↔ W.kind x = .table ∧ ∀ p ∈ ps, A.Has K W p.2 (.run (W.get x p.1)) := has_of hA h

/-- Tables with the same number of properties, each of the right one in the left one -/
theorem holds_of_props {ps qs : Props} (hleft : A.ty left = .table ps) (hright : A.ty right = .table qs)
    (hlength : ps.length = qs.length) (h : PropsHold K W A ps qs r) : r.Holds K W A left right := by
  have hsub : (∀ q ∈ qs, PropHolds K W A ps q.1 q.2 .subset) → ∀ x, A.Has K W left (.run x) →
      A.Has K W right (.run x) := by
    intro hall x hx
    obtain ⟨hkind, hx⟩ := (has_table hA hleft).mp hx
    refine (has_table hA hright).mpr ⟨hkind, fun q hq => ?_⟩
    obtain ⟨t, ht, hsub⟩ := hall q hq
    exact hsub _ (hx (q.1, t) (Props.mem_of_lookup ht))
  cases r with
  | disjoint =>
    obtain ⟨q, hq, t, ht, hdisjoint⟩ := h
    intro x hx
    refine hdisjoint (W.get x q.1) ⟨?_, ?_⟩
    · exact ((has_table hA hleft).mp hx.1).2 (q.1, t) (Props.mem_of_lookup ht)
    · exact ((has_table hA hright).mp hx.2).2 q hq
  | coincident =>
    intro x
    refine ⟨hsub (fun q hq => (h q hq).subset) x, fun hx => ?_⟩
    obtain ⟨hkind, hx⟩ := (has_table hA hright).mp hx
    refine (has_table hA hleft).mpr ⟨hkind, fun p hp => ?_⟩
    have hnames : qs.map Prod.fst ⊆ ps.map Prod.fst := by
      intro name hname
      obtain ⟨q, hq, rfl⟩ := List.mem_map.mp hname
      obtain ⟨t, ht, -⟩ := h q hq
      exact List.mem_map.mpr ⟨(q.1, t), Props.mem_of_lookup ht, rfl⟩
    have hperm := (List.subperm_of_subset ((hA.fits right).names hright) hnames).perm_of_length_le
      (by simp [hlength])
    obtain ⟨q, hq, hname⟩ := List.mem_map.mp (hperm.mem_iff.mpr (List.mem_map_of_mem (f := Prod.fst) hp))
    obtain ⟨t, ht, hsame⟩ := h q hq
    have hlookup : ps.lookup q.1 = some p.2 := by
      rw [hname]
      exact Props.lookup_of_mem ((hA.fits left).names hleft) hp
    obtain rfl := Option.some.inj (hlookup.symm.trans ht)
    rw [← hname]
    exact (hsame _).mpr (hx q hq)
  | intersects => trivial
  | subset => exact hsub h
  | superset => exact h.elim

/-- One property on the right -/
theorem holds_of_prop {ps : Props} {name : String} {prop : TypeId} (hleft : A.ty left = .table ps)
    (hright : A.ty right = .table [(name, prop)]) (h : PropHolds K W A ps name prop r) :
    (if r = .coincident then Relation.subset else r).Holds K W A left right := by
  have hsub : PropHolds K W A ps name prop .subset → ∀ x, A.Has K W left (.run x) → A.Has K W right (.run x) := by
    rintro ⟨t, ht, hsub⟩ x hx
    obtain ⟨hkind, hx⟩ := (has_table hA hleft).mp hx
    refine (has_table hA hright).mpr ⟨hkind, fun q hq => ?_⟩
    rw [List.mem_singleton.mp hq]
    exact hsub _ (hx (name, t) (Props.mem_of_lookup ht))
  cases r with
  | disjoint =>
    obtain ⟨t, ht, hdisjoint⟩ := h
    intro x hx
    refine hdisjoint (W.get x name) ⟨?_, ?_⟩
    · exact ((has_table hA hleft).mp hx.1).2 (name, t) (Props.mem_of_lookup ht)
    · exact ((has_table hA hright).mp hx.2).2 (name, prop) (List.mem_singleton_self _)
  | coincident => exact hsub h.subset
  | intersects => trivial
  | subset => exact hsub h
  | superset => exact h.elim

theorem right_relateTables {ps qs : Props} (hleft : A.ty left = .table ps) (hright : A.ty right = .table qs) :
    Right K W A left right (relateTables ps qs) := by
  unfold relateTables
  split
  · next name prop =>
    apply Gives.map right_relateTableToProp
    intro r hr
    exact holds_of_prop hA hleft hright hr
  · next name prop qs _ =>
    apply Gives.map right_relateTableToProp
    intro r hr
    have h := (holds_of_prop hA hright hleft hr).flip
    cases r <;> exact h
  · split
    · trivial
    · next hlength =>
      refine (right_relateProps qs false).imp fun r hr => ?_
      exact holds_of_props hA hleft hright (by simpa using hlength) hr.1

/-! ### The other types -/

section Kinds

theorem has_primitive {p : PrimitiveType} (h : A.ty t = .primitive p) :
    A.Has K W t (.run x) ↔ (W.kind x).IsPrimitive p := has_of hA h

theorem has_singleton {s : SingletonType} (h : A.ty t = .singleton s) :
    A.Has K W t (.run x) ↔ (W.kind x).IsSingleton s := has_of hA h

theorem has_externType {c : Class} (h : A.ty t = .externType c) :
    A.Has K W t (.run x) ↔ ∃ d, W.kind x = .object d ∧ K.isSubclass d c = true := has_of hA h

end Kinds

end Values

/-- The types that `relateConcrete` is for -/
def Ty.Concrete : Ty Class Fn → Prop
  | .primitive _ => True
  | .singleton _ => True
  | .function _ => True
  | .table _ => True
  | .metatable _ _ => True
  | .externType _ => True
  | _ => False

/-- The kinds that the values of a concrete type can have -/
def Ty.OfKind : Ty Class Fn → Kind Class → Prop
  | .primitive p, k => k.IsPrimitive p
  | .singleton s, k => k.IsSingleton s
  | .function _, k => k = .function
  | .table _, k => k = .table
  | .metatable _ _, k => k = .table
  | .externType _, k => ∃ d, k = .object d
  | _, _ => True

omit [DecidableEq Class] in
theorem isPrimitive_unique {k : Kind Class} {p q : PrimitiveType} (hp : k.IsPrimitive p) (hq : k.IsPrimitive q) :
    p = q := by
  cases k <;> cases p <;> first | exact hp.elim | (cases q <;> first | rfl | exact hq.elim)

omit [DecidableEq Class] in
theorem isPrimitive_of_singleton {k : Kind Class} {s : SingletonType} (h : k.IsSingleton s) :
    match s with
    | .boolean _ => k.IsPrimitive .boolean
    | .string _ => k.IsPrimitive .string := by
  cases k <;> cases s <;> first | exact h.elim | trivial

omit [DecidableEq Class] in
theorem isSingleton_unique {k : Kind Class} {s s' : SingletonType} (h : k.IsSingleton s) (h' : k.IsSingleton s') :
    s = s' := by
  cases k <;> cases s <;> first | exact h.elim | (cases s' <;> first | exact h'.elim | rw [← h, ← h'])

section Concrete

variable (hA : A.WellFormed K)
include hA

theorem ofKind (h : A.Has K W t (.run x)) : (A.ty t).OfKind (W.kind x) := by
  rw [hA.has_iff] at h
  cases hn : A.ty t with
  | function f =>
    rw [hn] at h
    exact W.function_kind f x h
  | _ =>
    rw [hn] at h
    first
      | exact h
      | exact h.1
      | exact ⟨_, h.choose_spec.1⟩
      | trivial

/-- Values of the two types are of different kinds. -/
theorem disjoint_of_kinds {n m : Ty Class Fn} (hleft : A.ty left = n) (hright : A.ty right = m)
    (h : ∀ k, n.OfKind k → ¬ m.OfKind k) : Relation.disjoint.Holds K W A left right := by
  intro x hx
  apply h (W.kind x)
  · rw [← hleft]
    exact ofKind hA hx.1
  · rw [← hright]
    exact ofKind hA hx.2

theorem right_relatePrimitive {p : PrimitiveType} (hleft : A.ty left = .primitive p)
    (hcalm : ¬ Incomparable (A.ty left) (A.ty right)) (hconcrete : (A.ty right).Concrete) :
    Right K W A left right (relatePrimitive p (A.ty right)) := by
  cases hright : A.ty right with
  | primitive q =>
    show Relation.Holds ..
    split
    · next heq =>
      subst heq
      intro x
      rw [has_primitive hA hleft, has_primitive hA hright]
    · next hne => exact disjoint_of_kinds hA hleft hright fun k hp hq => hne (isPrimitive_unique hp hq)
  | singleton s =>
    cases s with
    | boolean b =>
      show Relation.Holds ..
      split
      · next heq =>
        subst heq
        intro x hx
        exact (has_primitive hA hleft).mpr (isPrimitive_of_singleton ((has_singleton hA hright).mp hx))
      · next hne =>
        exact disjoint_of_kinds hA hleft hright fun k hp hs => hne (isPrimitive_unique hp (isPrimitive_of_singleton hs))
    | string str =>
      show Relation.Holds ..
      split
      · next heq =>
        subst heq
        intro x hx
        exact (has_primitive hA hleft).mpr (isPrimitive_of_singleton ((has_singleton hA hright).mp hx))
      · next hne =>
        exact disjoint_of_kinds hA hleft hright fun k hp hs => hne (isPrimitive_unique hp (isPrimitive_of_singleton hs))
  | function f =>
    show Relation.Holds ..
    split
    · next heq =>
      subst heq
      intro x hx
      have hkind : W.kind x = .function := by simpa [hright, Ty.OfKind] using ofKind hA hx
      rw [has_primitive hA hleft, hkind]
      trivial
    · next hne =>
      refine disjoint_of_kinds hA hleft hright fun k hp hf => hne (isPrimitive_unique hp ?_)
      rw [show k = .function from hf]
      trivial
  | table ps =>
    show Relation.Holds ..
    split
    · next heq =>
      subst heq
      intro x hx
      rw [has_primitive hA hleft, ((has_table hA hright).mp hx).1]
      trivial
    · next hne =>
      refine disjoint_of_kinds hA hleft hright fun k hp hf => hne (isPrimitive_unique hp ?_)
      rw [show k = .table from hf]
      trivial
  | metatable u m =>
    refine disjoint_of_kinds hA hleft hright fun k hp hf => ?_
    rw [show k = .table from hf] at hp
    have heq : p = .table := isPrimitive_unique hp trivial
    subst heq
    rw [hleft, hright] at hcalm
    exact hcalm trivial
  | externType c =>
    refine disjoint_of_kinds hA hleft hright fun k hp hf => ?_
    obtain ⟨d, rfl⟩ : ∃ d, k = .object d := hf
    cases p <;> exact hp
  | _ =>
    rw [hright] at hconcrete
    exact hconcrete.elim

theorem right_relateConcrete (hcalm : ¬ Incomparable (A.ty left) (A.ty right)) (hleft : (A.ty left).Concrete)
    (hright : (A.ty right).Concrete) : Right K W A left right (relateConcrete K A left right) := by
  unfold relateConcrete
  cases hl : A.ty left with
  | primitive p => exact right_relatePrimitive hA hl hcalm hright
  | singleton s =>
    cases hr : A.ty right with
    | primitive q => exact right_flipped
    | singleton s' =>
      show Relation.Holds ..
      split
      · next heq =>
        subst heq
        intro x
        rw [has_singleton hA hl, has_singleton hA hr]
      · next hne => exact disjoint_of_kinds hA hl hr fun k hs hs' => hne (isSingleton_unique hs hs')
    | function f =>
      refine disjoint_of_kinds hA hl hr fun k hs hf => ?_
      rw [show k = .function from hf] at hs
      exact hs.elim
    | table ps =>
      refine disjoint_of_kinds hA hl hr fun k hs hf => ?_
      rw [show k = .table from hf] at hs
      exact hs.elim
    | metatable u m =>
      refine disjoint_of_kinds hA hl hr fun k hs hf => ?_
      rw [show k = .table from hf] at hs
      exact hs.elim
    | externType c =>
      refine disjoint_of_kinds hA hl hr fun k hs hf => ?_
      obtain ⟨d, rfl⟩ : ∃ d, k = .object d := hf
      exact hs.elim
    | _ =>
      rw [hr] at hright
      exact hright.elim
  | function f =>
    cases hr : A.ty right with
    | primitive q =>
      show Relation.Holds ..
      split
      · next heq =>
        subst heq
        intro x hx
        have hkind : W.kind x = .function := by simpa [hl, Ty.OfKind] using ofKind hA hx
        rw [has_primitive hA hr, hkind]
        trivial
      · next hne =>
        refine disjoint_of_kinds hA hl hr fun k hf hp => hne (isPrimitive_unique hp ?_)
        rw [show k = .function from hf]
        trivial
    | _ => trivial
  | table ps =>
    cases hr : A.ty right with
    | primitive q =>
      show Relation.Holds ..
      split
      · next heq =>
        subst heq
        intro x hx
        rw [has_primitive hA hr, ((has_table hA hl).mp hx).1]
        trivial
      · next hne =>
        refine disjoint_of_kinds hA hl hr fun k hf hp => hne (isPrimitive_unique hp ?_)
        rw [show k = .table from hf]
        trivial
    | table qs => exact right_relateTables hA hl hr
    | externType c =>
      rw [hl, hr] at hcalm
      exact absurd trivial hcalm
    | metatable u m =>
      rw [hl, hr] at hcalm
      exact absurd trivial hcalm
    | singleton s =>
      refine disjoint_of_kinds hA hl hr fun k hf hs => ?_
      rw [show k = .table from hf] at hs
      exact hs.elim
    | function f =>
      refine disjoint_of_kinds hA hl hr fun k ht hf => ?_
      rw [show k = .table from ht] at hf
      cases hf
    | _ =>
      rw [hr] at hright
      exact hright.elim
  | externType c =>
    cases hr : A.ty right with
    | externType d =>
      show Relation.Holds ..
      split
      · next hsub =>
        intro x hx
        obtain ⟨e, he, hec⟩ := (has_externType hA hl).mp hx
        exact (has_externType hA hr).mpr ⟨e, he, K.isSubclass_trans hec hsub⟩
      · next hnot =>
        split
        · next hsub =>
          intro x hx
          obtain ⟨e, he, hed⟩ := (has_externType hA hr).mp hx
          exact (has_externType hA hl).mpr ⟨e, he, K.isSubclass_trans hed hsub⟩
        · next hnot' =>
          intro x hx
          obtain ⟨e, he, hec⟩ := (has_externType hA hl).mp hx.1
          obtain ⟨e', he', hed⟩ := (has_externType hA hr).mp hx.2
          obtain rfl := Kind.object.inj (he.symm.trans he')
          exact (K.isSubclass_linear hec hed).elim hnot hnot'
    | table ps =>
      rw [hl, hr] at hcalm
      exact absurd trivial hcalm
    | primitive q =>
      refine disjoint_of_kinds hA hl hr fun k hf hp => ?_
      obtain ⟨d, rfl⟩ : ∃ d, k = .object d := hf
      exact hp.elim
    | singleton s =>
      refine disjoint_of_kinds hA hl hr fun k hf hs => ?_
      obtain ⟨d, rfl⟩ : ∃ d, k = .object d := hf
      exact hs.elim
    | function f =>
      refine disjoint_of_kinds hA hl hr fun k hf hs => ?_
      obtain ⟨d, rfl⟩ : ∃ d, k = .object d := hf
      cases hs
    | metatable u m =>
      refine disjoint_of_kinds hA hl hr fun k hf hs => ?_
      obtain ⟨d, rfl⟩ : ∃ d, k = .object d := hf
      cases hs
    | _ =>
      rw [hr] at hright
      exact hright.elim
  | metatable u m => trivial
  | _ =>
    rw [hl] at hleft
    exact hleft.elim

omit [DecidableEq Class] hA in
theorem concrete_of {n : Ty Class Fn} (hunknown : ¬ n.isUnknown = true) (hany : ¬ n.isAny = true)
    (herror : ¬ n.isError = true) (hnever : ¬ n.isNever = true) (hunion : ¬ n.isUnion = true)
    (hintersection : n.isIntersection = false) (hnegated : n.negated? = none) : n.Concrete := by
  cases n with
  | unknown => exact hunknown rfl
  | any => exact hany rfl
  | error => exact herror rfl
  | never => exact hnever rfl
  | union ts => exact hunion rfl
  | intersection ts => cases hintersection
  | negation t => cases hnegated
  | _ => trivial

theorem right_relateStep (hcalm : Calm A (left, right)) : Right K W A left right (relateStep K A left right) := by
  unfold relateStep
  refine right_ite (fun hunknown => ?_) fun hunknown => ?_
  · show Relation.Holds ..
    split
    · exact fun x _ => has_any hA (by assumption)
    · split
      · exact fun x => iff_of_true (has_unknown hA hunknown) (has_unknown hA (by assumption))
      · split
        · exact fun x hx => not_has_error hA (by assumption) hx.2
        · exact fun x _ => has_unknown hA hunknown
  refine right_ite (fun _ => right_flipped) fun hunknown' => ?_
  refine right_ite (fun hany => ?_) fun hany => ?_
  · show Relation.Holds ..
    split
    · exact fun x => iff_of_true (has_any hA hany) (has_any hA (by assumption))
    · exact fun x _ => has_any hA hany
  refine right_ite (fun _ => right_flipped) fun hany' => ?_
  refine right_ite (fun herror => ?_) fun herror => ?_
  · show Relation.Holds ..
    split
    · exact fun x => iff_of_false (not_has_error hA herror) (not_has_error hA (by assumption))
    · exact fun x hx => not_has_error hA herror hx.1
  refine right_ite (fun _ => right_flipped) fun herror' => ?_
  refine right_ite (fun hnever => ?_) fun hnever => ?_
  · show Relation.Holds ..
    split
    · exact fun x => iff_of_false (not_has_never hA hnever) (not_has_never hA (by assumption))
    · exact fun x hx => absurd hx (not_has_never hA hnever)
  refine right_ite (fun _ => right_flipped) fun hnever' => ?_
  refine right_ite (fun _ => trivial) fun hintersection => ?_
  refine right_ite (fun _ => right_relateUnion hA _ fun _ hu => hu) fun hunion => ?_
  refine right_ite (fun _ => right_relateToUnion hA _ fun _ hu => hu) fun hunion' => ?_
  obtain ⟨hintersection, hintersection'⟩ := Bool.or_eq_false_iff.mp (Bool.eq_false_iff.mpr hintersection)
  cases hneg : (A.ty right).negated? with
  | some t => exact right_relateNegation hA (negated_eq.mp hneg)
  | none =>
    refine right_ite (fun _ => right_flipped) fun hneg' => right_relateConcrete hA hcalm ?_ ?_
    · exact concrete_of hunknown hany herror hnever hunion hintersection (by simpa using hneg')
    · exact concrete_of hunknown' hany' herror' hnever' hunion' hintersection' hneg

end Concrete

end Luwu.Simplify
