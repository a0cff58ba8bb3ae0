import Luwu.Normal.Types
import Luwu.Lib.Flatten

/-!
# Types in an arena

The finite closed types that the simplifier compares and joins.  A `TypeId` is the place of a type in its arena,
so that types may share parts, two types are the same when they stand at the same place, and a part stands
before the whole.  Tables are sealed, with properties that are only read and no indexer.
-/

namespace Luwu.Simplify

open Luwu.Normal (PrimitiveType SingletonType)
open Luwu.Flatten

abbrev TypeId := ℕ

/-- The properties of a table or class, in the order of their names. -/
abbrev Props := List (String × TypeId)

/-- A function type is known by its values only. -/
inductive Ty (Class Fn : Type) where
  | never
  | unknown
  | any
  | error
  | primitive (type : PrimitiveType)
  | singleton (variant : SingletonType)
  | function (f : Fn)
  | table (props : Props)
  | metatable (table metatable : TypeId)
  | externType (c : Class)
  | union (options : List TypeId)
  | intersection (parts : List TypeId)
  | negation (ty : TypeId)
  deriving DecidableEq

/-- The extern types: each has its own properties and those of its parents. -/
structure Classes (Class : Type) where
  parent : Class → Option Class
  props : Class → Props
  hasIndexer : Class → Bool
  depth : Class → ℕ
  parent_depth : ∀ c p, parent c = some p → depth p < depth c

abbrev Arena (Class Fn : Type) := List (Ty Class Fn)

variable {Class Fn : Type}

namespace Classes

variable (K : Classes Class)

def isSubclass [DecidableEq Class] (cls parent : Class) : Bool :=
  if cls = parent then true
  else match _h : K.parent cls with
    | none => false
    | some c => isSubclass c parent
termination_by K.depth cls
decreasing_by exact K.parent_depth _ _ _h

def lookupExternTypeProp (cls : Class) (name : String) : Option TypeId :=
  match (K.props cls).lookup name with
  | some t => some t
  | none =>
    match _h : K.parent cls with
    | none => none
    | some c => lookupExternTypeProp c name
termination_by K.depth cls
decreasing_by exact K.parent_depth _ _ _h

variable {K} [DecidableEq Class] {c d e : Class}

theorem isSubclass_iff : K.isSubclass d c = true ↔ d = c ∨ ∃ p, K.parent d = some p ∧ K.isSubclass p c = true := by
  rw [isSubclass]
  split
  · next heq => exact iff_of_true rfl (Or.inl heq)
  · next hne =>
    rw [or_iff_right hne]
    split
    · next hnone => simp [hnone]
    · next p hsome => simp [hsome]

omit [DecidableEq Class] in
/-- Induction from the class up to its root. -/
theorem rec_parent {P : Class → Prop} (h : ∀ d, (∀ p, K.parent d = some p → P p) → P d) (d : Class) : P d := by
  induction hn : K.depth d using Nat.strongRecOn generalizing d with
  | ind n ih =>
    apply h
    intro p hp
    have hlt := K.parent_depth d p hp
    exact ih (K.depth p) (by omega) p rfl

theorem isSubclass_trans (h : K.isSubclass d c = true) (h' : K.isSubclass c e = true) : K.isSubclass d e = true := by
  induction d using rec_parent (K := K) with
  | h d ih =>
    obtain rfl | ⟨p, hp, hpc⟩ := isSubclass_iff.mp h
    · exact h'
    · exact isSubclass_iff.mpr (Or.inr ⟨p, hp, ih p hp hpc⟩)

/-- The classes of an object are in line. -/
theorem isSubclass_linear (h : K.isSubclass d c = true) (h' : K.isSubclass d e = true) :
    K.isSubclass c e = true ∨ K.isSubclass e c = true := by
  induction d using rec_parent (K := K) with
  | h d ih =>
    obtain rfl | ⟨p, hp, hpc⟩ := isSubclass_iff.mp h
    · exact Or.inl h'
    · obtain rfl | ⟨q, hq, hqe⟩ := isSubclass_iff.mp h'
      · exact Or.inr h
      · obtain rfl := Option.some.inj (hp.symm.trans hq)
        exact ih p hp hpc hqe

end Classes

namespace Props

variable {ps : Props} {name : String} {t : TypeId}

theorem mem_of_lookup (h : ps.lookup name = some t) : (name, t) ∈ ps := by
  induction ps with
  | nil => cases h
  | cons p ps ih =>
    rw [List.lookup_cons] at h
    split at h
    · next heq =>
      rw [← Option.some.inj h, beq_iff_eq.mp heq]
      exact List.mem_cons_self
    · exact List.mem_cons_of_mem p (ih h)

theorem lookup_of_mem (hnodup : (ps.map Prod.fst).Nodup) (h : (name, t) ∈ ps) : ps.lookup name = some t := by
  induction ps with
  | nil => cases h
  | cons p ps ih =>
    obtain ⟨hnot, hnodup⟩ := List.nodup_cons.mp hnodup
    obtain rfl | h := List.mem_cons.mp h
    · exact List.lookup_cons_self
    · rw [List.lookup_cons]
      split
      · next heq =>
        rw [← beq_iff_eq.mp heq] at hnot
        exact absurd (List.mem_map_of_mem h) hnot
      · exact ih hnodup h

end Props

/-! ### Arenas -/

/-- The types that a type is made of. -/
def Ty.children : Ty Class Fn → List TypeId
  | .table props => props.map Prod.snd
  | .metatable t m => [t, m]
  | .union ts => ts
  | .intersection ts => ts
  | .negation t => [t]
  | _ => []

/-- The type at a place. -/
def Arena.ty (A : Arena Class Fn) (t : TypeId) : Ty Class Fn := A.getD t .never

def Ty.propNames : Ty Class Fn → List String
  | .table props => props.map Prod.fst
  | _ => []

/-- A type stands after its parts and has a part when it is a union or intersection. -/
structure Ty.Fits (n : Ty Class Fn) (t : TypeId) : Prop where
  children : ∀ u ∈ n.children, u < t
  options : n ≠ .union []
  parts : n ≠ .intersection []
  propNames : n.propNames.Nodup

theorem Ty.Fits.names {n : Ty Class Fn} {t : TypeId} {ps : Props} (h : n.Fits t) (hn : n = .table ps) :
    (ps.map Prod.fst).Nodup := by
  subst hn
  exact h.propNames

instance [DecidableEq Class] [DecidableEq Fn] (n : Ty Class Fn) (t : TypeId) : Decidable (n.Fits t) :=
  decidable_of_iff ((∀ u ∈ n.children, u < t) ∧ n ≠ .union [] ∧ n ≠ .intersection [] ∧ n.propNames.Nodup)
    ⟨fun h => ⟨h.1, h.2.1, h.2.2.1, h.2.2.2⟩, fun h => ⟨h.children, h.options, h.parts, h.propNames⟩⟩

/-- The types of an arena are finite, and the properties of its classes are there. -/
structure Arena.WellFormed (K : Classes Class) (A : Arena Class Fn) : Prop where
  fits : ∀ t, (A.ty t).Fits t
  classes : ∀ t c, A.ty t = .externType c → ∀ name u, K.lookupExternTypeProp c name = some u → u < A.length

theorem Arena.fits_all {A : Arena Class Fn} (h : ∀ t < A.length, (A.ty t).Fits t) (t : TypeId) : (A.ty t).Fits t := by
  by_cases ht : t < A.length
  · exact h t ht
  · have hty : A.ty t = .never := by
      unfold Arena.ty
      rw [List.getD_eq_getElem?_getD, List.getElem?_eq_none (Nat.le_of_not_lt ht)]
      rfl
    rw [hty]
    refine ⟨fun u hu => ?_, fun he => ?_, fun he => ?_, List.nodup_nil⟩
    · cases hu
    · cases he
    · cases he

def Arena.options (A : Arena Class Fn) (t : TypeId) : Option (List TypeId) :=
  match A.ty t with
  | .union ts => some ts
  | _ => none

def Arena.parts (A : Arena Class Fn) (t : TypeId) : Option (List TypeId) :=
  match A.ty t with
  | .intersection ts => some ts
  | _ => none

/-- What the iterator of a union yields. -/
def Arena.eachOption (A : Arena Class Fn) (t : TypeId) : List TypeId := flatten A.options (t + 1) t

/-- What the iterator of an intersection yields. -/
def Arena.eachPart (A : Arena Class Fn) (t : TypeId) : List TypeId := flatten A.parts (t + 1) t

/-! ### Values -/

inductive Kind (Class : Type) where
  | nil
  | none
  | boolean (b : Bool)
  | number
  | integer
  | string (s : String)
  | thread
  | function
  | table
  | buffer
  | object (c : Class)

def Kind.IsPrimitive : Kind Class → PrimitiveType → Prop
  | .nil, .nilType => True
  | .none, .noneType => True
  | .boolean _, .boolean => True
  | .number, .number => True
  | .integer, .integer => True
  | .string _, .string => True
  | .thread, .thread => True
  | .function, .function => True
  | .table, .table => True
  | .buffer, .buffer => True
  | _, _ => False

def Kind.IsSingleton : Kind Class → SingletonType → Prop
  | .boolean b, .boolean b' => b = b'
  | .string s, .string s' => s = s'
  | _, _ => False

/-- The run-time values, with their fields and metatables. -/
structure World (Class Fn : Type) where
  Val : Type
  kind : Val → Kind Class
  get : Val → String → Val
  metatable : Val → Option Val
  function : Fn → Val → Prop
  function_kind : ∀ f v, function f v → kind v = .function

/-- A run-time value, or the value of the error type. -/
inductive Value (Val : Type) where
  | run (v : Val)
  | error

section Meaning

variable [DecidableEq Class] (K : Classes Class) (W : World Class Fn)

/-- The values of a type, given those of its parts. -/
def Ty.Has (below : TypeId → Value W.Val → Prop) : Ty Class Fn → Value W.Val → Prop
  | .any, _ => True
  | .error, v => v = .error
  | .union ts, v => ∃ t ∈ ts, below t v
  | .intersection ts, v => ∀ t ∈ ts, below t v
  | _, .error => False
  | .never, .run _ => False
  | .unknown, .run _ => True
  | .primitive p, .run x => (W.kind x).IsPrimitive p
  | .singleton s, .run x => (W.kind x).IsSingleton s
  | .function f, .run x => W.function f x
  | .table ps, .run x => W.kind x = .table ∧ ∀ p ∈ ps, below p.2 (.run (W.get x p.1))
  | .metatable t m, .run x => W.kind x = .table ∧ below t (.run x) ∧ ∃ y, W.metatable x = some y ∧ below m (.run y)
  | .externType c, .run x => ∃ d, W.kind x = .object d ∧ K.isSubclass d c = true
  | .negation t, .run x => ¬ below t (.run x)

/-- The values of the type at a place; only what stands before it matters. -/
def Arena.Has (A : Arena Class Fn) (t : TypeId) (v : Value W.Val) : Prop :=
  (A.ty t).Has K W (fun u v => if _ : u < t then A.Has u v else False) v
termination_by t

variable {K W} {A B : Arena Class Fn} {n : Ty Class Fn} {t u : TypeId} {x : W.Val}

theorem Ty.has_congr {below below' : TypeId → Value W.Val → Prop}
    (h : ∀ u ∈ n.children, ∀ v, below u v ↔ below' u v) (v : Value W.Val) : n.Has K W below v ↔ n.Has K W below' v := by
  cases n with
  | union ts =>
    apply exists_congr
    intro u
    exact and_congr_right fun hu => h u hu v
  | intersection ts =>
    apply forall_congr'
    intro u
    exact imp_congr_right fun hu => h u hu v
  | table ps =>
    cases v with
    | error => exact Iff.rfl
    | run x =>
      apply and_congr_right
      intro _
      apply forall_congr'
      intro p
      exact imp_congr_right fun hp => h p.2 (List.mem_map_of_mem hp) _
  | metatable t m =>
    cases v with
    | error => exact Iff.rfl
    | run x =>
      have ht : t ∈ (Ty.metatable t m : Ty Class Fn).children := List.mem_cons_self
      have hm : m ∈ (Ty.metatable t m : Ty Class Fn).children := List.mem_cons_of_mem t List.mem_cons_self
      apply and_congr_right
      intro _
      exact and_congr (h t ht _) (exists_congr fun y => and_congr_right fun _ => h m hm _)
  | negation t =>
    cases v with
    | error => exact Iff.rfl
    | run x => exact not_congr (h t List.mem_cons_self _)
  | _ => cases v <;> exact Iff.rfl

theorem Arena.WellFormed.has_iff (hA : A.WellFormed K) (v : Value W.Val) :
    A.Has K W t v ↔ (A.ty t).Has K W (A.Has K W) v := by
  rw [Arena.Has]
  apply Ty.has_congr
  intro u hu v
  rw [dif_pos ((hA.fits t).children u hu)]

/-! ### The meaning of each type -/

theorem has_of (hA : A.WellFormed K) (h : A.ty t = n) {v : Value W.Val} : A.Has K W t v ↔ n.Has K W (A.Has K W) v := by
  rw [hA.has_iff, h]

/-! ### Options and parts -/

omit [DecidableEq Class] in
theorem options_eq {ts : List TypeId} : A.options t = some ts ↔ A.ty t = .union ts := by
  unfold Arena.options
  split
  · next us h => simp [h]
  · next h =>
    constructor
    · intro he
      cases he
    · intro he
      exact absurd he (h ts)

omit [DecidableEq Class] in
theorem options_below (hA : A.WellFormed K) : ∀ t ts, A.options t = some ts → ∀ u ∈ ts, u < t := by
  intro t ts hts u hu
  apply (hA.fits t).children u
  rw [options_eq.mp hts]
  exact hu

omit [DecidableEq Class] in
theorem mem_eachOption (hA : A.WellFormed K) : u ∈ A.eachOption t ↔ Leaf A.options t u :=
  mem_flatten_iff (options_below hA) (Nat.lt_succ_self t)

theorem has_leaf_options (hA : A.WellFormed K) (t : TypeId) (v : Value W.Val) :
    A.Has K W t v ↔ ∃ u, Leaf A.options t u ∧ A.Has K W u v := by
  induction t using Nat.strongRecOn with
  | ind t ih =>
    cases hts : A.options t with
    | none => simp [leaf_of_none hts]
    | some ts =>
      rw [has_of hA (options_eq.mp hts)]
      constructor
      · rintro ⟨s, hs, hv⟩
        obtain ⟨u, hu, hv⟩ := (ih s (options_below hA t ts hts s hs)).mp hv
        exact ⟨u, .inside hts hs hu, hv⟩
      · rintro ⟨u, hu, hv⟩
        obtain ⟨s, hs, hu⟩ := (leaf_of_some hts).mp hu
        exact ⟨s, hs, (ih s (options_below hA t ts hts s hs)).mpr ⟨u, hu, hv⟩⟩

/-- A type has the values of what the iterator yields. -/
theorem has_eachOption (hA : A.WellFormed K) (t : TypeId) (v : Value W.Val) :
    A.Has K W t v ↔ ∃ u ∈ A.eachOption t, A.Has K W u v := by
  rw [has_leaf_options hA]
  exact exists_congr fun u => and_congr_left fun _ => (mem_eachOption hA).symm

end Meaning

end Luwu.Simplify
