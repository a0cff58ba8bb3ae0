import Mathlib.Data.List.Nodup
import Luwu.Class.Step

/-!
# What holds of classes and frames

`ClassBooks` records the functions that a program has obtained, the objects whose construction returned, the
functions that `debug.info` gave away, and the functions that class statements made.  The function of
`__init` is in no place where a program could take it from, and is called by constructions only, each of an
object of its own (`ClassInv`).
-/

namespace Luwu

open Function

structure ClassBooks where
  functions : List GCPtr
  built : List GCPtr
  introspected : List GCPtr
  /-- the class and the name that a function was made for -/
  members : GCPtr → Option (GCPtr × GCPtr)

def ClassBooks.empty : ClassBooks := ⟨[], [], [], fun _ => none⟩

/-- The functions among some values. -/
def functionsOf (vs : List TValue) : List GCPtr :=
  vs.filterMap fun v =>
    match v with
    | .gc .function f => some f
    | _ => none

/-- What a class statement writes into the books. -/
def ClassBooks.record (B : ClassBooks) : ClassOp → ClassBooks
  | .newclassmember lclass name f _ => { B with members := update B.members f (some (lclass, name)) }
  | _ => B

/-- The books after an operation. -/
def ClassBooks.after (B : ClassBooks) (op : ClassOp) (out : ClassOutcome) : ClassBooks where
  functions := functionsOf out.got ++ B.functions
  built := out.built.toList ++ B.built
  introspected := out.introspected.toList ++ B.introspected
  members := (B.record op).members

/-- The function is the `__init` of the class. -/
def Initializer (B : ClassBooks) (f lclass : GCPtr) : Prop := B.members f = some (lclass, initName)

/-- A class as the loader makes it, with functions that class statements made for it. -/
structure ClassOk (B : ClassBooks) (lclass : GCPtr) (classdef : LuauClass) : Prop where
  names : ∀ i name, classdef.offsettomember i = some name → classdef.memberstooffset name = some i
  bound : ∀ i name, classdef.memberstooffset name = some i → i < classdef.numberofallmembers
  distinct : ∀ i name name', classdef.memberstooffset name = some i →
    classdef.memberstooffset name' = some i → name = name'
  init : classdef.memberstooffset initName = some classdef.initoffset
  initstatic : classdef.numberofinstancemembers ≤ classdef.initoffset
  hidden : classdef.offsettomember classdef.initoffset = none
  blocked : (classdef.memberflags classdef.initoffset).initblocked = true
  privates : classdef.hasprivatemembers = false →
    ∀ i < classdef.numberofallmembers, (classdef.memberflags i).isprivate = false
  consts : classdef.hasconstmembers = false →
    ∀ i < classdef.numberofallmembers, (classdef.memberflags i).isconst = false
  statics : ∀ i f, classdef.staticmembers i = .gc .function f → ∃ name,
    B.members f = some (lclass, name) ∧
      classdef.memberstooffset name = some (classdef.numberofinstancemembers + i)
  metamethods : ∀ e f, classdef.instancemetatable e = .gc .function f → ∃ name,
    B.members f = some (lclass, name) ∧ name ≠ initName
  poddefaults : classdef.haspoddefaultsfn = true →
    classdef.memberstooffset defaultsName = some classdef.poddefaultsoffset ∧
      classdef.numberofinstancemembers ≤ classdef.poddefaultsoffset
  defaults : ∀ d i f, classdef.memberdefaults = some d → d i ≠ .gc .function f

/-- A frame of `__init` constructs the object in its register 0. -/
def FrameOk (s : ClassState) (B : ClassBooks) : Frame → Prop
  | .lua cl base0 constructs => (∃ p, s.closures cl = some (.lua p)) ∧
      ∀ lclass, Initializer B cl lclass → ∃ o object, constructs = some o ∧ base0 = .gc .luaobject o ∧
        s.objects o = some object ∧ object.lclass = lclass
  | .c cl => s.closures cl = some .c ∨ s.closures cl = some .createobject
  | .pod cl _ _ accessor => s.closures cl = some .createobject ∧
      ∀ a, accessor = some a → ∃ p, s.closures a = some (.lua p)

/-- The objects under construction in a thread. -/
def ClassState.building (s : ClassState) (t : ℕ) : List GCPtr := (s.threads t).filterMap Frame.constructs

/-- A function that may be called like any other: it is no `__init`, or it comes from `debug.info`. -/
structure Callable (closures : GCPtr → Option Closure) (B : ClassBooks) (f : GCPtr) : Prop where
  allocated : closures f ≠ none
  noinit : ∀ c, Initializer B f c → f ∈ B.introspected

structure ClassInv (s : ClassState) (B : ClassBooks) : Prop where
  classes : ∀ c classdef, s.classes c = some classdef → ClassOk B c classdef
  constructors : ∀ c classdef, s.classes c = some classdef →
    s.closures classdef.metatable = some .createobject
  objects : ∀ p object, s.objects p = some object → s.classes object.lclass ≠ none ∧
    ∀ i f, object.members i = .gc .function f → Callable s.closures B f
  tables : ∀ t h k f, s.tables t = some h → h.get k = .gc .function f → Callable s.closures B f
  members : ∀ f m, B.members f = some m → ∃ p, s.closures f = some (.lua p)
  functions : ∀ f ∈ B.functions, Callable s.closures B f
  frames : ∀ t, ∀ ci ∈ s.threads t, FrameOk s B ci
  building : ∀ t, (s.building t).Nodup
  apart : ∀ t t' o, t ≠ t' → o ∈ s.building t → o ∉ s.building t'
  unbuilt : ∀ t, ∀ o ∈ s.building t, o ∉ B.built ∧ s.objects o ≠ none
  built : ∀ o ∈ B.built, s.objects o ≠ none

/-- An initializer from `debug.info` has just been called other than by a construction. -/
def Reinit (s : ClassState) (B : ClassBooks) : Prop :=
  ∃ f base0 rest c, s.threads s.running = .lua f base0 none :: rest ∧ Initializer B f c ∧
    f ∈ B.introspected

section Invariant

variable {s s' : ClassState} {B : ClassBooks} {c o p f lclass cl : GCPtr} {classdef : LuauClass}
  {object : LuauObject} {t : ℕ} {ci : Frame} {v : TValue} {m : GCPtr × GCPtr} {i : ℕ}

/-! ### Reading the invariant -/

theorem ClassOk.ne_init (h : ClassOk B c classdef) {name : GCPtr}
    (hn : classdef.memberstooffset name = some i) (hi : i ≠ classdef.initoffset) : name ≠ initName := by
  rintro rfl
  exact hi (Option.some.inj (hn.symm.trans h.init))

theorem notinit_of_members {name : GCPtr} (hf : B.members f = some (c, name)) (hn : name ≠ initName) :
    ∀ c', ¬Initializer B f c' := by
  intro c' hi
  exact hn (Prod.mk.inj (Option.some.inj (hf.symm.trans hi))).2

/-- The function in the slot of `__init` is the initializer of the class. -/
theorem ClassOk.initializer (h : ClassOk B c classdef)
    (hf : classdef.staticmembers (classdef.initoffset - classdef.numberofinstancemembers) =
      .gc .function f) : Initializer B f c := by
  obtain ⟨name, hm, hn⟩ := h.statics _ f hf
  rw [Nat.add_sub_cancel' h.initstatic] at hn
  rw [h.distinct _ _ _ hn h.init] at hm
  exact hm

theorem ClassInv.callable_members (h : ClassInv s B) {name : GCPtr}
    (hf : B.members f = some (c, name)) (hn : name ≠ initName) : Callable s.closures B f := by
  obtain ⟨p, hp⟩ := h.members f _ hf
  exact ⟨by rw [hp]; exact Option.some_ne_none _, fun c' hi => absurd hi (notinit_of_members hf hn c')⟩

theorem Callable.mono {closures closures' : GCPtr → Option Closure} (h : Callable closures B f)
    (hclosures : ∀ f k, closures f = some k → closures' f = some k) : Callable closures' B f := by
  obtain ⟨k, hk⟩ := Option.ne_none_iff_exists'.mp h.allocated
  exact ⟨Option.ne_none_iff_exists'.mpr ⟨k, hclosures f k hk⟩, h.noinit⟩

/-- The constructor of a class is a C function. -/
theorem ClassInv.callable_c (h : ClassInv s B) {k : Closure} (hf : s.closures f = some k)
    (hk : ∀ p, k ≠ .lua p) : Callable s.closures B f := by
  refine ⟨by rw [hf]; exact Option.some_ne_none _, fun c hi => ?_⟩
  obtain ⟨p, hp⟩ := h.members f _ hi
  exact absurd (Option.some.inj (hf.symm.trans hp)) (hk p)

/-- A member that is not `__init`. -/
theorem ClassInv.callable_static (h : ClassInv s B) (hc : s.classes c = some classdef)
    (hi : classdef.numberofinstancemembers + i ≠ classdef.initoffset)
    (hf : classdef.staticmembers i = .gc .function f) : Callable s.closures B f := by
  obtain ⟨name, hm, hn⟩ := (h.classes c classdef hc).statics i f hf
  exact h.callable_members hm ((h.classes c classdef hc).ne_init hn hi)

/-- The books may only grow. -/
theorem Callable.book {closures : GCPtr → Option Closure} (h : Callable closures B f)
    (fs os is : List GCPtr) :
    Callable closures ⟨fs, os, is ++ B.introspected, B.members⟩ f :=
  ⟨h.allocated, fun c hi => List.mem_append_right is (h.noinit c hi)⟩

theorem ClassInv.metaentry (h : ClassInv s B) {mt : Option GCPtr} {event : GCPtr}
    (hf : s.metaentry mt event = .gc .function f) : Callable s.closures B f := by
  unfold ClassState.metaentry at hf
  cases ht : mt.bind s.tables with
  | none =>
    rw [ht] at hf
    cases hf
  | some table =>
    rw [ht] at hf
    obtain ⟨tp, _, htp⟩ := Option.bind_eq_some_iff.mp ht
    exact h.tables tp table _ f htp hf

theorem ClassInv.gettmbyobj (h : ClassInv s B) {event : GCPtr}
    (hf : s.gettmbyobj v event = .gc .function f) : Callable s.closures B f := by
  unfold ClassState.gettmbyobj at hf
  split at hf
  · exact h.metaentry hf
  · next p =>
    split at hf
    · next classdef hc =>
      split at hf
      · cases hf
        exact h.callable_c (h.constructors p classdef hc) (fun q hq => by cases hq)
      · cases hf
    · cases hf
  · next p =>
    split at hf
    · next classdef hc =>
      obtain ⟨object, _, hcl⟩ := Option.bind_eq_some_iff.mp hc
      obtain ⟨name, hm, hn⟩ := (h.classes _ classdef hcl).metamethods event f hf
      exact h.callable_members hm hn
    · cases hf
  · exact h.metaentry hf

/-! ### Frames -/

theorem FrameOk.mono (h : FrameOk s B ci) (hclosures : ∀ f k, s.closures f = some k → s'.closures f = some k)
    (hobjects : ∀ o object, s.objects o = some object → ∃ object', s'.objects o = some object' ∧
      object'.lclass = object.lclass) : FrameOk s' B ci := by
  cases ci with
  | lua cl base0 constructs =>
    obtain ⟨⟨p, hp⟩, hinit⟩ := h
    refine ⟨⟨p, hclosures cl _ hp⟩, fun lclass hl => ?_⟩
    obtain ⟨o, object, hc, hb, ho, hlc⟩ := hinit lclass hl
    obtain ⟨object', ho', hlc'⟩ := hobjects o object ho
    exact ⟨o, object', hc, hb, ho', hlc'.trans hlc⟩
  | c cl => exact h.imp (hclosures cl _) (hclosures cl _)
  | pod cl object source accessor =>
    exact ⟨hclosures cl _ h.1, fun a ha => (h.2 a ha).imp fun p hp => hclosures a _ hp⟩

theorem FrameOk.func (h : FrameOk s B ci) : s.closures ci.func ≠ none := by
  cases ci with
  | lua cl base0 constructs =>
    obtain ⟨⟨p, hp⟩, _⟩ := h
    exact Option.ne_none_iff_exists'.mpr ⟨_, hp⟩
  | c cl => exact Option.ne_none_iff_exists'.mpr (h.elim (fun h => ⟨_, h⟩) (fun h => ⟨_, h⟩))
  | pod cl object source accessor => exact Option.ne_none_iff_exists'.mpr ⟨_, h.1⟩

theorem ClassInv.accessor (h : ClassInv s B) (hcl : s.accessor = some cl) :
    ∃ p, s.closures cl = some (.lua p) := by
  unfold ClassState.accessor at hcl
  split at hcl
  · next cl' base0 constructs rest hth =>
    cases hcl
    exact (h.frames s.running (.lua cl base0 constructs) (by rw [hth]; exact List.mem_cons_self)).1
  · cases hcl

theorem ClassInv.callinglua (h : ClassInv s B) (hcl : s.callinglua = some cl) :
    ∃ p, s.closures cl = some (.lua p) := by
  unfold ClassState.callinglua at hcl
  obtain ⟨ci, hci, hcase⟩ := List.exists_of_findSome?_eq_some hcl
  cases ci with
  | lua cl' base0 constructs =>
    cases hcase
    exact (h.frames s.running _ hci).1
  | c cl' => cases hcase
  | pod cl' object source accessor => cases hcase

/-- The closure of a Lua frame that may touch a private member owns the access. -/
theorem owns_of_trusts {p : ℕ} (hcl : s.closures cl = some (.lua p)) (h : s.trusts lclass (some cl) = true) :
    (s.protos p).ownerclass = some lclass := by
  unfold ClassState.trusts ClassState.isC ClassState.closureownsprivateaccess at h
  simpa [hcl] using h

end Invariant

end Luwu
