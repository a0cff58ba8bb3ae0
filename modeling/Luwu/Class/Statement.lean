import Luwu.Class.Access

/-!
# Class statements

The class that the loader makes and the members that its class statement adds (`ClassOk`).
-/

namespace Luwu

open Function

section Statement

variable {s : ClassState} {B : ClassBooks} {c f constructor : GCPtr} {classdef classdef' : LuauClass}
  {shape : ClassShape} {members : List (GCPtr × MemberFlags)} {name : GCPtr} {i offset p : ℕ}
  {m : GCPtr × GCPtr} {value : TValue}

/-! ### Offsets -/

/-- The member at an offset has the name. -/
def NameAt (members : List (GCPtr × MemberFlags)) (name : GCPtr) (i : ℕ) : Prop :=
  (members[i]?).map Prod.fst = some name

theorem nameAt_lt (h : NameAt members name i) : i < members.length := by
  by_contra hlt
  unfold NameAt at h
  rw [List.getElem?_eq_none (by omega)] at h
  cases h

theorem nameAt_unique (hnd : (members.map Prod.fst).Nodup) {j : ℕ} (hi : NameAt members name i)
    (hj : NameAt members name j) : i = j := by
  have hlt := nameAt_lt hi
  unfold NameAt at hi hj
  rw [← List.getElem?_map] at hi hj
  exact (List.getElem?_inj (by rwa [List.length_map]) hnd).mp (hi.trans hj.symm)

/-- The search has seen the first `n` members. -/
theorem lastoffset_loop (members : List (GCPtr × MemberFlags)) (name : GCPtr) (n : ℕ) :
    (∀ i, (List.range n).foldl (fun found i => if (members[i]?).map Prod.fst = some name then some i
      else found) none = some i → NameAt members name i) ∧
    ∀ i < n, NameAt members name i → (List.range n).foldl
      (fun found i => if (members[i]?).map Prod.fst = some name then some i else found) none ≠ none := by
  induction n with
  | zero =>
    constructor
    · intro i hi
      cases hi
    · intro i hi
      omega
  | succ n ih =>
    rw [List.range_succ, List.foldl_append]
    simp only [List.foldl_cons, List.foldl_nil]
    constructor
    · intro i hi
      split at hi
      · next hn =>
        cases hi
        exact hn
      · exact ih.1 i hi
    · intro i hi hname
      split
      · exact Option.some_ne_none n
      · next hn =>
        apply ih.2 i _ hname
        have hne : i ≠ n := by
          rintro rfl
          exact hn hname
        omega

/-- Where names are distinct the offset of a name is where it stands. -/
theorem lastoffset_iff (hnd : (members.map Prod.fst).Nodup) :
    lastoffset members name = some i ↔ NameAt members name i := by
  constructor
  · exact (lastoffset_loop members name members.length).1 i
  · intro hi
    obtain ⟨j, hj⟩ := Option.ne_none_iff_exists'.mp
      ((lastoffset_loop members name members.length).2 i (nameAt_lt hi) hi)
    rw [nameAt_unique hnd hi ((lastoffset_loop members name members.length).1 j hj)]
    exact hj

/-- The `__init` of a class stands among its functions. -/
theorem exists_nameAt_init (shape : ClassShape) :
    ∃ i, shape.properties.length ≤ i ∧ NameAt shape.members initName i := by
  unfold ClassShape.members
  split
  · next hm =>
    obtain ⟨⟨name, flags⟩, hmem, hname⟩ := List.mem_map.mp hm
    obtain ⟨k, hk⟩ := List.mem_iff_getElem?.mp hmem
    refine ⟨shape.properties.length + k, Nat.le_add_right _ _, ?_⟩
    unfold NameAt
    rw [List.getElem?_append_right (Nat.le_add_right _ _), Nat.add_sub_cancel_left, hk]
    exact congrArg some hname
  · refine ⟨(shape.properties ++ shape.methods).length, ?_, ?_⟩
    · rw [List.length_append]
      exact Nat.le_add_right _ _
    · unfold NameAt
      rw [List.getElem?_concat_length]
      rfl

/-! ### The loader -/

theorem any_flag_update (get : MemberFlags → Bool) {flags : ℕ → MemberFlags} {n j : ℕ}
    {new : MemberFlags} (hsame : get new = get (flags j))
    (h : (List.range n).any (fun i => get (flags i)) = false) (hi : i < n) :
    get (update flags j new i) = false := by
  have hall : get (flags i) = false := by
    have := List.any_eq_false.mp h i (List.mem_range.mpr hi)
    exact Bool.not_eq_true _ ▸ this
  by_cases he : i = j
  · rw [he, update_self, hsame, ← he]
    exact hall
  · rw [update_of_ne he]
    exact hall

theorem loadclass_ok (hnd : (shape.members.map Prod.fst).Nodup)
    (hdefaults : ∀ vs f, shape.defaults = some vs → TValue.gc .function f ∉ vs)
    (hseal : luaR_sealclassshape (luaR_newclass constructor shape) = .ok classdef) :
    ClassOk B c classdef ∧ classdef.metatable = constructor := by
  unfold luaR_sealclassshape at hseal
  obtain ⟨initoffset, hinit, hret⟩ := bind_ok hseal
  have hinit : lastoffset shape.members initName = some initoffset := orFault_ok hinit
  cases hret
  refine ⟨⟨fun i name hi => ?_, fun i name hi => ?_, fun i name name' hi hi' => ?_, hinit, ?_,
    update_self _ _ _, ?_, fun hno i hi => any_flag_update MemberFlags.isprivate rfl hno hi,
    fun hno i hi => any_flag_update MemberFlags.isconst rfl hno hi,
    fun i f hf => (by cases hf), fun e f hf => (by cases hf), fun hp => (by cases hp),
    fun d i f hd hf => ?_⟩, rfl⟩
  · by_cases he : i = initoffset
    · rw [he] at hi
      exact absurd ((update_self initoffset _ _).symm.trans hi) (Option.some_ne_none name).symm
    · apply (lastoffset_iff hnd).mpr
      exact (update_of_ne he _ _).symm.trans hi
  · exact nameAt_lt ((lastoffset_iff hnd).mp hi)
  · have h : NameAt shape.members name i := (lastoffset_iff hnd).mp hi
    have h' : NameAt shape.members name' i := (lastoffset_iff hnd).mp hi'
    exact Option.some.inj (h.symm.trans h')
  · obtain ⟨j, hj, hname⟩ := exists_nameAt_init shape
    rw [← nameAt_unique hnd hname ((lastoffset_iff hnd).mp hinit)]
    exact hj
  · simp only [update_self]
  · obtain ⟨vs, hvs, rfl⟩ := Option.map_eq_some_iff.mp hd
    apply hdefaults vs f hvs
    replace hf : vs.getD i .nil = .gc .function f := hf
    rw [List.getD_eq_getElem?_getD] at hf
    cases hi : vs[i]? with
    | none =>
      rw [hi] at hf
      cases hf
    | some v =>
      rw [hi] at hf
      exact hf ▸ List.mem_of_getElem? hi

/-! ### Members -/

/-- The books say what they said of functions that exist. -/
theorem members_record (h : ClassInv s B) (hf : s.closures f = none ∨ B.members f = some m) {g : GCPtr}
    {m' : GCPtr × GCPtr} (hg : B.members g = some m') : update B.members f (some m) g = some m' := by
  by_cases he : g = f
  · subst he
    cases hf with
    | inl hf =>
      obtain ⟨p, hp⟩ := h.members g m' hg
      rw [hf] at hp
      cases hp
    | inr hf =>
      rw [update_self, ← hf]
      exact hg
  · rw [update_of_ne he]
    exact hg

/-- A function of the class comes into the slot of its name. -/
theorem ClassOk.setstatic (h : ClassOk B c classdef) (hmem : B.members f = some (c, name))
    (hoff : classdef.memberstooffset name = some offset) (hn : classdef.numberofinstancemembers ≤ offset) :
    ClassOk B c { classdef with
      staticmembers := update classdef.staticmembers (offset - classdef.numberofinstancemembers)
        (.gc .function f) } where
  names := h.names
  bound := h.bound
  distinct := h.distinct
  init := h.init
  initstatic := h.initstatic
  hidden := h.hidden
  blocked := h.blocked
  privates := h.privates
  consts := h.consts
  statics := by
    intro i g hg
    by_cases he : i = offset - classdef.numberofinstancemembers
    · subst he
      replace hg : TValue.gc .function f = .gc .function g := (update_self _ _ _).symm.trans hg
      injection hg with _ hg
      subst hg
      refine ⟨name, hmem, hoff.trans (congrArg some ?_)⟩
      show offset = classdef.numberofinstancemembers + (offset - classdef.numberofinstancemembers)
      omega
    · exact h.statics i g ((update_of_ne he _ _).symm.trans hg)
  metamethods := h.metamethods
  poddefaults := h.poddefaults
  defaults := h.defaults

theorem ClassOk.addreserved (h : ClassOk B c classdef) (hoff : classdef.memberstooffset name = some offset)
    (hn : classdef.numberofinstancemembers ≤ offset) : ClassOk B c (addreserved classdef name offset) := by
  unfold Luwu.addreserved
  split
  · exact ⟨h.names, h.bound, h.distinct, h.init, h.initstatic, h.hidden, h.blocked, h.privates, h.consts,
      h.statics, h.metamethods, h.poddefaults, h.defaults⟩
  · split
    · next hd =>
      refine ⟨h.names, h.bound, h.distinct, h.init, h.initstatic, h.hidden, h.blocked, h.privates, h.consts,
        h.statics, h.metamethods, fun _ => ⟨?_, hn⟩, h.defaults⟩
      rw [← hd]
      exact hoff
    · exact h

/-- `__init` is not the name of a metamethod. -/
theorem ClassOk.addmetamethod (h : ClassOk B c classdef) (hmem : B.members f = some (c, name)) :
    ClassOk B c (addmetamethod classdef name (.gc .function f)) := by
  unfold Luwu.addmetamethod
  split
  · next hname =>
    refine ⟨h.names, h.bound, h.distinct, h.init, h.initstatic, h.hidden, h.blocked, h.privates, h.consts,
      h.statics, fun e g hg => ?_, h.poddefaults, h.defaults⟩
    by_cases he : e = name
    · subst he
      replace hg : TValue.gc .function f = .gc .function g := (update_self _ _ _).symm.trans hg
      injection hg with _ hg
      subst hg
      refine ⟨e, hmem, ?_⟩
      rintro rfl
      revert hname
      decide
    · exact h.metamethods e g ((update_of_ne he _ _).symm.trans hg)
  · exact h

theorem addreserved_same (classdef : LuauClass) (name : GCPtr) (offset : ℕ) :
    (addreserved classdef name offset).metatable = classdef.metatable ∧
      (addreserved classdef name offset).memberflags = classdef.memberflags := by
  unfold addreserved
  split
  · exact ⟨rfl, rfl⟩
  · split
    · exact ⟨rfl, rfl⟩
    · exact ⟨rfl, rfl⟩

theorem addmetamethod_same (classdef : LuauClass) (name : GCPtr) (value : TValue) :
    (addmetamethod classdef name value).metatable = classdef.metatable ∧
      (addmetamethod classdef name value).memberflags = classdef.memberflags := by
  unfold addmetamethod
  split
  · exact ⟨rfl, rfl⟩
  · exact ⟨rfl, rfl⟩

/-- A class is as good with more in the books. -/
theorem ClassOk.mono {B' : ClassBooks} (h : ClassOk B c classdef)
    (hmem : ∀ f m, B.members f = some m → B'.members f = some m) : ClassOk B' c classdef where
  names := h.names
  bound := h.bound
  distinct := h.distinct
  init := h.init
  initstatic := h.initstatic
  hidden := h.hidden
  blocked := h.blocked
  privates := h.privates
  consts := h.consts
  statics := fun i f hf => (h.statics i f hf).imp fun _ hn => ⟨hmem f _ hn.1, hn.2⟩
  metamethods := fun e f hf => (h.metamethods e f hf).imp fun _ hn => ⟨hmem f _ hn.1, hn.2⟩
  poddefaults := h.poddefaults
  defaults := h.defaults

theorem addclassmember_ok (h : ClassOk B c classdef) (hmem : B.members f = some (c, name))
    (hadd : luaR_addclassmember classdef name (.gc .function f) = .ok classdef') :
    ClassOk B c classdef' ∧ classdef'.metatable = classdef.metatable ∧
      classdef'.memberflags = classdef.memberflags := by
  unfold luaR_addclassmember at hadd
  obtain ⟨offset, hoff, hadd⟩ := bind_ok hadd
  obtain ⟨⟨⟩, hassert, hadd⟩ := bind_ok hadd
  have hoff := orFault_ok hoff
  have hn := assertion_ok hassert
  rw [decide_eq_true_eq] at hn
  cases hadd
  refine ⟨((h.setstatic hmem hoff hn).addreserved hoff hn).addmetamethod hmem, ?_, ?_⟩
  · rw [(addmetamethod_same _ _ _).1, (addreserved_same _ _ _).1]
  · rw [(addmetamethod_same _ _ _).2, (addreserved_same _ _ _).2]

end Statement

end Luwu
