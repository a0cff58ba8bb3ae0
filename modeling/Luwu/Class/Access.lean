import Luwu.Class.Preserve

/-!
# Access by name

What a read finds and where a write goes, whatever chain of metatables leads there: the checks of
`luaR_checkprivateaccess` and `luaR_checkconstassign` are on every way to a member, also where the offset
comes from a cache.
-/

namespace Luwu

open Function

/-- What a read finds is no initializer, and a private member is found for its class only. -/
def ReadOk (s : ClassState) (B : ClassBooks) (accessor : Option GCPtr) : ReadResult → Prop
  | .value v => ∀ f, v = .gc .function f → Callable s.closures B f
  | .member lclass offset v => (∀ f, v = .gc .function f → Callable s.closures B f) ∧
      Private s (some ⟨lclass, offset, accessor⟩)
  | .call tm _ _ => ∀ f, tm = .gc .function f → Callable s.closures B f

/-- A const member is written on an object under construction only. -/
def WriteOk (s : ClassState) (B : ClassBooks) : WritePlace → Prop
  | .slot _ _ => True
  | .member lclass p offset => (∃ object classdef, s.objects p = some object ∧ object.lclass = lclass ∧
      s.classes lclass = some classdef ∧ ((classdef.memberflags offset).isconst = true → p ∉ B.built)) ∧
      Private s (some ⟨lclass, offset, s.accessor⟩)
  | .call tm _ _ => ∀ f, tm = .gc .function f → Callable s.closures B f

section Access

variable {s : ClassState} {B : ClassBooks} {c p f lclass cl : GCPtr} {classdef : LuauClass}
  {object : LuauObject} {t v key : TValue} {offset slot fuel : ℕ} {accessor : Option GCPtr} {got : ReadResult}
  {place : WritePlace}

/-! ### Checks -/

theorem whenset_ok {flag : Bool} {check : ClassM Unit} (h : whenset flag check = .ok ⟨⟩)
    (hf : flag = true) : check = .ok ⟨⟩ := by
  rw [hf] at h
  exact h

theorem checkprivateaccess_ok (h : s.checkprivateaccess key c classdef accessor offset = .ok ⟨⟩) :
    (classdef.memberflags offset).initblocked = false ∧
      ((classdef.memberflags offset).isprivate = true → s.trusts c accessor = true) := by
  unfold ClassState.checkprivateaccess at h
  split at h
  · cases h
  · next hb =>
    refine ⟨Bool.not_eq_true _ ▸ hb, fun hp => ?_⟩
    rw [hp] at h
    cases ht : s.trusts c accessor with
    | true => rfl
    | false =>
      rw [ht] at h
      cases h

/-- A trusted accessor that is a Lua closure owns the class. -/
theorem private_of_trusts (hc : s.classes c = some classdef)
    (hacc : ∀ cl, accessor = some cl → ∃ p, s.closures cl = some (.lua p))
    (ht : (classdef.memberflags offset).isprivate = true → s.trusts c accessor = true) :
    Private s (some ⟨c, offset, accessor⟩) := by
  intro lclass offset' cl classdef' ha hc' hp
  obtain ⟨rfl, rfl, rfl⟩ := MemberAccess.mk.inj (Option.some.inj ha)
  obtain rfl : classdef = classdef' := Option.some.inj (hc.symm.trans hc')
  obtain ⟨p, hcl⟩ := hacc cl rfl
  exact ⟨p, hcl, owns_of_trusts hcl (ht hp)⟩

/-- The name at a cached offset is not `__init`. -/
theorem cached_ok (h : ClassOk B c classdef) (hcached : ClassState.cached classdef slot key = true) :
    slot < classdef.numberofallmembers ∧ slot ≠ classdef.initoffset := by
  unfold ClassState.cached at hcached
  rw [Bool.and_eq_true, decide_eq_true_eq] at hcached
  refine ⟨hcached.1, fun he => ?_⟩
  have hname := hcached.2
  rw [he, h.hidden] at hname
  simp at hname

theorem offsetof_ok (h : ClassOk B c classdef) (hoff : ClassState.offsetof classdef key = some offset) :
    offset < classdef.numberofallmembers := by
  unfold ClassState.offsetof at hoff
  split at hoff
  · next name => exact h.bound offset name hoff
  · cases hoff

/-! ### Reads -/

/-- A member of an object that is not `__init`. -/
theorem ClassInv.callable_lookup (h : ClassInv s B) (ho : s.objects p = some object)
    (hc : s.classes object.lclass = some classdef) (hne : offset ≠ classdef.initoffset)
    (hf : luaR_lookupmemberatoffset object classdef offset = .gc .function f) :
    Callable s.closures B f := by
  unfold luaR_lookupmemberatoffset at hf
  split at hf
  · exact (h.objects p object ho).2 offset f hf
  · next hlt => exact h.callable_static hc (by omega) hf

theorem ne_init_of_unblocked (h : ClassOk B c classdef)
    (hb : (classdef.memberflags offset).initblocked = false) : offset ≠ classdef.initoffset := by
  intro he
  rw [he, h.blocked] at hb
  cases hb

theorem getobject_ok (h : ClassInv s B)
    (hacc : ∀ cl, accessor = some cl → ∃ p, s.closures cl = some (.lua p))
    (hrun : s.getobject t key p accessor = .ok got) : ReadOk s B accessor got := by
  unfold ClassState.getobject at hrun
  obtain ⟨object, ho, hrun⟩ := bind_ok hrun
  obtain ⟨classdef, hc, hrun⟩ := bind_ok hrun
  have ho := orFault_ok ho
  have hc := orFault_ok hc
  split at hrun
  · cases hrun
  · next offset hoff =>
    unfold ClassState.objectmember at hrun
    obtain ⟨⟨⟩, hcheck, hrun⟩ := bind_ok hrun
    obtain ⟨hb, hp⟩ := checkprivateaccess_ok hcheck
    cases hrun
    exact ⟨fun f hf => h.callable_lookup ho hc (ne_init_of_unblocked (h.classes _ _ hc) hb) hf,
      private_of_trusts hc hacc hp⟩

theorem getclass_ok (h : ClassInv s B)
    (hacc : ∀ cl, accessor = some cl → ∃ p, s.closures cl = some (.lua p))
    (hrun : s.getclass t key p accessor = .ok got) : ReadOk s B accessor got := by
  unfold ClassState.getclass at hrun
  obtain ⟨classdef, hc, hrun⟩ := bind_ok hrun
  have hc := orFault_ok hc
  split at hrun
  · cases hrun
  · next offset hoff =>
    split at hrun
    · cases hrun
    · next hlt =>
      obtain ⟨⟨⟩, hcheck, hrun⟩ := bind_ok hrun
      obtain ⟨hb, hp⟩ := checkprivateaccess_ok hcheck
      have hne := ne_init_of_unblocked (h.classes _ _ hc) hb
      cases hrun
      exact ⟨fun f hf => h.callable_static hc (by omega) hf, private_of_trusts hc hacc hp⟩

theorem gettableloop_ok (h : ClassInv s B)
    (hacc : ∀ cl, accessor = some cl → ∃ p, s.closures cl = some (.lua p))
    (hrun : s.gettableloop key accessor fuel t = .ok got) : ReadOk s B accessor got := by
  induction fuel generalizing t with
  | zero => cases hrun
  | succ fuel ih =>
    unfold ClassState.gettableloop at hrun
    split at hrun
    · exact getobject_ok h hacc hrun
    · exact getclass_ok h hacc hrun
    · next p =>
      split at hrun
      · cases hrun
      · next table ht =>
        split at hrun
        · cases hrun
          exact fun f hf => h.tables p table key f ht hf
        · split at hrun
          · cases hrun
            intro f hf
            cases hf
          · next f hf =>
            cases hrun
            intro f' hf'
            cases hf'
            exact h.metaentry hf
          · exact ih hrun
    · split at hrun
      · cases hrun
      · next f hf =>
        cases hrun
        intro f' hf'
        cases hf'
        exact h.gettmbyobj hf
      · exact ih hrun

theorem gettable_ok (h : ClassInv s B) (hrun : s.luaV_gettable t key = .ok got) :
    ReadOk s B s.accessor got :=
  gettableloop_ok h (fun _ hcl => h.accessor hcl) hrun

/-- The check of a fast path is the whole check, since the flag is set when a member is private. -/
theorem checkcached_ok (h : ClassInv s B) (hc : s.classes c = some classdef)
    (hslot : slot < classdef.numberofallmembers)
    (hcheck : s.checkcached key c classdef s.accessor slot = .ok ⟨⟩) :
    Private s (some ⟨c, slot, s.accessor⟩) := by
  apply private_of_trusts hc (fun _ hcl => h.accessor hcl)
  intro hp
  have hflag : classdef.hasprivatemembers = true := by
    by_contra hno
    have hall := (h.classes _ _ hc).privates (Bool.not_eq_true _ ▸ hno) slot hslot
    rw [hp] at hall
    cases hall
  exact (checkprivateaccess_ok (whenset_ok hcheck hflag)).2 hp

theorem getobjectks_ok (h : ClassInv s B) (hrun : s.getobjectks slot t key p = .ok got) :
    ReadOk s B s.accessor got := by
  unfold ClassState.getobjectks at hrun
  obtain ⟨object, ho, hrun⟩ := bind_ok hrun
  obtain ⟨classdef, hc, hrun⟩ := bind_ok hrun
  have ho := orFault_ok ho
  have hc := orFault_ok hc
  split at hrun
  · next hcached =>
    obtain ⟨⟨⟩, hcheck, hrun⟩ := bind_ok hrun
    obtain ⟨hslot, hne⟩ := cached_ok (h.classes _ _ hc) hcached
    cases hrun
    exact ⟨fun f hf => h.callable_lookup ho hc hne hf, checkcached_ok h hc hslot hcheck⟩
  · exact getobject_ok h (fun _ hcl => h.accessor hcl) hrun

theorem getclassks_ok (h : ClassInv s B) (hrun : s.getclassks slot t key p = .ok got) :
    ReadOk s B s.accessor got := by
  unfold ClassState.getclassks at hrun
  obtain ⟨classdef, hc, hrun⟩ := bind_ok hrun
  have hc := orFault_ok hc
  split at hrun
  · next hcached =>
    rw [Bool.and_eq_true, decide_eq_true_eq] at hcached
    obtain ⟨⟨⟩, hcheck, hrun⟩ := bind_ok hrun
    obtain ⟨hslot, hne⟩ := cached_ok (h.classes _ _ hc) hcached.1
    cases hrun
    exact ⟨fun f hf => h.callable_static hc (by omega) hf, checkcached_ok h hc hslot hcheck⟩
  · exact getclass_ok h (fun _ hcl => h.accessor hcl) hrun

theorem readvalue_ok (h : ClassInv s B) {form : ReadForm} (hrun : s.readvalue form t key = .ok got) :
    ReadOk s B s.accessor got := by
  cases form with
  | gettable => exact gettable_ok h hrun
  | gettableks slot =>
    replace hrun : s.gettableks slot t key = .ok got := hrun
    unfold ClassState.gettableks at hrun
    split at hrun
    · exact getobjectks_ok h hrun
    · exact getclassks_ok h hrun
    · exact gettable_ok h hrun
  | namecall slot =>
    replace hrun : s.namecall slot t key = .ok got := hrun
    unfold ClassState.namecall at hrun
    split at hrun
    · exact getobjectks_ok h hrun
    · exact gettable_ok h hrun
    · split at hrun
      · exact gettable_ok h hrun
      · cases hrun
        exact fun f hf => h.metaentry hf

/-! ### Writes -/

/-- The initializer that may write const members writes those of the object it constructs. -/
theorem checkconstassign_ok (h : ClassInv s B) (hc : s.classes c = some classdef)
    (hconst : (classdef.memberflags offset).isconst = true)
    (hcheck : s.checkconstassign key p c classdef s.accessor offset = .ok ⟨⟩) : p ∉ B.built := by
  unfold ClassState.checkconstassign at hcheck
  rw [hconst] at hcheck
  cases hacc : s.accessor with
  | none =>
    rw [hacc] at hcheck
    cases hcheck
  | some cl =>
    rw [hacc] at hcheck
    simp only [Bool.not_true, Bool.false_eq_true, if_false] at hcheck
    split at hcheck
    · cases hcheck
    · next hinit =>
      split at hcheck
      · next hbase =>
        have hinit : Initializer B cl c := by
          apply (h.classes c classdef hc).initializer
          simp only [ClassState.closureisinit, Bool.not_eq_true', Bool.and_eq_true, beq_iff_eq,
            Bool.not_eq_false] at hinit
          exact hinit.2
        unfold ClassState.accessor at hacc
        split at hacc
        · next cl' base0 constructs rest hth =>
          cases hacc
          have hmem : Frame.lua cl base0 constructs ∈ s.threads s.running := by
            rw [hth]
            exact List.mem_cons_self
          obtain ⟨o, object, hco, hb, _, _⟩ := (h.frames s.running _ hmem).2 c hinit
          have hop : o = p := by
            unfold ClassState.base0 at hbase
            rw [hth, hb] at hbase
            injection hbase
          apply (h.unbuilt s.running p _).1
          apply List.mem_filterMap.mpr
          exact ⟨_, hmem, hop ▸ hco⟩
        · cases hacc
      · cases hcheck

theorem checkwrite_ok (h : ClassInv s B) (ho : s.objects p = some object)
    (hc : s.classes object.lclass = some classdef) (hoff : offset < classdef.numberofallmembers)
    (hcheck : s.checkwrite key p object.lclass classdef offset = .ok ⟨⟩) :
    WriteOk s B (.member object.lclass p offset) := by
  unfold ClassState.checkwrite at hcheck
  obtain ⟨⟨⟩, hprivate, hcheck⟩ := bind_ok hcheck
  refine ⟨⟨object, classdef, ho, rfl, hc, fun hconst => ?_⟩, checkcached_ok h hc hoff hprivate⟩
  have hflag : classdef.hasconstmembers = true := by
    by_contra hno
    have hall := (h.classes _ _ hc).consts (Bool.not_eq_true _ ▸ hno) offset hoff
    rw [hconst] at hall
    cases hall
  exact checkconstassign_ok h hc hconst (whenset_ok hcheck hflag)

theorem setobject_ok (h : ClassInv s B) (hrun : s.setobject t key p = .ok place) : WriteOk s B place := by
  unfold ClassState.setobject at hrun
  obtain ⟨object, ho, hrun⟩ := bind_ok hrun
  obtain ⟨classdef, hc, hrun⟩ := bind_ok hrun
  have ho := orFault_ok ho
  have hc := orFault_ok hc
  split at hrun
  · cases hrun
  · next offset hoff =>
    split at hrun
    · cases hrun
    · obtain ⟨⟨⟩, hcheck, hrun⟩ := bind_ok hrun
      cases hrun
      exact checkwrite_ok h ho hc (offsetof_ok (h.classes _ _ hc) hoff) hcheck

theorem slotof_ok {table : TableMap} (hrun : ClassState.slotof table p key = .ok place) :
    WriteOk s B place := by
  unfold ClassState.slotof at hrun
  split at hrun
  · cases hrun
  · cases hrun
    exact trivial

theorem settableloop_ok (h : ClassInv s B) (hrun : s.settableloop key fuel t = .ok place) :
    WriteOk s B place := by
  induction fuel generalizing t with
  | zero => cases hrun
  | succ fuel ih =>
    unfold ClassState.settableloop at hrun
    split at hrun
    · exact setobject_ok h hrun
    · split at hrun
      · cases hrun
      · split at hrun
        · exact slotof_ok hrun
        · split at hrun
          · exact slotof_ok hrun
          · next f hf =>
            cases hrun
            intro f' hf'
            cases hf'
            exact h.metaentry hf
          · exact ih hrun
    · split at hrun
      · cases hrun
      · next f hf =>
        cases hrun
        intro f' hf'
        cases hf'
        exact h.gettmbyobj hf
      · exact ih hrun

theorem writeplace_ok (h : ClassInv s B) {form : WriteForm} (hrun : s.writeplace form t key = .ok place) :
    WriteOk s B place := by
  cases form with
  | settable => exact settableloop_ok h hrun
  | settableks slot =>
    replace hrun : s.settableks slot t key = .ok place := hrun
    unfold ClassState.settableks at hrun
    split at hrun
    · next p =>
      obtain ⟨object, ho, hrun⟩ := bind_ok hrun
      obtain ⟨classdef, hc, hrun⟩ := bind_ok hrun
      have ho := orFault_ok ho
      have hc := orFault_ok hc
      split at hrun
      · next hcached =>
        rw [Bool.and_eq_true, decide_eq_true_eq] at hcached
        obtain ⟨⟨⟩, hcheck, hrun⟩ := bind_ok hrun
        cases hrun
        exact checkwrite_ok h ho hc (cached_ok (h.classes _ _ hc) hcached.1).1 hcheck
      · exact setobject_ok h hrun
    · exact settableloop_ok h hrun

end Access

end Luwu
