import Luwu.Class.Invariant

/-!
# What operations preserve

One lemma for each part of the state that an operation writes, and from these what a call, a read, a write
and a construction leave (`Stepped`).
-/

namespace Luwu

open Function

/-- Classes keep their flags, and objects that are constructed keep their const members. -/
structure Kept (s s' : ClassState) (built : List GCPtr) : Prop where
  flags : ∀ c classdef, s.classes c = some classdef → ∃ classdef', s'.classes c = some classdef' ∧
    classdef'.memberflags = classdef.memberflags
  consts : ∀ o ∈ built, ∀ object, s.objects o = some object → ∃ object', s'.objects o = some object' ∧
    object'.lclass = object.lclass ∧ ∀ classdef i, s.classes object.lclass = some classdef →
      (classdef.memberflags i).isconst = true → object'.members i = object.members i

/-- The closure of a Lua frame owns the class. -/
def Owns (s : ClassState) (lclass cl : GCPtr) : Prop :=
  ∃ p, s.closures cl = some (.lua p) ∧ (s.protos p).ownerclass = some lclass

/-- A private member is touched for Lua code of its class only. -/
def Private (s : ClassState) (access : Option MemberAccess) : Prop :=
  ∀ lclass offset cl classdef, access = some ⟨lclass, offset, some cl⟩ → s.classes lclass = some classdef →
    (classdef.memberflags offset).isprivate = true → Owns s lclass cl

/-- What an operation leaves; `B` has the functions of the class statements already. -/
structure Stepped (s : ClassState) (B : ClassBooks) (out : ClassOutcome) : Prop where
  inv : ¬Reinit out.state B → ClassInv out.state B
  got : ∀ f ∈ functionsOf out.got, Callable out.state.closures
    { B with introspected := out.introspected.toList ++ B.introspected } f
  built : ∀ o, out.built = some o → out.state.objects o ≠ none ∧ ∀ t, o ∉ out.state.building t
  kept : Kept s out.state B.built
  access : Private s out.access

section Preserve

variable {s s' : ClassState} {B : ClassBooks} {c o p f lclass cl fresh : GCPtr} {classdef : LuauClass}
  {object : LuauObject} {t : ℕ} {ci : Frame} {cis below : List Frame} {v key : TValue} {i offset : ℕ}
  {out : ClassOutcome} {args : List TValue} {accessor : Option GCPtr} {e : ClassError}

/-! ### Parts of the state -/

theorem Kept.refl (s : ClassState) (built : List GCPtr) : Kept s s built :=
  ⟨fun _ classdef h => ⟨classdef, h, rfl⟩, fun _ _ object h => ⟨object, h, rfl, fun _ _ _ _ => rfl⟩⟩

theorem Kept.trans {s'' : ClassState} {built : List GCPtr} (h : Kept s s' built)
    (h' : Kept s' s'' built) : Kept s s'' built where
  flags := by
    intro c classdef hc
    obtain ⟨classdef', hc', hf⟩ := h.flags c classdef hc
    obtain ⟨classdef'', hc'', hf'⟩ := h'.flags c classdef' hc'
    exact ⟨classdef'', hc'', hf'.trans hf⟩
  consts := by
    intro o ho object hobj
    obtain ⟨object', hobj', hl, hm⟩ := h.consts o ho object hobj
    obtain ⟨object'', hobj'', hl', hm'⟩ := h'.consts o ho object' hobj'
    refine ⟨object'', hobj'', hl'.trans hl, fun classdef i hc hconst => ?_⟩
    obtain ⟨classdef', hc', hf⟩ := h.flags _ classdef hc
    rw [hm' classdef' i (by rw [hl]; exact hc') (by rw [hf]; exact hconst), hm classdef i hc hconst]

theorem Kept.of_eq {built : List GCPtr} (hc : s'.classes = s.classes) (ho : s'.objects = s.objects) :
    Kept s s' built := by
  refine ⟨fun c classdef h => ⟨classdef, by rw [hc]; exact h, rfl⟩, fun o _ object h => ?_⟩
  exact ⟨object, by rw [ho]; exact h, rfl, fun _ _ _ _ => rfl⟩

theorem Private.none : Private s none := by
  intro lclass offset cl classdef h
  cases h

theorem ClassInv.setTable (h : ClassInv s B) {t : GCPtr} {table : TableMap}
    (hget : ∀ k f, table.get k = .gc .function f → Callable s.closures B f) :
    ClassInv { s with tables := update s.tables t (some table) } B where
  classes := h.classes
  constructors := h.constructors
  objects := h.objects
  tables := by
    intro t' table' k f ht hf
    by_cases he : t' = t
    · subst he
      have hsome : some table = some table' := (update_self t' _ _).symm.trans ht
      rw [← Option.some.inj hsome] at hf
      exact hget k f hf
    · exact h.tables t' table' k f ((update_of_ne he _ _).symm.trans ht) hf
  members := h.members
  functions := h.functions
  frames := fun t ci hci => (h.frames t ci hci).mono (fun _ _ hk => hk) (fun _ object ho => ⟨object, ho, rfl⟩)
  building := h.building
  apart := h.apart
  unbuilt := h.unbuilt
  built := h.built

/-- An object is made, or one of its members written. -/
theorem ClassInv.setObject (h : ClassInv s B) (hc : s.classes object.lclass ≠ none)
    (hm : ∀ i f, object.members i = .gc .function f → Callable s.closures B f)
    (hold : ∀ old, s.objects p = some old → object.lclass = old.lclass) :
    ClassInv { s with objects := update s.objects p (some object) } B := by
  have hkeep : ∀ o old, s.objects o = some old → ∃ new, update s.objects p (some object) o = some new ∧
      new.lclass = old.lclass := by
    intro o old ho
    by_cases he : o = p
    · subst he
      exact ⟨object, update_self o _ _, hold old ho⟩
    · exact ⟨old, (update_of_ne he _ _).trans ho, rfl⟩
  have halloc : ∀ o, s.objects o ≠ none → update s.objects p (some object) o ≠ none := by
    intro o ho
    obtain ⟨old, hold'⟩ := Option.ne_none_iff_exists'.mp ho
    obtain ⟨new, hnew, _⟩ := hkeep o old hold'
    rw [hnew]
    exact Option.some_ne_none new
  refine ⟨h.classes, h.constructors, fun o new ho => ?_, h.tables, h.members, h.functions, fun t ci hci => ?_,
    h.building, h.apart, fun t o ho => ?_, fun o ho => halloc o (h.built o ho)⟩
  · by_cases he : o = p
    · subst he
      have hsome : some object = some new := (update_self o _ _).symm.trans ho
      rw [← Option.some.inj hsome]
      exact ⟨hc, hm⟩
    · exact h.objects o new ((update_of_ne he _ _).symm.trans ho)
  · exact (h.frames t ci hci).mono (fun _ _ hk => hk) hkeep
  · exact ⟨(h.unbuilt t o ho).1, halloc o (h.unbuilt t o ho).2⟩

theorem building_update (cis : List Frame) (t : ℕ) :
    ({ s with threads := update s.threads s.running cis } : ClassState).building t =
      if t = s.running then cis.filterMap Frame.constructs else s.building t := by
  show (update s.threads s.running cis t).filterMap Frame.constructs = _
  by_cases he : t = s.running
  · rw [if_pos he, he, update_self]
  · rw [if_neg he, update_of_ne he]
    rfl

/-- The frames of the running thread change. -/
theorem ClassInv.setThread (h : ClassInv s B) (hframes : ∀ ci ∈ cis, FrameOk s B ci)
    (hnd : (cis.filterMap Frame.constructs).Nodup)
    (hnew : ∀ o ∈ cis.filterMap Frame.constructs, o ∈ s.building s.running ∨
      ((∀ t, o ∉ s.building t) ∧ o ∉ B.built ∧ s.objects o ≠ none)) :
    ClassInv { s with threads := update s.threads s.running cis } B := by
  have hother : ∀ o ∈ cis.filterMap Frame.constructs, ∀ t, t ≠ s.running → o ∉ s.building t := by
    intro o ho t ht
    cases hnew o ho with
    | inl hold => exact h.apart _ t o (Ne.symm ht) hold
    | inr hfresh => exact hfresh.1 t
  refine ⟨h.classes, h.constructors, h.objects, h.tables, h.members, h.functions, fun t ci hci => ?_,
    fun t => ?_, fun t t' o hne ho => ?_, fun t o ho => ?_, h.built⟩
  · have hok : FrameOk s B ci := by
      by_cases he : t = s.running
      · apply hframes
        rw [he] at hci
        rwa [show ({ s with threads := update s.threads s.running cis } : ClassState).threads s.running = cis from
          update_self _ _ _] at hci
      · apply h.frames t
        rwa [show ({ s with threads := update s.threads s.running cis } : ClassState).threads t = s.threads t from
          update_of_ne he _ _] at hci
    exact hok.mono (fun _ _ hk => hk) (fun _ object ho => ⟨object, ho, rfl⟩)
  · rw [building_update]
    by_cases he : t = s.running
    · rw [if_pos he]
      exact hnd
    · rw [if_neg he]
      exact h.building t
  · rw [building_update] at ho ⊢
    by_cases he : t = s.running
    · have he' : t' ≠ s.running := fun hc => hne (he.trans hc.symm)
      rw [if_pos he] at ho
      rw [if_neg he']
      exact hother o ho t' he'
    · rw [if_neg he] at ho
      by_cases he' : t' = s.running
      · rw [if_pos he']
        exact fun ho' => hother o ho' t he ho
      · rw [if_neg he']
        exact h.apart t t' o hne ho
  · rw [building_update] at ho
    by_cases he : t = s.running
    · rw [if_pos he] at ho
      cases hnew o ho with
      | inl hold => exact h.unbuilt _ o hold
      | inr hfresh => exact hfresh.2
    · rw [if_neg he] at ho
      exact h.unbuilt t o ho

theorem ClassInv.setRunning (h : ClassInv s B) (t : ℕ) : ClassInv { s with running := t } B where
  classes := h.classes
  constructors := h.constructors
  objects := h.objects
  tables := h.tables
  members := h.members
  functions := h.functions
  frames := fun t ci hci => (h.frames t ci hci).mono (fun _ _ hk => hk) (fun _ object ho => ⟨object, ho, rfl⟩)
  building := h.building
  apart := h.apart
  unbuilt := h.unbuilt
  built := h.built

/-- A new closure that no class statement made. -/
theorem ClassInv.setClosure (h : ClassInv s B) (hf : s.closures f = none) (k : Closure) :
    ClassInv { s with closures := update s.closures f (some k) } B := by
  have hkeep : ∀ g k', s.closures g = some k' → update s.closures f (some k) g = some k' := by
    intro g k' hg
    have hne : g ≠ f := by
      rintro rfl
      rw [hf] at hg
      cases hg
    rw [update_of_ne hne]
    exact hg
  refine ⟨h.classes, fun c classdef hc => hkeep _ _ (h.constructors c classdef hc), fun p object ho => ?_,
    fun t h' key g ht hg => (h.tables t h' key g ht hg).mono hkeep, fun g m hg => ?_,
    fun g hg => (h.functions g hg).mono hkeep, fun t ci hci => ?_, h.building, h.apart, h.unbuilt, h.built⟩
  · exact ⟨(h.objects p object ho).1, fun i g hg => ((h.objects p object ho).2 i g hg).mono hkeep⟩
  · obtain ⟨p, hp⟩ := h.members g m hg
    exact ⟨p, hkeep g _ hp⟩
  · exact (h.frames t ci hci).mono hkeep (fun _ object ho => ⟨object, ho, rfl⟩)

/-- What an operation adds to the books. -/
theorem ClassInv.book (h : ClassInv s B) {fs os is : List GCPtr}
    (hfs : ∀ f ∈ fs, Callable s.closures { B with introspected := is ++ B.introspected } f)
    (hos : ∀ o ∈ os, s.objects o ≠ none ∧ ∀ t, o ∉ s.building t) :
    ClassInv s ⟨fs ++ B.functions, os ++ B.built, is ++ B.introspected, B.members⟩ where
  classes := fun c classdef hc => ⟨(h.classes c classdef hc).names, (h.classes c classdef hc).bound,
    (h.classes c classdef hc).distinct, (h.classes c classdef hc).init, (h.classes c classdef hc).initstatic,
    (h.classes c classdef hc).hidden, (h.classes c classdef hc).blocked, (h.classes c classdef hc).privates,
    (h.classes c classdef hc).consts, (h.classes c classdef hc).statics,
    (h.classes c classdef hc).metamethods, (h.classes c classdef hc).poddefaults,
    (h.classes c classdef hc).defaults⟩
  constructors := h.constructors
  objects := fun p object ho => ⟨(h.objects p object ho).1, fun i f hf =>
    ((h.objects p object ho).2 i f hf).book _ _ is⟩
  tables := fun t table k f ht hf => (h.tables t table k f ht hf).book _ _ is
  members := h.members
  functions := by
    intro f hf
    cases List.mem_append.mp hf with
    | inl hf => exact ⟨(hfs f hf).allocated, (hfs f hf).noinit⟩
    | inr hf => exact (h.functions f hf).book _ _ is
  frames := by
    intro t ci hci
    have hok := h.frames t ci hci
    cases ci with
    | lua cl base0 constructs => exact hok
    | c cl => exact hok
    | pod cl object source accessor => exact hok
  building := h.building
  apart := h.apart
  unbuilt := by
    intro t o ho
    refine ⟨fun hm => ?_, (h.unbuilt t o ho).2⟩
    cases List.mem_append.mp hm with
    | inl hm => exact (hos o hm).2 t ho
    | inr hm => exact (h.unbuilt t o ho).1 hm
  built := by
    intro o ho
    cases List.mem_append.mp ho with
    | inl ho => exact (hos o ho).1
    | inr ho => exact h.built o ho

/-! ### Calls -/

/-- Frames come on top of the running thread. -/
theorem ClassInv.push (h : ClassInv s B) (hframes : ∀ ci ∈ cis, FrameOk s B ci)
    (hnd : (cis.filterMap Frame.constructs).Nodup)
    (hnew : ∀ o ∈ cis.filterMap Frame.constructs,
      (∀ t, o ∉ s.building t) ∧ o ∉ B.built ∧ s.objects o ≠ none) :
    ClassInv (s.push cis) B := by
  apply h.setThread
  · intro ci hci
    exact (List.mem_append.mp hci).elim (hframes ci) (h.frames s.running ci)
  · rw [List.filterMap_append]
    refine List.Nodup.append hnd (h.building s.running) (fun o ho ho' => ?_)
    exact (hnew o ho).1 s.running ho'
  · intro o ho
    rw [List.filterMap_append, List.mem_append] at ho
    exact ho.elim (fun ho => Or.inr (hnew o ho)) Or.inl

/-- An outcome that gives the program nothing. -/
theorem Stepped.quiet (hinv : ¬Reinit s' B → ClassInv s' B) (hk : Kept s s' B.built) :
    Stepped s B (.quiet s') where
  inv := hinv
  got := fun f hf => absurd hf List.not_mem_nil
  built := fun o ho => by cases ho
  kept := hk
  access := Private.none

theorem bind_ok {α β : Type} {x : ClassM α} {g : α → ClassM β} {b : β} (h : (x >>= g) = .ok b) :
    ∃ a, x = .ok a ∧ g a = .ok b := by
  cases x with
  | error e => cases h
  | ok a => exact ⟨a, rfl, h⟩

theorem orFault_ok {α : Type} {x : Option α} {a : α} (h : orFault x = .ok a) : x = some a := by
  cases x with
  | none => cases h
  | some b =>
    cases h
    rfl

theorem assertion_ok {b : Bool} (h : assertion b = .ok ⟨⟩) : b = true := by
  cases b with
  | true => rfl
  | false => cases h

/-- A fresh object is in no construction and not constructed. -/
theorem ClassInv.fresh_object (h : ClassInv s B) (hfresh : s.objects fresh = none) :
    (∀ t, fresh ∉ s.building t) ∧ fresh ∉ B.built :=
  ⟨fun t ht => (h.unbuilt t fresh ht).2 hfresh, fun hb => h.built fresh hb hfresh⟩

theorem ClassInv.newobject (h : ClassInv s B) (hfresh : s.objects fresh = none)
    (hc : s.classes c = some classdef) : ClassInv (s.luaR_newobject fresh c classdef) B := by
  apply h.setObject
  · show s.classes c ≠ none
    rw [hc]
    exact Option.some_ne_none _
  · intro i f hf
    cases hd : classdef.memberdefaults with
    | none =>
      rw [hd] at hf
      cases hf
    | some d =>
      rw [hd] at hf
      exact absurd hf ((h.classes c classdef hc).defaults d i f hd)
  · intro old hold
    rw [hfresh] at hold
    cases hold

theorem kept_newobject {built : List GCPtr} (hfresh : s.objects fresh = none) (cis : List Frame)
    (object : LuauObject) :
    Kept s (ClassState.push { s with objects := update s.objects fresh (some object) } cis) built := by
  refine ⟨fun c classdef hc => ⟨classdef, hc, rfl⟩, fun o _ object' ho => ?_⟩
  have hne : o ≠ fresh := by
    rintro rfl
    rw [hfresh] at ho
    cases ho
  exact ⟨object', (update_of_ne hne _ _).trans ho, rfl, fun _ _ _ _ => rfl⟩

theorem checkprivateconstructor_ok (h : s.checkprivateconstructor c classdef accessor = .ok ⟨⟩)
    (hinit : classdef.hascustominit = true) (hp : (classdef.memberflags classdef.initoffset).isprivate = true) :
    s.trusts c accessor = true := by
  unfold ClassState.checkprivateconstructor ClassState.hasprivateconstructor at h
  rw [hinit, hp] at h
  cases ht : s.trusts c accessor with
  | true => rfl
  | false =>
    rw [ht] at h
    cases h

/-- A construction that calls `__init`. -/
theorem callinit_ok (h : ClassInv s B) (hfresh : s.objects fresh = none) (hc : s.classes c = some classdef)
    (hinit : classdef.hascustominit = true) (hcheck : s.checkprivateconstructor c classdef accessor = .ok ⟨⟩)
    (hacc : ∀ cl, accessor = some cl → ∃ p, s.closures cl = some (.lua p))
    (hbelow : ∀ ci ∈ below, ∃ k, ci = .c k ∧ s.closures k = some .createobject)
    (hrun : s.callinit fresh c classdef below accessor = .ok out) : Stepped s B out := by
  unfold ClassState.callinit at hrun
  obtain ⟨f, hf, hret⟩ := bind_ok hrun
  have hstatic : classdef.staticmembers (classdef.initoffset - classdef.numberofinstancemembers) =
      .gc .function f ∧ ∃ p, s.closures f = some (.lua p) := by
    unfold ClassState.initclosure at hf
    split at hf
    · next g hg =>
      split at hf
      · next p hp =>
        cases hf
        exact ⟨hg, p, hp⟩
      · cases hf
    · cases hf
  have hi := (h.classes c classdef hc).initializer hstatic.1
  have hobj := h.newobject hfresh hc
  have hself : (s.luaR_newobject fresh c classdef).objects fresh =
      some ⟨c, classdef.memberdefaults.getD fun _ => .nil⟩ := update_self fresh _ _
  have hnone : below.filterMap Frame.constructs = [] := by
    apply List.filterMap_eq_nil_iff.mpr
    intro ci hci
    obtain ⟨k, rfl, _⟩ := hbelow ci hci
    rfl
  have hconstructs : (Frame.lua f (.gc .luaobject fresh) (some fresh) :: below).filterMap Frame.constructs =
      [fresh] := by
    rw [List.filterMap_cons, hnone]
    rfl
  cases hret
  refine ⟨fun _ => ?_, fun f hf => absurd hf List.not_mem_nil, fun o ho => (by cases ho),
    kept_newobject hfresh _ _, ?_⟩
  · apply hobj.push
    · intro ci hci
      cases List.mem_cons.mp hci with
      | inl he =>
        rw [he]
        refine ⟨hstatic.2, fun lclass hl => ⟨fresh, _, rfl, rfl, hself, ?_⟩⟩
        exact (Prod.mk.inj (Option.some.inj (hi.symm.trans hl))).1
      | inr hm =>
        obtain ⟨k, rfl, hk⟩ := hbelow ci hm
        exact Or.inr hk
    · rw [hconstructs]
      exact List.nodup_singleton fresh
    · intro o ho
      rw [hconstructs, List.mem_singleton] at ho
      rw [ho]
      exact ⟨(h.fresh_object hfresh).1, (h.fresh_object hfresh).2, by rw [hself]; exact Option.some_ne_none _⟩
  · intro lclass offset cl classdef' ha hc' hp
    obtain ⟨rfl, rfl, rfl⟩ := MemberAccess.mk.inj (Option.some.inj ha)
    obtain rfl : classdef = classdef' := Option.some.inj (hc.symm.trans hc')
    obtain ⟨p, hcl⟩ := hacc cl rfl
    exact ⟨p, hcl, owns_of_trusts hcl (checkprivateconstructor_ok hcheck hinit hp)⟩

/-- The POD constructor starts. -/
theorem pod_ok (h : ClassInv s B) (hfresh : s.objects fresh = none) (hc : s.classes c = some classdef)
    (hcl : s.closures cl = some .createobject)
    (hacc : ∀ cl, accessor = some cl → ∃ p, s.closures cl = some (.lua p)) (source : TValue) :
    Stepped s B (.quiet ((s.luaR_newobject fresh c classdef).push [.pod cl fresh source accessor])) := by
  have hobj := h.newobject hfresh hc
  have hself : (s.luaR_newobject fresh c classdef).objects fresh =
      some ⟨c, classdef.memberdefaults.getD fun _ => .nil⟩ := update_self fresh _ _
  refine Stepped.quiet (fun _ => ?_) (kept_newobject hfresh _ _)
  apply hobj.push
  · intro ci hci
    rw [List.mem_singleton.mp hci]
    exact ⟨hcl, hacc⟩
  · exact List.nodup_singleton fresh
  · intro o ho
    rw [List.mem_singleton.mp (show o ∈ [fresh] from ho)]
    exact ⟨(h.fresh_object hfresh).1, (h.fresh_object hfresh).2, by rw [hself]; exact Option.some_ne_none _⟩

theorem createobject_ok (h : ClassInv s B) (hfresh : s.objects fresh = none)
    (hcl : s.closures cl = some .createobject) (hrun : s.luaR_createobject cl args fresh = .ok out) :
    Stepped s B out := by
  unfold ClassState.luaR_createobject at hrun
  split at hrun
  · next p args =>
    obtain ⟨classdef, hc, hrun⟩ := bind_ok hrun
    obtain ⟨⟨⟩, hcheck, hrun⟩ := bind_ok hrun
    have hc := orFault_ok hc
    split at hrun
    · next hinit =>
      refine callinit_ok h hfresh hc hinit hcheck (fun a ha => h.callinglua ha) (fun ci hci => ?_) hrun
      exact ⟨cl, List.mem_singleton.mp hci, hcl⟩
    · split at hrun
      · cases hrun
      · cases hrun
        exact pod_ok h hfresh hc hcl (fun a ha => h.callinglua ha) _
  · cases hrun
  · cases hrun

/-- A call of a function that is no initializer, or that comes from `debug.info`. -/
theorem precall_ok (h : ClassInv s B) (hf : Callable s.closures B f) (hfresh : s.objects fresh = none)
    (hrun : s.luau_precall f args fresh = .ok out) : Stepped s B out := by
  unfold ClassState.luau_precall at hrun
  split at hrun
  · next p hp =>
    cases hrun
    refine Stepped.quiet (fun hre => h.push (fun ci hci => ?_) List.nodup_nil (fun o ho => ?_))
      (Kept.of_eq rfl rfl)
    · rw [List.mem_singleton.mp hci]
      refine ⟨⟨p, hp⟩, fun c hi => absurd ⟨f, args.headD .nil, s.threads s.running, c, ?_, hi, hf.noinit c hi⟩ hre⟩
      exact update_self _ _ _
    · exact absurd ho List.not_mem_nil
  · next hp =>
    cases hrun
    refine Stepped.quiet (fun _ => h.push (fun ci hci => ?_) List.nodup_nil (fun o ho => ?_))
      (Kept.of_eq rfl rfl)
    · rw [List.mem_singleton.mp hci]
      exact Or.inl hp
    · exact absurd ho List.not_mem_nil
  · next hp => exact createobject_ok h hfresh hp hrun
  · cases hrun

theorem callvalue_ok (h : ClassInv s B) (hf : ∀ f, v = .gc .function f → Callable s.closures B f)
    (hfresh : s.objects fresh = none) (hrun : s.callvalue v args fresh = .ok out) : Stepped s B out := by
  unfold ClassState.callvalue at hrun
  split at hrun
  · next p => exact precall_ok h (hf p rfl) hfresh hrun
  · split at hrun
    · next p hp => exact precall_ok h (h.gettmbyobj hp) hfresh hrun
    · cases hrun

end Preserve

end Luwu
