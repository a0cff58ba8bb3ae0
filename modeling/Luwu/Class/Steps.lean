import Luwu.Class.Statement

/-!
# Every operation

What a program may do in a state (`ClassOp.Allowed`), and what each operation leaves (`exec_ok`).
-/

namespace Luwu

open Function

/-- The program has the value, if it is a function. -/
def ClassBooks.Has (B : ClassBooks) (v : TValue) : Prop := ∀ f, v = .gc .function f → f ∈ B.functions

/-- A program uses the functions that it has, and what it makes is new.  A class statement may make a
function again that it made before. -/
def ClassOp.Allowed (s : ClassState) (B : ClassBooks) : ClassOp → Prop
  | .loadclass lclass constructor shape => s.classes lclass = none ∧ s.closures constructor = none ∧
      (shape.members.map Prod.fst).Nodup ∧ ∀ vs f, shape.defaults = some vs → TValue.gc .function f ∉ vs
  | .newclosure f _ => s.closures f = none
  | .newcclosure f => s.closures f = none
  | .newclassmember lclass name f p => s.closures f = none ∨
      (s.closures f = some (.lua p) ∧ B.members f = some (lclass, name))
  | .newtable t => s.tables t = none
  | .setmetatable _ _ => True
  | .read _ _ _ fresh => s.objects fresh = none
  | .write _ _ _ v fresh => B.Has v ∧ s.objects fresh = none
  | .call f _ fresh => B.Has f ∧ s.objects fresh = none
  | .metamethod _ _ _ fresh => s.objects fresh = none
  | .newobject _ _ args fresh => (∀ v ∈ args, B.Has v) ∧ s.objects fresh = none
  | .poddefaults fresh => s.objects fresh = none
  | .podread _ fresh => s.objects fresh = none
  | .podresult _ v => B.Has v
  | .ret => True
  | .unwind _ => True
  | .resume _ => True
  | .dbinfo _ _ => True

section Steps

variable {s s' : ClassState} {B : ClassBooks} {c o p f lclass cl fresh : GCPtr} {classdef : LuauClass}
  {object : LuauObject} {ci : Frame} {cis : List Frame} {t v key : TValue} {i offset idx : ℕ}
  {out : ClassOutcome} {args : List TValue} {e : ClassError} {name : GCPtr}

/-! ### Classes and closures -/

theorem ClassInv.setClass (h : ClassInv s B) (hok : ClassOk B c classdef)
    (hcon : s.closures classdef.metatable = some .createobject) :
    ClassInv { s with classes := update s.classes c (some classdef) } B := by
  refine ⟨fun c' classdef' hc => ?_, fun c' classdef' hc => ?_, fun p object ho => ⟨?_, (h.objects p object ho).2⟩,
    h.tables, h.members, h.functions, fun t ci hci => ?_, h.building, h.apart, h.unbuilt, h.built⟩
  · by_cases he : c' = c
    · subst he
      have hsome : some classdef = some classdef' := (update_self c' _ _).symm.trans hc
      exact Option.some.inj hsome ▸ hok
    · exact h.classes c' classdef' ((update_of_ne he _ _).symm.trans hc)
  · by_cases he : c' = c
    · subst he
      have hsome : some classdef = some classdef' := (update_self c' _ _).symm.trans hc
      exact Option.some.inj hsome ▸ hcon
    · exact h.constructors c' classdef' ((update_of_ne he _ _).symm.trans hc)
  · show update s.classes c (some classdef) object.lclass ≠ none
    by_cases he : object.lclass = c
    · rw [he, update_self]
      exact Option.some_ne_none classdef
    · rw [update_of_ne he]
      exact (h.objects p object ho).1
  · exact (h.frames t ci hci).mono (fun _ _ hk => hk) (fun _ object ho => ⟨object, ho, rfl⟩)

theorem ClassInv.setProtos (h : ClassInv s B) (protos : ℕ → Proto) :
    ClassInv { s with protos := protos } B where
  classes := h.classes
  constructors := h.constructors
  objects := h.objects
  tables := h.tables
  members := h.members
  functions := h.functions
  frames := fun t ci hci => (h.frames t ci hci).mono (fun _ _ hk => hk) (fun _ object ho => ⟨object, ho, rfl⟩)
  building := h.building
  apart := h.apart
  unbuilt := h.unbuilt
  built := h.built

/-- A new function gets an entry in the books, of which nothing has heard yet. -/
theorem ClassInv.newmember (h : ClassInv s B) (hf : s.closures f = none) (p : ℕ) (m : GCPtr × GCPtr) :
    ClassInv { s with closures := update s.closures f (some (.lua p)) }
      { B with members := update B.members f (some m) } := by
  have hkeep : ∀ g k, s.closures g = some k → update s.closures f (some (.lua p)) g = some k := by
    intro g k hg
    have hne : g ≠ f := by
      rintro rfl
      rw [hf] at hg
      cases hg
    rw [update_of_ne hne]
    exact hg
  have hinit : ∀ g c, s.closures g ≠ none →
      Initializer { B with members := update B.members f (some m) } g c → Initializer B g c := by
    intro g c hg hi
    have hne : g ≠ f := by
      rintro rfl
      exact hg hf
    exact (update_of_ne hne _ _).symm.trans hi
  have hcall : ∀ g, Callable s.closures B g → Callable (update s.closures f (some (.lua p)))
      { B with members := update B.members f (some m) } g := by
    intro g hg
    obtain ⟨k, hk⟩ := Option.ne_none_iff_exists'.mp hg.allocated
    exact ⟨Option.ne_none_iff_exists'.mpr ⟨k, hkeep g k hk⟩, fun c hi => hg.noinit c (hinit g c hg.allocated hi)⟩
  refine ⟨fun c classdef hc => (h.classes c classdef hc).mono fun g m' hg => members_record h (Or.inl hf) hg,
    fun c classdef hc => hkeep _ _ (h.constructors c classdef hc),
    fun p object ho => ⟨(h.objects p object ho).1, fun i g hg => hcall g ((h.objects p object ho).2 i g hg)⟩,
    fun t table k g ht hg => hcall g (h.tables t table k g ht hg), fun g m' hg => ?_,
    fun g hg => hcall g (h.functions g hg), fun t ci hci => ?_, h.building, h.apart, h.unbuilt, h.built⟩
  · show ∃ q, update s.closures f (some (.lua p)) g = some (.lua q)
    by_cases he : g = f
    · exact ⟨p, by rw [he, update_self]⟩
    · obtain ⟨q, hq⟩ := h.members g m' ((update_of_ne he _ _).symm.trans hg)
      exact ⟨q, hkeep g _ hq⟩
  · have hok : FrameOk s { B with members := update B.members f (some m) } ci := by
      have hold := h.frames t ci hci
      cases ci with
      | lua cl base0 constructs =>
        refine ⟨hold.1, fun lclass hl => hold.2 lclass (hinit cl lclass ?_ hl)⟩
        obtain ⟨q, hq⟩ := hold.1
        rw [hq]
        exact Option.some_ne_none _
      | c cl => exact hold
      | pod cl object source accessor => exact hold
    exact hok.mono hkeep (fun _ object ho => ⟨object, ho, rfl⟩)

theorem loadclass_step {constructor : GCPtr} {shape : ClassShape} (h : ClassInv s B)
    (hallowed : (ClassOp.loadclass lclass constructor shape).Allowed s B)
    (hrun : (ClassOp.loadclass lclass constructor shape).exec s = .ok out) : Stepped s B out := by
  obtain ⟨hlclass, hconstructor, hnd, hdefaults⟩ := hallowed
  unfold ClassOp.exec at hrun
  obtain ⟨classdef, hseal, hret⟩ := bind_ok hrun
  obtain ⟨hok, hmt⟩ : ClassOk B lclass classdef ∧ classdef.metatable = constructor :=
    loadclass_ok hnd hdefaults hseal
  cases hret
  refine Stepped.quiet (fun _ => ?_) ⟨fun c classdef' hc => ?_, fun o _ object ho => ?_⟩
  · apply (h.setClosure hconstructor .createobject).setClass hok
    rw [hmt]
    exact update_self constructor _ _
  · have hne : c ≠ lclass := by
      rintro rfl
      rw [hlclass] at hc
      cases hc
    exact ⟨classdef', (update_of_ne hne _ _).trans hc, rfl⟩
  · exact ⟨object, ho, rfl, fun _ _ _ _ => rfl⟩

theorem newclassmember_step {q : ℕ} (h : ClassInv s B)
    (hallowed : (ClassOp.newclassmember lclass name f q).Allowed s B)
    (hrun : (ClassOp.newclassmember lclass name f q).exec s = .ok out) :
    Stepped s (B.record (.newclassmember lclass name f q)) out := by
  unfold ClassOp.exec at hrun
  obtain ⟨classdef, hc, hrun⟩ := bind_ok hrun
  obtain ⟨classdef', hadd, hret⟩ := bind_ok hrun
  have hc := orFault_ok hc
  have hnew : ClassInv { s with closures := update s.closures f (some (.lua q)) }
      (B.record (.newclassmember lclass name f q)) := by
    cases hallowed with
    | inl hfresh => exact h.newmember hfresh q (lclass, name)
    | inr hagain =>
      have hsame : B.record (.newclassmember lclass name f q) = B := by
        show { B with members := update B.members f (some (lclass, name)) } = B
        rw [update_eq_self_iff.mpr hagain.2.symm]
      rw [hsame, update_eq_self_iff.mpr hagain.1.symm]
      exact h
  obtain ⟨hok, hmt, hflags⟩ := addclassmember_ok (hnew.classes lclass classdef hc)
    (update_self f _ _) hadd
  cases hret
  refine Stepped.quiet (fun _ => ?_) ⟨fun c' classdef'' hc' => ?_, fun o _ object ho => ?_⟩
  · have hclass := hnew.setClass hok (by rw [hmt]; exact hnew.constructors lclass classdef hc)
    exact hclass.setProtos _
  · show ∃ new, update s.classes lclass (some classdef') c' = some new ∧ _
    by_cases he : c' = lclass
    · rw [he, hc] at hc'
      rw [he, update_self]
      exact ⟨classdef', rfl, hflags.trans (congrArg LuauClass.memberflags (Option.some.inj hc'))⟩
    · exact ⟨classdef'', (update_of_ne he _ _).trans hc', rfl⟩
  · exact ⟨object, ho, rfl, fun _ _ _ _ => rfl⟩

/-! ### Values -/

theorem functionsOf_singleton (h : ∀ f, v = .gc .function f → Callable s.closures B f) :
    ∀ f ∈ functionsOf [v], Callable s.closures { B with introspected := [] ++ B.introspected } f := by
  intro f hf
  obtain ⟨w, hw, hcase⟩ := List.mem_filterMap.mp hf
  rw [List.mem_singleton.mp hw] at hcase
  have hv : v = .gc .function f := by
    split at hcase
    · exact congrArg _ (Option.some.inj hcase)
    · cases hcase
  exact (h f hv).book _ _ []

/-- A value that is given to the program. -/
theorem Stepped.value (h : ClassInv s' B) (hv : ∀ f, v = .gc .function f → Callable s'.closures B f)
    (hk : Kept s s' B.built) : Stepped s B { ClassOutcome.quiet s' with got := [v] } where
  inv := fun _ => h
  got := functionsOf_singleton hv
  built := fun o ho => by cases ho
  kept := hk
  access := Private.none

theorem read_step (h : ClassInv s B) {form : ReadForm} (hfresh : s.objects fresh = none)
    (hrun : s.read form t key fresh = .ok out) : Stepped s B out := by
  unfold ClassState.read at hrun
  obtain ⟨got, hgot, hrun⟩ := bind_ok hrun
  have hok := readvalue_ok h hgot
  cases got with
  | value v =>
    cases hrun
    exact Stepped.value h hok (Kept.refl s _)
  | member lclass offset v =>
    cases hrun
    have hstep : Stepped s B { ClassOutcome.quiet s with got := [v] } := Stepped.value h hok.1 (Kept.refl s _)
    exact ⟨hstep.inv, hstep.got, hstep.built, hstep.kept, hok.2⟩
  | call tm t key => exact callvalue_ok h hok hfresh hrun

theorem ClassBooks.Has.callable (h : ClassInv s B) (hv : B.Has v) :
    ∀ f, v = .gc .function f → Callable s.closures B f :=
  fun f hf => h.functions f (hv f hf)

/-- A member of an object is written. -/
theorem ClassInv.setmember (h : ClassInv s B) (ho : s.objects p = some object)
    (hv : ∀ f, v = .gc .function f → Callable s.closures B f) :
    ClassInv (s.setmember p object offset v) B := by
  apply h.setObject
  · exact (h.objects p object ho).1
  · intro i f hf
    by_cases he : i = offset
    · subst he
      exact hv f ((update_self i v object.members).symm.trans hf)
    · exact (h.objects p object ho).2 i f ((update_of_ne he _ _).symm.trans hf)
  · intro old hold
    obtain rfl : object = old := Option.some.inj (ho.symm.trans hold)
    rfl

/-- A write to a member that is not const, or to an object that is not constructed. -/
theorem kept_setmember {built : List GCPtr} (ho : s.objects p = some object)
    (hconst : ∀ classdef, s.classes object.lclass = some classdef →
      (classdef.memberflags offset).isconst = true → p ∉ built) :
    Kept s (s.setmember p object offset v) built := by
  refine ⟨fun c classdef hc => ⟨classdef, hc, rfl⟩, fun o hbuilt object' ho' => ?_⟩
  show ∃ new, update s.objects p _ o = some new ∧ _
  by_cases he : o = p
  · subst he
    obtain rfl : object = object' := Option.some.inj (ho.symm.trans ho')
    rw [update_self]
    refine ⟨_, rfl, rfl, fun classdef i hc hi => update_of_ne ?_ _ _⟩
    rintro rfl
    exact hconst classdef hc hi hbuilt
  · exact ⟨object', (update_of_ne he _ _).trans ho', rfl, fun _ _ _ _ => rfl⟩

theorem write_step (h : ClassInv s B) {form : WriteForm} (hv : B.Has v) (hfresh : s.objects fresh = none)
    (hrun : s.write form t key v fresh = .ok out) : Stepped s B out := by
  unfold ClassState.write at hrun
  obtain ⟨place, hplace, hrun⟩ := bind_ok hrun
  have hok := writeplace_ok h hplace
  cases place with
  | slot p key =>
    obtain ⟨table, ht, hret⟩ := bind_ok hrun
    have ht := orFault_ok ht
    cases hret
    refine Stepped.quiet (fun _ => h.setTable (fun k f hf => ?_)) (Kept.of_eq rfl rfl)
    by_cases he : k = key
    · subst he
      exact hv.callable h f ((update_self k v table.get).symm.trans hf)
    · exact h.tables p table k f ht ((update_of_ne he _ _).symm.trans hf)
  | member lclass p offset =>
    obtain ⟨object, ho, hret⟩ := bind_ok hrun
    have ho := orFault_ok ho
    obtain ⟨⟨object', classdef, ho', hlclass, hc, hconst⟩, hprivate⟩ := hok
    obtain rfl : object = object' := Option.some.inj (ho.symm.trans ho')
    cases hret
    refine ⟨fun _ => h.setmember ho (hv.callable h), fun f hf => absurd hf List.not_mem_nil,
      fun o ho => (by cases ho), kept_setmember ho fun classdef' hc' hi => ?_, hprivate⟩
    rw [hlclass, hc] at hc'
    exact hconst (Option.some.inj hc' ▸ hi)
  | call tm t key => exact callvalue_ok h hok hfresh hrun

theorem callbinTM_step (h : ClassInv s B) {event : GCPtr} {p1 p2 : TValue} (hfresh : s.objects fresh = none)
    (hrun : s.callbinTM event p1 p2 fresh = .ok out) : Stepped s B out := by
  unfold ClassState.callbinTM at hrun
  split at hrun
  · split at hrun
    · cases hrun
    · exact callvalue_ok h (fun f hf => h.gettmbyobj hf) hfresh hrun
  · exact callvalue_ok h (fun f hf => h.gettmbyobj hf) hfresh hrun

/-! ### Construction -/

theorem callable_fieldvalues (h : ClassInv s B) (hc : s.classes c = some classdef)
    (hargs : ∀ v ∈ args, B.Has v) (hf : ClassState.fieldvalues classdef args i = .gc .function f) :
    Callable s.closures B f := by
  unfold ClassState.fieldvalues at hf
  split at hf
  · cases hd : classdef.memberdefaults with
    | none =>
      rw [hd] at hf
      cases hf
    | some d =>
      rw [hd] at hf
      exact absurd hf ((h.classes c classdef hc).defaults d i f hd)
  · rw [List.getD_eq_getElem?_getD] at hf
    cases hi : args[i]? with
    | none =>
      rw [hi] at hf
      cases hf
    | some v =>
      rw [hi] at hf
      exact (hargs v (List.mem_of_getElem? hi)).callable h f hf

theorem newobject_step (h : ClassInv s B) {form : NewobjectForm} (hargs : ∀ v ∈ args, B.Has v)
    (hfresh : s.objects fresh = none) (hrun : s.newobject form c args fresh = .ok out) :
    Stepped s B out := by
  unfold ClassState.newobject at hrun
  obtain ⟨classdef, hc, hrun⟩ := bind_ok hrun
  obtain ⟨⟨⟩, hcheck, hrun⟩ := bind_ok hrun
  have hc := orFault_ok hc
  have hacc : ∀ cl, s.accessor = some cl → ∃ p, s.closures cl = some (.lua p) := fun _ hcl => h.accessor hcl
  cases form with
  | init =>
    simp only at hrun
    split at hrun
    · next hinit =>
      exact callinit_ok h hfresh hc hinit hcheck hacc (fun ci hci => absurd hci List.not_mem_nil) hrun
    · cases hrun
  | fields =>
    simp only at hrun
    split at hrun
    · cases hrun
    · cases hrun
      have hclass : s.classes c ≠ none := by
        rw [hc]
        exact Option.some_ne_none classdef
      refine ⟨fun _ => ?_, fun f hf => absurd hf List.not_mem_nil, fun o ho => ?_, ?_, Private.none⟩
      · apply h.setObject hclass (fun i f hf => callable_fieldvalues h hc hargs hf)
        intro old hold
        rw [hfresh] at hold
        cases hold
      · obtain rfl : fresh = o := Option.some.inj ho
        refine ⟨?_, (h.fresh_object hfresh).1⟩
        show update s.objects fresh _ fresh ≠ none
        rw [update_self]
        exact Option.some_ne_none _
      · refine ⟨fun c classdef hc => ⟨classdef, hc, rfl⟩, fun o _ object ho => ?_⟩
        have hne : o ≠ fresh := by
          rintro rfl
          rw [hfresh] at ho
          cases ho
        exact ⟨object, (update_of_ne hne _ _).trans ho, rfl, fun _ _ _ _ => rfl⟩
  | default =>
    simp only at hrun
    split at hrun
    · cases hrun
    · cases hrun
      exact pod_ok h hfresh hc (h.constructors c classdef hc) hacc _

/-! ### The POD constructor -/

/-- The object of the POD constructor is not constructed. -/
theorem podframe_ok (h : ClassInv s B) {source : TValue} {accessor : Option GCPtr}
    (hrun : s.podframe = .ok (p, source, accessor, object, classdef)) :
    s.objects p = some object ∧ s.classes object.lclass = some classdef ∧ p ∉ B.built ∧
      ∀ a, accessor = some a → ∃ q, s.closures a = some (.lua q) := by
  unfold ClassState.podframe at hrun
  split at hrun
  · next cl p' source' accessor' rest hth =>
    obtain ⟨object', ho, hrun⟩ := bind_ok hrun
    obtain ⟨classdef', hc, hret⟩ := bind_ok hrun
    have ho := orFault_ok ho
    have hc := orFault_ok hc
    cases hret
    have hmem : Frame.pod cl p source accessor ∈ s.threads s.running := by
      rw [hth]
      exact List.mem_cons_self
    refine ⟨ho, hc, (h.unbuilt s.running p ?_).1, (h.frames s.running _ hmem).2⟩
    exact List.mem_filterMap.mpr ⟨_, hmem, rfl⟩
  · cases hrun

theorem poddefaults_step (h : ClassInv s B) (hfresh : s.objects fresh = none)
    (hrun : s.poddefaults fresh = .ok out) : Stepped s B out := by
  unfold ClassState.poddefaults at hrun
  obtain ⟨⟨p, source, accessor, object, classdef⟩, hframe, hrun⟩ := bind_ok hrun
  obtain ⟨_, hc, _, _⟩ := podframe_ok h hframe
  simp only at hrun
  split at hrun
  · next hpod =>
    obtain ⟨hname, hn⟩ := (h.classes _ _ hc).poddefaults hpod
    refine callvalue_ok h (fun f hf => h.callable_static hc ?_ hf) hfresh hrun
    rw [Nat.add_sub_cancel' hn]
    intro he
    rw [he] at hname
    have hsame := (h.classes _ _ hc).distinct _ _ _ hname (h.classes _ _ hc).init
    exact absurd hsame (by decide)
  · cases hrun

theorem podwrite_step (h : ClassInv s B) (ho : s.objects p = some object) (hp : p ∉ B.built)
    (hv : ∀ f, v = .gc .function f → Callable s.closures B f) :
    Stepped s B (.quiet (s.podwrite p object idx v)) := by
  unfold ClassState.podwrite
  split
  · exact Stepped.quiet (fun _ => h) (Kept.refl s _)
  · exact Stepped.quiet (fun _ => h.setmember ho hv) (kept_setmember ho fun _ _ _ => hp)

theorem podread_step (h : ClassInv s B) (hfresh : s.objects fresh = none)
    (hrun : s.podread idx fresh = .ok out) : Stepped s B out := by
  unfold ClassState.podread at hrun
  obtain ⟨⟨p, source, accessor, object, classdef⟩, hframe, hrun⟩ := bind_ok hrun
  obtain ⟨ho, hc, hp, hacc⟩ := podframe_ok h hframe
  obtain ⟨name, hname, hrun⟩ := bind_ok hrun
  obtain ⟨⟨⟩, hassert, hrun⟩ := bind_ok hrun
  obtain ⟨got, hgot, hrun⟩ := bind_ok hrun
  have hok : ReadOk s B accessor got := gettableloop_ok h hacc hgot
  cases got with
  | value v =>
    cases hrun
    exact podwrite_step h ho hp hok
  | member lclass offset v =>
    cases hrun
    have hstep : Stepped s B (.quiet (s.podwrite p object idx v)) := podwrite_step h ho hp hok.1
    exact ⟨hstep.inv, hstep.got, hstep.built, hstep.kept, hok.2⟩
  | call tm t key => exact callvalue_ok h hok hfresh hrun

theorem podresult_step (h : ClassInv s B) (hv : B.Has v) (hrun : s.podresult idx v = .ok out) :
    Stepped s B out := by
  unfold ClassState.podresult at hrun
  obtain ⟨⟨p, source, accessor, object, classdef⟩, hframe, hrun⟩ := bind_ok hrun
  obtain ⟨ho, hc, hp, hacc⟩ := podframe_ok h hframe
  obtain ⟨⟨⟩, hassert, hret⟩ := bind_ok hrun
  cases hret
  exact Stepped.quiet (fun _ => h.setmember ho (hv.callable h)) (kept_setmember ho fun _ _ _ => hp)

/-! ### Frames -/

/-- Frames are dropped. -/
theorem ClassInv.pop (h : ClassInv s B) (n : ℕ) : ClassInv (s.pop ((s.threads s.running).drop n)) B := by
  have hsub : List.Sublist (((s.threads s.running).drop n).filterMap Frame.constructs)
      (s.building s.running) := (List.drop_sublist n _).filterMap Frame.constructs
  apply h.setThread
  · exact fun ci hci => h.frames s.running ci (List.mem_of_mem_drop hci)
  · exact (h.building s.running).sublist hsub
  · exact fun o ho => Or.inl (hsub.mem ho)

/-- The object that a frame constructs is in the hands of that frame only. -/
theorem ret_step (h : ClassInv s B) (hrun : s.ret = .ok out) : Stepped s B out := by
  unfold ClassState.ret at hrun
  split at hrun
  · cases hrun
  · next ci rest hth =>
    have hpop : ClassInv (s.pop rest) B := by
      have hdrop := h.pop 1
      rw [hth] at hdrop
      exact hdrop
    cases hrun
    refine ⟨fun _ => hpop, fun f hf => ?_, fun o ho => ?_, Kept.of_eq rfl rfl, Private.none⟩
    · obtain ⟨v, hv, hcase⟩ := List.mem_filterMap.mp hf
      obtain ⟨o, ho, rfl⟩ : ∃ o, ci.constructs = some o ∧ TValue.gc .luaobject o = v := by
        cases hc : ci.constructs with
        | none =>
          rw [hc] at hv
          cases hv
        | some o =>
          rw [hc] at hv
          exact ⟨o, rfl, (List.mem_singleton.mp hv).symm⟩
      cases hcase
    · replace ho : ci.constructs = some o := ho
      have hbuilding : s.building s.running = o :: rest.filterMap Frame.constructs := by
        show (s.threads s.running).filterMap Frame.constructs = _
        rw [hth]
        exact List.filterMap_cons_some ho
      have hmem : o ∈ s.building s.running := by
        rw [hbuilding]
        exact List.mem_cons_self
      refine ⟨(h.unbuilt s.running o hmem).2, fun t ht => ?_⟩
      replace ht : o ∈ ({ s with threads := update s.threads s.running rest } : ClassState).building t := ht
      rw [building_update] at ht
      split at ht
      · have hnd := h.building s.running
        rw [hbuilding] at hnd
        exact (List.nodup_cons.mp hnd).1 ht
      · next hne => exact h.apart t s.running o hne ht hmem

theorem dbinfo_step (h : ClassInv s B) {thread level : ℕ} (hrun : s.dbinfo thread level = .ok out) :
    Stepped s B out := by
  unfold ClassState.dbinfo at hrun
  split at hrun
  · cases hrun
    exact Stepped.quiet (fun _ => h) (Kept.refl s _)
  · next ci hci =>
    cases hrun
    refine ⟨fun _ => h, fun f hf => ?_, fun o ho => (by cases ho), Kept.refl s _, Private.none⟩
    obtain rfl : f = ci.func := List.mem_singleton.mp hf
    exact ⟨(h.frames thread ci (List.mem_of_getElem? hci)).func, fun c hi => List.mem_cons_self⟩

/-- A new closure is given to the program. -/
theorem newclosure_step (h : ClassInv s B) (hf : s.closures f = none) (k : Closure) :
    Stepped s B { ClassOutcome.quiet { s with closures := update s.closures f (some k) } with
      got := [.gc .function f] } := by
  refine Stepped.value (h.setClosure hf k) (fun g hg => ⟨?_, fun c hi => ?_⟩) (Kept.of_eq rfl rfl)
  · injection hg with _ hg
    show update s.closures f (some k) g ≠ none
    rw [← hg, update_self]
    exact Option.some_ne_none k
  · injection hg with _ hg
    obtain ⟨p, hp⟩ := h.members g _ hi
    rw [← hg, hf] at hp
    cases hp

theorem exec_ok {op : ClassOp} (h : ClassInv s B) (hallowed : op.Allowed s B)
    (hrun : op.exec s = .ok out) : Stepped s (B.record op) out := by
  cases op with
  | loadclass lclass constructor shape => exact loadclass_step h hallowed hrun
  | newclosure f p =>
    cases hrun
    exact newclosure_step h hallowed (.lua p)
  | newcclosure f =>
    cases hrun
    exact newclosure_step h hallowed .c
  | newclassmember lclass name f p => exact newclassmember_step h hallowed hrun
  | newtable t =>
    cases hrun
    refine Stepped.quiet (fun _ => h.setTable (fun k f hf => ?_)) (Kept.of_eq rfl rfl)
    cases hf
  | setmetatable t mt =>
    unfold ClassOp.exec at hrun
    obtain ⟨table, ht, hrun⟩ := bind_ok hrun
    have ht := orFault_ok ht
    split at hrun
    · cases hrun
    · cases hrun
      exact Stepped.quiet (fun _ => h.setTable (fun k f hf => h.tables t table k f ht hf)) (Kept.of_eq rfl rfl)
  | read form t key fresh => exact read_step h hallowed hrun
  | write form t key v fresh => exact write_step h hallowed.1 hallowed.2 hrun
  | call f args fresh => exact callvalue_ok h (hallowed.1.callable h) hallowed.2 hrun
  | metamethod event p1 p2 fresh => exact callbinTM_step h hallowed hrun
  | newobject form lclass args fresh => exact newobject_step h hallowed.1 hallowed.2 hrun
  | poddefaults fresh => exact poddefaults_step h hallowed hrun
  | podread idx fresh => exact podread_step h hallowed hrun
  | podresult idx v => exact podresult_step h hallowed hrun
  | ret => exact ret_step h hrun
  | unwind n =>
    cases hrun
    exact Stepped.quiet (fun _ => h.pop n) (Kept.of_eq rfl rfl)
  | resume thread =>
    cases hrun
    exact Stepped.quiet (fun _ => h.setRunning thread) (Kept.of_eq rfl rfl)
  | dbinfo thread level => exact dbinfo_step h hrun

end Steps

end Luwu
