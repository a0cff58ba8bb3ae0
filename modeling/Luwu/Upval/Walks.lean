import Luwu.Upval.Close

/-!
# Walks along the lists

Some loops visit the open upvalues of a thread, or all of them, and change neither the lists nor the
ring: the marks of the collector, and `correctstack` after a stack moved.  A walk is the same edit at
every upvalue of a list (`UpvalState.mapUpvals`).
-/

namespace Luwu

open Function Luwu.Run Luwu.Rings Luwu.Chains

/-- The same edit at every upvalue of a list. -/
def UpvalState.mapUpvals (s : UpvalState) (xs : List ℕ) (f : UpVal → UpVal) : UpvalState :=
  { s with upvals := fun p => if p ∈ xs then (s.upvals p).map f else s.upvals p }

/-- An upvalue and a thread without the marks of the collector. -/
def UpVal.unmarked (uv : UpVal) : UpVal := { uv with markedopen := false, marked := false }

def Thread.unmarked (th : Thread) : Thread := { th with marked := false }

section Walks

variable {s s' : UpvalState} {p q L fuel : ℕ} {uv uv' : UpVal} {o : OpenLinks} {l : StkId}
  {ring xs : List ℕ} {lists : ℕ → List ℕ} {th th' : Thread} {f : UpVal → UpVal} {head : Option ℕ}

/-! ### The walk of a thread -/

theorem links_mapUpvals (hf : ∀ uv, (f uv).u = uv.u) (p : ℕ) :
    (s.mapUpvals xs f).links p = s.links p := by
  have hiff : ∀ o, (s.mapUpvals xs f).links p = some o ↔ s.links p = some o := by
    intro o
    rw [links_eq_some_iff, links_eq_some_iff]
    show (∃ uv, (if p ∈ xs then (s.upvals p).map f else s.upvals p) = some uv ∧ _) ↔ _
    by_cases hp : p ∈ xs
    · rw [if_pos hp]
      constructor
      · rintro ⟨uv, hu, ho⟩
        obtain ⟨uv', hu', rfl⟩ := Option.map_eq_some_iff.mp hu
        exact ⟨uv', hu', (hf uv').symm.trans ho⟩
      · rintro ⟨uv, hu, ho⟩
        exact ⟨f uv, by rw [hu, Option.map_some], (hf uv).trans ho⟩
    · rw [if_neg hp]
  exact Option.ext hiff

theorem mapUpvals_cons (hp : p ∉ xs) (hu : s.upvals p = some uv) :
    (s.setUpval p (f uv)).mapUpvals xs f = s.mapUpvals (p :: xs) f := by
  unfold UpvalState.mapUpvals UpvalState.setUpval
  congr 1
  funext q
  dsimp only
  by_cases hq : q = p
  · subst hq
    rw [if_neg hp, if_pos List.mem_cons_self, update_self, hu, Option.map_some]
  · rw [update_of_ne hq]
    by_cases hqx : q ∈ xs
    · rw [if_pos hqx, if_pos (List.mem_cons_of_mem p hqx)]
    · have hqc : q ∉ p :: xs := fun hm => hqx ((List.mem_cons.mp hm).resolve_left hq)
      rw [if_neg hqx, if_neg hqc]

theorem eachopen_run (hc : Chain s.threadnext head xs)
    (hx : ∀ p ∈ xs, ∃ uv o, s.upvals p = some uv ∧ uv.u = .links o) (hnd : xs.Nodup)
    (hfuel : xs.length ≤ fuel) : eachopen f fuel head s = .ok ⟨⟩ (s.mapUpvals xs f) := by
  induction xs generalizing s head fuel with
  | nil =>
    have hnone : head = none := hc
    have hself : s.mapUpvals [] f = s := by
      unfold UpvalState.mapUpvals
      simp
    rw [hnone, hself]
    cases fuel <;> rfl
  | cons p xs ih =>
    obtain ⟨fuel, rfl⟩ : ∃ n, fuel = n + 1 := ⟨fuel - 1, by simp at hfuel; omega⟩
    obtain ⟨hhead, htail⟩ := hc
    obtain ⟨hpxs, hnd'⟩ := List.nodup_cons.mp hnd
    obtain ⟨uv, o, hu, huo⟩ := hx p List.mem_cons_self
    rw [threadnext_of_links hu huo] at htail
    have hupvals : ∀ q ∈ xs, (s.setUpval p (f uv)).upvals q = s.upvals q := fun q hq =>
      update_of_ne (fun he => hpxs (by rw [← he]; exact hq)) _ _
    have hrest := ih (s := s.setUpval p (f uv))
      (Chain.congr htail (fun q hq => by
        unfold UpvalState.threadnext UpvalState.links
        rw [hupvals q hq]))
      (fun q hq => by
        obtain ⟨uv', o', hu', ho'⟩ := hx q (List.mem_cons_of_mem p hq)
        exact ⟨uv', o', (hupvals q hq).trans hu', ho'⟩)
      hnd' (by simpa using hfuel)
    rw [hhead]
    unfold eachopen
    simp only [run_bind, getupval_run hu, setupval_run, openlinks_run huo]
    rw [hrest, mapUpvals_cons hpxs hu]

/-- The walk over the list of a thread. -/
theorem ListOk.eachopen_run (h : ListOk s th xs) (hring : RingOk s ring)
    (hs : s'.upvals = s.upvals) :
    eachopen f (s.objects.length + 1) th.openupval s' = .ok ⟨⟩ (s'.mapUpvals xs f) := by
  have hlinks : s'.threadnext = s.threadnext := by
    funext p
    unfold UpvalState.threadnext UpvalState.links
    rw [hs]
  apply Luwu.eachopen_run
  · rw [hlinks]
    exact h.chain
  · intro p hp
    obtain ⟨i, uv, o, hu, _, ho, _⟩ := h.opened p hp
    exact ⟨uv, o, by rw [hs]; exact hu, ho⟩
  · exact h.nodup
  · have := length_le_objects hring h.nodup (fun p hp => by
      obtain ⟨i, hi⟩ := h.opened p hp
      exact ⟨_, hi⟩)
    omega

/-- The ring is in the links. -/
theorem RingOk.relink (h : RingOk s ring) (hl : ∀ p, s'.links p = s.links p)
    (hp : s'.uvheadprev = s.uvheadprev) (hn : s'.uvheadnext = s.uvheadnext)
    (ho : s'.objects = s.objects)
    (ha : ∀ p uv, s'.upvals p = some uv → ∃ uv', s.upvals p = some uv') : RingOk s' ring := by
  have hnext : s'.next = s.next := by
    funext x
    cases x with
    | none => exact hn
    | some p => exact congrArg (Option.bind · OpenLinks.next) (hl p)
  have hprev : s'.prev = s.prev := by
    funext x
    cases x with
    | none => exact hp
    | some p => exact congrArg (Option.bind · OpenLinks.prev) (hl p)
  refine ⟨?_, h.nodup, fun p hp => ?_, fun p uv hu => ?_⟩
  · rw [hnext, hprev]
    exact h.isring
  · rw [hl]
    exact h.links p hp
  · obtain ⟨uv', hu'⟩ := ha p uv hu
    rw [ho]
    exact h.alloc p uv' hu'

theorem threadnext_of_links_eq (hl : ∀ p, s'.links p = s.links p) (p : ℕ) :
    s'.threadnext p = s.threadnext p :=
  congrArg (Option.bind · OpenLinks.threadnext) (hl p)

theorem OpenAt.iff_of (h : OpenAt s p l) (h' : OpenAt s' p l) (l' : StkId) :
    OpenAt s' p l' ↔ OpenAt s p l' := by
  constructor
  · intro hl
    rw [hl.unique h']
    exact h
  · intro hl
    rw [hl.unique h]
    exact h'

/-! ### Marks -/

theorem unmarked_fields (h : uv'.unmarked = uv.unmarked) :
    uv'.v = uv.v ∧ uv'.u = uv.u ∧ uv'.isdead = uv.isdead := by
  obtain ⟨h1, h2, _, _, h3⟩ := UpVal.mk.inj h
  exact ⟨h1, h2, h3⟩

/-- The marks of the collector matter to nothing but the marks. -/
structure SameShape (s s' : UpvalState) : Prop where
  threads : ∀ L, (s'.threads L).map Thread.unmarked = (s.threads L).map Thread.unmarked
  slots : s'.slots = s.slots
  objects : s'.objects = s.objects
  uvheadprev : s'.uvheadprev = s.uvheadprev
  uvheadnext : s'.uvheadnext = s.uvheadnext
  upvals : ∀ p, (s'.upvals p).map UpVal.unmarked = (s.upvals p).map UpVal.unmarked

theorem SameShape.upval (h : SameShape s s') (hu : s'.upvals p = some uv') :
    ∃ uv, s.upvals p = some uv ∧ uv'.v = uv.v ∧ uv'.u = uv.u ∧ uv'.isdead = uv.isdead := by
  have hs := h.upvals p
  rw [hu, Option.map_some] at hs
  obtain ⟨uv, hu', he⟩ := Option.map_eq_some_iff.mp hs.symm
  exact ⟨uv, hu', unmarked_fields he.symm⟩

theorem SameShape.symm (h : SameShape s s') : SameShape s' s :=
  ⟨fun L => (h.threads L).symm, h.slots.symm, h.objects.symm, h.uvheadprev.symm, h.uvheadnext.symm,
    fun p => (h.upvals p).symm⟩

theorem SameShape.thread (h : SameShape s s') (ht : s'.threads L = some th') :
    ∃ th, s.threads L = some th ∧ th'.stack = th.stack ∧ th'.stacksize = th.stacksize ∧
      th'.openupval = th.openupval := by
  have hs := h.threads L
  rw [ht, Option.map_some] at hs
  obtain ⟨th, hth, he⟩ := Option.map_eq_some_iff.mp hs.symm
  obtain ⟨h1, h2, h3, _⟩ := Thread.mk.inj he
  exact ⟨th, hth, h1.symm, h2.symm, h3.symm⟩

theorem SameShape.links (h : SameShape s s') (p : ℕ) : s'.links p = s.links p := by
  apply Option.ext
  intro o
  rw [links_eq_some_iff, links_eq_some_iff]
  constructor
  · rintro ⟨uv', hu', ho⟩
    obtain ⟨uv, hu, _, hlink, _⟩ := h.upval hu'
    exact ⟨uv, hu, hlink.symm.trans ho⟩
  · rintro ⟨uv', hu', ho⟩
    obtain ⟨uv, hu, _, hlink, _⟩ := h.symm.upval hu'
    exact ⟨uv, hu, hlink.symm.trans ho⟩

theorem SameShape.openAt (h : SameShape s s') : OpenAt s' p l ↔ OpenAt s p l := by
  constructor
  · rintro ⟨uv', o, hu', hv, ho, hd⟩
    obtain ⟨uv, hu, h1, h2, h3⟩ := h.upval hu'
    exact ⟨uv, o, hu, h1.symm.trans hv, h2.symm.trans ho, h3.symm.trans hd⟩
  · rintro ⟨uv', o, hu', hv, ho, hd⟩
    obtain ⟨uv, hu, h1, h2, h3⟩ := h.symm.upval hu'
    exact ⟨uv, o, hu, h1.symm.trans hv, h2.symm.trans ho, h3.symm.trans hd⟩

theorem RingOk.sameShape (h : RingOk s ring) (hs : SameShape s s') : RingOk s' ring :=
  h.relink hs.links hs.uvheadprev hs.uvheadnext hs.objects (fun _ _ hu => by
    obtain ⟨uv, hu', _⟩ := hs.upval hu
    exact ⟨uv, hu'⟩)

theorem UpvalsOk.sameShape (h : UpvalsOk s ring lists) (hs : SameShape s s')
    (hm : ∀ L th p uv, s'.threads L = some th → th.marked = false → p ∈ lists L →
      s'.upvals p = some uv → uv.markedopen = false) : UpvalsOk s' ring lists where
  ringok := h.ringok.sameShape hs
  list := by
    intro L th hth
    obtain ⟨th', hth', hb, _, ho⟩ := hs.thread hth
    refine (h.list L th' hth').reshape ho hb (fun p _ l => hs.openAt) (fun p _ => ?_)
    exact threadnext_of_links_eq hs.links p
  mem := by
    intro p
    rw [h.mem]
    constructor
    · rintro ⟨L, th, hth, hp⟩
      obtain ⟨th', hth', _⟩ := hs.symm.thread hth
      exact ⟨L, th', hth', hp⟩
    · rintro ⟨L, th, hth, hp⟩
      obtain ⟨th', hth', _⟩ := hs.thread hth
      exact ⟨L, th', hth', hp⟩
  distinct := by
    intro L₁ L₂ t₁ t₂ h₁ h₂ hb
    obtain ⟨t₁', h₁', hb₁, _⟩ := hs.thread h₁
    obtain ⟨t₂', h₂', hb₂, _⟩ := hs.thread h₂
    exact h.distinct L₁ L₂ t₁' t₂' h₁' h₂' (hb₁.symm.trans (hb.trans hb₂))
  closed := by
    intro p uv hu hd hp
    obtain ⟨uv', hu', h1, h2, h3⟩ := hs.upval hu
    obtain ⟨v, hv, hval⟩ := h.closed p uv' hu' (h3.symm.trans hd) hp
    exact ⟨v, h1.trans hv, h2.trans hval⟩
  unmarked := hm

/-- Edits of marks along a list. -/
theorem sameShape_mapUpvals (hf : ∀ uv, (f uv).unmarked = uv.unmarked) :
    SameShape s (s.mapUpvals xs f) := by
  refine ⟨fun _ => rfl, rfl, rfl, rfl, rfl, fun p => ?_⟩
  show Option.map _ (if p ∈ xs then (s.upvals p).map f else s.upvals p) = _
  split
  · rw [Option.map_map]
    exact congrArg (Option.map · (s.upvals p)) (funext hf)
  · rfl

theorem SameShape.trans {s'' : UpvalState} (h : SameShape s s') (h' : SameShape s' s'') :
    SameShape s s'' :=
  ⟨fun L => (h'.threads L).trans (h.threads L), h'.slots.trans h.slots, h'.objects.trans h.objects,
    h'.uvheadprev.trans h.uvheadprev, h'.uvheadnext.trans h.uvheadnext,
    fun p => (h'.upvals p).trans (h.upvals p)⟩

/-- **A thread is traversed**: its open upvalues are marked. -/
theorem traversestack_spec (h : UpvalsOk s ring lists) (hth : s.threads L = some th) :
    ∃ s', traversestack L s = .ok ⟨⟩ s' ∧ UpvalsOk s' ring lists ∧ SameShape s s' ∧
      s'.threads = update s.threads L (some { th with marked := true }) ∧
      s'.upvals = fun p => if p ∈ lists L then (s.upvals p).map UpVal.mark else s.upvals p := by
  have hlist := h.list L th hth
  set s₁ := s.setThread L { th with marked := true } with hs₁
  have hshape₁ : SameShape s s₁ := by
    refine ⟨fun L' => ?_, rfl, rfl, rfl, rfl, fun _ => rfl⟩
    show Option.map _ (update s.threads L _ L') = _
    by_cases he : L' = L
    · subst he
      rw [update_self, hth]
      rfl
    · rw [update_of_ne he]
  have hshape : SameShape s (s₁.mapUpvals (lists L) UpVal.mark) :=
    hshape₁.trans (sameShape_mapUpvals (fun _ => rfl))
  refine ⟨s₁.mapUpvals (lists L) UpVal.mark, ?_, h.sameShape hshape ?_, hshape, rfl, rfl⟩
  · have hwalk := @ListOk.eachopen_run _ s₁ _ _ _ UpVal.mark hlist h.ringok rfl
    unfold traversestack
    simp only [run_bind, getthread_run hth, setthread_run, walkfuel_run]
    exact hwalk
  · intro L' th' p uv hth' hm hp hu
    have hne : L' ≠ L := by
      rintro rfl
      have hself : s₁.threads L' = some { th with marked := true } := update_self _ _ _
      obtain rfl := Option.some.inj (hself.symm.trans hth')
      cases hm
    have hth₀ : s.threads L' = some th' := by
      have : update s.threads L (some { th with marked := true }) L' = some th' := hth'
      rwa [update_of_ne hne] at this
    have hpL : p ∉ lists L := fun hpL => hne (h.thread_unique hth₀ hth hp hpL)
    have hu₀ : s.upvals p = some uv := by
      have : (if p ∈ lists L then (s.upvals p).map UpVal.mark else s.upvals p) = some uv := hu
      rwa [if_neg hpL] at this
    exact h.unmarked L' th' p uv hth₀ hm hp hu₀

/-- Something that refers to an upvalue marks it. -/
theorem markupval_spec (h : UpvalsOk s ring lists) (hu : s.upvals p = some uv) :
    ∃ s', markupval p s = .ok ⟨⟩ s' ∧ UpvalsOk s' ring lists ∧ SameShape s s' ∧
      s'.threads = s.threads := by
  have hshape : SameShape s (s.setUpval p { uv with marked := true }) := by
    refine ⟨fun _ => rfl, rfl, rfl, rfl, rfl, fun q => ?_⟩
    show Option.map _ (update s.upvals p _ q) = _
    by_cases he : q = p
    · subst he
      rw [update_self, hu]
      rfl
    · rw [update_of_ne he]
  refine ⟨_, ?_, h.sameShape hshape ?_, hshape, rfl⟩
  · unfold markupval
    simp only [run_bind, getupval_run hu, setupval_run]
  · intro L th q uvq hth hm hq huq
    have huq' : update s.upvals p (some { uv with marked := true }) q = some uvq := huq
    by_cases he : q = p
    · subst he
      rw [update_self] at huq'
      obtain rfl := Option.some.inj huq'
      exact h.unmarked L th q uv hth hm hq hu
    · rw [update_of_ne he] at huq'
      exact h.unmarked L th q uvq hth hm hq huq'

/-! ### Moving a stack -/

theorem rebase_fields (block : ℕ) (uv : UpVal) :
    (uv.rebase block).u = uv.u ∧ (uv.rebase block).isdead = uv.isdead ∧
      (uv.rebase block).markedopen = uv.markedopen := by
  unfold UpVal.rebase
  split <;> exact ⟨rfl, rfl, rfl⟩

theorem rebase_stack (block : ℕ) (h : uv.v = .stack l) :
    (uv.rebase block).v = .stack ⟨block, l.index⟩ := by
  unfold UpVal.rebase
  rw [h]

/-- **A stack moves**: its open upvalues go with it. -/
theorem reallocstack_spec (h : UpvalsOk s ring lists) (hth : s.threads L = some th) {new : ℕ}
    (hnew : ∀ L' t, s.threads L' = some t → t.stack ≠ new) (size : ℕ) :
    ∃ s', luaD_reallocstack L (some new) size s = .ok ⟨⟩ s' ∧ UpvalsOk s' ring lists ∧
      s'.threads = update s.threads L (some { th with stack := new, stacksize := size }) ∧
      s'.slots = update s.slots new
        (fun i => if i < min th.stacksize size then s.slots th.stack i else .nil) ∧
      s'.objects = s.objects ∧
      s'.upvals = fun p => if p ∈ lists L then (s.upvals p).map (UpVal.rebase new) else s.upvals p := by
  have hlist := h.list L th hth
  set s₁ := (s.copyStack th.stack new (min th.stacksize size)).setThread L
    { th with stack := new, stacksize := size } with hs₁
  set s' := s₁.mapUpvals (lists L) (UpVal.rebase new) with hs'
  have hlinks : ∀ p, s'.links p = s.links p := fun p =>
    links_mapUpvals (s := s₁) (fun uv => (rebase_fields new uv).1) p
  have hother : ∀ p, p ∉ lists L → s'.upvals p = s.upvals p := fun p hp => if_neg hp
  have hself : ∀ p, p ∈ lists L → s'.upvals p = (s.upvals p).map (UpVal.rebase new) :=
    fun p hp => if_pos hp
  have hthread : ∀ {L' : ℕ} {t : Thread}, s'.threads L' = some t →
      (L' = L ∧ t = { th with stack := new, stacksize := size }) ∨ (L' ≠ L ∧ s.threads L' = some t) := by
    intro L' t ht
    have ht' : update s.threads L (some { th with stack := new, stacksize := size }) L' = some t := ht
    by_cases he : L' = L
    · subst he
      rw [update_self] at ht'
      exact Or.inl ⟨rfl, (Option.some.inj ht').symm⟩
    · rw [update_of_ne he] at ht'
      exact Or.inr ⟨he, ht'⟩
  have hat : ∀ p ∈ lists L, ∀ i, OpenAt s' p ⟨new, i⟩ ↔ OpenAt s p ⟨th.stack, i⟩ := by
    intro p hp i
    obtain ⟨j, uv, o, hu, hv, ho, hd⟩ := hlist.opened p hp
    obtain ⟨h1, h2, _⟩ := rebase_fields new uv
    have hrebased : OpenAt s' p ⟨new, j⟩ :=
      ⟨uv.rebase new, o, by rw [hself p hp, hu, Option.map_some], rebase_stack new hv, h1.trans ho,
        h2.trans hd⟩
    have horig : OpenAt s p ⟨th.stack, j⟩ := ⟨uv, o, hu, hv, ho, hd⟩
    constructor
    · intro hi
      obtain rfl : i = j := congrArg StkId.index (hi.unique hrebased)
      exact horig
    · intro hi
      obtain rfl : i = j := congrArg StkId.index (hi.unique horig)
      exact hrebased
  refine ⟨s', ?_, ⟨?_, ?_, ?_, ?_, ?_, ?_⟩, rfl, rfl, rfl, rfl⟩
  · have hwalk := @ListOk.eachopen_run _ s₁ _ _ _ (UpVal.rebase new) hlist h.ringok rfl
    unfold luaD_reallocstack
    simp only [run_bind, getthread_run hth, run_modify, setthread_run, walkfuel_run]
    exact hwalk
  · refine h.ringok.relink hlinks rfl rfl rfl (fun p uv hu => ?_)
    by_cases hp : p ∈ lists L
    · rw [hself p hp] at hu
      obtain ⟨uv', hu', _⟩ := Option.map_eq_some_iff.mp hu
      exact ⟨uv', hu'⟩
    · exact ⟨uv, (hother p hp).symm.trans hu⟩
  · intro L' t ht
    rcases hthread ht with ⟨rfl, rfl⟩ | ⟨hne, ht'⟩
    · refine ⟨?_, ?_, ?_⟩
      · apply Chain.congr hlist.chain
        intro p _
        exact threadnext_of_links_eq hlinks p
      · intro p hp
        obtain ⟨i, hi⟩ := hlist.opened p hp
        exact ⟨i, (hat p hp i).mpr hi⟩
      · refine hlist.sorted.imp_of_mem (fun hp hq hlt i j hi hj => ?_)
        exact hlt i j ((hat _ hp i).mp hi) ((hat _ hq j).mp hj)
    · refine (h.list L' t ht').reshape rfl rfl (fun p hp l => ?_) (fun p _ => ?_)
      · have hpL : p ∉ lists L := fun hpL => hne (h.thread_unique ht' hth hp hpL)
        unfold OpenAt
        rw [hother p hpL]
      · exact threadnext_of_links_eq hlinks p
  · intro p
    rw [h.mem]
    constructor
    · rintro ⟨L', t, ht, hp⟩
      by_cases he : L' = L
      · subst he
        exact ⟨L', _, update_self _ _ _, hp⟩
      · exact ⟨L', t, (update_of_ne he _ _).trans ht, hp⟩
    · rintro ⟨L', t, ht, hp⟩
      rcases hthread ht with ⟨rfl, _⟩ | ⟨_, ht'⟩
      · exact ⟨L', th, hth, hp⟩
      · exact ⟨L', t, ht', hp⟩
  · intro L₁ L₂ t₁ t₂ h₁ h₂ hb
    rcases hthread h₁ with ⟨rfl, rfl⟩ | ⟨_, h₁'⟩ <;> rcases hthread h₂ with ⟨rfl, rfl⟩ | ⟨_, h₂'⟩
    · rfl
    · exact absurd hb.symm (hnew L₂ t₂ h₂')
    · exact absurd hb (hnew L₁ t₁ h₁')
    · exact h.distinct L₁ L₂ t₁ t₂ h₁' h₂' hb
  · intro p uv hu hd hp
    have hpL : p ∉ lists L := fun hpL => hp ((h.mem p).mpr ⟨L, th, hth, hpL⟩)
    rw [hother p hpL] at hu
    exact h.closed p uv hu hd hp
  · intro L' t p uv ht hm hp hu
    rcases hthread ht with ⟨rfl, rfl⟩ | ⟨hne, ht'⟩
    · rw [hself p hp] at hu
      obtain ⟨uv', hu', rfl⟩ := Option.map_eq_some_iff.mp hu
      rw [(rebase_fields new uv').2.2]
      exact h.unmarked L' th p uv' hth hm hp hu'
    · have hpL : p ∉ lists L := fun hpL => hne (h.thread_unique ht' hth hp hpL)
      rw [hother p hpL] at hu
      exact h.unmarked L' t p uv ht' hm hp hu

end Walks

end Luwu
