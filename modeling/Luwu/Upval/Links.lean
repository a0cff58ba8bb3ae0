import Luwu.Lib.Ring
import Luwu.Lib.Run
import Luwu.Upval.Core

/-!
# The ring of open upvalues

What the links of the ring are in a state, and how the edits of the source change them.  The edits of the
ring touch nothing of an upvalue but `prev` and `next` (`UpVal.strip`), so what the lists of the threads
say about it stays.
-/

namespace Luwu

open Function Luwu.Run Luwu.Rings

/-- An upvalue without its links in the ring. -/
def UpVal.strip (uv : UpVal) : UpVal :=
  match uv.u with
  | .links o => { uv with u := .links ⟨none, none, o.threadnext⟩ }
  | .value _ => uv

namespace UpvalState

/-- `u.open` of an upvalue. -/
def links (s : UpvalState) (p : ℕ) : Option OpenLinks :=
  match s.upvals p with
  | some ⟨_, .links o, _, _, _⟩ => some o
  | _ => none

def next (s : UpvalState) : Option ℕ → Option ℕ
  | none => s.uvheadnext
  | some p => (s.links p).bind OpenLinks.next

def prev (s : UpvalState) : Option ℕ → Option ℕ
  | none => s.uvheadprev
  | some p => (s.links p).bind OpenLinks.prev

def threadnext (s : UpvalState) (p : ℕ) : Option ℕ := (s.links p).bind OpenLinks.threadnext

/-- `uvhead`, or an open upvalue. -/
def Node (s : UpvalState) : Option ℕ → Prop
  | none => True
  | some p => ∃ o, s.links p = some o

def withprev (s : UpvalState) (node r : Option ℕ) : UpvalState :=
  match node with
  | none => { s with uvheadprev := r }
  | some p =>
    match s.upvals p, s.links p with
    | some uv, some o => s.setUpval p { uv with u := .links { o with prev := r } }
    | _, _ => s

def withnext (s : UpvalState) (node r : Option ℕ) : UpvalState :=
  match node with
  | none => { s with uvheadnext := r }
  | some p =>
    match s.upvals p, s.links p with
    | some uv, some o => s.setUpval p { uv with u := .links { o with next := r } }
    | _, _ => s

end UpvalState

section Links

variable {s s' : UpvalState} {p q : ℕ} {uv uv' : UpVal} {o : OpenLinks} {node r : Option ℕ}
  {ring : List ℕ}

/-! ### Reading -/

theorem links_eq_some_iff :
    s.links p = some o ↔ ∃ uv, s.upvals p = some uv ∧ uv.u = .links o := by
  unfold UpvalState.links
  cases h : s.upvals p with
  | none => exact iff_of_false (fun h => by cases h) (fun ⟨_, h, _⟩ => by cases h)
  | some uv =>
    obtain ⟨v, u, a, b, c⟩ := uv
    cases u with
    | value w =>
      refine iff_of_false (fun h => by cases h) (fun ⟨_, h, hu⟩ => ?_)
      obtain rfl := Option.some.inj h
      cases hu
    | links o' =>
      constructor
      · intro ho
        obtain rfl := Option.some.inj ho
        exact ⟨_, rfl, rfl⟩
      · rintro ⟨_, h, hu⟩
        obtain rfl := Option.some.inj h
        obtain rfl := UpvalUnion.links.inj hu
        rfl

theorem getupval_run (h : s.upvals p = some uv) : getupval p s = .ok uv s := by
  unfold getupval
  simp only [run_bind, run_get, h, run_pure]

theorem getthread_run {L : ℕ} {th : Thread} (h : s.threads L = some th) :
    getthread L s = .ok th s := by
  unfold getthread
  simp only [run_bind, run_get, h, run_pure]

theorem openlinks_run (h : uv.u = .links o) : openlinks uv s = .ok o s := by
  unfold openlinks
  rw [h]
  rfl

theorem stacklevel_run {l : StkId} (h : uv.v = .stack l) : stacklevel uv s = .ok l s := by
  unfold stacklevel
  rw [h]
  rfl

theorem setupval_run : setupval p uv s = .ok ⟨⟩ (s.setUpval p uv) := rfl

theorem setthread_run {L : ℕ} {th : Thread} : setthread L th s = .ok ⟨⟩ (s.setThread L th) := rfl

theorem walkfuel_run : walkfuel s = .ok (s.objects.length + 1) s := rfl

theorem loadvalue_stack {l : StkId} (h : uv.v = .stack l) :
    loadvalue uv s = .ok (s.slots l.block l.index) s := by
  unfold loadvalue
  rw [h]
  rfl

/-! ### Writing -/

theorem links_setUpval (s : UpvalState) (p : ℕ) (uv : UpVal) (q : ℕ) :
    (s.setUpval p uv).links q =
      if q = p then (match uv.u with | .links o => some o | .value _ => none) else s.links q := by
  unfold UpvalState.links UpvalState.setUpval
  by_cases h : q = p
  · subst h
    rw [if_pos rfl]
    dsimp only
    rw [update_self]
    obtain ⟨v, u, a, b, c⟩ := uv
    cases u <;> rfl
  · rw [if_neg h]
    dsimp only
    rw [update_of_ne h]

theorem withprev_some (h : s.upvals p = some uv) (ho : uv.u = .links o) :
    s.withprev (some p) r = s.setUpval p { uv with u := .links { o with prev := r } } := by
  have hl : s.links p = some o := links_eq_some_iff.mpr ⟨uv, h, ho⟩
  simp only [UpvalState.withprev, h, hl]

theorem withnext_some (h : s.upvals p = some uv) (ho : uv.u = .links o) :
    s.withnext (some p) r = s.setUpval p { uv with u := .links { o with next := r } } := by
  have hl : s.links p = some o := links_eq_some_iff.mpr ⟨uv, h, ho⟩
  simp only [UpvalState.withnext, h, hl]

theorem setprev_run (hn : s.Node node) : setprev node r s = .ok ⟨⟩ (s.withprev node r) := by
  cases node with
  | none => rfl
  | some p =>
    obtain ⟨o, ho⟩ := hn
    obtain ⟨uv, h, hu⟩ := links_eq_some_iff.mp ho
    rw [withprev_some h hu]
    unfold setprev
    simp only [run_bind, getupval_run h, openlinks_run hu, setupval_run]

theorem setnext_run (hn : s.Node node) : setnext node r s = .ok ⟨⟩ (s.withnext node r) := by
  cases node with
  | none => rfl
  | some p =>
    obtain ⟨o, ho⟩ := hn
    obtain ⟨uv, h, hu⟩ := links_eq_some_iff.mp ho
    rw [withnext_some h hu]
    unfold setnext
    simp only [run_bind, getupval_run h, openlinks_run hu, setupval_run]

/-- Two states that differ in the ring only. -/
structure SameLists (s s' : UpvalState) : Prop where
  threads : s'.threads = s.threads
  slots : s'.slots = s.slots
  objects : s'.objects = s.objects
  strip : ∀ q, (s'.upvals q).map UpVal.strip = (s.upvals q).map UpVal.strip

theorem SameLists.trans {s'' : UpvalState} (h : SameLists s s') (h' : SameLists s' s'') :
    SameLists s s'' :=
  ⟨h'.threads.trans h.threads, h'.slots.trans h.slots, h'.objects.trans h.objects,
    fun q => (h'.strip q).trans (h.strip q)⟩

/-- A link of the ring that is written. -/
theorem withprev_spec (hn : s.Node node) :
    (s.withprev node r).next = s.next ∧ (s.withprev node r).prev = update s.prev node r ∧
      SameLists s (s.withprev node r) := by
  cases node with
  | none =>
    refine ⟨?_, ?_, ⟨rfl, rfl, rfl, fun _ => rfl⟩⟩
    · funext x
      cases x <;> rfl
    · funext x
      cases x <;> rfl
  | some p =>
    obtain ⟨o, ho⟩ := hn
    obtain ⟨uv, h, hu⟩ := links_eq_some_iff.mp ho
    rw [withprev_some h hu]
    refine ⟨?_, ?_, ⟨rfl, rfl, rfl, fun q => ?_⟩⟩
    · funext x
      cases x with
      | none => rfl
      | some q =>
        show ((s.setUpval p _).links q).bind _ = (s.links q).bind _
        rw [links_setUpval]
        by_cases hq : q = p
        · rw [if_pos hq, hq, ho]
          rfl
        · rw [if_neg hq]
    · funext x
      cases x with
      | none => rfl
      | some q =>
        show ((s.setUpval p _).links q).bind _ = _
        rw [links_setUpval]
        by_cases hq : q = p
        · rw [if_pos hq, hq, update_self]
          rfl
        · rw [if_neg hq, update_of_ne (fun he => hq (Option.some.inj he))]
          rfl
    · show (update s.upvals p _ q).map _ = _
      by_cases hq : q = p
      · subst hq
        rw [update_self, h]
        unfold UpVal.strip
        rw [Option.map_some, Option.map_some, hu]
      · rw [update_of_ne hq]

theorem withnext_spec (hn : s.Node node) :
    (s.withnext node r).prev = s.prev ∧ (s.withnext node r).next = update s.next node r ∧
      SameLists s (s.withnext node r) := by
  cases node with
  | none =>
    refine ⟨?_, ?_, ⟨rfl, rfl, rfl, fun _ => rfl⟩⟩
    · funext x
      cases x <;> rfl
    · funext x
      cases x <;> rfl
  | some p =>
    obtain ⟨o, ho⟩ := hn
    obtain ⟨uv, h, hu⟩ := links_eq_some_iff.mp ho
    rw [withnext_some h hu]
    refine ⟨?_, ?_, ⟨rfl, rfl, rfl, fun q => ?_⟩⟩
    · funext x
      cases x with
      | none => rfl
      | some q =>
        show ((s.setUpval p _).links q).bind _ = (s.links q).bind _
        rw [links_setUpval]
        by_cases hq : q = p
        · rw [if_pos hq, hq, ho]
          rfl
        · rw [if_neg hq]
    · funext x
      cases x with
      | none => rfl
      | some q =>
        show ((s.setUpval p _).links q).bind _ = _
        rw [links_setUpval]
        by_cases hq : q = p
        · rw [if_pos hq, hq, update_self]
          rfl
        · rw [if_neg hq, update_of_ne (fun he => hq (Option.some.inj he))]
          rfl
    · show (update s.upvals p _ q).map _ = _
      by_cases hq : q = p
      · subst hq
        rw [update_self, h]
        unfold UpVal.strip
        rw [Option.map_some, Option.map_some, hu]
      · rw [update_of_ne hq]

/-! ### What the links of the ring do not matter for -/

theorem strip_eq_some (h : SameLists s s') (hq : s.upvals q = some uv) :
    ∃ uv', s'.upvals q = some uv' ∧ uv'.strip = uv.strip := by
  have hs := h.strip q
  rw [hq, Option.map_some] at hs
  exact Option.map_eq_some_iff.mp hs

theorem strip_fields (h : uv'.strip = uv.strip) :
    uv'.v = uv.v ∧ uv'.markedopen = uv.markedopen ∧ uv'.marked = uv.marked ∧
      uv'.isdead = uv.isdead := by
  obtain ⟨v, u, a, b, c⟩ := uv
  obtain ⟨v', u', a', b', c'⟩ := uv'
  cases u <;> cases u' <;>
  · unfold UpVal.strip at h
    obtain ⟨h1, _, h2, h3, h4⟩ := UpVal.mk.inj h
    exact ⟨h1, h2, h3, h4⟩

theorem strip_links (h : uv'.strip = uv.strip) (ho : uv.u = .links o) :
    ∃ o', uv'.u = .links o' ∧ o'.threadnext = o.threadnext := by
  obtain ⟨v, u, a, b, c⟩ := uv
  obtain ⟨v', u', a', b', c'⟩ := uv'
  obtain rfl : u = .links o := ho
  unfold UpVal.strip at h
  cases u' with
  | value w =>
    obtain ⟨_, hu, _⟩ := UpVal.mk.inj h
    cases hu
  | links o' =>
    obtain ⟨_, hu, _⟩ := UpVal.mk.inj h
    obtain ⟨_, _, ht⟩ := OpenLinks.mk.inj (UpvalUnion.links.inj hu)
    exact ⟨o', rfl, ht⟩

theorem strip_value {w : TValue} (h : uv'.strip = uv.strip) (ho : uv.u = .value w) :
    uv'.u = .value w := by
  obtain ⟨v, u, a, b, c⟩ := uv
  obtain ⟨v', u', a', b', c'⟩ := uv'
  obtain rfl : u = .value w := ho
  unfold UpVal.strip at h
  cases u' with
  | value w' => exact (UpVal.mk.inj h).2.1
  | links o' =>
    obtain ⟨_, hu, _⟩ := UpVal.mk.inj h
    cases hu

theorem SameLists.keepsNode (h : SameLists s s') (hn : s.Node node) : s'.Node node := by
  cases node with
  | none => trivial
  | some p =>
    obtain ⟨o, ho⟩ := hn
    obtain ⟨uv, hp, hu⟩ := links_eq_some_iff.mp ho
    obtain ⟨uv', hp', hs⟩ := strip_eq_some h hp
    obtain ⟨o', hu', _⟩ := strip_links hs hu
    exact ⟨o', links_eq_some_iff.mpr ⟨uv', hp', hu'⟩⟩

/-! ### The ring -/

/-- The open upvalues that the ring holds, and the upvalues there are. -/
structure RingOk (s : UpvalState) (ring : List ℕ) : Prop where
  isring : IsRing s.next s.prev none (ring.map some)
  nodup : ring.Nodup
  links : ∀ p ∈ ring, ∃ o, s.links p = some o
  alloc : ∀ p uv, s.upvals p = some uv → p ∈ s.objects

theorem RingOk.isNode (h : RingOk s ring) (hr : r = none ∨ r ∈ ring.map some) : s.Node r := by
  rcases hr with rfl | hr
  · trivial
  · obtain ⟨p, hp, rfl⟩ := List.mem_map.mp hr
    exact h.links p hp

theorem some_nodup (h : ring.Nodup) : (ring.map some).Nodup :=
  h.map (fun _ _ => Option.some.inj)

theorem none_notMem : (none : Option ℕ) ∉ ring.map some := by
  intro h
  obtain ⟨p, _, hp⟩ := List.mem_map.mp h
  cases hp

theorem erase_map_some : (ring.map some).erase (some p) = (ring.erase p).map some := by
  induction ring with
  | nil => rfl
  | cons q ring ih =>
    by_cases h : q = p
    · subst h
      rw [List.map_cons, List.erase_cons_head, List.erase_cons_head]
    · rw [List.map_cons, List.erase_cons_tail (by simpa using h), List.erase_cons_tail (by simpa using h),
        List.map_cons, ih]

/-- `luaF_closeupval` up to the point where it returns for a dead upvalue. -/
theorem unlink_spec (h : RingOk s ring) (hp : p ∈ ring) (hl : s.links p = some o) :
    ∃ s', (∀ dead, luaF_closeupval p dead s = (if dead then pure ⟨⟩ else do
        let uv ← getupval p
        let v ← loadvalue uv
        setupval p { uv with v := .value, u := .value v } : UpvalM Unit) s') ∧
      RingOk s' (ring.erase p) ∧ SameLists s s' := by
  obtain ⟨uv, hu, huo⟩ := links_eq_some_iff.mp hl
  have hpm : some p ∈ ring.map some := List.mem_map.mpr ⟨p, hp, rfl⟩
  have hnext : s.next (some p) = o.next := by
    show (s.links p).bind _ = _
    rw [hl]
    rfl
  have hprev : s.prev (some p) = o.prev := by
    show (s.links p).bind _ = _
    rw [hl]
    rfl
  have hn : s.Node o.next := hnext ▸ h.isNode (Path.next h.isring hpm).1
  have hp' : s.Node o.prev := hprev ▸ h.isNode (Path.prev h.isring hpm).1
  obtain ⟨hnext1, hprev1, hsame1⟩ := withprev_spec (r := o.prev) hn
  have hp1 := hsame1.keepsNode hp'
  obtain ⟨hprev2, hnext2, hsame2⟩ := withnext_spec (r := o.next) hp1
  have hsame := hsame1.trans hsame2
  refine ⟨(s.withprev o.next o.prev).withnext o.prev o.next, fun dead => ?_, ?_, hsame⟩
  · unfold luaF_closeupval
    simp only [run_bind, getupval_run hu, openlinks_run huo, setprev_run hn, setnext_run hp1]
  · refine ⟨?_, List.Nodup.erase p h.nodup, fun q hq => ?_, fun q uv hq => ?_⟩
    · rw [← erase_map_some]
      apply h.isring.unlink (some_nodup h.nodup) none_notMem hpm
      · intro y _ _
        rw [hnext2, hnext1, hprev, hnext]
        exact update_apply _ _ _ _
      · intro y _ _
        rw [hprev2, hprev1, hprev, hnext]
        exact update_apply _ _ _ _
    · have hq' : s.Node (some q) := h.links q (List.mem_of_mem_erase hq)
      exact hsame.keepsNode hq'
    · rw [hsame.objects]
      have hs := hsame.strip q
      rw [hq, Option.map_some] at hs
      obtain ⟨uv', hq', _⟩ := Option.map_eq_some_iff.mp hs.symm
      exact h.alloc q uv' hq'

/-- An upvalue that the ring does not hold may be anything. -/
theorem RingOk.setUpval (h : RingOk s ring) (hp : p ∉ ring) (ha : p ∈ s.objects) :
    RingOk (s.setUpval p uv) ring := by
  have hlinks : ∀ q ∈ ring, (s.setUpval p uv).links q = s.links q := fun q hq => by
    have hqp : q ≠ p := fun he => hp (he ▸ hq)
    rw [links_setUpval, if_neg hqp]
  refine ⟨?_, h.nodup, fun q hq => ?_, fun q uv' hq => ?_⟩
  · apply Path.congr h.isring
    · intro y hy
      rcases hy with rfl | hy
      · rfl
      · obtain ⟨q, hq, rfl⟩ := List.mem_map.mp hy
        show ((s.setUpval p uv).links q).bind _ = (s.links q).bind _
        rw [hlinks q hq]
    · intro y hy
      rcases hy with rfl | hy
      · rfl
      · obtain ⟨q, hq, rfl⟩ := List.mem_map.mp hy
        show ((s.setUpval p uv).links q).bind _ = (s.links q).bind _
        rw [hlinks q hq]
  · rw [hlinks q hq]
    exact h.links q hq
  · have hq' : update s.upvals p (some uv) q = some uv' := hq
    by_cases he : q = p
    · exact he ▸ ha
    · rw [update_of_ne he] at hq'
      exact h.alloc q uv' hq'

/-- What `luaF_closeupval` leaves of the upvalue. -/
def UpVal.closed (uv : UpVal) (v : TValue) : UpVal := { uv with v := .value, u := .value v }

/-- **An open upvalue is closed**: it leaves the ring and holds what its slot holds. -/
theorem closeupval_spec {l : StkId} (h : RingOk s ring) (hp : p ∈ ring) (hu : s.upvals p = some uv)
    (hv : uv.v = .stack l) :
    ∃ s', luaF_closeupval p false s = .ok ⟨⟩ s' ∧ RingOk s' (ring.erase p) ∧
      s'.threads = s.threads ∧ s'.slots = s.slots ∧ s'.objects = s.objects ∧
      (∀ q, q ≠ p → (s'.upvals q).map UpVal.strip = (s.upvals q).map UpVal.strip) ∧
      s'.upvals p = some (uv.closed (s.slots l.block l.index)) := by
  obtain ⟨o, hl⟩ := h.links p hp
  obtain ⟨s₁, hrun, hring, hsame⟩ := unlink_spec h hp hl
  obtain ⟨uv', hu', hs⟩ := strip_eq_some hsame hu
  obtain ⟨hv', hm1, hm2, hm3⟩ := strip_fields hs
  have hclosed : uv'.closed (s.slots l.block l.index) = uv.closed (s.slots l.block l.index) := by
    unfold UpVal.closed
    rw [hm1, hm2, hm3]
  have ha : p ∈ s₁.objects := hring.alloc p uv' hu'
  refine ⟨s₁.setUpval p (uv.closed (s.slots l.block l.index)), ?_,
    hring.setUpval (List.Nodup.not_mem_erase h.nodup) ha, hsame.threads, hsame.slots, hsame.objects, ?_, ?_⟩
  · rw [hrun]
    simp only [Bool.false_eq_true, if_false, run_bind, getupval_run hu',
      loadvalue_stack (hv'.trans hv), setupval_run, hsame.slots]
    rw [← hclosed]
    rfl
  · intro q hq
    show (update s₁.upvals p _ q).map _ = _
    rw [update_of_ne hq]
    exact hsame.strip q
  · exact update_self _ _ _

/-- **A dead upvalue is unlinked.** -/
theorem dropupval_spec (h : RingOk s ring) (hp : p ∈ ring) :
    ∃ s', luaF_closeupval p true s = .ok ⟨⟩ s' ∧ RingOk s' (ring.erase p) ∧ SameLists s s' := by
  obtain ⟨o, hl⟩ := h.links p hp
  obtain ⟨s₁, hrun, hring, hsame⟩ := unlink_spec h hp hl
  refine ⟨s₁, ?_, hring, hsame⟩
  rw [hrun]
  rfl

end Links

end Luwu
