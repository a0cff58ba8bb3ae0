import Luwu.Upval.Walks

/-!
# Upvalues in a collection

`atomic` traverses the threads that are alive, so their open upvalues are marked; `clearupvals` keeps
those and takes the rest out of the ring, closing what something else still refers to.  What it takes out
belongs to threads that nothing refers to.
-/

namespace Luwu

open Function Luwu.Run Luwu.Rings Luwu.Chains

/-- What `clearupvals` makes of an upvalue whose slot holds `v`. -/
def UpVal.cleared (v : TValue) (uv : UpVal) : UpVal :=
  if uv.markedopen then { uv with markedopen := false }
  else if uv.marked then uv.closed v else uv

section Collect

variable {s s' : UpvalState} {p q L fuel : ℕ} {uv uv' : UpVal} {o : OpenLinks} {l : StkId}
  {ring xs ys done live : List ℕ} {lists : ℕ → List ℕ} {th th' : Thread} {v : TValue}

theorem RingOk.head (h : RingOk s ring) : s.uvheadnext = ring.head? := by
  have hring := h.isring
  cases ring with
  | nil => exact hring.1
  | cons p ps => exact hring.1

theorem RingOk.next_of_append (h : RingOk s (done ++ p :: ys)) (hl : s.links p = some o) :
    o.next = ys.head? := by
  have hring := h.isring
  rw [List.map_append, List.map_cons] at hring
  have hnext : s.next (some p) = (ys.map some).head?.getD none := Path.next_of_append hring
  have hlink : s.next (some p) = o.next := by
    show (s.links p).bind _ = _
    rw [hl]
    rfl
  rw [← hlink, hnext]
  cases ys <;> rfl

theorem erase_middle (hnd : (done ++ p :: ys).Nodup) : (done ++ p :: ys).erase p = done ++ ys := by
  have hp : p ∉ done := fun hm => by
    have hdisj := (List.nodup_append.mp hnd).2.2
    exact hdisj p hm p List.mem_cons_self rfl
  rw [List.erase_append_right _ hp, List.erase_cons_head]

/-- What the loop of `clearupvals` does to the rest of the ring. -/
structure Cleared (s s' : UpvalState) (done ys ring : List ℕ) : Prop where
  ringok : RingOk s' ring
  threads : s'.threads = s.threads
  slots : s'.slots = s.slots
  objects : s'.objects = s.objects
  mem : ∀ p, p ∈ ring ↔ p ∈ done ∨ (p ∈ ys ∧ ∃ uv, s.upvals p = some uv ∧ uv.markedopen = true)
  others : ∀ p, p ∉ ys → (s'.upvals p).map UpVal.strip = (s.upvals p).map UpVal.strip
  cleared : ∀ p ∈ ys, ∀ uv l, s.upvals p = some uv → uv.v = .stack l →
    (s'.upvals p).map UpVal.strip = some (uv.cleared (s.slots l.block l.index)).strip

/-- One round of `clearupvals`. -/
theorem clearupval_spec (h : RingOk s (done ++ p :: ys)) (hu : s.upvals p = some uv)
    (hv : uv.v = .stack l) :
    ∃ s', clearupval p uv s = .ok ⟨⟩ s' ∧
      RingOk s' (if uv.markedopen then done ++ p :: ys else done ++ ys) ∧
      s'.threads = s.threads ∧ s'.slots = s.slots ∧ s'.objects = s.objects ∧
      (∀ q, q ≠ p → (s'.upvals q).map UpVal.strip = (s.upvals q).map UpVal.strip) ∧
      (s'.upvals p).map UpVal.strip = some (uv.cleared (s.slots l.block l.index)).strip := by
  have hp : p ∈ done ++ p :: ys := List.mem_append_right _ List.mem_cons_self
  have herase := erase_middle h.nodup
  unfold clearupval UpVal.cleared
  by_cases hm : uv.markedopen = true
  · rw [if_pos hm, if_pos hm, if_pos hm]
    have hshape : SameShape s (s.setUpval p { uv with markedopen := false }) := by
      refine ⟨fun _ => rfl, rfl, rfl, rfl, rfl, fun q => ?_⟩
      show Option.map _ (update s.upvals p _ q) = _
      by_cases he : q = p
      · subst he
        rw [update_self, hu]
        rfl
      · rw [update_of_ne he]
    refine ⟨_, setupval_run, h.sameShape hshape, rfl, rfl, rfl, fun q hq => ?_, ?_⟩
    · show Option.map _ (update s.upvals p _ q) = _
      rw [update_of_ne hq]
    · show Option.map _ (update s.upvals p _ p) = _
      rw [update_self]
      rfl
  · rw [if_neg hm, if_neg hm, if_neg hm]
    by_cases hmk : uv.marked = true
    · -- alive, but its thread is dead
      obtain ⟨s', hrun, hring, hth, hsl, hob, hstrip, hclosed⟩ := closeupval_spec h hp hu hv
      rw [herase] at hring
      rw [if_pos hmk, hmk]
      exact ⟨s', hrun, hring, hth, hsl, hob, hstrip, by rw [hclosed]; rfl⟩
    · -- dead
      obtain ⟨s', hrun, hring, hsame⟩ := dropupval_spec h hp
      rw [herase] at hring
      rw [Bool.not_eq_true] at hmk
      rw [hmk, if_neg Bool.false_ne_true]
      refine ⟨s', hrun, hring, hsame.threads, hsame.slots, hsame.objects, fun q _ => hsame.strip q, ?_⟩
      rw [hsame.strip p, hu]
      rfl

theorem clearupvals_spec (h : RingOk s (done ++ ys)) (hopen : ∀ p ∈ ys, ∃ l, OpenAt s p l)
    (hfuel : ys.length ≤ fuel) :
    ∃ s' ring, clearupvals fuel ys.head? s = .ok ⟨⟩ s' ∧ Cleared s s' done ys ring := by
  induction ys generalizing s done fuel with
  | nil =>
    refine ⟨s, done, ?_, ?_, rfl, rfl, rfl, fun p => ?_, fun _ _ => rfl, fun p hp => (by cases hp)⟩
    · cases fuel <;> rfl
    · rwa [List.append_nil] at h
    · simp
  | cons p ys ih =>
    obtain ⟨fuel, rfl⟩ : ∃ n, fuel = n + 1 := ⟨fuel - 1, by simp at hfuel; omega⟩
    obtain ⟨l, uv, o, hu, hv, hl, hd⟩ := hopen p List.mem_cons_self
    obtain ⟨s₁, hrun, hring, hth, hsl, hob, hstrip, hcleared⟩ := clearupval_spec h hu hv
    have hnd := (List.nodup_append.mp h.nodup).2.1
    obtain ⟨hpys, _⟩ := List.nodup_cons.mp hnd
    have hne : ∀ {q : ℕ}, q ∈ ys → q ≠ p := fun hq he => hpys (he ▸ hq)
    have hopen₁ : ∀ q ∈ ys, ∃ l, OpenAt s₁ q l := fun q hq => by
      obtain ⟨l, hl⟩ := hopen q (List.mem_cons_of_mem p hq)
      exact ⟨l, hl.congr (core_of_strip (hstrip q (hne hq)))⟩
    have hnext : o.next = ys.head? := h.next_of_append (links_eq_some_iff.mpr ⟨uv, hu, hl⟩)
    have hring' : RingOk s₁ ((if uv.markedopen then done ++ [p] else done) ++ ys) := by
      split
      · next hm =>
        rw [if_pos hm] at hring
        rwa [List.append_assoc]
      · next hm => rwa [if_neg hm] at hring
    obtain ⟨s', ring, hrun', hc⟩ := ih hring' hopen₁ (by simpa using hfuel)
    refine ⟨s', ring, ?_, hc.ringok, hc.threads.trans hth, hc.slots.trans hsl, hc.objects.trans hob,
      fun q => ?_, fun q hq => ?_, fun q hq uvq lq huq hvq => ?_⟩
    · show clearupvals (fuel + 1) (some p) s = _
      unfold clearupvals
      simp only [run_bind, getupval_run hu, openlinks_run hl, hrun, hnext, hrun']
    · rw [hc.mem]
      have hmark : ∀ {q}, q ∈ ys → ((∃ uv, s₁.upvals q = some uv ∧ uv.markedopen = true) ↔
          ∃ uv, s.upvals q = some uv ∧ uv.markedopen = true) := by
        intro q hq
        have hcore := core_of_strip (hstrip q (hne hq))
        constructor
        · rintro ⟨uv', hu', hm⟩
          obtain ⟨uv'', hu'', hcc⟩ := core_eq_some hcore.symm hu'
          exact ⟨uv'', hu'', (core_fields hcc).2.1.trans hm⟩
        · rintro ⟨uv', hu', hm⟩
          obtain ⟨uv'', hu'', hcc⟩ := core_eq_some hcore hu'
          exact ⟨uv'', hu'', (core_fields hcc).2.1.trans hm⟩
      by_cases hqp : q = p
      · subst hqp
        constructor
        · rintro (hm | ⟨hm, _⟩)
          · by_cases hmk : uv.markedopen = true
            · exact Or.inr ⟨List.mem_cons_self, uv, hu, hmk⟩
            · rw [if_neg hmk] at hm
              exact Or.inl hm
          · exact absurd hm hpys
        · rintro (hm | ⟨_, uv', hu', hm⟩)
          · refine Or.inl ?_
            split
            · exact List.mem_append_left _ hm
            · exact hm
          · obtain rfl := Option.some.inj (hu.symm.trans hu')
            rw [if_pos hm]
            exact Or.inl (List.mem_append_right _ List.mem_cons_self)
      · have hdone : q ∈ (if uv.markedopen then done ++ [p] else done) ↔ q ∈ done := by
          split
          · rw [List.mem_append, List.mem_singleton, or_iff_left hqp]
          · exact Iff.rfl
        rw [hdone, List.mem_cons, or_iff_right hqp]
        refine or_congr_right (and_congr_right (fun hq => hmark hq))
    · rw [List.mem_cons, not_or] at hq
      exact (hc.others q hq.2).trans (hstrip q hq.1)
    · by_cases hqp : q = p
      · subst hqp
        obtain rfl := Option.some.inj (hu.symm.trans huq)
        obtain rfl := UpvalPtr.stack.inj (hv.symm.trans hvq)
        exact (hc.others q hpys).trans hcleared
      · have hq' : q ∈ ys := (List.mem_cons.mp hq).resolve_left hqp
        have hst := hstrip q hqp
        rw [huq, Option.map_some] at hst
        obtain ⟨uv₁, hu₁, he⟩ := Option.map_eq_some_iff.mp hst
        obtain ⟨h1, h2, h3, h4⟩ := strip_fields he
        rw [hc.cleared q hq' uv₁ lq hu₁ (h1.trans hvq), hsl]
        refine congrArg some ?_
        unfold UpVal.cleared
        rw [h2, h3]
        split
        · obtain ⟨a, b, c, d, e⟩ := uv₁
          obtain ⟨a', b', c', d', e'⟩ := uvq
          cases b <;> cases b' <;>
          · unfold UpVal.strip at he ⊢
            simp_all
        · split
          · unfold UpVal.closed
            rw [h2, h3, h4]
          · exact he

/-! ### The atomic step -/

/-- What marking some threads does. -/
structure Reached (s s' : UpvalState) (lists : ℕ → List ℕ) (live : List ℕ) : Prop where
  shape : SameShape s s'
  threads : ∀ L, s'.threads L =
    if L ∈ live then (s.threads L).map fun th => { th with marked := true } else s.threads L
  reached : ∀ L ∈ live, ∀ p ∈ lists L, s'.upvals p = (s.upvals p).map UpVal.mark
  others : ∀ p, (∀ L ∈ live, p ∉ lists L) → s'.upvals p = s.upvals p

theorem map_mark_mark (x : Option UpVal) : (x.map UpVal.mark).map UpVal.mark = x.map UpVal.mark := by
  cases x <;> rfl

theorem traverse_spec (h : UpvalsOk s ring lists) (hlive : ∀ L ∈ live, ∃ th, s.threads L = some th) :
    ∃ s', live.forM traversestack s = .ok ⟨⟩ s' ∧ UpvalsOk s' ring lists ∧
      Reached s s' lists live := by
  induction live generalizing s with
  | nil =>
    refine ⟨s, rfl, h, ⟨fun _ => rfl, rfl, rfl, rfl, rfl, fun _ => rfl⟩, fun L => ?_,
      fun L hL => (by cases hL), fun _ _ => rfl⟩
    rw [if_neg List.not_mem_nil]
  | cons L live ih =>
    obtain ⟨th, hth⟩ := hlive L List.mem_cons_self
    obtain ⟨s₁, hrun₁, hok₁, hshape₁, hthreads₁, hupvals₁⟩ := traversestack_spec h hth
    have hlive₁ : ∀ L' ∈ live, ∃ t, s₁.threads L' = some t := by
      intro L' hL'
      obtain ⟨t, ht⟩ := hlive L' (List.mem_cons_of_mem L hL')
      obtain ⟨t', ht', _⟩ := hshape₁.symm.thread ht
      exact ⟨t', ht'⟩
    obtain ⟨s', hrun, hok, ht⟩ := ih hok₁ hlive₁
    refine ⟨s', ?_, hok, hshape₁.trans ht.shape, fun L' => ?_, fun L' hL' p hp => ?_, fun p hp => ?_⟩
    · show (traversestack L >>= fun _ => live.forM traversestack) s = _
      rw [run_bind, hrun₁]
      exact hrun
    · rw [ht.threads, hthreads₁]
      by_cases he : L' = L
      · subst he
        rw [update_self, if_pos List.mem_cons_self, hth]
        split <;> rfl
      · rw [update_of_ne he]
        by_cases hm : L' ∈ live
        · rw [if_pos hm, if_pos (List.mem_cons_of_mem L hm)]
        · have hm' : L' ∉ L :: live := fun hc => hm ((List.mem_cons.mp hc).resolve_left he)
          rw [if_neg hm, if_neg hm']
    · have hmark₁ : p ∈ lists L → s₁.upvals p = (s.upvals p).map UpVal.mark := fun hpL => by
        rw [hupvals₁]
        exact if_pos hpL
      have hkeep₁ : p ∉ lists L → s₁.upvals p = s.upvals p := fun hpL => by
        rw [hupvals₁]
        exact if_neg hpL
      by_cases hex : ∃ K ∈ live, p ∈ lists K
      · obtain ⟨K, hK, hpK⟩ := hex
        rw [ht.reached K hK p hpK]
        by_cases hpL : p ∈ lists L
        · rw [hmark₁ hpL, map_mark_mark]
        · rw [hkeep₁ hpL]
      · have hnone : ∀ K ∈ live, p ∉ lists K := fun K hK hpK => hex ⟨K, hK, hpK⟩
        rw [ht.others p hnone]
        rcases List.mem_cons.mp hL' with rfl | hL'
        · exact hmark₁ hp
        · exact absurd hp (hnone L' hL')
    · have hpL := hp L List.mem_cons_self
      rw [ht.others p (fun K hK => hp K (List.mem_cons_of_mem L hK)), hupvals₁]
      exact if_neg hpL

/-- What a program reads through an upvalue that is not dead. -/
def UpvalState.reads (s : UpvalState) (p : ℕ) : Option TValue :=
  match s.upvals p with
  | none => none
  | some uv =>
    if uv.isdead then none
    else
      match uv.v, uv.u with
      | .stack l, _ => some (s.slots l.block l.index)
      | .value, .value v => some v
      | .value, .links _ => none

theorem reads_open (hat : OpenAt s p l) : s.reads p = some (s.slots l.block l.index) := by
  obtain ⟨uv, o, hu, hv, ho, hd⟩ := hat
  simp only [UpvalState.reads, hu, hd, hv, Bool.false_eq_true, if_false]

theorem reads_closed (hu : s.upvals p = some uv) (hd : uv.isdead = false) (hv : uv.v = .value)
    (hval : uv.u = .value v) : s.reads p = some v := by
  simp only [UpvalState.reads, hu, hd, hv, hval, Bool.false_eq_true, if_false]

theorem reads_dead (hu : s.upvals p = some uv) (hd : uv.isdead = true) : s.reads p = none := by
  simp only [UpvalState.reads, hu, hd, if_true]

theorem links_flip (p : ℕ) : s.flip.links p = s.links p := by
  have hu : ∀ uv : UpVal, uv.flip.u = uv.u := fun uv => by
    unfold UpVal.flip
    split <;> rfl
  apply Option.ext
  intro o
  rw [links_eq_some_iff, links_eq_some_iff]
  constructor
  · rintro ⟨uv, huv, ho⟩
    obtain ⟨uv', huv', rfl⟩ := Option.map_eq_some_iff.mp huv
    exact ⟨uv', huv', (hu uv').symm.trans ho⟩
  · rintro ⟨uv, huv, ho⟩
    refine ⟨uv.flip, ?_, (hu uv).trans ho⟩
    show Option.map _ (s.upvals p) = _
    rw [huv, Option.map_some]

/-- The upvalues of a state in which every thread is either traversed or about to die. -/
structure Settled (s : UpvalState) (lists : ℕ → List ℕ) : Prop where
  marked : ∀ L th p uv, s.threads L = some th → th.marked = true → p ∈ lists L →
    s.upvals p = some uv → uv.markedopen = true ∧ uv.marked = true

/-- What the flip leaves of an upvalue. -/
theorem flip_upvals (p : ℕ) : s.flip.upvals p = (s.upvals p).map UpVal.flip := rfl

theorem flip_marked (h : uv.marked = true) : uv.flip = { uv with marked := false } := if_pos h

theorem flip_unmarked (h : uv.marked = false) : uv.flip = { uv with isdead := true } :=
  if_neg (by rw [h]; exact Bool.false_ne_true)

theorem cleared_open (h : uv.markedopen = true) : uv.cleared v = { uv with markedopen := false } :=
  if_pos h

theorem cleared_alive (h : uv.markedopen = false) (hm : uv.marked = true) :
    uv.cleared v = uv.closed v := by
  unfold UpVal.cleared
  rw [h, hm, if_neg Bool.false_ne_true, if_pos rfl]

theorem cleared_dead (h : uv.markedopen = false) (hm : uv.marked = false) : uv.cleared v = uv := by
  unfold UpVal.cleared
  rw [h, hm, if_neg Bool.false_ne_true, if_neg Bool.false_ne_true]

/-- The fate of the upvalues when `clearupvals` is done and the white flips. -/
structure Flipped (s s' : UpvalState) (lists : ℕ → List ℕ) : Prop where
  threads : ∀ L, s'.threads L =
    (s.threads L).bind fun th => if th.marked then some { th with marked := false } else none
  slots : s'.slots = s.slots
  objects : s'.objects = s.objects
  /-- an open upvalue of a thread that was reached stays as it is -/
  kept : ∀ L th p l, s.threads L = some th → th.marked = true → p ∈ lists L → OpenAt s p l →
    OpenAt s' p l
  /-- and nothing reads differently, unless it is dead -/
  reads : ∀ p, s'.reads p = s.reads p ∨ s'.reads p = none

theorem clear_flip_spec (h : UpvalsOk s ring lists) (hset : Settled s lists) :
    ∃ s₂ ring', clearupvals (s.objects.length + 1) s.uvheadnext s = .ok ⟨⟩ s₂ ∧
      UpvalsOk s₂.flip ring' lists ∧ Flipped s s₂.flip lists := by
  have hopen : ∀ p ∈ ring, ∃ l, OpenAt s p l := fun p hp => openAt_of_not_value h hp
  have hlen := length_le_objects h.ringok h.ringok.nodup hopen
  obtain ⟨s₂, ring', hrun, hc⟩ := @clearupvals_spec _ (s.objects.length + 1) _ []
    h.ringok hopen (by omega)
  rw [← h.ringok.head] at hrun
  have hmem : ∀ p, p ∈ ring' ↔ p ∈ ring ∧ ∃ uv, s.upvals p = some uv ∧ uv.markedopen = true := by
    intro p
    rw [hc.mem, or_iff_right List.not_mem_nil]
  -- an upvalue of the ring belongs to a thread; its marks are those of the thread
  have howner : ∀ p ∈ ring, ∃ L th l uv o, s.threads L = some th ∧ p ∈ lists L ∧ OpenAt s p l ∧
      s.upvals p = some uv ∧ uv.v = .stack l ∧ uv.u = .links o ∧ uv.isdead = false ∧
      uv.markedopen = th.marked ∧ (th.marked = true → uv.marked = true) := by
    intro p hp
    obtain ⟨L, th, hth, hpL⟩ := (h.mem p).mp hp
    obtain ⟨i, hi⟩ := (h.list L th hth).opened p hpL
    have hi' := hi
    obtain ⟨uv, o, hu, hv, ho, hd⟩ := hi'
    refine ⟨L, th, _, uv, o, hth, hpL, hi, hu, hv, ho, hd, ?_, fun hm => ?_⟩
    · cases hm : th.marked with
      | true => exact (hset.marked L th p uv hth hm hpL hu).1
      | false => exact h.unmarked L th p uv hth hm hpL hu
    · exact (hset.marked L th p uv hth hm hpL hu).2
  -- the three fates
  have hkept : ∀ {L th p l}, s.threads L = some th → th.marked = true → p ∈ lists L → OpenAt s p l →
      ∃ uv₃ o₃, s₂.flip.upvals p = some uv₃ ∧ uv₃.v = .stack l ∧ uv₃.u = .links o₃ ∧
        o₃.threadnext = s.threadnext p ∧ uv₃.isdead = false ∧ uv₃.markedopen = false := by
    intro L th p l hth hm hpL hat
    have hat' := hat
    obtain ⟨uv, o, hu, hv, ho, hd⟩ := hat'
    have hpr : p ∈ ring := (h.mem p).mpr ⟨L, th, hth, hpL⟩
    obtain ⟨hmo, hmk⟩ := hset.marked L th p uv hth hm hpL hu
    have hst := hc.cleared p hpr uv l hu hv
    rw [cleared_open hmo] at hst
    obtain ⟨uv₂, hu₂, he⟩ := Option.map_eq_some_iff.mp hst
    obtain ⟨h1, h2, h3, h4⟩ := strip_fields he
    obtain ⟨o₂, ho₂, htn⟩ := strip_links he ho
    refine ⟨uv₂.flip, o₂, by rw [flip_upvals, hu₂, Option.map_some], ?_⟩
    rw [flip_marked (h3.trans hmk), threadnext_of_links hu ho]
    exact ⟨h1.trans hv, ho₂, htn, h4.trans hd, h2⟩
  have hlost : ∀ {p uv l o}, p ∈ ring → s.upvals p = some uv → uv.v = .stack l → uv.u = .links o →
      uv.isdead = false → uv.markedopen = false →
      ∃ uv₃, s₂.flip.upvals p = some uv₃ ∧ (uv₃.isdead = true ∨
        (uv₃.isdead = false ∧ uv₃.v = .value ∧ uv₃.u = .value (s.slots l.block l.index))) := by
    intro p uv l o hp hu hv ho hd hm
    have hst := hc.cleared p hp uv l hu hv
    cases hmk : uv.marked with
    | true =>
      rw [cleared_alive hm hmk] at hst
      obtain ⟨uv₂, hu₂, he⟩ := Option.map_eq_some_iff.mp hst
      obtain ⟨h1, h2, h3, h4⟩ := strip_fields he
      have hval : uv₂.u = .value (s.slots l.block l.index) := strip_value he rfl
      refine ⟨uv₂.flip, by rw [flip_upvals, hu₂, Option.map_some], Or.inr ?_⟩
      rw [flip_marked (h3.trans hmk)]
      exact ⟨h4.trans hd, h1, hval⟩
    | false =>
      rw [cleared_dead hm hmk] at hst
      obtain ⟨uv₂, hu₂, he⟩ := Option.map_eq_some_iff.mp hst
      obtain ⟨_, _, h3, _⟩ := strip_fields he
      refine ⟨uv₂.flip, by rw [flip_upvals, hu₂, Option.map_some], Or.inl ?_⟩
      rw [flip_unmarked (h3.trans hmk)]
  have hrest : ∀ {p uv v}, p ∉ ring → s.upvals p = some uv → uv.v = .value → uv.u = .value v →
      ∃ uv₃, s₂.flip.upvals p = some uv₃ ∧ uv₃.v = .value ∧ uv₃.u = .value v ∧
        (uv₃.isdead = false → uv.isdead = false) := by
    intro p uv v hp hu hv hval
    have hst := hc.others p hp
    rw [hu, Option.map_some] at hst
    obtain ⟨uv₂, hu₂, he⟩ := Option.map_eq_some_iff.mp hst
    obtain ⟨h1, _, _, h4⟩ := strip_fields he
    have hval₂ : uv₂.u = .value v := strip_value he hval
    refine ⟨uv₂.flip, by rw [flip_upvals, hu₂, Option.map_some], ?_⟩
    unfold UpVal.flip
    split
    · exact ⟨h1.trans hv, hval₂, fun hd => h4.symm.trans hd⟩
    · exact ⟨h1.trans hv, hval₂, fun hd => by cases hd⟩
  have hthreads : ∀ L, s₂.flip.threads L =
      (s.threads L).bind fun th => if th.marked then some { th with marked := false } else none := by
    intro L
    show (s₂.threads L).bind _ = _
    rw [hc.threads]
  have hthread : ∀ {L th₃}, s₂.flip.threads L = some th₃ → ∃ th, s.threads L = some th ∧
      th.marked = true ∧ th₃ = { th with marked := false } := by
    intro L th₃ hth₃
    rw [hthreads] at hth₃
    obtain ⟨th, hth, he⟩ := Option.bind_eq_some_iff.mp hth₃
    cases hm : th.marked with
    | true =>
      rw [hm, if_pos rfl] at he
      exact ⟨th, hth, hm, (Option.some.inj he).symm⟩
    | false =>
      rw [hm, if_neg Bool.false_ne_true] at he
      cases he
  have hlive : ∀ {L th}, s.threads L = some th → th.marked = true →
      s₂.flip.threads L = some { th with marked := false } := by
    intro L th hth hm
    rw [hthreads, hth, Option.bind_some, if_pos hm]
  refine ⟨s₂, ring', hrun, ⟨?_, ?_, ?_, ?_, ?_, ?_⟩, hthreads, hc.slots, hc.objects, ?_, ?_⟩
  · refine hc.ringok.relink links_flip rfl rfl rfl (fun p uv hu => ?_)
    obtain ⟨uv', hu', _⟩ := Option.map_eq_some_iff.mp hu
    exact ⟨uv', hu'⟩
  · intro L th₃ hth₃
    obtain ⟨th, hth, hm, rfl⟩ := hthread hth₃
    refine (h.list L th hth).reshape rfl rfl (fun p hp l => ?_) (fun p hp => ?_)
    · obtain ⟨i, hi⟩ := (h.list L th hth).opened p hp
      obtain ⟨uv₃, o₃, hu₃, hv₃, ho₃, _, hd₃, _⟩ := hkept hth hm hp hi
      exact hi.iff_of ⟨uv₃, o₃, hu₃, hv₃, ho₃, hd₃⟩ l
    · obtain ⟨i, hi⟩ := (h.list L th hth).opened p hp
      obtain ⟨uv₃, o₃, hu₃, _, ho₃, htn, _, _⟩ := hkept hth hm hp hi
      rw [threadnext_of_links hu₃ ho₃, htn]
  · intro p
    rw [hmem]
    constructor
    · rintro ⟨hp, uv, hu, hmo⟩
      obtain ⟨L, th, _, uv', _, hth, hpL, _, hu', _, _, _, hmt, _⟩ := howner p hp
      obtain rfl := Option.some.inj (hu.symm.trans hu')
      exact ⟨L, _, hlive hth (hmt.symm.trans hmo), hpL⟩
    · rintro ⟨L, th₃, hth₃, hpL⟩
      obtain ⟨th, hth, hm, rfl⟩ := hthread hth₃
      have hp : p ∈ ring := (h.mem p).mpr ⟨L, th, hth, hpL⟩
      obtain ⟨i, uv, _, hu, _⟩ := (h.list L th hth).opened p hpL
      exact ⟨hp, uv, hu, (hset.marked L th p uv hth hm hpL hu).1⟩
  · intro L₁ L₂ t₁ t₂ h₁ h₂ hb
    obtain ⟨t₁', h₁', _, rfl⟩ := hthread h₁
    obtain ⟨t₂', h₂', _, rfl⟩ := hthread h₂
    exact h.distinct L₁ L₂ t₁' t₂' h₁' h₂' hb
  · intro p uv₃ hu₃ hd₃ hp
    obtain ⟨uv₂, hu₂, rfl⟩ := Option.map_eq_some_iff.mp hu₃
    by_cases hpr : p ∈ ring
    · obtain ⟨_, _, l, uv, o, _, _, _, hu, hv, ho, hd, _, _⟩ := howner p hpr
      have hmo : uv.markedopen = false := by
        rw [← Bool.not_eq_true]
        exact fun hmo => hp ((hmem p).mpr ⟨hpr, uv, hu, hmo⟩)
      obtain ⟨uv₃, hu₃', hfate⟩ := hlost hpr hu hv ho hd hmo
      obtain rfl := Option.some.inj (hu₃.symm.trans hu₃')
      rcases hfate with hdead | ⟨_, hv₃, hval⟩
      · rw [hd₃] at hdead
        cases hdead
      · exact ⟨_, hv₃, hval⟩
    · have hst := hc.others p hpr
      rw [hu₂, Option.map_some] at hst
      obtain ⟨uv, hu, he⟩ := Option.map_eq_some_iff.mp hst.symm
      by_cases hdead : uv.isdead = true
      · -- what was dead stays dead
        exfalso
        have hd₂ : uv₂.isdead = true := (strip_fields he.symm).2.2.2.trans hdead
        unfold UpVal.flip at hd₃
        split at hd₃
        · rw [hd₂] at hd₃
          cases hd₃
        · cases hd₃
      · obtain ⟨v, hv, hval⟩ := h.closed p uv hu (by simpa using hdead) hpr
        obtain ⟨uv₃, hu₃', hv₃, hval₃, _⟩ := hrest hpr hu hv hval
        obtain rfl := Option.some.inj (hu₃.symm.trans hu₃')
        exact ⟨v, hv₃, hval₃⟩
  · intro L th₃ p uv₃ hth₃ _ hpL hu₃
    obtain ⟨th, hth, hm, rfl⟩ := hthread hth₃
    obtain ⟨i, hi⟩ := (h.list L th hth).opened p hpL
    obtain ⟨uv₃', _, hu₃', _, _, _, _, hmo⟩ := hkept hth hm hpL hi
    obtain rfl := Option.some.inj (hu₃.symm.trans hu₃')
    exact hmo
  · intro L th p l hth hm hpL hat
    obtain ⟨uv₃, o₃, hu₃, hv₃, ho₃, _, hd₃, _⟩ := hkept hth hm hpL hat
    exact ⟨uv₃, o₃, hu₃, hv₃, ho₃, hd₃⟩
  · intro p
    have hslots : s₂.flip.slots = s.slots := hc.slots
    by_cases hpr : p ∈ ring
    · obtain ⟨L, th, l, uv, o, hth, hpL, hat, hu, hv, ho, hd, hmt, _⟩ := howner p hpr
      cases hm : th.marked with
      | true =>
        obtain ⟨uv₃, o₃, hu₃, hv₃, ho₃, _, hd₃, _⟩ := hkept hth hm hpL hat
        have hat₃ : OpenAt s₂.flip p l := ⟨uv₃, o₃, hu₃, hv₃, ho₃, hd₃⟩
        rw [reads_open hat, reads_open hat₃, hslots]
        exact Or.inl rfl
      | false =>
        obtain ⟨uv₃, hu₃, hfate⟩ := hlost hpr hu hv ho hd (hmt.trans hm)
        rcases hfate with hdead | ⟨hd₃, hv₃, hval⟩
        · exact Or.inr (reads_dead hu₃ hdead)
        · rw [reads_open hat, reads_closed hu₃ hd₃ hv₃ hval]
          exact Or.inl rfl
    · cases hu : s.upvals p with
      | none =>
        have hst := hc.others p hpr
        rw [hu] at hst
        have hnone : s₂.upvals p = none := Option.map_eq_none_iff.mp hst
        refine Or.inr ?_
        simp only [UpvalState.reads, flip_upvals, hnone, Option.map_none]
      | some uv =>
        cases hd : uv.isdead with
        | true =>
          have hst := hc.others p hpr
          rw [hu, Option.map_some] at hst
          obtain ⟨uv₂, hu₂, he⟩ := Option.map_eq_some_iff.mp hst
          have hd₂ : uv₂.isdead = true := (strip_fields he).2.2.2.trans hd
          refine Or.inr (reads_dead (by rw [flip_upvals, hu₂, Option.map_some]) ?_)
          unfold UpVal.flip
          split
          · exact hd₂
          · rfl
        | false =>
          obtain ⟨v, hv, hval⟩ := h.closed p uv hu hd hpr
          obtain ⟨uv₃, hu₃, hv₃, hval₃, _⟩ := hrest hpr hu hv hval
          cases hd₃ : uv₃.isdead with
          | true => exact Or.inr (reads_dead hu₃ hd₃)
          | false =>
            rw [reads_closed hu hd hv hval, reads_closed hu₃ hd₃ hv₃ hval₃]
            exact Or.inl rfl

theorem SameShape.reads (h : SameShape s s') (p : ℕ) : s'.reads p = s.reads p := by
  unfold UpvalState.reads
  cases hu' : s'.upvals p with
  | none =>
    have hs := h.upvals p
    rw [hu', Option.map_none] at hs
    rw [Option.map_eq_none_iff.mp hs.symm]
  | some uv' =>
    obtain ⟨uv, hu, h1, h2, h3⟩ := h.upval hu'
    simp only [hu, h1, h2, h3, h.slots]

/-- **The atomic step of a collection.**  The threads that are alive are those it is given. -/
theorem atomic_spec (h : UpvalsOk s ring lists) (hlive : ∀ L ∈ live, ∃ th, s.threads L = some th)
    (hmarked : ∀ L th, s.threads L = some th → th.marked = true → L ∈ live) :
    ∃ s' ring', atomic live s = .ok ⟨⟩ s' ∧ UpvalsOk s' ring' lists ∧
      (∀ L, s'.threads L = if L ∈ live then (s.threads L).map Thread.unmarked else none) ∧
      s'.slots = s.slots ∧ s'.objects = s.objects ∧
      (∀ L ∈ live, ∀ p ∈ lists L, ∀ l, OpenAt s p l → OpenAt s' p l) ∧
      ∀ p, s'.reads p = s.reads p ∨ s'.reads p = none := by
  obtain ⟨s₁, hrun₁, hok₁, ht⟩ := traverse_spec h hlive
  have hset : Settled s₁ lists := by
    refine ⟨fun L th p uv hth hm hpL hu => ?_⟩
    have hL : L ∈ live := by
      by_contra hL
      have hth' := ht.threads L
      rw [if_neg hL, hth] at hth'
      exact hL (hmarked L th hth'.symm hm)
    rw [ht.reached L hL p hpL] at hu
    obtain ⟨uv', _, rfl⟩ := Option.map_eq_some_iff.mp hu
    exact ⟨rfl, rfl⟩
  obtain ⟨s₂, ring', hrun₂, hok₂, hf⟩ := clear_flip_spec hok₁ hset
  refine ⟨s₂.flip, ring', ?_, hok₂, fun L => ?_, hf.slots.trans ht.shape.slots,
    hf.objects.trans ht.shape.objects, fun L hL p hpL l hat => ?_, fun p => ?_⟩
  · unfold atomic
    simp only [run_bind, hrun₁, walkfuel_run, run_get, hrun₂, run_modify]
  · rw [hf.threads, ht.threads]
    by_cases hL : L ∈ live
    · rw [if_pos hL, if_pos hL]
      cases s.threads L <;> rfl
    · rw [if_neg hL, if_neg hL]
      cases hth : s.threads L with
      | none => rfl
      | some th =>
        have hm : ¬th.marked = true := fun hm => hL (hmarked L th hth hm)
        rw [Option.bind_some, if_neg hm]
  · obtain ⟨th, hth⟩ := hlive L hL
    have hth₁ : s₁.threads L = some { th with marked := true } := by
      rw [ht.threads, if_pos hL, hth]
      rfl
    exact hf.kept L _ p l hth₁ rfl hpL (ht.shape.openAt.mpr hat)
  · rw [← ht.shape.reads p]
    exact hf.reads p

/-! ### The rest of a collection -/

theorem clearmarks_run (h : RingOk s (done ++ ys)) (hu : ∀ p ∈ ys, ∃ uv, s.upvals p = some uv)
    (hfuel : ys.length ≤ fuel) :
    clearmarks fuel ys.head? s
      = .ok ⟨⟩ (s.mapUpvals ys fun uv => { uv with markedopen := false }) := by
  induction ys generalizing s done fuel with
  | nil =>
    have hself : s.mapUpvals [] (fun uv => { uv with markedopen := false }) = s := by
      unfold UpvalState.mapUpvals
      simp
    rw [hself]
    cases fuel <;> rfl
  | cons p ys ih =>
    obtain ⟨fuel, rfl⟩ : ∃ n, fuel = n + 1 := ⟨fuel - 1, by simp at hfuel; omega⟩
    obtain ⟨o, hl⟩ := h.links p (List.mem_append_right _ List.mem_cons_self)
    obtain ⟨uv, hup, ho⟩ := links_eq_some_iff.mp hl
    have hnext : o.next = ys.head? := h.next_of_append hl
    have hnd := (List.nodup_append.mp h.nodup).2.1
    obtain ⟨hpys, _⟩ := List.nodup_cons.mp hnd
    set s₁ := s.setUpval p { uv with markedopen := false } with hs₁
    have hshape : SameShape s s₁ := by
      refine ⟨fun _ => rfl, rfl, rfl, rfl, rfl, fun q => ?_⟩
      show Option.map _ (update s.upvals p _ q) = _
      by_cases he : q = p
      · subst he
        rw [update_self, hup]
        rfl
      · rw [update_of_ne he]
    have hring₁ : RingOk s₁ ((done ++ [p]) ++ ys) := by
      rw [List.append_assoc]
      exact h.sameShape hshape
    have hrest := ih hring₁ (fun q hq => by
      obtain ⟨uv', hu'⟩ := hu q (List.mem_cons_of_mem p hq)
      have hne : q ≠ p := fun he => hpys (he ▸ hq)
      exact ⟨uv', (update_of_ne hne _ _).trans hu'⟩) (by simpa using hfuel)
    show clearmarks (fuel + 1) (some p) s = _
    unfold clearmarks
    simp only [run_bind, getupval_run hup, setupval_run, openlinks_run ho, hnext]
    exact hrest.trans (congrArg _ (mapUpvals_cons
      (f := fun uv => { uv with markedopen := false }) hpys hup))

theorem abandoncycle_spec (h : UpvalsOk s ring lists) :
    ∃ s', abandoncycle s = .ok ⟨⟩ s' ∧ UpvalsOk s' ring lists ∧ SameShape s s' := by
  have hwhite : SameShape s s.whiten := by
    refine ⟨fun L => ?_, rfl, rfl, rfl, rfl, fun p => ?_⟩
    · show Option.map _ ((s.threads L).map _) = _
      rw [Option.map_map]
      rfl
    · show Option.map _ ((s.upvals p).map _) = _
      rw [Option.map_map]
      rfl
  have hring : RingOk s.whiten ring := h.ringok.sameShape hwhite
  have hex : ∀ p ∈ ring, ∃ uv, s.whiten.upvals p = some uv := fun p hp => by
    obtain ⟨l, uv, _, hu, _⟩ := openAt_of_not_value h hp
    exact ⟨_, by show (s.upvals p).map _ = _; rw [hu]; rfl⟩
  have hlen := length_le_objects h.ringok h.ringok.nodup (fun p hp => openAt_of_not_value h hp)
  have hrun := @clearmarks_run _ (s.objects.length + 1) _ [] hring hex
    (by omega)
  have hshape := hwhite.trans (@sameShape_mapUpvals s.whiten ring
    (fun uv => { uv with markedopen := false }) (fun _ => rfl))
  refine ⟨_, ?_, h.sameShape hshape ?_, hshape⟩
  · have hhead : s.uvheadnext = ring.head? := h.ringok.head
    unfold abandoncycle
    simp only [run_bind, run_modify, walkfuel_run, run_get]
    have hw : s.whiten.uvheadnext = ring.head? := hhead
    rw [hw]
    exact hrun
  · intro L th p uv hth _ hp hu
    have hpr : p ∈ ring := by
      obtain ⟨t, ht, _⟩ := hshape.thread hth
      exact (h.mem p).mpr ⟨L, t, ht, hp⟩
    have hu' : (s.whiten.upvals p).map (fun uv => { uv with markedopen := false }) = some uv := by
      have hself : (s.whiten.mapUpvals ring fun uv => { uv with markedopen := false }).upvals p
          = (s.whiten.upvals p).map (fun uv => { uv with markedopen := false }) := if_pos hpr
      rw [← hself]
      exact hu
    obtain ⟨uv', _, rfl⟩ := Option.map_eq_some_iff.mp hu'
    rfl

/-- A dead upvalue is freed. -/
theorem freeupval_spec (h : UpvalsOk s ring lists) (hu : s.upvals p = some uv)
    (hd : uv.isdead = true) :
    ∃ s', luaF_freeupval p s = .ok ⟨⟩ s' ∧ UpvalsOk s' ring lists ∧ s'.threads = s.threads ∧
      s'.slots = s.slots ∧ s'.upvals = update s.upvals p none := by
  have hpl : ∀ L th, s.threads L = some th → p ∉ lists L := by
    intro L th hth hp
    obtain ⟨i, uv', _, hu', _, _, hd'⟩ := (h.list L th hth).opened p hp
    obtain rfl := Option.some.inj (hu.symm.trans hu')
    rw [hd] at hd'
    cases hd'
  have hpr : p ∉ ring := fun hp => by
    obtain ⟨L, th, hth, hpL⟩ := (h.mem p).mp hp
    exact hpl L th hth hpL
  set s' : UpvalState := { s with upvals := update s.upvals p none, objects := s.objects.erase p }
    with hs'
  have hother : ∀ q, q ≠ p → s'.upvals q = s.upvals q := fun q hq => update_of_ne hq _ _
  have hlinks : ∀ q, q ≠ p → s'.links q = s.links q := fun q hq => by
    unfold UpvalState.links
    rw [hother q hq]
  have hne : ∀ q ∈ ring, q ≠ p := fun q hq he => hpr (he ▸ hq)
  refine ⟨s', rfl, ⟨⟨?_, h.ringok.nodup, fun q hq => ?_, fun q uv' hq => ?_⟩, ?_, h.mem, h.distinct, ?_, ?_⟩,
    rfl, rfl, rfl⟩
  · apply Path.congr h.ringok.isring
    · intro y hy
      rcases hy with rfl | hy
      · rfl
      · obtain ⟨q, hq, rfl⟩ := List.mem_map.mp hy
        exact congrArg (Option.bind · OpenLinks.next) (hlinks q (hne q hq))
    · intro y hy
      rcases hy with rfl | hy
      · rfl
      · obtain ⟨q, hq, rfl⟩ := List.mem_map.mp hy
        exact congrArg (Option.bind · OpenLinks.prev) (hlinks q (hne q hq))
  · rw [hlinks q (hne q hq)]
    exact h.ringok.links q hq
  · have hqp : q ≠ p := by
      rintro rfl
      have hself : s'.upvals q = none := update_self _ _ _
      rw [hself] at hq
      cases hq
    rw [hother q hqp] at hq
    exact (List.mem_erase_of_ne hqp).mpr (h.ringok.alloc q uv' hq)
  · intro L th hth
    refine (h.list L th hth).reshape rfl rfl (fun q hq l => ?_) (fun q hq => ?_)
    · unfold OpenAt
      rw [hother q (fun he => hpl L th hth (he ▸ hq))]
    · unfold UpvalState.threadnext
      rw [hlinks q (fun he => hpl L th hth (he ▸ hq))]
  · intro q uv' hq hd' hqr
    have hqp : q ≠ p := by
      rintro rfl
      have hself : s'.upvals q = none := update_self _ _ _
      rw [hself] at hq
      cases hq
    rw [hother q hqp] at hq
    exact h.closed q uv' hq hd' hqr
  · intro L th q uv' hth hm hq hu'
    have hqp : q ≠ p := fun he => hpl L th hth (he ▸ hq)
    rw [hother q hqp] at hu'
    exact h.unmarked L th q uv' hth hm hq hu'

end Collect

end Luwu
