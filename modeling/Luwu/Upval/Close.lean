import Luwu.Upval.Lists

/-!
# Closing upvalues

`luaF_close` takes upvalues off the front of the list of a thread, and `clearupvals` walks the ring and
takes out what belongs to threads that were not reached.  Both go through `luaF_closeupval`, so both
leave a closed upvalue with the value of its slot.
-/

namespace Luwu

open Function Luwu.Run Luwu.Rings Luwu.Chains

/-- The upvalue `p` was closed: it holds the value of the slot it stood for. -/
def ClosedFrom (s s' : UpvalState) (p : ℕ) : Prop :=
  ∃ uv l, s.upvals p = some uv ∧ uv.v = .stack l ∧
    s'.upvals p = some (uv.closed (s.slots l.block l.index))

section Close

variable {s s' : UpvalState} {p q L fuel : ℕ} {uv uv' : UpVal} {o : OpenLinks} {l level : StkId}
  {ring xs ys done : List ℕ} {lists : ℕ → List ℕ} {th th' : Thread}

theorem openAt_of_not_value (h : UpvalsOk s ring lists) (hp : p ∈ ring) : ∃ l, OpenAt s p l := by
  obtain ⟨L, th, hth, hpl⟩ := (h.mem p).mp hp
  obtain ⟨i, hi⟩ := (h.list L th hth).opened p hpl
  exact ⟨_, hi⟩

theorem OpenAt.not_closed {v : TValue} (hat : OpenAt s p l) (hu : s.upvals p = some uv)
    (hv : uv.u = .value v) : False := by
  obtain ⟨uv', o, hu', _, ho, _⟩ := hat
  obtain rfl := Option.some.inj (hu.symm.trans hu')
  rw [hv] at ho
  cases ho

/-- A closed upvalue has no links to lose. -/
theorem ClosedFrom.keep {s'' : UpvalState} (h : ClosedFrom s s' p)
    (hc : (s''.upvals p).map UpVal.core = (s'.upvals p).map UpVal.core) : ClosedFrom s s'' p := by
  obtain ⟨uv, l, hu, hv, hu'⟩ := h
  obtain ⟨uv'', hu'', hcore⟩ := core_eq_some hc hu'
  have hval : uv''.u = .value (s.slots l.block l.index) := core_value hcore rfl
  have hself : uv''.core = uv'' := by
    unfold UpVal.core
    rw [hval]
  have he : uv'' = uv.closed (s.slots l.block l.index) := hself.symm.trans hcore
  exact ⟨uv, l, hu, hv, he ▸ hu''⟩

theorem ClosedFrom.since {s₀ : UpvalState} (h : ClosedFrom s s' p) (hs : s.slots = s₀.slots)
    (hc : (s.upvals p).map UpVal.core = (s₀.upvals p).map UpVal.core) : ClosedFrom s₀ s' p := by
  obtain ⟨uv, l, hu, hv, hu'⟩ := h
  obtain ⟨uv₀, hu₀, hcore⟩ := core_eq_some hc.symm hu
  obtain ⟨h1, h2, h3, h4⟩ := core_fields hcore
  refine ⟨uv₀, l, hu₀, h1.trans hv, ?_⟩
  rw [hu', hs]
  unfold UpVal.closed
  rw [h2, h3, h4]

/-! ### `luaF_close` -/

/-- The first upvalue of a list is closed. -/
theorem closehead_spec (h : UpvalsOk s ring lists) (hth : s.threads L = some th)
    (hl : lists L = p :: xs) {i : ℕ} (hat : OpenAt s p ⟨th.stack, i⟩) :
    ∃ s', luaF_closeupval p false (s.setThread L { th with openupval := s.threadnext p })
        = .ok ⟨⟩ s' ∧
      UpvalsOk s' (ring.erase p) (update lists L xs) ∧
      s'.threads = update s.threads L (some { th with openupval := s.threadnext p }) ∧
      s'.slots = s.slots ∧ s'.objects = s.objects ∧ ClosedFrom s s' p ∧
      (∀ q, q ≠ p → (s'.upvals q).map UpVal.core = (s.upvals q).map UpVal.core) := by
  have hpl : p ∈ lists L := hl ▸ List.mem_cons_self
  have hpring : p ∈ ring := (h.mem p).mpr ⟨L, th, hth, hpl⟩
  have hlist := h.list L th hth
  obtain ⟨uv, o, hu, hv, huo, hdead⟩ := hat
  set s₁ := s.setThread L { th with openupval := s.threadnext p } with hs₁
  have hring₁ : RingOk s₁ ring := h.ringok.relist rfl rfl rfl (fun _ => rfl)
  obtain ⟨s', hrun, hring, hthreads, hslots, hobj, hstrip, hclosed⟩ :=
    closeupval_spec (p := p) hring₁ hpring hu hv
  have hstrip' : ∀ q, q ≠ p → (s'.upvals q).map UpVal.strip = (s.upvals q).map UpVal.strip := hstrip
  have hself : s'.threads L = some { th with openupval := s.threadnext p } := by
    rw [hthreads]
    exact update_self _ _ _
  have hother : ∀ L', L' ≠ L → s'.threads L' = s.threads L' := fun L' he => by
    rw [hthreads]
    exact update_of_ne he _ _
  have hnd := hlist.nodup
  rw [hl] at hnd
  have hpxs := (List.nodup_cons.mp hnd).1
  refine ⟨s', hrun, ⟨hring, ?_, ?_, ?_, ?_, ?_⟩, hthreads, hslots, hobj, ⟨uv, _, hu, hv, hclosed⟩,
    fun q hq => core_of_strip (hstrip' q hq)⟩
  · intro L' th' hth'
    by_cases he : L' = L
    · subst he
      obtain rfl := Option.some.inj (hself.symm.trans hth')
      rw [update_self]
      -- the rest of the list, entered from the link of its first upvalue
      have hrest : ListOk s { th with openupval := s.threadnext p } xs := by
        have hchain := hlist.chain
        have hsorted := hlist.sorted
        rw [hl] at hchain hsorted
        exact ⟨hchain.2, fun q hq => hlist.opened q (hl ▸ List.mem_cons_of_mem p hq),
          (List.pairwise_cons.mp hsorted).2⟩
      exact hrest.congr rfl rfl (fun q hq => hstrip' q (fun he => hpxs (he ▸ hq)))
    · rw [hother L' he] at hth'
      rw [update_of_ne he]
      refine (h.list L' th' hth').congr rfl rfl (fun q hq => hstrip' q (fun hqp => ?_))
      exact he (h.thread_unique hth' hth (hqp ▸ hq) hpl)
  · intro q
    rw [List.Nodup.mem_erase_iff h.ringok.nodup, h.mem]
    constructor
    · rintro ⟨hqp, L', t, ht, hq⟩
      by_cases he : L' = L
      · subst he
        refine ⟨L', _, hself, ?_⟩
        rw [update_self]
        rw [hl] at hq
        exact (List.mem_cons.mp hq).resolve_left hqp
      · refine ⟨L', t, (hother L' he).trans ht, ?_⟩
        rwa [update_of_ne he]
    · rintro ⟨L', t, ht, hq⟩
      by_cases he : L' = L
      · subst he
        rw [update_self] at hq
        exact ⟨fun he => hpxs (he ▸ hq), L', th, hth, hl ▸ List.mem_cons_of_mem p hq⟩
      · rw [update_of_ne he] at hq
        rw [hother L' he] at ht
        exact ⟨fun hqp => he (h.thread_unique ht hth (hqp ▸ hq) hpl), L', t, ht, hq⟩
  · have hback : ∀ {L' : ℕ} {t : Thread}, s'.threads L' = some t →
        ∃ t', s.threads L' = some t' ∧ t'.stack = t.stack := by
      intro L' t ht
      by_cases he : L' = L
      · subst he
        obtain rfl := Option.some.inj (hself.symm.trans ht)
        exact ⟨th, hth, rfl⟩
      · exact ⟨t, (hother L' he).symm.trans ht, rfl⟩
    intro L₁ L₂ t₁ t₂ h₁ h₂ hb
    obtain ⟨t₁', h₁', hb₁⟩ := hback h₁
    obtain ⟨t₂', h₂', hb₂⟩ := hback h₂
    exact h.distinct L₁ L₂ t₁' t₂' h₁' h₂' (hb₁.trans (hb.trans hb₂.symm))
  · intro q uvq hq hd hqr
    by_cases hqp : q = p
    · subst hqp
      obtain rfl := Option.some.inj (hclosed.symm.trans hq)
      exact ⟨_, rfl, rfl⟩
    · obtain ⟨uv', hu', hc⟩ := core_eq_some (core_of_strip (hstrip' q hqp)).symm hq
      obtain ⟨hv', _, _, hd'⟩ := core_fields hc
      have hqr' : q ∉ ring := fun hm => hqr ((List.mem_erase_of_ne hqp).mpr hm)
      obtain ⟨v, hv₁, hv₂⟩ := h.closed q uv' hu' (hd'.trans hd) hqr'
      exact ⟨v, hv'.symm.trans hv₁, core_value hc.symm hv₂⟩
  · intro L' th' q uvq hth' hm hq huq
    have hback : ∃ t, s.threads L' = some t ∧ t.marked = false ∧ q ∈ lists L' ∧ q ≠ p := by
      by_cases he : L' = L
      · subst he
        obtain rfl := Option.some.inj (hself.symm.trans hth')
        rw [update_self] at hq
        exact ⟨th, hth, hm, hl ▸ List.mem_cons_of_mem p hq, fun he => hpxs (he ▸ hq)⟩
      · rw [update_of_ne he] at hq
        rw [hother L' he] at hth'
        exact ⟨th', hth', hm, hq, fun hqp => he (h.thread_unique hth' hth (hqp ▸ hq) hpl)⟩
    obtain ⟨t, ht, hm', hq', hqp⟩ := hback
    obtain ⟨uv', hu', hc⟩ := core_eq_some (core_of_strip (hstrip' q hqp)).symm huq
    rw [← (core_fields hc).2.1]
    exact h.unmarked L' t q uv' ht hm' hq' hu'

/-- What `luaF_close` does: it closes the upvalues at or above the level, and keeps those below. -/
structure Closed (s s' : UpvalState) (xs above below : List ℕ) (level : StkId) : Prop where
  split : xs = above ++ below
  high : ∀ p ∈ above, ∃ i, OpenAt s p ⟨level.block, i⟩ ∧ level.index ≤ i
  low : ∀ p ∈ below, ∃ i, OpenAt s p ⟨level.block, i⟩ ∧ i < level.index
  slots : s'.slots = s.slots
  objects : s'.objects = s.objects
  closed : ∀ p ∈ above, ClosedFrom s s' p
  core : ∀ q, q ∉ above → (s'.upvals q).map UpVal.core = (s.upvals q).map UpVal.core
  threads : ∀ L t, s.threads L = some t → ∃ t', s'.threads L = some t' ∧ t'.stack = t.stack

theorem closeloop_spec (hlen : (lists L).length < fuel) (h : UpvalsOk s ring lists)
    (hth : s.threads L = some th) (i : ℕ) :
    ∃ s' ring' above below, closeloop L ⟨th.stack, i⟩ fuel s = .ok ⟨⟩ s' ∧
      UpvalsOk s' ring' (update lists L below) ∧
      Closed s s' (lists L) above below ⟨th.stack, i⟩ := by
  obtain ⟨fuel, rfl⟩ : ∃ n, fuel = n + 1 := ⟨fuel - 1, by omega⟩
  generalize hxs : lists L = xs at hlen
  induction xs generalizing s ring lists th fuel with
  | nil =>
    have hnone : th.openupval = none := by
      have hchain := (h.list L th hth).chain
      rw [hxs] at hchain
      exact hchain
    refine ⟨s, ring, [], [], ?_, ?_, rfl, fun p hp => (by cases hp), fun p hp => (by cases hp), rfl,
      rfl, fun p hp => (by cases hp), fun _ _ => rfl, fun _ t ht => ⟨t, ht, rfl⟩⟩
    · unfold closeloop
      simp only [run_bind, getthread_run hth, hnone, run_pure]
    · rw [← hxs, update_eq_self]
      exact h
  | cons p xs ih =>
    have hlist := h.list L th hth
    have hchain := hlist.chain
    rw [hxs] at hchain
    obtain ⟨hhead, _⟩ := hchain
    obtain ⟨j, hj⟩ := hlist.opened p (by rw [hxs]; exact List.mem_cons_self)
    have hj' := hj
    obtain ⟨uv, o, hu, hv, huo, hdead⟩ := hj'
    by_cases hge : i ≤ j
    · have hpge : StkId.ge ⟨th.stack, j⟩ ⟨th.stack, i⟩ := ⟨rfl, hge⟩
      obtain ⟨s₁, hrun, hok₁, hth₁, hslots, hobj, hclosed, hcore⟩ := closehead_spec h hth hxs hj
      obtain ⟨fuel, rfl⟩ : ∃ n, fuel = n + 1 := ⟨fuel - 1, by simp at hlen; omega⟩
      have hself : update lists L xs L = xs := update_self _ _ _
      have hL₁ : s₁.threads L = some { th with openupval := s.threadnext p } := by
        rw [hth₁]
        exact update_self _ _ _
      obtain ⟨s', ring', above, below, hrun', hok', hc⟩ :=
        ih hok₁ hL₁ fuel hself (by simpa using hlen)
      have hstep : closeloop L ⟨th.stack, i⟩ (fuel + 1 + 1) s
          = closeloop L ⟨th.stack, i⟩ (fuel + 1) s₁ := by
        rw [closeloop]
        rw [threadnext_of_links hu huo] at hrun
        simp only [run_bind, getthread_run hth, hhead, getupval_run hu, stacklevel_run hv, if_pos hpge,
          openlinks_run huo, setthread_run, hrun]
      have hxnd := hlist.nodup
      rw [hxs] at hxnd
      obtain ⟨hpxs, _⟩ := List.nodup_cons.mp hxnd
      have hsplit : xs = above ++ below := hc.split
      have hne : ∀ {q : ℕ}, q ∈ xs → q ≠ p := fun hq he => hpxs (he ▸ hq)
      have hback : ∀ {q : ℕ} {k : ℕ}, q ∈ xs → OpenAt s₁ q ⟨th.stack, k⟩ → OpenAt s q ⟨th.stack, k⟩ :=
        fun hq hk => hk.congr (hcore _ (hne hq)).symm
      refine ⟨s', ring', p :: above, below, hstep.trans hrun', ?_, ?_, ?_, ?_, hc.slots.trans hslots,
        hc.objects.trans hobj, ?_, ?_, ?_⟩
      · rw [update_idem] at hok'
        exact hok'
      · rw [hsplit]
        rfl
      · intro q hq
        rcases List.mem_cons.mp hq with rfl | hq
        · exact ⟨j, hj, hge⟩
        · obtain ⟨k, hk, hle⟩ := hc.high q hq
          exact ⟨k, hback (hsplit ▸ List.mem_append_left _ hq) hk, hle⟩
      · intro q hq
        obtain ⟨k, hk, hlt⟩ := hc.low q hq
        exact ⟨k, hback (hsplit ▸ List.mem_append_right _ hq) hk, hlt⟩
      · intro q hq
        rcases List.mem_cons.mp hq with rfl | hq
        · exact hclosed.keep (hc.core q (fun hm => hpxs (hsplit ▸ List.mem_append_left _ hm)))
        · exact (hc.closed q hq).since hslots (hcore q (hne (hsplit ▸ List.mem_append_left below hq)))
      · intro q hq
        rw [List.mem_cons, not_or] at hq
        exact (hc.core q hq.2).trans (hcore q hq.1)
      · intro L' t ht
        by_cases he : L' = L
        · subst he
          obtain rfl := Option.some.inj (hth.symm.trans ht)
          obtain ⟨t', ht', hb⟩ := hc.threads L' _ hL₁
          exact ⟨t', ht', hb⟩
        · apply hc.threads L' t
          rw [hth₁, update_of_ne he]
          exact ht
    · have hpge : ¬StkId.ge ⟨th.stack, j⟩ ⟨th.stack, i⟩ := fun he => hge he.2
      refine ⟨s, ring, [], p :: xs, ?_, ?_, rfl, fun q hq => (by cases hq), ?_, rfl, rfl,
        fun p hp => (by cases hp), fun _ _ => rfl, fun _ t ht => ⟨t, ht, rfl⟩⟩
      · unfold closeloop
        simp only [run_bind, getthread_run hth, hhead, getupval_run hu, stacklevel_run hv, if_neg hpge,
          run_pure]
      · rw [← hxs, update_eq_self]
        exact h
      · intro q hq
        rcases List.mem_cons.mp hq with rfl | hq
        · exact ⟨j, hj, by show j < i; omega⟩
        · obtain ⟨k, hk⟩ := hlist.opened q (hxs ▸ List.mem_cons_of_mem p hq)
          have hsorted := hlist.sorted
          rw [hxs] at hsorted
          have hlt := (List.pairwise_cons.mp hsorted).1 q hq j k hj hk
          exact ⟨k, hk, by show k < i; omega⟩

/-- **`luaF_close`** closes what is at or above the level, with the values of the slots, and nothing
else. -/
theorem close_spec (h : UpvalsOk s ring lists) (hth : s.threads L = some th) (i : ℕ) :
    ∃ s' ring' above below, luaF_close L ⟨th.stack, i⟩ s = .ok ⟨⟩ s' ∧
      UpvalsOk s' ring' (update lists L below) ∧
      Closed s s' (lists L) above below ⟨th.stack, i⟩ := by
  have hlist := h.list L th hth
  have hlen : (lists L).length < s.objects.length + 1 := by
    have := length_le_objects h.ringok hlist.nodup (fun p hp => by
      obtain ⟨i, hi⟩ := hlist.opened p hp
      exact ⟨_, hi⟩)
    omega
  obtain ⟨s', ring', above, below, hrun, hok, hc⟩ := closeloop_spec hlen h hth i
  refine ⟨s', ring', above, below, ?_, hok, hc⟩
  unfold luaF_close
  simp only [run_bind, walkfuel_run, hrun]

end Close

end Luwu
