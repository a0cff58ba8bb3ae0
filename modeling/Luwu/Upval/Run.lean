import Luwu.Upval.Collect

/-!
# Runs of upvalue operations

The operations of a run are the calls of `lfunc.cpp`, writes to stack slots and through upvalues, threads
that are made and stacks that move, and the steps of the collector.  In every state of a run the lists
of the threads and the ring are consistent (`UpvalsOk`).  An upvalue of a slot stays the upvalue of the
slot until its level is closed or its thread dies (`captures_run`), so two closures that capture a slot in
between share it.
-/

namespace Luwu

open Function Luwu.Run Luwu.Rings Luwu.Chains

/-- A pointer argument (`fresh`, `block`) is what the allocator answers. -/
inductive UpvalOp where
  | findupval (fresh : Option ℕ) (L i : ℕ)
  | close (L i : ℕ)
  | setslot (L i : ℕ) (v : TValue)
  | setupval (p : ℕ) (v : TValue)
  | newthread (L : ℕ) (block : Option ℕ) (size : ℕ)
  | reallocstack (L : ℕ) (block : Option ℕ) (size : ℕ)
  | traversestack (L : ℕ)
  | markupval (p : ℕ)
  | atomic (live : List ℕ)
  | abandoncycle
  | sweep (p : ℕ)

namespace UpvalOp

def exec : UpvalOp → UpvalM Unit
  | findupval fresh L i => do
    let th ← getthread L
    let _ ← luaF_findupval fresh L ⟨th.stack, i⟩
    return
  | close L i => do
    let th ← getthread L
    luaF_close L ⟨th.stack, i⟩
  | setslot L i v => do
    let th ← getthread L
    modify (·.setSlot ⟨th.stack, i⟩ v)
  | setupval p v => storevalue p v
  | newthread L block size => luaE_newthread L block size
  | reallocstack L block size => luaD_reallocstack L block size
  | traversestack L => Luwu.traversestack L
  | markupval p => Luwu.markupval p
  | atomic live => Luwu.atomic live
  | abandoncycle => Luwu.abandoncycle
  | sweep p => luaF_freeupval p

/-- What the callers see to: they use threads and upvalues that are alive, the allocator answers what is
not in use, the collector reaches what it has marked and frees what is dead. -/
def Allowed (s : UpvalState) : UpvalOp → Prop
  | findupval fresh L _ => s.threads L ≠ none ∧ ∀ p, fresh = some p → p ∉ s.objects
  | close L _ => s.threads L ≠ none
  | setslot L _ _ => s.threads L ≠ none
  | setupval p _ => ∃ uv, s.upvals p = some uv ∧ uv.isdead = false
  | newthread L block _ => s.threads L = none ∧ ∀ b, block = some b → ∀ L' t, s.threads L' = some t → t.stack ≠ b
  | reallocstack L block _ =>
    s.threads L ≠ none ∧ ∀ b, block = some b → ∀ L' t, s.threads L' = some t → t.stack ≠ b
  | traversestack L => s.threads L ≠ none
  | markupval p => ∃ uv, s.upvals p = some uv ∧ uv.isdead = false
  | atomic live =>
    (∀ L ∈ live, s.threads L ≠ none) ∧ ∀ L th, s.threads L = some th → th.marked = true → L ∈ live
  | abandoncycle => True
  | sweep p => ∃ uv, s.upvals p = some uv ∧ uv.isdead = true

/-- An operation of a run; none when it faults. -/
def step (op : UpvalOp) (s : UpvalState) : Option UpvalState :=
  match op.exec s with
  | .ok _ s' => some s'
  | .error .errmem s' => some s'
  | .error .fault _ => none

def run : List UpvalOp → UpvalState → Option UpvalState
  | [], s => some s
  | op :: ops, s => (op.step s).bind (run ops)

def Permitted : List UpvalOp → UpvalState → Prop
  | [], _ => True
  | op :: ops, s => op.Allowed s ∧ ∀ s', op.step s = some s' → Permitted ops s'

/-- The operation ends the time in which a slot has the upvalue it has. -/
def Ends (L i : ℕ) : UpvalOp → Prop
  | close L' j => L' = L ∧ j ≤ i
  | atomic live => L ∉ live
  | _ => False

end UpvalOp

/-- `BASIC_STACK_SIZE + EXTRA_STACK` -/
def basicStack : ℕ := 40 + 5

/-- The upvalues after `lua_newstate`: the main thread, and the ring with nothing in it. -/
def openstate : UpvalState where
  threads := fun L => if L = 0 then some ⟨0, basicStack, none, false⟩ else none
  slots := fun _ _ => .nil
  upvals := fun _ => none
  objects := []
  uvheadprev := none
  uvheadnext := none

/-- A slot of a thread has an upvalue. -/
def Captures (s : UpvalState) (L i p : ℕ) : Prop :=
  ∃ th, s.threads L = some th ∧ OpenAt s p ⟨th.stack, i⟩

section Run

variable {s s' : UpvalState} {p q L i : ℕ} {uv uv' : UpVal} {o : OpenLinks} {l : StkId}
  {ring xs live : List ℕ} {lists : ℕ → List ℕ} {th th' : Thread} {v : TValue} {op : UpvalOp}

theorem openstate_ok : UpvalsOk openstate [] (fun _ => []) where
  ringok := ⟨⟨rfl, rfl⟩, List.nodup_nil, fun p hp => (by cases hp), fun p uv hu => (by cases hu)⟩
  list := by
    intro L th hth
    have hth' : (if L = 0 then some (⟨0, basicStack, none, false⟩ : Thread) else none) = some th := hth
    split at hth'
    · obtain rfl := Option.some.inj hth'
      exact ⟨rfl, fun p hp => (by cases hp), List.Pairwise.nil⟩
    · cases hth'
  mem := fun p => iff_of_false List.not_mem_nil (fun ⟨_, _, _, hp⟩ => List.not_mem_nil hp)
  distinct := by
    have hzero : ∀ {L : ℕ} {t : Thread}, openstate.threads L = some t → L = 0 := by
      intro L t ht
      by_contra hne
      have hth : (if L = 0 then some (⟨0, basicStack, none, false⟩ : Thread) else none) = some t := ht
      rw [if_neg hne] at hth
      cases hth
    intro L L' t t' ht ht' _
    rw [hzero ht, hzero ht']
  closed := fun p uv hu => by cases hu
  unmarked := fun L th p uv _ _ hp => by cases hp

/-! ### Lists and slots -/

/-- The upvalue of a slot is on the list of its thread. -/
theorem Captures.mem (h : UpvalsOk s ring lists) (hth : s.threads L = some th)
    (hat : OpenAt s p ⟨th.stack, i⟩) : p ∈ lists L := by
  have hat' := hat
  obtain ⟨uv, o, hu, hv, ho, hd⟩ := hat'
  have hp : p ∈ ring := by
    by_contra hp
    obtain ⟨v, hv', _⟩ := h.closed p uv hu hd hp
    rw [hv] at hv'
    cases hv'
  obtain ⟨L', th', hth', hpL⟩ := (h.mem p).mp hp
  obtain ⟨j, hj⟩ := (h.list L' th' hth').opened p hpL
  have hb : th'.stack = th.stack := congrArg StkId.block (hj.unique hat)
  exact h.distinct L' L th' th hth' hth hb ▸ hpL

/-! ### Writes -/

/-- Slots may change: the lists are about where they are. -/
theorem UpvalsOk.setSlots (h : UpvalsOk s ring lists) (hth : s'.threads = s.threads)
    (hu : s'.upvals = s.upvals) (ho : s'.objects = s.objects) (hp : s'.uvheadprev = s.uvheadprev)
    (hn : s'.uvheadnext = s.uvheadnext) : UpvalsOk s' ring lists := by
  obtain ⟨a, b, c, d, e, f⟩ := s
  obtain ⟨a', b', c', d', e', f'⟩ := s'
  obtain rfl : a' = a := hth
  obtain rfl : c' = c := hu
  obtain rfl : d' = d := ho
  obtain rfl : e' = e := hp
  obtain rfl : f' = f := hn
  exact ⟨⟨h.ringok.isring, h.ringok.nodup, h.ringok.links, h.ringok.alloc⟩,
    fun L th hth => ⟨(h.list L th hth).chain, (h.list L th hth).opened, (h.list L th hth).sorted⟩,
    h.mem, h.distinct, h.closed, h.unmarked⟩

/-- A write through an upvalue is what is read through it, and in its slot. -/
theorem storevalue_spec (h : UpvalsOk s ring lists) (hu : s.upvals p = some uv)
    (hd : uv.isdead = false) (v : TValue) :
    ∃ s', storevalue p v s = .ok ⟨⟩ s' ∧ UpvalsOk s' ring lists ∧ s'.threads = s.threads ∧
      s'.reads p = some v ∧ ∀ q l, OpenAt s q l → OpenAt s' q l := by
  by_cases hp : p ∈ ring
  · obtain ⟨l, hat⟩ := openAt_of_not_value h hp
    have hat' := hat
    obtain ⟨uv', o, hu', hv, ho, _⟩ := hat'
    obtain rfl := Option.some.inj (hu.symm.trans hu')
    refine ⟨s.setSlot l v, ?_, h.setSlots rfl rfl rfl rfl rfl, rfl, ?_, fun q l hq => hq⟩
    · unfold storevalue
      simp only [run_bind, getupval_run hu, hv, run_modify]
    · have hat₁ : OpenAt (s.setSlot l v) p l := hat
      rw [reads_open hat₁]
      show some (update s.slots l.block _ l.block l.index) = _
      rw [update_self, update_self]
  · obtain ⟨w, hv, hval⟩ := h.closed p uv hu hd hp
    set uv' : UpVal := { uv with u := .value v } with huv'
    have hpl : ∀ L th, s.threads L = some th → p ∉ lists L := fun L th hth hpL =>
      hp ((h.mem p).mpr ⟨L, th, hth, hpL⟩)
    have hself : (s.setUpval p uv').upvals p = some uv' := update_self _ _ _
    have hother : ∀ q, q ≠ p → (s.setUpval p uv').upvals q = s.upvals q := fun q hq =>
      update_of_ne hq _ _
    have hlinks : ∀ q, q ≠ p → (s.setUpval p uv').links q = s.links q := fun q hq => by
      rw [links_setUpval, if_neg hq]
    refine ⟨s.setUpval p uv', ?_, ⟨h.ringok.setUpval hp (h.ringok.alloc p uv hu), ?_, h.mem, h.distinct,
      ?_, ?_⟩, rfl, reads_closed hself hd hv rfl, fun q l hq => ?_⟩
    · unfold storevalue
      simp only [run_bind, getupval_run hu, hv, setupval_run]
      rw [huv', hv]
    · intro L th hth
      have hne : ∀ q ∈ lists L, q ≠ p := fun q hq he => hpl L th hth (he ▸ hq)
      refine (h.list L th hth).reshape rfl rfl (fun q hq l => ?_) (fun q hq => ?_)
      · unfold OpenAt
        rw [hother q (hne q hq)]
      · unfold UpvalState.threadnext
        rw [hlinks q (hne q hq)]
    · intro q uvq hq hdq hqr
      by_cases hqp : q = p
      · subst hqp
        obtain rfl := Option.some.inj (hself.symm.trans hq)
        exact ⟨v, hv, rfl⟩
      · rw [hother q hqp] at hq
        exact h.closed q uvq hq hdq hqr
    · intro L th q uvq hth hm hq huq
      have hqp : q ≠ p := fun he => hpl L th hth (he ▸ hq)
      rw [hother q hqp] at huq
      exact h.unmarked L th q uvq hth hm hq huq
    · have hqp : q ≠ p := by
        rintro rfl
        exact hq.not_closed hu hval
      obtain ⟨uvq, oq, hq⟩ := hq
      exact ⟨uvq, oq, by rw [hother q hqp]; exact hq⟩

/-! ### Threads -/

theorem newthread_spec (h : UpvalsOk s ring lists) (hL : s.threads L = none) {new : ℕ}
    (hnew : ∀ L' t, s.threads L' = some t → t.stack ≠ new) (size : ℕ) :
    ∃ s', luaE_newthread L (some new) size s = .ok ⟨⟩ s' ∧
      UpvalsOk s' ring (update lists L []) ∧
      s'.threads = update s.threads L (some ⟨new, size, none, false⟩) ∧ s'.upvals = s.upvals := by
  set s₁ : UpvalState := { s with slots := update s.slots new fun _ => .nil } with hs₁
  have hok₁ : UpvalsOk s₁ ring lists := h.setSlots rfl rfl rfl rfl rfl
  set s' := s₁.setThread L ⟨new, size, none, false⟩ with hs'
  have hself : s'.threads L = some ⟨new, size, none, false⟩ := update_self _ _ _
  have hother : ∀ L', L' ≠ L → s'.threads L' = s.threads L' := fun L' he => update_of_ne he _ _
  have hne : ∀ {L' : ℕ} {t : Thread}, s.threads L' = some t → L' ≠ L := by
    intro L' t ht he
    rw [he, hL] at ht
    cases ht
  refine ⟨s', rfl, ⟨hok₁.ringok.relist rfl rfl rfl (fun _ => rfl), ?_, ?_, ?_, hok₁.closed, ?_⟩, rfl,
    rfl⟩
  · intro L' t ht
    by_cases he : L' = L
    · subst he
      obtain rfl := Option.some.inj (hself.symm.trans ht)
      rw [update_self]
      exact ⟨rfl, fun p hp => (by cases hp), List.Pairwise.nil⟩
    · rw [hother L' he] at ht
      rw [update_of_ne he]
      exact (hok₁.list L' t ht).reshape rfl rfl (fun _ _ _ => Iff.rfl) (fun _ _ => rfl)
  · intro p
    rw [h.mem]
    constructor
    · rintro ⟨L', t, ht, hp⟩
      refine ⟨L', t, (hother L' (hne ht)).trans ht, ?_⟩
      rwa [update_of_ne (hne ht)]
    · rintro ⟨L', t, ht, hp⟩
      by_cases he : L' = L
      · subst he
        rw [update_self] at hp
        cases hp
      · rw [update_of_ne he] at hp
        exact ⟨L', t, (hother L' he).symm.trans ht, hp⟩
  · intro L₁ L₂ t₁ t₂ h₁ h₂ hb
    by_cases he₁ : L₁ = L <;> by_cases he₂ : L₂ = L
    · rw [he₁, he₂]
    · subst he₁
      obtain rfl := Option.some.inj (hself.symm.trans h₁)
      exact absurd hb.symm (hnew L₂ t₂ ((hother L₂ he₂).symm.trans h₂))
    · subst he₂
      obtain rfl := Option.some.inj (hself.symm.trans h₂)
      exact absurd hb (hnew L₁ t₁ ((hother L₁ he₁).symm.trans h₁))
    · exact h.distinct L₁ L₂ t₁ t₂ ((hother L₁ he₁).symm.trans h₁) ((hother L₂ he₂).symm.trans h₂) hb
  · intro L' t p uv ht hm hp hu
    by_cases he : L' = L
    · subst he
      rw [update_self] at hp
      cases hp
    · rw [update_of_ne he] at hp
      rw [hother L' he] at ht
      exact h.unmarked L' t p uv ht hm hp hu

/-! ### One operation -/

/-- What an operation does: it answers or runs out of memory, keeps the lists, and keeps the upvalue of
every slot whose time it does not end. -/
structure Keeps (op : UpvalOp) (s s' : UpvalState) : Prop where
  ok : ∃ ring lists, UpvalsOk s' ring lists
  captures : ∀ L i p, Captures s L i p → ¬op.Ends L i → Captures s' L i p

theorem Keeps.refl {op : UpvalOp} (h : UpvalsOk s ring lists) : Keeps op s s :=
  ⟨⟨ring, lists, h⟩, fun _ _ _ hc _ => hc⟩

/-- The threads and what is open stay. -/
theorem Keeps.of_open {op : UpvalOp} (h : UpvalsOk s' ring lists)
    (hth : ∀ L t, s.threads L = some t → ∃ t', s'.threads L = some t' ∧ t'.stack = t.stack)
    (hat : ∀ p l, OpenAt s p l → OpenAt s' p l) : Keeps op s s' := by
  refine ⟨⟨ring, lists, h⟩, fun L i p hc _ => ?_⟩
  obtain ⟨th, hL, hp⟩ := hc
  obtain ⟨th', hL', hb⟩ := hth L th hL
  exact ⟨th', hL', by rw [hb]; exact hat p _ hp⟩

theorem keeps_findupval (h : UpvalsOk s ring lists) {fresh : Option ℕ}
    (hall : (UpvalOp.findupval fresh L i).Allowed s) :
    ∃ s', ((UpvalOp.findupval fresh L i).exec s = .ok ⟨⟩ s' ∨
      (UpvalOp.findupval fresh L i).exec s = .error .errmem s') ∧
      Keeps (.findupval fresh L i) s s' := by
  obtain ⟨hL, hfresh⟩ := hall
  obtain ⟨th, hth⟩ := Option.ne_none_iff_exists'.mp hL
  unfold UpvalOp.exec
  simp only [run_bind, getthread_run hth]
  rcases findupval_spec h hth i fresh hfresh with
    ⟨p, hp, hrun, hat⟩ | ⟨_, ⟨_, hrun⟩ | ⟨p, s', _, hf, hrun, hok, _, _, _, hcore, hkeep⟩⟩
  · rw [hrun]
    exact ⟨s, Or.inl rfl, Keeps.refl h⟩
  · rw [hrun]
    exact ⟨s, Or.inr rfl, Keeps.refl h⟩
  · rw [hrun]
    refine ⟨s', Or.inl rfl, ⟨⟨_, _, hok⟩, fun L' j q hc _ => ?_⟩⟩
    obtain ⟨t, ht, hq⟩ := hc
    have hqp : q ≠ p := fun he => hfresh p hf (he ▸ hq.alloc h.ringok)
    obtain ⟨t', ht', hb⟩ := hkeep L' t ht
    exact ⟨t', ht', by rw [hb]; exact hq.congr (hcore q hqp)⟩

/-- Closing keeps what is open below the level, and in other threads. -/
theorem close_keeps {above below : List ℕ}
    (hc : Closed s s' (lists L) above below ⟨th.stack, i⟩) (hat : OpenAt s p l)
    (hl : ¬(l.block = th.stack ∧ i ≤ l.index)) : OpenAt s' p l := by
  refine hat.congr (hc.core p (fun hp => hl ?_))
  obtain ⟨j, hj, hle⟩ := hc.high p hp
  rw [hat.unique hj]
  exact ⟨rfl, hle⟩

theorem keeps_close (h : UpvalsOk s ring lists) (hL : s.threads L ≠ none) :
    ∃ s', (UpvalOp.close L i).exec s = .ok ⟨⟩ s' ∧ Keeps (.close L i) s s' := by
  obtain ⟨th, hth⟩ := Option.ne_none_iff_exists'.mp hL
  obtain ⟨s', ring', above, below, hrun, hok, hc⟩ := close_spec h hth i
  refine ⟨s', ?_, ⟨⟨_, _, hok⟩, fun L' j p hcap hne => ?_⟩⟩
  · unfold UpvalOp.exec
    simp only [run_bind, getthread_run hth, hrun]
  · obtain ⟨t, ht, hp⟩ := hcap
    obtain ⟨t', ht', hb⟩ := hc.threads L' t ht
    refine ⟨t', ht', ?_⟩
    rw [hb]
    refine close_keeps hc hp (fun ⟨hblock, hle⟩ => hne ?_)
    exact ⟨h.distinct L L' th t hth ht hblock.symm, hle⟩

theorem keeps_reallocstack (h : UpvalsOk s ring lists) {block : Option ℕ} {size : ℕ}
    (hall : (UpvalOp.reallocstack L block size).Allowed s) :
    ∃ s', ((UpvalOp.reallocstack L block size).exec s = .ok ⟨⟩ s' ∨
      (UpvalOp.reallocstack L block size).exec s = .error .errmem s') ∧
      Keeps (.reallocstack L block size) s s' := by
  obtain ⟨hL, hnew⟩ := hall
  obtain ⟨th, hth⟩ := Option.ne_none_iff_exists'.mp hL
  cases block with
  | none => exact ⟨s, Or.inr rfl, Keeps.refl h⟩
  | some new =>
    obtain ⟨s', hrun, hok, hthreads, _, _, hupvals⟩ := reallocstack_spec h hth (hnew new rfl) size
    refine ⟨s', Or.inl hrun, ⟨⟨_, _, hok⟩, fun L' j p hcap _ => ?_⟩⟩
    obtain ⟨t, ht, hp⟩ := hcap
    have hpL := Captures.mem h ht hp
    by_cases he : L' = L
    · subst he
      obtain rfl := Option.some.inj (hth.symm.trans ht)
      refine ⟨{ th with stack := new, stacksize := size }, by rw [hthreads, update_self], ?_⟩
      obtain ⟨uv, o, hu, hv, ho, hd⟩ := hp
      obtain ⟨h1, h2, _⟩ := rebase_fields new uv
      refine ⟨uv.rebase new, o, ?_, rebase_stack new hv, h1.trans ho, h2.trans hd⟩
      rw [hupvals]
      dsimp only
      rw [if_pos hpL, hu, Option.map_some]
    · refine ⟨t, by rw [hthreads, update_of_ne he]; exact ht, ?_⟩
      have hpn : p ∉ lists L := fun hpn => he (h.thread_unique ht hth hpL hpn)
      obtain ⟨uv, o, hu, hrest⟩ := hp
      refine ⟨uv, o, ?_, hrest⟩
      rw [hupvals]
      dsimp only
      rw [if_neg hpn, hu]

theorem keeps_atomic (h : UpvalsOk s ring lists) (hall : (UpvalOp.atomic live).Allowed s) :
    ∃ s', (UpvalOp.atomic live).exec s = .ok ⟨⟩ s' ∧ Keeps (.atomic live) s s' := by
  obtain ⟨hlive, hmarked⟩ := hall
  have hlive' : ∀ L ∈ live, ∃ th, s.threads L = some th := fun L hL =>
    Option.ne_none_iff_exists'.mp (hlive L hL)
  obtain ⟨s', ring', hrun, hok, hthreads, _, _, hkept, _⟩ := atomic_spec h hlive' hmarked
  refine ⟨s', hrun, ⟨⟨_, _, hok⟩, fun L i p hcap hne => ?_⟩⟩
  obtain ⟨t, ht, hp⟩ := hcap
  have hL : L ∈ live := not_not.mp hne
  refine ⟨t.unmarked, ?_, hkept L hL p (Captures.mem h ht hp) _ hp⟩
  rw [hthreads, if_pos hL, ht]
  rfl

/-- **Every operation** that is allowed answers or runs out of memory, and keeps the lists. -/
theorem keeps_exec (h : UpvalsOk s ring lists) (hall : op.Allowed s) :
    ∃ s', (op.exec s = .ok ⟨⟩ s' ∨ op.exec s = .error .errmem s') ∧ Keeps op s s' := by
  have hsame : ∀ {s' : UpvalState}, SameShape s s' → ∀ L t, s.threads L = some t →
      ∃ t', s'.threads L = some t' ∧ t'.stack = t.stack := by
    intro s' hs L t ht
    obtain ⟨t', ht', hb, _⟩ := hs.symm.thread ht
    exact ⟨t', ht', hb.symm⟩
  cases op with
  | findupval fresh L i => exact keeps_findupval h hall
  | close L i =>
    obtain ⟨s', hrun, hk⟩ := keeps_close (i := i) h hall
    exact ⟨s', Or.inl hrun, hk⟩
  | setslot L i v =>
    obtain ⟨th, hth⟩ := Option.ne_none_iff_exists'.mp hall
    refine ⟨s.setSlot ⟨th.stack, i⟩ v, Or.inl ?_, Keeps.of_open (h.setSlots rfl rfl rfl rfl rfl)
      (fun _ t ht => ⟨t, ht, rfl⟩) (fun _ _ hp => hp)⟩
    unfold UpvalOp.exec
    simp only [run_bind, getthread_run hth, run_modify]
  | setupval p v =>
    obtain ⟨uv, hu, hd⟩ := hall
    obtain ⟨s', hrun, hok, hth, _, hat⟩ := storevalue_spec h hu hd v
    exact ⟨s', Or.inl hrun, Keeps.of_open hok (fun L t ht => ⟨t, by rw [hth]; exact ht, rfl⟩) hat⟩
  | newthread L block size =>
    obtain ⟨hL, hnew⟩ := hall
    cases block with
    | none => exact ⟨s, Or.inr rfl, Keeps.refl h⟩
    | some new =>
      obtain ⟨s', hrun, hok, hth, hupvals⟩ := newthread_spec h hL (hnew new rfl) size
      refine ⟨s', Or.inl hrun, Keeps.of_open hok (fun L' t ht => ⟨t, ?_, rfl⟩) (fun p l hp => ?_)⟩
      · have hne : L' ≠ L := fun he => by
          rw [he, hL] at ht
          cases ht
        rw [hth, update_of_ne hne]
        exact ht
      · unfold OpenAt
        rw [hupvals]
        exact hp
  | reallocstack L block size => exact keeps_reallocstack h hall
  | traversestack L =>
    obtain ⟨th, hth⟩ := Option.ne_none_iff_exists'.mp hall
    obtain ⟨s', hrun, hok, hs, _⟩ := traversestack_spec h hth
    exact ⟨s', Or.inl hrun, Keeps.of_open hok (hsame hs) (fun _ _ hp => hs.openAt.mpr hp)⟩
  | markupval p =>
    obtain ⟨uv, hu, _⟩ := hall
    obtain ⟨s', hrun, hok, hs, _⟩ := markupval_spec h hu
    exact ⟨s', Or.inl hrun, Keeps.of_open hok (hsame hs) (fun _ _ hp => hs.openAt.mpr hp)⟩
  | atomic live =>
    obtain ⟨s', hrun, hk⟩ := keeps_atomic h hall
    exact ⟨s', Or.inl hrun, hk⟩
  | abandoncycle =>
    obtain ⟨s', hrun, hok, hs⟩ := abandoncycle_spec h
    exact ⟨s', Or.inl hrun, Keeps.of_open hok (hsame hs) (fun _ _ hp => hs.openAt.mpr hp)⟩
  | sweep p =>
    obtain ⟨uv, hu, hd⟩ := hall
    obtain ⟨s', hrun, hok, hth, _, hupvals⟩ := freeupval_spec h hu hd
    refine ⟨s', Or.inl hrun, Keeps.of_open hok (fun L t ht => ⟨t, by rw [hth]; exact ht, rfl⟩)
      (fun q l hq => ?_)⟩
    have hqp : q ≠ p := by
      rintro rfl
      obtain ⟨uv', _, hu', _, _, hd'⟩ := hq
      obtain rfl := Option.some.inj (hu.symm.trans hu')
      rw [hd] at hd'
      cases hd'
    unfold OpenAt
    rw [hupvals, update_of_ne hqp]
    exact hq

theorem step_keeps (h : UpvalsOk s ring lists) (hall : op.Allowed s) :
    ∃ s', op.step s = some s' ∧ Keeps op s s' := by
  obtain ⟨s', hrun, hk⟩ := keeps_exec h hall
  refine ⟨s', ?_, hk⟩
  unfold UpvalOp.step
  rcases hrun with hrun | hrun <;> rw [hrun]

/-! ### Runs -/

theorem upvalrun_ok {ops : List UpvalOp} (h : UpvalsOk s ring lists) (hperm : UpvalOp.Permitted ops s) :
    ∃ s' ring' lists', UpvalOp.run ops s = some s' ∧ UpvalsOk s' ring' lists' := by
  induction ops generalizing s ring lists with
  | nil => exact ⟨s, ring, lists, rfl, h⟩
  | cons op ops ih =>
    obtain ⟨s₁, hstep, ⟨ring₁, lists₁, hok₁⟩, _⟩ := step_keeps h hperm.1
    obtain ⟨s', ring', lists', hrun, hok⟩ := ih hok₁ (hperm.2 s₁ hstep)
    refine ⟨s', ring', lists', ?_, hok⟩
    unfold UpvalOp.run
    rw [hstep]
    exact hrun

/-- **Sharing**: a slot keeps its upvalue until its level is closed or its thread dies. -/
theorem captures_run {ops : List UpvalOp} (h : UpvalsOk s ring lists)
    (hperm : UpvalOp.Permitted ops s) (hrun : UpvalOp.run ops s = some s') (hc : Captures s L i p)
    (hne : ∀ op ∈ ops, ¬op.Ends L i) : Captures s' L i p := by
  induction ops generalizing s ring lists with
  | nil =>
    obtain rfl := Option.some.inj hrun
    exact hc
  | cons op ops ih =>
    obtain ⟨s₁, hstep, ⟨ring₁, lists₁, hok₁⟩, hcap⟩ := step_keeps h hperm.1
    unfold UpvalOp.run at hrun
    rw [hstep] at hrun
    exact ih hok₁ (hperm.2 s₁ hstep) hrun (hcap L i p hc (hne op List.mem_cons_self))
      (fun op' hop => hne op' (List.mem_cons_of_mem op hop))

/-- The upvalue that a slot has is the one that is found. -/
theorem findupval_captured (h : UpvalsOk s ring lists) (hth : s.threads L = some th)
    (hat : OpenAt s p ⟨th.stack, i⟩) (fresh : Option ℕ) (hfresh : ∀ p, fresh = some p → p ∉ s.objects) :
    luaF_findupval fresh L ⟨th.stack, i⟩ s = .ok p s := by
  have hp := Captures.mem h hth hat
  rcases findupval_spec h hth i fresh hfresh with ⟨q, hq, hrun, hatq⟩ | ⟨hnone, _⟩
  · rw [hrun, (h.list L th hth).slot_unique hq hp hatq hat]
  · exact absurd hat (hnone p hp)

theorem reads_congr (hs : s'.slots = s.slots)
    (hc : (s'.upvals p).map UpVal.core = (s.upvals p).map UpVal.core) : s'.reads p = s.reads p := by
  cases hu : s.upvals p with
  | none =>
    rw [hu, Option.map_none] at hc
    simp only [UpvalState.reads, hu, Option.map_eq_none_iff.mp hc]
  | some uv =>
    obtain ⟨uv', hu', hcore⟩ := core_eq_some hc hu
    obtain ⟨h1, _, _, h4⟩ := core_fields hcore
    simp only [UpvalState.reads, hu, hu', h1, h4, hs]
    cases ho : uv.u with
    | value v => rw [core_value hcore ho]
    | links o =>
      obtain ⟨o', ho'⟩ := core_links hcore ho
      rw [ho']
      cases uv.v <;> rfl

/-- What the claims about closing come to: what is at or above the level holds the value of its slot, the
rest stays open, and nothing reads differently. -/
structure ClosesLevel (s s' : UpvalState) (level : StkId) : Prop where
  closed : ∀ p j, OpenAt s p ⟨level.block, j⟩ → level.index ≤ j → ClosedFrom s s' p
  kept : ∀ p l, OpenAt s p l → ¬(l.block = level.block ∧ level.index ≤ l.index) → OpenAt s' p l
  reads : ∀ p, s'.reads p = s.reads p

theorem closesLevel (h : UpvalsOk s ring lists) (hth : s.threads L = some th) {above below : List ℕ}
    (hc : Closed s s' (lists L) above below ⟨th.stack, i⟩) : ClosesLevel s s' ⟨th.stack, i⟩ where
  closed := by
    intro p j hat hle
    have hp : p ∈ lists L := Captures.mem h hth hat
    rw [hc.split] at hp
    rcases List.mem_append.mp hp with hm | hm
    · exact hc.closed p hm
    · obtain ⟨k, hk, hlt⟩ := hc.low p hm
      have hjk : j = k := congrArg StkId.index (hat.unique hk)
      exact absurd hlt (not_lt.mpr (hjk ▸ hle))
  kept := fun p l hat hl => close_keeps hc hat hl
  reads := by
    intro p
    by_cases hp : p ∈ above
    · obtain ⟨j, hat, _⟩ := hc.high p hp
      obtain ⟨uv, l, hu, hv, hu'⟩ := hc.closed p hp
      have hat' := hat
      obtain ⟨uv', _, huo, hvo, _, hd⟩ := hat'
      obtain rfl := Option.some.inj (hu.symm.trans huo)
      obtain rfl := UpvalPtr.stack.inj (hv.symm.trans hvo)
      rw [reads_open hat, reads_closed hu' hd rfl rfl]
    · exact reads_congr hc.slots (hc.core p hp)

end Run

end Luwu
