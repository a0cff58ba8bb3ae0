import Mathlib.Data.List.Pairwise
import Mathlib.Data.List.Sublists
import Luwu.Lib.Chain
import Luwu.Upval.Links

/-!
# The open upvalues of a thread

`ListOk` is what the list of a thread has to be: open upvalues of slots of its stack, sorted by strictly
decreasing level.  `UpvalsOk` puts the lists of all threads and the ring together: the ring holds exactly
what the lists hold, and an upvalue that is on no list is closed or dead.
-/

namespace Luwu

open Function Luwu.Run Luwu.Rings Luwu.Chains

/-- An upvalue without its links. -/
def UpVal.core (uv : UpVal) : UpVal :=
  match uv.u with
  | .links _ => { uv with u := .links ⟨none, none, none⟩ }
  | .value _ => uv

/-- The upvalue `p` stands for a slot of a stack. -/
def OpenAt (s : UpvalState) (p : ℕ) (l : StkId) : Prop :=
  ∃ uv o, s.upvals p = some uv ∧ uv.v = .stack l ∧ uv.u = .links o ∧ uv.isdead = false

/-- The list of a thread. -/
structure ListOk (s : UpvalState) (th : Thread) (xs : List ℕ) : Prop where
  chain : Chain s.threadnext th.openupval xs
  opened : ∀ p ∈ xs, ∃ i, OpenAt s p ⟨th.stack, i⟩
  sorted : xs.Pairwise fun p q => ∀ i j, OpenAt s p ⟨th.stack, i⟩ → OpenAt s q ⟨th.stack, j⟩ → j < i

/-- All threads and the ring. -/
structure UpvalsOk (s : UpvalState) (ring : List ℕ) (lists : ℕ → List ℕ) : Prop where
  ringok : RingOk s ring
  list : ∀ L th, s.threads L = some th → ListOk s th (lists L)
  mem : ∀ p, p ∈ ring ↔ ∃ L th, s.threads L = some th ∧ p ∈ lists L
  distinct : ∀ L L' th th', s.threads L = some th → s.threads L' = some th' →
    th.stack = th'.stack → L = L'
  closed : ∀ p uv, s.upvals p = some uv → uv.isdead = false → p ∉ ring →
    ∃ v, uv.v = .value ∧ uv.u = .value v
  unmarked : ∀ L th p uv, s.threads L = some th → th.marked = false → p ∈ lists L →
    s.upvals p = some uv → uv.markedopen = false

section Lists

variable {s s' : UpvalState} {p q L fuel : ℕ} {uv uv' : UpVal} {o : OpenLinks} {l level : StkId}
  {ring xs ys pre post : List ℕ} {lists : ℕ → List ℕ} {th th' : Thread} {pp : Place}

/-! ### What stays -/

theorem OpenAt.unique {l' : StkId} (h : OpenAt s p l) (h' : OpenAt s p l') : l = l' := by
  obtain ⟨uv, _, hu, hv, _⟩ := h
  obtain ⟨uv', _, hu', hv', _⟩ := h'
  obtain rfl := Option.some.inj (hu.symm.trans hu')
  exact UpvalPtr.stack.inj (hv.symm.trans hv')

theorem core_fields (h : uv'.core = uv.core) :
    uv'.v = uv.v ∧ uv'.markedopen = uv.markedopen ∧ uv'.marked = uv.marked ∧
      uv'.isdead = uv.isdead := by
  obtain ⟨v, u, a, b, c⟩ := uv
  obtain ⟨v', u', a', b', c'⟩ := uv'
  cases u <;> cases u' <;>
  · unfold UpVal.core at h
    obtain ⟨h1, _, h2, h3, h4⟩ := UpVal.mk.inj h
    exact ⟨h1, h2, h3, h4⟩

theorem core_links (h : uv'.core = uv.core) (ho : uv.u = .links o) : ∃ o', uv'.u = .links o' := by
  obtain ⟨v, u, a, b, c⟩ := uv
  obtain ⟨v', u', a', b', c'⟩ := uv'
  obtain rfl : u = .links o := ho
  unfold UpVal.core at h
  cases u' with
  | value w =>
    obtain ⟨_, hu, _⟩ := UpVal.mk.inj h
    cases hu
  | links o' => exact ⟨o', rfl⟩

theorem core_value {w : TValue} (h : uv'.core = uv.core) (ho : uv.u = .value w) :
    uv'.u = .value w := by
  obtain ⟨v, u, a, b, c⟩ := uv
  obtain ⟨v', u', a', b', c'⟩ := uv'
  obtain rfl : u = .value w := ho
  unfold UpVal.core at h
  cases u' with
  | value w' => exact (UpVal.mk.inj h).2.1
  | links o' =>
    obtain ⟨_, hu, _⟩ := UpVal.mk.inj h
    cases hu

theorem core_strip (uv : UpVal) : uv.strip.core = uv.core := by
  obtain ⟨v, u, a, b, c⟩ := uv
  cases u <;> rfl

theorem core_of_strip (hs : (s'.upvals p).map UpVal.strip = (s.upvals p).map UpVal.strip) :
    (s'.upvals p).map UpVal.core = (s.upvals p).map UpVal.core := by
  have h := congrArg (Option.map UpVal.core) hs
  rw [Option.map_map, Option.map_map] at h
  have hcore : UpVal.core ∘ UpVal.strip = UpVal.core := funext core_strip
  rwa [hcore] at h

theorem core_eq_some (hs : (s'.upvals p).map UpVal.core = (s.upvals p).map UpVal.core)
    (hu : s.upvals p = some uv) : ∃ uv', s'.upvals p = some uv' ∧ uv'.core = uv.core := by
  rw [hu, Option.map_some] at hs
  exact Option.map_eq_some_iff.mp hs

theorem OpenAt.congr (h : OpenAt s p l)
    (hs : (s'.upvals p).map UpVal.core = (s.upvals p).map UpVal.core) : OpenAt s' p l := by
  obtain ⟨uv, o, hu, hv, ho, hd⟩ := h
  obtain ⟨uv', hu', hst⟩ := core_eq_some hs hu
  obtain ⟨hv', _, _, hd'⟩ := core_fields hst
  obtain ⟨o', ho'⟩ := core_links hst ho
  exact ⟨uv', o', hu', hv'.trans hv, ho', hd'.trans hd⟩

theorem threadnext_of_links (hu : s.upvals p = some uv) (ho : uv.u = .links o) :
    s.threadnext p = o.threadnext := by
  unfold UpvalState.threadnext
  rw [links_eq_some_iff.mpr ⟨uv, hu, ho⟩]
  rfl

theorem OpenAt.threadnext_congr (h : OpenAt s p l)
    (hs : (s'.upvals p).map UpVal.strip = (s.upvals p).map UpVal.strip) :
    s'.threadnext p = s.threadnext p := by
  obtain ⟨uv, o, hu, hv, ho, hd⟩ := h
  rw [hu, Option.map_some] at hs
  obtain ⟨uv', hu', hst⟩ := Option.map_eq_some_iff.mp hs
  obtain ⟨o', ho', ht⟩ := strip_links hst ho
  rw [threadnext_of_links hu ho, threadnext_of_links hu' ho', ht]

/-- A list stays as long as its upvalues stand for the same slots and are linked the same. -/
theorem ListOk.reshape (h : ListOk s th xs) (ho : th'.openupval = th.openupval)
    (hb : th'.stack = th.stack) (hat : ∀ p ∈ xs, ∀ l, OpenAt s' p l ↔ OpenAt s p l)
    (hn : ∀ p ∈ xs, s'.threadnext p = s.threadnext p) : ListOk s' th' xs where
  chain := by
    rw [ho]
    exact Chain.congr h.chain hn
  opened := by
    intro p hp
    obtain ⟨i, hi⟩ := h.opened p hp
    rw [hb]
    exact ⟨i, (hat p hp _).mpr hi⟩
  sorted := by
    rw [hb]
    refine h.sorted.imp_of_mem (fun hp hq hlt i j hi hj => ?_)
    exact hlt i j ((hat _ hp _).mp hi) ((hat _ hq _).mp hj)

/-- A list stays as long as its upvalues do, up to the ring. -/
theorem ListOk.congr (h : ListOk s th xs) (ho : th'.openupval = th.openupval)
    (hb : th'.stack = th.stack)
    (hs : ∀ p ∈ xs, (s'.upvals p).map UpVal.strip = (s.upvals p).map UpVal.strip) :
    ListOk s' th' xs := by
  refine h.reshape ho hb (fun p hp l => ?_) (fun p hp => ?_)
  · have hcore := core_of_strip (hs p hp)
    exact ⟨fun h => h.congr hcore.symm, fun h => h.congr hcore⟩
  · obtain ⟨i, hi⟩ := h.opened p hp
    exact hi.threadnext_congr (hs p hp)

theorem ListOk.nodup (h : ListOk s th xs) : xs.Nodup := by
  refine h.sorted.imp_of_mem (fun hp _ hlt he => ?_)
  obtain ⟨i, hi⟩ := h.opened _ hp
  exact lt_irrefl i (hlt i i hi (he ▸ hi))

/-- A slot has one upvalue. -/
theorem ListOk.slot_unique {i : ℕ} (h : ListOk s th xs) (hp : p ∈ xs) (hq : q ∈ xs)
    (ho : OpenAt s p ⟨th.stack, i⟩) (ho' : OpenAt s q ⟨th.stack, i⟩) : p = q := by
  by_contra hne
  have hw : xs.Pairwise fun p q => ∀ i j, OpenAt s p ⟨th.stack, i⟩ → OpenAt s q ⟨th.stack, j⟩ → j ≠ i :=
    h.sorted.imp (fun hlt i j hi hj => (hlt i j hi hj).ne)
  have hsymm : Std.Symm fun p q => ∀ i j, OpenAt s p ⟨th.stack, i⟩ → OpenAt s q ⟨th.stack, j⟩ → j ≠ i :=
    ⟨fun _ _ h i j hi hj => (h j i hj hi).symm⟩
  exact hw.forall hp hq hne _ _ ho ho' rfl

theorem OpenAt.alloc (h : RingOk s ring) (ho : OpenAt s p l) : p ∈ s.objects := by
  obtain ⟨uv, _, hu, _⟩ := ho
  exact h.alloc p uv hu

theorem length_le_objects (h : RingOk s ring) (hnd : xs.Nodup) (hx : ∀ p ∈ xs, ∃ l, OpenAt s p l) :
    xs.length ≤ s.objects.length := by
  refine (hnd.subperm (fun p hp => ?_)).length_le
  obtain ⟨l, hl⟩ := hx p hp
  exact hl.alloc h

/-! ### The search -/

theorem stacklevel_open (h : OpenAt s p l) :
    ∃ uv, getupval p s = .ok uv s ∧ stacklevel uv s = .ok l s := by
  obtain ⟨uv, o, hu, hv, _⟩ := h
  exact ⟨uv, getupval_run hu, stacklevel_run hv⟩

theorem loadplace_open (h : OpenAt s p l) :
    loadplace (.threadnext p) s = .ok (s.threadnext p) s := by
  obtain ⟨uv, o, hu, hv, ho, _⟩ := h
  unfold loadplace
  simp only [run_bind, getupval_run hu, openlinks_run ho, run_pure, threadnext_of_links hu ho]

/-- Where the upvalue of a level belongs in a list: behind `pre`. -/
def placeAfter (pp : Place) (pre : List ℕ) : Place := (pre.getLast?.map Place.threadnext).getD pp

/-- **The loop of `luaF_findupval`** finds the upvalue of the level, or the place between those above and
those below. -/
theorem searchopen_spec (hload : ∃ r, loadplace pp s = .ok r s ∧ Chain s.threadnext r xs)
    (ho : ∀ p ∈ xs, ∃ i, OpenAt s p ⟨level.block, i⟩)
    (hs : xs.Pairwise fun p q =>
      ∀ i j, OpenAt s p ⟨level.block, i⟩ → OpenAt s q ⟨level.block, j⟩ → j < i)
    (hf : xs.length < fuel) :
    (∃ p ∈ xs, searchopen level fuel pp s = .ok (.inl p) s ∧ OpenAt s p level) ∨
    ∃ pre post, xs = pre ++ post ∧ searchopen level fuel pp s = .ok (.inr (placeAfter pp pre)) s ∧
      (∀ p ∈ pre, ∀ i, OpenAt s p ⟨level.block, i⟩ → level.index < i) ∧
      ∀ p ∈ post, ∀ i, OpenAt s p ⟨level.block, i⟩ → i < level.index := by
  induction xs generalizing pp fuel with
  | nil =>
    obtain ⟨fuel, rfl⟩ : ∃ n, fuel = n + 1 := ⟨fuel - 1, by omega⟩
    obtain ⟨r, hr, hc⟩ := hload
    have hnone : r = none := hc
    refine Or.inr ⟨[], [], rfl, ?_, fun p hp => (by cases hp), fun p hp => (by cases hp)⟩
    unfold searchopen
    simp only [run_bind, hr, hnone, run_pure]
    rfl
  | cons p xs ih =>
    obtain ⟨fuel, rfl⟩ : ∃ n, fuel = n + 1 := ⟨fuel - 1, by omega⟩
    obtain ⟨r, hr, hc1, hc2⟩ := hload
    obtain ⟨i, hi⟩ := ho p List.mem_cons_self
    obtain ⟨uv, hget, hlev⟩ := stacklevel_open hi
    obtain ⟨hs1, hs2⟩ := List.pairwise_cons.mp hs
    by_cases hge : level.index ≤ i
    · have hpge : StkId.ge ⟨level.block, i⟩ level := ⟨rfl, hge⟩
      by_cases heq : i = level.index
      · -- the upvalue of the level
        have hl : (⟨level.block, i⟩ : StkId) = level := by
          rw [heq]
        refine Or.inl ⟨p, List.mem_cons_self, ?_, hl ▸ hi⟩
        unfold searchopen
        simp only [run_bind, hr, hc1, hget, hlev, if_pos hpge, if_pos hl, run_pure]
      · -- the rest of the list
        have hne : (⟨level.block, i⟩ : StkId) ≠ level := fun he => heq (congrArg StkId.index he)
        have hstep : searchopen level (fuel + 1) pp s = searchopen level fuel (.threadnext p) s := by
          conv_lhs => unfold searchopen
          simp only [run_bind, hr, hc1, hget, hlev, if_pos hpge, if_neg hne]
        have hrest := ih ⟨_, loadplace_open hi, hc2⟩
          (fun q hq => ho q (List.mem_cons_of_mem p hq)) hs2 (by simpa using hf)
        rcases hrest with ⟨q, hq, hrun, hat⟩ | ⟨pre, post, hsplit, hrun, hpre, hpost⟩
        · exact Or.inl ⟨q, List.mem_cons_of_mem p hq, hstep.trans hrun, hat⟩
        · refine Or.inr ⟨p :: pre, post, by rw [hsplit]; rfl, ?_, ?_, hpost⟩
          · have hplace : placeAfter (.threadnext p) pre = placeAfter pp (p :: pre) := by
              cases pre with
              | nil => rfl
              | cons q qs =>
                unfold placeAfter
                rw [List.getLast?_cons_cons]
                obtain ⟨z, hz⟩ : ∃ z, (q :: qs).getLast? = some z :=
                  ⟨_, List.getLast?_eq_some_getLast (List.cons_ne_nil q qs)⟩
                rw [hz]
                rfl
            rw [hstep, hrun, hplace]
          · intro q hq j hj
            rcases List.mem_cons.mp hq with rfl | hq
            · have := congrArg StkId.index (hj.unique hi)
              have : j = i := this
              omega
            · exact hpre q hq j hj
    · -- the level belongs in front of `p`
      have hpge : ¬StkId.ge ⟨level.block, i⟩ level := fun he => hge he.2
      refine Or.inr ⟨[], p :: xs, rfl, ?_, fun q hq => (by cases hq), ?_⟩
      · unfold searchopen
        simp only [run_bind, hr, hc1, hget, hlev, if_neg hpge, run_pure]
        rfl
      · intro q hq j hj
        rcases List.mem_cons.mp hq with rfl | hq
        · have : j = i := congrArg StkId.index (hj.unique hi)
          omega
        · have := hs1 q hq i j hi hj
          omega

/-! ### The insertion -/

/-- What storing a pointer at a place behind `pre` changes. -/
structure Stored (s s' : UpvalState) (L : ℕ) (pre : List ℕ) (r : Option ℕ) : Prop where
  next : s'.next = s.next
  prev : s'.prev = s.prev
  uvheadnext : s'.uvheadnext = s.uvheadnext
  slots : s'.slots = s.slots
  objects : s'.objects = s.objects
  core : ∀ q, (s'.upvals q).map UpVal.core = (s.upvals q).map UpVal.core
  upvals : ∀ q, pre.getLast? ≠ some q → s'.upvals q = s.upvals q
  last : ∀ q, pre.getLast? = some q → s'.threadnext q = r
  threads : ∀ L', s'.threads L' =
    (s.threads L').map fun t => if L' = L ∧ pre = [] then { t with openupval := r } else t

theorem storeplace_spec (hth : s.threads L = some th) (r : Option ℕ)
    (hpre : ∀ q ∈ pre, ∃ l, OpenAt s q l) :
    ∃ s', storeplace r (placeAfter (.openupval L) pre) s = .ok ⟨⟩ s' ∧ Stored s s' L pre r := by
  cases hlast : pre.getLast? with
  | none =>
    obtain rfl := List.getLast?_eq_none_iff.mp hlast
    refine ⟨s.setThread L { th with openupval := r }, ?_, ?_⟩
    · show storeplace r (.openupval L) s = _
      unfold storeplace
      simp only [run_bind, getthread_run hth, setthread_run]
    · refine ⟨rfl, rfl, rfl, rfl, rfl, fun _ => rfl, fun _ _ => rfl, fun q hq => (by cases hq), ?_⟩
      intro L'
      show update s.threads L _ L' = _
      by_cases he : L' = L
      · subst he
        rw [update_self, hth, Option.map_some, if_pos ⟨rfl, rfl⟩]
      · rw [update_of_ne he]
        cases s.threads L' with
        | none => rfl
        | some t => rw [Option.map_some, if_neg (fun hc => he hc.1)]
  | some q =>
    obtain ⟨l, uv, o, hu, hv, ho, hd⟩ := hpre q (List.mem_of_getLast? hlast)
    have hplace : placeAfter (.openupval L) pre = .threadnext q := by
      unfold placeAfter
      rw [hlast]
      rfl
    have hlinks : s.links q = some o := links_eq_some_iff.mpr ⟨uv, hu, ho⟩
    set uv' : UpVal := { uv with u := .links { o with threadnext := r } } with huv'
    have hlinks' : (s.setUpval q uv').links q = some { o with threadnext := r } := by
      rw [links_setUpval, if_pos rfl]
    have hother : ∀ p, p ≠ q → (s.setUpval q uv').links p = s.links p := fun p hp => by
      rw [links_setUpval, if_neg hp]
    have hupvals : ∀ p, p ≠ q → (s.setUpval q uv').upvals p = s.upvals p := fun p hp =>
      update_of_ne hp _ _
    refine ⟨s.setUpval q uv', ?_, ?_, ?_, rfl, rfl, rfl, fun p => ?_, fun p hp => ?_, fun p hp => ?_, ?_⟩
    · rw [hplace]
      unfold storeplace
      simp only [run_bind, getupval_run hu, openlinks_run ho, setupval_run]
      rfl
    · funext x
      cases x with
      | none => rfl
      | some p =>
        show ((s.setUpval q uv').links p).bind _ = (s.links p).bind _
        by_cases hp : p = q
        · rw [hp, hlinks', hlinks]
          rfl
        · rw [hother p hp]
    · funext x
      cases x with
      | none => rfl
      | some p =>
        show ((s.setUpval q uv').links p).bind _ = (s.links p).bind _
        by_cases hp : p = q
        · rw [hp, hlinks', hlinks]
          rfl
        · rw [hother p hp]
    · by_cases hp : p = q
      · subst hp
        have hself : (s.setUpval p uv').upvals p = some uv' := update_self _ _ _
        rw [hself, hu, Option.map_some, Option.map_some]
        unfold UpVal.core
        rw [ho]
      · rw [hupvals p hp]
    · have hne : p ≠ q := fun he => hp (he ▸ hlast)
      exact hupvals p hne
    · obtain rfl : q = p := Option.some.inj (hlast.symm.trans hp)
      unfold UpvalState.threadnext
      rw [hlinks']
      rfl
    · intro L'
      have hne : ¬(L' = L ∧ pre = []) := by
        rintro ⟨_, rfl⟩
        cases hlast
      show s.threads L' = _
      cases s.threads L' with
      | none => rfl
      | some t => rw [Option.map_some, if_neg hne]

/-- An upvalue joins the ring behind `uvhead`. -/
theorem linkup_spec (h : RingOk s ring) (hp : p ∉ ring) (hu : s.upvals p = some uv)
    (ho : uv.u = .links o) (hprev : o.prev = none) (hnext : o.next = s.uvheadnext) :
    ∃ s', (do
        setprev s.uvheadnext (some p)
        setnext none (some p) : UpvalM Unit) s = .ok ⟨⟩ s' ∧ RingOk s' (p :: ring) ∧ SameLists s s' := by
  have hlinks : s.links p = some o := links_eq_some_iff.mpr ⟨uv, hu, ho⟩
  have hhead : s.uvheadnext = none ∨ s.uvheadnext ∈ ring.map some := by
    have hring := h.isring
    cases ring with
    | nil => exact Or.inl hring.1
    | cons q qs =>
      have hq : s.uvheadnext = some q := hring.1
      rw [hq]
      exact Or.inr List.mem_cons_self
  have hn : s.Node s.uvheadnext := h.isNode hhead
  obtain ⟨hnext1, hprev1, hsame1⟩ := withprev_spec (r := some p) hn
  have hn1 : (s.withprev s.uvheadnext (some p)).Node none := trivial
  obtain ⟨hprev2, hnext2, hsame2⟩ := withnext_spec (r := some p) hn1
  have hsame := hsame1.trans hsame2
  have hpn : some p ≠ (none : Option ℕ) := Option.some_ne_none p
  have hpring : some p ∉ ring.map some := fun hm => by
    obtain ⟨q, hq, he⟩ := List.mem_map.mp hm
    exact hp (Option.some.inj he ▸ hq)
  have hphead : some p ≠ s.uvheadnext := by
    rcases hhead with he | hm
    · rw [he]
      exact hpn
    · exact fun he => hpring (he ▸ hm)
  refine ⟨_, ?_, ⟨?_, List.nodup_cons.mpr ⟨hp, h.nodup⟩, fun q hq => ?_, fun q uv' hq => ?_⟩, hsame⟩
  · simp only [run_bind, setprev_run hn, setnext_run hn1]
  · rw [List.map_cons]
    apply h.isring.insert (some_nodup h.nodup) none_notMem
    · rw [hnext2, hnext1, update_of_ne hpn]
      show (s.links p).bind _ = _
      rw [hlinks]
      exact hnext
    · rw [hprev2, hprev1, update_of_ne hphead]
      show (s.links p).bind _ = _
      rw [hlinks]
      exact hprev
    · intro y _
      rw [hnext2, hnext1]
      exact update_apply _ _ _ _
    · intro y _
      rw [hprev2, hprev1]
      exact update_apply _ _ _ _
  · have hq' : s.Node (some q) := by
      rcases List.mem_cons.mp hq with rfl | hq
      · exact ⟨o, hlinks⟩
      · exact h.links q hq
    exact hsame.keepsNode hq'
  · rw [hsame.objects]
    have hs := hsame.strip q
    rw [hq, Option.map_some] at hs
    obtain ⟨uv'', hq', _⟩ := Option.map_eq_some_iff.mp hs.symm
    exact h.alloc q uv'' hq'

theorem RingOk.relist (h : RingOk s ring) (hn : s'.next = s.next) (hp : s'.prev = s.prev)
    (ho : s'.objects = s.objects)
    (hc : ∀ q, (s'.upvals q).map UpVal.core = (s.upvals q).map UpVal.core) : RingOk s' ring where
  isring := by
    rw [hn, hp]
    exact h.isring
  nodup := h.nodup
  links := by
    intro q hq
    obtain ⟨o, hl⟩ := h.links q hq
    obtain ⟨uv, hu, huo⟩ := links_eq_some_iff.mp hl
    obtain ⟨uv', hu', hcore⟩ := core_eq_some (hc q) hu
    obtain ⟨o', ho'⟩ := core_links hcore huo
    exact ⟨o', links_eq_some_iff.mpr ⟨uv', hu', ho'⟩⟩
  alloc := by
    intro q uv hq
    obtain ⟨uv', hu', _⟩ := core_eq_some (hc q).symm hq
    rw [ho]
    exact h.alloc q uv' hu'

/-- A thread list belongs to one thread. -/
theorem UpvalsOk.thread_unique {L' : ℕ} (h : UpvalsOk s ring lists) (hth : s.threads L = some th)
    (hth' : s.threads L' = some th') (hp : p ∈ lists L) (hp' : p ∈ lists L') : L = L' := by
  obtain ⟨i, hi⟩ := (h.list L th hth).opened p hp
  obtain ⟨j, hj⟩ := (h.list L' th' hth').opened p hp'
  have hb : th.stack = th'.stack := congrArg StkId.block (hi.unique hj)
  exact h.distinct L L' th th' hth hth' hb

/-- A new upvalue, as `newupval` makes it. -/
def UpVal.fresh (level : StkId) (headnext threadnext : Option ℕ) : UpVal :=
  ⟨.stack level, .links ⟨none, headnext, threadnext⟩, false, false, false⟩

/-- **A new upvalue** goes between those above and those below its level. -/
theorem newupval_spec (h : UpvalsOk s ring lists) (hth : s.threads L = some th)
    (hsplit : lists L = pre ++ post) (hblock : level.block = th.stack)
    (hpre : ∀ q ∈ pre, ∀ i, OpenAt s q ⟨level.block, i⟩ → level.index < i)
    (hpost : ∀ q ∈ post, ∀ i, OpenAt s q ⟨level.block, i⟩ → i < level.index)
    (hp : p ∉ s.objects) :
    ∃ s', newupval (some p) level (placeAfter (.openupval L) pre) s = .ok p s' ∧
      UpvalsOk s' (p :: ring) (update lists L (pre ++ p :: post)) ∧ OpenAt s' p level ∧
      s'.slots = s.slots ∧
      (∀ q, q ≠ p → (s'.upvals q).map UpVal.core = (s.upvals q).map UpVal.core) ∧
      ∀ L' t, s.threads L' = some t → ∃ t', s'.threads L' = some t' ∧ t'.stack = t.stack := by
  have hlist := h.list L th hth
  have hopen : ∀ q ∈ lists L, ∃ i, OpenAt s q ⟨th.stack, i⟩ := hlist.opened
  have hne : ∀ q ∈ lists L, q ≠ p := fun q hq he => by
    obtain ⟨i, hi⟩ := hopen q hq
    exact hp (he ▸ hi.alloc h.ringok)
  have hpring : p ∉ ring := fun hm => by
    obtain ⟨o, hl⟩ := h.ringok.links p hm
    obtain ⟨uv, hu, _⟩ := links_eq_some_iff.mp hl
    exact hp (h.ringok.alloc p uv hu)
  -- what `*pp` is
  set pp := placeAfter (.openupval L) pre with hpp
  have hload : loadplace pp s = .ok post.head? s := by
    have hchain := hlist.chain
    rw [hsplit] at hchain
    cases hlast : pre.getLast? with
    | none =>
      obtain rfl := List.getLast?_eq_none_iff.mp hlast
      have : pp = .openupval L := rfl
      rw [this]
      unfold loadplace
      simp only [run_bind, getthread_run hth, run_pure]
      rw [hchain.head_eq]
      rfl
    | some q =>
      have hpq : pp = .threadnext q := by
        rw [hpp]
        unfold placeAfter
        rw [hlast]
        rfl
      obtain ⟨i, hi⟩ := hopen q (by rw [hsplit]; exact List.mem_append_left _ (List.mem_of_getLast? hlast))
      rw [hpq, loadplace_open hi]
      obtain ⟨init, rfl⟩ := List.getLast?_eq_some_iff.mp hlast
      rw [List.append_assoc] at hchain
      rw [hchain.next_of_append]
      rfl
  set uv := UpVal.fresh level s.uvheadnext post.head? with huv
  set s₁ : UpvalState := { s with objects := p :: s.objects }.setUpval p uv with hs₁
  have hu₁ : s₁.upvals p = some uv := update_self _ _ _
  have hother₁ : ∀ q, q ≠ p → s₁.upvals q = s.upvals q := fun q hq => update_of_ne hq _ _
  have hring₁ : RingOk s₁ ring := by
    have hobj : RingOk { s with objects := p :: s.objects } ring :=
      ⟨h.ringok.isring, h.ringok.nodup, h.ringok.links,
        fun q uv hq => List.mem_cons_of_mem p (h.ringok.alloc q uv hq)⟩
    exact hobj.setUpval hpring List.mem_cons_self
  have hopen₁ : ∀ q l, q ≠ p → (OpenAt s₁ q l ↔ OpenAt s q l) := fun q l hq => by
    unfold OpenAt
    rw [hother₁ q hq]
  have hpreopen : ∀ q ∈ pre, ∃ l, OpenAt s₁ q l := fun q hq => by
    have hm : q ∈ lists L := hsplit ▸ List.mem_append_left _ hq
    obtain ⟨i, hi⟩ := hopen q hm
    exact ⟨_, (hopen₁ q _ (hne q hm)).mpr hi⟩
  obtain ⟨s₂, hrun₂, hst⟩ := storeplace_spec (L := L) (s := s₁) hth (some p) hpreopen
  have hring₂ : RingOk s₂ ring := hring₁.relist hst.next hst.prev hst.objects hst.core
  have hplast : pre.getLast? ≠ some p := fun he =>
    hne p (hsplit ▸ List.mem_append_left _ (List.mem_of_getLast? he)) rfl
  have hu₂ : s₂.upvals p = some uv := (hst.upvals p hplast).trans hu₁
  have hhead₂ : s₂.uvheadnext = s.uvheadnext := hst.uvheadnext
  obtain ⟨s₃, hrun₃, hring₃, hsame⟩ := linkup_spec hring₂ hpring hu₂ rfl rfl hhead₂.symm
  have hcore : ∀ q, q ≠ p → (s₃.upvals q).map UpVal.core = (s.upvals q).map UpVal.core := by
    intro q hq
    rw [core_of_strip (hsame.strip q), hst.core q, hother₁ q hq]
  have hstrip : ∀ q, q ≠ p → pre.getLast? ≠ some q →
      (s₃.upvals q).map UpVal.strip = (s.upvals q).map UpVal.strip := by
    intro q hq hql
    rw [hsame.strip q, hst.upvals q hql, hother₁ q hq]
  have hat : OpenAt s₃ p level := by
    have hat₂ : OpenAt s₂ p level := ⟨uv, _, hu₂, rfl, rfl, rfl⟩
    exact hat₂.congr (core_of_strip (hsame.strip p))
  have hat' : ∀ q l, q ≠ p → (OpenAt s₃ q l ↔ OpenAt s q l) := fun q l hq =>
    ⟨fun h => h.congr (hcore q hq).symm, fun h => h.congr (hcore q hq)⟩
  have hthreads : ∀ L', s₃.threads L' =
      (s.threads L').map fun t => if L' = L ∧ pre = [] then { t with openupval := some p } else t := by
    intro L'
    rw [hsame.threads]
    exact hst.threads L'
  have hthread : ∀ {L' : ℕ} {th' : Thread}, s₃.threads L' = some th' → ∃ t, s.threads L' = some t ∧
      th' = if L' = L ∧ pre = [] then { t with openupval := some p } else t := by
    intro L' th' hth'
    rw [hthreads] at hth'
    obtain ⟨t, ht, he⟩ := Option.map_eq_some_iff.mp hth'
    exact ⟨t, ht, he.symm⟩
  have hstack : ∀ {t : Thread} {c : Prop} [Decidable c],
      (if c then { t with openupval := some p } else t).stack = t.stack ∧
        (if c then { t with openupval := some p } else t).marked = t.marked := by
    intro t c _
    split <;> exact ⟨rfl, rfl⟩
  have hkeep : ∀ L' t, s.threads L' = some t → ∃ t', s₃.threads L' = some t' ∧ t'.stack = t.stack :=
    fun L' t ht => ⟨_, (hthreads L').trans (by rw [ht]; rfl), hstack.1⟩
  refine ⟨s₃, ?_, ⟨hring₃, ?_, ?_, ?_, ?_, ?_⟩, hat, hsame.slots.trans hst.slots, hcore, hkeep⟩
  · unfold newupval
    simp only [run_bind, hload, run_get, run_modify, setupval_run]
    have hfin : (do
        setprev s.uvheadnext (some p)
        setnext none (some p)
        return p : UpvalM ℕ) s₂ = .ok p s₃ := by
      rw [hhead₂] at hrun₃
      rw [run_bind] at hrun₃ ⊢
      cases hsp : setprev s.uvheadnext (some p) s₂ with
      | error e t =>
        rw [hsp] at hrun₃
        cases hrun₃
      | ok u t =>
        rw [hsp] at hrun₃
        dsimp only at hrun₃ ⊢
        rw [run_bind, hrun₃]
        rfl
    rw [← hfin]
    have hrun₂' : storeplace (some p) pp
        ({ s with objects := p :: s.objects }.setUpval p
          ⟨.stack level, .links ⟨none, s.uvheadnext, post.head?⟩, false, false, false⟩) = .ok ⟨⟩ s₂ := hrun₂
    rw [hrun₂']
    simp only [run_bind]
  · -- the lists
    intro L' th' hth'
    obtain ⟨t, ht, rfl⟩ := hthread hth'
    by_cases he : L' = L
    · subst he
      obtain rfl := Option.some.inj (hth.symm.trans ht)
      rw [update_self]
      have hnd : (pre ++ post).Nodup := hsplit ▸ hlist.nodup
      have hmem : ∀ {q : ℕ}, q ∈ pre ++ post → q ≠ p := fun hq => hne _ (hsplit ▸ hq)
      refine ⟨?_, ?_, ?_⟩
      · apply Chain.insert (hsplit ▸ hlist.chain) _ hnd
        · intro q hq hql
          obtain ⟨i, hi⟩ := hopen q (hsplit ▸ hq)
          exact hi.threadnext_congr (hstrip q (hmem hq) hql)
        · intro q hq
          have hqm : q ∈ pre := List.mem_of_getLast? hq
          obtain ⟨l, hl⟩ := hpreopen q hqm
          rw [← hst.last q hq]
          exact (hl.congr (hst.core q)).threadnext_congr (hsame.strip q)
        · by_cases hnil : pre = []
          · rw [if_pos ⟨rfl, hnil⟩, if_pos hnil]
          · rw [if_neg (fun hc => hnil hc.2), if_neg hnil]
        · have hat₂ : OpenAt s₂ p level := ⟨uv, _, hu₂, rfl, rfl, rfl⟩
          rw [hat₂.threadnext_congr (hsame.strip p), threadnext_of_links hu₂ rfl]
      · intro q hq
        rw [hstack.1]
        by_cases hqp : q = p
        · subst hqp
          exact ⟨level.index, by rw [← hblock]; exact hat⟩
        · have hq' : q ∈ pre ++ post := by
            rcases List.mem_append.mp hq with h1 | h1
            · exact List.mem_append_left _ h1
            · exact List.mem_append_right _ ((List.mem_cons.mp h1).resolve_left hqp)
          obtain ⟨i, hi⟩ := hopen q (hsplit ▸ hq')
          exact ⟨i, (hat' q _ hqp).mpr hi⟩
      · rw [hstack.1]
        have hsorted := hlist.sorted
        rw [hsplit, List.pairwise_append] at hsorted
        obtain ⟨hs1, hs2, hs3⟩ := hsorted
        have hlevel : ∀ i, OpenAt s₃ p ⟨th.stack, i⟩ → i = level.index := fun i hi =>
          congrArg StkId.index (hi.unique hat)
        refine List.pairwise_append.mpr ⟨?_, List.pairwise_cons.mpr ⟨?_, ?_⟩, ?_⟩
        · refine hs1.imp_of_mem (fun ha hb hlt i j hi hj => ?_)
          have ha' := hmem (List.mem_append_left post ha)
          have hb' := hmem (List.mem_append_left post hb)
          exact hlt i j ((hat' _ _ ha').mp hi) ((hat' _ _ hb').mp hj)
        · intro b hb i j hi hj
          have hb' := hmem (List.mem_append_right pre hb)
          rw [hlevel i hi]
          exact hpost b hb j (by rw [hblock]; exact (hat' _ _ hb').mp hj)
        · refine hs2.imp_of_mem (fun ha hb hlt i j hi hj => ?_)
          have ha' := hmem (List.mem_append_right pre ha)
          have hb' := hmem (List.mem_append_right pre hb)
          exact hlt i j ((hat' _ _ ha').mp hi) ((hat' _ _ hb').mp hj)
        · intro a ha b hb i j hi hj
          have ha' := hmem (List.mem_append_left post ha)
          have hia := (hat' _ _ ha').mp hi
          rcases List.mem_cons.mp hb with rfl | hb
          · rw [hlevel j hj]
            exact hpre a ha i (by rw [hblock]; exact hia)
          · have hb' := hmem (List.mem_append_right pre hb)
            exact hs3 a ha b hb i j hia ((hat' _ _ hb').mp hj)
    · rw [update_of_ne he, if_neg (fun hc => he hc.1)]
      refine (h.list L' t ht).congr rfl rfl (fun q hq => ?_)
      obtain ⟨i, hi⟩ := (h.list L' t ht).opened q hq
      apply hstrip q (fun hqp => hp (hqp ▸ hi.alloc h.ringok))
      intro hlast
      have hqL : q ∈ lists L := hsplit ▸ List.mem_append_left _ (List.mem_of_getLast? hlast)
      exact he (h.thread_unique ht hth hq hqL)
  · -- the ring
    intro q
    have hex : (∃ L' t, s₃.threads L' = some t ∧ q ∈ update lists L (pre ++ p :: post) L') ↔
        q = p ∨ ∃ L' t, s.threads L' = some t ∧ q ∈ lists L' := by
      constructor
      · rintro ⟨L', t, ht, hq⟩
        obtain ⟨t', ht', _⟩ := hthread ht
        by_cases he : L' = L
        · subst he
          rw [update_self] at hq
          have hq' : q = p ∨ q ∈ pre ++ post := by
            simp only [List.mem_append, List.mem_cons] at hq ⊢
            tauto
          exact hq'.imp_right (fun hq => ⟨L', t', ht', hsplit ▸ hq⟩)
        · rw [update_of_ne he] at hq
          exact Or.inr ⟨L', t', ht', hq⟩
      · rintro (rfl | ⟨L', t, ht, hq⟩)
        · refine ⟨L, _, (hthreads L).trans (by rw [hth]; rfl), ?_⟩
          rw [update_self]
          exact List.mem_append_right _ List.mem_cons_self
        · refine ⟨L', _, (hthreads L').trans (by rw [ht]; rfl), ?_⟩
          by_cases he : L' = L
          · subst he
            rw [hsplit] at hq
            rw [update_self]
            simp only [List.mem_append, List.mem_cons] at hq ⊢
            tauto
          · rw [update_of_ne he]
            exact hq
    rw [hex, List.mem_cons, h.mem]
  · intro L₁ L₂ t₁ t₂ h₁ h₂ hb
    obtain ⟨t₁', h₁', rfl⟩ := hthread h₁
    obtain ⟨t₂', h₂', rfl⟩ := hthread h₂
    rw [hstack.1, hstack.1] at hb
    exact h.distinct L₁ L₂ t₁' t₂' h₁' h₂' hb
  · intro q uvq hq hd hqr
    rw [List.mem_cons, not_or] at hqr
    obtain ⟨uv', hu', hc⟩ := core_eq_some (hcore q hqr.1).symm hq
    obtain ⟨hv, _, _, hdead⟩ := core_fields hc
    obtain ⟨v, hv', hval⟩ := h.closed q uv' hu' (hdead.trans hd) hqr.2
    exact ⟨v, hv.symm.trans hv', core_value hc.symm hval⟩
  · intro L' th' q uvq hth' hm hq huq
    obtain ⟨t, ht, rfl⟩ := hthread hth'
    rw [hstack.2] at hm
    by_cases hqp : q = p
    · subst hqp
      obtain ⟨uv', hu', hs⟩ := strip_eq_some hsame hu₂
      obtain rfl := Option.some.inj (hu'.symm.trans huq)
      exact (strip_fields hs).2.1
    · have hq' : q ∈ lists L' := by
        by_cases he : L' = L
        · subst he
          rw [update_self] at hq
          rw [hsplit]
          simp only [List.mem_append, List.mem_cons] at hq ⊢
          tauto
        · rwa [update_of_ne he] at hq
      obtain ⟨uv', hu', hc⟩ := core_eq_some (hcore q hqp).symm huq
      rw [← (core_fields hc).2.1]
      exact h.unmarked L' t q uv' ht hm hq' hu'

/-- **`luaF_findupval`** answers the upvalue of the level when there is one; otherwise it makes one, or
runs out of memory with nothing changed. -/
theorem findupval_spec (h : UpvalsOk s ring lists) (hth : s.threads L = some th) (i : ℕ)
    (fresh : Option ℕ) (hfresh : ∀ p, fresh = some p → p ∉ s.objects) :
    (∃ p ∈ lists L, luaF_findupval fresh L ⟨th.stack, i⟩ s = .ok p s ∧ OpenAt s p ⟨th.stack, i⟩) ∨
    (∀ p ∈ lists L, ¬OpenAt s p ⟨th.stack, i⟩) ∧
      ((fresh = none ∧ luaF_findupval fresh L ⟨th.stack, i⟩ s = .error .errmem s) ∨
        ∃ p s' lists', fresh = some p ∧ luaF_findupval fresh L ⟨th.stack, i⟩ s = .ok p s' ∧
          UpvalsOk s' (p :: ring) lists' ∧ p ∈ lists' L ∧ OpenAt s' p ⟨th.stack, i⟩ ∧
          s'.slots = s.slots ∧
          (∀ q, q ≠ p → (s'.upvals q).map UpVal.core = (s.upvals q).map UpVal.core) ∧
          ∀ L' t, s.threads L' = some t → ∃ t', s'.threads L' = some t' ∧ t'.stack = t.stack) := by
  have hlist := h.list L th hth
  have hload : loadplace (.openupval L) s = .ok th.openupval s := by
    unfold loadplace
    simp only [run_bind, getthread_run hth, run_pure]
  have hlen : (lists L).length < s.objects.length + 1 := by
    have := length_le_objects h.ringok hlist.nodup (fun p hp => by
      obtain ⟨i, hi⟩ := hlist.opened p hp
      exact ⟨_, hi⟩)
    omega
  have hsearch := @searchopen_spec _ _ ⟨th.stack, i⟩ _ _ ⟨_, hload, hlist.chain⟩ hlist.opened
    hlist.sorted hlen
  rcases hsearch with ⟨p, hp, hrun, hat⟩ | ⟨pre, post, hsplit, hrun, hpre, hpost⟩
  · refine Or.inl ⟨p, hp, ?_, hat⟩
    unfold luaF_findupval
    simp only [run_bind, walkfuel_run, hrun, run_pure]
  · refine Or.inr ⟨fun p hp hat => ?_, ?_⟩
    · rw [hsplit] at hp
      rcases List.mem_append.mp hp with hm | hm
      · exact lt_irrefl _ (hpre p hm i hat)
      · exact lt_irrefl _ (hpost p hm i hat)
    · have hstep : luaF_findupval fresh L ⟨th.stack, i⟩ s
          = newupval fresh ⟨th.stack, i⟩ (placeAfter (.openupval L) pre) s := by
        unfold luaF_findupval
        simp only [run_bind, walkfuel_run, hrun]
      rw [hstep]
      cases fresh with
      | none => exact Or.inl ⟨rfl, rfl⟩
      | some p =>
        obtain ⟨s', hnew, hok, hat, hslots, hcore, hkeep⟩ :=
          newupval_spec h hth hsplit rfl hpre hpost (hfresh p rfl)
        refine Or.inr ⟨p, s', _, rfl, hnew, hok, ?_, hat, hslots, hcore, hkeep⟩
        rw [update_self]
        exact List.mem_append_right _ List.mem_cons_self

end Lists

end Luwu
