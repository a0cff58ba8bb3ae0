import Luwu.Native.Shared

/-!
# Counting references to native modules

The invariant of the modules and of the threads in the middle of a release, and what each act does to it. It needs
that the act which destroys a module is the last release of it that is under way.
-/

namespace Luwu.Native

open Function (update)
open Run

/-- The thread is in the middle of a release of the module. -/
def Release.On : Release → ℕ → Prop
  | .idle, _ => False
  | .dropped m, n => m = n
  | .erasing m, n => m = n

/-- No other thread is in the middle of a release of a module that is about to be destroyed, and the allocator is
destroyed when no module is left. -/
def SharedAct.Last (t : ℕ) : SharedAct → SharedCodeAllocator → Prop
  | .eraseNativeModuleIfUnreferenced m, s => ∀ nativeModule, s.modules m = some nativeModule →
    nativeModule.refcount = 0 → ∀ t', (s.threads t').On m → t' = t
  | .destroyAllocator, s => ∀ m, s.modules m = none
  | _, _ => True

namespace SharedCodeAllocator

structure SharedInv (s : SharedCodeAllocator) : Prop where
  bounded : ∀ m, s.modules m ≠ none → m < s.created
  held : ∀ m, 0 < s.refs m → s.modules m ≠ none
  pending : ∀ t m, (s.threads t).On m → s.modules m ≠ none
  count : ∀ m nativeModule, s.modules m = some nativeModule →
    nativeModule.refcount = s.refs m ∧ s.refs m < 2 ^ sizeBits
  unheld : ∀ m, s.modules m ≠ none → s.refs m = 0 → ∃ t, (s.threads t).On m
  distinct : Association.Distinct Prod.fst s.identifiedModules
  registered : ∀ moduleId m, (moduleId, m) ∈ s.identifiedModules ↔
    ∃ nativeModule, s.modules m = some nativeModule ∧ nativeModule.moduleId = some moduleId
  anonymous : s.assertions = true → ∃ l : List ℕ, l.Nodup ∧ l.length = s.anonymousModuleCount ∧
    ∀ m, m ∈ l ↔ ∃ nativeModule, s.modules m = some nativeModule ∧ nativeModule.moduleId = none
  once : s.destroyed.Nodup
  destroyed : ∀ m, m ∈ s.destroyed ↔ m < s.created ∧ s.modules m = none
  freed : s.deallocated.length = s.destroyed.length
  gone : s.alive = false → ∀ m, s.modules m = none

variable {s s' : SharedCodeAllocator} {m n t : ℕ} {nativeModule : NativeModule} {moduleId : ModuleId}

theorem start_inv (assertions : Bool) : SharedInv (start assertions) where
  bounded := fun _ hm => absurd rfl hm
  held := fun _ hm => absurd hm (Nat.lt_irrefl 0)
  pending := fun _ _ hon => hon.elim
  count := nofun
  unheld := fun _ hm => absurd rfl hm
  distinct := List.Pairwise.nil
  registered := fun _ _ => ⟨fun hm => absurd hm List.not_mem_nil, nofun⟩
  anonymous := fun _ => ⟨[], List.nodup_nil, rfl, fun _ => ⟨fun hm => absurd hm List.not_mem_nil, nofun⟩⟩
  once := List.nodup_nil
  destroyed := fun _ => ⟨fun hm => absurd hm List.not_mem_nil, fun hm => absurd hm.1 (Nat.not_lt_zero _)⟩
  freed := rfl
  gone := fun h => Bool.noConfusion h

theorem access_some (h : s.modules m = some nativeModule) : s.access m = .ok nativeModule := by
  unfold access
  rw [h]

theorem of_access_ok (h : s.access m = .ok nativeModule) : s.modules m = some nativeModule := by
  unfold access at h
  split at h
  · next heq => rw [heq, Except.ok.inj h]
  · cases h

/-- A state in which the count of one module changed, its references with it. -/
def recount (s : SharedCodeAllocator) (m : ℕ) (nativeModule : NativeModule) (count : ℕ) (threads : ℕ → Release) :
    SharedCodeAllocator :=
  { s with
    modules := update s.modules m (some { nativeModule with refcount := count })
    refs := update s.refs m count
    threads := threads }

theorem recount_none_iff (hm : s.modules m = some nativeModule) (count : ℕ) (threads : ℕ → Release) :
    (s.recount m nativeModule count threads).modules n = none ↔ s.modules n = none := by
  unfold recount
  dsimp only
  by_cases hn : n = m
  · subst hn
    rw [Function.update_self, hm]
    exact ⟨nofun, nofun⟩
  · rw [Function.update_of_ne hn]

theorem recount_id_iff (hm : s.modules m = some nativeModule) (count : ℕ) (threads : ℕ → Release)
    (P : Option ModuleId → Prop) :
    (∃ new, (s.recount m nativeModule count threads).modules n = some new ∧ P new.moduleId) ↔
      ∃ old, s.modules n = some old ∧ P old.moduleId := by
  unfold recount
  dsimp only
  by_cases hn : n = m
  · subst hn
    rw [Function.update_self, hm]
    constructor
    · intro ⟨new, hnew, hp⟩
      cases hnew
      exact ⟨nativeModule, rfl, hp⟩
    · intro ⟨old, hold, hp⟩
      cases hold
      exact ⟨_, rfl, hp⟩
  · rw [Function.update_of_ne hn]

/-- Changing the count of a module keeps the invariant, as long as a release is under way when it is 0. -/
theorem SharedInv.recount (h : SharedInv s) (hm : s.modules m = some nativeModule) {count : ℕ}
    {threads : ℕ → Release} (hcount : count < 2 ^ sizeBits)
    (hpending : ∀ t n, (threads t).On n → s.modules n ≠ none)
    (hunheld : ∀ n, s.modules n ≠ none → update s.refs m count n = 0 → ∃ t, (threads t).On n) :
    SharedInv (s.recount m nativeModule count threads) where
  bounded := fun n hn => h.bounded n (mt (recount_none_iff hm count threads).mpr hn)
  held := fun n hn => by
    refine mt (recount_none_iff hm count threads).mp ?_
    by_cases hnm : n = m
    · rw [hnm, hm]
      exact Option.some_ne_none _
    · apply h.held n
      have hn' : 0 < update s.refs m count n := hn
      rwa [Function.update_of_ne hnm] at hn'
  pending := fun t n hon => mt (recount_none_iff hm count threads).mp (hpending t n hon)
  count := fun n new hnew => by
    have hnew' : update s.modules m (some { nativeModule with refcount := count }) n = some new := hnew
    show new.refcount = update s.refs m count n ∧ update s.refs m count n < _
    by_cases hnm : n = m
    · subst hnm
      rw [Function.update_self] at hnew' ⊢
      cases hnew'
      exact ⟨rfl, hcount⟩
    · rw [Function.update_of_ne hnm] at hnew' ⊢
      exact h.count n new hnew'
  unheld := fun n hn => hunheld n (mt (recount_none_iff hm count threads).mpr hn)
  distinct := h.distinct
  registered := fun moduleId n =>
    (h.registered moduleId n).trans (recount_id_iff hm count threads fun i => i = some moduleId).symm
  anonymous := fun hassert => by
    obtain ⟨l, hnodup, hlength, hmem⟩ := h.anonymous hassert
    exact ⟨l, hnodup, hlength, fun n =>
      (hmem n).trans (recount_id_iff hm count threads fun i => i = none).symm⟩
  once := h.once
  destroyed := fun n => (h.destroyed n).trans (and_congr_right' (recount_none_iff hm count threads).symm)
  freed := h.freed
  gone := fun hgone n => (recount_none_iff hm count threads).mpr (h.gone hgone n)

/-! ### Counters -/

theorem addRefs_ok (h : SharedInv s) (hm : s.modules m ≠ none) {count : ℕ} (hroom : s.refs m + count < 2 ^ sizeBits)
    (hheld : 0 < s.refs m + count) : ∃ s', s.addRefs m count = .ok s' ∧ SharedInv s' ∧
      s'.identifiedModules = s.identifiedModules := by
  obtain ⟨nativeModule, hm⟩ := Option.ne_none_iff_exists'.mp hm
  have hcount := (h.count m nativeModule hm).1
  refine ⟨s.recount m nativeModule (s.refs m + count) s.threads, ?_,
    h.recount hm hroom h.pending fun n hn hzero => ?_, rfl⟩
  · unfold addRefs SharedCodeAllocator.recount
    rw [access_some hm]
    show Except.ok _ = _
    rw [hcount, Nat.mod_eq_of_lt hroom]
  · by_cases hnm : n = m
    · subst hnm
      rw [Function.update_self] at hzero
      omega
    · rw [Function.update_of_ne hnm] at hzero
      exact h.unheld n hn hzero

theorem release_ok (h : SharedInv s) (hidle : s.threads t = .idle) (hheld : 0 < s.refs m) :
    ∃ s', s.release t m = .ok s' ∧ SharedInv s' := by
  obtain ⟨nativeModule, hm⟩ := Option.ne_none_iff_exists'.mp (h.held m hheld)
  obtain ⟨hcount, hlt⟩ := h.count m nativeModule hm
  have hmod : (s.refs m + 2 ^ sizeBits - 1) % 2 ^ sizeBits = s.refs m - 1 := by
    rw [show s.refs m + 2 ^ sizeBits - 1 = s.refs m - 1 + 2 ^ sizeBits by omega, Nat.add_mod_right,
      Nat.mod_eq_of_lt (by omega)]
  refine ⟨s.recount m nativeModule (s.refs m - 1)
    (update s.threads t (if s.refs m - 1 ≠ 0 then .idle else .dropped m)), ?_,
    h.recount hm (by omega) (fun t' n hon => ?_) fun n hn hzero => ?_⟩
  · unfold release SharedCodeAllocator.recount
    rw [access_some hm]
    show Except.ok _ = _
    rw [hcount, hmod]
  · by_cases ht : t' = t
    · subst ht
      rw [Function.update_self] at hon
      split at hon
      · exact hon.elim
      · have hon : m = n := hon
        rw [← hon, hm]
        exact Option.some_ne_none _
    · rw [Function.update_of_ne ht] at hon
      exact h.pending t' n hon
  · by_cases hnm : n = m
    · subst hnm
      rw [Function.update_self] at hzero
      refine ⟨t, ?_⟩
      rw [Function.update_self, if_neg (not_not.mpr hzero)]
      exact rfl
    · rw [Function.update_of_ne hnm] at hzero
      obtain ⟨t', hon⟩ := h.unheld n hn hzero
      refine ⟨t', ?_⟩
      rw [Function.update_of_ne]
      · exact hon
      · intro ht
        rw [ht, hidle] at hon
        exact hon

theorem readAllocator_ok (h : SharedInv s) (hon : s.threads t = .dropped m) :
    ∃ s', s.readAllocator t m = .ok s' ∧ SharedInv s' := by
  obtain ⟨nativeModule, hm⟩ := Option.ne_none_iff_exists'.mp (h.pending t m (by rw [hon]; exact rfl))
  have hsame : ∀ t' n, (update s.threads t (.erasing m) t').On n ↔ (s.threads t').On n := by
    intro t' n
    by_cases ht : t' = t
    · rw [ht, Function.update_self, hon]
      exact Iff.rfl
    · rw [Function.update_of_ne ht]
  refine ⟨{ s with threads := update s.threads t (.erasing m) }, ?_, { h with pending := ?_, unheld := ?_ }⟩
  · unfold readAllocator
    rw [access_some hm]
    rfl
  · exact fun t' n hn => h.pending t' n ((hsame t' n).mp hn)
  · intro n hn hzero
    obtain ⟨t', ht'⟩ := h.unheld n hn hzero
    exact ⟨t', (hsame t' n).mpr ht'⟩

/-! ### Lookups and new modules -/

theorem getNone_iff : Association.get Prod.fst s.identifiedModules moduleId = none ↔
    ∀ m, (moduleId, m) ∉ s.identifiedModules := by
  rw [Association.get_none_iff]
  constructor
  · intro hall m hm
    have := hall _ hm
    simp at this
  · intro hall x hx
    simp only [beq_eq_false_iff_ne]
    intro heq
    exact hall x.2 (heq ▸ hx)

theorem get_mem (h : SharedInv s) {x : ModuleId × ℕ}
    (hx : Association.get Prod.fst s.identifiedModules moduleId = some x) :
    x.1 = moduleId ∧ (moduleId, x.2) ∈ s.identifiedModules := by
  obtain ⟨hmem, hkey⟩ := (Association.get_some_iff h.distinct).mp hx
  have hkey := eq_of_beq hkey
  exact ⟨hkey, hkey ▸ hmem⟩

/-- A lookup returns a module that is registered under the id, with a reference to it. -/
theorem lookup_ok (h : SharedInv s) (hroom : ∀ m, s.refs m + 1 < 2 ^ sizeBits) :
    ∃ r s', s.tryGetNativeModuleWithLockHeld moduleId = .ok (r, s') ∧ SharedInv s' ∧
      (r = none → s' = s ∧ ∀ m, (moduleId, m) ∉ s.identifiedModules) ∧
      ∀ m, r = some m → (moduleId, m) ∈ s'.identifiedModules := by
  unfold tryGetNativeModuleWithLockHeld
  cases hget : Association.get Prod.fst s.identifiedModules moduleId with
  | none => exact ⟨none, s, rfl, h, fun _ => ⟨rfl, getNone_iff.mp hget⟩, nofun⟩
  | some x =>
    obtain ⟨-, hmem⟩ := get_mem h hget
    obtain ⟨nativeModule, hm, -⟩ := (h.registered moduleId x.2).mp hmem
    obtain ⟨s', hadd, hinv, hsame⟩ := addRefs_ok h (by rw [hm]; exact Option.some_ne_none _) (hroom x.2) (by omega)
    refine ⟨some x.2, s', ?_, hinv, nofun, fun m hm => by cases hm; exact hsame ▸ hmem⟩
    show (do
      let s ← s.addRefs x.2 1
      return (some x.2, s)) = _
    rw [hadd]
    rfl

theorem SharedInv.fresh (h : SharedInv s) : s.modules s.created = none ∧ s.refs s.created = 0 := by
  have hnone : s.modules s.created = none := by
    by_contra hne
    exact absurd (h.bounded _ hne) (Nat.lt_irrefl _)
  refine ⟨hnone, ?_⟩
  by_contra hne
  exact h.held _ (Nat.pos_of_ne_zero hne) hnone

/-- A new module with its first reference, registered under its id if it has one. -/
theorem SharedInv.insert (h : SharedInv s) (halive : s.alive = true) (id : Option ModuleId)
    (result : CodeAllocationData) (identifiedModules : List (ModuleId × ℕ)) (anonymousModuleCount : ℕ)
    (hdistinct : Association.Distinct Prod.fst identifiedModules)
    (hregistered : ∀ moduleId m, (moduleId, m) ∈ identifiedModules ↔
      (moduleId, m) ∈ s.identifiedModules ∨ m = s.created ∧ id = some moduleId)
    (hanonymous : s.assertions = true →
      anonymousModuleCount = s.anonymousModuleCount + if id = none then 1 else 0) :
    SharedInv { s with
      created := s.created + 1
      modules := update s.modules s.created (some ⟨1, id, result⟩)
      refs := update s.refs s.created 1
      identifiedModules := identifiedModules
      anonymousModuleCount := anonymousModuleCount } := by
  obtain ⟨hnone, hrefs⟩ := h.fresh
  have hother {n : ℕ} (hn : s.modules n ≠ none) : n ≠ s.created := fun heq => hn (heq ▸ hnone)
  have hkept {n : ℕ} (hn : n ≠ s.created) :
      update s.modules s.created (some ⟨1, id, result⟩) n = s.modules n := Function.update_of_ne hn _ _
  have hgrow {n : ℕ} (hn : s.modules n ≠ none) :
      update s.modules s.created (some ⟨1, id, result⟩) n ≠ none := by rwa [hkept (hother hn)]
  have hids (n : ℕ) (P : Option ModuleId → Prop) :
      (∃ new, update s.modules s.created (some ⟨1, id, result⟩) n = some new ∧ P new.moduleId) ↔
        (∃ old, s.modules n = some old ∧ P old.moduleId) ∨ n = s.created ∧ P id := by
    by_cases hn : n = s.created
    · subst hn
      rw [Function.update_self, hnone]
      constructor
      · intro ⟨new, hnew, hp⟩
        cases hnew
        exact Or.inr ⟨rfl, hp⟩
      · intro hp
        rcases hp with ⟨old, hold, -⟩ | ⟨-, hp⟩
        · cases hold
        · exact ⟨_, rfl, hp⟩
    · rw [hkept hn]
      exact ⟨Or.inl, fun hp => hp.resolve_right fun heq => hn heq.1⟩
  exact {
    bounded := fun n hn => by
      by_cases heq : n = s.created
      · rw [heq]
        exact Nat.lt_succ_self _
      · exact Nat.lt_succ_of_lt (h.bounded n (by rwa [← hkept heq]))
    held := fun n hn => by
      have hn : 0 < update s.refs s.created 1 n := hn
      by_cases heq : n = s.created
      · show update s.modules s.created _ n ≠ none
        rw [heq, Function.update_self]
        exact Option.some_ne_none _
      · rw [Function.update_of_ne heq] at hn
        exact hgrow (h.held n hn)
    pending := fun t n hon => hgrow (h.pending t n hon)
    count := fun n new hnew => by
      have hnew : update s.modules s.created (some ⟨1, id, result⟩) n = some new := hnew
      show new.refcount = update s.refs s.created 1 n ∧ update s.refs s.created 1 n < _
      by_cases heq : n = s.created
      · subst heq
        rw [Function.update_self] at hnew ⊢
        cases hnew
        exact ⟨rfl, by decide⟩
      · rw [Function.update_of_ne heq] at hnew ⊢
        exact h.count n new hnew
    unheld := fun n hn hzero => by
      have hzero : update s.refs s.created 1 n = 0 := hzero
      have hn : update s.modules s.created (some ⟨1, id, result⟩) n ≠ none := hn
      by_cases heq : n = s.created
      · rw [heq, Function.update_self] at hzero
        cases hzero
      · rw [Function.update_of_ne heq] at hzero
        rw [hkept heq] at hn
        exact h.unheld n hn hzero
    distinct := hdistinct
    registered := fun moduleId n =>
      (hregistered moduleId n).trans ((or_congr_left (h.registered moduleId n)).trans
        (hids n fun i => i = some moduleId).symm)
    anonymous := fun hassert => by
      obtain ⟨l, hnodup, hlength, hmem⟩ := h.anonymous hassert
      have hnew := hanonymous hassert
      by_cases hid : id = none
      · rw [if_pos hid] at hnew
        refine ⟨s.created :: l, List.nodup_cons.mpr ⟨fun hm => ?_, hnodup⟩, ?_, fun n => ?_⟩
        · obtain ⟨old, hold, -⟩ := (hmem _).mp hm
          rw [hnone] at hold
          cases hold
        · rw [List.length_cons, hlength]
          exact hnew.symm
        · rw [List.mem_cons, or_comm, hmem n, hids n fun i => i = none]
          exact or_congr_right ⟨fun heq => ⟨heq, hid⟩, And.left⟩
      · rw [if_neg hid] at hnew
        refine ⟨l, hnodup, hlength.trans hnew.symm, fun n => ?_⟩
        rw [hmem n, hids n fun i => i = none]
        exact ⟨Or.inl, fun hp => hp.resolve_right fun heq => hid heq.2⟩
    once := h.once
    destroyed := fun n => by
      rw [h.destroyed n]
      show _ ↔ n < s.created + 1 ∧ update s.modules s.created (some ⟨1, id, result⟩) n = none
      by_cases heq : n = s.created
      · rw [heq, Function.update_self]
        exact ⟨fun hlt => absurd hlt.1 (Nat.lt_irrefl _), fun hsome => nomatch hsome.2⟩
      · rw [hkept heq]
        exact and_congr_left' ⟨Nat.lt_succ_of_lt, fun hlt => Nat.lt_of_le_of_ne (Nat.lt_succ_iff.mp hlt) heq⟩
    freed := h.freed
    gone := fun hgone => by
      have hgone : s.alive = false := hgone
      rw [halive] at hgone
      cases hgone }

/-- The first reference of a new module. -/
theorem addRefs_new (h : SharedInv s) (id : Option ModuleId) (result : CodeAllocationData)
    (identifiedModules : List (ModuleId × ℕ)) :
    { s.newModule id result with identifiedModules := identifiedModules }.addRefs s.created 1 = .ok { s with
      created := s.created + 1
      modules := update s.modules s.created (some ⟨1, id, result⟩)
      refs := update s.refs s.created 1
      identifiedModules := identifiedModules } := by
  have hm : ({ s.newModule id result with identifiedModules := identifiedModules } :
      SharedCodeAllocator).modules s.created = some ⟨0, id, result⟩ := Function.update_self _ _ _
  unfold addRefs
  rw [access_some hm]
  show Except.ok _ = _
  have hone : (0 + 1) % 2 ^ sizeBits = 1 := by decide
  unfold newModule
  simp only [Function.update_idem, h.fresh.2, hone, Nat.zero_add]

theorem getOrInsertNativeModule_ok (h : SharedInv s) (halive : s.alive = true)
    (hroom : ∀ m, s.refs m + 1 < 2 ^ sizeBits) (result : CodeAllocationData) :
    ∃ r s', s.getOrInsertNativeModule moduleId result = .ok (r, s') ∧ SharedInv s' ∧
      ∀ m, r = some m → (moduleId, m) ∈ s'.identifiedModules := by
  obtain ⟨r, s₁, hlookup, hinv, hnone, hsome⟩ := lookup_ok h hroom
  unfold getOrInsertNativeModule
  rw [halive, check_ok (by decide), hlookup]
  cases r with
  | some m => exact ⟨some m, s₁, rfl, hinv, hsome⟩
  | none =>
    obtain ⟨rfl, hunregistered⟩ := hnone rfl
    by_cases hfailed : result.start = 0
    · refine ⟨none, s₁, ?_, hinv, nofun⟩
      show (if result.start = 0 then _ else _) = _
      rw [if_pos hfailed]
      rfl
    · refine ⟨some s₁.created, _, ?_, h.insert halive (some moduleId) result
        ((moduleId, s₁.created) :: s₁.identifiedModules) s₁.anonymousModuleCount ?_ ?_ ?_,
        fun m hm => by cases hm; exact List.mem_cons_self⟩
      · show (if result.start = 0 then _ else _) = _
        rw [if_neg hfailed]
        show (addRefs _ _ _ >>= _) = _
        rw [addRefs_new h (some moduleId) result]
        rfl
      · exact h.distinct.cons (getNone_iff.mpr hunregistered)
      · intro id m
        rw [List.mem_cons, or_comm, Prod.mk.injEq, Option.some.injEq]
        exact or_congr_right ⟨fun hid => ⟨hid.2, hid.1.symm⟩, fun hid => ⟨hid.2.symm, hid.1⟩⟩
      · intro _
        rw [if_neg (Option.some_ne_none _), Nat.add_zero]

theorem insertAnonymousNativeModule_ok (h : SharedInv s) (halive : s.alive = true)
    (hroom : ∀ l : List ℕ, l.Nodup → (∀ m ∈ l, s.modules m ≠ none) → l.length + 1 < 2 ^ sizeBits)
    (result : CodeAllocationData) :
    ∃ r s', s.insertAnonymousNativeModule result = .ok (r, s') ∧ SharedInv s' := by
  unfold insertAnonymousNativeModule
  rw [halive, check_ok (by decide)]
  by_cases hfailed : result.start = 0
  · refine ⟨none, s, ?_, h⟩
    show (if result.start = 0 then _ else _) = _
    rw [if_pos hfailed]
    rfl
  · refine ⟨some s.created, _, ?_, h.insert halive none result s.identifiedModules
      ((s.anonymousModuleCount + 1) % 2 ^ sizeBits) h.distinct ?_ ?_⟩
    · show (if result.start = 0 then _ else _) = _
      rw [if_neg hfailed]
      show (addRefs _ _ _ >>= _) = _
      have hadd := addRefs_new h none result s.identifiedModules
      rw [show s.newModule none result =
        { s.newModule none result with identifiedModules := s.identifiedModules } from rfl, hadd]
      rfl
    · exact fun id m => ⟨Or.inl, fun hid => hid.resolve_right fun heq => nomatch heq.2⟩
    · intro hassert
      obtain ⟨l, hnodup, hlength, hmem⟩ := h.anonymous hassert
      have hlt := hroom l hnodup fun m hm => by
        obtain ⟨old, hold, -⟩ := (hmem m).mp hm
        rw [hold]
        exact Option.some_ne_none _
      rw [if_pos rfl, Nat.mod_eq_of_lt (by omega)]

/-! ### Destruction -/

theorem destroy_eq (hm : s.modules m = some nativeModule) (hzero : nativeModule.refcount = 0) :
    s.destroy m = .ok { s with modules := update s.modules m none, destroyed := m :: s.destroyed } := by
  unfold destroy
  rw [access_some hm]
  show (if s.assertions = true ∧ nativeModule.refcount ≠ 0 then _ else _) = _
  rw [if_neg fun hbad => hbad.2 hzero]
  rfl

/-- A module without references goes, with the last release of it that is under way. -/
theorem SharedInv.destroy (h : SharedInv s) (hm : s.modules m = some nativeModule)
    (hzero : nativeModule.refcount = 0) (hon : (s.threads t).On m) (hlast : ∀ t', (s.threads t').On m → t' = t)
    (identifiedModules : List (ModuleId × ℕ)) (anonymousModuleCount : ℕ)
    (hdistinct : Association.Distinct Prod.fst identifiedModules)
    (hregistered : ∀ moduleId n, (moduleId, n) ∈ identifiedModules ↔
      (moduleId, n) ∈ s.identifiedModules ∧ n ≠ m)
    (hanonymous : s.assertions = true →
      anonymousModuleCount = s.anonymousModuleCount - if nativeModule.moduleId = none then 1 else 0) :
    SharedInv { s with
      modules := update s.modules m none
      threads := update s.threads t .idle
      identifiedModules := identifiedModules
      anonymousModuleCount := anonymousModuleCount
      deallocated := nativeModule.codeAllocationData :: s.deallocated
      destroyed := m :: s.destroyed } := by
  have hkept {n : ℕ} (hn : n ≠ m) : update s.modules m none n = s.modules n := Function.update_of_ne hn _ _
  have hof {n : ℕ} (hn : update s.modules m none n ≠ none) : n ≠ m := fun heq =>
    hn (heq ▸ Function.update_self _ _ _)
  have hids (n : ℕ) (P : Option ModuleId → Prop) :
      (∃ new, update s.modules m none n = some new ∧ P new.moduleId) ↔
        (∃ old, s.modules n = some old ∧ P old.moduleId) ∧ n ≠ m := by
    by_cases hn : n = m
    · rw [hn, Function.update_self]
      exact ⟨nofun, fun hne => absurd rfl hne.2⟩
    · rw [hkept hn]
      exact ⟨fun hold => ⟨hold, hn⟩, And.left⟩
  have hthreads {t' n : ℕ} (hn : n ≠ m) : (update s.threads t .idle t').On n ↔ (s.threads t').On n := by
    by_cases ht : t' = t
    · rw [ht, Function.update_self]
      refine ⟨False.elim, fun hon' => hn ?_⟩
      cases hrelease : s.threads t with
      | idle =>
        rw [hrelease] at hon
        exact hon.elim
      | dropped k =>
        rw [hrelease] at hon hon'
        exact hon'.symm.trans hon
      | erasing k =>
        rw [hrelease] at hon hon'
        exact hon'.symm.trans hon
    · rw [Function.update_of_ne ht]
  have hrefs : s.refs m = 0 := (h.count m nativeModule hm).1.symm.trans hzero
  exact {
    bounded := fun n hn => h.bounded n (by rwa [← hkept (hof hn)])
    held := fun n hn => by
      have hne : n ≠ m := fun heq => by
        have hn : 0 < s.refs n := hn
        rw [heq, hrefs] at hn
        exact Nat.lt_irrefl 0 hn
      exact (hkept hne).trans_ne (h.held n hn)
    pending := fun t' n hon' => by
      have hon'' : (update s.threads t .idle t').On n := hon'
      have hne : n ≠ m := fun heq => by
        subst heq
        by_cases ht : t' = t
        · rw [ht, Function.update_self] at hon''
          exact hon''
        · rw [Function.update_of_ne ht] at hon''
          exact ht (hlast t' hon'')
      exact (hkept hne).trans_ne (h.pending t' n ((hthreads hne).mp hon''))
    count := fun n new hnew => by
      have hne : n ≠ m := hof (ne_of_eq_of_ne hnew (Option.some_ne_none _))
      exact h.count n new ((hkept hne).symm.trans hnew)
    unheld := fun n hn hz => by
      have hne : n ≠ m := hof hn
      obtain ⟨t', hon'⟩ := h.unheld n (by rwa [← hkept hne]) hz
      exact ⟨t', (hthreads hne).mpr hon'⟩
    distinct := hdistinct
    registered := fun moduleId n => (hregistered moduleId n).trans
      ((and_congr_left' (h.registered moduleId n)).trans (hids n fun i => i = some moduleId).symm)
    anonymous := fun hassert => by
      obtain ⟨l, hnodup, hlength, hmem⟩ := h.anonymous hassert
      have hnew := hanonymous hassert
      refine ⟨l.erase m, hnodup.erase m, ?_, fun n => ?_⟩
      · show (l.erase m).length = anonymousModuleCount
        by_cases hid : nativeModule.moduleId = none
        · rw [if_pos hid] at hnew
          rw [List.length_erase_of_mem ((hmem m).mpr ⟨nativeModule, hm, hid⟩), hlength, hnew]
        · rw [if_neg hid] at hnew
          have hnot : m ∉ l := fun hml => by
            obtain ⟨old, hold, hnone⟩ := (hmem m).mp hml
            rw [hm] at hold
            cases hold
            exact hid hnone
          rw [List.erase_of_not_mem hnot, hlength, hnew, Nat.sub_zero]
      · rw [hnodup.mem_erase_iff, hmem n, and_comm]
        exact (hids n fun i => i = none).symm
    once := by
      refine List.nodup_cons.mpr ⟨fun hin => ?_, h.once⟩
      have hnone := ((h.destroyed m).mp hin).2
      rw [hm] at hnone
      cases hnone
    destroyed := fun n => by
      show n ∈ m :: s.destroyed ↔ n < s.created ∧ update s.modules m none n = none
      rw [List.mem_cons, h.destroyed n]
      by_cases hn : n = m
      · rw [hn, Function.update_self]
        exact ⟨fun _ => ⟨h.bounded m (by rw [hm]; exact Option.some_ne_none _), rfl⟩, fun _ => Or.inl rfl⟩
      · rw [hkept hn]
        exact or_iff_right hn
    freed := congrArg Nat.succ h.freed
    gone := fun hgone n => by
      have := h.gone hgone m
      rw [hm] at this
      cases this }

theorem SharedInv.alive_of (h : SharedInv s) (hm : s.modules m = some nativeModule) : s.alive = true := by
  cases halive : s.alive with
  | true => rfl
  | false =>
    have := h.gone halive m
    rw [hm] at this
    cases this

theorem eraseNativeModuleIfUnreferenced_ok (h : SharedInv s) (hon : s.threads t = .erasing m)
    (hlast : (SharedAct.eraseNativeModuleIfUnreferenced m).Last t s) :
    ∃ s', s.eraseNativeModuleIfUnreferenced t m = .ok s' ∧ SharedInv s' := by
  have hOn : (s.threads t).On m := by rw [hon]; exact rfl
  obtain ⟨nativeModule, hm⟩ := Option.ne_none_iff_exists'.mp (h.pending t m hOn)
  have halive : ¬(!s.alive) = true := by
    rw [h.alive_of hm]
    exact Bool.false_ne_true
  unfold eraseNativeModuleIfUnreferenced
  rw [check_ok halive, access_some hm]
  show ∃ s', (if nativeModule.refcount ≠ 0 then _ else _) = Except.ok s' ∧ _
  by_cases hzero : nativeModule.refcount = 0
  · rw [if_neg (not_not.mpr hzero)]
    have hlast := hlast nativeModule hm hzero
    cases hid : nativeModule.moduleId with
    | some moduleId =>
      have hreg : (moduleId, m) ∈ s.identifiedModules := (h.registered moduleId m).mpr ⟨nativeModule, hm, hid⟩
      have hget : Association.get Prod.fst s.identifiedModules moduleId = some (moduleId, m) :=
        (Association.get_some_iff h.distinct).mpr ⟨hreg, BEq.rfl⟩
      refine ⟨_, ?_, h.destroy hm hzero hOn hlast (Association.drop Prod.fst s.identifiedModules moduleId)
        s.anonymousModuleCount (h.distinct.drop moduleId) (fun id n => ?_) fun _ => ?_⟩
      · dsimp only
        rw [hget]
        exact destroy_eq (s := { s with
          threads := update s.threads t .idle
          deallocated := nativeModule.codeAllocationData :: s.deallocated
          identifiedModules := Association.drop Prod.fst s.identifiedModules moduleId }) hm hzero
      · unfold Association.drop
        rw [List.mem_filter]
        refine and_congr_right fun hn => ?_
        constructor
        · intro hne heq
          obtain ⟨old, hold, hidOld⟩ := (h.registered id n).mp hn
          rw [heq, hm] at hold
          cases hold
          rw [hid] at hidOld
          cases hidOld
          simp at hne
        · intro hne
          have hids : id ≠ moduleId := fun heq => by
            subst heq
            exact hne (congrArg Prod.snd (h.distinct.unique hn hreg BEq.rfl))
          simpa using hids
      · rw [hid, if_neg (Option.some_ne_none _), Nat.sub_zero]
    | none =>
      have hcount : s.assertions = true → s.anonymousModuleCount ≠ 0 := by
        intro hassert
        obtain ⟨l, -, hlength, hmem⟩ := h.anonymous hassert
        have hml : m ∈ l := (hmem m).mpr ⟨nativeModule, hm, hid⟩
        rw [← hlength]
        exact (List.length_pos_of_mem hml).ne'
      refine ⟨_, ?_, h.destroy hm hzero hOn hlast s.identifiedModules
        (if s.assertions then s.anonymousModuleCount - 1 else s.anonymousModuleCount) h.distinct
        (fun id n => ⟨fun hn => ⟨hn, fun heq => ?_⟩, And.left⟩) fun hassert => ?_⟩
      · show (if s.assertions = true ∧ s.anonymousModuleCount = 0 then _ else _) = _
        rw [if_neg fun hbad => hcount hbad.1 hbad.2]
        exact destroy_eq (s := { s with
          threads := update s.threads t .idle
          deallocated := nativeModule.codeAllocationData :: s.deallocated
          anonymousModuleCount :=
            if s.assertions then s.anonymousModuleCount - 1 else s.anonymousModuleCount }) hm hzero
      · obtain ⟨old, hold, hidOld⟩ := (h.registered id n).mp hn
        rw [heq, hm] at hold
        cases hold
        rw [hid] at hidOld
        cases hidOld
      · rw [if_pos hassert, if_pos hid]
  · rw [if_pos hzero]
    have hnot : s.refs m ≠ 0 := fun heq => hzero ((h.count m nativeModule hm).1.trans heq)
    refine ⟨{ s with threads := update s.threads t .idle }, rfl, { h with pending := ?_, unheld := ?_ }⟩
    · intro t' n hon'
      have hon' : (update s.threads t .idle t').On n := hon'
      by_cases ht : t' = t
      · rw [ht, Function.update_self] at hon'
        exact hon'.elim
      · rw [Function.update_of_ne ht] at hon'
        exact h.pending t' n hon'
    · intro n hn hz
      obtain ⟨t', hon'⟩ := h.unheld n hn hz
      refine ⟨t', ?_⟩
      show (update s.threads t .idle t').On n
      rw [Function.update_of_ne]
      · exact hon'
      · intro ht
        rw [ht, hon] at hon'
        have hon' : m = n := hon'
        exact hnot (hon' ▸ hz)

theorem destroyAllocator_ok (h : SharedInv s) (halive : s.alive = true) (hlast : ∀ m, s.modules m = none) :
    ∃ s', s.destroyAllocator = .ok s' ∧ SharedInv s' := by
  have hids : s.identifiedModules = [] := by
    apply List.eq_nil_iff_forall_not_mem.mpr
    intro ⟨moduleId, m⟩ hm
    obtain ⟨nativeModule, hsome, -⟩ := (h.registered moduleId m).mp hm
    rw [hlast m] at hsome
    cases hsome
  have hcount : s.assertions = true → s.anonymousModuleCount = 0 := by
    intro hassert
    obtain ⟨l, -, hlength, hmem⟩ := h.anonymous hassert
    cases l with
    | nil => exact hlength.symm
    | cons m l =>
      obtain ⟨nativeModule, hsome, -⟩ := (hmem m).mp List.mem_cons_self
      rw [hlast m] at hsome
      cases hsome
  refine ⟨{ s with alive := false, identifiedModules := [] }, ?_,
    { h with distinct := List.Pairwise.nil, registered := fun moduleId m => ?_, gone := fun _ => hlast }⟩
  · unfold destroyAllocator
    rw [halive, check_ok (by decide), check_ok fun hbad => hbad.2 hids,
      check_ok fun hbad => hbad.2 (hcount hbad.1), hids]
    rfl
  · rw [← h.registered moduleId m, hids]

end SharedCodeAllocator

end Luwu.Native
