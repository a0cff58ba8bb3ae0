import Luwu.Native.References

/-!
# Interleavings of references and releases

Any number of threads, in any order. A module that is destroyed while another release of it is under way is read
again by that release, so the runs that go well are those in which it never happens.
-/

namespace Luwu.Native

open Function (update)
open Run

namespace SharedCodeAllocator

/-- What users of shared modules rely on. -/
structure Sound (s : SharedCodeAllocator) : Prop where
  /-- No module is destroyed while there is a reference to it. -/
  held : ∀ m, 0 < s.refs m → s.modules m ≠ none
  /-- No thread is about to read a destroyed module. -/
  pending : ∀ t m, (s.threads t).On m → s.modules m ≠ none
  /-- A module is destroyed at most once, and one that is gone was. -/
  once : s.destroyed.Nodup ∧ ∀ m, m ∈ s.destroyed ↔ m < s.created ∧ s.modules m = none
  freed : s.deallocated.length = s.destroyed.length
  /-- When no release is under way, every module without references is destroyed. -/
  all : (∀ t, s.threads t = .idle) → ∀ m < s.created, s.refs m = 0 → m ∈ s.destroyed
  /-- A lookup returns a module that is registered under the id and not destroyed, with a new reference to it. -/
  lookup : s.alive = true → (∀ m, s.refs m + 1 < 2 ^ sizeBits) → ∀ moduleId,
    ∃ r s', s.tryGetNativeModule moduleId = .ok (r, s') ∧
      ∀ m, r = some m → (moduleId, m) ∈ s'.identifiedModules ∧
        ∃ nativeModule, s'.modules m = some nativeModule ∧ nativeModule.moduleId = some moduleId
  /-- The allocator outlives the modules. -/
  gone : s.alive = false → ∀ m, s.modules m = none

/-- Something is wrong that no later act mends. -/
def Broken (s : SharedCodeAllocator) : Prop :=
  (∃ t m, (s.threads t).On m ∧ m < s.created ∧ s.modules m = none) ∨
    (∃ m, 0 < s.refs m ∧ m < s.created ∧ s.modules m = none) ∨
    s.alive = false ∧ ∃ m, m < s.created ∧ s.modules m ≠ none

variable {s s' : SharedCodeAllocator} {m n t : ℕ} {act : SharedAct} {acts : List (ℕ × SharedAct)}

theorem tryGetNativeModule_ok (h : SharedInv s) (halive : s.alive = true)
    (hroom : ∀ m, s.refs m + 1 < 2 ^ sizeBits) (moduleId : ModuleId) :
    ∃ r s', s.tryGetNativeModule moduleId = .ok (r, s') ∧ SharedInv s' ∧
      ∀ m, r = some m → (moduleId, m) ∈ s'.identifiedModules := by
  obtain ⟨r, s', hrun, hinv, -, hsome⟩ := lookup_ok h hroom
  refine ⟨r, s', ?_, hinv, hsome⟩
  unfold tryGetNativeModule
  rw [check_ok (by rw [halive]; exact Bool.false_ne_true)]
  exact hrun

theorem SharedInv.sound (h : SharedInv s) : s.Sound where
  held := h.held
  pending := h.pending
  once := ⟨h.once, h.destroyed⟩
  freed := h.freed
  all := fun hidle m hm hrefs => by
    refine (h.destroyed m).mpr ⟨hm, ?_⟩
    by_contra hne
    obtain ⟨t, hon⟩ := h.unheld m hne hrefs
    rw [hidle t] at hon
    exact hon
  lookup := fun halive hroom moduleId => by
    obtain ⟨r, s', hrun, hinv, hsome⟩ := tryGetNativeModule_ok h halive hroom moduleId
    exact ⟨r, s', hrun, fun m hm => ⟨hsome m hm, (hinv.registered moduleId m).mp (hsome m hm)⟩⟩
  gone := h.gone

theorem Broken.not_sound (h : s.Broken) : ¬s.Sound := by
  intro hs
  rcases h with ⟨t, m, hon, -, hnone⟩ | ⟨m, hrefs, -, hnone⟩ | ⟨halive, m, -, hne⟩
  · exact hs.pending t m hon hnone
  · exact hs.held m hrefs hnone
  · exact hne (hs.gone halive m)

/-- One act, when it is the last release of a module that it destroys. -/
theorem step_ok (h : SharedInv s) (hallowed : act.Allowed t s) (hlast : act.Last t s) :
    ∃ s', act.step t s = .ok s' ∧ SharedInv s' := by
  cases act with
  | tryGetNativeModule moduleId =>
    obtain ⟨r, s', hrun, hinv, -⟩ := tryGetNativeModule_ok h hallowed.2.1 hallowed.2.2 moduleId
    exact ⟨s', by simp only [SharedAct.step, hrun]; rfl, hinv⟩
  | getOrInsertNativeModule moduleId result =>
    obtain ⟨r, s', hrun, hinv, -⟩ :=
      @getOrInsertNativeModule_ok _ moduleId h hallowed.2.1 hallowed.2.2 result
    exact ⟨s', by simp only [SharedAct.step, hrun]; rfl, hinv⟩
  | insertAnonymousNativeModule result =>
    obtain ⟨r, s', hrun, hinv⟩ := insertAnonymousNativeModule_ok h hallowed.2.1 hallowed.2.2 result
    exact ⟨s', by simp only [SharedAct.step, hrun]; rfl, hinv⟩
  | addRefs m count =>
    obtain ⟨s', hrun, hinv, -⟩ := addRefs_ok h (h.held m hallowed.2.1) hallowed.2.2
      (Nat.lt_of_lt_of_le hallowed.2.1 (Nat.le_add_right _ _))
    exact ⟨s', hrun, hinv⟩
  | use m =>
    obtain ⟨nativeModule, hm⟩ := Option.ne_none_iff_exists'.mp (h.held m hallowed.2)
    exact ⟨s, by simp only [SharedAct.step, access_some hm]; rfl, h⟩
  | release m => exact release_ok h hallowed.1 hallowed.2
  | readAllocator m => exact readAllocator_ok h hallowed
  | eraseNativeModuleIfUnreferenced m => exact eraseNativeModuleIfUnreferenced_ok h hallowed hlast
  | destroyAllocator => exact destroyAllocator_ok h hallowed.2 hlast

/-- What an act, allowed and without a fault, leaves as it was. -/
structure Kept (t : ℕ) (s s' : SharedCodeAllocator) : Prop where
  created : s.created ≤ s'.created
  destroyed : ∀ m < s.created, s.modules m = none → s'.modules m = none
  refs : ∀ m < s.created, s.modules m = none → s'.refs m = s.refs m
  threads : ∀ t' ≠ t, s'.threads t' = s.threads t'
  own : ∀ m, (s.threads t).On m → s.modules m ≠ none
  gone : s.alive = false → s'.alive = false ∧ ∀ m < s.created, s.modules m ≠ none → s'.modules m ≠ none

theorem Broken.kept (h : s.Broken) (hk : Kept t s s') : s'.Broken := by
  rcases h with ⟨t', m, hon, hlt, hnone⟩ | ⟨m, hrefs, hlt, hnone⟩ | ⟨halive, m, hlt, hne⟩
  · refine Or.inl ⟨t', m, ?_, hlt.trans_le hk.created, hk.destroyed m hlt hnone⟩
    rw [hk.threads]
    · exact hon
    · intro ht
      exact hk.own m (ht ▸ hon) hnone
  · exact Or.inr (Or.inl ⟨m, by rwa [hk.refs m hlt hnone], hlt.trans_le hk.created, hk.destroyed m hlt hnone⟩)
  · obtain ⟨hgone, hkept⟩ := hk.gone halive
    exact Or.inr (Or.inr ⟨hgone, m, hlt.trans_le hk.created, hkept m hlt hne⟩)

/-- An act on one module. -/
theorem Kept.touch {k : ℕ} (hk : s.modules k ≠ none ∨ s.created ≤ k) (hcreated : s.created ≤ s'.created)
    (hmodules : ∀ n, n ≠ k → s'.modules n = s.modules n) (hrefs : ∀ n, n ≠ k → s'.refs n = s.refs n)
    (hthreads : ∀ t' ≠ t, s'.threads t' = s.threads t') (hown : ∀ m, (s.threads t).On m → s.modules m ≠ none)
    (hgone : s.alive = false → s'.alive = false ∧ s'.modules k ≠ none) : Kept t s s' := by
  have hne {n : ℕ} (hlt : n < s.created) (hnone : s.modules n = none) : n ≠ k := by
    intro heq
    subst heq
    exact hk.elim (fun h => h hnone) fun h => absurd hlt (Nat.not_lt.mpr h)
  refine ⟨hcreated, fun n hlt hnone => ?_, fun n hlt hnone => hrefs n (hne hlt hnone), hthreads, hown,
    fun halive => ⟨(hgone halive).1, fun n _ hsome => ?_⟩⟩
  · rw [hmodules n (hne hlt hnone), hnone]
  · by_cases hnk : n = k
    · rw [hnk]
      exact (hgone halive).2
    · rwa [hmodules n hnk]

theorem on_idle (hidle : s.threads t = .idle) (m : ℕ) (hon : (s.threads t).On m) : s.modules m ≠ none := by
  rw [hidle] at hon
  exact hon.elim

theorem Kept.same (hown : ∀ m, (s.threads t).On m → s.modules m ≠ none) : Kept t s s :=
  ⟨le_rfl, fun _ _ hnone => hnone, fun _ _ _ => rfl, fun _ _ => rfl, hown, fun halive => ⟨halive, fun _ _ hne => hne⟩⟩

theorem addRefs_kept {count : ℕ} (hidle : s.threads t = .idle) (hrun : s.addRefs m count = .ok s') :
    Kept t s s' := by
  obtain ⟨nativeModule, hm, hret⟩ := of_bind_ok hrun
  have hm := of_access_ok hm
  cases hret
  refine Kept.touch (Or.inl (ne_of_eq_of_ne hm (Option.some_ne_none _))) le_rfl
    (fun n hn => Function.update_of_ne hn _ _) (fun n hn => Function.update_of_ne hn _ _) (fun _ _ => rfl)
    (on_idle hidle) fun halive => ⟨halive, ?_⟩
  show update s.modules m _ m ≠ none
  rw [Function.update_self]
  exact Option.some_ne_none _

theorem lookup_kept {moduleId : ModuleId} {r : Option ℕ} (hidle : s.threads t = .idle)
    (hrun : s.tryGetNativeModuleWithLockHeld moduleId = .ok (r, s')) :
    Kept t s s' ∧ (r = none → s' = s) := by
  unfold tryGetNativeModuleWithLockHeld at hrun
  split at hrun
  · cases hrun
    exact ⟨Kept.same (on_idle hidle), fun _ => rfl⟩
  · obtain ⟨s₁, hadd, hret⟩ := of_bind_ok hrun
    cases hret
    exact ⟨addRefs_kept hidle hadd, nofun⟩

theorem newModule_kept {id : Option ModuleId} {result : CodeAllocationData} {count : ℕ}
    {identifiedModules : List (ModuleId × ℕ)} (halive : s.alive = true) (hidle : s.threads t = .idle)
    (hrun : { s.newModule id result with identifiedModules := identifiedModules }.addRefs s.created count = .ok s') :
    Kept t s s' := by
  obtain ⟨nativeModule, hm, hret⟩ := of_bind_ok hrun
  cases hret
  refine Kept.touch (Or.inr le_rfl) (Nat.le_succ _) (fun n hn => ?_) (fun n hn => Function.update_of_ne hn _ _)
    (fun _ _ => rfl) (on_idle hidle) fun hgone => ?_
  · show update (update s.modules s.created _) s.created _ n = _
    rw [Function.update_of_ne hn, Function.update_of_ne hn]
  · rw [halive] at hgone
    cases hgone

theorem Kept.trans_count (hk : Kept t s s') (count : ℕ) : Kept t s { s' with anonymousModuleCount := count } :=
  ⟨hk.created, hk.destroyed, hk.refs, hk.threads, hk.own, hk.gone⟩

theorem release_kept (hidle : s.threads t = .idle) (hrun : s.release t m = .ok s') : Kept t s s' := by
  obtain ⟨nativeModule, hm, hret⟩ := of_bind_ok hrun
  have hm := of_access_ok hm
  cases hret
  refine Kept.touch (Or.inl (ne_of_eq_of_ne hm (Option.some_ne_none _))) le_rfl
    (fun n hn => Function.update_of_ne hn _ _) (fun n hn => Function.update_of_ne hn _ _)
    (fun _ ht => Function.update_of_ne ht _ _) (on_idle hidle) fun halive => ⟨halive, ?_⟩
  show update s.modules m _ m ≠ none
  rw [Function.update_self]
  exact Option.some_ne_none _

theorem of_destroy_ok (hrun : s.destroy m = .ok s') : s.modules m ≠ none ∧
    s' = { s with modules := update s.modules m none, destroyed := m :: s.destroyed } := by
  obtain ⟨nativeModule, hm, hrun⟩ := of_bind_ok hrun
  have hret := (of_check_ok hrun).2
  cases hret
  exact ⟨ne_of_eq_of_ne (of_access_ok hm) (Option.some_ne_none _), rfl⟩

/-- The module that the section under the lock destroys for a module. -/
def Erased (s : SharedCodeAllocator) (m : ℕ) (nativeModule : NativeModule) (found : ℕ) : Prop :=
  match nativeModule.moduleId with
  | some moduleId => ∃ x, Association.get Prod.fst s.identifiedModules moduleId = some x ∧ found = x.2
  | none => found = m

theorem erase_cases (hrun : s.eraseNativeModuleIfUnreferenced t m = .ok s') :
    s.alive = true ∧ ∃ nativeModule, s.modules m = some nativeModule ∧
      (s'.created = s.created ∧ s'.refs = s.refs ∧ s'.threads = update s.threads t .idle) ∧
      (nativeModule.refcount ≠ 0 ∧ s'.modules = s.modules ∨
        nativeModule.refcount = 0 ∧ ∃ found, s.modules found ≠ none ∧ s'.modules = update s.modules found none ∧
          s.Erased m nativeModule found) := by
  unfold eraseNativeModuleIfUnreferenced at hrun
  obtain ⟨halive, hrun⟩ := of_check_ok hrun
  obtain ⟨nativeModule, hm, hrun⟩ := of_bind_ok hrun
  refine ⟨by simpa using halive, nativeModule, of_access_ok hm, ?_⟩
  have hrun : (if nativeModule.refcount ≠ 0 then _ else _) = Except.ok s' := hrun
  by_cases hzero : nativeModule.refcount = 0
  · rw [if_neg (not_not.mpr hzero)] at hrun
    cases hid : nativeModule.moduleId with
    | some moduleId =>
      rw [hid] at hrun
      dsimp only at hrun
      cases hget : Association.get Prod.fst s.identifiedModules moduleId with
      | none =>
        rw [hget] at hrun
        cases hrun
      | some x =>
        rw [hget] at hrun
        obtain ⟨hfound, rfl⟩ := of_destroy_ok hrun
        refine ⟨⟨rfl, rfl, rfl⟩, Or.inr ⟨hzero, x.2, hfound, rfl, ?_⟩⟩
        unfold Erased
        rw [hid]
        exact ⟨x, hget, rfl⟩
    | none =>
      rw [hid] at hrun
      obtain ⟨-, hrun⟩ := of_check_ok hrun
      obtain ⟨hfound, rfl⟩ := of_destroy_ok hrun
      refine ⟨⟨rfl, rfl, rfl⟩, Or.inr ⟨hzero, m, hfound, rfl, ?_⟩⟩
      unfold Erased
      rw [hid]
  · rw [if_pos hzero] at hrun
    cases hrun
    exact ⟨⟨rfl, rfl, rfl⟩, Or.inl ⟨hzero, rfl⟩⟩

theorem erase_kept (hon : s.threads t = .erasing m) (hrun : s.eraseNativeModuleIfUnreferenced t m = .ok s') :
    Kept t s s' := by
  obtain ⟨halive, nativeModule, hm, ⟨hcreated, hrefs, hthreads⟩, hmodules⟩ := erase_cases hrun
  have hsome : s.modules m ≠ none := ne_of_eq_of_ne hm (Option.some_ne_none _)
  have hown : ∀ n, (s.threads t).On n → s.modules n ≠ none := by
    intro n hn
    rw [hon] at hn
    have hn : m = n := hn
    rwa [← hn]
  have hother : ∀ t' ≠ t, s'.threads t' = s.threads t' := fun t' ht => by
    rw [hthreads, Function.update_of_ne ht]
  have hgone {P : Prop} (h : s.alive = false) : P := by
    rw [halive] at h
    cases h
  rcases hmodules with ⟨-, hmodules⟩ | ⟨-, found, hfound, hmodules, -⟩
  · exact Kept.touch (Or.inl hsome) hcreated.ge (fun n _ => by rw [hmodules]) (fun n _ => by rw [hrefs]) hother hown hgone
  · exact Kept.touch (Or.inl hfound) hcreated.ge (fun n hn => by rw [hmodules, Function.update_of_ne hn])
      (fun n _ => by rw [hrefs]) hother hown hgone

/-- The registered modules go, the others stay. -/
theorem destroyAll_cases {l : List (ModuleId × ℕ)} (hrun : destroyAll l s = .ok s') :
    (s'.created = s.created ∧ s'.refs = s.refs ∧ s'.threads = s.threads) ∧
      ∀ n, s'.modules n = if n ∈ l.map Prod.snd then none else s.modules n := by
  induction l generalizing s with
  | nil =>
    cases hrun
    exact ⟨⟨rfl, rfl, rfl⟩, fun n => rfl⟩
  | cons x l ih =>
    obtain ⟨s₁, hdestroy, hrun⟩ := of_bind_ok hrun
    obtain ⟨-, rfl⟩ := of_destroy_ok hdestroy
    obtain ⟨hsame, hmodules⟩ := ih hrun
    refine ⟨hsame, fun n => ?_⟩
    rw [hmodules n, List.map_cons]
    by_cases hn : n = x.2
    · subst hn
      rw [if_pos List.mem_cons_self]
      show (if _ then none else update s.modules x.2 none x.2) = none
      rw [Function.update_self, ite_self]
    · show (if _ then none else update s.modules x.2 none n) = _
      rw [Function.update_of_ne hn]
      simp only [List.mem_cons, hn, false_or]

theorem destroyAllocator_cases (hrun : s.destroyAllocator = .ok s') :
    s.alive = true ∧ s'.alive = false ∧ (s'.created = s.created ∧ s'.refs = s.refs ∧ s'.threads = s.threads) ∧
      ∀ n, s'.modules n = if n ∈ s.identifiedModules.map Prod.snd then none else s.modules n := by
  unfold destroyAllocator at hrun
  obtain ⟨halive, hrun⟩ := of_check_ok hrun
  obtain ⟨-, hrun⟩ := of_check_ok hrun
  obtain ⟨-, hrun⟩ := of_check_ok hrun
  obtain ⟨s₁, hall, hret⟩ := of_bind_ok hrun
  obtain ⟨hsame, hmodules⟩ := destroyAll_cases hall
  cases hret
  exact ⟨by simpa using halive, rfl, hsame, hmodules⟩

theorem step_kept (hallowed : act.Allowed t s) (hrun : act.step t s = .ok s') : Kept t s s' := by
  cases act with
  | tryGetNativeModule moduleId =>
    obtain ⟨⟨r, s₁⟩, hget, rfl⟩ := of_map_ok hrun
    unfold tryGetNativeModule at hget
    obtain ⟨-, hlookup⟩ := of_check_ok hget
    exact (lookup_kept hallowed.1 hlookup).1
  | getOrInsertNativeModule moduleId result =>
    obtain ⟨⟨r, s₁⟩, hget, rfl⟩ := of_map_ok hrun
    unfold getOrInsertNativeModule at hget
    obtain ⟨-, hget⟩ := of_check_ok hget
    obtain ⟨⟨r', s₂⟩, hlookup, hget⟩ := of_bind_ok hget
    obtain ⟨hkept, hnone⟩ := lookup_kept (t := t) hallowed.1 hlookup
    cases r' with
    | some m =>
      cases hget
      exact hkept
    | none =>
      cases hnone rfl
      have hget : (if result.start = 0 then _ else _) = Except.ok (r, s₁) := hget
      split at hget
      · cases hget
        exact hkept
      · obtain ⟨s₃, hadd, hret⟩ := of_bind_ok hget
        cases hret
        exact newModule_kept hallowed.2.1 hallowed.1 hadd
  | insertAnonymousNativeModule result =>
    obtain ⟨⟨r, s₁⟩, hget, rfl⟩ := of_map_ok hrun
    unfold insertAnonymousNativeModule at hget
    obtain ⟨-, hget⟩ := of_check_ok hget
    have hget : (if result.start = 0 then _ else _) = Except.ok (r, s₁) := hget
    split at hget
    · cases hget
      exact Kept.same (on_idle hallowed.1)
    · obtain ⟨s₃, hadd, hret⟩ := of_bind_ok hget
      cases hret
      have hadd : { s.newModule none result with identifiedModules := s.identifiedModules }.addRefs s.created 1 =
        .ok s₃ := hadd
      exact (newModule_kept hallowed.2.1 hallowed.1 hadd).trans_count _
  | addRefs m count => exact addRefs_kept hallowed.1 hrun
  | use m =>
    obtain ⟨nativeModule, -, hret⟩ := of_bind_ok hrun
    cases hret
    exact Kept.same (on_idle hallowed.1)
  | release m => exact release_kept hallowed.1 hrun
  | readAllocator m =>
    obtain ⟨nativeModule, hm, hret⟩ := of_bind_ok hrun
    have hsome : s.modules m ≠ none := ne_of_eq_of_ne (of_access_ok hm) (Option.some_ne_none _)
    cases hret
    refine Kept.touch (Or.inl hsome) le_rfl (fun _ _ => rfl) (fun _ _ => rfl)
      (fun _ ht => Function.update_of_ne ht _ _) (fun n hn => ?_) fun halive => ⟨halive, hsome⟩
    have hallowed : s.threads t = .dropped m := hallowed
    rw [hallowed] at hn
    have hn : m = n := hn
    rwa [← hn]
  | eraseNativeModuleIfUnreferenced m => exact erase_kept hallowed hrun
  | destroyAllocator =>
    obtain ⟨halive, -, ⟨hcreated, hrefs, hthreads⟩, hmodules⟩ := destroyAllocator_cases hrun
    refine ⟨hcreated.ge, fun n _ hnone => ?_, fun n _ _ => by rw [hrefs], fun t' _ => by rw [hthreads],
      on_idle hallowed.1, fun hgone => ?_⟩
    · rw [hmodules n, hnone, ite_self]
    · rw [halive] at hgone
      cases hgone

/-- An act that is not the last release breaks something, if it does not fail at once. -/
theorem broken_of_not_last (h : SharedInv s) (hlast : ¬act.Last t s) (hallowed : act.Allowed t s)
    (hrun : act.step t s = .ok s') : s'.Broken := by
  cases act with
  | eraseNativeModuleIfUnreferenced m =>
    have hlast : ¬∀ nativeModule, s.modules m = some nativeModule → nativeModule.refcount = 0 →
      ∀ t', (s.threads t').On m → t' = t := hlast
    push Not at hlast
    obtain ⟨nativeModule, hm, hzero, t', hon, hne⟩ := hlast
    obtain ⟨-, nativeModule', hm', ⟨hcreated, -, hthreads⟩, hmodules⟩ := erase_cases hrun
    rw [hm] at hm'
    cases hm'
    obtain ⟨-, found, -, hmodules, hfound⟩ := hmodules.resolve_left fun hneg => hneg.1 hzero
    have hfoundEq : found = m := by
      unfold Erased at hfound
      split at hfound
      · next moduleId hid =>
        obtain ⟨x, hget, rfl⟩ := hfound
        have hreg : (moduleId, m) ∈ s.identifiedModules := (h.registered moduleId m).mpr ⟨nativeModule, hm, hid⟩
        have hmem := (get_mem h hget).2
        exact congrArg Prod.snd (h.distinct.unique hmem hreg BEq.rfl)
      · exact hfound
    refine Or.inl ⟨t', m, ?_, ?_, ?_⟩
    · rw [hthreads, Function.update_of_ne hne]
      exact hon
    · rw [hcreated]
      exact h.bounded m (ne_of_eq_of_ne hm (Option.some_ne_none _))
    · rw [hmodules, hfoundEq, Function.update_self]
  | destroyAllocator =>
    have hlast : ¬∀ m, s.modules m = none := hlast
    push Not at hlast
    obtain ⟨m, hm⟩ := hlast
    have hlt := h.bounded m hm
    obtain ⟨-, halive, ⟨hcreated, hrefs, hthreads⟩, hmodules⟩ := destroyAllocator_cases hrun
    by_cases hin : m ∈ s.identifiedModules.map Prod.snd
    · have hnone : s'.modules m = none := by rw [hmodules m, if_pos hin]
      rcases Nat.eq_zero_or_pos (s.refs m) with hzero | hpos
      · obtain ⟨t', hon⟩ := h.unheld m hm hzero
        exact Or.inl ⟨t', m, by rwa [hthreads], by rwa [hcreated], hnone⟩
      · exact Or.inr (Or.inl ⟨m, by rwa [hrefs], by rwa [hcreated], hnone⟩)
    · refine Or.inr (Or.inr ⟨halive, m, by rwa [hcreated], ?_⟩)
      rwa [hmodules m, if_neg hin]
  | _ => exact absurd trivial hlast

end SharedCodeAllocator

namespace SharedAct

/-- Every act that destroys a module is the last release of it under way, and the allocator goes last. -/
def Lasts : List (ℕ × SharedAct) → SharedCodeAllocator → Prop
  | [], _ => True
  | (t, act) :: acts, s => act.Last t s ∧ ∀ s', act.step t s = .ok s' → Lasts acts s'

variable {s s' : SharedCodeAllocator} {acts : List (ℕ × SharedAct)}

open SharedCodeAllocator

theorem broken_run (h : s.Broken) (hpossible : Possible acts s) (hrun : run acts s = .ok s') : s'.Broken := by
  induction acts generalizing s with
  | nil =>
    cases hrun
    exact h
  | cons x acts ih =>
    unfold run at hrun
    split at hrun
    · next s₁ hstep =>
      exact ih (h.kept (step_kept hpossible.1 hstep)) (hpossible.2 s₁ hstep) hrun
    · cases hrun

theorem run_iff (h : SharedInv s) (hpossible : Possible acts s) :
    (∃ s', run acts s = .ok s' ∧ s'.Sound) ↔ Lasts acts s := by
  induction acts generalizing s with
  | nil => exact ⟨fun _ => trivial, fun _ => ⟨s, rfl, h.sound⟩⟩
  | cons x acts ih =>
    obtain ⟨t, act⟩ := x
    by_cases hlast : act.Last t s
    · obtain ⟨s₁, hstep, hinv⟩ := step_ok h hpossible.1 hlast
      have hrun : run ((t, act) :: acts) s = run acts s₁ := by simp only [run, hstep]
      rw [hrun, ih hinv (hpossible.2 s₁ hstep)]
      constructor
      · intro hlasts
        refine ⟨hlast, fun s₂ hstep₂ => ?_⟩
        rw [hstep] at hstep₂
        cases hstep₂
        exact hlasts
      · exact fun hlasts => hlasts.2 s₁ hstep
    · refine ⟨fun ⟨s₂, hrun, hsound⟩ => ?_, fun hlasts => absurd hlasts.1 hlast⟩
      unfold run at hrun
      split at hrun
      · next s₁ hstep =>
        have hbroken := broken_of_not_last h hlast hpossible.1 hstep
        exact absurd hsound (broken_run hbroken (hpossible.2 s₁ hstep) hrun).not_sound
      · cases hrun

/-- **A run of any threads goes well exactly when no module is destroyed under a release that is under way.** -/
theorem shared_runs (assertions : Bool) (hpossible : Possible acts (start assertions)) :
    (∃ s, run acts (start assertions) = .ok s ∧ s.Sound) ↔ Lasts acts (start assertions) :=
  run_iff (start_inv assertions) hpossible

def sharedId : ModuleId := Vector.replicate 16 0

def sharedCode : CodeAllocationData := ⟨4096, 16, 4096, 4096, 4096⟩

/-- One thread makes a module and drops it, and the allocator goes after it. -/
def dropped : List (ℕ × SharedAct) :=
  [(0, .getOrInsertNativeModule sharedId sharedCode), (0, .release 0), (0, .readAllocator 0),
    (0, .eraseNativeModuleIfUnreferenced 0), (1, .destroyAllocator)]

/-- The second thread takes the module and drops it again while the first is on its way to the lock. -/
def revived : List (ℕ × SharedAct) :=
  [(0, .getOrInsertNativeModule sharedId sharedCode), (0, .release 0), (1, .tryGetNativeModule sharedId),
    (1, .release 0), (0, .readAllocator 0), (0, .eraseNativeModuleIfUnreferenced 0), (1, .readAllocator 0)]

theorem room_of_others {k : ℕ} (hk : s.refs k + 1 < 2 ^ sizeBits) (h : ∀ m, m ≠ k → s.refs m = 0) (m : ℕ) :
    s.refs m + 1 < 2 ^ sizeBits := by
  by_cases hm : m = k
  · rw [hm]
    exact hk
  · rw [h m hm]
    decide

theorem dropped_possible : Possible dropped (start true) := by
  refine ⟨⟨rfl, rfl, room_of_others (k := 0) (by decide) fun _ _ => rfl⟩, fun s₁ h₁ => ?_⟩
  cases h₁
  refine ⟨⟨rfl, by decide⟩, fun s₂ h₂ => ?_⟩
  cases h₂
  refine ⟨rfl, fun s₃ h₃ => ?_⟩
  cases h₃
  refine ⟨rfl, fun s₄ h₄ => ?_⟩
  cases h₄
  exact ⟨⟨rfl, rfl⟩, fun _ _ => trivial⟩

theorem idle_not_on {r : Release} (h : r = .idle) (m : ℕ) : ¬r.On m := by
  rw [h]
  exact id

theorem dropped_lasts : Lasts dropped (start true) := by
  have hother {α : Type} {f : ℕ → α} {k n : ℕ} {c a : α} (hn : n ≠ k) (hf : f n = a) : update f k c n = a := by
    rw [Function.update_of_ne hn, hf]
  refine ⟨trivial, fun s₁ h₁ => ?_⟩
  cases h₁
  refine ⟨trivial, fun s₂ h₂ => ?_⟩
  cases h₂
  refine ⟨trivial, fun s₃ h₃ => ?_⟩
  cases h₃
  refine ⟨fun _ _ _ t' hon => ?_, fun s₄ h₄ => ?_⟩
  · by_contra ht
    exact idle_not_on (hother ht (hother ht rfl)) 0 hon
  · cases h₄
    refine ⟨fun m => ?_, fun _ _ => trivial⟩
    by_cases hm : m = 0
    · rw [hm]
      rfl
    · exact hother hm (hother hm (hother hm (hother hm rfl)))

theorem shared_runs_sample : ∃ s, run dropped (start true) = .ok s ∧ s.Sound :=
  (shared_runs true dropped_possible).mpr dropped_lasts

theorem revived_possible : Possible revived (start true) := by
  have hother {f : ℕ → ℕ} {k c m : ℕ} (hm : m ≠ k) (hf : f m = 0) : update f k c m = 0 := by
    rw [Function.update_of_ne hm, hf]
  refine ⟨⟨rfl, rfl, room_of_others (k := 0) (by decide) fun _ _ => rfl⟩, fun s₁ h₁ => ?_⟩
  cases h₁
  refine ⟨⟨rfl, by decide⟩, fun s₂ h₂ => ?_⟩
  cases h₂
  refine ⟨⟨rfl, rfl, room_of_others (k := 0) (by decide) fun m hm => hother hm (hother hm rfl)⟩, fun s₃ h₃ => ?_⟩
  cases h₃
  refine ⟨⟨rfl, by decide⟩, fun s₄ h₄ => ?_⟩
  cases h₄
  refine ⟨rfl, fun s₅ h₅ => ?_⟩
  cases h₅
  refine ⟨rfl, fun s₆ h₆ => ?_⟩
  cases h₆
  exact ⟨rfl, fun _ _ => trivial⟩

/-- The second release reads a module that the first destroyed. -/
theorem shared_revived : Possible revived (start true) ∧ run revived (start true) = .error (.moduleGone 0) :=
  ⟨revived_possible, rfl⟩

end SharedAct

end Luwu.Native
