import Luwu.Require.Chains

/-!
# What navigation does

Navigation ends for every path. A chain of aliases is followed to its end, or reported as a cycle where it comes back
to one of its aliases, exactly when all of its mentions are plain.
-/

namespace Luwu.Require

open Run Fuel

section Navigation

variable {σ : Type} {C : NavigationContext σ} {depth : σ → ℕ} {selfIsSelf : Bool} {path : Text} {pos : σ}

/-- The alias that a path begins with is resolved at `x`. -/
structure Enters (C : NavigationContext σ) (selfIsSelf : Bool) (path : Text) (pos : σ) (x : σ × Text) : Prop where
  aliased : getPathType path = .aliased
  name : x.2 = toLower (extractAlias path)
  notSelf : ¬(selfIsSelf ∧ x.2 = "self".toList)
  start : ∃ p, C.resetToRequirer pos = (.success, p) ∧ (C.toAliasOverride x.2 p).1 = .notFound ∧ Found C x.2 p x.1

/-- Every alias of the chain was resolved where it is defined, one after another, and where the last one has a path of
its own this path was taken, and then the rest of every path before it. -/
def Follows (C : NavigationContext σ) (path : Text) (l : List (σ × Text)) (z : σ × Text)
    (r : Status × NavState σ) : Prop :=
  l ++ [z] <+: r.2.resolved ∧
    ∀ value, definesAt C z.1 z.2 = some value → getPathType value ≠ .aliased →
      report ((arrive C value >>= fun _ => walkBack C l >>= fun _ => navigateThroughPath C path) ⟨z.1, l ++ [z]⟩) =
        some r

/-- Every alias of the chain was resolved, and the last one was reported to close a cycle. -/
def ReportsCycle (l : List (σ × Text)) (z : σ × Text) (r : Status × NavState σ) : Prop :=
  l ++ [z] <+: r.2.resolved ∧ ∃ ordered, z.2 ∈ ordered ∧ r.1 = .errorReported (NavError.cycle ordered z.2).text

theorem enters_search {x : σ × Text} (hC : FiniteAncestry C depth) (h : Enters C selfIsSelf path pos x) :
    ∃ config, Holds C x.1 config x.2 ∧
      ∀ r, Settles (fun k => navigateToAlias C k x.2 config .empty) ⟨x.1, []⟩ r →
        Settles (fun k => navigateImpl C selfIsSelf k path) ⟨pos, []⟩ (after r (navigateThroughPath C path)) := by
  obtain ⟨p, hreset, hover, hfound⟩ := h.start
  have hlower : toLower x.2 = x.2 := by
    rw [h.name]
    exact toLower_idem _
  obtain ⟨config, hholds, hsearch⟩ := search_found hlower hfound [] (not_contains_empty _)
  refine ⟨config, hholds, fun r hr => ?_⟩
  have hresetRun : resetToRequirer C ⟨pos, []⟩ = .ok () ⟨p, []⟩ := by
    have hmove : move C.resetToRequirer (⟨pos, []⟩ : NavState σ) = .ok .success ⟨p, []⟩ := by
      show EStateM.Result.ok (C.resetToRequirer pos).1 (⟨(C.resetToRequirer pos).2, []⟩ : NavState σ) = _
      rw [hreset]
    unfold resetToRequirer moveOr
    rw [run_bind, hmove]
    rfl
  have hoverRun : toAliasOverride C x.2 ⟨p, []⟩ = .ok false ⟨p, []⟩ := by
    rw [override_run]
    match hmove : C.toAliasOverride x.2 p, hover with
    | (.notFound, p'), _ =>
      obtain rfl : p' = p := hC.override _ _ _ hmove
      rfl
  have himpl : ∀ k, navigateImpl C selfIsSelf k path ⟨pos, []⟩ =
      (navigateToAndPopulateConfig C k x.2 .empty >>= fun config =>
        if config.contains x.2 then navigateToAlias C k x.2 config .empty >>= fun _ => navigateThroughPath C path
        else if !selfIsSelf ∧ x.2 = "self".toList then
          resetToRequirer C >>= fun _ => navigateThroughPath C path
        else toAliasFallback C x.2 >>= fun _ => navigateThroughPath C path) ⟨p, []⟩ := by
    intro k
    conv_lhs => unfold navigateImpl
    rw [h.aliased]
    simp only [← h.name]
    rw [run_bind, hresetRun]
    simp only [if_neg h.notSelf]
    rw [run_bind, hoverRun]
    rfl
  have hsettles := hsearch.bind_ok (f := fun k config =>
    if config.contains x.2 then navigateToAlias C k x.2 config .empty >>= fun _ => navigateThroughPath C path
    else if !selfIsSelf ∧ x.2 = "self".toList then resetToRequirer C >>= fun _ => navigateThroughPath C path
    else toAliasFallback C x.2 >>= fun _ => navigateThroughPath C path) (q := after r (navigateThroughPath C path)) (by
      simp only [hholds.contains, if_true]
      exact settles_after hr _)
  obtain ⟨n, hn⟩ := hsettles
  refine ⟨n, fun k hk => ?_⟩
  show navigateImpl C selfIsSelf k path ⟨pos, []⟩ = _
  rw [himpl k]
  exact hn k hk

theorem report_of_returns {r : Status × NavState σ} {q : EStateM.Result NavStop (NavState σ) Unit}
    (h : Returns C selfIsSelf path pos r)
    (hq : Settles (fun k => navigateImpl C selfIsSelf k (normalize path)) ⟨pos, []⟩ q) : report q = some r := by
  obtain ⟨n, hn⟩ := h
  obtain ⟨m, hm⟩ := hq
  have hrun : navigateImpl C selfIsSelf (n + m) (normalize path) ⟨pos, []⟩ = q := hm (n + m) (by omega)
  rw [← hrun, ← navigate_eq, hn (n + m) (by omega)]

theorem report_resolved {r : Status × NavState σ} {q : EStateM.Result NavStop (NavState σ) Unit}
    (h : report q = some r) : r.2.resolved = (finalState q).resolved := by
  match q with
  | .ok _ s =>
    cases h
    rfl
  | .error (.error e) s =>
    cases h
    rfl
  | .error .outOfFuel s => cases h

theorem Chain.links {l : List (σ × Text)} {z y : σ × Text} (h : Chain C (l ++ [z])) (hy : y ∈ l) :
    ∃ value, definesAt C y.1 y.2 = some value ∧ getPathType value = .aliased := by
  induction l with
  | nil => exact absurd hy List.not_mem_nil
  | cons w l ih =>
    obtain ⟨y', rest, -, hlink, hchain⟩ := Chain.first h
    rcases List.mem_cons.mp hy with rfl | hy
    · cases hlink with
      | within hdef htype => exact ⟨_, hdef, htype⟩
      | above hdef htype => exact ⟨_, hdef, htype⟩
    · exact ih hchain hy

/-- **Navigation** ends, with success at a position or with an error. A chain of aliases is followed to its end, and
one that comes back to one of its aliases is reported as a cycle, exactly when every mention on it is plain. -/
theorem navigation (hC : FiniteAncestry C depth) (selfIsSelf : Bool) (path : Text) (pos : σ) :
    (∃ r, Returns C selfIsSelf path pos r) ∧
      ∀ l x z r, Chain C (l ++ [z]) → l.Nodup → (l ++ [z]).head? = some x →
        Enters C selfIsSelf (normalize path) pos x → Returns C selfIsSelf path pos r →
          (Follows C (normalize path) l z r ↔ ∀ y ∈ l, Plain C y) ∧
            (z ∈ l → (ReportsCycle l z r ↔ ∀ y ∈ l, Plain C y)) := by
  refine ⟨navigate_returns hC selfIsSelf path pos, ?_⟩
  intro l x z r hchain hnodup hhead henters hreturns
  obtain ⟨config, hholds, himpl⟩ := enters_search hC henters
  have hseen : ∀ y ∈ l, y.1 = x.1 → y.2 ∉ AliasCycleTracker.empty.seen := fun _ _ _ => List.not_mem_nil
  obtain ⟨q, hq, -⟩ := alias_halts hC x.2 config .empty ⟨x.1, []⟩ hholds.contains
  have hreport := report_of_returns hreturns (himpl q hq)
  have hresolved : r.2.resolved = (finalState q).resolved := by
    rw [report_resolved hreport, after_resolved _ (Quiet.navigateThroughPath _)]
  have hvisits : l ++ [z] <+: r.2.resolved ↔ ∀ y ∈ l, Plain C y := by
    rw [hresolved]
    exact chain_visits (s := ⟨x.1, []⟩) hC hchain hhead rfl hnodup hholds hseen hq
  refine ⟨⟨fun h => hvisits.mp h.1, fun hplain => ⟨hvisits.mpr hplain, ?_⟩⟩, fun hback =>
    ⟨fun h => hvisits.mp h.1, fun hplain => ⟨hvisits.mpr hplain, ?_⟩⟩⟩
  · intro value hvalue htype
    have hfollow := chain_follows (s := ⟨x.1, []⟩) hC hchain hhead rfl hnodup hholds hseen hplain hvalue htype
    have hend := report_of_returns hreturns (himpl _ hfollow)
    rw [← after_run, bind_assoc] at hend
    exact hend
  · obtain ⟨value, hvalue, htype⟩ := Chain.links hchain hback
    obtain ⟨ordered, s', hcycle, hmem⟩ := chain_cycle (s := ⟨x.1, []⟩) hC hchain hhead rfl hnodup hholds hseen hplain
      hvalue htype (fun _ h => h) (Or.inl hback) hq
    rw [hcycle] at hreport
    cases hreport
    exact ⟨ordered, hmem, rfl⟩

end Navigation

section Sample

/-- Three nested directories, the innermost of which requires, and a configuration file in the second. -/
def directories (file : ConfigFile) : NavigationContext ℕ where
  resetToRequirer := fun _ => (.success, 2)
  jumpToAlias := fun _ p => (.notFound, p)
  toAliasOverride := fun _ p => (.notFound, p)
  toAliasFallback := fun _ p => (.notFound, p)
  toParent := fun p => match p with
    | 0 => (.notFound, 0)
    | p + 1 => (.success, p)
  toChild := fun _ p => (.success, p)
  getConfigStatus := fun p => if p = 1 then .presentJson else .absent
  getConfigBehavior := fun _ => .getConfig
  getAlias := fun _ _ => none
  getConfig := fun p => if p = 1 then some file else none

theorem directories_finite (file : ConfigFile) : FiniteAncestry (directories file) id where
  parent := by
    intro p p' h
    cases p with
    | zero => cases h
    | succ p =>
      cases h
      exact Nat.lt_succ_self p'
  override := by
    intro name p p' h
    cases h
    rfl

def chainedFile : ConfigFile := ⟨[("foo".toList, "@bar".toList), ("bar".toList, "./x".toList)], none⟩

def mixedCaseFile : ConfigFile := ⟨[("foo".toList, "@FOO".toList)], none⟩

theorem enters_directories (file : ConfigFile) (h : (definesAt (directories file) 1 "foo".toList).isSome) :
    Enters (directories file) false (normalize "@foo".toList) 2 (1, "foo".toList) where
  aliased := rfl
  name := rfl
  notSelf := fun hself => absurd hself.1 Bool.false_ne_true
  start := ⟨2, rfl, rfl, .parent rfl h⟩

theorem navigation_sample :
    ∃ r, Returns (directories chainedFile) false "@foo".toList 2 r ∧
      Follows (directories chainedFile) (normalize "@foo".toList) [(1, "foo".toList)] (1, "bar".toList) r := by
  obtain ⟨⟨r, hr⟩, hchains⟩ := navigation (directories_finite chainedFile) false "@foo".toList 2
  have hlink : Link (directories chainedFile) (1, "foo".toList) (1, "bar".toList) :=
    @Link.within _ (directories chainedFile) 1 "foo".toList "@bar".toList rfl rfl rfl rfl
  have hchain : Chain (directories chainedFile) ([(1, "foo".toList)] ++ [(1, "bar".toList)]) :=
    List.isChain_cons_cons.mpr ⟨hlink, List.isChain_singleton _⟩
  refine ⟨r, hr, (hchains [(1, "foo".toList)] (1, "foo".toList) (1, "bar".toList) r hchain (List.pairwise_singleton _ _) rfl
    (enters_directories chainedFile rfl) hr).1.mpr ?_⟩
  intro y hy value hvalue
  rw [List.mem_singleton.mp hy] at hvalue ⊢
  obtain rfl : "@bar".toList = value := Option.some.inj hvalue
  exact ⟨rfl, Or.inl rfl⟩

/-- An alias that mentions itself in upper case is not reported as a cycle. -/
theorem mixed_case_cycle :
    ∃ r, Chain (directories mixedCaseFile) ([(1, "foo".toList)] ++ [(1, "foo".toList)]) ∧
      Enters (directories mixedCaseFile) false (normalize "@foo".toList) 2 (1, "foo".toList) ∧
      Returns (directories mixedCaseFile) false "@foo".toList 2 r ∧
      r.1 = .errorReported "@FOO is not a valid alias".toList ∧
      ¬ReportsCycle [(1, "foo".toList)] (1, "foo".toList) r := by
  have hlink : Link (directories mixedCaseFile) (1, "foo".toList) (1, "foo".toList) :=
    @Link.within _ (directories mixedCaseFile) 1 "foo".toList "@FOO".toList rfl rfl rfl rfl
  refine ⟨(.errorReported "@FOO is not a valid alias".toList, ⟨0, [(1, "foo".toList)]⟩),
    List.isChain_cons_cons.mpr ⟨hlink, List.isChain_singleton _⟩, enters_directories mixedCaseFile rfl,
    ⟨10, fun k hk => ?_⟩, rfl, fun h => ?_⟩
  · obtain ⟨j, rfl⟩ : ∃ j, k = j + 10 := ⟨k - 10, by omega⟩
    rfl
  · exact absurd h.1.length_le (by decide)

end Sample

end Luwu.Require
