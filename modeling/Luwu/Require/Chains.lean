import Luwu.Require.Termination
import Mathlib.Data.List.Chain

/-!
# Chains of aliases

Aliases are names in any case, and each position defines some of them. An alias whose path begins with an alias is
linked to that alias at the same position, or at the nearest position above that defines it. A chain of links is
followed by the navigator exactly when every mention on it is in lower case and every configuration is read as a whole
where the chain needs more than one alias of it.
-/

namespace Luwu.Require

open Run Fuel

section Links

variable {σ : Type} (C : NavigationContext σ)

/-- The path that the configuration at a position gives to a name in lower case -/
def definesAt (p : σ) (name : Text) : Option Text :=
  match C.getConfigStatus p with
  | .absent => none
  | .ambiguous => none
  | _ =>
    if C.getConfigBehavior p = .getAlias then if name = [] then none else C.getAlias name p
    else
      match C.getConfig p with
      | none => none
      | some file =>
        match parseConfig file .empty with
        | .error _ => none
        | .ok config => config.find name

/-- A position that the search for a name passes: it has no configuration, or one without the name. -/
def Passes (p : σ) (name : Text) : Prop :=
  C.getConfigStatus p = .absent ∨
    C.getConfigStatus p ≠ .ambiguous ∧ C.getConfigBehavior p = .getConfig ∧
      ∃ file config, C.getConfig p = some file ∧ parseConfig file .empty = .ok config ∧ config.find name = none

/-- The nearest position above that defines a name -/
inductive Found (name : Text) : σ → σ → Prop
  | parent {p p' : σ} : C.toParent p = (.success, p') → (definesAt C p' name).isSome → Found name p p'
  | ancestor {p p₁ p' : σ} : C.toParent p = (.success, p₁) → Passes C p₁ name → Found name p₁ p' → Found name p p'

/-- One alias leads to another, which no override takes away. -/
inductive Link : σ × Text → σ × Text → Prop
  | within {p : σ} {name value : Text} : definesAt C p name = some value → getPathType value = .aliased →
      (C.toAliasOverride (extractAlias value) p).1 = .notFound →
      (definesAt C p (toLower (extractAlias value))).isSome → Link (p, name) (p, toLower (extractAlias value))
  | above {p p' : σ} {name value : Text} : definesAt C p name = some value → getPathType value = .aliased →
      (C.toAliasOverride (extractAlias value) p).1 = .notFound →
      definesAt C p (toLower (extractAlias value)) = none → Found C (toLower (extractAlias value)) p p' →
      Link (p, name) (p', toLower (extractAlias value))

abbrev Chain (l : List (σ × Text)) : Prop := l.IsChain (Link C)

/-- The mention is in lower case, and a configuration that is read alias by alias does not define it. -/
def Plain (x : σ × Text) : Prop :=
  ∀ value, definesAt C x.1 x.2 = some value → toLower (extractAlias value) = extractAlias value ∧
    (C.getConfigBehavior x.1 = .getConfig ∨ extractAlias value = x.2 ∨ definesAt C x.1 (extractAlias value) = none)

/-- What the navigator has read at a position, looking for a name -/
structure Holds (p : σ) (config : Config) (name : Text) : Prop where
  find : config.find name = definesAt C p name
  defined : (definesAt C p name).isSome
  lower : config.Lower
  whole : C.getConfigBehavior p = .getConfig ∧ (∀ n, config.find n = definesAt C p n) ∨
    C.getConfigBehavior p = .getAlias ∧ ∀ n ≠ name, config.find n = none

end Links

section Search

variable {σ : Type} {C : NavigationContext σ} {depth : σ → ℕ} {p p' : σ} {name value : Text} {c : Config}

theorem Holds.contains (h : Holds C p c name) : c.contains name = true := by
  unfold Config.contains
  rw [h.find]
  exact h.defined

theorem Passes.searchAt (h : Passes C p name) :
    ∃ config, searchAt C name p = .ok (config, false) ∧ config.contains name = false := by
  unfold Require.searchAt
  rcases h with habsent | ⟨hstatus, hbehavior, file, config, hfile, hparse, hfind⟩
  · rw [habsent]
    exact ⟨.empty, rfl, rfl⟩
  · have hcontains : config.contains name = false := by
      unfold Config.contains
      rw [hfind]
      rfl
    cases hs : C.getConfigStatus p with
    | absent => exact ⟨.empty, rfl, rfl⟩
    | ambiguous => exact absurd hs hstatus
    | presentJson | presentLuau =>
      refine ⟨config, ?_, hcontains⟩
      simp only [hbehavior, reduceCtorEq, if_false, hfile, hparse]

theorem find_setAlias (hname : toLower name = name) (hne : name ≠ []) (n : Text) :
    (Config.empty.setAlias name value).find n = if n = name then some value else none := by
  unfold Config.setAlias
  rw [hname, if_neg hne]
  unfold Config.find Config.empty
  simp only [List.filter_nil, List.lookup_cons, List.lookup_nil]
  by_cases hn : n = name
  · simp [hn]
  · rw [beq_eq_false_iff_ne.mpr hn, if_neg hn]

/-- A position that defines a name is where the search for it ends. -/
theorem searchAt_defined (hname : toLower name = name) (h : (definesAt C p name).isSome) :
    ∃ config last, searchAt C name p = .ok (config, last) ∧ Holds C p config name := by
  have hdefined := h
  unfold definesAt at h
  unfold searchAt
  cases hs : C.getConfigStatus p with
  | absent =>
    rw [hs] at h
    cases h
  | ambiguous =>
    rw [hs] at h
    cases h
  | presentJson | presentLuau =>
    simp only [hs] at h
    cases hbehavior : C.getConfigBehavior p with
    | getAlias =>
      simp only [hbehavior, if_true] at h ⊢
      by_cases hne : name = []
      · rw [if_pos hne] at h
        cases h
      · rw [if_neg hne] at h
        obtain ⟨value, hvalue⟩ := Option.isSome_iff_exists.mp h
        have hat : definesAt C p name = some value := by
          unfold definesAt
          simp only [hs, hbehavior, if_true, if_neg hne, hvalue]
        refine ⟨Config.empty.setAlias name value, true, by rw [hvalue], ?_, hdefined, empty_lower.setAlias _ _,
          Or.inr ⟨hbehavior, fun n hn => ?_⟩⟩
        · rw [find_setAlias hname hne, if_pos rfl, hat]
        · rw [find_setAlias hname hne, if_neg hn]
    | getConfig =>
      simp only [hbehavior, reduceCtorEq, if_false] at h ⊢
      cases hfile : C.getConfig p with
      | none =>
        rw [hfile] at h
        cases h
      | some file =>
        simp only [hfile] at h ⊢
        cases hparse : parseConfig file .empty with
        | error text =>
          rw [hparse] at h
          cases h
        | ok config =>
          have hat : ∀ n, config.find n = definesAt C p n := by
            intro n
            unfold definesAt
            simp only [hs, hbehavior, reduceCtorEq, if_false, hfile, hparse]
          exact ⟨config, false, rfl, hat name, hdefined, empty_lower.parseConfig hparse, Or.inl ⟨hbehavior, hat⟩⟩

theorem search_found (hname : toLower name = name) (h : Found C name p p') (resolved : List (σ × Text))
    (hc : c.contains name = false) :
    ∃ config, Holds C p' config name ∧
      Settles (fun k => navigateToAndPopulateConfig C k name c) ⟨p, resolved⟩ (.ok config ⟨p', resolved⟩) := by
  induction h generalizing c with
  | @parent p p' hparent hdefined =>
    obtain ⟨config, last, hat, hholds⟩ := searchAt_defined hname hdefined
    refine ⟨config, hholds, 2, fun k hk => ?_⟩
    obtain ⟨j, rfl⟩ : ∃ j, k = j + 1 + 1 := ⟨k - 2, by omega⟩
    show navigateToAndPopulateConfig C (j + 1 + 1) name c ⟨p, resolved⟩ = _
    rw [search_step (j + 1) hc]
    cases last with
    | true => simp only [hparent, hat]
    | false =>
      simp only [hparent, hat]
      exact search_contained j hholds.contains
  | @ancestor p p₁ p' hparent hpasses _ ih =>
    obtain ⟨config₁, hat, hcontains⟩ := hpasses.searchAt
    obtain ⟨config, hholds, hsettles⟩ := ih hcontains
    refine ⟨config, hholds, hsettles.succ fun k => ?_⟩
    rw [search_step k hc]
    simp only [hparent, hat]

end Search

section Steps

variable {σ : Type} {C : NavigationContext σ} {depth : σ → ℕ} {name value : Text} {config : Config}
  {tracker : AliasCycleTracker} {s : NavState σ} {r r' : EStateM.Result NavStop (NavState σ) Unit}

/-- A run that goes on after a result. -/
def after (r : EStateM.Result NavStop (NavState σ) Unit) (x : NavM σ Unit) : EStateM.Result NavStop (NavState σ) Unit :=
  match r with
  | .ok _ s => x s
  | .error e s => .error e s

theorem after_resolved (x : NavM σ Unit) (hx : Quiet x) (r : EStateM.Result NavStop (NavState σ) Unit) :
    (finalState (after r x)).resolved = (finalState r).resolved := by
  cases r with
  | ok _ s => exact hx.resolved s
  | error e s => rfl

theorem after_run (x y : NavM σ Unit) (s : NavState σ) : (x >>= fun _ => y) s = after (x s) y := by
  rw [run_bind]
  cases x s <;> rfl

theorem settles_after {x : ℕ → NavM σ Unit} (h : Settles x s r) (y : NavM σ Unit) :
    Settles (fun k => x k >>= fun _ => y) s (after r y) := by
  obtain ⟨n, hn⟩ := h
  refine ⟨n, fun k hk => ?_⟩
  show (x k >>= fun _ => y) s = _
  rw [after_run, hn k hk]

/-- An alias that is not overridden is resolved before the rest of the path is walked. -/
theorem settles_follow (hC : FiniteAncestry C depth) (hvalue : config.find name = some value)
    (htype : getPathType value = .aliased) (hseen : name ∉ tracker.seen)
    (hover : (C.toAliasOverride (extractAlias value) s.pos).1 = .notFound)
    (h : Settles (fun k => resolveNext C k (extractAlias value) config
      ⟨name :: tracker.seen, tracker.ordered ++ [name]⟩) (s.log name) r) :
    Settles (fun k => navigateToAlias C k name config tracker) s (after r (navigateThroughPath C value)) := by
  refine Settles.succ (settles_after h _) fun k => ?_
  rw [alias_follows hvalue htype hseen]
  match hmove : C.toAliasOverride (extractAlias value) s.pos, hover with
  | (.notFound, p), _ =>
    obtain rfl : p = s.pos := hC.override _ _ _ hmove
    rfl

theorem settles_within {nextAlias : Text} (hcontains : config.contains nextAlias = true)
    (h : Settles (fun k => navigateToAlias C k nextAlias config tracker) s r) :
    Settles (fun k => resolveNext C k nextAlias config tracker) s r := by
  unfold resolveNext
  rw [hcontains]
  exact h

theorem settles_above {nextAlias : Text} {c : Config} {s' : NavState σ} (hcontains : config.contains nextAlias = false)
    (hsearch : Settles (fun k => navigateToAndPopulateConfig C k nextAlias .empty) s (.ok c s'))
    (hc : c.contains nextAlias = true) (h : Settles (fun k => navigateToAlias C k nextAlias c .empty) s' r) :
    Settles (fun k => resolveNext C k nextAlias config tracker) s r := by
  unfold resolveNext
  rw [hcontains]
  refine hsearch.bind_ok ?_
  rw [hc]
  exact h

theorem Quiet.keeps {α : Type} {x : NavM σ α} (hx : Quiet x) (s : NavState σ) :
    s.resolved <+: (finalState (x s)).resolved := by
  exact (hx.resolved s).symm ▸ List.prefix_refl _

/-- With this fuel an alias that is followed leaves the log with what it has. -/
def Keeps (C : NavigationContext σ) (k : ℕ) : Prop :=
  ∀ name config tracker s, config.contains name = true →
    s.resolved <+: (finalState (navigateToAlias C k name config tracker s)).resolved

theorem bind_resolved (x : NavM σ Unit) (y : NavM σ Unit) (hy : Quiet y) (s : NavState σ) :
    (finalState ((x >>= fun _ => y) s)).resolved = (finalState (x s)).resolved := by
  rw [run_bind]
  cases x s with
  | ok _ s' => exact hy.resolved s'
  | error e s' => rfl

theorem Keeps.resolveNext {k : ℕ} (hk : Keeps C k) (nextAlias : Text) (config : Config) (tracker : AliasCycleTracker)
    (s : NavState σ) : s.resolved <+: (finalState (resolveNext C k nextAlias config tracker s)).resolved := by
  unfold Require.resolveNext
  split
  · next hcontains => exact hk _ _ _ _ hcontains
  · have hsearch := @search_resolved _ C nextAlias k .empty s
    rw [run_bind]
    cases hrun : navigateToAndPopulateConfig C k nextAlias .empty s with
    | error e s' =>
      rw [hrun] at hsearch
      have hlog : s'.resolved = s.resolved := hsearch
      exact hlog.symm ▸ List.prefix_refl _
    | ok c s' =>
      rw [hrun] at hsearch
      have hlog : s'.resolved = s.resolved := hsearch
      rw [← hlog]
      show s'.resolved <+: (finalState ((if c.contains nextAlias = true then navigateToAlias C k nextAlias c .empty
        else toAliasFallback C nextAlias) s')).resolved
      split
      · next hc => exact hk _ _ _ _ hc
      · exact (Quiet.moveOr _ _).keeps s'

/-- The alias is logged first. -/
theorem Keeps.alias_first {k : ℕ} (hk : Keeps C k) (tracker : AliasCycleTracker) (s : NavState σ)
    (hcontains : config.contains name = true) :
    (s.log name).resolved <+: (finalState (navigateToAlias C (k + 1) name config tracker s)).resolved := by
  obtain ⟨value, hvalue⟩ := Option.isSome_iff_exists.mp hcontains
  by_cases htype : getPathType value = .aliased
  · by_cases hseen : name ∈ tracker.seen
    · rw [alias_cycle hvalue htype hseen]
      exact List.prefix_refl _
    · rw [alias_follows hvalue htype hseen]
      match C.toAliasOverride (extractAlias value) s.pos with
      | (.success, p) =>
        exact (Quiet.navigateThroughPath (C := C) value).keeps { s.log name with pos := p }
      | (.ambiguous, p) => exact List.prefix_refl _
      | (.notFound, p) =>
        show _ <+: (finalState ((Require.resolveNext C k (extractAlias value) config _ >>= fun _ =>
          navigateThroughPath C value) { s.log name with pos := p })).resolved
        rw [bind_resolved _ _ (Quiet.navigateThroughPath value)]
        exact hk.resolveNext _ _ _ { s.log name with pos := p }
  · rw [alias_arrives hvalue htype]
    exact (Quiet.arrive value).keeps (s.log name)

theorem keeps (k : ℕ) : Keeps C k := by
  induction k with
  | zero => exact fun _ _ _ s _ => List.prefix_refl s.resolved
  | succ k ih =>
    intro name config tracker s hcontains
    exact (List.prefix_append _ _).trans (ih.alias_first tracker s hcontains)

theorem Settles.alias_first (hcontains : config.contains name = true)
    (h : Settles (fun k => navigateToAlias C k name config tracker) s r) :
    (s.log name).resolved <+: (finalState r).resolved := by
  obtain ⟨n, hn⟩ := h
  have hrun : navigateToAlias C (n + 1) name config tracker s = r := hn (n + 1) (Nat.le_succ n)
  rw [← hrun]
  exact (keeps n).alias_first tracker s hcontains

theorem Found.depth_lt (hC : FiniteAncestry C depth) {p p' : σ} (h : Found C name p p') : depth p' < depth p := by
  induction h with
  | parent hparent _ => exact hC.parent _ _ hparent
  | ancestor hparent _ _ ih => exact Nat.lt_trans ih (hC.parent _ _ hparent)

/-- From a plain mention the navigator goes where the link does. -/
theorem plain_step (hC : FiniteAncestry C depth) {y : σ × Text} (hlink : Link C (s.pos, name) y)
    (hplain : Plain C (s.pos, name)) (hholds : Holds C s.pos config name) (hseen : name ∉ tracker.seen) :
    ∃ config' tracker' value, Holds C y.1 config' y.2 ∧
      (y.1 = s.pos ∧ tracker' = ⟨name :: tracker.seen, tracker.ordered ++ [name]⟩ ∨
        depth y.1 < depth s.pos ∧ tracker' = .empty) ∧
      definesAt C s.pos name = some value ∧
      ∀ r, Settles (fun k => navigateToAlias C k y.2 config' tracker') ⟨y.1, s.resolved ++ [(s.pos, name)]⟩ r →
        Settles (fun k => navigateToAlias C k name config tracker) s (after r (navigateThroughPath C value)) := by
  cases hlink with
  | @within _ _ value hdef htype hover hsome =>
    obtain ⟨hlower, hwhole⟩ := hplain value hdef
    rw [hlower] at hsome ⊢
    have hfind : config.find (extractAlias value) = definesAt C s.pos (extractAlias value) := by
      rcases hholds.whole with ⟨-, hall⟩ | ⟨hbehavior, -⟩
      · exact hall _
      · rcases hwhole with hconfig | hsame | hnone
        · rw [hbehavior] at hconfig
          cases hconfig
        · rw [hsame]
          exact hholds.find
        · rw [hnone] at hsome
          cases hsome
    have hnext : Holds C s.pos config (extractAlias value) := by
      refine ⟨hfind, hsome, hholds.lower, ?_⟩
      rcases hholds.whole with hall | ⟨hbehavior, hone⟩
      · exact Or.inl hall
      · have hsame : extractAlias value = name := by
          by_contra hne
          rw [← hfind, hone _ hne] at hsome
          cases hsome
        rw [hsame]
        exact Or.inr ⟨hbehavior, hone⟩
    refine ⟨config, _, value, hnext, Or.inl ⟨rfl, rfl⟩, hdef, fun r hr => ?_⟩
    exact settles_follow hC (hholds.find.trans hdef) htype hseen hover (settles_within hnext.contains hr)
  | @above _ p' _ value hdef htype hover hnone hfound =>
    obtain ⟨hlower, -⟩ := hplain value hdef
    rw [hlower] at hnone hfound ⊢
    have hcontains : config.contains (extractAlias value) = false := by
      have hfind : config.find (extractAlias value) = none := by
        rcases hholds.whole with ⟨-, hall⟩ | ⟨-, hone⟩
        · rw [hall, hnone]
        · apply hone
          intro hsame
          rw [hsame, hdef] at hnone
          cases hnone
      unfold Config.contains
      rw [hfind]
      rfl
    obtain ⟨config', hholds', hsearch⟩ :=
      search_found hlower hfound (s.resolved ++ [(s.pos, name)]) (not_contains_empty _)
    refine ⟨config', .empty, value, hholds', Or.inr ⟨hfound.depth_lt hC, rfl⟩, hdef, fun r hr => ?_⟩
    exact settles_follow hC (hholds.find.trans hdef) htype hseen hover
      (settles_above hcontains hsearch hholds'.contains hr)

/-- An alias that the configuration does not have is resolved above, or nowhere. -/
theorem above_log (hC : FiniteAncestry C depth) {nextAlias : Text} (hcontains : config.contains nextAlias = false)
    (h : Settles (fun k => resolveNext C k nextAlias config tracker) s r) :
    (finalState r).resolved = s.resolved ∨ ∃ p, depth p < depth s.pos ∧ toLower nextAlias = nextAlias ∧
      s.resolved ++ [(p, nextAlias)] <+: (finalState r).resolved := by
  unfold resolveNext at h
  rw [hcontains] at h
  have hlog : ∀ q, Settles (fun k => navigateToAndPopulateConfig C k nextAlias .empty) s q →
      (finalState q).resolved = s.resolved := by
    intro q hq
    obtain ⟨n, hn⟩ := hq
    have hrun : navigateToAndPopulateConfig C n nextAlias .empty s = q := hn n (Nat.le_refl n)
    rw [← hrun]
    exact search_resolved n .empty s
  rcases h.of_bind (search_halts hC .empty s) with ⟨e, s', hsearch, rfl⟩ | ⟨c, s', hsearch, hrest⟩
  · exact Or.inl (hlog _ hsearch)
  · have hs' : s'.resolved = s.resolved := hlog _ hsearch
    cases hc : c.contains nextAlias with
    | false =>
      rw [hc] at hrest
      have hr := hrest.unique (settles_const (toAliasFallback C nextAlias) s')
      left
      rw [hr]
      exact ((Quiet.moveOr _ _).resolved s').trans hs'
    | true =>
      rw [hc] at hrest
      obtain ⟨n, hn⟩ := hsearch
      have hrun : navigateToAndPopulateConfig C n nextAlias .empty s = .ok c s' := hn n (Nat.le_refl n)
      right
      refine ⟨s'.pos, search_above hC n (not_contains_empty _) hrun hc,
        (search_lower n empty_lower hrun).of_contains hc, ?_⟩
      have hfirst := Settles.alias_first (s := s') hc hrest
      unfold NavState.log at hfirst
      rw [hs'] at hfirst
      exact hfirst

/-- A mention that is not plain leads the navigator away from the link. -/
theorem not_plain_step (hC : FiniteAncestry C depth) {y : σ × Text} (hlink : Link C (s.pos, name) y)
    (hplain : ¬Plain C (s.pos, name)) (hholds : Holds C s.pos config name) (hseen : name ∉ tracker.seen)
    (h : Settles (fun k => navigateToAlias C k name config tracker) s r) :
    ¬s.resolved ++ [(s.pos, name), y] <+: (finalState r).resolved := by
  obtain ⟨value, hdef, htype, hover, hy⟩ : ∃ value, definesAt C s.pos name = some value ∧
      getPathType value = .aliased ∧ (C.toAliasOverride (extractAlias value) s.pos).1 = .notFound ∧
      (toLower (extractAlias value) = extractAlias value → definesAt C s.pos (extractAlias value) ≠ none →
        y = (s.pos, extractAlias value)) := by
    cases hlink with
    | within hdef htype hover _ =>
      refine ⟨_, hdef, htype, hover, fun hlower _ => ?_⟩
      rw [hlower]
    | above hdef htype hover hnone _ =>
      refine ⟨_, hdef, htype, hover, fun hlower hsome => ?_⟩
      rw [hlower] at hnone
      exact absurd hnone hsome
  have haway : config.contains (extractAlias value) = false ∧
      (toLower (extractAlias value) = extractAlias value → y = (s.pos, extractAlias value)) := by
    by_cases hlower : toLower (extractAlias value) = extractAlias value
    · have hpart : ¬(C.getConfigBehavior s.pos = .getConfig ∨ extractAlias value = name ∨
          definesAt C s.pos (extractAlias value) = none) := by
        intro hwhole
        apply hplain
        intro value' hdef'
        rw [hdef] at hdef'
        cases hdef'
        exact ⟨hlower, hwhole⟩
      rw [not_or, not_or] at hpart
      refine ⟨?_, fun _ => hy hlower hpart.2.2⟩
      rcases hholds.whole with ⟨hbehavior, -⟩ | ⟨-, hone⟩
      · exact absurd hbehavior hpart.1
      · unfold Config.contains
        rw [hone _ hpart.2.1]
        rfl
    · refine ⟨?_, fun h => absurd h hlower⟩
      cases hcontains : config.contains (extractAlias value) with
      | false => rfl
      | true => exact absurd (hholds.lower.of_contains hcontains) hlower
  obtain ⟨hcontains, hy⟩ := haway
  obtain ⟨q, hq, -⟩ := resolveNext_halts
    (s := s.log name) hC (fun _ => alias_halts hC _ config _ _ ‹_›) (fun c s' _ hc => alias_halts hC _ c _ s' hc)
  have hr := h.unique (settles_follow hC (hholds.find.trans hdef) htype hseen hover hq)
  rw [hr, after_resolved _ (Quiet.navigateThroughPath value)]
  intro hprefix
  have hlength : (s.resolved ++ [(s.pos, name), y]).length = (s.log name).resolved.length + 1 := by
    unfold NavState.log
    simp only [List.length_append, List.length_cons, List.length_nil]
  rcases above_log hC hcontains hq with hnothing | ⟨p, hdepth, hlower, habove⟩
  · rw [hnothing] at hprefix
    have hle := hprefix.length_le
    omega
  · have hsame : s.resolved ++ [(s.pos, name), y] = (s.log name).resolved ++ [(p, extractAlias value)] := by
      apply (List.prefix_of_prefix_length_le hprefix habove _).eq_of_length
      · rw [hlength, List.length_append]
        rfl
      · rw [hlength, List.length_append]
        exact Nat.le_refl _
    have hpos : y = (p, extractAlias value) := by
      unfold NavState.log at hsame
      rw [List.append_assoc] at hsame
      have htail := List.append_cancel_left hsame
      simpa using htail
    rw [hy hlower] at hpos
    have hp : s.pos = p := congrArg Prod.fst hpos
    have hdepth' : depth p < depth s.pos := hdepth
    rw [hp] at hdepth'
    exact Nat.lt_irrefl _ hdepth'

end Steps

section Chains

variable {σ : Type} {C : NavigationContext σ} {depth : σ → ℕ} {l : List (σ × Text)} {x z : σ × Text} {config : Config}
  {tracker : AliasCycleTracker} {s : NavState σ} {r : EStateM.Result NavStop (NavState σ) Unit}

/-- What the next turn knows about the tracker. -/
theorem seen_next {y : σ × Text} {name : Text} {tracker' : AliasCycleTracker} (hnodup : ((s.pos, name) :: l).Nodup)
    (hseen : ∀ y ∈ (s.pos, name) :: l, y.1 = s.pos → y.2 ∉ tracker.seen)
    (htracker : y.1 = s.pos ∧ tracker' = ⟨name :: tracker.seen, tracker.ordered ++ [name]⟩ ∨
      depth y.1 < depth s.pos ∧ tracker' = .empty) :
    ∀ w ∈ l, w.1 = y.1 → w.2 ∉ tracker'.seen := by
  intro w hw hpos
  rcases htracker with ⟨hy, rfl⟩ | ⟨-, rfl⟩
  · rw [List.mem_cons, not_or]
    refine ⟨?_, hseen w (List.mem_cons_of_mem _ hw) (hpos.trans hy)⟩
    intro hname
    have hw' : w = (s.pos, name) := Prod.ext (hpos.trans hy) hname
    rw [hw'] at hw
    exact (List.nodup_cons.mp hnodup).1 hw
  · exact List.not_mem_nil

/-- The first link of a chain -/
theorem Chain.first {w : σ × Text} (h : Chain C (w :: l ++ [z])) :
    ∃ y rest, l ++ [z] = y :: rest ∧ Link C w y ∧ Chain C (l ++ [z]) := by
  cases hl : l ++ [z] with
  | nil => exact absurd hl (List.append_ne_nil_of_right_ne_nil l (List.cons_ne_nil z []))
  | cons y rest =>
    rw [List.cons_append, hl] at h
    exact ⟨y, rest, rfl, List.isChain_cons_cons.mp h⟩

theorem Link.depth_le (hC : FiniteAncestry C depth) {y : σ × Text} (h : Link C x y) : depth y.1 ≤ depth x.1 := by
  cases h with
  | within => exact Nat.le_refl _
  | above _ _ _ _ hfound => exact Nat.le_of_lt (hfound.depth_lt hC)

theorem Chain.depth_le (hC : FiniteAncestry C depth) {y : σ × Text} (h : Chain C (y :: l)) :
    ∀ w ∈ y :: l, depth w.1 ≤ depth y.1 := by
  induction l generalizing y with
  | nil =>
    intro w hw
    rw [List.mem_singleton.mp hw]
  | cons y' l ih =>
    intro w hw
    obtain ⟨hlink, hrest⟩ := List.isChain_cons_cons.mp h
    rcases List.mem_cons.mp hw with rfl | hw
    · exact Nat.le_refl _
    · exact Nat.le_trans (ih hrest w hw) (hlink.depth_le hC)

/-- The chain is in the log exactly when every mention on it is plain. -/
theorem chain_visits (hC : FiniteAncestry C depth) (hchain : Chain C (l ++ [z])) (hhead : (l ++ [z]).head? = some x)
    (hx : x.1 = s.pos) (hnodup : l.Nodup) (hholds : Holds C x.1 config x.2)
    (hseen : ∀ y ∈ l, y.1 = s.pos → y.2 ∉ tracker.seen)
    (h : Settles (fun k => navigateToAlias C k x.2 config tracker) s r) :
    s.resolved ++ (l ++ [z]) <+: (finalState r).resolved ↔ ∀ y ∈ l, Plain C y := by
  induction l generalizing x config tracker s r with
  | nil =>
    obtain rfl : z = x := by simpa using hhead
    have hfirst := Settles.alias_first hholds.contains h
    unfold NavState.log at hfirst
    rw [← hx] at hfirst
    exact ⟨fun _ _ hy => absurd hy List.not_mem_nil, fun _ => hfirst⟩
  | cons w l ih =>
    obtain rfl : w = x := by simpa using hhead
    obtain ⟨p, name⟩ := w
    obtain rfl : p = s.pos := hx
    obtain ⟨y, rest, hrest, hlink, hchain'⟩ := Chain.first hchain
    have hfresh : name ∉ tracker.seen := hseen _ List.mem_cons_self rfl
    rw [List.forall_mem_cons]
    by_cases hplain : Plain C (s.pos, name)
    · obtain ⟨config', tracker', value, hholds', htracker, -, hrun⟩ :=
        plain_step hC hlink hplain hholds hfresh
      obtain ⟨q, hq, -⟩ := alias_halts hC y.2 config' tracker' ⟨y.1, s.resolved ++ [(s.pos, name)]⟩ hholds'.contains
      have hnext := ih (s := ⟨y.1, s.resolved ++ [(s.pos, name)]⟩) hchain' (by rw [hrest]; rfl) rfl
        (List.nodup_cons.mp hnodup).2 hholds' (seen_next hnodup hseen htracker) hq
      rw [h.unique (hrun q hq), after_resolved _ (Quiet.navigateThroughPath value), and_iff_right hplain, ← hnext]
      simp only [List.append_assoc, List.cons_append, List.nil_append]
    · apply iff_of_false
      · intro hprefix
        apply not_plain_step hC hlink hplain hholds hfresh h
        refine List.IsPrefix.trans ?_ hprefix
        rw [List.cons_append, hrest]
        exact ⟨rest, by simp⟩
      · exact fun hall => hplain hall.1

/-- A chain of plain mentions is left by the path of its last alias, and then by the rest of every path before it. -/
def walkBack (C : NavigationContext σ) : List (σ × Text) → NavM σ Unit
  | [] => pure ()
  | x :: l => do
    walkBack C l
    navigateThroughPath C ((definesAt C x.1 x.2).getD [])

theorem chain_follows (hC : FiniteAncestry C depth) {value : Text} (hchain : Chain C (l ++ [z]))
    (hhead : (l ++ [z]).head? = some x) (hx : x.1 = s.pos) (hnodup : l.Nodup) (hholds : Holds C x.1 config x.2)
    (hseen : ∀ y ∈ l, y.1 = s.pos → y.2 ∉ tracker.seen) (hplain : ∀ y ∈ l, Plain C y)
    (hvalue : definesAt C z.1 z.2 = some value) (htype : getPathType value ≠ .aliased) :
    Settles (fun k => navigateToAlias C k x.2 config tracker) s
      ((arrive C value >>= fun _ => walkBack C l) ⟨z.1, s.resolved ++ (l ++ [z])⟩) := by
  induction l generalizing x config tracker s with
  | nil =>
    obtain rfl : z = x := by simpa using hhead
    have hlog : s.log z.2 = ⟨z.1, s.resolved ++ [z]⟩ := by
      unfold NavState.log
      rw [← hx]
    apply settles_of_succ
    intro k
    have hpure : (arrive C value >>= fun _ => walkBack C []) = arrive C value := bind_pure_unit
    rw [alias_arrives (hholds.find.trans hvalue) htype, hlog, hpure]
    rfl
  | cons w l ih =>
    obtain rfl : w = x := by simpa using hhead
    obtain ⟨p, name⟩ := w
    obtain rfl : p = s.pos := hx
    obtain ⟨y, rest, hrest, hlink, hchain'⟩ := Chain.first hchain
    rw [List.forall_mem_cons] at hplain
    obtain ⟨config', tracker', value', hholds', htracker, hdef, hrun⟩ :=
      plain_step hC hlink hplain.1 hholds (hseen _ List.mem_cons_self rfl)
    have hnext := ih (s := ⟨y.1, s.resolved ++ [(s.pos, name)]⟩) hchain' (by rw [hrest]; rfl) rfl
      (List.nodup_cons.mp hnodup).2 hholds' (seen_next hnodup hseen htracker) hplain.2
    have hlog : s.resolved ++ [(s.pos, name)] ++ (l ++ [z]) = s.resolved ++ ((s.pos, name) :: l ++ [z]) := by
      simp only [List.append_assoc, List.cons_append, List.nil_append]
    simp only [hlog] at hnext
    have hback : walkBack C ((s.pos, name) :: l) = walkBack C l >>= fun _ => navigateThroughPath C value' := by
      conv_lhs => unfold walkBack
      rw [hdef]
      rfl
    rw [hback, ← bind_assoc, after_run]
    exact hrun _ hnext

/-- A chain of plain mentions that comes back to one of its aliases ends with the error. -/
theorem chain_cycle (hC : FiniteAncestry C depth) {value : Text} (hchain : Chain C (l ++ [z]))
    (hhead : (l ++ [z]).head? = some x) (hx : x.1 = s.pos) (hnodup : l.Nodup) (hholds : Holds C x.1 config x.2)
    (hseen : ∀ y ∈ l, y.1 = s.pos → y.2 ∉ tracker.seen) (hplain : ∀ y ∈ l, Plain C y)
    (hvalue : definesAt C z.1 z.2 = some value) (htype : getPathType value = .aliased)
    (hordered : ∀ n ∈ tracker.seen, n ∈ tracker.ordered) (hback : z ∈ l ∨ z.1 = s.pos ∧ z.2 ∈ tracker.seen)
    (h : Settles (fun k => navigateToAlias C k x.2 config tracker) s r) :
    ∃ ordered s', r = .error (.error (.cycle ordered z.2)) s' ∧ z.2 ∈ ordered := by
  induction l generalizing x config tracker s r with
  | nil =>
    obtain rfl : z = x := by simpa using hhead
    rcases hback with hmem | ⟨-, hmem⟩
    · exact absurd hmem List.not_mem_nil
    · have hrun : Settles (fun k => navigateToAlias C k z.2 config tracker) s
          (.error (.error (.cycle tracker.ordered z.2)) (s.log z.2)) := by
        apply settles_of_succ
        intro k
        exact alias_cycle (hholds.find.trans hvalue) htype hmem
      exact ⟨tracker.ordered, s.log z.2, h.unique hrun, hordered _ hmem⟩
  | cons w l ih =>
    obtain rfl : w = x := by simpa using hhead
    obtain ⟨p, name⟩ := w
    obtain rfl : p = s.pos := hx
    obtain ⟨y, rest, hrest, hlink, hchain'⟩ := Chain.first hchain
    rw [List.forall_mem_cons] at hplain
    obtain ⟨config', tracker', value', hholds', htracker, hdef, hrun⟩ :=
      plain_step hC hlink hplain.1 hholds (hseen _ List.mem_cons_self rfl)
    obtain ⟨q, hq, -⟩ := alias_halts hC y.2 config' tracker' ⟨y.1, s.resolved ++ [(s.pos, name)]⟩ hholds'.contains
    have hordered' : ∀ n ∈ tracker'.seen, n ∈ tracker'.ordered := by
      rcases htracker with ⟨-, rfl⟩ | ⟨-, rfl⟩
      · intro n hn
        rcases List.mem_cons.mp hn with rfl | hn
        · exact List.mem_append_right _ List.mem_cons_self
        · exact List.mem_append_left _ (hordered n hn)
      · exact fun n hn => absurd hn List.not_mem_nil
    have hback' : z ∈ l ∨ z.1 = y.1 ∧ z.2 ∈ tracker'.seen := by
      rcases htracker with ⟨hpos, rfl⟩ | ⟨hup, rfl⟩
      · rcases hback with hmem | ⟨hz, hmem⟩
        · rcases List.mem_cons.mp hmem with rfl | hmem
          · exact Or.inr ⟨hpos.symm, List.mem_cons_self⟩
          · exact Or.inl hmem
        · exact Or.inr ⟨hz.trans hpos.symm, List.mem_cons_of_mem _ hmem⟩
      · have hbelow : z.1 ≠ s.pos := by
          have hle := Chain.depth_le hC (hrest ▸ hchain') z (hrest ▸ List.mem_append_right _ List.mem_cons_self)
          intro hz
          rw [hz] at hle
          omega
        rcases hback with hmem | ⟨hz, -⟩
        · rcases List.mem_cons.mp hmem with rfl | hmem
          · exact absurd rfl hbelow
          · exact Or.inl hmem
        · exact absurd hz hbelow
    obtain ⟨ordered, s', rfl, hmem⟩ := ih (s := ⟨y.1, s.resolved ++ [(s.pos, name)]⟩) hchain' (by rw [hrest]; rfl) rfl
      (List.nodup_cons.mp hnodup).2 hholds' (seen_next hnodup hseen htracker) hplain.2 hordered' hback' hq
    exact ⟨ordered, s', h.unique (hrun _ hq), hmem⟩

end Chains

end Luwu.Require
