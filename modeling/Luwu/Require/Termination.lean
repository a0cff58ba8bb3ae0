import Luwu.Require.Config

/-!
# Navigation ends

Moves up the ancestry make the depth of the position smaller, and following an alias in one configuration makes the
number of its aliases that the tracker has not seen smaller.
-/

namespace Luwu.Require

open Run Fuel

/-- What the navigator relies on: the ancestry of every position is finite, and an override that is not found leaves
the position as it is. -/
structure FiniteAncestry {σ : Type} (C : NavigationContext σ) (depth : σ → ℕ) : Prop where
  parent : ∀ p p', C.toParent p = (.success, p') → depth p' < depth p
  override : ∀ name p p', C.toAliasOverride name p = (.notFound, p') → p' = p

/-- What `navigateToAlias` does for a path that is not an alias -/
def arrive {σ : Type} (C : NavigationContext σ) (value : Text) : NavM σ Unit :=
  if getPathType value = .unsupported then jumpToAlias C value else navigateThroughPath C value

section Quiet

variable {σ α β : Type} {C : NavigationContext σ}

/-- The state in which a run stops. -/
def finalState {ε : Type} : EStateM.Result ε σ α → σ
  | .ok _ s => s
  | .error _ s => s

/-- A computation that resolves no alias and has all the fuel that it needs. -/
structure Quiet (x : NavM σ α) : Prop where
  resolved : ∀ s, (finalState (x s)).resolved = s.resolved
  fuel : ∀ s s', x s ≠ .error .outOfFuel s'

theorem Quiet.pure (a : α) : Quiet (pure a : NavM σ α) where
  resolved := fun _ => rfl
  fuel := fun _ _ => nofun

theorem Quiet.fail (text : Text) : Quiet (Require.fail text : NavM σ α) where
  resolved := fun _ => rfl
  fuel := fun _ _ => nofun

theorem Quiet.bind {x : NavM σ α} {f : α → NavM σ β} (hx : Quiet x) (hf : ∀ a, Quiet (f a)) :
    Quiet (x >>= f) where
  resolved := by
    intro s
    have hlog := hx.resolved s
    rw [run_bind]
    cases hrun : x s with
    | error e s' =>
      rw [hrun] at hlog
      exact hlog
    | ok a s' =>
      rw [hrun] at hlog
      exact ((hf a).resolved s').trans hlog
  fuel := by
    intro s s'
    have hrun' := hx.fuel s
    rw [run_bind]
    cases hrun : x s with
    | error e s₁ =>
      intro heq
      cases heq
      exact hrun' s' hrun
    | ok a s₁ => exact (hf a).fuel s₁ s'

theorem Quiet.move (f : σ → NavigateResult × σ) : Quiet (move f) where
  resolved := fun _ => rfl
  fuel := fun _ _ => nofun

theorem Quiet.moveOr (f : σ → NavigateResult × σ) (text : Text) : Quiet (moveOr f text) := by
  apply (Quiet.move f).bind
  intro result
  cases result with
  | success => exact Quiet.pure _
  | ambiguous => exact Quiet.fail _
  | notFound => exact Quiet.fail _

theorem Quiet.override (name : Text) : Quiet (toAliasOverride C name) := by
  apply (Quiet.move _).bind
  intro result
  cases result with
  | success => exact Quiet.pure _
  | ambiguous => exact Quiet.fail _
  | notFound => exact Quiet.pure _

theorem splitPath_snd_length (path : Text) : (splitPath path).2.length + 1 ≤ path.length ∨ (splitPath path).2 = [] := by
  unfold splitPath
  cases hfind : path.findIdx? (· = '/') with
  | none => exact Or.inr rfl
  | some pos =>
    have hpos := (List.findIdx?_eq_some_iff_getElem.mp hfind).1
    left
    show (path.drop (pos + 1)).length + 1 ≤ path.length
    rw [List.length_drop]
    omega

theorem splitPath_nil : splitPath [] = ([], []) := rfl

/-- The loop takes a component a turn, and every turn makes the rest of the path shorter. -/
theorem Quiet.walkPath (k : ℕ) (previousComponent : Option Text) (components : Text × Text)
    (hk : components.2.length + 2 ≤ k ∨ components = ([], []) ∧ 1 ≤ k) :
    Quiet (walkPath C k previousComponent components) := by
  induction k generalizing previousComponent components with
  | zero => omega
  | succ k ih =>
    unfold Require.walkPath
    split
    · exact Quiet.pure _
    · next hnonempty =>
      have hk' : (splitPath components.2).2.length + 2 ≤ k ∨ splitPath components.2 = ([], []) ∧ 1 ≤ k := by
        have hlen : components.2.length + 2 ≤ k + 1 := by
          rcases hk with hk | ⟨hempty, -⟩
          · exact hk
          · exact absurd (by rw [hempty]; exact ⟨rfl, rfl⟩) hnonempty
        cases hrest : components.2 with
        | nil => exact Or.inr ⟨splitPath_nil, by rw [hrest] at hlen; exact Nat.le_of_succ_le_succ hlen⟩
        | cons c rest =>
          rw [hrest] at hlen
          have hcons : (c :: rest).length = rest.length + 1 := rfl
          rcases splitPath_snd_length (c :: rest) with hlt | hnil
          · left
            omega
          · left
            rw [hnil]
            show 2 ≤ k
            omega
      split
      · exact ih _ _ hk'
      · split
        · exact (Quiet.moveOr _ _).bind fun _ => ih _ _ hk'
        · exact (Quiet.moveOr _ _).bind fun _ => ih _ _ hk'

theorem splitPath_snd_le (path : Text) : (splitPath path).2.length ≤ path.length := by
  rcases splitPath_snd_length path with h | h
  · omega
  · rw [h]
    exact Nat.zero_le _

theorem Quiet.navigateThroughPath (path : Text) : Quiet (navigateThroughPath C path) := by
  apply Quiet.walkPath
  left
  have hfirst := splitPath_snd_le path
  have hsecond := splitPath_snd_le (splitPath path).2
  split <;> omega

theorem Quiet.arrive (value : Text) : Quiet (arrive C value) := by
  unfold Require.arrive
  split
  · exact Quiet.moveOr _ _
  · exact Quiet.navigateThroughPath value

theorem Quiet.halts {x : NavM σ α} (hx : Quiet x) (s : NavState σ) : Halts .outOfFuel (fun _ => x) s :=
  halts_const (hx.fuel s)

end Quiet

section Search

variable {σ : Type} {C : NavigationContext σ} {depth : σ → ℕ} {name : Text} {c c' : Config} {s s' : NavState σ}

/-- What the search finds at one position: a configuration, and whether the search ends with it. -/
def searchAt (C : NavigationContext σ) (desiredAlias : Text) (p : σ) : Except NavError (Config × Bool) :=
  match C.getConfigStatus p with
  | .absent => .ok (.empty, false)
  | .ambiguous =>
    .error (.message ("could not resolve alias \"".toList ++ desiredAlias ++ "\" (ambiguous configuration file)".toList))
  | _ =>
    if C.getConfigBehavior p = .getAlias then
      match C.getAlias desiredAlias p with
      | none => .error (.message ("could not resolve alias \"".toList ++ desiredAlias ++ "\"".toList))
      | some aliasPath => .ok (Config.empty.setAlias desiredAlias aliasPath, true)
    else
      match C.getConfig p with
      | none =>
        .error (.message ("could not get configuration file contents to resolve alias \"".toList ++ desiredAlias ++
          "\"".toList))
      | some file =>
        match parseConfig file .empty with
        | .error text => .error (.message text)
        | .ok config => .ok (config, false)

theorem search_contained (k : ℕ) (hc : c.contains name = true) :
    navigateToAndPopulateConfig C (k + 1) name c s = .ok c s := by
  unfold navigateToAndPopulateConfig
  rw [if_pos hc]
  rfl

/-- One turn of the search -/
theorem search_step (k : ℕ) (hc : c.contains name = false) :
    navigateToAndPopulateConfig C (k + 1) name c s =
      match C.toParent s.pos with
      | (.ambiguous, p) =>
        .error (.error (.message ("could not navigate up the ancestry chain during search for alias \"".toList ++ name ++
          "\" (ambiguous)".toList))) { s with pos := p }
      | (.notFound, p) => .ok .empty { s with pos := p }
      | (.success, p) =>
        match searchAt C name p with
        | .error e => .error (.error e) { s with pos := p }
        | .ok (config, true) => .ok config { s with pos := p }
        | .ok (config, false) => navigateToAndPopulateConfig C k name config { s with pos := p } := by
  conv_lhs => unfold navigateToAndPopulateConfig
  rw [hc, if_neg Bool.false_ne_true, run_bind]
  cases hmove : C.toParent s.pos with
  | mk result p =>
    have hrun : move C.toParent s = .ok result { s with pos := p } := by
      show EStateM.Result.ok (C.toParent s.pos).1 { s with pos := (C.toParent s.pos).2 } = _
      rw [hmove]
    rw [hrun]
    cases result with
    | ambiguous => rfl
    | notFound => rfl
    | success =>
      simp only [run_bind, run_get, searchAt]
      cases hstatus : C.getConfigStatus p with
      | absent => rfl
      | ambiguous => rfl
      | presentJson | presentLuau =>
        by_cases hbehavior : C.getConfigBehavior p = .getAlias
        · simp only [if_pos hbehavior]
          cases C.getAlias name p <;> rfl
        · simp only [if_neg hbehavior]
          cases C.getConfig p with
          | none => rfl
          | some file =>
            cases hparse : parseConfig file .empty with
            | error text => simp only [hparse, fail, run_throw]
            | ok config => simp only [hparse]

theorem searchAt_lower {p : σ} {last : Bool} (h : searchAt C name p = .ok (c', last)) : c'.Lower := by
  unfold searchAt at h
  cases hstatus : C.getConfigStatus p with
  | absent =>
    rw [hstatus] at h
    cases h
    exact empty_lower
  | ambiguous =>
    rw [hstatus] at h
    cases h
  | presentJson | presentLuau =>
    simp only [hstatus] at h
    split at h
    · cases halias : C.getAlias name p with
      | none =>
        rw [halias] at h
        cases h
      | some aliasPath =>
        rw [halias] at h
        cases h
        exact empty_lower.setAlias name aliasPath
    · cases hconfig : C.getConfig p with
      | none =>
        rw [hconfig] at h
        cases h
      | some file =>
        simp only [hconfig] at h
        cases hparse : parseConfig file .empty with
        | error text =>
          rw [hparse] at h
          cases h
        | ok config =>
          rw [hparse] at h
          cases h
          exact empty_lower.parseConfig hparse

theorem search_resolved (k : ℕ) (c : Config) (s : NavState σ) :
    (finalState (navigateToAndPopulateConfig C k name c s)).resolved = s.resolved := by
  induction k generalizing c s with
  | zero => rfl
  | succ k ih =>
    cases hc : c.contains name with
    | true =>
      rw [search_contained k hc]
      rfl
    | false =>
      rw [search_step k hc]
      match C.toParent s.pos with
      | (.ambiguous, p) => rfl
      | (.notFound, p) => rfl
      | (.success, p) =>
        match hat : searchAt C name p with
        | .error e => simp only [hat]; rfl
        | .ok (config, true) => simp only [hat]; rfl
        | .ok (config, false) =>
          simp only [hat]
          exact ih config { s with pos := p }

theorem search_lower (k : ℕ) (hc : c.Lower) (hrun : navigateToAndPopulateConfig C k name c s = .ok c' s') :
    c'.Lower := by
  induction k generalizing c s with
  | zero => cases hrun
  | succ k ih =>
    cases hcontains : c.contains name with
    | true =>
      rw [search_contained k hcontains] at hrun
      cases hrun
      exact hc
    | false =>
      rw [search_step k hcontains] at hrun
      match hmove : C.toParent s.pos with
      | (.ambiguous, p) =>
        rw [hmove] at hrun
        cases hrun
      | (.notFound, p) =>
        rw [hmove] at hrun
        cases hrun
        exact empty_lower
      | (.success, p) =>
        simp only [hmove] at hrun
        match hat : searchAt C name p with
        | .error e =>
          simp only [hat] at hrun
          cases hrun
        | .ok (config, true) =>
          simp only [hat] at hrun
          cases hrun
          exact searchAt_lower hat
        | .ok (config, false) =>
          simp only [hat] at hrun
          exact ih (searchAt_lower hat) hrun

/-- A configuration that is found was found above. -/
theorem search_above (hC : FiniteAncestry C depth) (k : ℕ) (hc : c.contains name = false)
    (hrun : navigateToAndPopulateConfig C k name c s = .ok c' s') (hc' : c'.contains name = true) :
    depth s'.pos < depth s.pos := by
  induction k generalizing c s with
  | zero => cases hrun
  | succ k ih =>
    rw [search_step k hc] at hrun
    match hmove : C.toParent s.pos with
    | (.ambiguous, p) =>
      rw [hmove] at hrun
      cases hrun
    | (.notFound, p) =>
      rw [hmove] at hrun
      cases hrun
      exact absurd hc' Bool.false_ne_true
    | (.success, p) =>
      have hup := hC.parent s.pos p hmove
      simp only [hmove] at hrun
      match hat : searchAt C name p with
      | .error e =>
        simp only [hat] at hrun
        cases hrun
      | .ok (config, true) =>
        simp only [hat] at hrun
        cases hrun
        exact hup
      | .ok (config, false) =>
        simp only [hat] at hrun
        cases hcontains : config.contains name with
        | true =>
          cases k with
          | zero => cases hrun
          | succ k =>
            rw [search_contained k hcontains] at hrun
            cases hrun
            exact hup
        | false => exact Nat.lt_trans (ih hcontains hrun) hup

/-- The search goes up the ancestry, so it ends. -/
theorem search_halts (hC : FiniteAncestry C depth) (c : Config) (s : NavState σ) :
    Halts .outOfFuel (fun k => navigateToAndPopulateConfig C k name c) s := by
  induction hn : depth s.pos using Nat.strong_induction_on generalizing c s with
  | _ n ih =>
    cases hc : c.contains name with
    | true => exact halts_of_succ (fun k => search_contained k hc) nofun
    | false =>
      match hmove : C.toParent s.pos with
      | (.ambiguous, p) =>
        apply halts_of_succ
        · intro k
          rw [search_step k hc, hmove]
        · nofun
      | (.notFound, p) =>
        apply halts_of_succ
        · intro k
          rw [search_step k hc, hmove]
        · nofun
      | (.success, p) =>
        have hup := hC.parent s.pos p hmove
        match hat : searchAt C name p with
        | .error e =>
          apply halts_of_succ
          · intro k
            simp only [search_step k hc, hmove, hat]
            rfl
          · nofun
        | .ok (config, true) =>
          apply halts_of_succ
          · intro k
            simp only [search_step k hc, hmove, hat]
            rfl
          · nofun
        | .ok (config, false) =>
          obtain ⟨r, hr, hout⟩ := ih (depth p) (hn ▸ hup) config { s with pos := p } rfl
          refine ⟨r, ?_, hout⟩
          obtain ⟨m, hm⟩ := hr
          refine ⟨m + 1, fun k hk => ?_⟩
          obtain ⟨j, rfl⟩ : ∃ j, k = j + 1 := ⟨k - 1, by omega⟩
          simp only [search_step j hc, hmove, hat]
          exact hm j (by omega)

end Search

section Aliases

variable {σ : Type} {C : NavigationContext σ} {depth : σ → ℕ} {name value : Text} {config : Config}
  {tracker : AliasCycleTracker} {s s' : NavState σ} {k : ℕ}

def NavState.log (s : NavState σ) (name : Text) : NavState σ := { s with resolved := s.resolved ++ [(s.pos, name)] }

/-- What `navigateToAlias` does for the alias that a path begins with -/
def resolveNext (C : NavigationContext σ) (k : ℕ) (nextAlias : Text) (config : Config)
    (cycleTracker : AliasCycleTracker) : NavM σ Unit :=
  if config.contains nextAlias then navigateToAlias C k nextAlias config cycleTracker
  else do
    let parentConfig ← navigateToAndPopulateConfig C k nextAlias .empty
    if parentConfig.contains nextAlias then navigateToAlias C k nextAlias parentConfig .empty
    else toAliasFallback C nextAlias

theorem override_run (name : Text) (s : NavState σ) :
    toAliasOverride C name s =
      match C.toAliasOverride name s.pos with
      | (.success, p) => .ok true { s with pos := p }
      | (.notFound, p) => .ok false { s with pos := p }
      | (.ambiguous, p) =>
        .error (.error (.message ('@' :: name ++ " is not a valid alias (ambiguous)".toList))) { s with pos := p } := by
  unfold toAliasOverride
  rw [run_bind]
  have hmove : move (C.toAliasOverride name) s =
      .ok (C.toAliasOverride name s.pos).1 { s with pos := (C.toAliasOverride name s.pos).2 } := rfl
  rw [hmove]
  match C.toAliasOverride name s.pos with
  | (.success, p) => rfl
  | (.notFound, p) => rfl
  | (.ambiguous, p) => rfl

theorem alias_arrives (hvalue : config.find name = some value) (htype : getPathType value ≠ .aliased) :
    navigateToAlias C (k + 1) name config tracker s = arrive C value (s.log name) := by
  conv_lhs => unfold navigateToAlias
  rw [run_bind, hvalue]
  unfold arrive
  cases hkind : getPathType value with
  | relativeToCurrent => simp only [run_modify, Option.getD_some, hkind, reduceCtorEq, if_false]; rfl
  | relativeToParent => simp only [run_modify, Option.getD_some, hkind, reduceCtorEq, if_false]; rfl
  | aliased => exact absurd hkind htype
  | unsupported => simp only [run_modify, Option.getD_some, hkind, if_true]; rfl

theorem alias_cycle (hvalue : config.find name = some value) (htype : getPathType value = .aliased)
    (hseen : name ∈ tracker.seen) :
    navigateToAlias C (k + 1) name config tracker s = .error (.error (.cycle tracker.ordered name)) (s.log name) := by
  conv_lhs => unfold navigateToAlias
  rw [run_bind, hvalue]
  simp only [run_modify, Option.getD_some, htype, AliasCycleTracker.add, if_pos hseen, run_bind, run_throw]
  rfl

theorem alias_follows (hvalue : config.find name = some value) (htype : getPathType value = .aliased)
    (hseen : name ∉ tracker.seen) :
    navigateToAlias C (k + 1) name config tracker s =
      match C.toAliasOverride (extractAlias value) s.pos with
      | (.success, p) => navigateThroughPath C value { s.log name with pos := p }
      | (.ambiguous, p) =>
        .error (.error (.message ('@' :: extractAlias value ++ " is not a valid alias (ambiguous)".toList)))
          { s.log name with pos := p }
      | (.notFound, p) =>
        (resolveNext C k (extractAlias value) config ⟨name :: tracker.seen, tracker.ordered ++ [name]⟩ >>=
          fun _ => navigateThroughPath C value) { s.log name with pos := p } := by
  conv_lhs => unfold navigateToAlias
  rw [run_bind, hvalue]
  simp only [run_modify, Option.getD_some, htype, AliasCycleTracker.add, if_neg hseen, run_bind, run_pure]
  have hlog : (⟨s.pos, s.resolved ++ [(s.pos, name)]⟩ : NavState σ) = s.log name := rfl
  have hpos : (s.log name).pos = s.pos := rfl
  rw [hlog, override_run, hpos]
  match C.toAliasOverride (extractAlias value) s.pos with
  | (.success, p) =>
    simp only [if_true]
  | (.ambiguous, p) =>
    simp only
  | (.notFound, p) =>
    simp only [Bool.false_eq_true, if_false]
    unfold resolveNext
    split
    · rfl
    · simp only [run_bind]
      cases navigateToAndPopulateConfig C k (extractAlias value) .empty { s.log name with pos := p } with
      | error e s' => rfl
      | ok parentConfig s' =>
        simp only
        split
        · rfl
        · rfl

/-- The aliases of the configuration that the tracker has not seen -/
def unseen (config : Config) (tracker : AliasCycleTracker) : ℕ :=
  (config.aliases.filter fun a => !tracker.seen.contains a.1).length

theorem unseen_add (hcontains : config.contains name = true) (hseen : name ∉ tracker.seen) (ordered : List Text) :
    unseen config ⟨name :: tracker.seen, ordered⟩ < unseen config tracker := by
  obtain ⟨value, hvalue⟩ := Option.isSome_iff_exists.mp hcontains
  obtain ⟨before, after, hsplit, -⟩ := List.lookup_eq_some_iff.mp hvalue
  have hmem : (name, value) ∈ config.aliases := hsplit ▸ List.mem_append_right _ List.mem_cons_self
  have hsub : (config.aliases.filter fun a => !(name :: tracker.seen).contains a.1) =
      (config.aliases.filter fun a => !tracker.seen.contains a.1).filter fun a => a.1 ≠ name := by
    rw [List.filter_filter]
    apply List.filter_congr
    intro a _
    simp [List.mem_cons]
  unfold unseen
  rw [hsub]
  apply List.length_filter_lt_length_iff_exists.mpr
  exact ⟨(name, value), List.mem_filter.mpr ⟨hmem, by simpa using hseen⟩, by simp⟩

theorem resolveNext_halts (hC : FiniteAncestry C depth)
    (hwithin : config.contains name = true → Halts .outOfFuel (fun k => navigateToAlias C k name config tracker) s)
    (habove : ∀ c s', depth s'.pos < depth s.pos → c.contains name = true →
      Halts .outOfFuel (fun k => navigateToAlias C k name c .empty) s') :
    Halts .outOfFuel (fun k => resolveNext C k name config tracker) s := by
  unfold resolveNext
  split
  · next hcontains => exact hwithin hcontains
  · apply (search_halts hC .empty s).bind
    intro c s' hsearch
    split
    · next hc =>
      obtain ⟨n, hn⟩ := hsearch
      exact habove c s' (search_above hC n (not_contains_empty name) (hn n (Nat.le_refl n)) hc) hc
    · exact (Quiet.moveOr _ _).halts s'

/-- Following an alias makes the depth smaller, or leaves it and makes the unseen aliases fewer. -/
theorem alias_halts (hC : FiniteAncestry C depth) (name : Text) (config : Config) (tracker : AliasCycleTracker)
    (s : NavState σ) (hcontains : config.contains name = true) :
    Halts .outOfFuel (fun k => navigateToAlias C k name config tracker) s := by
  induction hd : depth s.pos using Nat.strong_induction_on generalizing name config tracker s with
  | _ d ihd =>
    induction hu : unseen config tracker using Nat.strong_induction_on generalizing name tracker s with
    | _ u ihu =>
      obtain ⟨value, hvalue⟩ := Option.isSome_iff_exists.mp hcontains
      by_cases htype : getPathType value = .aliased
      · by_cases hseen : name ∈ tracker.seen
        · exact halts_of_succ (fun k => alias_cycle hvalue htype hseen) nofun
        · have hfollow := fun k => alias_follows (C := C) (k := k) (s := s) hvalue htype hseen
          match hover : C.toAliasOverride (extractAlias value) s.pos with
          | (.success, p) =>
            rw [hover] at hfollow
            exact halts_of_succ hfollow ((Quiet.navigateThroughPath value).fuel _)
          | (.ambiguous, p) =>
            rw [hover] at hfollow
            exact halts_of_succ hfollow nofun
          | (.notFound, p) =>
            rw [hover] at hfollow
            obtain rfl : p = s.pos := hC.override _ _ _ hover
            refine Halts.succ (Halts.bind ?_ fun _ s' _ => (Quiet.navigateThroughPath value).halts s')
              hfollow
            apply resolveNext_halts hC
            · intro hnext
              exact ihu _ (hu ▸ unseen_add hcontains hseen _) _ _ (s.log name) hnext hd rfl
            · intro c s' hup hc
              exact ihd _ (hd ▸ hup) _ c .empty s' hc rfl
      · exact halts_of_succ (fun k => alias_arrives hvalue htype) ((Quiet.arrive value).fuel _)

end Aliases

section Navigate

variable {σ : Type} {C : NavigationContext σ} {depth : σ → ℕ}

theorem navigateImpl_halts (hC : FiniteAncestry C depth) (selfIsSelf : Bool) (path : Text) (s : NavState σ) :
    Halts .outOfFuel (fun k => navigateImpl C selfIsSelf k path) s := by
  have hthrough : ∀ s, Halts .outOfFuel (fun _ => navigateThroughPath C path) s :=
    (Quiet.navigateThroughPath path).halts
  unfold navigateImpl
  cases getPathType path with
  | unsupported => exact (Quiet.fail _).halts s
  | relativeToCurrent | relativeToParent =>
    apply ((Quiet.moveOr _ _).halts s).bind
    intro _ s' _
    apply ((Quiet.moveOr _ _).halts s').bind
    exact fun _ s'' _ => hthrough s''
  | aliased =>
    apply ((Quiet.moveOr _ _).halts s).bind
    intro _ s' _
    split
    · exact hthrough s'
    · apply ((Quiet.override _).halts s').bind
      intro overridden s' _
      split
      · exact hthrough s'
      · apply (search_halts hC .empty s').bind
        intro config s' _
        split
        · next hcontains =>
          apply (alias_halts hC _ config .empty s' hcontains).bind
          exact fun _ s' _ => hthrough s'
        · split
          · apply ((Quiet.moveOr _ _).halts s').bind
            exact fun _ s' _ => hthrough s'
          · apply ((Quiet.moveOr _ _).halts s').bind
            exact fun _ s' _ => hthrough s'

/-- `navigate` returns `r`: with any amount of fuel that is large enough. -/
def Returns (C : NavigationContext σ) (selfIsSelf : Bool) (path : Text) (pos : σ) (r : Status × NavState σ) : Prop :=
  ∃ n, ∀ k ≥ n, navigate C selfIsSelf k path pos = some r

/-- The result of `navigate` for a result of `navigateImpl` -/
def report : EStateM.Result NavStop (NavState σ) Unit → Option (Status × NavState σ)
  | .ok _ s => some (.success, s)
  | .error (.error e) s => some (.errorReported e.text, s)
  | .error .outOfFuel _ => none

/-- Separators of either kind -/
def normalize (path : Text) : Text := path.map fun c => if c = '\\' then '/' else c

theorem navigate_eq (selfIsSelf : Bool) (k : ℕ) (path : Text) (pos : σ) :
    navigate C selfIsSelf k path pos = report (navigateImpl C selfIsSelf k (normalize path) ⟨pos, []⟩) := by
  unfold navigate normalize
  cases navigateImpl C selfIsSelf k (path.map fun c => if c = '\\' then '/' else c) ⟨pos, []⟩ with
  | ok _ s => rfl
  | error stop s => cases stop <;> rfl

/-- **Navigation ends**: with success at a position, or with an error. -/
theorem navigate_returns (hC : FiniteAncestry C depth) (selfIsSelf : Bool) (path : Text) (pos : σ) :
    ∃ r, Returns C selfIsSelf path pos r := by
  obtain ⟨q, ⟨n, hn⟩, hfuel⟩ := navigateImpl_halts hC selfIsSelf (normalize path) ⟨pos, []⟩
  have hreport : ∃ r, report q = some r := by
    match q with
    | .ok _ s => exact ⟨_, rfl⟩
    | .error (.error e) s => exact ⟨_, rfl⟩
    | .error .outOfFuel s => exact absurd rfl (hfuel s)
  obtain ⟨r, hr⟩ := hreport
  refine ⟨r, n, fun k hk => ?_⟩
  have hrun : navigateImpl C selfIsSelf k (normalize path) ⟨pos, []⟩ = q := hn k hk
  rw [navigate_eq, hrun, hr]

end Navigate

end Luwu.Require
