import Luwu.Require.Run

/-!
# Aliases in other letter case

A mention of an alias in a require path is put in lower case before it is looked up, a mention inside the path of
another alias is not, and neither is a key that `parseAlias` looks for before it sets it. So two spellings of one alias
are treated alike where both of them, or neither, are in lower case, and an earlier definition is kept where the later
one is spelled in lower case.
-/

namespace Luwu.Require

open Run Fuel

section Spellings

variable {s s' rest : Text} {path : Text} {n : ℕ}

/-- The characters that a text and its other spelling cannot differ in -/
theorem valid_no_slash (h : isValidAlias s = true) : '/' ∉ s ∧ '\\' ∉ s ∧ s ≠ [] := by
  unfold isValidAlias at h
  by_cases hne : s = []
  · rw [if_pos hne] at h
    cases h
  · rw [if_neg hne] at h
    by_cases hbad : s = ".".toList ∨ s = "..".toList ∨ '\\' ∈ s ∨ '/' ∈ s
    · rw [if_pos hbad] at h
      cases h
    · exact ⟨fun hm => hbad (Or.inr (Or.inr (Or.inr hm))), fun hm => hbad (Or.inr (Or.inr (Or.inl hm))), hne⟩

theorem length_of_toLower (h : toLower s = toLower s') : s.length = s'.length := by
  have hmap := congrArg List.length h
  unfold toLower at hmap
  rwa [List.length_map, List.length_map] at hmap

theorem toLower_append (a b : Text) : toLower (a ++ b) = toLower a ++ toLower b := List.map_append

theorem toLower_cons (ch : Char) (a : Text) : toLower (ch :: a) = ch.toLower :: toLower a := rfl

/-- A mention of an alias: the alias, and what follows it -/
def mention (s rest : Text) : Text := '@' :: (s ++ rest)

theorem findIdx_mention (hs : '/' ∉ s) (hrest : rest = [] ∨ rest.head? = some '/') :
    (mention s rest).findIdx? (· = '/') = if rest = [] then none else some (s.length + 1) := by
  have hnone : ('@' :: s).findIdx? (fun c => decide (c = '/')) = none := by
    rw [List.findIdx?_eq_none_iff]
    intro c hc
    have hne : c ≠ '/' := by
      rintro rfl
      rcases List.mem_cons.mp hc with h | h
      · exact absurd h (by decide)
      · exact hs h
    exact decide_eq_false hne
  have hsplit : mention s rest = ('@' :: s) ++ rest := rfl
  rw [hsplit, List.findIdx?_append, hnone, Option.none_or]
  rcases hrest with rfl | hhead
  · rfl
  · cases rest with
    | nil => cases hhead
    | cons ch rest =>
      obtain rfl : ch = '/' := Option.some.inj hhead
      rw [if_neg (List.cons_ne_nil _ _), List.findIdx?_cons]
      simp only [decide_true, if_true, Option.map_some, List.length_cons, Nat.zero_add]

theorem extractAlias_mention (hs : '/' ∉ s) (hrest : rest = [] ∨ rest.head? = some '/') :
    extractAlias (mention s rest) = s := by
  unfold extractAlias
  rw [findIdx_mention hs hrest]
  by_cases hnil : rest = []
  · rw [if_pos hnil]
    simp [mention, hnil]
  · rw [if_neg hnil]
    simp [mention]

theorem splitPath_mention (hs : '/' ∉ s) (hrest : rest = [] ∨ rest.head? = some '/') :
    (splitPath (mention s rest)).2 = rest.drop 1 := by
  unfold splitPath
  rw [findIdx_mention hs hrest]
  by_cases hnil : rest = []
  · rw [if_pos hnil, hnil]
    rfl
  · rw [if_neg hnil]
    show (('@' :: (s ++ rest)).drop (s.length + 1 + 1)) = rest.drop 1
    rw [List.drop_succ_cons, ← List.drop_drop, List.drop_left]

theorem getPathType_mention (s rest : Text) : getPathType (mention s rest) = .aliased := by
  unfold getPathType mention
  have hhead : ('@' :: (s ++ rest)).head? = some '@' := rfl
  rw [if_neg (by simp), if_neg (by simp), hhead, if_pos rfl]

theorem normalize_mention (hs : '\\' ∉ s) (rest : Text) : normalize (mention s rest) = mention s (normalize rest) := by
  have hmap : s.map (fun c => if c = '\\' then '/' else c) = s := by
    conv_rhs => rw [← List.map_id s]
    refine List.map_congr_left fun c hc => ?_
    have hne : c ≠ '\\' := by
      rintro rfl
      exact hs hc
    rw [if_neg hne]
    rfl
  unfold normalize mention
  rw [List.map_cons, List.map_append, hmap]
  rfl

/-- The walk through a path ignores the alias that it begins with. -/
theorem throughPath_mention {σ : Type} (C : NavigationContext σ) (hs : '/' ∉ s) (hs' : '/' ∉ s')
    (hlen : s.length = s'.length) (hrest : rest = [] ∨ rest.head? = some '/') :
    navigateThroughPath C (mention s rest) = navigateThroughPath C (mention s' rest) := by
  have hlength : (mention s rest).length = (mention s' rest).length := by
    unfold mention
    simp [hlen]
  have hat : ∀ s, (mention s rest).head? = some '@' := fun _ => rfl
  unfold navigateThroughPath
  simp only [hat, if_true]
  rw [splitPath_mention hs hrest, splitPath_mention hs' hrest, hlength]

end Spellings

section Aliases

variable {c : Config} {name value key : Text}

/-- An alias is found under the text in lower case, and the others stay. -/
theorem find_set (c : Config) (hname : name ≠ []) (value key : Text) :
    (c.setAlias name value).find key = if key = toLower name then some value else c.find key := by
  have hlower : toLower name ≠ [] := fun h => hname (List.map_eq_nil_iff.mp h)
  unfold Config.setAlias Config.find
  rw [if_neg hlower, List.lookup_cons]
  by_cases hkey : key = toLower name
  · rw [beq_iff_eq.mpr hkey, if_pos hkey]
  · rw [beq_eq_false_iff_ne.mpr hkey, if_neg hkey]
    show List.lookup key (c.aliases.filter fun a => a.1 ≠ toLower name) = c.aliases.lookup key
    induction c.aliases with
    | nil => rfl
    | cons a l ih =>
      rw [List.filter_cons, List.lookup_cons]
      by_cases ha : a.1 = toLower name
      · have hne : (key == a.1) = false := beq_eq_false_iff_ne.mpr fun h => hkey (h.trans ha)
        rw [if_neg (by simpa using ha), hne, ih]
      · rw [if_pos (by simpa using ha), List.lookup_cons, ih]

/-- A mention that is not in lower case is in no configuration. -/
theorem not_contains_mixed (hc : c.Lower) (hkey : toLower key ≠ key) : c.contains key = false := by
  cases h : c.contains key with
  | false => rfl
  | true => exact absurd (hc.of_contains h) hkey

end Aliases

section Alike

variable {σ α β : Type}

/-- An embedder that ignores the letter case of aliases -/
structure IgnoresCase (C : NavigationContext σ) : Prop where
  override : ∀ a b, toLower a = toLower b → C.toAliasOverride a = C.toAliasOverride b
  fallback : ∀ a b, toLower a = toLower b → C.toAliasFallback a = C.toAliasFallback b
  getAlias : ∀ a b, toLower a = toLower b → C.getAlias a = C.getAlias b

/-- Two runs that end the same, with messages that differ in letter case at most -/
def Alike (r r' : EStateM.Result NavStop (NavState σ) α) : Prop :=
  match r, r' with
  | .ok a t, .ok a' t' => a = a' ∧ t = t'
  | .error (.error e) t, .error (.error e') t' => toLower e.text = toLower e'.text ∧ t = t'
  | .error .outOfFuel t, .error .outOfFuel t' => t = t'
  | _, _ => False

theorem Alike.refl (r : EStateM.Result NavStop (NavState σ) α) : Alike r r := by
  match r with
  | .ok a t => exact ⟨rfl, rfl⟩
  | .error (.error e) t => exact ⟨rfl, rfl⟩
  | .error .outOfFuel t => exact rfl

theorem Alike.message {a b : Text} (h : toLower a = toLower b) (t : NavState σ) :
    Alike (.error (.error (.message a)) t : EStateM.Result NavStop (NavState σ) α) (.error (.error (.message b)) t) :=
  ⟨h, rfl⟩

theorem Alike.bind {x x' : NavM σ α} {f f' : α → NavM σ β} {t t' : NavState σ} (hx : Alike (x t) (x' t'))
    (hf : ∀ a t, Alike (f a t) (f' a t)) : Alike ((x >>= f) t) ((x' >>= f') t') := by
  rw [run_bind, run_bind]
  match x t, x' t', hx with
  | .ok a u, .ok a' u', h =>
    obtain ⟨rfl, rfl⟩ := h
    exact hf a u
  | .error (.error e) u, .error (.error e') u', h => exact h
  | .error .outOfFuel u, .error .outOfFuel u', h => exact h

theorem Alike.moveOr {f f' : σ → NavigateResult × σ} {a b : Text} (hf : f = f') (h : toLower a = toLower b)
    (t : NavState σ) : Alike (moveOr f a t) (moveOr f' b t) := by
  subst hf
  refine Alike.bind (Alike.refl _) fun result u => ?_
  cases result with
  | success => exact Alike.refl _
  | ambiguous =>
    refine Alike.message ?_ u
    rw [toLower_append, toLower_append, h]
  | notFound => exact Alike.message h u

end Alike

section Mentions

variable {σ : Type} {C : NavigationContext σ} {s s' rest : Text} {c c' : Config}

/-- The search for a name that no configuration has -/
theorem search_alike (hC : IgnoresCase C) (hcase : toLower s = toLower s') (hs : toLower s ≠ s)
    (hs' : toLower s' ≠ s') (k : ℕ) (hc : c.Lower) (t : NavState σ) :
    Alike (navigateToAndPopulateConfig C k s c t) (navigateToAndPopulateConfig C k s' c t) := by
  induction k generalizing c t with
  | zero => exact rfl
  | succ k ih =>
    rw [search_step k (not_contains_mixed hc hs), search_step k (not_contains_mixed hc hs')]
    match C.toParent t.pos with
    | (.ambiguous, p) =>
      refine Alike.message ?_ _
      simp only [toLower_append, hcase]
    | (.notFound, p) => exact Alike.refl _
    | (.success, p) =>
      simp only
      have hfound : searchAt C s p = searchAt C s' p ∨
          ∃ a b, toLower a = toLower b ∧ searchAt C s p = .error (.message a) ∧
            searchAt C s' p = .error (.message b) := by
        unfold searchAt
        cases C.getConfigStatus p with
        | absent => exact Or.inl rfl
        | ambiguous => exact Or.inr ⟨_, _, by simp only [toLower_append, hcase], rfl, rfl⟩
        | presentJson | presentLuau =>
          simp only
          by_cases hbehavior : C.getConfigBehavior p = .getAlias
          · rw [if_pos hbehavior, if_pos hbehavior, hC.getAlias s s' hcase]
            cases C.getAlias s' p with
            | none => exact Or.inr ⟨_, _, by simp only [toLower_append, hcase], rfl, rfl⟩
            | some value =>
              left
              unfold Config.setAlias
              rw [hcase]
          · rw [if_neg hbehavior, if_neg hbehavior]
            cases C.getConfig p with
            | none => exact Or.inr ⟨_, _, by simp only [toLower_append, hcase], rfl, rfl⟩
            | some file => exact Or.inl rfl
      rcases hfound with heq | ⟨a, b, hab, hat, hat'⟩
      · rw [← heq]
        match hat : searchAt C s p with
        | .error e => exact Alike.refl _
        | .ok (config, true) => exact Alike.refl _
        | .ok (config, false) => exact ih (searchAt_lower hat) _
      · rw [hat, hat']
        exact Alike.message hab _

theorem resolveNext_alike (hC : IgnoresCase C) (hcase : toLower s = toLower s') (hs : toLower s ≠ s)
    (hs' : toLower s' ≠ s') (hc : c.Lower) (hc' : c'.Lower) (k : ℕ) (tracker : AliasCycleTracker) (t : NavState σ) :
    Alike (resolveNext C k s c tracker t) (resolveNext C k s' c' tracker t) := by
  have hfallback : ∀ t, Alike (toAliasFallback C s t) (toAliasFallback C s' t) := by
    intro t
    refine Alike.moveOr (hC.fallback s s' hcase) ?_ t
    simp only [toLower_append, toLower_cons, List.cons_append, hcase]
  unfold resolveNext
  rw [if_neg (by rw [not_contains_mixed hc hs]; exact Bool.false_ne_true),
    if_neg (by rw [not_contains_mixed hc' hs']; exact Bool.false_ne_true), run_bind, run_bind]
  have hsearch := search_alike hC hcase hs hs' k empty_lower t
  match hrun : navigateToAndPopulateConfig C k s .empty t, hrun' : navigateToAndPopulateConfig C k s' .empty t, hsearch with
  | .ok parent u, .ok parent' u', h =>
    obtain ⟨rfl, rfl⟩ := h
    have hlower := search_lower k empty_lower hrun
    simp only [not_contains_mixed hlower hs, not_contains_mixed hlower hs', Bool.false_eq_true, if_false]
    exact hfallback u
  | .error (.error e) u, .error (.error e') u', h => exact h
  | .error .outOfFuel u, .error .outOfFuel u', h => exact h

/-- Two mentions that are not in lower case lead nowhere, and to the same place. -/
theorem alias_alike (hC : IgnoresCase C) (hvalid : '/' ∉ s) (hvalid' : '/' ∉ s')
    (hrest : rest = [] ∨ rest.head? = some '/') (hcase : toLower s = toLower s') (hs : toLower s ≠ s)
    (hs' : toLower s' ≠ s') (hc : c.Lower) (name : Text) (k : ℕ) (tracker : AliasCycleTracker) (t : NavState σ) :
    Alike (navigateToAlias C k (toLower name) (c.setAlias name (mention s rest)) tracker t)
      (navigateToAlias C k (toLower name) (c.setAlias name (mention s' rest)) tracker t) := by
  cases k with
  | zero => exact rfl
  | succ k =>
    by_cases hname : name = []
    · have hkept : ∀ value, c.setAlias name value = c := by
        intro value
        unfold Config.setAlias
        rw [if_pos (by rw [hname]; rfl)]
      rw [hkept, hkept]
      exact Alike.refl _
    · have hfind : ∀ value, (c.setAlias name value).find (toLower name) = some value := by
        intro value
        rw [find_set c hname, if_pos rfl]
      by_cases hseen : toLower name ∈ tracker.seen
      · rw [alias_cycle (hfind _) (getPathType_mention s rest) hseen,
          alias_cycle (hfind _) (getPathType_mention s' rest) hseen]
        exact Alike.refl _
      · have hthrough := throughPath_mention C hvalid hvalid' (length_of_toLower hcase) hrest
        rw [alias_follows (hfind _) (getPathType_mention s rest) hseen,
          alias_follows (hfind _) (getPathType_mention s' rest) hseen, extractAlias_mention hvalid hrest,
          extractAlias_mention hvalid' hrest, hC.override s s' hcase, hthrough]
        match C.toAliasOverride s' t.pos with
        | (.success, p) => exact Alike.refl _
        | (.ambiguous, p) =>
          refine Alike.message ?_ _
          simp only [toLower_append, toLower_cons, List.cons_append, hcase]
        | (.notFound, p) =>
          refine Alike.bind ?_ fun _ _ => Alike.refl _
          exact resolveNext_alike hC hcase hs hs' (hc.setAlias _ _) (hc.setAlias _ _) k _ _

end Mentions

section Statement

variable {s s' rest value : Text} {c : Config}

/-- Two spellings of an alias, each followed by `rest`, are the same to require paths and to the paths of aliases, an
alias set as one of them is found as the other, and with `s` defined in `c` a later definition of `s'` changes nothing. -/
structure CaseInsensitive (s s' rest : Text) (c : Config) (value : Text) : Prop where
  requirePath : ∀ (σ : Type) (C : NavigationContext σ) (selfIsSelf : Bool) (k : ℕ) (pos : σ),
    navigate C selfIsSelf k (mention s rest) pos = navigate C selfIsSelf k (mention s' rest) pos
  definition : ∀ (σ : Type) (C : NavigationContext σ), IgnoresCase C → ∀ (c₁ : Config), c₁.Lower →
    ∀ (name : Text) (k : ℕ) (tracker : AliasCycleTracker) (t : NavState σ),
      Alike (navigateToAlias C k (toLower name) (c₁.setAlias name (mention s rest)) tracker t)
        (navigateToAlias C k (toLower name) (c₁.setAlias name (mention s' rest)) tracker t)
  found : (c.setAlias s value).find (toLower s') = some value
  kept : (c.find (toLower s)).isSome → ∀ c', parseAlias c s' value = .ok c' →
    c'.find (toLower s) = c.find (toLower s)

theorem navigate_alike {σ : Type} (C : NavigationContext σ) (hs : isValidAlias s) (hs' : isValidAlias s')
    (hcase : toLower s = toLower s') (hrest : rest = [] ∨ rest.head? = some '/') (selfIsSelf : Bool) (k : ℕ) (pos : σ) :
    navigate C selfIsSelf k (mention s rest) pos = navigate C selfIsSelf k (mention s' rest) pos := by
  have hslash := (valid_no_slash hs).1
  have hslash' := (valid_no_slash hs').1
  have hrest' : normalize rest = [] ∨ (normalize rest).head? = some '/' := by
    rcases hrest with rfl | hhead
    · exact Or.inl rfl
    · right
      unfold normalize
      rw [List.head?_map, hhead]
      rfl
  rw [navigate_eq, navigate_eq, normalize_mention (valid_no_slash hs).2.1, normalize_mention (valid_no_slash hs').2.1]
  unfold navigateImpl
  rw [getPathType_mention, getPathType_mention, extractAlias_mention hslash hrest', extractAlias_mention hslash' hrest',
    throughPath_mention C hslash hslash' (length_of_toLower hcase) hrest', hcase]

/-- A place below which everything succeeds, with nothing below the other place -/
def twoPlaces : NavigationContext Bool where
  resetToRequirer := fun p => (.success, p)
  jumpToAlias := fun _ _ => (.success, true)
  toAliasOverride := fun _ p => (.notFound, p)
  toAliasFallback := fun _ p => (.notFound, p)
  toParent := fun p => if p then (.success, p) else (.notFound, p)
  toChild := fun _ p => (.success, p)
  getConfigStatus := fun _ => .absent
  getConfigBehavior := fun _ => .getConfig
  getAlias := fun _ _ => none
  getConfig := fun _ => none

theorem twoPlaces_ignoresCase : IgnoresCase twoPlaces := ⟨fun _ _ _ => rfl, fun _ _ _ => rfl, fun _ _ _ => rfl⟩

/-- From the place where everything succeeds no walk fails. -/
theorem twoPlaces_walks (k : ℕ) (previous : Option Text) (components : Text × Text) (e : NavError)
    (log : List (Bool × Text)) (t : NavState Bool) :
    walkPath twoPlaces k previous components ⟨true, log⟩ ≠ .error (.error e) t := by
  induction k generalizing previous components with
  | zero =>
    intro h
    cases h
  | succ k ih =>
    unfold walkPath
    by_cases hdone : components.1 = [] ∧ components.2 = []
    · rw [if_pos hdone]
      intro h
      cases h
    · rw [if_neg hdone]
      by_cases hdot : components.1 = ".".toList ∨ components.1 = []
      · rw [if_pos hdot]
        exact ih _ _
      · rw [if_neg hdot]
        by_cases hdots : components.1 = "..".toList
        · rw [if_pos hdots]
          exact ih _ _
        · rw [if_neg hdots]
          exact ih _ _

/-- A mention in lower case arrives where one that is not fails. -/
theorem twoPlaces_separates (hvalid : isValidAlias s) (hvalid' : isValidAlias s')
    (hrest : rest = [] ∨ rest.head? = some '/') (hs : toLower s = s) (hs' : toLower s' ≠ s') :
    ∃ c₁ : Config, c₁.Lower ∧ ∃ name k t,
      (∀ e u, navigateToAlias twoPlaces k (toLower name) (c₁.setAlias name (mention s rest)) .empty t ≠
        .error (.error e) u) ∧
      ∃ e u, navigateToAlias twoPlaces k (toLower name) (c₁.setAlias name (mention s' rest)) .empty t =
        .error (.error e) u := by
  have hne := (valid_no_slash hvalid).2.2
  have hkey : s ≠ toLower ('x' :: s) := by
    intro h
    have hlen := congrArg List.length h
    unfold toLower at hlen
    rw [List.length_map, List.length_cons] at hlen
    omega
  have hlower : (Config.empty.setAlias s "j".toList).Lower := empty_lower.setAlias _ _
  refine ⟨Config.empty.setAlias s "j".toList, hlower, 'x' :: s, 3, ⟨false, []⟩, fun e u => ?_, ?_⟩
  · have hfind : ∀ key, ((Config.empty.setAlias s "j".toList).setAlias ('x' :: s) (mention s rest)).find key =
        if key = toLower ('x' :: s) then some (mention s rest) else if key = s then some "j".toList else none := by
      intro key
      rw [find_set _ (List.cons_ne_nil _ _), find_set _ hne, hs]
      rfl
    have hcontains : ((Config.empty.setAlias s "j".toList).setAlias ('x' :: s) (mention s rest)).contains s = true := by
      unfold Config.contains
      rw [hfind, if_neg hkey, if_pos rfl]
      rfl
    have hjump : (Config.find ((Config.empty.setAlias s "j".toList).setAlias ('x' :: s) (mention s rest)) s) =
        some "j".toList := by
      rw [hfind, if_neg hkey, if_pos rfl]
    rw [alias_follows (by rw [hfind, if_pos rfl]) (getPathType_mention s rest) List.not_mem_nil,
      extractAlias_mention (valid_no_slash hvalid).1 hrest]
    show (resolveNext twoPlaces 2 s _ _ >>= fun _ => navigateThroughPath twoPlaces (mention s rest)) _ ≠ _
    unfold resolveNext
    rw [if_pos hcontains, run_bind, alias_arrives hjump (by decide)]
    exact twoPlaces_walks _ _ _ e _ u
  · have hclosed := hlower.setAlias ('x' :: s) (mention s' rest)
    have hfind : ((Config.empty.setAlias s "j".toList).setAlias ('x' :: s) (mention s' rest)).find (toLower ('x' :: s)) =
        some (mention s' rest) := by
      rw [find_set _ (List.cons_ne_nil _ _), if_pos rfl]
    refine ⟨.message ('@' :: s' ++ " is not a valid alias".toList), ⟨false, [(false, toLower ('x' :: s))]⟩, ?_⟩
    rw [alias_follows hfind (getPathType_mention s' rest) List.not_mem_nil,
      extractAlias_mention (valid_no_slash hvalid').1 hrest]
    show (resolveNext twoPlaces 2 s' _ _ >>= fun _ => navigateThroughPath twoPlaces (mention s' rest)) _ = _
    unfold resolveNext
    rw [if_neg (by rw [not_contains_mixed hclosed hs']; exact Bool.false_ne_true), run_bind, run_bind,
      search_step 1 (not_contains_empty _)]
    rfl

/-- A definition under one spelling keeps an earlier one under the other. -/
theorem kept_iff (hvalid' : isValidAlias s') (hcase : toLower s = toLower s') (hc : c.Lower) :
    ((c.find (toLower s)).isSome → ∀ c', parseAlias c s' value = .ok c' → c'.find (toLower s) = c.find (toLower s)) ↔
      toLower s' = s' ∨ c.find (toLower s) = none ∨ c.find (toLower s) = some value := by
  have hne := (valid_no_slash hvalid').2.2
  have hset : (c.setAlias s' value).find (toLower s) = some value := by
    rw [find_set c hne, if_pos hcase]
  constructor
  · intro hkept
    by_cases hlower : toLower s' = s'
    · exact Or.inl hlower
    · right
      have hparse : parseAlias c s' value = .ok (c.setAlias s' value) := by
        unfold parseAlias
        rw [if_pos hvalid', not_contains_mixed hc hlower]
        rfl
      cases hfind : c.find (toLower s) with
      | none => exact Or.inl rfl
      | some old =>
        right
        rw [hfind] at hkept
        exact ((hkept rfl _ hparse).symm.trans hset)
  · rintro hcond hsome c' hparse
    unfold parseAlias at hparse
    rw [if_pos hvalid'] at hparse
    by_cases hcontains : c.contains s' = true
    · rw [hcontains] at hparse
      cases hparse
      rfl
    · rw [eq_false_of_ne_true hcontains] at hparse
      obtain rfl : c.setAlias s' value = c' := Except.ok.inj hparse
      rcases hcond with hlower | hnone | hsame
      · have hin : c.contains s' = true := by
          unfold Config.contains
          rw [← hlower, ← hcase]
          exact hsome
        exact absurd hin hcontains
      · rw [hnone] at hsome
        cases hsome
      · rw [hset, hsame]

/-- **Letter case.** Two spellings of an alias are the same everywhere exactly when both or neither of them are in lower
case, apart from a later definition, which is ignored exactly when it is spelled in lower case or changes nothing. -/
theorem caseInsensitive_iff (hvalid : isValidAlias s) (hvalid' : isValidAlias s') (hcase : toLower s = toLower s')
    (hrest : rest = [] ∨ rest.head? = some '/') (hc : c.Lower) :
    CaseInsensitive s s' rest c value ↔
      (s = s' ∨ toLower s ≠ s ∧ toLower s' ≠ s') ∧
        (toLower s' = s' ∨ c.find (toLower s) = none ∨ c.find (toLower s) = some value) := by
  constructor
  · intro h
    refine ⟨?_, (kept_iff hvalid' hcase hc).mp h.kept⟩
    by_cases hs : toLower s = s
    · left
      by_cases hs' : toLower s' = s'
      · rw [← hs, ← hs', hcase]
      · obtain ⟨c₁, hc₁, name, k, t, harrives, e, u, hfails⟩ := twoPlaces_separates hvalid hvalid' hrest hs hs'
        have halike := h.definition Bool twoPlaces twoPlaces_ignoresCase c₁ hc₁ name k .empty t
        rw [hfails] at halike
        match hrun : navigateToAlias twoPlaces k (toLower name) (c₁.setAlias name (mention s rest)) .empty t, halike with
        | .error (.error e') u', _ => exact absurd hrun (harrives e' u')
    · by_cases hs' : toLower s' = s'
      · obtain ⟨c₁, hc₁, name, k, t, harrives, e, u, hfails⟩ := twoPlaces_separates hvalid' hvalid hrest hs' hs
        have halike := h.definition Bool twoPlaces twoPlaces_ignoresCase c₁ hc₁ name k .empty t
        rw [hfails] at halike
        match hrun : navigateToAlias twoPlaces k (toLower name) (c₁.setAlias name (mention s' rest)) .empty t, halike with
        | .error (.error e') u', _ => exact absurd hrun (harrives e' u')
      · exact Or.inr ⟨hs, hs'⟩
  · rintro ⟨hspelling, hkept⟩
    refine ⟨fun σ C selfIsSelf k pos => navigate_alike C hvalid hvalid' hcase hrest selfIsSelf k pos, ?_, ?_,
      (kept_iff hvalid' hcase hc).mpr hkept⟩
    · intro σ C hC c₁ hc₁ name k tracker t
      rcases hspelling with rfl | ⟨hs, hs'⟩
      · exact Alike.refl _
      · exact alias_alike hC (valid_no_slash hvalid).1 (valid_no_slash hvalid').1 hrest hcase hs hs' hc₁ name k tracker t
    · rw [find_set c (valid_no_slash hvalid).2.2, if_pos hcase.symm]

theorem caseInsensitive_iff_sample :
    ("FOO".toList = "Foo".toList ∨ toLower "FOO".toList ≠ "FOO".toList ∧ toLower "Foo".toList ≠ "Foo".toList) ∧
      CaseInsensitive "FOO".toList "Foo".toList "/x".toList .empty "./y".toList :=
  ⟨by decide, (caseInsensitive_iff (by decide) (by decide) (by decide) (by decide) empty_lower).mpr (by decide)⟩

/-- `@FOO` in the path of an alias is not the alias `foo`, and a later `FOO` replaces an earlier `foo`. -/
theorem upper_case_differs :
    isValidAlias "foo".toList ∧ isValidAlias "FOO".toList ∧ toLower "foo".toList = toLower "FOO".toList ∧
      ¬CaseInsensitive "foo".toList "FOO".toList [] .empty "./b".toList ∧
        (Config.empty.setAlias "foo".toList "./a".toList).find "foo".toList = some "./a".toList ∧
        ∃ c', parseAlias (Config.empty.setAlias "foo".toList "./a".toList) "FOO".toList "./b".toList = .ok c' ∧
          c'.find "foo".toList = some "./b".toList := by
  refine ⟨by decide, by decide, by decide, fun h => ?_, by decide,
    (Config.empty.setAlias "foo".toList "./a".toList).setAlias "FOO".toList "./b".toList, rfl, by decide⟩
  exact h.definition Bool twoPlaces twoPlaces_ignoresCase (Config.empty.setAlias "foo".toList "j".toList)
    (empty_lower.setAlias _ _) "bar".toList 3 .empty ⟨false, []⟩

end Statement

end Luwu.Require
