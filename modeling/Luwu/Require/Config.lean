import Mathlib.Data.List.Basic
import Luwu.Lib.Run

/-!
# Paths, and the aliases of a configuration

Texts are lists of characters. A configuration maps aliases in lower case to paths.
-/

namespace Luwu.Require

abbrev Text := List Char

inductive PathType where
  | relativeToCurrent
  | relativeToParent
  | aliased
  | unsupported
  deriving DecidableEq, Repr

def getPathType (path : Text) : PathType :=
  if path.take 2 = "./".toList then .relativeToCurrent
  else if path.take 3 = "../".toList then .relativeToParent
  else if path.head? = some '@' then .aliased
  else .unsupported

def splitPath (path : Text) : Text × Text :=
  match path.findIdx? (· = '/') with
  | none => (path, [])
  | some pos => (path.take pos, path.drop (pos + 1))

/-- The text after `@`, up to a separator. -/
def extractAlias (path : Text) : Text :=
  match path.findIdx? (· = '/') with
  | none => path.drop 1
  | some 0 => path.drop 1
  | some (pos + 1) => (path.drop 1).take pos

def toLower (s : Text) : Text := s.map Char.toLower

/-- The empty text is the empty key of the hash table, so it is never in it. -/
structure Config where
  aliases : List (Text × Text)
  deriving DecidableEq, Repr

namespace Config

def empty : Config := ⟨[]⟩

def find (c : Config) (key : Text) : Option Text := c.aliases.lookup key

def contains (c : Config) (key : Text) : Bool := (c.find key).isSome

def setAlias (c : Config) (name value : Text) : Config :=
  if toLower name = [] then c
  else ⟨(toLower name, value) :: c.aliases.filter fun a => a.1 ≠ toLower name⟩

end Config

def isValidAlias (name : Text) : Bool :=
  if name = [] then false
  else if name = ".".toList ∨ name = "..".toList ∨ '\\' ∈ name ∨ '/' ∈ name then false
  else
    name.zipIdx.all fun (ch, i) =>
      i = 0 && ch = '@' || 'A' ≤ ch && ch ≤ 'Z' || 'a' ≤ ch && ch ≤ 'z' || '0' ≤ ch && ch ≤ '9' ||
        ch = '-' || ch = '_' || ch = '.'

/-- `parseAlias` without overwriting of aliases, as the navigator asks for it -/
def parseAlias (c : Config) (aliasKey aliasValue : Text) : Except Text Config :=
  if isValidAlias aliasKey then
    if !c.contains aliasKey then .ok (c.setAlias aliasKey aliasValue) else .ok c
  else .error ("Invalid alias ".toList ++ aliasKey)

/-- What the parser of configuration files reads: aliases in order, and an error that it may end with. -/
structure ConfigFile where
  aliases : List (Text × Text)
  failure : Option Text
  deriving DecidableEq, Repr

/-- The aliases of `parseConfig` and `extractLuauConfig` -/
def parseConfig (file : ConfigFile) (c : Config) : Except Text Config := do
  let c ← file.aliases.foldlM (fun c a => parseAlias c a.1 a.2) c
  match file.failure with
  | some error => .error error
  | none => .ok c

section Lemmas

variable {c c' : Config} {key name value : Text} {file : ConfigFile} {path : Text}

theorem charToLower_idem (ch : Char) : ch.toLower.toLower = ch.toLower := by
  have hkept : ∀ d : Char, ¬(d.val ≥ 'A'.val ∧ d.val ≤ 'Z'.val) → d.toLower = d := by
    intro d hd
    unfold Char.toLower
    rw [dif_neg hd]
  by_cases hupper : ch.val ≥ 'A'.val ∧ ch.val ≤ 'Z'.val
  · apply hkept
    have hval : ch.toLower.val = ch.val + ('a'.val - 'A'.val) := by
      unfold Char.toLower
      rw [dif_pos hupper]
    intro hboth
    have hlo := UInt32.le_iff_toNat_le.mp hupper.1
    have hhi := UInt32.le_iff_toNat_le.mp hboth.2
    rw [hval, UInt32.toNat_add] at hhi
    have hle := UInt32.le_iff_toNat_le.mp hupper.2
    have ha : ('A'.val).toNat = 65 := rfl
    have hz : ('Z'.val).toNat = 90 := rfl
    have hd : ('a'.val - 'A'.val).toNat = 32 := rfl
    omega
  · rw [hkept ch hupper, hkept ch hupper]

theorem toLower_idem (s : Text) : toLower (toLower s) = toLower s := by
  unfold toLower
  rw [List.map_map]
  exact List.map_congr_left fun ch _ => charToLower_idem ch

/-- Every key is a text in lower case. -/
def Config.Lower (c : Config) : Prop := ∀ a ∈ c.aliases, toLower a.1 = a.1

theorem empty_lower : Config.empty.Lower := fun _ ha => absurd ha List.not_mem_nil

theorem Config.Lower.setAlias (h : c.Lower) (name value : Text) : (c.setAlias name value).Lower := by
  intro a ha
  unfold Config.setAlias at ha
  split at ha
  · exact h a ha
  · rcases List.mem_cons.mp ha with rfl | ha
    · exact toLower_idem name
    · exact h a (List.mem_filter.mp ha).1

theorem Config.Lower.parseAlias (h : c.Lower) (hparse : parseAlias c name value = .ok c') : c'.Lower := by
  unfold Require.parseAlias at hparse
  split at hparse
  · split at hparse
    · cases hparse
      exact h.setAlias name value
    · cases hparse
      exact h
  · cases hparse

theorem Config.Lower.parseConfig (h : c.Lower) (hparse : parseConfig file c = .ok c') : c'.Lower := by
  have hfold : ∀ (l : List (Text × Text)) (c c' : Config), c.Lower →
      l.foldlM (fun c a => Require.parseAlias c a.1 a.2) c = .ok c' → c'.Lower := by
    intro l
    induction l with
    | nil =>
      intro c c' hc hrun
      cases hrun
      exact hc
    | cons a l ih =>
      intro c c' hc hrun
      rw [List.foldlM_cons] at hrun
      cases hstep : Require.parseAlias c a.1 a.2 with
      | error e =>
        rw [hstep] at hrun
        cases hrun
      | ok c₁ =>
        rw [hstep] at hrun
        exact ih c₁ c' (hc.parseAlias hstep) hrun
  unfold Require.parseConfig at hparse
  cases hrun : file.aliases.foldlM (fun c a => Require.parseAlias c a.1 a.2) c with
  | error e =>
    rw [hrun] at hparse
    cases hparse
  | ok c₁ =>
    rw [hrun] at hparse
    have hlower := hfold file.aliases c c₁ h hrun
    cases hfailure : file.failure with
    | some e =>
      simp only [hfailure] at hparse
      cases hparse
    | none =>
      simp only [hfailure] at hparse
      cases hparse
      exact hlower

/-- Only texts in lower case are found. -/
theorem Config.Lower.of_contains (h : c.Lower) (hc : c.contains key = true) : toLower key = key := by
  unfold Config.contains Config.find at hc
  obtain ⟨value, hvalue⟩ := Option.isSome_iff_exists.mp hc
  obtain ⟨l, l', hl, -⟩ := List.lookup_eq_some_iff.mp hvalue
  exact h (key, value) (hl ▸ List.mem_append_right _ List.mem_cons_self)

theorem not_contains_empty (key : Text) : Config.empty.contains key = false := rfl

end Lemmas

end Luwu.Require

/-!
## The navigator

A require path is followed through a navigation context, whose position moves up and down. Loops and recursion
have fuel; running out of it is an outcome of its own.
-/

namespace Luwu.Require

inductive NavigateResult where
  | success
  | ambiguous
  | notFound
  deriving DecidableEq, Repr

inductive ConfigStatus where
  | absent
  | ambiguous
  | presentJson
  | presentLuau
  deriving DecidableEq, Repr

inductive ConfigBehavior where
  | getAlias
  | getConfig
  deriving DecidableEq, Repr

/-- The methods of the embedder, on positions `σ`. -/
structure NavigationContext (σ : Type) where
  resetToRequirer : σ → NavigateResult × σ
  jumpToAlias : Text → σ → NavigateResult × σ
  toAliasOverride : Text → σ → NavigateResult × σ
  toAliasFallback : Text → σ → NavigateResult × σ
  toParent : σ → NavigateResult × σ
  toChild : Text → σ → NavigateResult × σ
  getConfigStatus : σ → ConfigStatus
  getConfigBehavior : σ → ConfigBehavior
  getAlias : Text → σ → Option Text
  getConfig : σ → Option ConfigFile

inductive NavError where
  | message (text : Text)
  | cycle (ordered : List Text) (repeated : Text)
  deriving DecidableEq, Repr

inductive NavStop where
  | error (e : NavError)
  | outOfFuel
  deriving DecidableEq, Repr

/-- The position, and a log of the aliases resolved: where `navigateToAlias` was called, and for which. -/
structure NavState (σ : Type) where
  pos : σ
  resolved : List (σ × Text)

abbrev NavM (σ : Type) := EStateM NavStop (NavState σ)

structure AliasCycleTracker where
  seen : List Text
  ordered : List Text
  deriving DecidableEq, Repr

def AliasCycleTracker.empty : AliasCycleTracker := ⟨[], []⟩

/-- `getStringifiedCycle`: `inCycle` is set by the first item that is the repeated one. -/
def getStringifiedCycle (repeated : Text) (ordered : List Text) : Text :=
  let rec go : Bool → List Text → Text
    | _, [] => []
    | inCycle, item :: rest =>
      (if inCycle then " -> @".toList ++ item else []) ++
        (if item = repeated then '@' :: item else []) ++ go (inCycle || item = repeated) rest
  go false ordered ++ " -> @".toList ++ repeated

def NavError.text : NavError → Text
  | .message text => text
  | .cycle ordered repeated => "detected alias cycle (".toList ++ getStringifiedCycle repeated ordered ++ ")".toList

section Navigator

variable {σ : Type} (C : NavigationContext σ)

def fail {α : Type} (text : Text) : NavM σ α := throw (.error (.message text))

/-- `AliasCycleTracker::add` -/
def AliasCycleTracker.add (tracker : AliasCycleTracker) (name : Text) : NavM σ AliasCycleTracker :=
  if name ∈ tracker.seen then throw (.error (.cycle tracker.ordered name))
  else return { seen := name :: tracker.seen, ordered := tracker.ordered ++ [name] }

/-- A move of the context. -/
def move (f : σ → NavigateResult × σ) : NavM σ NavigateResult := do
  let s ← get
  let (result, pos) := f s.pos
  set { s with pos := pos }
  return result

/-- A move that has to succeed. -/
def moveOr (f : σ → NavigateResult × σ) (errorMessage : Text) : NavM σ Unit := do
  match ← move f with
  | .success => return
  | .ambiguous => fail (errorMessage ++ " (ambiguous)".toList)
  | .notFound => fail errorMessage

def resetToRequirer : NavM σ Unit := moveOr C.resetToRequirer "could not reset to requiring context".toList

def jumpToAlias (aliasPath : Text) : NavM σ Unit :=
  moveOr (C.jumpToAlias aliasPath) ("could not jump to alias \"".toList ++ aliasPath ++ "\"".toList)

def navigateToParent (previousComponent : Option Text) : NavM σ Unit :=
  moveOr C.toParent
    (match previousComponent with
    | some component => "could not get parent of component \"".toList ++ component ++ "\"".toList
    | none => "could not get parent of requiring context".toList)

def navigateToChild (component : Text) : NavM σ Unit :=
  moveOr (C.toChild component) ("could not resolve child component \"".toList ++ component ++ "\"".toList)

/-- Whether the alias was overridden. -/
def toAliasOverride (aliasUnprefixed : Text) : NavM σ Bool := do
  match ← move (C.toAliasOverride aliasUnprefixed) with
  | .success => return true
  | .notFound => return false
  | .ambiguous => fail ('@' :: aliasUnprefixed ++ " is not a valid alias (ambiguous)".toList)

def toAliasFallback (aliasUnprefixed : Text) : NavM σ Unit :=
  moveOr (C.toAliasFallback aliasUnprefixed) ('@' :: aliasUnprefixed ++ " is not a valid alias".toList)

/-- The loop of `navigateThroughPath` -/
def walkPath : ℕ → Option Text → Text × Text → NavM σ Unit
  | 0, _, _ => throw .outOfFuel
  | k + 1, previousComponent, components =>
    if components.1 = [] ∧ components.2 = [] then return
    else if components.1 = ".".toList ∨ components.1 = [] then
      walkPath k previousComponent (splitPath components.2)
    else do
      if components.1 = "..".toList then navigateToParent C previousComponent
      else navigateToChild C components.1
      walkPath k (some components.1) (splitPath components.2)

def navigateThroughPath (path : Text) : NavM σ Unit :=
  let components := splitPath path
  -- If the path is aliased, we ignore the alias
  let components := if path.head? = some '@' then splitPath components.2 else components
  walkPath C (path.length + 2) none components

/-- The loop of `navigateToAndPopulateConfig`; the config that it leaves -/
def navigateToAndPopulateConfig : ℕ → Text → Config → NavM σ Config
  | 0, _, _ => throw .outOfFuel
  | k + 1, desiredAlias, config =>
    if config.contains desiredAlias then return config
    else do
      match ← move C.toParent with
      | .ambiguous =>
        fail ("could not navigate up the ancestry chain during search for alias \"".toList ++ desiredAlias ++
          "\" (ambiguous)".toList)
      -- Not treated as an error: interpreted as reaching the root.
      | .notFound => return .empty
      | .success =>
        let s ← get
        match C.getConfigStatus s.pos with
        | .absent => navigateToAndPopulateConfig k desiredAlias .empty
        | .ambiguous =>
          fail ("could not resolve alias \"".toList ++ desiredAlias ++ "\" (ambiguous configuration file)".toList)
        | _ =>
          if C.getConfigBehavior s.pos = .getAlias then
            match C.getAlias desiredAlias s.pos with
            | none => fail ("could not resolve alias \"".toList ++ desiredAlias ++ "\"".toList)
            | some aliasPath => return Config.empty.setAlias desiredAlias aliasPath
          else
            match C.getConfig s.pos with
            | none =>
              fail ("could not get configuration file contents to resolve alias \"".toList ++ desiredAlias ++
                "\"".toList)
            | some file =>
              match parseConfig file .empty with
              | .error text => fail text
              | .ok config => navigateToAndPopulateConfig k desiredAlias config

def navigateToAlias : ℕ → Text → Config → AliasCycleTracker → NavM σ Unit
  | 0, _, _, _ => throw .outOfFuel
  | k + 1, name, config, cycleTracker => do
    modify fun s => { s with resolved := s.resolved ++ [(s.pos, name)] }
    let value := (config.find name).getD []
    match getPathType value with
    | .relativeToCurrent => navigateThroughPath C value
    | .relativeToParent => navigateThroughPath C value
    | .aliased =>
      let cycleTracker ← cycleTracker.add name
      let nextAlias := extractAlias value
      if ← toAliasOverride C nextAlias then navigateThroughPath C value
      else
        if config.contains nextAlias then navigateToAlias k nextAlias config cycleTracker
        else
          let parentConfig ← navigateToAndPopulateConfig C k nextAlias .empty
          if parentConfig.contains nextAlias then navigateToAlias k nextAlias parentConfig .empty
          else toAliasFallback C nextAlias
        navigateThroughPath C value
    | .unsupported => jumpToAlias C value

/-- `selfIsSelf` is the flag `LuauSelfIsSelfAndAlwaysSelf`. -/
def navigateImpl (selfIsSelf : Bool) (k : ℕ) (path : Text) : NavM σ Unit :=
  match getPathType path with
  | .unsupported => fail "require path must start with a valid prefix: ./, ../, or @".toList
  | .aliased => do
    let name := toLower (extractAlias path)
    resetToRequirer C
    if selfIsSelf ∧ name = "self".toList then navigateThroughPath C path
    else if ← toAliasOverride C name then navigateThroughPath C path
    else
      let config ← navigateToAndPopulateConfig C k name .empty
      if config.contains name then
        navigateToAlias C k name config .empty
        navigateThroughPath C path
      else if !selfIsSelf ∧ name = "self".toList then
        resetToRequirer C
        navigateThroughPath C path
      else
        toAliasFallback C name
        navigateThroughPath C path
  | _ => do
    resetToRequirer C
    navigateToParent C none
    navigateThroughPath C path

inductive Status where
  | success
  | errorReported (message : Text)
  deriving DecidableEq, Repr

/-- `navigate`, and the message that it reports; nothing when the fuel runs out. -/
def navigate (selfIsSelf : Bool) (k : ℕ) (path : Text) (pos : σ) : Option (Status × NavState σ) :=
  match navigateImpl C selfIsSelf k (path.map fun c => if c = '\\' then '/' else c) ⟨pos, []⟩ with
  | .ok _ s => some (.success, s)
  | .error (.error e) s => some (.errorReported e.text, s)
  | .error .outOfFuel _ => none

end Navigator

end Luwu.Require
