import Luwu.Require.Config
import Mathlib.Logic.Function.Basic

/-!
# The caches of `require`

Loads of modules are in flight between `lua_requireinternal` and `lua_requirecont`, nested in each other or in coroutines
that yield, so any load may end next. `cyclic` is the flag `LuauCyclicRequireShortCircuit`: with it a placeholder stands
for a module in the cache while it is loaded. What resolving a path gives is part of a call, and so is what a module
returns.
-/

namespace Luwu.Require.Cache

/-- Values of the machine; tables are told apart by their address. -/
inductive Value where
  | nil
  | table (address : ℕ)
  | other (id : ℕ)
  deriving DecidableEq

/-- A metatable and its field `__prev_metatable`; that of an invalidated placeholder is locked. -/
inductive Metatable where
  | user (id : ℕ) (prev : Option Metatable)
  | invalid (prev : Option Metatable)

def Metatable.prev : Metatable → Option Metatable
  | .user _ prev => prev
  | .invalid prev => prev

/-- The slots of the stack below the results of a load -/
structure Frame where
  path : Text
  cacheKey : Text
  chunkname : Text
  loadname : Text
  requirerChunkname : Text
  placeholder : ℕ
  deriving DecidableEq

structure State where
  registered : Text → Option Value
  modules : Text → Option Value
  placeholders : Text → Option ℕ
  metatable : ℕ → Option Metatable
  readonly : ℕ → Bool
  newAddress : ℕ
  frames : ℕ → Option Frame
  newFrame : ℕ

inductive Outcome where
  | returns (values : List Value)
  | raises
  | loading (frame : ℕ)
  | idle
  deriving DecidableEq

/-- What resolving a path gives: an error, or a module that is present, and the names that it is loaded under, which are
asked for only when it is not cached. -/
inductive Resolution where
  | errorReported
  | present (cacheKey : Text) (names : Option (Text × Text))

/-- `lua_setfield`, which removes a field that is set to nil -/
def setField (f : Text → Option Value) (key : Text) (v : Value) : Text → Option Value :=
  Function.update f key (if v = .nil then none else some v)

/-- `invalidateModulePlaceholder`; the metatable of a table that is readonly is not set. -/
def invalidateModulePlaceholder (s : State) (a : ℕ) : Option State :=
  if s.readonly a then none
  else some { s with metatable := Function.update s.metatable a (some (.invalid (s.metatable a))) }

def State.pushFrame (s : State) (frame : Frame) : State :=
  { s with frames := Function.update s.frames s.newFrame (some frame), newFrame := s.newFrame + 1 }

/-- The placeholder of a module that starts to load -/
def State.pushPlaceholder (s : State) (cacheKey chunkname : Text) : State :=
  { s with
    newAddress := s.newAddress + 1
    metatable := Function.update s.metatable s.newAddress none
    readonly := Function.update s.readonly s.newAddress false
    modules := setField s.modules cacheKey (.table s.newAddress)
    placeholders := Function.update s.placeholders chunkname (some s.newAddress) }

/-- `lua_requireinternal`, up to the load -/
def requireInternal (cyclic : Bool) (s : State) (requirerChunkname path : Text) (resolution : Resolution) :
    State × Outcome :=
  match s.registered (toLower path) with
  | some v => (s, .returns [v])
  | none =>
    match resolution with
    | .errorReported => (s, .raises)
    | .present cacheKey names =>
      match s.modules cacheKey with
      | some v => (s, .returns [v])
      | none =>
        match names with
        | none => (s, .raises)
        | some (chunkname, loadname) =>
          let frame : Frame := ⟨path, cacheKey, chunkname, loadname, requirerChunkname, s.newAddress⟩
          if cyclic then
            -- Don't allow reads and writes to a module's exports table if it has a cyclic dependency on its requiring module.
            match (s.placeholders requirerChunkname).elim (some s) (invalidateModulePlaceholder s) with
            | none => (s, .raises)
            | some s => ((s.pushPlaceholder cacheKey chunkname).pushFrame frame, .loading s.newFrame)
          else (s.pushFrame frame, .loading s.newFrame)

/-- The module did not return its placeholder: that is invalidated and frozen, and the cache has the result instead. -/
def replacePlaceholder (s : State) (frame : Frame) (results : List Value) : Option State :=
  if results = [.table frame.placeholder] then some s
  else
    (invalidateModulePlaceholder s frame.placeholder).map fun s =>
      { s with
        readonly := Function.update s.readonly frame.placeholder true
        modules := setField s.modules frame.cacheKey (results.headD .nil) }

/-- Restore the requirer's module placeholder now that the cycle is resolved. -/
def restorePlaceholder (s : State) (requirerChunkname : Text) : Option State :=
  match s.placeholders requirerChunkname with
  | none => some s
  | some a =>
    match s.metatable a with
    | none => some s
    | some metatable =>
      if s.readonly a then none else some { s with metatable := Function.update s.metatable a metatable.prev }

/-- `lua_requirecont`, with the results of the load on the stack -/
def requireCont (cyclic : Bool) (s : State) (frame : Frame) (results : List Value) : State × Outcome :=
  if results.length > 1 then (s, .raises)
  else if cyclic then
    match replacePlaceholder s frame results with
    | none => (s, .raises)
    | some s =>
      let s := { s with placeholders := Function.update s.placeholders frame.chunkname none }
      match restorePlaceholder s frame.requirerChunkname with
      | none => (s, .raises)
      | some s => (s, .returns results)
  else
    match results with
    | [v] => ({ s with modules := setField s.modules frame.cacheKey v }, .returns [v])
    | _ => (s, .returns results)

inductive Event where
  | require (requirerChunkname path : Text) (resolution : Resolution)
  | finish (frame : ℕ) (results : List Value)
  | fail (frame : ℕ)
  | setMetatable (address : ℕ) (metatable : Option Metatable)
  | freeze (address : ℕ)

/-- A metatable that `setmetatable` and `table.freeze` may touch -/
def State.unlocked (s : State) (a : ℕ) : Bool :=
  match s.metatable a with
  | some (.invalid _) => false
  | _ => true

/-- One call of `require`, one load that ends, or one thing that a script does with its placeholder -/
def step (cyclic : Bool) (s : State) : Event → State × Outcome
  | .require requirerChunkname path resolution => requireInternal cyclic s requirerChunkname path resolution
  | .finish i results =>
    match s.frames i with
    | none => (s, .idle)
    | some frame => requireCont cyclic { s with frames := Function.update s.frames i none } frame results
  | .fail i =>
    match s.frames i with
    | none => (s, .idle)
    | some _ => ({ s with frames := Function.update s.frames i none }, .raises)
  | .setMetatable a metatable =>
    if s.readonly a = false ∧ s.unlocked a then
      ({ s with metatable := Function.update s.metatable a metatable }, .idle)
    else (s, .raises)
  | .freeze a =>
    if s.readonly a = false ∧ s.unlocked a then ({ s with readonly := Function.update s.readonly a true }, .idle)
    else (s, .raises)

def run (cyclic : Bool) (s : State) (es : List Event) : State := es.foldl (fun s e => (step cyclic s e).1) s

/-- The module that an event completes, with its result -/
def completes (cyclic : Bool) (s : State) : Event → Option (Text × Value)
  | .finish i results =>
    match s.frames i, (step cyclic s (.finish i results)).2, results with
    | some frame, .returns _, [v] => some (frame.cacheKey, v)
    | _, _, _ => none
  | _ => none

/-- The modules that are completed, one after another -/
def completions (cyclic : Bool) (s : State) : List Event → List (Text × Value)
  | [] => []
  | e :: es => (completes cyclic s e).toList ++ completions cyclic (step cyclic s e).1 es

/-- A cache with the modules of a list in addition -/
def withModules (modules : Text → Option Value) (l : List (Text × Value)) : Text → Option Value :=
  l.foldl (fun f m => setField f m.1 m.2) modules

/-- The load `i` ends with an error. -/
def Fails (cyclic : Bool) (s : State) (e : Event) (i : ℕ) : Prop :=
  (e = .fail i ∨ ∃ results, e = .finish i results) ∧ (step cyclic s e).2 = .raises

/-- After a `require` that ends in an error the caches are as they were before it, with the modules that were completed. -/
structure Undone (cyclic : Bool) (s : State) (es : List Event) : Prop where
  atOnce : ∀ before requirer path resolution after, es = before ++ .require requirer path resolution :: after →
    (step cyclic (run cyclic s before) (.require requirer path resolution)).2 = .raises →
    (step cyclic (run cyclic s before) (.require requirer path resolution)).1 = run cyclic s before
  load : ∀ before e middle e' after i, es = before ++ e :: (middle ++ e' :: after) →
    (step cyclic (run cyclic s before) e).2 = .loading i →
    Fails cyclic (run cyclic s (before ++ e :: middle)) e' i →
    let s₁ := run cyclic s before
    let s₂ := run cyclic s (before ++ e :: (middle ++ [e']))
    s₂.registered = s₁.registered ∧ s₂.placeholders = s₁.placeholders ∧
      s₂.modules = withModules s₁.modules (completions cyclic (step cyclic s₁ e).1 middle)

/-- A load that ends without an error has one result, and every later `require` of the same module returns it. -/
def StoresOnce (cyclic : Bool) (s : State) (es : List Event) : Prop :=
  ∀ before i results after frame, es = before ++ .finish i results :: after →
    (run cyclic s before).frames i = some frame →
    (∃ values, (step cyclic (run cyclic s before) (.finish i results)).2 = .returns values) →
    ∃ v, results = [v] ∧ ∀ later, later <+: after →
      ∀ requirer path names, (run cyclic s (before ++ .finish i results :: later)).registered (toLower path) = none →
        step cyclic (run cyclic s (before ++ .finish i results :: later)) (.require requirer path (.present frame.cacheKey names)) =
          (run cyclic s (before ++ .finish i results :: later), .returns [v])

/-- The steps for which the caches are kept: with placeholders no load fails, every module that is loaded returns one
value other than nil, and without placeholders it is not loaded twice at the same time with different results. -/
def Kept (cyclic : Bool) (s : State) : Event → Prop
  | .finish i results => ∀ frame, s.frames i = some frame →
    if results.length > 1 then cyclic = false
    else ∃ v, results = [v] ∧ v ≠ .nil ∧
      if cyclic then
        (v = .table frame.placeholder ∨ s.readonly frame.placeholder = false) ∧
          (frame.requirerChunkname ≠ frame.chunkname → ∀ a, s.placeholders frame.requirerChunkname = some a →
            a ≠ frame.placeholder ∧ (s.metatable a = none ∨ s.readonly a = false))
      else s.modules frame.cacheKey = none ∨ s.modules frame.cacheKey = some v
  | .fail i => s.frames i ≠ none → cyclic = false
  | _ => True

/-- Every step of a run is one for which the caches are kept. -/
def AllKept (cyclic : Bool) (s : State) : List Event → Prop
  | [] => True
  | e :: es => Kept cyclic s e ∧ AllKept cyclic (step cyclic s e).1 es

section Steps

variable {cyclic : Bool} {s t : State} {e : Event} {i : ℕ} {key : Text} {v : Value} {results : List Value} {frame : Frame}
  {es before after : List Event}

theorem setField_self (f : Text → Option Value) (key : Text) (hv : v ≠ .nil) : setField f key v key = some v := by
  unfold setField
  rw [Function.update_self, if_neg hv]

theorem setField_ne (f : Text → Option Value) {key key' : Text} (h : key' ≠ key) (v : Value) :
    setField f key v key' = f key' := Function.update_of_ne h _ _

theorem run_append (cyclic : Bool) (s : State) (es es' : List Event) :
    run cyclic s (es ++ es') = run cyclic (run cyclic s es) es' := List.foldl_append

theorem run_cons (cyclic : Bool) (s : State) (e : Event) (es : List Event) :
    run cyclic s (e :: es) = run cyclic (step cyclic s e).1 es := rfl

/-- The outcomes of `lua_requireinternal`: nothing changes, or a load starts. -/
theorem requireInternal_cases (cyclic : Bool) (s : State) (requirer path : Text) (resolution : Resolution) :
    (∃ outcome, requireInternal cyclic s requirer path resolution = (s, outcome) ∧ ∀ i, outcome ≠ .loading i) ∨
      ∃ frame, s.modules frame.cacheKey = none ∧
        ((cyclic = false ∧ requireInternal cyclic s requirer path resolution = (s.pushFrame frame, .loading s.newFrame)) ∨
          (cyclic = true ∧ frame.placeholder = s.newAddress ∧ ∃ metatable,
            requireInternal cyclic s requirer path resolution =
              ((State.pushPlaceholder { s with metatable := metatable } frame.cacheKey frame.chunkname).pushFrame frame,
                .loading s.newFrame))) := by
  unfold requireInternal
  cases s.registered (toLower path) with
  | some v => exact Or.inl ⟨_, rfl, nofun⟩
  | none =>
    cases resolution with
    | errorReported => exact Or.inl ⟨_, rfl, nofun⟩
    | present cacheKey names =>
      cases hcached : s.modules cacheKey with
      | some v =>
        simp only [hcached]
        exact Or.inl ⟨_, rfl, nofun⟩
      | none =>
        simp only [hcached]
        cases names with
        | none => exact Or.inl ⟨_, rfl, nofun⟩
        | some names =>
          obtain ⟨chunkname, loadname⟩ := names
          cases cyclic with
          | false =>
            exact Or.inr ⟨⟨path, cacheKey, chunkname, loadname, requirer, s.newAddress⟩, hcached, Or.inl ⟨rfl, rfl⟩⟩
          | true =>
            simp only [if_true]
            cases hinvalid : (s.placeholders requirer).elim (some s) (invalidateModulePlaceholder s) with
            | none => exact Or.inl ⟨_, rfl, nofun⟩
            | some s' =>
              refine Or.inr ⟨⟨path, cacheKey, chunkname, loadname, requirer, s.newAddress⟩, hcached,
                Or.inr ⟨trivial, rfl, s'.metatable, ?_⟩⟩
              have hsame : s' = { s with metatable := s'.metatable } := by
                cases hplaceholder : s.placeholders requirer with
                | none =>
                  rw [hplaceholder] at hinvalid
                  cases hinvalid
                  rfl
                | some a =>
                  rw [hplaceholder] at hinvalid
                  simp only [Option.elim_some, invalidateModulePlaceholder] at hinvalid
                  split at hinvalid
                  · cases hinvalid
                  · cases hinvalid
                    rfl
              rw [hsame]

theorem step_finish (hframe : s.frames i = some frame) (results : List Value) :
    step cyclic s (.finish i results) =
      requireCont cyclic { s with frames := Function.update s.frames i none } frame results := by
  show (match s.frames i with
    | none => (s, Outcome.idle)
    | some frame => requireCont cyclic { s with frames := Function.update s.frames i none } frame results) = _
  rw [hframe]

theorem step_finish_idle (hframe : s.frames i = none) (results : List Value) :
    step cyclic s (.finish i results) = (s, .idle) := by
  show (match s.frames i with
    | none => (s, Outcome.idle)
    | some frame => requireCont cyclic { s with frames := Function.update s.frames i none } frame results) = _
  rw [hframe]

theorem step_fail (cyclic : Bool) (s : State) (i : ℕ) :
    s.frames i = none ∧ step cyclic s (.fail i) = (s, .idle) ∨
      s.frames i ≠ none ∧
        step cyclic s (.fail i) = ({ s with frames := Function.update s.frames i none }, .raises) := by
  show s.frames i = none ∧ (match s.frames i with
    | none => (s, Outcome.idle)
    | some _ => ({ s with frames := Function.update s.frames i none }, Outcome.raises)) = _ ∨ s.frames i ≠ none ∧
      (match s.frames i with
        | none => (s, Outcome.idle)
        | some _ => ({ s with frames := Function.update s.frames i none }, Outcome.raises)) = _
  cases s.frames i with
  | none => exact Or.inl ⟨rfl, rfl⟩
  | some frame => exact Or.inr ⟨nofun, rfl⟩

/-- What a script does with a table leaves the caches and the loads as they are. -/
theorem step_script (cyclic : Bool) (s : State) (a : ℕ) (metatable : Option Metatable) :
    (∃ mt, (step cyclic s (.setMetatable a metatable)).1 = { s with metatable := mt }) ∧
      ∃ ro, (step cyclic s (.freeze a)).1 = { s with readonly := ro } := by
  show (∃ mt, (if s.readonly a = false ∧ s.unlocked a then
        ({ s with metatable := Function.update s.metatable a metatable }, Outcome.idle) else (s, Outcome.raises)).1 =
      { s with metatable := mt }) ∧
    ∃ ro, (if s.readonly a = false ∧ s.unlocked a then
        ({ s with readonly := Function.update s.readonly a true }, Outcome.idle) else (s, Outcome.raises)).1 =
      { s with readonly := ro }
  by_cases hfree : s.readonly a = false ∧ s.unlocked a = true
  · rw [if_pos hfree, if_pos hfree]
    exact ⟨⟨_, rfl⟩, _, rfl⟩
  · rw [if_neg hfree, if_neg hfree]
    exact ⟨⟨s.metatable, rfl⟩, s.readonly, rfl⟩

theorem completes_finish (hframe : s.frames i = some frame) (results : List Value) :
    completes cyclic s (.finish i results) =
      match (step cyclic s (.finish i results)).2, results with
      | .returns _, [v] => some (frame.cacheKey, v)
      | _, _ => none := by
  show (match s.frames i, (step cyclic s (.finish i results)).2, results with
    | some frame, .returns _, [v] => some (frame.cacheKey, v)
    | _, _, _ => none) = _
  rw [hframe]
  generalize (step cyclic s (.finish i results)).2 = outcome
  match outcome, results with
  | .returns _, [] | .returns _, [_] | .returns _, _ :: _ :: _ => rfl
  | .raises, _ | .loading _, _ | .idle, _ => rfl

theorem completes_none (h : ∀ values, (step cyclic s e).2 ≠ .returns values) : completes cyclic s e = none := by
  cases e with
  | finish i results =>
    cases hframe : s.frames i with
    | none =>
      show (match s.frames i, (step cyclic s (.finish i results)).2, results with
        | some frame, .returns _, [v] => some (frame.cacheKey, v)
        | _, _, _ => none) = _
      rw [hframe]
    | some frame =>
      rw [completes_finish hframe]
      cases hout : (step cyclic s (.finish i results)).2 with
      | returns values => exact absurd hout (h values)
      | raises | loading | idle => rfl
  | require | fail | setMetatable | freeze => rfl

/-- Without placeholders a step only adds the module that it completes. -/
theorem step_plain (s : State) (e : Event) :
    (step false s e).1.registered = s.registered ∧ (step false s e).1.placeholders = s.placeholders ∧
      (step false s e).1.modules = withModules s.modules (completes false s e).toList := by
  cases e with
  | require requirer path resolution =>
    have hstep : step false s (.require requirer path resolution) = requireInternal false s requirer path resolution := rfl
    have hnone : completes false s (.require requirer path resolution) = none := rfl
    rw [hnone, hstep]
    rcases requireInternal_cases false s requirer path resolution with ⟨outcome, h, -⟩ | ⟨frame, -, ⟨-, h⟩ | ⟨h, -⟩⟩
    · rw [h]
      exact ⟨rfl, rfl, rfl⟩
    · rw [h]
      exact ⟨rfl, rfl, rfl⟩
    · cases h
  | finish i results =>
    cases hframe : s.frames i with
    | none =>
      rw [completes_none (by rw [step_finish_idle hframe]; nofun), step_finish_idle hframe]
      exact ⟨rfl, rfl, rfl⟩
    | some frame =>
      rw [completes_finish hframe, step_finish hframe]
      unfold requireCont
      by_cases hlen : results.length > 1
      · rw [if_pos hlen]
        exact ⟨rfl, rfl, rfl⟩
      · rw [if_neg hlen]
        match results with
        | [] => exact ⟨rfl, rfl, rfl⟩
        | [v] => exact ⟨rfl, rfl, rfl⟩
        | _ :: _ :: _ => exact absurd (by simp) hlen
  | fail i =>
    have hnone : completes false s (.fail i) = none := rfl
    rw [hnone]
    rcases step_fail false s i with ⟨-, h⟩ | ⟨-, h⟩
    · rw [h]
      exact ⟨rfl, rfl, rfl⟩
    · rw [h]
      exact ⟨rfl, rfl, rfl⟩
  | setMetatable a metatable =>
    obtain ⟨mt, h⟩ := (step_script false s a metatable).1
    rw [h]
    exact ⟨rfl, rfl, rfl⟩
  | freeze a =>
    obtain ⟨ro, h⟩ := (step_script false s a none).2
    rw [h]
    exact ⟨rfl, rfl, rfl⟩

theorem withModules_append (modules : Text → Option Value) (l l' : List (Text × Value)) :
    withModules modules (l ++ l') = withModules (withModules modules l) l' := List.foldl_append

/-- Without placeholders a run only adds the modules that it completes. -/
theorem run_plain (s : State) (es : List Event) :
    (run false s es).registered = s.registered ∧ (run false s es).placeholders = s.placeholders ∧
      (run false s es).modules = withModules s.modules (completions false s es) := by
  induction es generalizing s with
  | nil => exact ⟨rfl, rfl, rfl⟩
  | cons e es ih =>
    obtain ⟨hregistered, hplaceholders, hmodules⟩ := step_plain s e
    obtain ⟨hregistered', hplaceholders', hmodules'⟩ := ih (step false s e).1
    rw [run_cons, completions, withModules_append, ← hmodules]
    exact ⟨hregistered'.trans hregistered, hplaceholders'.trans hplaceholders, hmodules'⟩

theorem allKept_at (h : AllKept cyclic s (before ++ e :: after)) :
    AllKept cyclic s before ∧ Kept cyclic (run cyclic s before) e ∧
      AllKept cyclic (step cyclic (run cyclic s before) e).1 after := by
  induction before generalizing s with
  | nil => exact ⟨trivial, h⟩
  | cons e' before ih =>
    obtain ⟨hhead, htail⟩ := h
    obtain ⟨hbefore, hat⟩ := ih htail
    exact ⟨⟨hhead, hbefore⟩, hat⟩

theorem replacePlaceholder_some (h : v = .table frame.placeholder ∨ s.readonly frame.placeholder = false) :
    ∃ t, replacePlaceholder s frame [v] = some t ∧ t.placeholders = s.placeholders ∧ t.frames = s.frames ∧
      t.newFrame = s.newFrame ∧ t.registered = s.registered ∧
      (∀ a ≠ frame.placeholder, t.metatable a = s.metatable a ∧ t.readonly a = s.readonly a) ∧
        (v = .table frame.placeholder ∧ t.modules = s.modules ∨ t.modules = setField s.modules frame.cacheKey v) := by
  unfold replacePlaceholder
  by_cases hsame : [v] = [.table frame.placeholder]
  · rw [if_pos hsame]
    exact ⟨s, rfl, rfl, rfl, rfl, rfl, fun a _ => ⟨rfl, rfl⟩, Or.inl ⟨List.singleton_inj.mp hsame, rfl⟩⟩
  · rw [if_neg hsame]
    have hreadonly : ¬s.readonly frame.placeholder = true := by
      rcases h with rfl | hfalse
      · exact absurd rfl hsame
      · rw [hfalse]
        exact Bool.false_ne_true
    unfold invalidateModulePlaceholder
    rw [if_neg hreadonly]
    refine ⟨_, rfl, rfl, rfl, rfl, rfl, fun a ha => ⟨?_, ?_⟩, Or.inr rfl⟩
    · exact Function.update_of_ne ha _ _
    · exact Function.update_of_ne ha _ _

/-- With placeholders a load that is kept ends with its value in the cache. -/
theorem finish_kept (hframe : s.frames i = some frame) (hkept : Kept true s (.finish i results)) :
    ∃ v t, results = [v] ∧ v ≠ .nil ∧ step true s (.finish i results) = (t, .returns [v]) ∧
      t.frames = Function.update s.frames i none ∧ t.newFrame = s.newFrame ∧ t.registered = s.registered ∧
        (v = .table frame.placeholder ∧ t.modules = s.modules ∨ t.modules = setField s.modules frame.cacheKey v) := by
  have hcond := hkept frame hframe
  by_cases hlen : results.length > 1
  · rw [if_pos hlen] at hcond
    cases hcond
  · rw [if_neg hlen] at hcond
    obtain ⟨v, rfl, hv, hplaceholder, hrequirer⟩ := hcond
    obtain ⟨t, ht, hplaceholders, hframes, hnew, hregistered, hothers, hmodules⟩ :=
      replacePlaceholder_some (s := { s with frames := Function.update s.frames i none }) hplaceholder
    have hrestore : ∃ metatable, restorePlaceholder
        { t with placeholders := Function.update t.placeholders frame.chunkname none } frame.requirerChunkname =
          some { t with placeholders := Function.update t.placeholders frame.chunkname none, metatable := metatable } := by
      unfold restorePlaceholder
      by_cases hself : frame.requirerChunkname = frame.chunkname
      · refine ⟨t.metatable, ?_⟩
        simp only [hself, Function.update_self]
      · simp only [Function.update_of_ne hself, hplaceholders]
        cases hplace : s.placeholders frame.requirerChunkname with
        | none => exact ⟨t.metatable, rfl⟩
        | some a =>
          obtain ⟨hne, hfree⟩ := hrequirer hself a hplace
          obtain ⟨hmeta, hreadonly⟩ := hothers a hne
          simp only [hmeta, hreadonly]
          cases hmetatable : s.metatable a with
          | none => exact ⟨t.metatable, rfl⟩
          | some metatable =>
            rcases hfree with hnone | hfalse
            · rw [hnone] at hmetatable
              cases hmetatable
            · simp only [hfalse, Bool.false_eq_true, if_false]
              exact ⟨_, rfl⟩
    obtain ⟨metatable, hrestore⟩ := hrestore
    refine ⟨v, { t with placeholders := Function.update t.placeholders frame.chunkname none, metatable := metatable },
      rfl, hv, ?_, hframes, hnew, hregistered, hmodules⟩
    rw [step_finish hframe]
    unfold requireCont
    rw [if_neg hlen, if_pos rfl, ht]
    simp only [hrestore]

end Steps

/-! ### Runs -/

section Runs

variable {cyclic : Bool} {s t : State} {e : Event} {i : ℕ} {key : Text} {v : Value} {results : List Value} {frame : Frame}
  {es before after : List Event}

/-- With placeholders: every module in flight has its own placeholder in the cache. -/
structure InFlight (s : State) : Prop where
  cached : ∀ i frame, s.frames i = some frame → s.modules frame.cacheKey = some (.table frame.placeholder)
  once : ∀ i j frame frame', s.frames i = some frame → s.frames j = some frame' →
    frame.cacheKey = frame'.cacheKey → i = j
  fresh : ∀ i, s.newFrame ≤ i → s.frames i = none

/-- A module that was loaded has its value in the cache, and is not loaded again. -/
def Loaded (cyclic : Bool) (key : Text) (v : Value) (s : State) : Prop :=
  s.modules key = some v ∧ (cyclic = true → ∀ i frame, s.frames i = some frame → frame.cacheKey ≠ key)

/-- What a load that starts changes -/
theorem inFlight_start (h : InFlight s) (hnew : s.modules frame.cacheKey = none) (hplaceholder : frame.placeholder = s.newAddress)
    (metatable : ℕ → Option Metatable) :
    InFlight ((State.pushPlaceholder { s with metatable := metatable } frame.cacheKey frame.chunkname).pushFrame frame) ∧
      ∀ key v, Loaded true key v s → Loaded true key v
        ((State.pushPlaceholder { s with metatable := metatable } frame.cacheKey frame.chunkname).pushFrame frame) := by
  have hmodules : ∀ key, key ≠ frame.cacheKey →
      setField s.modules frame.cacheKey (.table s.newAddress) key = s.modules key := fun key hne => setField_ne _ hne _
  have hother : ∀ key x, s.modules key = some x → key ≠ frame.cacheKey := by
    rintro key x hx rfl
    rw [hnew] at hx
    cases hx
  have hframes : ∀ i fr, Function.update s.frames s.newFrame (some frame) i = some fr →
      i = s.newFrame ∧ fr = frame ∨ i ≠ s.newFrame ∧ s.frames i = some fr := by
    intro i fr hfr
    by_cases hi : i = s.newFrame
    · rw [hi, Function.update_self] at hfr
      exact Or.inl ⟨hi, (Option.some.inj hfr).symm⟩
    · rw [Function.update_of_ne hi] at hfr
      exact Or.inr ⟨hi, hfr⟩
  refine ⟨⟨?_, ?_, ?_⟩, ?_⟩
  · intro i fr hfr
    rcases hframes i fr hfr with ⟨-, rfl⟩ | ⟨-, hold⟩
    · rw [hplaceholder]
      exact setField_self _ _ nofun
    · have hcached := h.cached i fr hold
      exact (hmodules _ (hother _ _ hcached)).trans hcached
  · intro i j fr fr' hfr hfr' hkeys
    rcases hframes i fr hfr with ⟨rfl, rfl⟩ | ⟨-, hold⟩
    · rcases hframes j fr' hfr' with ⟨rfl, -⟩ | ⟨-, hold'⟩
      · rfl
      · exact absurd hkeys.symm (hother _ _ (h.cached j fr' hold'))
    · rcases hframes j fr' hfr' with ⟨-, rfl⟩ | ⟨-, hold'⟩
      · exact absurd hkeys (hother _ _ (h.cached i fr hold))
      · exact h.once i j fr fr' hold hold' hkeys
  · intro i hi
    have hlt : s.newFrame + 1 ≤ i := hi
    exact (Function.update_of_ne (show i ≠ s.newFrame by omega) _ _).trans (h.fresh i (by omega))
  · rintro key v ⟨hloaded, hframesKey⟩
    refine ⟨(hmodules _ (hother _ _ hloaded)).trans hloaded, fun _ i fr hfr => ?_⟩
    rcases hframes i fr hfr with ⟨-, rfl⟩ | ⟨-, hold⟩
    · exact (hother _ _ hloaded).symm
    · exact hframesKey rfl i fr hold

/-- What a load that ends changes -/
theorem inFlight_finish (h : InFlight s) (hframe : s.frames i = some frame)
    (hframes : t.frames = Function.update s.frames i none) (hnew : t.newFrame = s.newFrame)
    (hmodules : ∀ key, key ≠ frame.cacheKey → t.modules key = s.modules key) :
    InFlight t ∧ ∀ key v, Loaded true key v s → Loaded true key v t := by
  have hold : ∀ j fr, t.frames j = some fr → s.frames j = some fr ∧ fr.cacheKey ≠ frame.cacheKey := by
    intro j fr hfr
    rw [hframes] at hfr
    by_cases hj : j = i
    · rw [hj, Function.update_self] at hfr
      cases hfr
    · rw [Function.update_of_ne hj] at hfr
      exact ⟨hfr, fun hkeys => hj (h.once j i fr frame hfr hframe hkeys)⟩
  refine ⟨⟨?_, ?_, ?_⟩, ?_⟩
  · intro j fr hfr
    obtain ⟨hfr', hne⟩ := hold j fr hfr
    exact (hmodules _ hne).trans (h.cached j fr hfr')
  · intro j j' fr fr' hfr hfr'
    exact h.once j j' fr fr' (hold j fr hfr).1 (hold j' fr' hfr').1
  · intro j hj
    rw [hnew] at hj
    rw [hframes]
    by_cases heq : j = i
    · rw [heq, Function.update_self]
    · rw [Function.update_of_ne heq]
      exact h.fresh j hj
  · rintro key v ⟨hloaded, hframesKey⟩
    refine ⟨(hmodules _ ?_).trans hloaded, fun _ j fr hfr => hframesKey rfl j fr (hold j fr hfr).1⟩
    exact (hframesKey rfl i frame hframe).symm

theorem step_inFlight (h : InFlight s) (hkept : Kept true s e) :
    InFlight (step true s e).1 ∧ ∀ key v, Loaded true key v s → Loaded true key v (step true s e).1 := by
  cases e with
  | require requirer path resolution =>
    have hstep : step true s (.require requirer path resolution) = requireInternal true s requirer path resolution := rfl
    rw [hstep]
    rcases requireInternal_cases true s requirer path resolution with
      ⟨outcome, hrun, -⟩ | ⟨frame, hnew, ⟨hfalse, -⟩ | ⟨-, hplaceholder, metatable, hrun⟩⟩
    · rw [hrun]
      exact ⟨h, fun _ _ hloaded => hloaded⟩
    · cases hfalse
    · rw [hrun]
      exact inFlight_start h hnew hplaceholder metatable
  | finish i results =>
    cases hframe : s.frames i with
    | none =>
      rw [step_finish_idle hframe]
      exact ⟨h, fun _ _ hloaded => hloaded⟩
    | some frame =>
      obtain ⟨v, t, -, -, hrun, hframes, hnew, -, hmodules⟩ := finish_kept hframe hkept
      rw [hrun]
      refine inFlight_finish h hframe hframes hnew fun key hne => ?_
      rcases hmodules with ⟨-, hsame⟩ | hset
      · rw [hsame]
      · rw [hset]
        exact setField_ne _ hne _
  | fail i =>
    rcases step_fail true s i with ⟨-, hrun⟩ | ⟨hframe, -⟩
    · rw [hrun]
      exact ⟨h, fun _ _ hloaded => hloaded⟩
    · cases hkept hframe
  | setMetatable a metatable =>
    obtain ⟨mt, hrun⟩ := (step_script true s a metatable).1
    rw [hrun]
    exact ⟨⟨h.cached, h.once, h.fresh⟩, fun _ _ hloaded => hloaded⟩
  | freeze a =>
    obtain ⟨ro, hrun⟩ := (step_script true s a none).2
    rw [hrun]
    exact ⟨⟨h.cached, h.once, h.fresh⟩, fun _ _ hloaded => hloaded⟩

/-- Without placeholders a load that is kept puts its value in the cache. -/
theorem finish_plain (hframe : s.frames i = some frame) (hkept : Kept false s (.finish i results))
    (hlen : ¬results.length > 1) :
    ∃ v, results = [v] ∧ v ≠ .nil ∧ (s.modules frame.cacheKey = none ∨ s.modules frame.cacheKey = some v) ∧
      step false s (.finish i results) =
        ({ s with frames := Function.update s.frames i none, modules := setField s.modules frame.cacheKey v },
          .returns [v]) := by
  have hcond := hkept frame hframe
  rw [if_neg hlen] at hcond
  obtain ⟨v, rfl, hv, hcache⟩ := hcond
  refine ⟨v, rfl, hv, hcache, ?_⟩
  rw [step_finish hframe]
  unfold requireCont
  rw [if_neg hlen]
  rfl

theorem step_loaded (hkept : Kept false s e) (hloaded : Loaded false key v s) : Loaded false key v (step false s e).1 := by
  refine ⟨?_, nofun⟩
  have hsame : completes false s e = none → (step false s e).1.modules key = some v := by
    intro hnone
    rw [(step_plain s e).2.2, hnone]
    exact hloaded.1
  cases e with
  | finish i results =>
    cases hframe : s.frames i with
    | none => exact hsame (completes_none (by rw [step_finish_idle hframe]; nofun))
    | some frame =>
      by_cases hlen : results.length > 1
      · apply hsame (completes_none _)
        rw [step_finish hframe]
        unfold requireCont
        rw [if_pos hlen]
        nofun
      · obtain ⟨w, -, hw, hcache, hrun⟩ := finish_plain hframe hkept hlen
        rw [hrun]
        show setField s.modules frame.cacheKey w key = some v
        by_cases hkey : key = frame.cacheKey
        · subst hkey
          rw [setField_self _ _ hw]
          rcases hcache with hnone | hsome
          · rw [hloaded.1] at hnone
            cases hnone
          · rw [hloaded.1] at hsome
            exact hsome.symm
        · rw [setField_ne _ hkey]
          exact hloaded.1
  | require | fail | setMetatable | freeze => exact hsame rfl

/-- With placeholders no load fails. -/
theorem not_fails (hkept : Kept true s e) : ¬Fails true s e i := by
  rintro ⟨rfl | ⟨results, rfl⟩, hraises⟩
  · rcases step_fail true s i with ⟨-, h⟩ | ⟨hframe, -⟩
    · rw [h] at hraises
      cases hraises
    · cases hkept hframe
  · cases hframe : s.frames i with
    | none =>
      rw [step_finish_idle hframe] at hraises
      cases hraises
    | some frame =>
      obtain ⟨v, t, -, -, h, -⟩ := finish_kept hframe hkept
      rw [h] at hraises
      cases hraises

/-- A later `require` of a module that was loaded returns its value. -/
theorem require_loaded (h : s.modules key = some v) (requirer path : Text) (names : Option (Text × Text))
    (hregistered : s.registered (toLower path) = none) :
    step cyclic s (.require requirer path (.present key names)) = (s, .returns [v]) := by
  show requireInternal cyclic s requirer path (.present key names) = _
  unfold requireInternal
  rw [hregistered]
  simp only [h]

theorem run_loaded (hloaded : Loaded false key v s) (hkept : AllKept false s es) :
    Loaded false key v (run false s es) := by
  induction es generalizing s with
  | nil => exact hloaded
  | cons e es ih => exact ih (step_loaded hkept.1 hloaded) hkept.2

theorem run_inFlight (h : InFlight s) (hkept : AllKept true s es) :
    InFlight (run true s es) ∧ ∀ key v, Loaded true key v s → Loaded true key v (run true s es) := by
  induction es generalizing s with
  | nil => exact ⟨h, fun _ _ hloaded => hloaded⟩
  | cons e es ih =>
    obtain ⟨hstep, hpreserved⟩ := step_inFlight h hkept.1
    obtain ⟨hrun, hpreserved'⟩ := ih hstep hkept.2
    exact ⟨hrun, fun key v hloaded => hpreserved' key v (hpreserved key v hloaded)⟩

/-- A load that ends without an error leaves the module loaded. -/
theorem finish_loaded (hinFlight : cyclic = true → InFlight s) (hframe : s.frames i = some frame)
    (hkept : Kept cyclic s (.finish i results))
    (hreturns : ∃ values, (step cyclic s (.finish i results)).2 = .returns values) :
    ∃ v, results = [v] ∧ Loaded cyclic frame.cacheKey v (step cyclic s (.finish i results)).1 := by
  cases cyclic with
  | false =>
    have hlen : ¬results.length > 1 := by
      intro hlen
      obtain ⟨values, hvalues⟩ := hreturns
      rw [step_finish hframe] at hvalues
      unfold requireCont at hvalues
      rw [if_pos hlen] at hvalues
      cases hvalues
    obtain ⟨v, hresults, hv, -, hrun⟩ := finish_plain hframe hkept hlen
    refine ⟨v, hresults, ?_⟩
    rw [hrun]
    exact ⟨setField_self _ _ hv, nofun⟩
  | true =>
    have h := hinFlight rfl
    obtain ⟨v, t, hresults, hv, hrun, hframes, -, -, hmodules⟩ := finish_kept hframe hkept
    refine ⟨v, hresults, ?_⟩
    rw [hrun]
    refine ⟨?_, fun _ j fr hfr hkeys => ?_⟩
    · rcases hmodules with ⟨rfl, hsame⟩ | hset
      · rw [hsame]
        exact h.cached i frame hframe
      · rw [hset]
        exact setField_self _ _ hv
    · change t.frames j = some fr at hfr
      rw [hframes] at hfr
      by_cases hj : j = i
      · rw [hj, Function.update_self] at hfr
        cases hfr
      · rw [Function.update_of_ne hj] at hfr
        exact hj (h.once j i fr frame hfr hframe hkeys)

theorem inFlight_start_of_idle (hs : ∀ i, s.frames i = none) : InFlight s where
  cached i frame hframe := by rw [hs i] at hframe; cases hframe
  once i j frame frame' hframe := by rw [hs i] at hframe; cases hframe
  fresh i _ := hs i

theorem storesOnce (hs : ∀ i, s.frames i = none) (hkept : AllKept cyclic s es) : StoresOnce cyclic s es := by
  rintro before i results after frame rfl hframe hreturns
  obtain ⟨hbefore, hat, hafter⟩ := allKept_at hkept
  have hinFlight : cyclic = true → InFlight (run cyclic s before) := by
    rintro rfl
    exact (run_inFlight (inFlight_start_of_idle hs) hbefore).1
  obtain ⟨v, hresults, hloaded⟩ := finish_loaded hinFlight hframe hat hreturns
  refine ⟨v, hresults, ?_⟩
  rintro later ⟨rest, rfl⟩ requirer path names hregistered
  refine require_loaded ?_ requirer path names hregistered
  rw [run_append, run_cons]
  have hlater : AllKept cyclic (step cyclic (run cyclic s before) (.finish i results)).1 later := by
    cases rest with
    | nil => simpa using hafter
    | cons e rest => exact (allKept_at hafter).1
  cases cyclic with
  | false => exact (run_loaded hloaded hlater).1
  | true => exact ((run_inFlight (step_inFlight (hinFlight rfl) hat).1 hlater).2 _ _ hloaded).1

theorem undone (hkept : AllKept cyclic s es) : Undone cyclic s es where
  atOnce before requirer path resolution after hes hraises := by
    have hstep : step cyclic (run cyclic s before) (.require requirer path resolution) =
        requireInternal cyclic (run cyclic s before) requirer path resolution := rfl
    rw [hstep] at hraises ⊢
    rcases requireInternal_cases cyclic (run cyclic s before) requirer path resolution with
      ⟨outcome, h, -⟩ | ⟨frame, -, ⟨-, h⟩ | ⟨-, -, metatable, h⟩⟩
    · rw [h]
    · rw [h] at hraises
      cases hraises
    · rw [h] at hraises
      cases hraises
  load before e middle e' after i hes hloading hfails := by
    have hes' : es = (before ++ e :: middle) ++ e' :: after := by
      rw [hes, List.append_assoc]
      rfl
    rw [hes'] at hkept
    have hat := (allKept_at hkept).2.1
    cases cyclic with
    | true => exact absurd hfails (not_fails hat)
    | false =>
      have hstart : completes false (run false s before) e = none :=
        completes_none fun values hvalues => by rw [hloading] at hvalues; cases hvalues
      have hend : completes false (run false s (before ++ e :: middle)) e' = none :=
        completes_none fun values hvalues => by rw [hfails.2] at hvalues; cases hvalues
      obtain ⟨hregistered, hplaceholders, hmodules⟩ := step_plain (run false s before) e
      obtain ⟨hregistered', hplaceholders', hmodules'⟩ := run_plain (step false (run false s before) e).1 middle
      have hmiddle : run false (step false (run false s before) e).1 middle = run false s (before ++ e :: middle) := by
        rw [run_append, run_cons]
      rw [hmiddle] at hregistered' hplaceholders' hmodules'
      obtain ⟨hregistered'', hplaceholders'', hmodules''⟩ := step_plain (run false s (before ++ e :: middle)) e'
      have hlast : run false s (before ++ e :: (middle ++ [e'])) =
          (step false (run false s (before ++ e :: middle)) e').1 := by
        have happend : before ++ e :: (middle ++ [e']) = (before ++ e :: middle) ++ [e'] := by
          rw [List.append_assoc]
          rfl
        rw [happend, run_append]
        rfl
      rw [hstart] at hmodules
      rw [hend] at hmodules''
      show _ ∧ _ ∧ _
      rw [hlast]
      refine ⟨(hregistered''.trans hregistered').trans hregistered,
        (hplaceholders''.trans hplaceholders').trans hplaceholders, ?_⟩
      have hsame : (step false (run false s before) e).1.modules = (run false s before).modules := hmodules
      have hsame' : (step false (run false s (before ++ e :: middle)) e').1.modules =
          (run false s (before ++ e :: middle)).modules := hmodules''
      rw [hsame', hmodules', hsame]

/-- The caches are kept in every run, from a state without loads in flight, whose steps are all of that kind. -/
theorem caches_kept (cyclic : Bool) (s : State) (hs : ∀ i, s.frames i = none) (es : List Event)
    (hkept : AllKept cyclic s es) : Undone cyclic s es ∧ StoresOnce cyclic s es :=
  ⟨undone hkept, storesOnce hs hkept⟩

end Runs

/-- No module is loaded. -/
def State.start : State :=
  ⟨fun _ => none, fun _ => none, fun _ => none, fun _ => none, fun _ => false, 0, fun _ => none, 0⟩

/-- The main script requires a module that requires another one; both end well. -/
def State.sample : List Event :=
  [.require "main".toList "./a".toList (.present "a".toList (some ("a".toList, "a".toList))),
    .require "a".toList "./b".toList (.present "b".toList (some ("b".toList, "b".toList))),
    .finish 1 [.other 7], .finish 0 [.table 0]]

theorem caches_kept_sample :
    Undone true .start State.sample ∧ StoresOnce true .start State.sample := by
  refine caches_kept true .start (fun _ => rfl) State.sample ⟨trivial, trivial, ?_, ?_, trivial⟩
  · intro frame hframe
    have hinner : frame =
        ⟨"./b".toList, "b".toList, "b".toList, "b".toList, "a".toList, 1⟩ :=
      (Option.some.inj (hframe.symm.trans (by decide))).trans rfl
    subst hinner
    refine ⟨.other 7, rfl, nofun, Or.inr (by decide), fun _ a ha => ?_⟩
    have haddress : a = 0 := Option.some.inj (ha.symm.trans (by decide))
    subst haddress
    exact ⟨by decide, Or.inr (by decide)⟩
  · intro frame hframe
    have houter : frame =
        ⟨"./a".toList, "a".toList, "a".toList, "a".toList, "main".toList, 0⟩ :=
      (Option.some.inj (hframe.symm.trans (by decide))).trans rfl
    subst houter
    refine ⟨.table 0, rfl, nofun, Or.inl rfl, fun _ a ha => ?_⟩
    exact absurd (ha.symm.trans (by decide)) (Option.some_ne_none a)

/-- With placeholders a module that fails to load leaves its placeholder behind; without them a module that returns nothing
is not stored. -/
theorem placeholder_left :
    ¬Undone true .start
        [.require "main".toList "./a".toList (.present "a".toList (some ("a".toList, "a".toList))), .fail 0] ∧
      ¬StoresOnce false .start
        [.require "main".toList "./a".toList (.present "a".toList (some ("a".toList, "a".toList))), .finish 0 []] := by
  refine ⟨fun h => ?_, fun h => ?_⟩
  · have hload := h.load [] _ [] (.fail 0) [] 0 rfl rfl ⟨Or.inl rfl, rfl⟩
    exact absurd (congrFun hload.2.1 "a".toList) (by decide)
  · obtain ⟨v, hv, -⟩ := h
      [.require "main".toList "./a".toList (.present "a".toList (some ("a".toList, "a".toList)))] 0 [] [] _ rfl rfl ⟨[], rfl⟩
    cases hv

end Luwu.Require.Cache
