import Luwu.Lib.Association
import Luwu.Native.CodeAllocator

/-!
# Shared native modules

Threads take, copy and drop references to native modules. What is atomic is an operation on a counter, a section
under the mutex, or one read outside of it. A module has the number of its creation for an address, so a pointer
to a destroyed module stays one.
-/

namespace Luwu.Native

abbrev ModuleId := Vector UInt8 16

/-- An access to a destroyed module or to the destroyed allocator, or a failed assertion. -/
inductive SharedFault where
  | moduleGone (m : ℕ)
  | allocatorGone
  | assertion
  deriving DecidableEq, Repr

structure NativeModule where
  refcount : ℕ
  moduleId : Option ModuleId
  codeAllocationData : CodeAllocationData
  deriving DecidableEq, Repr

/-- How far a thread is in `NativeModule::release`, once its count has become 0. -/
inductive Release where
  | idle
  /-- about to read `allocator` from the module -/
  | dropped (m : ℕ)
  /-- about to take the lock in `eraseNativeModuleIfUnreferenced` -/
  | erasing (m : ℕ)
  deriving DecidableEq, Repr

structure SharedCodeAllocator where
  /-- `CODEGEN_ASSERT` evaluates its argument in this build. -/
  assertions : Bool
  /-- The allocator itself is not destroyed yet. -/
  alive : Bool
  created : ℕ
  modules : ℕ → Option NativeModule
  identifiedModules : List (ModuleId × ℕ)
  anonymousModuleCount : ℕ
  /-- What was given back to the code allocator. -/
  deallocated : List CodeAllocationData
  /-- Modules in the order of their destruction. -/
  destroyed : List ℕ
  /-- References to a module: `NativeModuleRef` objects and bound functions. -/
  refs : ℕ → ℕ
  threads : ℕ → Release

namespace SharedCodeAllocator

open Function (update)

variable (s : SharedCodeAllocator)

/-- An access to a field of a module. -/
def access (m : ℕ) : Except SharedFault NativeModule :=
  match s.modules m with
  | some nativeModule => .ok nativeModule
  | none => .error (.moduleGone m)

/-- `addRef` and `addRefs`, for references that come to be with them -/
def addRefs (m count : ℕ) : Except SharedFault SharedCodeAllocator := do
  let nativeModule ← s.access m
  return { s with
    modules := update s.modules m
      (some { nativeModule with refcount := (nativeModule.refcount + count) % 2 ^ sizeBits })
    refs := update s.refs m (s.refs m + count) }

/-- The decrement of `release` by thread `t`, with the test of the new count. -/
def release (t m : ℕ) : Except SharedFault SharedCodeAllocator := do
  let nativeModule ← s.access m
  let newRefcount := (nativeModule.refcount + 2 ^ sizeBits - 1) % 2 ^ sizeBits
  return { s with
    modules := update s.modules m (some { nativeModule with refcount := newRefcount })
    refs := update s.refs m (s.refs m - 1)
    threads := update s.threads t (if newRefcount ≠ 0 then .idle else .dropped m) }

/-- `release` reads `allocator` for its call. -/
def readAllocator (t m : ℕ) : Except SharedFault SharedCodeAllocator := do
  let _ ← s.access m
  return { s with threads := update s.threads t (.erasing m) }

/-- `~NativeModule` and the end of its memory -/
def destroy (m : ℕ) : Except SharedFault SharedCodeAllocator := do
  let nativeModule ← s.access m
  if s.assertions ∧ nativeModule.refcount ≠ 0 then throw .assertion
  return { s with modules := update s.modules m none, destroyed := m :: s.destroyed }

def eraseNativeModuleIfUnreferenced (t m : ℕ) : Except SharedFault SharedCodeAllocator := do
  if !s.alive then throw .allocatorGone
  let nativeModule ← s.access m
  let s := { s with threads := update s.threads t .idle }
  -- It is possible that someone acquired a reference to the module between
  -- the time that we called this function and the time that we acquired the
  -- lock.  If so, that's okay.
  if nativeModule.refcount ≠ 0 then return s
  let s := { s with deallocated := nativeModule.codeAllocationData :: s.deallocated }
  match nativeModule.moduleId with
  | some moduleId =>
    match Association.get Prod.fst s.identifiedModules moduleId with
    | none => throw .assertion
    | some (_, found) =>
      let s := { s with identifiedModules := Association.drop Prod.fst s.identifiedModules moduleId }
      s.destroy found
  | none =>
    -- the decrement stands inside the assertion
    if s.assertions ∧ s.anonymousModuleCount = 0 then throw .assertion
    let s := { s with
      anonymousModuleCount := if s.assertions then s.anonymousModuleCount - 1 else s.anonymousModuleCount }
    s.destroy m

def tryGetNativeModuleWithLockHeld (moduleId : ModuleId) : Except SharedFault (Option ℕ × SharedCodeAllocator) :=
  match Association.get Prod.fst s.identifiedModules moduleId with
  | none => return (none, s)
  | some (_, m) => do
    let s ← s.addRefs m 1
    return (some m, s)

def tryGetNativeModule (moduleId : ModuleId) : Except SharedFault (Option ℕ × SharedCodeAllocator) := do
  if !s.alive then throw .allocatorGone
  s.tryGetNativeModuleWithLockHeld moduleId

/-- A module with no reference yet, where `new` puts it. -/
def newModule (moduleId : Option ModuleId) (result : CodeAllocationData) : SharedCodeAllocator :=
  { s with created := s.created + 1, modules := update s.modules s.created (some ⟨0, moduleId, result⟩) }

/-- `result` is what the code allocator returns. -/
def getOrInsertNativeModule (moduleId : ModuleId) (result : CodeAllocationData) :
    Except SharedFault (Option ℕ × SharedCodeAllocator) := do
  if !s.alive then throw .allocatorGone
  match ← s.tryGetNativeModuleWithLockHeld moduleId with
  | (some existingModule, s) => return (some existingModule, s)
  | (none, s) =>
    if result.start = 0 then return (none, s)
    let m := s.created
    let s := s.newModule (some moduleId) result
    let s := { s with identifiedModules := (moduleId, m) :: s.identifiedModules }
    let s ← s.addRefs m 1
    return (some m, s)

def insertAnonymousNativeModule (result : CodeAllocationData) :
    Except SharedFault (Option ℕ × SharedCodeAllocator) := do
  if !s.alive then throw .allocatorGone
  if result.start = 0 then return (none, s)
  let m := s.created
  let s ← (s.newModule none result).addRefs m 1
  return (some m, { s with anonymousModuleCount := (s.anonymousModuleCount + 1) % 2 ^ sizeBits })

/-- The modules that are registered go with the map. -/
def destroyAll : List (ModuleId × ℕ) → SharedCodeAllocator → Except SharedFault SharedCodeAllocator
  | [], s => return s
  | (_, m) :: rest, s => do
    let s ← s.destroy m
    destroyAll rest s

/-- `~SharedCodeAllocator` -/
def destroyAllocator : Except SharedFault SharedCodeAllocator := do
  if !s.alive then throw .allocatorGone
  if s.assertions ∧ s.identifiedModules ≠ [] then throw .assertion
  if s.assertions ∧ s.anonymousModuleCount ≠ 0 then throw .assertion
  let s ← destroyAll s.identifiedModules s
  return { s with alive := false, identifiedModules := [] }

/-- No module was made yet. -/
def start (assertions : Bool) : SharedCodeAllocator where
  assertions := assertions
  alive := true
  created := 0
  modules := fun _ => none
  identifiedModules := []
  anonymousModuleCount := 0
  deallocated := []
  destroyed := []
  refs := fun _ => 0
  threads := fun _ => .idle

end SharedCodeAllocator

/-- What a thread does next. -/
inductive SharedAct where
  | tryGetNativeModule (moduleId : ModuleId)
  | getOrInsertNativeModule (moduleId : ModuleId) (result : CodeAllocationData)
  | insertAnonymousNativeModule (result : CodeAllocationData)
  /-- copies of a reference, or the references of functions that are bound -/
  | addRefs (m count : ℕ)
  /-- a read of the module through a reference -/
  | use (m : ℕ)
  | release (m : ℕ)
  | readAllocator (m : ℕ)
  | eraseNativeModuleIfUnreferenced (m : ℕ)
  | destroyAllocator

namespace SharedAct

/-- The state after the act of thread `t`. -/
def step (t : ℕ) : SharedAct → SharedCodeAllocator → Except SharedFault SharedCodeAllocator
  | .tryGetNativeModule moduleId, s => Prod.snd <$> s.tryGetNativeModule moduleId
  | .getOrInsertNativeModule moduleId result, s => Prod.snd <$> s.getOrInsertNativeModule moduleId result
  | .insertAnonymousNativeModule result, s => Prod.snd <$> s.insertAnonymousNativeModule result
  | .addRefs m count, s => s.addRefs m count
  | .use m, s => do
    let _ ← s.access m
    return s
  | .release m, s => s.release t m
  | .readAllocator m, s => s.readAllocator t m
  | .eraseNativeModuleIfUnreferenced m, s => s.eraseNativeModuleIfUnreferenced t m
  | .destroyAllocator, s => s.destroyAllocator

/-- Thread `t` can do this: it holds what it uses, is where it continues, and the references it gets are objects
that fit in memory. -/
def Allowed (t : ℕ) : SharedAct → SharedCodeAllocator → Prop
  | .tryGetNativeModule _, s => s.threads t = .idle ∧ s.alive = true ∧ ∀ m, s.refs m + 1 < 2 ^ sizeBits
  | .getOrInsertNativeModule _ _, s => s.threads t = .idle ∧ s.alive = true ∧ ∀ m, s.refs m + 1 < 2 ^ sizeBits
  | .insertAnonymousNativeModule _, s => s.threads t = .idle ∧ s.alive = true ∧
    ∀ l : List ℕ, l.Nodup → (∀ m ∈ l, s.modules m ≠ none) → l.length + 1 < 2 ^ sizeBits
  | .addRefs m count, s => s.threads t = .idle ∧ 0 < s.refs m ∧ s.refs m + count < 2 ^ sizeBits
  | .use m, s => s.threads t = .idle ∧ 0 < s.refs m
  | .release m, s => s.threads t = .idle ∧ 0 < s.refs m
  | .readAllocator m, s => s.threads t = .dropped m
  | .eraseNativeModuleIfUnreferenced m, s => s.threads t = .erasing m
  | .destroyAllocator, s => s.threads t = .idle ∧ s.alive = true

def run : List (ℕ × SharedAct) → SharedCodeAllocator → Except SharedFault SharedCodeAllocator
  | [], s => .ok s
  | (t, act) :: acts, s =>
    match act.step t s with
    | .ok s' => run acts s'
    | .error e => .error e

/-- Every act is allowed in the state that the ones before it leave. -/
def Possible : List (ℕ × SharedAct) → SharedCodeAllocator → Prop
  | [], _ => True
  | (t, act) :: acts, s => act.Allowed t s ∧ ∀ s', act.step t s = .ok s' → Possible acts s'

end SharedAct

end Luwu.Native
