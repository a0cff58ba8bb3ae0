import Luwu.Table.Dead
import Luwu.Lib.Run
import Luwu.Lib.Chain

/-!
# Host references

The host keeps values alive, or watches them, through integer references.  `lua_ref` stores a value in
the registry table and `lua_weakref` in a table with weak values; both choose the slot alike, in
`registryref`.  `lua_refpool` stores a value in an array of its own.  A released slot keeps the link of
a free list: a number in a table, and a pointer that is the next index plus one in the pool.

The shared nil object that a failed lookup answers is a field, `nilobject`, so that a store through it
can be seen; the tables themselves still read it as nil.  `api_check` is not part of a release build:
what it asks for is left to the callers, except that a read of pool storage outside the array, or of a
union member that is not the active one, is the error `fault`.  What `LUA_REGISTRYINDEX` exposes besides
(string keys of the registry) is not touched by these functions.
-/

namespace Luwu

open Function

def INT_MAX : ℤ := 2 ^ 31 - 1

def LUA_NOREF : ℤ := -2

def LUA_REFNIL : ℤ := -1

/-- A slot of `ref_array`: a value, or with the tag `LUA_TNONE` a pointer. -/
inductive PoolSlot where
  | value (v : TValue)
  | none (p : ℕ)
  deriving DecidableEq

/-- The reference pool of `global_State`. -/
structure RefPool where
  ref_array : ℤ → PoolSlot
  ref_capacity : ℤ
  ref_size : ℤ
  ref_free : ℤ
  gc_ref_gray : Bool

/-- The two tables that hold references. -/
inductive RegistryKind where
  | strong
  | weak
  deriving DecidableEq, Repr

structure Host where
  /-- `registry` and `weakregistry` -/
  registry : RegistryKind → LuaTable
  /-- `registryfree` and `weakregistryfree` -/
  registryfree : RegistryKind → ℤ
  pool : RefPool
  nilobject : TValue

inductive RefError where
  | table (e : TableError)
  | errmem
  | fault
  deriving DecidableEq

abbrev HostM := EStateM RefError Host

namespace Host

def setRegistry (h : Host) (k : RegistryKind) (t : LuaTable) : Host :=
  { h with registry := update h.registry k t }

def setFree (h : Host) (k : RegistryKind) (ref : ℤ) : Host :=
  { h with registryfree := update h.registryfree k ref }

/-- Reading through a slot pointer of a registry. -/
def slotGet (h : Host) (k : RegistryKind) : Slot → TValue
  | .nilobject => h.nilobject
  | s => (h.registry k).slotGet s

/-- Storing through a slot pointer of a registry. -/
def slotSet (h : Host) (k : RegistryKind) (v : TValue) : Slot → Host
  | .nilobject => { h with nilobject := v }
  | s => h.setRegistry k ((h.registry k).slotSet v s)

end Host

/-- A table operation on a registry. -/
def onRegistry {α : Type} (k : RegistryKind) (x : TableM α) : HostM α := fun h =>
  match x (h.registry k) with
  | .ok a t => .ok a (h.setRegistry k t)
  | .error e t => .error (.table e) (h.setRegistry k t)

/-- `int(nvalue(slot))` -/
def intvalue : TValue → HostM ℤ
  | .number n => pure (luai_num2int n)
  | _ => throw .fault

/-- The slot a new reference gets: a released one, or the one behind the last element. -/
def chooseref (k : RegistryKind) : HostM ℤ := do
  let free := (← get).registryfree k
  if free ≠ 0 then return free -- reuse existing slot
  else do
    -- no free elements
    let n ← onRegistry k (fun t => .ok (luaH_getn t).1 (luaH_getn t).2)
    return n + 1 -- create new reference

def registryref (E : Env) (k : RegistryKind) (p : TValue) : HostM ℤ := do
  if p.isNil then return LUA_REFNIL
  else do
    let ref ← chooseref k
    let slot ← onRegistry k (luaH_setnum E ref)
    let h ← get
    if h.registryfree k ≠ 0 then do
      let next ← intvalue (h.slotGet k slot)
      modify (·.setFree k next)
    modify (·.slotSet k p slot)
    return ref

/-- `luaH_getnum` on a registry. -/
def registryslot (k : RegistryKind) (ref : ℤ) : HostM Slot := do
  match luaH_getnum ((← get).registry k) ref with
  | some slot => pure slot
  | none => throw (.table .loop)

def registryunref (k : RegistryKind) (ref : ℤ) : HostM Unit := do
  if ref ≤ LUA_REFNIL then return
  else do
    let slot ← registryslot k ref
    -- similar to how 'luaH_setnum' makes non-nil slot value mutable
    modify fun h => h.slotSet k (.number (cast_num (h.registryfree k))) slot
    modify (·.setFree k ref)

def lua_ref (E : Env) (p : TValue) : HostM ℤ := registryref E .strong p

def lua_unref (ref : ℤ) : HostM ℤ := do
  registryunref .strong ref
  return LUA_NOREF

def lua_weakref (E : Env) (p : TValue) : HostM ℤ := registryref E .weak p

def lua_weakunref (ref : ℤ) : HostM ℤ := do
  registryunref .weak ref
  return LUA_NOREF

/-- The value that a read of a registry pushes. -/
def registryget (k : RegistryKind) (ref : ℤ) : HostM TValue := do
  let slot ← registryslot k ref
  return (← get).slotGet k slot

/-- `lua_getref`: `lua_rawgeti` on the registry. -/
def lua_getref (ref : ℤ) : HostM TValue := registryget .strong ref

def lua_getweakref (ref : ℤ) : HostM TValue := registryget .weak ref

/-! ### The pool -/

/-- `slot->value.p ? (int)(uintptr_t)slot->value.p - 1 : -1` -/
def poolnext : PoolSlot → Option ℤ
  | .none p => some (if p ≠ 0 then (p : ℤ).bmod (2 ^ 32) - 1 else -1)
  | .value _ => none

def poolcapacity (capacity : ℤ) : ℤ :=
  if capacity = 0 then 64 else if capacity < INT_MAX / 2 then capacity * 2 else INT_MAX

/-- Room for one more slot; `room` is whether the array can be reallocated. -/
def growpool (room : Bool) : HostM Unit := do
  let g := (← get).pool
  if g.ref_size ≥ g.ref_capacity then
    if room then modify fun h => { h with pool := { g with ref_capacity := poolcapacity g.ref_capacity } }
    else throw .errmem

/-- The slot a new pool reference gets; none when the pool is full. -/
def choosepool (room : Bool) : HostM (Option ℤ) := do
  let g := (← get).pool
  if g.ref_free ≠ -1 then
    match poolnext (g.ref_array g.ref_free) with
    | some next => do
      modify fun h => { h with pool := { g with ref_free := next } }
      return some g.ref_free
    | none => throw .fault
  else if g.ref_size = INT_MAX then return none
  else do
    growpool room
    modify fun h => { h with pool := { h.pool with ref_size := h.pool.ref_size + 1 } }
    return some g.ref_size

def lua_refpool (room : Bool) (p : TValue) : HostM ℤ := do
  if p.isNil then return LUA_REFNIL
  else
    match ← choosepool room with
    | none => return LUA_REFNIL
    | some ref => do
      modify fun h => { h with pool := { h.pool with
        ref_array := update h.pool.ref_array ref (.value p)
        gc_ref_gray := h.pool.gc_ref_gray || p.iscollectable } }
      return ref

def lua_getrefpool (ref : ℤ) : HostM TValue := do
  if ref = LUA_REFNIL then return .nil
  else do
    let g := (← get).pool
    if 0 ≤ ref ∧ ref < g.ref_size then
      match g.ref_array ref with
      | .value v => return v
      | .none _ => throw .fault
    else throw .fault

def lua_unrefpool (ref : ℤ) : HostM Unit := do
  if ref ≤ LUA_REFNIL then return
  else do
    let g := (← get).pool
    if 0 ≤ ref ∧ ref < g.ref_size then
      modify fun h => { h with pool := { g with
        ref_array := update g.ref_array ref
          (.none (if g.ref_free ≠ -1 then (g.ref_free + 1).toNat else 0))
        ref_free := ref } }
    else throw .fault

/-! ### Collection -/

/-- `iscleared`: strings are values, other objects go when they are white. -/
def iscleared (white : GCPtr → Bool) : TValue → Bool
  | .gc .string _ => false
  | .gc _ p => white p
  | .deadkey p => white p
  | _ => false

/-- The loop of `traversetable` over the nodes marks the keys of empty entries. -/
def traversenodes (t : LuaTable) : LuaTable :=
  (List.range t.sizenode).reverse.foldl
    (fun t i => if (t.gval i).isNil then removeentry t i else t) t

/-- One node of `cleartable`. -/
def clearnode (white : GCPtr → Bool) (t : LuaTable) (i : ℕ) : LuaTable :=
  -- non-empty entry?
  if !(t.gval i).isNil && (iscleared white (t.gkey i) || iscleared white (t.gval i)) then
    removeentry (t.setVal i .nil) i
  else t

/-- `cleartable` on one table whose mode is `"v"`. -/
def cleartable (white : GCPtr → Bool) (t : LuaTable) : LuaTable :=
  let t := { t with array := t.array.map fun v => if iscleared white v then .nil else v }
  (List.range t.sizenode).reverse.foldl (clearnode white) t

/-- A collection cycle, as the references see it: `white` is what was not marked. -/
def collect (white : GCPtr → Bool) (h : Host) : Host :=
  { h with registry := fun
      | .strong => traversenodes (h.registry .strong)
      | .weak => cleartable white (traversenodes (h.registry .weak)) }

end Luwu

/-!
## References in the pool

The references of the pool are the indices below `ref_size`.  A released slot keeps the index of the
next one plus one as a pointer, and the null pointer ends the list.
-/

namespace Luwu

open Function Luwu.SlotStore

/-- The link that `ref_free` or a released slot holds. -/
def poollink (d : ℤ) : Option ℤ := if d = -1 then none else some d

/-- The slot that a slot links to. -/
def RefPool.refnext (g : RefPool) (r : ℤ) : Option ℤ := (poolnext (g.ref_array r)).bind poollink

/-- A pool with the references of a ledger. -/
structure PoolOk (g : RefPool) (L : Ledger ℤ TValue) : Prop where
  issued : ∀ r, L r ≠ .unused ↔ 0 ≤ r ∧ r < g.ref_size
  size : 0 ≤ g.ref_size ∧ g.ref_size ≤ g.ref_capacity ∧ g.ref_capacity ≤ INT_MAX
  held : ∀ r v, L r = .held v → v ≠ .nil ∧ g.ref_array r = .value v
  released : ∀ r, L r = .released → ∃ d, -1 ≤ d ∧ d < INT_MAX ∧ poolnext (g.ref_array r) = some d
  free_range : -1 ≤ g.ref_free ∧ g.ref_free < INT_MAX
  threads : ∃ xs, Threads L g.refnext (poollink g.ref_free) xs

section Pool

variable {g : RefPool} {L : Ledger ℤ TValue} {r d : ℤ} {v p : TValue} {gray : Bool}

/-- A slot that is written. -/
def RefPool.setslot (g : RefPool) (r : ℤ) (s : PoolSlot) : RefPool :=
  { g with ref_array := update g.ref_array r s }

/-- The pointer that stands for an index is read back as the index. -/
theorem poolnext_link (h1 : -1 ≤ d) (h2 : d < INT_MAX) :
    poolnext (.none (if d ≠ -1 then (d + 1).toNat else 0)) = some d := by
  have hmax : INT_MAX = 2 ^ 31 - 1 := rfl
  unfold poolnext
  refine congrArg some ?_
  by_cases hd : d = -1
  · rw [if_neg (not_not.mpr hd), if_neg (by simp), hd]
  · rw [if_pos hd, if_pos (by omega), Int.toNat_of_nonneg (by omega),
      Int.bmod_eq_of_le (by omega) (by omega)]
    omega

theorem refnext_setslot_of_ne {s : PoolSlot} {r' : ℤ} (hne : r' ≠ r) :
    (g.setslot r s).refnext r' = g.refnext r' := by
  show (poolnext (update g.ref_array r s r')).bind poollink = _
  rw [update_of_ne hne]
  rfl

/-- A released slot is used again. -/
theorem PoolOk.reuse (hok : PoolOk g L) (hfree : g.ref_free ≠ -1) (hp : p ≠ .nil) :
    ∃ d, L g.ref_free = .released ∧ poolnext (g.ref_array g.ref_free) = some d ∧
      PoolOk { g.setslot g.ref_free (.value p) with ref_free := d, gc_ref_gray := gray }
        (update L g.ref_free (.held p)) := by
  obtain ⟨xs, hxs⟩ := hok.threads
  have hlink : poollink g.ref_free = some g.ref_free := if_neg hfree
  rw [hlink] at hxs
  obtain ⟨hrel, _⟩ := hxs.uncons
  obtain ⟨d, hd1, hd2, hnext⟩ := hok.released _ hrel
  refine ⟨d, hrel, hnext, fun r' => ?_, hok.size, fun r' v hr' => ?_, fun r' hr' => ?_,
    ⟨hd1, hd2⟩, ?_⟩
  · by_cases he : r' = g.ref_free
    · subst he
      rw [update_self]
      exact iff_of_true (fun h => by cases h)
        ((hok.issued _).mp (by rw [hrel]; exact fun h => by cases h))
    · rw [update_of_ne he]
      exact hok.issued r'
  · show v ≠ .nil ∧ update g.ref_array g.ref_free (.value p) r' = .value v
    by_cases he : r' = g.ref_free
    · subst he
      rw [update_self] at hr' ⊢
      obtain rfl := Holding.held.inj hr'
      exact ⟨hp, rfl⟩
    · rw [update_of_ne he] at hr' ⊢
      exact hok.held r' v hr'
  · show ∃ d, -1 ≤ d ∧ d < INT_MAX ∧
      poolnext (update g.ref_array g.ref_free (.value p) r') = some d
    by_cases he : r' = g.ref_free
    · subst he
      rw [update_self] at hr'
      cases hr'
    · rw [update_of_ne he] at hr' ⊢
      exact hok.released r' hr'
  · obtain ⟨ys, hys⟩ := hxs.reuse (a := p)
      (fun r' hne => refnext_setslot_of_ne hne)
    have hfirst : g.refnext g.ref_free = poollink d := by
      unfold RefPool.refnext
      rw [hnext]
      rfl
    rw [hfirst] at hys
    exact ⟨ys, hys⟩

/-- A new slot at the end. -/
theorem PoolOk.issue {capacity : ℤ} (hok : PoolOk g L) (hcap : g.ref_size + 1 ≤ capacity)
    (hmax : capacity ≤ INT_MAX) (hp : p ≠ .nil) :
    L g.ref_size = .unused ∧
      PoolOk { g.setslot g.ref_size (.value p) with
          ref_capacity := capacity, ref_size := g.ref_size + 1, gc_ref_gray := gray }
        (update L g.ref_size (.held p)) := by
  have hunused : L g.ref_size = .unused := by
    by_contra hne
    have := ((hok.issued _).mp hne).2
    omega
  obtain ⟨hs1, hs2, hs3⟩ := hok.size
  refine ⟨hunused, fun r' => ?_, ?_, fun r' v hr' => ?_, fun r' hr' => ?_, hok.free_range, ?_⟩
  · show _ ↔ 0 ≤ r' ∧ r' < g.ref_size + 1
    by_cases he : r' = g.ref_size
    · subst he
      rw [update_self]
      exact iff_of_true (fun h => by cases h) ⟨hs1, by omega⟩
    · rw [update_of_ne he, hok.issued]
      omega
  · show 0 ≤ g.ref_size + 1 ∧ g.ref_size + 1 ≤ capacity ∧ capacity ≤ INT_MAX
    omega
  · show v ≠ .nil ∧ update g.ref_array g.ref_size (.value p) r' = .value v
    by_cases he : r' = g.ref_size
    · subst he
      rw [update_self] at hr' ⊢
      obtain rfl := Holding.held.inj hr'
      exact ⟨hp, rfl⟩
    · rw [update_of_ne he] at hr' ⊢
      exact hok.held r' v hr'
  · show ∃ d, -1 ≤ d ∧ d < INT_MAX ∧
      poolnext (update g.ref_array g.ref_size (.value p) r') = some d
    by_cases he : r' = g.ref_size
    · subst he
      rw [update_self] at hr'
      cases hr'
    · rw [update_of_ne he] at hr' ⊢
      exact hok.released r' hr'
  · obtain ⟨xs, hxs⟩ := hok.threads
    exact ⟨xs, hxs.issue hunused (fun r' hne => refnext_setslot_of_ne hne)⟩

/-- A slot in use is given back. -/
theorem PoolOk.release (hok : PoolOk g L) (hr : L r = .held v) :
    PoolOk { g.setslot r (.none (if g.ref_free ≠ -1 then (g.ref_free + 1).toNat else 0)) with
        ref_free := r } (update L r .released) := by
  obtain ⟨hr1, hr2⟩ := (hok.issued r).mp (by rw [hr]; exact fun h => by cases h)
  obtain ⟨hs1, hs2, hs3⟩ := hok.size
  have hlink := poolnext_link hok.free_range.1 hok.free_range.2
  set s : PoolSlot := .none (if g.ref_free ≠ -1 then (g.ref_free + 1).toNat else 0) with hs
  have hrange : -1 ≤ r ∧ r < INT_MAX := ⟨by omega, by omega⟩
  refine ⟨fun r' => ?_, hok.size, fun r' v' hr' => ?_, fun r' hr' => ?_, hrange, ?_⟩
  · by_cases he : r' = r
    · subst he
      rw [update_self]
      exact iff_of_true (fun h => by cases h) ⟨hr1, hr2⟩
    · rw [update_of_ne he]
      exact hok.issued r'
  · show v' ≠ .nil ∧ update g.ref_array r s r' = .value v'
    by_cases he : r' = r
    · subst he
      rw [update_self] at hr'
      cases hr'
    · rw [update_of_ne he] at hr' ⊢
      exact hok.held r' v' hr'
  · show ∃ d, -1 ≤ d ∧ d < INT_MAX ∧ poolnext (update g.ref_array r s r') = some d
    by_cases he : r' = r
    · subst he
      rw [update_self]
      exact ⟨g.ref_free, hok.free_range.1, hok.free_range.2, hlink⟩
    · rw [update_of_ne he] at hr' ⊢
      exact hok.released r' hr'
  · obtain ⟨xs, hxs⟩ := hok.threads
    have hnext : (g.setslot r s).refnext r = poollink g.ref_free := by
      show (poolnext (update g.ref_array r s r)).bind poollink = _
      rw [update_self, hlink]
      rfl
    have hhead : poollink r = some r := if_neg (by omega)
    rw [hhead]
    exact ⟨_, hxs.release hr hnext (fun r' hne => refnext_setslot_of_ne hne)⟩

end Pool

end Luwu
