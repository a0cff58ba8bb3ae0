import Mathlib.Logic.Function.Basic
import Luwu.VM.Object

/-!
# Upvalues

An upvalue is open while it stands for a stack slot, and closed once it holds its value itself.  The open
upvalues of a thread form a list sorted by stack level; the open upvalues of all threads form a ring at
`uvhead`, which the collector walks.  The links of an open upvalue share their storage with the value of
a closed one.

A stack pointer is an allocation and an index; reallocating a stack makes a new allocation.  The
collector is what upvalues see of it: `traversestack` marks the open upvalues of a thread, other objects
mark upvalues they refer to, `atomic` traverses what is alive and was not seen since its last change,
then closes or drops the upvalues of threads that were not reached, and flips the white.  An upvalue that
was white then is dead, and sweeping frees it; a thread that was not reached is out of the program's
sight from then on, so it leaves the model there.
-/

namespace Luwu

open Function

/-- A pointer into the stack of a thread. -/
structure StkId where
  block : ℕ
  index : ℕ
  deriving DecidableEq

/-- `p >= q`, for pointers into one stack. -/
def StkId.ge (p q : StkId) : Prop := p.block = q.block ∧ q.index ≤ p.index

instance (p q : StkId) : Decidable (p.ge q) := inferInstanceAs (Decidable (_ ∧ _))

/-- What `v` of an upvalue points to: a stack slot, or the value of the upvalue itself. -/
inductive UpvalPtr where
  | stack (l : StkId)
  | value
  deriving DecidableEq

/-- `u.open`.  In the ring `none` is `uvhead`; in the list of a thread it is the end. -/
structure OpenLinks where
  prev : Option ℕ
  next : Option ℕ
  threadnext : Option ℕ
  deriving DecidableEq

/-- The union `u`. -/
inductive UpvalUnion where
  | value (v : TValue)
  | links (o : OpenLinks)
  deriving DecidableEq

structure UpVal where
  v : UpvalPtr
  u : UpvalUnion
  markedopen : Bool
  /-- gray or black -/
  marked : Bool
  /-- white since before the last flip -/
  isdead : Bool
  deriving DecidableEq

/-- What a thread has to do with upvalues. -/
structure Thread where
  stack : ℕ
  stacksize : ℕ
  openupval : Option ℕ
  marked : Bool
  deriving DecidableEq

structure UpvalState where
  threads : ℕ → Option Thread
  slots : ℕ → ℕ → TValue
  upvals : ℕ → Option UpVal
  /-- the upvalues on the pages of the collector -/
  objects : List ℕ
  uvheadprev : Option ℕ
  uvheadnext : Option ℕ

inductive UpvalError where
  | errmem
  | fault
  deriving DecidableEq

abbrev UpvalM := EStateM UpvalError UpvalState

def upisopen (uv : UpVal) : Bool := uv.v ≠ .value

/-! ### Access -/

def getupval (p : ℕ) : UpvalM UpVal := do
  match (← get).upvals p with
  | some uv => return uv
  | none => throw .fault

def UpvalState.setUpval (s : UpvalState) (p : ℕ) (uv : UpVal) : UpvalState :=
  { s with upvals := update s.upvals p (some uv) }

def setupval (p : ℕ) (uv : UpVal) : UpvalM Unit := modify (·.setUpval p uv)

def getthread (L : ℕ) : UpvalM Thread := do
  match (← get).threads L with
  | some th => return th
  | none => throw .fault

def UpvalState.setThread (s : UpvalState) (L : ℕ) (th : Thread) : UpvalState :=
  { s with threads := update s.threads L (some th) }

def setthread (L : ℕ) (th : Thread) : UpvalM Unit := modify (·.setThread L th)

/-- `uv->u.open` -/
def openlinks (uv : UpVal) : UpvalM OpenLinks :=
  match uv.u with
  | .links o => pure o
  | .value _ => throw .fault

/-- `uv->v`, where it points to a stack -/
def stacklevel (uv : UpVal) : UpvalM StkId :=
  match uv.v with
  | .stack l => pure l
  | .value => throw .fault

/-- `*uv->v` -/
def loadvalue (uv : UpVal) : UpvalM TValue := do
  match uv.v, uv.u with
  | .stack l, _ => return (← get).slots l.block l.index
  | .value, .value v => return v
  | .value, .links _ => throw .fault

def UpvalState.setSlot (s : UpvalState) (l : StkId) (v : TValue) : UpvalState :=
  { s with slots := update s.slots l.block (update (s.slots l.block) l.index v) }

/-- `*uv->v = v` -/
def storevalue (p : ℕ) (v : TValue) : UpvalM Unit := do
  let uv ← getupval p
  match uv.v with
  | .stack l => modify (·.setSlot l v)
  | .value => setupval p { uv with u := .value v }

/-- `node->u.open.prev = r`, where `none` is `uvhead` -/
def setprev (node r : Option ℕ) : UpvalM Unit :=
  match node with
  | none => modify ({ · with uvheadprev := r })
  | some p => do
    let uv ← getupval p
    let o ← openlinks uv
    setupval p { uv with u := .links { o with prev := r } }

/-- `node->u.open.next = r` -/
def setnext (node r : Option ℕ) : UpvalM Unit :=
  match node with
  | none => modify ({ · with uvheadnext := r })
  | some p => do
    let uv ← getupval p
    let o ← openlinks uv
    setupval p { uv with u := .links { o with next := r } }

/-- Where a pointer of the list of a thread is stored: what `pp` points to. -/
inductive Place where
  | openupval (L : ℕ)
  | threadnext (p : ℕ)

def loadplace : Place → UpvalM (Option ℕ)
  | .openupval L => do return (← getthread L).openupval
  | .threadnext p => do
    let o ← openlinks (← getupval p)
    return o.threadnext

def storeplace (r : Option ℕ) : Place → UpvalM Unit
  | .openupval L => do
    let th ← getthread L
    setthread L { th with openupval := r }
  | .threadnext p => do
    let uv ← getupval p
    let o ← openlinks uv
    setupval p { uv with u := .links { o with threadnext := r } }

/-- A bound for the walks along the lists. -/
def walkfuel : UpvalM ℕ := do return (← get).objects.length + 1

/-! ### `luaF_findupval` -/

/-- The loop: the upvalue of the level, or where it belongs. -/
def searchopen (level : StkId) : ℕ → Place → UpvalM (ℕ ⊕ Place)
  | 0, _ => throw .fault
  | fuel + 1, pp => do
    match ← loadplace pp with
    | none => return .inr pp
    | some p => do
      let v ← stacklevel (← getupval p)
      if v.ge level then
        if v = level then return .inl p
        else searchopen level fuel (.threadnext p)
      else return .inr pp

/-- A new upvalue at a place of the list; `fresh` is what the allocator answers. -/
def newupval (fresh : Option ℕ) (level : StkId) (pp : Place) : UpvalM ℕ := do
  match fresh with
  | none => throw .errmem
  | some p => do
    let threadnext ← loadplace pp
    let headnext := (← get).uvheadnext
    modify fun s => { s with objects := p :: s.objects }
    setupval p ⟨.stack level, .links ⟨none, headnext, threadnext⟩, false, false, false⟩
    -- chain the upvalue in the threads open upvalue list at the proper position
    storeplace (some p) pp
    -- double link the upvalue in the global open upvalue list
    setprev headnext (some p)
    setnext none (some p)
    return p

def luaF_findupval (fresh : Option ℕ) (L : ℕ) (level : StkId) : UpvalM ℕ := do
  match ← searchopen level (← walkfuel) (.openupval L) with
  | .inl p => return p
  | .inr pp => newupval fresh level pp

/-! ### `luaF_close` -/

def luaF_closeupval (p : ℕ) (dead : Bool) : UpvalM Unit := do
  -- unlink value from all lists *before* closing it since value storage overlaps
  let o ← openlinks (← getupval p)
  setprev o.next o.prev
  setnext o.prev o.next
  if dead then return
  else do
    let uv ← getupval p
    let v ← loadvalue uv
    setupval p { uv with v := .value, u := .value v }

def closeloop (L : ℕ) (level : StkId) : ℕ → UpvalM Unit
  | 0 => throw .fault
  | fuel + 1 => do
    let th ← getthread L
    match th.openupval with
    | none => return
    | some p => do
      let uv ← getupval p
      let v ← stacklevel uv
      if v.ge level then do
        -- unlink value *before* closing it since value storage overlaps
        let o ← openlinks uv
        setthread L { th with openupval := o.threadnext }
        luaF_closeupval p false
        closeloop L level fuel
      else return

def luaF_close (L : ℕ) (level : StkId) : UpvalM Unit := do
  closeloop L level (← walkfuel)

/-! ### Stacks -/

/-- The loops over the open upvalues of a thread. -/
def eachopen (f : UpVal → UpVal) : ℕ → Option ℕ → UpvalM Unit
  | _, none => return
  | 0, some _ => throw .fault
  | fuel + 1, some p => do
    let uv ← getupval p
    setupval p (f uv)
    let o ← openlinks uv
    eachopen f fuel o.threadnext

/-- `up->v = (up->v - oldstack) + L->stack` -/
def UpVal.rebase (block : ℕ) (uv : UpVal) : UpVal :=
  match uv.v with
  | .stack l => { uv with v := .stack ⟨block, l.index⟩ }
  | .value => uv

/-- `luaM_reallocarray` of a stack, and the new segment erased. -/
def UpvalState.copyStack (s : UpvalState) (old new size : ℕ) : UpvalState :=
  { s with slots := update s.slots new fun i => if i < size then s.slots old i else .nil }

/-- `block` is the new allocation. -/
def luaD_reallocstack (L : ℕ) (block : Option ℕ) (realsize : ℕ) : UpvalM Unit := do
  match block with
  | none => throw .errmem
  | some new => do
    let th ← getthread L
    modify (·.copyStack th.stack new (min th.stacksize realsize))
    setthread L { th with stack := new, stacksize := realsize }
    eachopen (UpVal.rebase new) (← walkfuel) th.openupval -- correctstack

def luaE_newthread (L : ℕ) (block : Option ℕ) (size : ℕ) : UpvalM Unit := do
  match block with
  | none => throw .errmem
  | some new => do
    modify fun s => { s with slots := update s.slots new fun _ => .nil }
    setthread L ⟨new, size, none, false⟩

/-! ### The collector -/

def UpVal.mark (uv : UpVal) : UpVal := { uv with markedopen := true, marked := true }

def traversestack (L : ℕ) : UpvalM Unit := do
  let th ← getthread L
  setthread L { th with marked := true }
  eachopen UpVal.mark (← walkfuel) th.openupval

/-- `markobject` of an upvalue, from something that refers to it -/
def markupval (p : ℕ) : UpvalM Unit := do
  let uv ← getupval p
  setupval p { uv with marked := true }

/-- The body of `clearupvals`. -/
def clearupval (p : ℕ) (uv : UpVal) : UpvalM Unit :=
  -- upvalue is still open (belongs to alive thread)
  if uv.markedopen then setupval p { uv with markedopen := false } -- for next cycle
  -- upvalue is either dead, or alive but the thread is dead; unlink and close
  else luaF_closeupval p (!uv.marked)

def clearupvals : ℕ → Option ℕ → UpvalM Unit
  | _, none => return
  | 0, some _ => throw .fault
  | fuel + 1, some p => do
    let uv ← getupval p
    let o ← openlinks uv
    clearupval p uv
    clearupvals fuel o.next

def UpVal.flip (uv : UpVal) : UpVal :=
  if uv.marked then { uv with marked := false } else { uv with isdead := true }

/-- The white flips: what is not marked is dead. -/
def UpvalState.flip (s : UpvalState) : UpvalState :=
  { s with
    threads := fun L => (s.threads L).bind fun th =>
      if th.marked then some { th with marked := false } else none
    upvals := fun p => (s.upvals p).map UpVal.flip }

/-- `live` are the threads that are reached. -/
def atomic (live : List ℕ) : UpvalM Unit := do
  live.forM traversestack
  let fuel ← walkfuel
  clearupvals fuel (← get).uvheadnext
  modify UpvalState.flip

/-- The loop of `luaC_fullgc` over the ring, after a half-finished mark. -/
def clearmarks : ℕ → Option ℕ → UpvalM Unit
  | _, none => return
  | 0, some _ => throw .fault
  | fuel + 1, some p => do
    let uv ← getupval p
    setupval p { uv with markedopen := false }
    let o ← openlinks uv
    clearmarks fuel o.next

/-- Everything is swept to white. -/
def UpvalState.whiten (s : UpvalState) : UpvalState :=
  { s with
    threads := fun L => (s.threads L).map fun th => { th with marked := false }
    upvals := fun p => (s.upvals p).map fun uv => { uv with marked := false } }

/-- What `luaC_fullgc` does before its own cycle. -/
def abandoncycle : UpvalM Unit := do
  modify UpvalState.whiten
  let fuel ← walkfuel
  clearmarks fuel (← get).uvheadnext

def luaF_freeupval (p : ℕ) : UpvalM Unit :=
  modify fun s => { s with upvals := update s.upvals p none, objects := s.objects.erase p }

end Luwu
