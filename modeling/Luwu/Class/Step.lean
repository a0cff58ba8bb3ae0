import Luwu.Class.Core
import Luwu.Table.FiniteMap

/-!
# What a program does with classes

One operation is done by the frame on top of the running thread: Lua code, a builtin, or the POD
constructor.  An operation that fails leaves the state as it was, and the frames that its error leaves are
dropped by `unwind`.  `resume` stands for every way in which another thread comes to run.
-/

namespace Luwu

open Function

/-- A member that was read, written or called by name, and the closure it was done for. -/
structure MemberAccess where
  lclass : GCPtr
  offset : ℕ
  accessor : Option GCPtr
  deriving DecidableEq

/-- What an operation did: the values the program has from it, the member it touched, the object whose
construction returned, and the function that `debug.info` gave away. -/
structure ClassOutcome where
  state : ClassState
  got : List TValue
  access : Option MemberAccess
  built : Option GCPtr
  introspected : Option GCPtr

def ClassOutcome.quiet (s : ClassState) : ClassOutcome := ⟨s, [], none, none, none⟩

/-- How a member is read. -/
inductive ReadForm where
  | gettable
  | gettableks (slot : ℕ)
  | namecall (slot : ℕ)

inductive WriteForm where
  | settable
  | settableks (slot : ℕ)

/-- `LBC_NEWOBJECT_INIT`, `LBC_NEWOBJECT_FIELDS` and `LBC_NEWOBJECT_DEFAULT` -/
inductive NewobjectForm where
  | init
  | fields
  | default

/-- `fresh` is the block for an object, if one is made. -/
inductive ClassOp where
  | loadclass (lclass constructor : GCPtr) (shape : ClassShape)
  | newclosure (f : GCPtr) (p : ℕ)
  | newcclosure (f : GCPtr)
  | newclassmember (lclass name f : GCPtr) (p : ℕ)
  | newtable (t : GCPtr)
  | setmetatable (t : GCPtr) (mt : Option GCPtr)
  | read (form : ReadForm) (t key : TValue) (fresh : GCPtr)
  | write (form : WriteForm) (t key v : TValue) (fresh : GCPtr)
  | call (f : TValue) (args : List TValue) (fresh : GCPtr)
  | metamethod (event : GCPtr) (p1 p2 : TValue) (fresh : GCPtr)
  | newobject (form : NewobjectForm) (lclass : GCPtr) (args : List TValue) (fresh : GCPtr)
  | poddefaults (fresh : GCPtr)
  | podread (idx : ℕ) (fresh : GCPtr)
  | podresult (idx : ℕ) (v : TValue)
  | ret
  | unwind (n : ℕ)
  | resume (thread : ℕ)
  | dbinfo (thread level : ℕ)

namespace ClassState

def push (s : ClassState) (ci : List Frame) : ClassState :=
  { s with threads := update s.threads s.running (ci ++ s.threads s.running) }

/-! ### Construction -/

/-- `luaR_newobject` -/
def luaR_newobject (s : ClassState) (fresh lclass : GCPtr) (classdef : LuauClass) : ClassState :=
  { s with objects := update s.objects fresh (some ⟨lclass, classdef.memberdefaults.getD fun _ => .nil⟩) }

/-- `__init`, read by its offset. -/
def initclosure (s : ClassState) (classdef : LuauClass) : ClassM GCPtr :=
  match classdef.staticmembers (classdef.initoffset - classdef.numberofinstancemembers) with
  | .gc .function f =>
    match s.closures f with
    | some (.lua _) => .ok f
    | _ => .error .fault
  | _ => .error .fault

/-- A construction that calls `__init`, for `accessor`; `below` are the frames of the constructor. -/
def callinit (s : ClassState) (fresh lclass : GCPtr) (classdef : LuauClass) (below : List Frame)
    (accessor : Option GCPtr) : ClassM ClassOutcome := do
  let f ← s.initclosure classdef
  return { ClassOutcome.quiet ((s.luaR_newobject fresh lclass classdef).push
      (.lua f (.gc .luaobject fresh) (some fresh) :: below)) with
    access := some ⟨lclass, classdef.initoffset, accessor⟩ }

/-- `luaR_createobject` -/
def luaR_createobject (s : ClassState) (cl : GCPtr) (args : List TValue) (fresh : GCPtr) :
    ClassM ClassOutcome :=
  match args with
  | .gc .luaclass p :: args => do
    let classdef ← orFault (s.classes p)
    s.checkprivateconstructor p classdef s.callinglua
    if classdef.hascustominit then s.callinit fresh p classdef [.c cl] s.callinglua
    else if 1 < args.length then throw (.podarguments p)
    else return .quiet ((s.luaR_newobject fresh p classdef).push
        [.pod cl fresh (args.headD .nil) s.callinglua])
  | v :: _ => .error (.notclass v)
  | [] => .error (.notclass .nil)

/-- `luau_precall` -/
def luau_precall (s : ClassState) (f : GCPtr) (args : List TValue) (fresh : GCPtr) :
    ClassM ClassOutcome :=
  match s.closures f with
  | some (.lua _) => .ok (.quiet (s.push [.lua f (args.headD .nil) none]))
  | some .c => .ok (.quiet (s.push [.c f]))
  | some .createobject => s.luaR_createobject f args fresh
  | none => .error .fault

/-- A call, with `luaV_tryfuncTM` for what is not a function. -/
def callvalue (s : ClassState) (f : TValue) (args : List TValue) (fresh : GCPtr) :
    ClassM ClassOutcome :=
  match f with
  | .gc .function p => s.luau_precall p args fresh
  | f =>
    match s.gettmbyobj f callName with
    | .gc .function p => s.luau_precall p (f :: args) fresh
    | _ => .error (.notcallable f)

/-- One value for each member in declaration order; nil keeps the default. -/
def fieldvalues (classdef : LuauClass) (args : List TValue) (idx : ℕ) : TValue :=
  match args.getD idx .nil with
  | .nil => (classdef.memberdefaults.getD fun _ => .nil) idx
  | v => v

/-- `LOP_NEWOBJECT`; the asserts of the instruction are faults. -/
def newobject (s : ClassState) (form : NewobjectForm) (p : GCPtr) (args : List TValue)
    (fresh : GCPtr) : ClassM ClassOutcome := do
  let classdef ← orFault (s.classes p)
  s.checkprivateconstructor p classdef s.accessor
  match form with
  | .init =>
    if classdef.hascustominit then s.callinit fresh p classdef [] s.accessor else throw .fault
  | .fields =>
    if (classdef.hascustominit && !classdef.hasprimaryinit) || classdef.haspoddefaultsfn then throw .fault
    else return ⟨{ s with objects := update s.objects fresh (some ⟨p, fieldvalues classdef args⟩) },
      [.gc .luaobject fresh], none, some fresh, none⟩
  | .default =>
    if classdef.hascustominit || classdef.haspoddefaultsfn || 1 < args.length then throw .fault
    else return .quiet ((s.luaR_newobject fresh p classdef).push
      [.pod classdef.metatable fresh (args.headD .nil) s.accessor])

/-! ### Reading and writing -/

def setmember (s : ClassState) (p : GCPtr) (object : LuauObject) (offset : ℕ) (v : TValue) : ClassState :=
  { s with objects := update s.objects p (some { object with members := update object.members offset v }) }

def readvalue (s : ClassState) (form : ReadForm) (t key : TValue) : ClassM ReadResult :=
  match form with
  | .gettable => s.luaV_gettable t key
  | .gettableks slot => s.gettableks slot t key
  | .namecall slot => s.namecall slot t key

def read (s : ClassState) (form : ReadForm) (t key : TValue) (fresh : GCPtr) : ClassM ClassOutcome := do
  match ← s.readvalue form t key with
  | .value v => return { ClassOutcome.quiet s with got := [v] }
  | .member p offset v =>
    return { ClassOutcome.quiet s with got := [v], access := some ⟨p, offset, s.accessor⟩ }
  | .call tm t key => s.callvalue tm [t, key] fresh

def writeplace (s : ClassState) (form : WriteForm) (t key : TValue) : ClassM WritePlace :=
  match form with
  | .settable => s.luaV_settable t key
  | .settableks slot => s.settableks slot t key

def write (s : ClassState) (form : WriteForm) (t key v : TValue) (fresh : GCPtr) :
    ClassM ClassOutcome := do
  match ← s.writeplace form t key with
  | .slot p key => do
    let h ← orFault (s.tables p)
    return .quiet { s with tables := update s.tables p (some { h with get := update h.get key v }) }
  | .member lclass p offset => do
    let object ← orFault (s.objects p)
    return { ClassOutcome.quiet (s.setmember p object offset v) with
      access := some ⟨lclass, offset, s.accessor⟩ }
  | .call tm t key => s.callvalue tm [t, key, v] fresh

/-- `call_binTM`: the metamethod of the first operand, or else that of the second. -/
def callbinTM (s : ClassState) (event : GCPtr) (p1 p2 : TValue) (fresh : GCPtr) : ClassM ClassOutcome :=
  match s.gettmbyobj p1 event with
  | .nil =>
    match s.gettmbyobj p2 event with
    | .nil => .error (.index p1 (.gc .string event))
    | tm => s.callvalue tm [p1, p2] fresh
  | tm => s.callvalue tm [p1, p2] fresh

/-! ### The POD constructor -/

/-- The frame of the POD constructor on top, with the object and its class. -/
def podframe (s : ClassState) : ClassM (GCPtr × TValue × Option GCPtr × LuauObject × LuauClass) :=
  match s.threads s.running with
  | .pod _ p source accessor :: _ => do
    let object ← orFault (s.objects p)
    let classdef ← orFault (s.classes object.lclass)
    return (p, source, accessor, object, classdef)
  | _ => .error .fault

/-- The call of `__defaults` in `luaR_initpodobject`. -/
def poddefaults (s : ClassState) (fresh : GCPtr) : ClassM ClassOutcome := do
  let (_, _, _, _, classdef) ← s.podframe
  if classdef.haspoddefaultsfn then
    s.callvalue (classdef.staticmembers (classdef.poddefaultsoffset - classdef.numberofinstancemembers))
      [] fresh
  else throw .fault

/-- A value for a field; nil keeps what is there. -/
def podwrite (s : ClassState) (p : GCPtr) (object : LuauObject) (idx : ℕ) (v : TValue) : ClassState :=
  if v = .nil then s else s.setmember p object idx v

/-- One turn of the loop in `luaR_applyobjectfieldsas`. -/
def podread (s : ClassState) (idx : ℕ) (fresh : GCPtr) : ClassM ClassOutcome := do
  let (p, source, accessor, object, classdef) ← s.podframe
  let name ← orFault (classdef.offsettomember idx)
  assertion (idx < classdef.numberofinstancemembers)
  match ← s.luaV_gettablefor source (.gc .string name) accessor with
  | .value v => return .quiet (s.podwrite p object idx v)
  | .member lclass offset v =>
    return { ClassOutcome.quiet (s.podwrite p object idx v) with
      access := some ⟨lclass, offset, accessor⟩ }
  | .call tm t key => s.callvalue tm [t, key] fresh

/-- A result of `__defaults` or of a metamethod goes into the object. -/
def podresult (s : ClassState) (idx : ℕ) (v : TValue) : ClassM ClassOutcome := do
  let (p, _, _, object, classdef) ← s.podframe
  assertion (idx < classdef.numberofinstancemembers)
  return .quiet (s.setmember p object idx v)

/-! ### Frames -/

def pop (s : ClassState) (ci : List Frame) : ClassState :=
  { s with threads := update s.threads s.running ci }

end ClassState

/-- The object that the frame constructs. -/
def Frame.constructs : Frame → Option GCPtr
  | .lua _ _ o => o
  | .c _ => none
  | .pod _ p _ _ => some p

/-- The function of a frame. -/
def Frame.func : Frame → GCPtr
  | .lua cl _ _ => cl
  | .c cl => cl
  | .pod cl _ _ _ => cl

namespace ClassState

def ret (s : ClassState) : ClassM ClassOutcome :=
  match s.threads s.running with
  | [] => .error .fault
  | ci :: rest => .ok { ClassOutcome.quiet (s.pop rest) with
      got := (ci.constructs.map (.gc .luaobject ·)).toList
      built := ci.constructs }

/-- `debug.info(thread, level, "f")` -/
def dbinfo (s : ClassState) (thread level : ℕ) : ClassM ClassOutcome :=
  match (s.threads thread)[level]? with
  | none => .ok (.quiet s)
  | some ci => .ok { ClassOutcome.quiet s with
      got := [.gc .function ci.func]
      introspected := some ci.func }

end ClassState

def ClassOp.exec (s : ClassState) : ClassOp → ClassM ClassOutcome
  | loadclass lclass constructor shape => do
    let classdef ← luaR_sealclassshape (luaR_newclass constructor shape)
    return .quiet { s with
      classes := update s.classes lclass (some classdef)
      closures := update s.closures constructor (some .createobject) }
  | newclosure f p =>
    return { ClassOutcome.quiet { s with closures := update s.closures f (some (.lua p)) } with
      got := [.gc .function f] }
  | newcclosure f =>
    return { ClassOutcome.quiet { s with closures := update s.closures f (some .c) } with
      got := [.gc .function f] }
  | newclassmember lclass name f p => do
    let classdef ← orFault (s.classes lclass)
    let classdef ← luaR_addclassmember classdef name (.gc .function f)
    return .quiet { s with
      classes := update s.classes lclass (some classdef)
      closures := update s.closures f (some (.lua p))
      protos := luaR_stampownerclass lclass (p + 1) p s.protos }
  | newtable t => return .quiet { s with tables := update s.tables t (some ⟨fun _ => .nil, none, false⟩) }
  | setmetatable t mt => do
    let h ← orFault (s.tables t)
    if h.readonly then throw .readonly
    else return .quiet { s with tables := update s.tables t (some { h with metatable := mt }) }
  | read form t key fresh => s.read form t key fresh
  | write form t key v fresh => s.write form t key v fresh
  | call f args fresh => s.callvalue f args fresh
  | metamethod event p1 p2 fresh => s.callbinTM event p1 p2 fresh
  | newobject form lclass args fresh => s.newobject form lclass args fresh
  | poddefaults fresh => s.poddefaults fresh
  | podread idx fresh => s.podread idx fresh
  | podresult idx v => s.podresult idx v
  | ret => s.ret
  | unwind n => return .quiet (s.pop ((s.threads s.running).drop n))
  | resume thread => return .quiet { s with running := thread }
  | dbinfo thread level => s.dbinfo thread level

end Luwu

/-!
## The fields of a new object

The POD constructor reads the fields from a table.  From a table without a metatable it takes the values with
`luaH_getstr` (`luaR_applyobjectfields`); any other argument is read by name (`luaR_applyobjectfieldsas`).  On a plain
table both give the same object, and only the entries of the table matter.
-/

namespace Luwu

open Function

namespace ClassState

variable (E : Env) (call : ClassState → TValue → TValue → TValue → ClassM (TValue × ClassState))

/-- A field that is not in the table, or nil, keeps what is there. -/
def setfield (s : ClassState) (p : GCPtr) (idx : ℕ) (value : TValue) : ClassM ClassState := do
  let object ← orFault (s.objects p)
  return s.podwrite p object idx value

/-- By going over the members, and not over the table, users can't add properties. -/
def luaR_applyobjectfields (s : ClassState) (p : GCPtr) (classdef : LuauClass) (arg : LuaTable) : ClassM ClassState :=
  (List.range classdef.numberofinstancemembers).foldlM (fun s idx => do
    let name ← orFault (classdef.offsettomember idx)
    let slot ← orFault (luaH_getstr E arg name)
    s.setfield p idx (arg.slotGet slot)) s

/-- The reads are made for `accessor`; `call` calls a metamethod. -/
def luaR_applyobjectfieldsas (s : ClassState) (p : GCPtr) (classdef : LuauClass) (arg : TValue)
    (accessor : Option GCPtr) : ClassM ClassState :=
  -- `Point(nil)` constructs the same object as `Point()`
  if arg = .nil then .ok s
  else (List.range classdef.numberofinstancemembers).foldlM (fun s idx => do
    let name ← orFault (classdef.offsettomember idx)
    match ← s.luaV_gettablefor arg (.gc .string name) accessor with
    | .value v => s.setfield p idx v
    | .member _ _ v => s.setfield p idx v
    | .call tm t key => do
      let (v, s) ← call s tm t key
      s.setfield p idx v) s

end ClassState

section Fields

open ClassState

variable {E : Env} {t : LuaTable} {m : KeyMap} {s s' : ClassState} {p q : GCPtr} {classdef : LuauClass}
  {call : ClassState → TValue → TValue → TValue → ClassM (TValue × ClassState)} {accessor : Option GCPtr} {readonly : Bool}

/-- A table without a metatable whose reads are those of `luaH_get` -/
def PlainAt (E : Env) (t : LuaTable) (q : GCPtr) (readonly : Bool) (s : ClassState) : Prop :=
  s.tables q = some ⟨fun k => lookup E t k, none, readonly⟩

/-- The raw read of a string -/
theorem getstr_of_simulates (hs : Simulates ⟨E, t, m⟩) (name : GCPtr) :
    ∃ slot, luaH_getstr E t name = some slot ∧ t.slotGet slot = m (.gc .string name) ∧
      lookup E t (.gc .string name) = m (.gc .string name) := by
  have hkey : (TValue.gc .string name).ValidKey := trivial
  have hlookup : lookup E t (.gc .string name) = m (.gc .string name) := hs.lookup _ hkey
  obtain ⟨slot, hget⟩ : ∃ slot, luaH_get E t (.gc .string name) = some slot := by
    rcases hs.wf.inv.get_cases hkey with ⟨slot, _, hget⟩ | ⟨hget, _⟩
    · exact ⟨slot, hget⟩
    · exact ⟨_, hget⟩
  refine ⟨slot, hget, ?_, hlookup⟩
  rw [← hlookup]
  unfold lookup
  rw [hget]
  rfl

/-- The read of a plain table by name -/
theorem gettablefor_plain (hp : PlainAt E t q readonly s) (key : TValue) :
    s.luaV_gettablefor (.gc .table q) key accessor = .ok (.value (lookup E t key)) := by
  show s.gettableloop key accessor 100 (.gc .table q) = _
  unfold gettableloop
  dsimp only
  rw [hp]
  dsimp only
  by_cases hnil : lookup E t key = .nil
  · rw [if_neg (not_not.mpr hnil), hnil]
    rfl
  · rw [if_pos hnil]

theorem PlainAt.setfield (hp : PlainAt E t q readonly s) {idx : ℕ} {v : TValue}
    (hrun : s.setfield p idx v = .ok s') : PlainAt E t q readonly s' := by
  unfold ClassState.setfield at hrun
  cases hobject : s.objects p with
  | none =>
    rw [hobject] at hrun
    cases hrun
  | some object =>
    rw [hobject] at hrun
    cases hrun
    unfold podwrite
    by_cases hv : v = .nil
    · rw [if_pos hv]
      exact hp
    · rw [if_neg hv]
      exact hp

/-- What the entries of a table do to an object -/
def applyentries (m : KeyMap) (s : ClassState) (p : GCPtr) (classdef : LuauClass) (idxs : List ℕ) : ClassM ClassState :=
  idxs.foldlM (fun s idx => do
    let name ← orFault (classdef.offsettomember idx)
    s.setfield p idx (m (.gc .string name))) s

theorem applyobjectfields_entries (hs : Simulates ⟨E, t, m⟩) (s : ClassState) (p : GCPtr) (classdef : LuauClass) :
    luaR_applyobjectfields E s p classdef t
      = applyentries m s p classdef (List.range classdef.numberofinstancemembers) := by
  have hturn : (fun (s : ClassState) (idx : ℕ) => do
        let name ← orFault (classdef.offsettomember idx)
        let slot ← orFault (luaH_getstr E t name)
        s.setfield p idx (t.slotGet slot))
      = (fun (s : ClassState) (idx : ℕ) => do
        let name ← orFault (classdef.offsettomember idx)
        s.setfield p idx (m (.gc .string name))) := by
    funext s idx
    cases classdef.offsettomember idx with
    | none => rfl
    | some name =>
      obtain ⟨slot, hslot, hvalue, _⟩ := getstr_of_simulates hs name
      show (orFault (luaH_getstr E t name) >>= fun slot => s.setfield p idx (t.slotGet slot))
        = s.setfield p idx (m (.gc .string name))
      rw [hslot, ← hvalue]
      rfl
  exact congrArg (fun f => (List.range classdef.numberofinstancemembers).foldlM f s) hturn

/-- One turn of the loop that reads by name, and the turns behind it -/
theorem applyfieldsas_entries (hs : Simulates ⟨E, t, m⟩) (hp : PlainAt E t q readonly s) (p : GCPtr) (idxs : List ℕ) :
    idxs.foldlM (fun s idx => do
        let name ← orFault (classdef.offsettomember idx)
        match ← s.luaV_gettablefor (.gc .table q) (.gc .string name) accessor with
        | .value v => s.setfield p idx v
        | .member _ _ v => s.setfield p idx v
        | .call tm t key => do
          let (v, s) ← call s tm t key
          s.setfield p idx v) s
      = applyentries m s p classdef idxs := by
  induction idxs generalizing s with
  | nil => rfl
  | cons idx idxs ih =>
    unfold applyentries
    rw [List.foldlM_cons, List.foldlM_cons]
    cases hname : classdef.offsettomember idx with
    | none => rfl
    | some name =>
      obtain ⟨_, _, _, hlookup⟩ := getstr_of_simulates hs name
      have hread : s.luaV_gettablefor (.gc .table q) (.gc .string name) accessor = _ :=
        gettablefor_plain hp (.gc .string name)
      rw [hlookup] at hread
      show (s.luaV_gettablefor (.gc .table q) (.gc .string name) accessor >>= _) >>= _ = _
      rw [hread]
      show (s.setfield p idx (m (.gc .string name)) >>= _) = (s.setfield p idx (m (.gc .string name)) >>= _)
      cases hfield : s.setfield p idx (m (.gc .string name)) with
      | error e => rfl
      | ok s' => exact ih (hp.setfield hfield)

/-- **Both ways of reading the fields agree** on a table that any run of operations makes, and only its entries matter, in
whatever order they are stored. -/
theorem object_fields_agree (ha : E.Roomy) {narray nhash : ℕ} {t₀ : LuaTable}
    (hnew : luaH_new E narray nhash t₀ = .ok ⟨⟩ t) (ops : List TableOp)
    (hc : TableOp.Contracts ⟨E, t, fun _ => .nil⟩ ops) :
    let w := TableOp.run ⟨E, t, fun _ => .nil⟩ ops
    ∀ (s : ClassState) (p q : GCPtr) (classdef : LuauClass) (readonly : Bool) (accessor : Option GCPtr)
      (call : ClassState → TValue → TValue → TValue → ClassM (TValue × ClassState)),
      PlainAt w.env w.table q readonly s →
        luaR_applyobjectfields w.env s p classdef w.table
            = luaR_applyobjectfieldsas call s p classdef (.gc .table q) accessor ∧
          luaR_applyobjectfields w.env s p classdef w.table
            = applyentries w.map s p classdef (List.range classdef.numberofinstancemembers) := by
  intro w s p q classdef readonly accessor call hp
  have hs : Simulates w := (run_simulates ha ops hc (luaH_new_simulates ha hnew)).1
  have hfast := applyobjectfields_entries hs s p classdef
  refine ⟨hfast.trans ?_, hfast⟩
  unfold luaR_applyobjectfieldsas
  rw [if_neg (fun hnil => by cases hnil)]
  exact (applyfieldsas_entries hs hp p _).symm

/-- The object at address 5 of a class with one field `x`, named by the string 7, which the table at address 9 has -/
def pointOps : List TableOp := [.setstr 7 (.boolean true), .set (.boolean true) (.boolean false)]

def pointClass : LuauClass := luaR_newclass 0 ⟨[(7, ⟨true, true, false, false⟩)], [], none⟩

def pointState (w : World) : ClassState where
  classes := fun _ => some pointClass
  objects := fun p => if p = 5 then some ⟨1, fun _ => .nil⟩ else none
  closures := fun _ => none
  protos := fun _ => ⟨none, []⟩
  tables := fun q => if q = 9 then some ⟨fun k => lookup w.env w.table k, none, false⟩ else none
  mt := fun _ => none
  threads := fun _ => []
  running := 0

theorem object_fields_agree_sample :
    let w := TableOp.run ⟨plainEnv, emptyTable, fun _ => .nil⟩ pointOps
    luaR_applyobjectfields w.env (pointState w) 5 pointClass w.table
      = luaR_applyobjectfieldsas (fun _ _ _ _ => .error .fault) (pointState w) 5 pointClass (.gc .table 9) none := by
  have hnew : luaH_new plainEnv 0 0 emptyTable = .ok ⟨⟩ emptyTable := rfl
  intro w
  have hplain : PlainAt w.env w.table 9 false (pointState w) := by
    unfold PlainAt pointState
    simp only [if_true]
  exact (object_fields_agree (fun _ _ => rfl) hnew pointOps ⟨trivial, trivial, trivial⟩ (pointState w) 5 9 pointClass
    false none (fun _ _ _ _ => .error .fault) hplain).1

end Fields

end Luwu
