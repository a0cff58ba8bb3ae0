import Mathlib.Logic.Function.Basic
import Luwu.VM.Object

/-!
# Classes

A class knows its members by offset: the fields of its objects come first, the functions of the class after
them.  Members are read, written and called by name; the name `__init` is refused, and a private or const
member is checked against the closure that asks (`luaR_checkprivateaccess`, `luaR_checkconstassign`).  An
object is made by calling the class (`luaR_createobject`) or by `LOP_NEWOBJECT`, and `__init` runs on it, or
its fields are read from an argument (the POD constructor, `Frame.pod`).

A thread is the stack of its frames, and of a frame only the function and register 0 are kept.  A table is
a map with a metatable, and a string is its address.  An instruction that caches the offset of a member
takes the cached one (`slot`) as an argument.  The opcodes that access a member by a compiled offset, and
the collector, are left out.
-/

namespace Luwu

open Function

/-- The strings that the VM knows: `__init`, `__defaults`, and the names of metamethods. -/
def initName : GCPtr := 1
def defaultsName : GCPtr := 2
def tostringName : GCPtr := 3
def indexName : GCPtr := 4
def newindexName : GCPtr := 5
def callName : GCPtr := 6
def namecallName : GCPtr := 7
/-- `L->global->tmname` -/
def tmname : List GCPtr := [indexName, newindexName, callName, namecallName, 8, 9, 10, 11, 12, 13, 14, 15,
  16, 17, 18, 19, 20, 21, 22]

/-- The bits `LBC_CLASSMEMBER_*` that the VM reads. -/
structure MemberFlags where
  isprivate : Bool
  isconst : Bool
  primaryinit : Bool
  initblocked : Bool
  deriving DecidableEq

structure LuauClass where
  numberofinstancemembers : ℕ
  numberofallmembers : ℕ
  offsettomember : ℕ → Option GCPtr
  memberstooffset : GCPtr → Option ℕ
  memberflags : ℕ → MemberFlags
  staticmembers : ℕ → TValue
  memberdefaults : Option (ℕ → TValue)
  /-- the `__call` of the metatable -/
  metatable : GCPtr
  instancemetatable : GCPtr → TValue
  initoffset : ℕ
  hascustominit : Bool
  hasprimaryinit : Bool
  hasprivatemembers : Bool
  hasconstmembers : Bool
  haspoddefaultsfn : Bool
  poddefaultsoffset : ℕ

structure LuauObject where
  lclass : GCPtr
  members : ℕ → TValue

structure Proto where
  ownerclass : Option GCPtr
  p : List ℕ

/-- A Lua closure, a C function, or the constructor of a class. -/
inductive Closure where
  | lua (p : ℕ)
  | c
  | createobject
  deriving DecidableEq

structure TableMap where
  get : TValue → TValue
  metatable : Option GCPtr
  readonly : Bool

inductive Frame where
  /-- `base0` is register 0; `constructs` is the object that the call returns, in a call of `__init` by a
  construction -/
  | lua (cl : GCPtr) (base0 : TValue) (constructs : Option GCPtr)
  | c (cl : GCPtr)
  /-- the POD constructor, which reads `source` with the rights of `accessor` -/
  | pod (cl : GCPtr) (object : GCPtr) (source : TValue) (accessor : Option GCPtr)
  deriving DecidableEq

structure ClassState where
  classes : GCPtr → Option LuauClass
  objects : GCPtr → Option LuauObject
  closures : GCPtr → Option Closure
  protos : ℕ → Proto
  tables : GCPtr → Option TableMap
  /-- the metatables of the other values -/
  mt : TValue → Option GCPtr
  threads : ℕ → List Frame
  running : ℕ

inductive ClassError where
  | privateaccess (key : TValue) (lclass : GCPtr)
  | privateconstructor (lclass : GCPtr)
  | constassign (key : TValue) (lclass : GCPtr)
  | constassignnotself (key : TValue) (lclass : GCPtr)
  | blockedinitaccess (lclass : GCPtr)
  | missingmember (t key : TValue)
  | instancefieldonclass (t key : TValue)
  | index (t key : TValue)
  | readonly
  | chain
  | notcallable (f : TValue)
  | notclass (v : TValue)
  | podarguments (lclass : GCPtr)
  | fault
  deriving DecidableEq

abbrev ClassM := Except ClassError

def orFault {α : Type} (o : Option α) : ClassM α :=
  match o with
  | some a => .ok a
  | none => .error .fault

/-- `LUAU_ASSERT` -/
def assertion (b : Bool) : ClassM Unit := if b then .ok ⟨⟩ else .error .fault

/-- `if (flag) check` -/
def whenset (flag : Bool) (check : ClassM Unit) : ClassM Unit := if flag then check else .ok ⟨⟩

def MAXTAGLOOP : ℕ := 100

/-! ### Making a class -/

/-- `LBC_CONSTANT_CLASS_SHAPE`: the members with their flags and default values. -/
structure ClassShape where
  properties : List (GCPtr × MemberFlags)
  methods : List (GCPtr × MemberFlags)
  defaults : Option (List TValue)

/-- The members of a class: a class without a custom `__init` still has an `__init` member. -/
def ClassShape.members (shape : ClassShape) : List (GCPtr × MemberFlags) :=
  if initName ∈ shape.methods.map Prod.fst then shape.properties ++ shape.methods
  else shape.properties ++ shape.methods ++ [(initName, ⟨false, false, false, false⟩)]

/-- The offset of a name; the last one counts when a name stands twice. -/
def lastoffset (members : List (GCPtr × MemberFlags)) (name : GCPtr) : Option ℕ :=
  (List.range members.length).foldl
    (fun found i => if (members[i]?).map Prod.fst = some name then some i else found) none

/-- `luaR_newclass`, filled by the loader. -/
def luaR_newclass (metatable : GCPtr) (shape : ClassShape) : LuauClass where
  numberofinstancemembers := shape.properties.length
  numberofallmembers := shape.members.length
  offsettomember := fun i => (shape.members[i]?).map Prod.fst
  memberstooffset := lastoffset shape.members
  memberflags := fun i => ((shape.members[i]?).map Prod.snd).getD ⟨false, false, false, false⟩
  staticmembers := fun _ => .nil
  memberdefaults := shape.defaults.map fun vs i => vs.getD i .nil
  metatable := metatable
  instancemetatable := fun _ => .nil
  initoffset := 0
  hascustominit := false
  hasprimaryinit := false
  hasprivatemembers := false
  hasconstmembers := false
  haspoddefaultsfn := false
  poddefaultsoffset := 0

def luaR_sealclassshape (classdef : LuauClass) : ClassM LuauClass := do
  let initoffset ← orFault (classdef.memberstooffset initName)
  return { classdef with
    hasprivatemembers := (List.range classdef.numberofallmembers).any fun i =>
      (classdef.memberflags i).isprivate
    hasconstmembers := (List.range classdef.numberofallmembers).any fun i =>
      (classdef.memberflags i).isconst
    initoffset := initoffset
    memberflags := update classdef.memberflags initoffset
      { classdef.memberflags initoffset with initblocked := true }
    offsettomember := update classdef.offsettomember initoffset none }

/-- The proto of a function and the protos nested in it; a nested proto is loaded first. -/
def luaR_stampownerclass (lclass : GCPtr) : ℕ → ℕ → (ℕ → Proto) → (ℕ → Proto)
  | 0, _, protos => protos
  | fuel + 1, p, protos =>
    (protos p).p.foldl (fun protos q => luaR_stampownerclass lclass fuel q protos)
      (update protos p { protos p with ownerclass := some lclass })

/-- What a member with a reserved name changes. -/
def addreserved (classdef : LuauClass) (name : GCPtr) (offset : ℕ) : LuauClass :=
  if name = initName then
    { classdef with
      hascustominit := true
      hasprimaryinit := (classdef.memberflags offset).primaryinit }
  else if name = defaultsName then
    { classdef with
      haspoddefaultsfn := true
      poddefaultsoffset := offset }
  else classdef

def addmetamethod (classdef : LuauClass) (name : GCPtr) (value : TValue) : LuauClass :=
  if name = tostringName ∨ name ∈ tmname then
    { classdef with instancemetatable := update classdef.instancemetatable name value }
  else classdef

/-- `luaR_addclassmember`, on the class. -/
def luaR_addclassmember (classdef : LuauClass) (name : GCPtr) (value : TValue) : ClassM LuauClass := do
  let offset ← orFault (classdef.memberstooffset name)
  assertion (classdef.numberofinstancemembers ≤ offset)
  let classdef := { classdef with
    staticmembers := update classdef.staticmembers (offset - classdef.numberofinstancemembers) value }
  return addmetamethod (addreserved classdef name offset) name value

/-! ### Checks -/

namespace ClassState

/-- `isLua(L->ci) ? clvalue(L->ci->func) : nullptr` -/
def accessor (s : ClassState) : Option GCPtr :=
  match s.threads s.running with
  | .lua cl _ _ :: _ => some cl
  | _ => none

/-- `luaR_callinglua` -/
def callinglua (s : ClassState) : Option GCPtr :=
  (s.threads s.running).findSome? fun ci =>
    match ci with
    | .lua cl _ _ => some cl
    | _ => none

/-- `cl->isC` -/
def isC (s : ClassState) (cl : GCPtr) : Bool :=
  match s.closures cl with
  | some (.lua _) => false
  | _ => true

/-- `luaR_closureisinit` -/
def closureisinit (s : ClassState) (classdef : LuauClass) (cl : GCPtr) : Bool :=
  !s.isC cl && classdef.hascustominit &&
    classdef.staticmembers (classdef.initoffset - classdef.numberofinstancemembers) == .gc .function cl

/-- `luaR_closureownsprivateaccess` -/
def closureownsprivateaccess (s : ClassState) (lclass cl : GCPtr) : Bool :=
  match s.closures cl with
  | some (.lua p) => (s.protos p).ownerclass == some lclass
  | _ => false

/-- A closure that is nobody's, or native, passes; a Lua closure has to own the access. -/
def trusts (s : ClassState) (lclass : GCPtr) : Option GCPtr → Bool
  | none => true
  | some cl => s.isC cl || s.closureownsprivateaccess lclass cl

/-- `luaR_checkprivateaccess`, with the test of `luaR_checkprivateaccessfast` in front. -/
def checkprivateaccess (s : ClassState) (key : TValue) (lclass : GCPtr) (classdef : LuauClass)
    (cl : Option GCPtr) (offset : ℕ) : ClassM Unit :=
  if (classdef.memberflags offset).initblocked then .error (.blockedinitaccess lclass)
  else if !(classdef.memberflags offset).isprivate then .ok ⟨⟩
  else if s.trusts lclass cl then .ok ⟨⟩
  else .error (.privateaccess key lclass)

def hasprivateconstructor (classdef : LuauClass) : Bool :=
  classdef.hascustominit && (classdef.memberflags classdef.initoffset).isprivate

/-- `luaR_checkprivateconstructor`, with the test that its callers make. -/
def checkprivateconstructor (s : ClassState) (lclass : GCPtr) (classdef : LuauClass)
    (cl : Option GCPtr) : ClassM Unit :=
  if hasprivateconstructor classdef && !s.trusts lclass cl then .error (.privateconstructor lclass)
  else .ok ⟨⟩

/-- `L->ci->base` -/
def base0 (s : ClassState) : TValue :=
  match s.threads s.running with
  | .lua _ base0 _ :: _ => base0
  | _ => .nil

/-- `luaR_checkconstassign`, with the test of `luaR_checkconstassignfast` in front. -/
def checkconstassign (s : ClassState) (key : TValue) (object lclass : GCPtr) (classdef : LuauClass)
    (cl : Option GCPtr) (offset : ℕ) : ClassM Unit :=
  if !(classdef.memberflags offset).isconst then .ok ⟨⟩
  else
    match cl with
    | none => .error (.constassign key lclass)
    | some cl =>
      if !s.closureisinit classdef cl then .error (.constassign key lclass)
      else if s.base0 = .gc .luaobject object then .ok ⟨⟩
      else .error (.constassignnotself key lclass)

/-! ### Metamethods -/

def metaentry (s : ClassState) (mt : Option GCPtr) (event : GCPtr) : TValue :=
  match mt.bind s.tables with
  | some h => h.get (.gc .string event)
  | none => .nil

/-- `luaT_gettmbyobj` -/
def gettmbyobj (s : ClassState) (o : TValue) (event : GCPtr) : TValue :=
  match o with
  | .gc .table p => s.metaentry ((s.tables p).bind TableMap.metatable) event
  | .gc .luaclass p =>
    match s.classes p with
    | some classdef => if event = callName then .gc .function classdef.metatable else .nil
    | none => .nil
  | .gc .luaobject p =>
    match (s.objects p).bind fun object => s.classes object.lclass with
    | some classdef => classdef.instancemetatable event
    | none => .nil
  | o => s.metaentry (s.mt o) event

end ClassState

/-! ### Access by name -/

/-- What a read finds: a value of a table, a member of a class, or a metamethod to call. -/
inductive ReadResult where
  | value (v : TValue)
  | member (lclass : GCPtr) (offset : ℕ) (v : TValue)
  | call (tm t key : TValue)
  deriving DecidableEq

/-- Where a write goes. -/
inductive WritePlace where
  | slot (p : GCPtr) (key : TValue)
  | member (lclass object : GCPtr) (offset : ℕ)
  | call (tm t key : TValue)

/-- `luaR_lookupmemberatoffset` -/
def luaR_lookupmemberatoffset (object : LuauObject) (classdef : LuauClass) (offset : ℕ) : TValue :=
  if offset < classdef.numberofinstancemembers then object.members offset
  else classdef.staticmembers (offset - classdef.numberofinstancemembers)

namespace ClassState

/-- The offset of a key. -/
def offsetof (classdef : LuauClass) : TValue → Option ℕ
  | .gc .string name => classdef.memberstooffset name
  | _ => none

/-- The case of an object in a read by name, after the offset was found. -/
def objectmember (s : ClassState) (key : TValue) (object : LuauObject) (classdef : LuauClass)
    (accessor : Option GCPtr) (offset : ℕ) : ClassM ReadResult := do
  s.checkprivateaccess key object.lclass classdef accessor offset
  return .member object.lclass offset (luaR_lookupmemberatoffset object classdef offset)

def getobject (s : ClassState) (t key : TValue) (p : GCPtr) (accessor : Option GCPtr) : ClassM ReadResult := do
  let object ← orFault (s.objects p)
  let classdef ← orFault (s.classes object.lclass)
  match offsetof classdef key with
  | none => throw (.missingmember t key)
  | some offset => s.objectmember key object classdef accessor offset

def getclass (s : ClassState) (t key : TValue) (p : GCPtr) (accessor : Option GCPtr) : ClassM ReadResult := do
  let classdef ← orFault (s.classes p)
  match offsetof classdef key with
  | none => throw (.missingmember t key)
  | some offset =>
    if offset < classdef.numberofinstancemembers then throw (.instancefieldonclass t key)
    else do
      s.checkprivateaccess key p classdef accessor offset
      return .member p offset (classdef.staticmembers (offset - classdef.numberofinstancemembers))

/-- The loop of `luaV_gettablefor`. -/
def gettableloop (s : ClassState) (key : TValue) (accessor : Option GCPtr) : ℕ → TValue → ClassM ReadResult
  | 0, _ => .error .chain
  | fuel + 1, t =>
    match t with
    | .gc .luaobject p => s.getobject t key p accessor
    | .gc .luaclass p => s.getclass t key p accessor
    | .gc .table p =>
      match s.tables p with
      | none => .error .fault
      | some h =>
        if h.get key ≠ .nil then .ok (.value (h.get key))
        else
          match s.metaentry h.metatable indexName with
          | .nil => .ok (.value .nil)
          | .gc .function f => .ok (.call (.gc .function f) t key)
          | tm => gettableloop s key accessor fuel tm
    | t =>
      match s.gettmbyobj t indexName with
      | .nil => .error (.index t key)
      | .gc .function f => .ok (.call (.gc .function f) t key)
      | tm => gettableloop s key accessor fuel tm

def luaV_gettablefor (s : ClassState) (t key : TValue) (accessor : Option GCPtr) : ClassM ReadResult :=
  s.gettableloop key accessor MAXTAGLOOP t

/-- `luaV_gettable` -/
def luaV_gettable (s : ClassState) (t key : TValue) : ClassM ReadResult := s.luaV_gettablefor t key s.accessor

/-- The member at the cached offset, when the cache is right. -/
def cached (classdef : LuauClass) (slot : ℕ) (key : TValue) : Bool :=
  slot < classdef.numberofallmembers && (classdef.offsettomember slot).map (.gc .string ·) == some key

/-- The check of the fast paths. -/
def checkcached (s : ClassState) (key : TValue) (lclass : GCPtr) (classdef : LuauClass)
    (accessor : Option GCPtr) (slot : ℕ) : ClassM Unit :=
  whenset classdef.hasprivatemembers (s.checkprivateaccess key lclass classdef accessor slot)

/-- `LOP_GETTABLEKS` and `LOP_NAMECALL` on an object. -/
def getobjectks (s : ClassState) (slot : ℕ) (t key : TValue) (p : GCPtr) : ClassM ReadResult := do
  let object ← orFault (s.objects p)
  let classdef ← orFault (s.classes object.lclass)
  if cached classdef slot key then do
    s.checkcached key object.lclass classdef s.accessor slot
    return .member object.lclass slot (luaR_lookupmemberatoffset object classdef slot)
  else s.getobject t key p s.accessor

/-- `LOP_GETTABLEKS` on a class. -/
def getclassks (s : ClassState) (slot : ℕ) (t key : TValue) (p : GCPtr) : ClassM ReadResult := do
  let classdef ← orFault (s.classes p)
  if cached classdef slot key && classdef.numberofinstancemembers ≤ slot then do
    s.checkcached key p classdef s.accessor slot
    return .member p slot (classdef.staticmembers (slot - classdef.numberofinstancemembers))
  else s.getclass t key p s.accessor

/-- `LOP_GETTABLEKS` -/
def gettableks (s : ClassState) (slot : ℕ) (t key : TValue) : ClassM ReadResult :=
  match t with
  | .gc .luaobject p => s.getobjectks slot t key p
  | .gc .luaclass p => s.getclassks slot t key p
  | t => s.luaV_gettable t key

/-- `LOP_NAMECALL`; `__namecall` is for values other than tables and objects. -/
def namecall (s : ClassState) (slot : ℕ) (t key : TValue) : ClassM ReadResult :=
  match t with
  | .gc .luaobject p => s.getobjectks slot t key p
  | .gc .table _ => s.luaV_gettable t key
  | t =>
    match s.metaentry (s.mt t) namecallName with
    | .nil => s.luaV_gettable t key
    | tm => .ok (.value tm)

/-- The checks of a write to a field of an object. -/
def checkwrite (s : ClassState) (key : TValue) (p lclass : GCPtr) (classdef : LuauClass)
    (offset : ℕ) : ClassM Unit := do
  whenset classdef.hasprivatemembers (s.checkprivateaccess key lclass classdef s.accessor offset)
  whenset classdef.hasconstmembers (s.checkconstassign key p lclass classdef s.accessor offset)

/-- The case of an object in a write by name. -/
def setobject (s : ClassState) (t key : TValue) (p : GCPtr) : ClassM WritePlace := do
  let object ← orFault (s.objects p)
  let classdef ← orFault (s.classes object.lclass)
  match offsetof classdef key with
  | none => throw (.missingmember t key)
  | some offset =>
    if classdef.numberofinstancemembers ≤ offset then throw (.index t key)
    else do
      s.checkwrite key p object.lclass classdef offset
      return .member object.lclass p offset

def slotof (h : TableMap) (p : GCPtr) (key : TValue) : ClassM WritePlace :=
  if h.readonly then .error .readonly else .ok (.slot p key)

/-- The loop of `luaV_settable`. -/
def settableloop (s : ClassState) (key : TValue) : ℕ → TValue → ClassM WritePlace
  | 0, _ => .error .chain
  | fuel + 1, t =>
    match t with
    | .gc .luaobject p => s.setobject t key p
    | .gc .table p =>
      match s.tables p with
      | none => .error .fault
      | some h =>
        if h.get key ≠ .nil then slotof h p key
        else
          match s.metaentry h.metatable newindexName with
          | .nil => slotof h p key
          | .gc .function f => .ok (.call (.gc .function f) t key)
          | tm => settableloop s key fuel tm
    | t =>
      match s.gettmbyobj t newindexName with
      | .nil => .error (.index t key)
      | .gc .function f => .ok (.call (.gc .function f) t key)
      | tm => settableloop s key fuel tm

def luaV_settable (s : ClassState) (t key : TValue) : ClassM WritePlace := s.settableloop key MAXTAGLOOP t

/-- `LOP_SETTABLEKS` -/
def settableks (s : ClassState) (slot : ℕ) (t key : TValue) : ClassM WritePlace :=
  match t with
  | .gc .luaobject p => do
    let object ← orFault (s.objects p)
    let classdef ← orFault (s.classes object.lclass)
    if cached classdef slot key && slot < classdef.numberofinstancemembers then do
      s.checkwrite key p object.lclass classdef slot
      return .member object.lclass p slot
    else s.setobject t key p
  | t => s.luaV_settable t key

end ClassState

end Luwu
