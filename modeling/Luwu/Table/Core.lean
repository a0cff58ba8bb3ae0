import Luwu.VM.Object

/-!
# Tables as `ltable.cpp` computes them

A table keeps integer keys `1..sizearray` in `array` and every other key in `node`, a vector of
`2 ^ lsizenode` hash nodes chained by relative `next` offsets (`0` ends a chain).  A table without a
hash part points at the shared `luaH_dummynode`; here that pointer is `node = none`.  One field,
`lastfree`, is the union of `lastfree` and `aboundary`.

The definitions follow the source function by function.  Two things of the C program are parameters,
collected in `Env`: the `hash` field of string objects, and whether an allocation succeeds.  The
allocator's answer may depend on the table it is called on and on the size; no two allocations of one
operation see the same pair, so every pattern of failures is some `alloc`.

Operations that can raise an error run in `EStateM TableError LuaTable`: an error leaves behind the
table as it was when the error was raised.  The loops that follow chains take fuel (a chain has at
most `sizenode` slots), and running out is the error `loop`, which is not an outcome of the source.
-/

namespace Luwu

/-- A hash key (`TKey`): value, extra and tag, and the chain link. -/
structure TKey where
  tv : TValue
  next : ℤ
deriving DecidableEq

structure LuaNode where
  val : TValue
  key : TKey
deriving DecidableEq

/-- Empty hash parts point here. -/
def luaH_dummynode : LuaNode := ⟨.nil, ⟨.nil, 0⟩⟩

structure LuaTable where
  array : List TValue
  sizearray : ℕ
  node : Option (List LuaNode)
  lsizenode : ℕ
  lastfree : ℤ
deriving DecidableEq

/-- What the table code reads from outside the table. -/
structure Env where
  /-- `TString::hash` -/
  strhash : GCPtr → BitVec 32
  /-- whether `luaM_*` can provide this many bytes -/
  alloc : LuaTable → ℕ → Bool

inductive TableError
  | runerror (msg : String)
  | errmem
  | loop
deriving DecidableEq

abbrev TableM := EStateM TableError LuaTable

section TableM

variable {α β : Type} {t t' : LuaTable}

theorem TableM.bind_ok {x : TableM α} {a : α} (f : α → TableM β) (h : x t = .ok a t') :
    (x >>= f) t = f a t' := by
  simp only [bind, EStateM.bind, h]

theorem TableM.bind_error {x : TableM α} {e : TableError} (f : α → TableM β)
    (h : x t = .error e t') : (x >>= f) t = .error e t' := by
  simp only [bind, EStateM.bind, h]

theorem TableM.get_bind (f : LuaTable → TableM β) : (get >>= f) t = f t t := rfl

theorem TableM.set_bind (t' : LuaTable) (f : PUnit → TableM β) : (set t' >>= f) t = f ⟨⟩ t' := rfl

theorem TableM.modify_bind (g : LuaTable → LuaTable) (f : PUnit → TableM β) :
    (modify g >>= f) t = f ⟨⟩ (g t) := rfl

end TableM

def MAXBITS : ℕ := 26

def MAXSIZE : ℕ := 2 ^ MAXBITS

namespace LuaTable

variable (t : LuaTable)

def sizenode : ℕ := 2 ^ t.lsizenode

def gnode (i : ℕ) : LuaNode := (t.node.getD [luaH_dummynode]).getD i luaH_dummynode

def gkey (i : ℕ) : TValue := (t.gnode i).key.tv

def gval (i : ℕ) : TValue := (t.gnode i).val

def gnext (i : ℕ) : ℤ := (t.gnode i).key.next

/-- `t->array[i]` -/
def arr (i : ℕ) : TValue := t.array.getD i .nil

def setNode (i : ℕ) (n : LuaNode) : LuaTable := { t with node := t.node.map (·.set i n) }

def setVal (i : ℕ) (v : TValue) : LuaTable := t.setNode i { t.gnode i with val := v }

/-- `setnodekey`: the link stays. -/
def setnodekey (i : ℕ) (k : TValue) : LuaTable :=
  t.setNode i { t.gnode i with key := ⟨k, t.gnext i⟩ }

def setNext (i : ℕ) (d : ℤ) : LuaTable :=
  t.setNode i { t.gnode i with key := ⟨t.gkey i, d⟩ }

end LuaTable

/-! ### Hashing -/

def lmod (s size : ℕ) : ℕ := s &&& (size - 1)

/-- `hashpow2`: the position of a hash in the node vector. -/
def hashpow2 (t : LuaTable) (h : BitVec 32) : ℕ := lmod h.toNat t.sizenode

/-- The finalizer of MurmurHash3, on the low half of a pointer. -/
def hashpointer (p : BitVec 64) : BitVec 32 :=
  let h := p.setWidth 32
  let h := h ^^^ (h >>> 16)
  let h := h * 0x85ebca6b#32
  let h := h ^^^ (h >>> 13)
  let h := h * 0xc2b2ae35#32
  h ^^^ (h >>> 16)

/-- The finalizer of MurmurHash64B, truncated to its low half. -/
def murmur64b (h1 h2 : BitVec 32) : BitVec 32 :=
  let m := 0x5bd1e995#32
  let h1 := h1 ^^^ (h2 >>> 18)
  let h1 := h1 * m
  let h2 := h2 ^^^ (h1 >>> 22)
  let h2 := h2 * m
  let h1 := h1 ^^^ (h2 >>> 17)
  let h1 := h1 * m
  let h2 := h2 ^^^ (h1 >>> 19)
  h2 * m

/-- The sign bit is masked out so that `-0` and `0` hash alike. -/
def hashnum (n : Double) : BitVec 32 :=
  murmur64b (n.bits.setWidth 32) ((n.bits >>> 32).setWidth 32 &&& 0x7fffffff#32)

def hashint (l : BitVec 64) : BitVec 32 :=
  murmur64b (l.setWidth 32) ((l >>> 32).setWidth 32)

/-- One component of `hashvec`: `-0` becomes `0`, then the high bits are folded in. -/
def hashvecComponent (v : Single) : BitVec 32 :=
  let i := if v.bits = 0x80000000#32 then 0#32 else v.bits
  i ^^^ (i >>> 17)

def hashvec (x y z : Single) : BitVec 32 :=
  (hashvecComponent x * 73856093#32) ^^^ (hashvecComponent y * 19349663#32)
    ^^^ (hashvecComponent z * 83492791#32)

/-- The hash behind `mainposition`.  A nil key is never hashed (the source would read a stale
pointer). -/
def keyhash (E : Env) : TValue → BitVec 32
  | .number n => hashnum n
  | .integer l => hashint l
  | .vector x y z => hashvec x y z
  | .gc .string p => E.strhash p
  | .boolean b => if b then 1 else 0
  | .symnone => 2
  | .lightuserdata p _ => hashpointer p
  | .gc _ p => hashpointer p
  | .deadkey p => hashpointer p
  | .nil => 0

def mainposition (E : Env) (t : LuaTable) (key : TValue) : ℕ := hashpow2 t (keyhash E key)

/-! ### Integers and logarithms -/

/-- `luai_num2int`: the cast of a double to `int`; out of range x86 answers `INT_MIN`. -/
def luai_num2int (n : Double) : ℤ :=
  if n.isNaN then -2 ^ 31
  else if -2 ^ 31 ≤ n.trunc ∧ n.trunc < 2 ^ 31 then n.trunc else -2 ^ 31

/-- `cast_num` of an `int` -/
def cast_num (i : ℤ) : Double := Double.ofInt i

/-- `unsigned(i)` -/
def cast_unsigned (i : ℤ) : ℕ := (i % 2 ^ 32).toNat

def arrayindex (key : Double) : ℤ :=
  let i := luai_num2int key
  if (cast_num i).eq key then i else -1

/-- The table `log_2` of `luaO_log2`. -/
def log_2 (x : ℕ) : ℤ :=
  if x = 0 then 0 else if x < 2 then 1 else if x < 4 then 2 else if x < 8 then 3
  else if x < 16 then 4 else if x < 32 then 5 else if x < 64 then 6 else if x < 128 then 7 else 8

def luaO_log2 (x : ℕ) : ℤ :=
  if 256 ≤ x then 8 + luaO_log2 (x / 256) else -1 + log_2 x
termination_by x
decreasing_by omega

def ceillog2 (x : ℕ) : ℕ := (luaO_log2 (x - 1) + 1).toNat

/-! ### Lookup -/

/-- Where a lookup ends: `luaO_nilobject`, an array slot or the value of a node. -/
inductive Slot
  | nilobject
  | array (i : ℕ)
  | node (i : ℕ)
deriving DecidableEq

def LuaTable.slotGet (t : LuaTable) : Slot → TValue
  | .nilobject => .nil
  | .array i => t.arr i
  | .node i => t.gval i

/-- Storing through a slot pointer; the source never stores through `luaO_nilobject`. -/
def LuaTable.slotSet (t : LuaTable) (v : TValue) : Slot → LuaTable
  | .nilobject => t
  | .array i => { t with array := t.array.set i v }
  | .node i => t.setVal i v

/-- The loop of every lookup: follow the chain until a key is accepted. -/
def LuaTable.findChain (t : LuaTable) (p : TValue → Bool) : ℕ → ℕ → Option (Option ℕ)
  | 0, _ => none
  | fuel + 1, n =>
    if p (t.gkey n) then some (some n)
    else if t.gnext n = 0 then some none
    else t.findChain p fuel (n + t.gnext n).toNat

def LuaTable.searchChain (t : LuaTable) (p : TValue → Bool) (n : ℕ) : Option Slot :=
  (t.findChain p t.sizenode n).map fun r => r.elim .nilobject .node

def isNumberKey (nk : Double) : TValue → Bool
  | .number n => n.eq nk
  | _ => false

def isStringKey (s : GCPtr) : TValue → Bool
  | .gc .string p => p == s
  | _ => false

def isPointerKey (p : BitVec 64) (tag : BitVec 32) : TValue → Bool
  | .lightuserdata q tag' => q == p && tag' == tag
  | _ => false

def luaH_getnum (t : LuaTable) (key : ℤ) : Option Slot :=
  -- (1 <= key && key <= t->sizearray)
  if cast_unsigned (key - 1) < t.sizearray then some (.array (key - 1).toNat)
  else if t.node ≠ none then
    let nk := cast_num key
    t.searchChain (isNumberKey nk) (hashpow2 t (hashnum nk))
  else some .nilobject

def luaH_getstr (E : Env) (t : LuaTable) (key : GCPtr) : Option Slot :=
  t.searchChain (isStringKey key) (hashpow2 t (E.strhash key))

def luaH_getp (t : LuaTable) (key : BitVec 64) (tag : BitVec 32) : Option Slot :=
  t.searchChain (isPointerKey key tag) (hashpow2 t (hashpointer key))

/-- The default case of `luaH_get`. -/
def luaH_getgeneric (E : Env) (t : LuaTable) (key : TValue) : Option Slot :=
  t.searchChain (luaO_rawequalObj · key) (mainposition E t key)

def luaH_get (E : Env) (t : LuaTable) : TValue → Option Slot
  | .nil => some .nilobject
  | .gc .string p => luaH_getstr E t p
  | .number n =>
    let k := luai_num2int n
    if (cast_num k).eq n then luaH_getnum t k -- index is int
    else luaH_getgeneric E t (.number n)
  | key => luaH_getgeneric E t key

/-! ### Sizes -/

/-- The number of slots `i..lim` of the array part in use. -/
def numuseslice (t : LuaTable) (i lim : ℕ) : ℕ :=
  (List.range' i (lim + 1 - i)).countP fun j => !(t.arr (j - 1)).isNil

/-- The slices `(2^(lg-1), 2^lg]` of `numusearray`; `i` is the first slot not yet counted. -/
def numusearrayLoop (t : LuaTable) : ℕ → ℕ → ℕ → List ℕ → ℕ → List ℕ × ℕ
  | 0, _, _, nums, ause => (nums, ause)
  | rest + 1, lg, i, nums, ause =>
    let ttlg := 2 ^ lg
    let lim := if t.sizearray < ttlg then t.sizearray else ttlg
    if t.sizearray < ttlg ∧ lim < i then (nums, ause) -- no more elements to count
    else
      let lc := numuseslice t i lim
      numusearrayLoop t rest (lg + 1) (max i (lim + 1)) (nums.modify lg (· + lc)) (ause + lc)

def numusearray (t : LuaTable) (nums : List ℕ) : List ℕ × ℕ :=
  numusearrayLoop t (MAXBITS + 1) 0 1 nums 0

/-- The new counts, and `1` when the key is a candidate for the array part. -/
def countint (key : Double) (nums : List ℕ) : List ℕ × ℕ :=
  let k := arrayindex key
  if 0 < k ∧ k ≤ MAXSIZE then (nums.modify (ceillog2 k.toNat) (· + 1), 1) else (nums, 0)

/-- `if (ttisnumber(key)) ... countint(nvalue(key), nums)` -/
def countkey (key : TValue) (nums : List ℕ) : List ℕ × ℕ :=
  match key with
  | .number n => countint n nums
  | _ => (nums, 0)

/-- The loop of `numusehash`, over the nodes from the last to the first: counts, `ause` and
`totaluse`. -/
def numusehashLoop : List LuaNode → List ℕ → ℕ → ℕ → List ℕ × ℕ × ℕ
  | [], nums, ause, totaluse => (nums, ause, totaluse)
  | n :: ns, nums, ause, totaluse =>
    if n.val.isNil then numusehashLoop ns nums ause totaluse
    else
      let (nums, c) := countkey n.key.tv nums
      numusehashLoop ns nums (ause + c) (totaluse + 1)

/-- The node vector, the dummy node counting as one node. -/
def LuaTable.nodes (t : LuaTable) : List LuaNode := t.node.getD [luaH_dummynode]

def numusehash (t : LuaTable) (nums : List ℕ) : List ℕ × ℕ × ℕ :=
  numusehashLoop t.nodes.reverse nums 0 0

/-- The loop of `computesizes`; the answer is the array size `n` and the count `na`. -/
def computesizesLoop (narray : ℕ) : List ℕ → ℕ → ℕ → ℕ → ℕ → ℕ × ℕ
  | [], _, _, na, n => (n, na)
  | c :: cs, twotoi, a, na, n =>
    if twotoi / 2 < narray then
      let a' := a + c
      let more := 0 < c ∧ twotoi / 2 < a' -- more than half elements present
      let n := if more then twotoi else n
      let na := if more then a' else na
      if a' = narray then (n, na) -- all elements already counted
      else computesizesLoop narray cs (twotoi * 2) a' na n
    else (n, na)

def computesizes (nums : List ℕ) (narray : ℕ) : ℕ × ℕ := computesizesLoop narray nums 1 0 0 0

/-- The loop of `adjustasize`: grow while the next key is the new one or present. -/
def adjustasizeLoop (t : LuaTable) (tbound : Bool) (ekindex : ℤ) : ℕ → ℕ → Option ℕ
  | 0, _ => none
  | fuel + 1, size =>
    if (size : ℤ) + 1 = ekindex then adjustasizeLoop t tbound ekindex fuel (size + 1)
    else if tbound then
      match luaH_getnum t (size + 1) with
      | none => none
      | some s =>
        if (t.slotGet s).isNil then some size
        else adjustasizeLoop t tbound ekindex fuel (size + 1)
    else some size

/-- `ek && ttisnumber(ek) ? arrayindex(nvalue(ek)) : -1` -/
def ekindexOf : Option TValue → ℤ
  | some (.number n) => arrayindex n
  | _ => -1

def adjustasize (t : LuaTable) (size : ℕ) (ek : Option TValue) : Option ℕ :=
  let tbound := t.node ≠ none ∨ size < t.sizearray
  adjustasizeLoop t tbound (ekindexOf ek) (t.sizearray + t.sizenode + 2) size

/-! ### Resizing and insertion -/

/-- `sizeof(TValue)` -/
def sizeofTValue : ℕ := 16

/-- `sizeof(LuaNode)` -/
def sizeofLuaNode : ℕ := 32

/-- An allocation of `luaM_*`; empty blocks need no memory. -/
def luaM_alloc (E : Env) (bytes : ℕ) : TableM Unit := do
  let t ← get
  if 0 < bytes ∧ E.alloc t bytes = false then throw .errmem

def setarrayvector (E : Env) (size : ℕ) : TableM Unit := do
  if MAXSIZE < size then throw (.runerror "table overflow")
  luaM_alloc E (size * sizeofTValue)
  modify fun t =>
    { t with
      array := t.array.take t.sizearray ++ List.replicate (size - t.sizearray) .nil
      sizearray := size }

def setnodevector (E : Env) (size : ℕ) : TableM Unit :=
  if size = 0 then
    modify fun t => { t with node := none, lsizenode := 0, lastfree := 0 }
  else do
    let lsize := ceillog2 size
    if MAXBITS < lsize then throw (.runerror "table overflow")
    let size := 2 ^ lsize
    luaM_alloc E (size * sizeofLuaNode)
    modify fun t =>
      { t with node := some (List.replicate size luaH_dummynode), lsizenode := lsize, lastfree := size }

/-- The position of an array slot for a number key: `unsigned(k) - 1 < unsigned(t->sizearray)`. -/
def arrayslot (sizearray : ℕ) : TValue → Option ℕ
  | .number n =>
    let k := luai_num2int n
    if (cast_num k).eq n ∧ cast_unsigned (k - 1) < sizearray then some (k - 1).toNat else none
  | _ => none

/-- The insertion that `resize` and `rehash` call back; always `newkey`. -/
abbrev Inserter := TValue → TableM Slot

def arrayornewkey (newkey : Inserter) (key : TValue) : TableM Slot := do
  match arrayslot (← get).sizearray key with
  | some i => return .array i
  | none => newkey key

/-- Re-insert the elements `i..oldasize-1` of the vanishing slice. -/
def reinsertArray (newkey : Inserter) : ℕ → ℕ → TableM Unit
  | 0, _ => pure ()
  | rest + 1, i => do
    let v := (← get).arr i
    if !v.isNil then
      let slot ← newkey (.number (cast_num (i + 1)))
      modify (·.slotSet v slot)
    reinsertArray newkey rest (i + 1)

/-- Re-insert the elements of the old hash part. -/
def reinsertNodes (newkey : Inserter) : List LuaNode → TableM Unit
  | [] => pure ()
  | old :: rest => do
    if !old.val.isNil then
      let slot ← arrayornewkey newkey old.key.tv
      modify (·.slotSet old.val slot)
    reinsertNodes newkey rest

/-- Re-insert the vanishing slice, then give its memory back. -/
def shrinkarray (E : Env) (newkey : Inserter) (nasize oldasize : ℕ) : TableM Unit := do
  modify ({ · with sizearray := nasize })
  reinsertArray newkey (oldasize - nasize) nasize
  luaM_alloc E (nasize * sizeofTValue)
  modify fun t => { t with array := t.array.take nasize }

def resize (E : Env) (newkey : Inserter) (nasize nhsize : ℕ) : TableM Unit := do
  if MAXSIZE < nasize ∨ MAXSIZE < nhsize then throw (.runerror "table overflow")
  let t ← get
  let oldasize := t.sizearray
  let nold := t.nodes
  if oldasize < nasize then setarrayvector E nasize
  setnodevector E nhsize
  if nasize < oldasize then shrinkarray E newkey nasize oldasize
  reinsertNodes newkey nold.reverse

/-- A size computation that does not end is the error `loop`. -/
def orLoop {α : Type} : Option α → TableM α
  | some a => pure a
  | none => throw .loop

/-- The sizes `rehash` settles on, before the boundary is enforced: array size, hash size. -/
def rehashCount (t : LuaTable) (ek : TValue) : ℕ × ℕ :=
  let nums := List.replicate (MAXBITS + 1) 0
  let (nums, nasize) := numusearray t nums
  let (nums, ause, hashuse) := numusehash t nums
  let totaluse := nasize + hashuse
  let nasize := nasize + ause
  -- count extra key
  let (nums, extra) := countkey ek nums
  let totaluse := totaluse + 1
  let (nasize, na) := computesizes nums (nasize + extra)
  (nasize, totaluse - na)

def rehashSizes (t : LuaTable) (ek : TValue) : Option (ℕ × ℕ) := do
  let (nasize, nh) := rehashCount t ek
  let nadjusted ← adjustasize t nasize (some ek)
  let aextra := nadjusted - nasize
  if aextra ≠ 0 then
    let nasize ← adjustasize t (nadjusted + aextra) (some ek)
    return (nasize, nh - aextra)
  else return (nasize, nh)

def rehash (E : Env) (newkey : Inserter) (ek : TValue) : TableM Unit := do
  let (nasize, nh) ← orLoop (rehashSizes (← get) ek)
  resize E newkey nasize nh

/-- The scan of `getfreepos` below position `n`. -/
def getfreeposLoop (t : LuaTable) : ℕ → Option ℕ
  | 0 => none
  | n + 1 => if (t.gkey n).isNil then some n else getfreeposLoop t n

def getfreepos : TableM (Option ℕ) := do
  let t ← get
  if t.lastfree ≤ 0 then return none
  match getfreeposLoop t t.lastfree.toNat with
  | some n => set { t with lastfree := n }; return some n
  | none => set { t with lastfree := 0 }; return none

/-- `while (othern + gnext(othern) != mp) othern += gnext(othern);` -/
def findprevious (t : LuaTable) (mp : ℕ) : ℕ → ℕ → Option ℕ
  | 0, _ => none
  | fuel + 1, othern =>
    if (othern : ℤ) + t.gnext othern = mp then some othern
    else findprevious t mp fuel (othern + t.gnext othern).toNat

/-- Move the colliding node `mp` into the free position `n`; `prev` is its predecessor. -/
def movecolliding (t : LuaTable) (prev mp n : ℕ) : LuaTable :=
  let t := t.setNext prev (n - prev)   -- redo the chain with `n' in place of `mp'
  let t := t.setNode n (t.gnode mp)    -- copy colliding node into free pos. (mp->next also goes)
  let t :=
    if t.gnext mp ≠ 0 then
      (t.setNext n (t.gnext n + (mp - n))).setNext mp 0 -- correct 'next'; now 'mp' is free
    else t
  t.setVal mp .nil

/-- Hang the free position `n` behind `mp`, which is in its own main position. -/
def chainfree (t : LuaTable) (mp n : ℕ) : LuaTable :=
  let t := if t.gnext mp ≠ 0 then t.setNext n (mp + t.gnext mp - n) else t -- chain new position
  t.setNext mp (n - mp)

/-- `ttisnumber(key) && nvalue(key) == i` -/
def isNumberEq (key : TValue) (i : ℤ) : Bool :=
  match key with
  | .number n => n.eq (cast_num i)
  | _ => false

/-- Grow the table, then look for the place of the key again. -/
def growtable (E : Env) (newkey : Inserter) (key : TValue) : TableM Slot := do
  rehash E newkey key
  -- numeric keys might be located in the new array part, but won't be found in the node part
  arrayornewkey newkey key

/-- The main position `mp` of a new key is taken and `n` is a free position. -/
def insertcolliding (E : Env) (key : TValue) (mp n : ℕ) : TableM Slot := do
  let t ← get
  let othern := mainposition E t (t.gkey mp)
  if othern ≠ mp then
    -- the colliding node is out of its main position
    let prev ← orLoop (findprevious t mp t.sizenode othern)
    set ((movecolliding t prev mp n).setnodekey mp key)
    return .node mp
  else
    set ((chainfree t mp n).setnodekey n key)
    return .node n

def newkey (E : Env) : ℕ → TValue → TableM Slot
  | 0, _ => throw .loop
  | fuel + 1, key => do
    let t ← get
    -- enforce boundary invariant
    if isNumberEq key (t.sizearray + 1) then growtable E (newkey E fuel) key
    else
      let mp := mainposition E t key
      if !(t.gval mp).isNil || t.node = none then
        match ← getfreepos with
        | none => growtable E (newkey E fuel) key
        | some n => insertcolliding E key mp n
      else
        set (t.setnodekey mp key)
        return .node mp

/-- `newkey` calls itself through `rehash` at most twice. -/
def newkeyFuel : ℕ := 3

def luaH_newkey (E : Env) (key : TValue) : TableM Slot :=
  match key with
  | .nil => throw (.runerror "table index is nil")
  | .number n =>
    if n.isNaN then throw (.runerror "table index is NaN") else newkey E newkeyFuel key
  | .vector x y z =>
    if luai_vecisnan x y z then throw (.runerror "table index contains NaN")
    else newkey E newkeyFuel key
  | key => newkey E newkeyFuel key

/-- The common shape of the `luaH_set` family: the slot found, or a new key. -/
def getornewkey (found : Option Slot) (new : TableM Slot) : TableM Slot := do
  match ← orLoop found with
  | .nilobject => new
  | slot => return slot

def luaH_set (E : Env) (key : TValue) : TableM Slot := do
  getornewkey (luaH_get E (← get) key) (luaH_newkey E key)

def luaH_setnum (E : Env) (key : ℤ) : TableM Slot := do
  let t ← get
  if cast_unsigned (key - 1) < t.sizearray then return .array (key - 1).toNat
  else getornewkey (luaH_getnum t key) (newkey E newkeyFuel (.number (cast_num key)))

def luaH_setstr (E : Env) (key : GCPtr) : TableM Slot := do
  getornewkey (luaH_getstr E (← get) key) (newkey E newkeyFuel (.gc .string key))

def luaH_setp (E : Env) (key : BitVec 64) (tag : BitVec 32) : TableM Slot := do
  getornewkey (luaH_getp (← get) key tag) (newkey E newkeyFuel (.lightuserdata key tag))

def luaH_resizearray (E : Env) (nasize : ℕ) : TableM Unit := do
  let t ← get
  let nsize := if t.node = none then 0 else t.sizenode
  let asize ← orLoop (adjustasize t nasize none)
  resize E (newkey E newkeyFuel) asize nsize

def luaH_resizehash (E : Env) (nhsize : ℕ) : TableM Unit := do
  resize E (newkey E newkeyFuel) (← get).sizearray nhsize

/-- The fields `luaH_new` starts from. -/
def emptyTable : LuaTable := ⟨[], 0, none, 0, 0⟩

def luaH_new (E : Env) (narray nhash : ℕ) : TableM Unit := do
  set emptyTable
  if 0 < narray then setarrayvector E narray
  if 0 < nhash then setnodevector E nhash

/-! ### Length, clone, clear -/

/-- `maybesetaboundary`: the cached boundary lives in the union only while there is no free
position to remember. -/
def LuaTable.maybesetaboundary (t : LuaTable) (boundary : ℕ) : LuaTable :=
  if t.lastfree ≤ 0 then { t with lastfree := -boundary } else t

def LuaTable.getaboundary (t : LuaTable) : ℕ :=
  if t.lastfree < 0 then (-t.lastfree).toNat else t.sizearray

def updateaboundary (t : LuaTable) (boundary : ℕ) : ℕ × LuaTable :=
  if boundary < t.sizearray ∧ (t.arr (boundary - 1)).isNil then
    if 2 ≤ boundary ∧ !(t.arr (boundary - 2)).isNil then
      (boundary - 1, t.maybesetaboundary (boundary - 1))
    else (0, t)
  else if boundary + 1 < t.sizearray ∧ !(t.arr boundary).isNil ∧ (t.arr (boundary + 1)).isNil then
    (boundary + 1, t.maybesetaboundary (boundary + 1))
  else (0, t)

/-- The "branchless" binary search of `luaH_getn`, from `base` over `rest` slots. -/
def boundarySearch (t : LuaTable) (base rest : ℕ) : ℕ :=
  let half := rest / 2
  if half = 0 then (if (t.arr base).isNil then 0 else 1) + base
  else boundarySearch t (if (t.arr (base + half)).isNil then base else base + half) (rest - half)
termination_by rest
decreasing_by omega

def luaH_getn (t : LuaTable) : ℕ × LuaTable :=
  let boundary := t.getaboundary
  let search : ℕ × LuaTable :=
    let j := t.sizearray
    if 0 < j ∧ (t.arr (j - 1)).isNil then
      let boundary := boundarySearch t 0 j
      (boundary, t.maybesetaboundary boundary)
    else (j, t)
  if 0 < boundary then
    if !(t.arr (t.sizearray - 1)).isNil ∧ t.node = none then
      (t.sizearray, t) -- the end of the array already refers to a boundary
    else if boundary < t.sizearray ∧ !(t.arr (boundary - 1)).isNil ∧ (t.arr boundary).isNil then
      (boundary, t) -- boundary already refers to a boundary
    else
      match updateaboundary t boundary with
      | (0, _) => search
      | (found, t') => (found, t')
  else search

/-- The copy `luaH_clone` makes when its allocations succeed. -/
def clonetable (tt : LuaTable) : LuaTable :=
  let t := emptyTable
  let t :=
    if tt.sizearray ≠ 0 then
      { t.maybesetaboundary tt.getaboundary with
        sizearray := tt.sizearray, array := tt.array.take tt.sizearray }
    else t
  match tt.node with
  | none => t
  | some ns => { t with node := some ns, lsizenode := tt.lsizenode, lastfree := tt.lastfree }

def luaH_clear (tt : LuaTable) : LuaTable :=
  let tt := { tt with array := List.replicate tt.sizearray TValue.nil }
  let tt := tt.maybesetaboundary 0
  match tt.node with
  | none => tt
  | some _ =>
    { tt with node := some (List.replicate tt.sizenode luaH_dummynode), lastfree := tt.sizenode }

end Luwu
