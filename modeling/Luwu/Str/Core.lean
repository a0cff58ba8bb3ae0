import Luwu.Table.Core

/-!
# Strings

Strings with equal bytes are one object: every string is chained into the table at the hash of its bytes,
and a new string is looked up first.  A string is made from bytes (`luaS_newlstr`), from a buffer that is
filled and then finished (`luaS_bufstart`, `luaS_buffinish`), or from memory of the host that stays where it
is (`luaS_newexternallstr`), with a callback that gives the memory back.

An allocation takes its answer as an argument: `fresh` is the block for a string, `room` whether a new
array can be had for the table.  `freed` is the list of the callbacks that ran.  A white string of the last
cycle is dead until it is swept, or found in the table and kept.  `nuse` is a `uint32_t`; the memory
accounts and `atom` are left out.
-/

namespace Luwu

open Function

abbrev Bytes := List UInt8

/-- Memory that the host hands over: where it is and what it holds, and how to give it back. -/
structure ExtBuffer where
  dataptr : ℕ
  bytes : Bytes
  userdata : ℕ
  free_cb : Option ℕ
  deriving DecidableEq

/-- The union of `TString`. -/
inductive StrUnion where
  | data (bytes : Bytes)
  | ext (b : ExtBuffer)
  deriving DecidableEq

structure TString where
  next : Option ℕ
  hash : BitVec 32
  len : ℕ
  u : StrUnion
  /-- white of the last cycle, and fixed -/
  otherwhite : Bool
  fixed : Bool
  deriving DecidableEq

/-- `getstr` -/
def TString.getstr (ts : TString) : Bytes :=
  match ts.u with
  | .data bytes => bytes
  | .ext b => b.bytes

def TString.isdead (ts : TString) : Bool := ts.otherwhite && !ts.fixed

/-- The string table, and what strings are made of. -/
structure StringState where
  strings : ℕ → Option TString
  /-- the strings on the pages of the collector -/
  objects : List ℕ
  hash : ℕ → Option ℕ
  size : ℕ
  nuse : BitVec 32
  freed : List ExtBuffer

inductive StringError where
  | errmem
  | toobig (msg : String) (max : ℕ)
  | fault
  deriving DecidableEq

abbrev StringM := EStateM StringError StringState

def MAXSSIZE : ℕ := 2 ^ 30

def LUA_MINSTRTABSIZE : ℕ := 32

/-! ### `luaS_hash` -/

def rol (x : BitVec 32) (s : ℕ) : BitVec 32 := (x >>> s) ||| (x <<< (32 - s))

/-- The variables `a`, `b`, `h`. -/
structure HashWords where
  a : BitVec 32
  b : BitVec 32
  h : BitVec 32

def mix (u v w : ℕ) (s : HashWords) : HashWords :=
  let a := s.a ^^^ s.h
  let a := a - rol s.h u
  let b := s.b ^^^ a
  let b := b - rol a v
  let h := s.h ^^^ b
  let h := h - rol b w
  ⟨a, b, h⟩

/-- Four bytes as they lie in memory. -/
def word (bytes : Bytes) : BitVec 32 :=
  BitVec.ofNat 32 ((bytes.take 4).foldr (fun c n => c.toNat + 256 * n) 0)

/-- The loop over blocks of 12 bytes. -/
def hashblocks : ℕ → Bytes → HashWords → Bytes × HashWords
  | 0, str, s => (str, s)
  | fuel + 1, str, s =>
    if 32 ≤ str.length then
      hashblocks fuel (str.drop 12) (mix 14 11 25
        ⟨s.a + word str, s.b + word (str.drop 4), s.h + word (str.drop 8)⟩)
    else (str, s)

def luaS_hash (str : Bytes) : BitVec 32 :=
  let s := hashblocks str.length str ⟨0, 0, BitVec.ofNat 32 str.length⟩
  -- the loop runs from the last byte to the first
  s.1.foldr (fun c h => h ^^^ ((h <<< 5) + (h >>> 2) + BitVec.ofNat 32 c.toNat)) s.2.h

/-! ### Access -/

def getstring (p : ℕ) : StringM TString := do
  match (← get).strings p with
  | some ts => return ts
  | none => throw .fault

def StringState.setString (s : StringState) (p : ℕ) (ts : TString) : StringState :=
  { s with strings := update s.strings p (some ts) }

def setstring (p : ℕ) (ts : TString) : StringM Unit := modify (·.setString p ts)

/-- A bound for the walks along the chains. -/
def strfuel : StringM ℕ := do return (← get).objects.length

/-- `luaM_newgco` -/
def newstring (fresh : Option ℕ) : StringM ℕ := do
  match fresh with
  | none => throw .errmem
  | some p => do
    modify fun s => { s with objects := p :: s.objects }
    return p

/-- The callback of a buffer. -/
def runfree (b : ExtBuffer) : StringM Unit :=
  match b.free_cb with
  | some _ => modify fun s => { s with freed := b :: s.freed }
  | none => return

/-! ### `luaS_resize` -/

/-- The inner loop: for each node in the list. -/
def rehashchain (newsize : ℕ) : ℕ → Option ℕ → (ℕ → Option ℕ) → StringM (ℕ → Option ℕ)
  | _, none, newhash => return newhash
  | 0, some _, _ => throw .fault
  | fuel + 1, some p, newhash => do
    let ts ← getstring p
    let h1 := lmod ts.hash.toNat newsize -- new position
    setstring p { ts with next := newhash h1 } -- chain it
    rehashchain newsize fuel ts.next (update newhash h1 (some p))

def rehashtable (newsize : ℕ) : List ℕ → (ℕ → Option ℕ) → StringM (ℕ → Option ℕ)
  | [], newhash => return newhash
  | i :: is, newhash => do
    let fuel ← strfuel
    let newhash ← rehashchain newsize fuel ((← get).hash i) newhash
    rehashtable newsize is newhash

def luaS_resize (room : Bool) (newsize : ℕ) : StringM Unit := do
  if room then do
    let newhash ← rehashtable newsize (List.range (← get).size) (fun _ => none)
    modify fun s => { s with hash := newhash, size := newsize }
  else throw .errmem

/-! ### Interning -/

/-- The search of a chain, the same in all constructors. -/
def findstring (str : Bytes) (l : ℕ) : ℕ → Option ℕ → StringM (Option ℕ)
  | _, none => return none
  | 0, some _ => throw .fault
  | fuel + 1, some el => do
    let ts ← getstring el
    if ts.len = l ∧ str.take l = ts.getstr.take l then return some el
    else findstring str l fuel ts.next

/-- string may be dead -/
def keepalive (el : ℕ) : StringM Unit := do
  let ts ← getstring el
  if ts.isdead then setstring el { ts with otherwhite := !ts.otherwhite } -- changewhite

/-- The new entry is chained, the same in all constructors. -/
def chainstring (room : Bool) (p : ℕ) (h : BitVec 32) : StringM Unit := do
  let ts ← getstring p
  let tb ← get
  let bucket := lmod h.toNat tb.size
  setstring p { ts with next := tb.hash bucket }
  modify fun s => { s with hash := update s.hash bucket (some p), nuse := s.nuse + 1 }
  let tb ← get
  if tb.size < tb.nuse.toNat ∧ tb.size ≤ (2 ^ 31 - 1) / 2 then
    luaS_resize room (tb.size * 2) -- too crowded

def newlstr (fresh : Option ℕ) (room : Bool) (str : Bytes) (h : BitVec 32) : StringM ℕ := do
  if MAXSSIZE < str.length then throw (.toobig "string too big" MAXSSIZE)
  else do
    let p ← newstring fresh
    setstring p ⟨none, h, str.length, .data str, false, false⟩
    chainstring room p h
    return p

def luaS_newlstr (fresh : Option ℕ) (room : Bool) (str : Bytes) : StringM ℕ := do
  let h := luaS_hash str
  let tb ← get
  match ← findstring str str.length (← strfuel) (tb.hash (lmod h.toNat tb.size)) with
  | some el => do
    keepalive el
    return el
  | none => newlstr fresh room str h -- not found

/-- `garbage` is what the memory holds. -/
def luaS_bufstart (fresh : Option ℕ) (garbage : Bytes) : StringM ℕ := do
  if MAXSSIZE < garbage.length then throw (.toobig "string too big" MAXSSIZE)
  else do
    let p ← newstring fresh
    setstring p ⟨none, 0, garbage.length, .data garbage, false, false⟩
    return p

def luaS_buffinish (room : Bool) (p : ℕ) : StringM ℕ := do
  let ts ← getstring p
  let h := luaS_hash (ts.getstr.take ts.len)
  let tb ← get
  -- search if we already have this string in the hash table
  match ← findstring ts.getstr ts.len (← strfuel) (tb.hash (lmod h.toNat tb.size)) with
  | some el => do
    keepalive el
    return el
  | none => do
    setstring p { ts with hash := h }
    chainstring room p h
    return p

def luaS_newexternallstr (fresh : Option ℕ) (room : Bool) (b : ExtBuffer) : StringM ℕ := do
  if MAXSSIZE < b.bytes.length then do
    runfree b
    throw (.toobig "external string too big" MAXSSIZE)
  else do
    let h := luaS_hash b.bytes
    let tb ← get
    match ← findstring b.bytes b.bytes.length (← strfuel) (tb.hash (lmod h.toNat tb.size)) with
    | some el => do
      keepalive el
      -- Duplicate found, we don't need the new external allocation
      runfree b
      return el
    | none =>
      -- this allocation can fail with an OOM error; run it protected
      match fresh with
      | none => do
        runfree b
        throw .errmem
      | some p => do
        let p ← newstring (some p)
        setstring p ⟨none, h, b.bytes.length, .ext b, false, false⟩
        chainstring room p h
        return p

/-! ### Removal -/

/-- Where a pointer of a chain is stored: what `p` points to. -/
inductive StrPlace where
  | bucket (i : ℕ)
  | next (p : ℕ)
  deriving DecidableEq

def setplace (r : Option ℕ) : StrPlace → StringM Unit
  | .bucket i => modify fun s => { s with hash := update s.hash i r }
  | .next q => do
    let tq ← getstring q
    setstring q { tq with next := r }

/-- The loop of `unlinkstr`. -/
def unlinkloop (ts : ℕ) : ℕ → StrPlace → Option ℕ → StringM Bool
  | _, _, none => return false
  | 0, _, some _ => throw .fault
  | fuel + 1, place, some curr => do
    let t ← getstring curr
    if curr = ts then do
      setplace t.next place
      return true
    else unlinkloop ts fuel (.next curr) t.next

def unlinkstr (p : ℕ) : StringM Bool := do
  let ts ← getstring p
  let tb ← get
  let i := lmod ts.hash.toNat tb.size
  unlinkloop p (← strfuel) (.bucket i) (tb.hash i)

/-- `luaM_freegco` -/
def freestring (p : ℕ) : StringM Unit :=
  modify fun s => { s with strings := update s.strings p none, objects := s.objects.erase p }

/-- What is left where it was not chained is an orphaned string buffer. -/
def countdown (found : Bool) : StringM Unit :=
  if found then modify fun s => { s with nuse := s.nuse - 1 } else return

def luaS_free (p : ℕ) : StringM Unit := do
  countdown (← unlinkstr p)
  let ts ← getstring p
  match ts.u with
  | .ext b => do
    runfree b
    freestring p
  | .data _ => freestring p

/-! ### The rest -/

/-- The program writes into a buffer that it has not finished. -/
def fillbuffer (p : ℕ) (bytes : Bytes) : StringM Unit := do
  let ts ← getstring p
  setstring p { ts with u := .data bytes }

def luaS_fix (p : ℕ) : StringM Unit := do
  let ts ← getstring p
  setstring p { ts with fixed := true }

/-- The white flips at the end of a mark: `live` is what was reached. -/
def flipwhite (live : ℕ → Bool) : StringM Unit :=
  modify fun s => { s with
    strings := fun p => (s.strings p).map fun ts => { ts with otherwhite := !live p } }

/-- `shrinkbuffers`; the resize runs protected, and the table keeps its size when it fails. -/
def shrinkbuffers (room : Bool) : StringM Unit := do
  let tb ← get
  if tb.nuse.toNat < tb.size / 4 ∧ LUA_MINSTRTABSIZE * 2 < tb.size then
    if room then luaS_resize true (tb.size / 2)

/-- The loop of `shrinkbuffersfull`. -/
def fullsize (nuse : ℕ) : ℕ → ℕ → ℕ
  | 0, hashsize => hashsize
  | fuel + 1, hashsize =>
    if nuse < hashsize / 4 ∧ LUA_MINSTRTABSIZE * 2 < hashsize then fullsize nuse fuel (hashsize / 2)
    else hashsize

def shrinkbuffersfull (room : Bool) : StringM Unit := do
  let tb ← get
  let hashsize := fullsize tb.nuse.toNat tb.size tb.size
  if hashsize ≠ tb.size then
    if room then luaS_resize true hashsize

/-- `luaC_freeall`, as far as strings go. -/
def freeall : StringM Unit := do
  (← get).objects.forM luaS_free

end Luwu
