import Luwu.Lib.Checked
import Luwu.Lib.Copies
import Luwu.Table.ForLoop

/-!
# The functions of the table library that move elements

`moveelements` copies a range of a table to another place, of the same table or another, slot by slot where both ranges
are inside the array parts and through `lua_rawgeti` and `lua_rawseti` otherwise.  `table.insert`, `table.remove` and
`table.move` are built on it.

The tables are kept by address; positions are ints, as `luaL_checkinteger` delivers them, and every computation with
them is checked for overflow.
-/

namespace Luwu.TabLib

open Checked (Fault)

inductive LibError
  | table (e : TableError)
  | readonly
  | error (msg : String)
  | argerror (arg : ℕ) (extramsg : String)
  | fault (f : Fault)
deriving DecidableEq

/-- The tables, by address -/
abbrev Tables := GCPtr → LuaTable

abbrev LibM := EStateM LibError Tables

/-- What a call finds: the heap, the tables that are read-only, and the tables among its arguments -/
structure Call where
  env : Env
  readonly : GCPtr → Bool
  base : ℕ → GCPtr

def onTable {α : Type} (p : GCPtr) (x : TableM α) : LibM α := fun h =>
  match x (h p) with
  | .ok a t => .ok a (Function.update h p t)
  | .error e t => .error (.table e) (Function.update h p t)

def checked {α : Type} : Except Fault α → LibM α
  | .ok a => pure a
  | .error f => throw (.fault f)

def INT_MAX : ℤ := 2147483647

def argcheck (cond : Prop) [Decidable cond] (arg : ℕ) (extramsg : String) : LibM Unit :=
  if cond then pure ⟨⟩ else throw (.argerror arg extramsg)

/-! ### The API functions -/

def lua_rawgeti (c : Call) (idx : ℕ) (n : ℤ) : LibM TValue := do
  return rawgeti ((← get) (c.base idx)) n

def lua_rawseti (c : Call) (idx : ℕ) (n : ℤ) (v : TValue) : LibM Unit := do
  if c.readonly (c.base idx) then throw .readonly
  onTable (c.base idx) (storeThrough (luaH_setnum c.env n) v)

/-- The length of a table -/
def lua_objlen (c : Call) (idx : ℕ) : LibM ℤ :=
  onTable (c.base idx) fun t => .ok ((luaH_getn t).1 : ℤ) (luaH_getn t).2

/-- The loop of `adjustasize` without a new key: `ekindex` is `-1`, which no `size + 1` is. -/
def adjustasizeInt (t : LuaTable) (tbound : Bool) : ℕ → ℤ → Except Fault ℤ
  | 0, _ => .error .overflow
  | fuel + 1, size => do
    let next ← Checked.add 32 size 1
    if tbound ∧ !(rawgeti t next).isNil then adjustasizeInt t tbound fuel next else return size

/-- `luaH_resizearray`, with the overflow of `adjustasize` -/
def resizearray (c : Call) (p : GCPtr) (nasize : ℤ) : LibM Unit := do
  let t := (← get) p
  let tbound := t.node ≠ none ∨ nasize < t.sizearray
  -- as many turns as there are ints
  let asize ← checked (adjustasizeInt t tbound ((INT_MAX - nasize).toNat + 1) nasize)
  onTable p (resize c.env (newkey c.env newkeyFuel) asize.toNat t.hashsize)

/-! ### Moving elements -/

/-- `a + i - 1` -/
def slotIndex (a i : ℤ) : Except Fault ℤ := do Checked.sub 32 (← Checked.add 32 a i) 1

/-- `e - f + 1` -/
def count (f e : ℤ) : Except Fault ℤ := do Checked.add 32 (← Checked.sub 32 e f) 1

/-- The body of the loops over the array parts -/
def copyslot (src dst : GCPtr) (f t : ℤ) (i : ℕ) : LibM Unit := do
  let s ← checked (slotIndex f i)
  let d ← checked (slotIndex t i)
  let v := ((← get) src).arr s.toNat
  modify fun h => Function.update h dst ((h dst).slotSet v (.array d.toNat))

/-- The body of the loops through the API -/
def copyelement (c : Call) (srct dstt : ℕ) (f t : ℤ) (i : ℕ) : LibM Unit := do
  let v ← lua_rawgeti c srct (← checked (Checked.add 32 f i))
  lua_rawseti c dstt (← checked (Checked.add 32 t i)) v

def forEach (body : ℕ → LibM Unit) : List ℕ → LibM Unit
  | [] => pure ⟨⟩
  | i :: is => do
    body i
    forEach body is

/-- `for (int i = 0; i < n; ++i)` -/
def upward (n : ℤ) : List ℕ := List.range n.toNat

/-- `for (int i = n - 1; i >= 0; i--)` -/
def downward (n : ℤ) : List ℕ := (List.range n.toNat).reverse

/-- The loops over the array parts -/
def moveslots (srct dstt : ℕ) (src dst : GCPtr) (f e t n : ℤ) : LibM Unit :=
  if e < t ∨ t ≤ f ∨ (dstt ≠ srct ∧ dst ≠ src) then forEach (copyslot src dst f t) (upward n)
  else forEach (copyslot src dst f t) (downward n)

/-- The loops through the API -/
def moverawly (c : Call) (srct dstt : ℕ) (f e t n : ℤ) : LibM Unit :=
  if e < t ∨ t ≤ f ∨ c.base dstt ≠ c.base srct then forEach (copyelement c srct dstt f t) (upward n)
  else forEach (copyelement c srct dstt f t) (downward n)

/-- Both ranges are inside the array parts; the sums are unsigned. -/
def InArrays (src dst : LuaTable) (f t n : ℤ) : Prop :=
  cast_unsigned (f - 1) < src.sizearray ∧ cast_unsigned (t - 1) < dst.sizearray ∧
    cast_unsigned (f - 1 + n) ≤ src.sizearray ∧ cast_unsigned (t - 1 + n) ≤ dst.sizearray

instance (src dst : LuaTable) (f t n : ℤ) : Decidable (InArrays src dst f t n) := by
  unfold InArrays
  infer_instance

def moveelements (c : Call) (srct dstt : ℕ) (f e t : ℤ) : LibM Unit := do
  let src := c.base srct
  let dst := c.base dstt
  if c.readonly dst then throw .readonly
  let n ← checked (count f e) -- number of elements to move
  let h ← get
  if InArrays (h src) (h dst) f t n then moveslots srct dstt src dst f e t n
  else moverawly c srct dstt f e t n

/-- The arguments of `table.insert` behind the table, told apart by `lua_gettop` -/
inductive InsertArgs
  | value (v : TValue)
  | position (pos : ℤ) (v : TValue)
  | other

def tinsert (c : Call) (args : InsertArgs) : LibM Unit := do
  let n ← lua_objlen c 1
  match args with
  | .value v => lua_rawseti c 1 (← checked (Checked.add 32 n 1)) v -- insert new element at the end
  | .position pos v =>
    -- move up elements if necessary
    if 1 ≤ pos ∧ pos ≤ n then moveelements c 1 1 pos n (← checked (Checked.add 32 pos 1))
    lua_rawseti c 1 pos v
  | .other => throw (.error "wrong number of arguments to 'insert'")

def tremove (c : Call) (arg : Option ℤ) : LibM (Option TValue) := do
  let n ← lua_objlen c 1
  let pos := arg.getD n
  if ¬(1 ≤ pos ∧ pos ≤ n) then return none -- nothing to remove
  let v ← lua_rawgeti c 1 pos
  moveelements c 1 1 (← checked (Checked.add 32 pos 1)) n pos
  lua_rawseti c 1 n .nil
  return some v

/-- Grow the destination table array. -/
def growdestination (c : Call) (tt : ℕ) (t n : ℤ) : LibM Unit := do
  let dst := c.base tt
  let size := ((← get) dst).sizearray
  if 0 < t then
    let last ← checked (Checked.sub 32 t 1)
    if last ≤ size then
      let nasize ← checked (Checked.add 32 last n)
      if size < nasize then resizearray c dst nasize

/-- `tt` is the position of the destination table. -/
def tmove (c : Call) (tt : ℕ) (f e t : ℤ) : LibM GCPtr := do
  if f ≤ e then -- otherwise, nothing to move
    if ¬0 < f then
      argcheck (e < (← checked (Checked.add 32 INT_MAX f))) 3 "too many elements to move"
    let n ← checked (count f e) -- number of elements to move
    argcheck (t ≤ (← checked (do Checked.add 32 (← Checked.sub 32 INT_MAX n) 1))) 4 "destination wrap around"
    if c.readonly (c.base tt) then throw .readonly
    growdestination c tt t n
    moveelements c 1 tt f e t
  return c.base tt

end Luwu.TabLib
