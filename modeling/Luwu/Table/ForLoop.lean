import Luwu.Table.Traversal
import Luwu.Lib.Lockstep
import Luwu.Lib.Run

/-!
# Generic loops

A for-in loop over a table, prepared by one of three instructions and stepped by `FORGLOOP`.  The built-in path keeps a
position in its control register, where the path that calls `next` or `inext` keeps the key of the last entry.
-/

namespace Luwu

open Lockstep

/-! ### The registers of a loop -/

/-- The registers `ra`, `ra + 1` and `ra + 2` -/
structure ForRegs where
  generator : TValue
  state : TValue
  control : TValue
  deriving DecidableEq

namespace TValue

/-- `ttistable` -/
def istable : TValue → Bool
  | gc .table _ => true
  | _ => false

/-- `ttisfunction` -/
def isfunction : TValue → Bool
  | gc .function _ => true
  | _ => false

end TValue

def LU_TAG_ITERATOR : BitVec 32 := 128

/-- The control register of the built-in path -/
def iterator (index : ℕ) : TValue := .lightuserdata (BitVec.ofNat 64 index) LU_TAG_ITERATOR

/-- `int(reinterpret_cast<uintptr_t>(pvalue(ra + 2)))`, read as unsigned -/
def iteratorIndex : TValue → ℕ
  | .lightuserdata p _ => p.toNat % 2 ^ 32
  | _ => 0

/-! ### Preparation -/

/-- What `FORGPREP` asks of metatables -/
structure IterMethods where
  /-- `__iter` of a value, and for an object the error if it has none -/
  iter : TValue → Except TableError (Option TValue)
  /-- `__call` of a value -/
  callable : TValue → Bool
  /-- The three results of calling `__iter` -/
  calliter : TValue → TValue → ForRegs

def typeerror (what : String) : TableError := .runerror ("attempt to " ++ what)

/-- `LOP_FORGPREP` -/
def forgprep (m : IterMethods) (r : ForRegs) : Except TableError ForRegs :=
  if r.generator.isfunction then .ok r
  else do
    match ← m.iter r.generator with
    | some fn =>
      let r := m.calliter fn r.generator
      -- nil marks built-in iteration
      if r.generator.isNil then .error (typeerror "call") else .ok r
    | none =>
      if m.callable r.generator then .ok r
      else if r.generator.istable then .ok ⟨.nil, r.generator, iterator 0⟩
      else .error (typeerror "iterate over")

/-- `LOP_FORGPREP_NEXT` -/
def forgprepNext (safeenv : Bool) (r : ForRegs) : Except TableError ForRegs :=
  if safeenv && r.state.istable && r.control.isNil then .ok ⟨.nil, r.state, iterator 0⟩
  else if r.generator.isfunction then .ok r
  else .error (typeerror "iterate over")

/-- `ttisnumber(o) && nvalue(o) == 0.0` -/
def isZero : TValue → Bool
  | .number n => n.eq (cast_num 0)
  | _ => false

/-- `LOP_FORGPREP_INEXT` -/
def forgprepInext (safeenv : Bool) (r : ForRegs) : Except TableError ForRegs :=
  if safeenv && r.state.istable && isZero r.control then .ok ⟨.nil, r.state, iterator 0⟩
  else if r.generator.isfunction then .ok r
  else .error (typeerror "iterate over")

/-! ### Calls -/

/-- `luaB_next` on its table -/
def luaB_next (E : Env) (t : LuaTable) (key : TValue) : Except TableError (List TValue) := do
  match ← luaH_next E t key with
  | some (k, v) => return [k, v]
  | none => return [.nil]

/-- `lua_rawgeti` -/
def rawgeti (t : LuaTable) (i : ℤ) : TValue :=
  match luaH_getnum t i with
  | some s => t.slotGet s
  | none => .nil

/-- `luaL_checkinteger`, on the numbers that a loop passes on -/
def checkinteger : TValue → Except TableError ℤ
  | .number n => .ok (luai_num2int n)
  | _ => .error (.runerror "invalid argument #2")

/-- `luaB_inext` on its table -/
def luaB_inext (t : LuaTable) (key : TValue) : Except TableError (List TValue) := do
  let i ← checkinteger key
  let i := i + 1
  let v := rawgeti t i
  if v.isNil then return [] else return [.number (cast_num i), v]

/-- The two functions of the library -/
structure Builtins where
  next : GCPtr
  inext : GCPtr
  distinct : next ≠ inext

/-- `luaD_call` of one of them -/
def callBuiltin (B : Builtins) (E : Env) (t : LuaTable) (r : ForRegs) : Except TableError (List TValue) :=
  if !r.state.istable then .error (.runerror "invalid argument #1")
  else if r.generator = .gc .function B.next then luaB_next E t r.control
  else if r.generator = .gc .function B.inext then luaB_inext t r.control
  else .error (typeerror "call")

/-! ### The loop -/

/-- The registers from `ra + 3` on -/
abbrev LoopVars := ℕ → TValue

/-- `aux`: the number of variables, and the bit of `ipairs` -/
def forgloopAux (ipairs : Bool) (n : ℕ) : BitVec 32 := (if ipairs then 0x80000000 else 0) ||| BitVec.ofNat 32 n

/-- The built-in path of `LOP_FORGLOOP`; nothing when the loop ends. -/
def forgloopTable (t : LuaTable) (aux : BitVec 32) (r : ForRegs) (vars : LoopVars) : Option (LoopVars × ForRegs) :=
  let index := iteratorIndex r.control
  -- the variables beyond the second
  let vars : LoopVars := fun j => if 2 < aux.toInt ∧ 2 ≤ j ∧ (j : ℤ) < aux.toInt then .nil else vars j
  if aux.toInt < 0 ∧ (t.sizearray ≤ index ∨ t.arr index = .nil) then none
  else
    match scan (fun i => !(t.arr i).isNil) (t.sizearray - index) index with
    | some i =>
      some (fun j => if j = 0 then .number (cast_num ((i : ℤ) + 1)) else if j = 1 then t.arr i else vars j,
        { r with control := iterator (i + 1) })
    | none =>
      match scan (fun i => !(t.gval i).isNil) (t.sizenode - (index - t.sizearray)) (index - t.sizearray) with
      | some i =>
        some (fun j => if j = 0 then t.gkey i else if j = 1 then t.gval i else vars j,
          { r with control := iterator (i + t.sizearray + 1) })
      | none => none

/-- The path of `LOP_FORGLOOP` that calls the generator -/
def forgloopCall (B : Builtins) (E : Env) (t : LuaTable) (aux : BitVec 32) (r : ForRegs) (vars : LoopVars) :
    Except TableError (Option (LoopVars × ForRegs)) := do
  let results ← callBuiltin B E t r
  -- the results are adjusted to the number of variables; behind them stand the arguments of the call
  let vars : LoopVars := fun j =>
    if j < (aux.setWidth 8).toNat then results.getD j .nil
    else if j = 0 then r.generator else if j = 1 then r.state else if j = 2 then r.control else vars j
  if (vars 0).isNil then return none else return some (vars, { r with control := vars 0 })

/-- `LOP_FORGLOOP` -/
def forgloop (B : Builtins) (E : Env) (t : LuaTable) (aux : BitVec 32) (r : ForRegs) (vars : LoopVars) :
    Except TableError (Option (LoopVars × ForRegs)) :=
  if r.generator.isNil && r.state.istable then .ok (forgloopTable t aux r vars) else forgloopCall B E t aux r vars

/-- The values of the `n` variables of a loop -/
def bound (n : ℕ) (vars : LoopVars) : List TValue := (List.range n).map vars

/-- A turn of a loop: the values that its `n` variables are bound to, and the registers for the next turn -/
def turn (B : Builtins) (ipairs : Bool) (n : ℕ) (E : Env) (t : LuaTable) (vars : LoopVars) (r : ForRegs) :
    Except TableError (Option (List TValue × ForRegs)) :=
  (forgloop B E t (forgloopAux ipairs n) r vars).map fun result => result.map fun next => (bound n next.1, next.2)

/-- A key and a value, with nil for the variables beyond the second -/
def pairVars (n : ℕ) (k v : TValue) : List TValue := bound n fun j => [k, v].getD j .nil

/-! ### One turn -/

section Turn

variable {B : Builtins} {E : Env} {t : LuaTable} {vars : LoopVars} {n q : ℕ} {p : GCPtr} {key : TValue}

theorem pairVars_head (hn : 1 ≤ n) (k v : TValue) : (pairVars n k v).head? = some k := by
  obtain ⟨n, rfl⟩ : ∃ j, n = j + 1 := ⟨n - 1, by omega⟩
  unfold pairVars bound
  rw [List.range_succ_eq_map]
  rfl

theorem iteratorIndex_iterator (hq : q < 2 ^ 32) : iteratorIndex (iterator q) = q := by
  show (BitVec.ofNat 64 q).toNat % 2 ^ 32 = q
  rw [BitVec.toNat_ofNat]
  omega

theorem forgloopAux_pairs (hn : n < 256) :
    (forgloopAux false n).toInt = n ∧ ((forgloopAux false n).setWidth 8).toNat = n := by
  have haux : forgloopAux false n = BitVec.ofNat 32 n := by
    unfold forgloopAux
    rw [if_neg Bool.false_ne_true]
    exact BitVec.zero_or
  rw [haux]
  constructor
  · rw [BitVec.toInt_eq_toNat_of_lt (by rw [BitVec.toNat_ofNat]; omega), BitVec.toNat_ofNat]
    omega
  · rw [BitVec.toNat_setWidth, BitVec.toNat_ofNat]
    omega

theorem forgloopAux_ipairs (hn : n ≤ 2) :
    (forgloopAux true n).toInt < 0 ∧ ((forgloopAux true n).setWidth 8).toNat = n := by
  match n, hn with
  | 0, _ => decide
  | 1, _ => decide
  | 2, _ => decide

/-- The two loops of the built-in path find the next position in use. -/
theorem forgloopTable_eq (t : LuaTable) (aux : BitVec 32) (r : ForRegs) (vars : LoopVars) :
    forgloopTable t aux r vars =
      if aux.toInt < 0 ∧ (t.sizearray ≤ iteratorIndex r.control ∨ t.arr (iteratorIndex r.control) = .nil) then none
      else (nextpos t (iteratorIndex r.control)).map fun i =>
        (fun (j : ℕ) => if j = 0 then posKey t i else if j = 1 then posVal t i
          else if 2 < aux.toInt ∧ 2 ≤ j ∧ (j : ℤ) < aux.toInt then .nil else vars j,
        { r with control := iterator (i + 1) }) := by
  unfold forgloopTable
  simp only
  split
  · rfl
  · unfold nextpos
    cases harr : scan (fun i => !(t.arr i).isNil) (t.sizearray - iteratorIndex r.control) (iteratorIndex r.control) with
    | some i =>
      obtain ⟨h1, h2, -, -⟩ := scan_some harr
      obtain ⟨hkey, hval⟩ := posKey_array (t := t) (i := i) (by omega)
      simp only [Option.map_some, hkey, hval]
    | none =>
      cases scan (fun i => !(t.gval i).isNil) (t.sizenode - (iteratorIndex r.control - t.sizearray))
          (iteratorIndex r.control - t.sizearray) with
      | some i =>
        obtain ⟨hkey, hval⟩ := posKey_node t i
        simp only [Option.map_some, hkey, hval]
      | none => rfl

/-- A turn of the built-in path binds the entry at the next position in use. -/
theorem turn_table (hn : n < 256) (hq : q < 2 ^ 32) :
    turn B false n E t vars ⟨.nil, .gc .table p, iterator q⟩ =
      .ok ((nextpos t q).map fun i => (pairVars n (posKey t i) (posVal t i), ⟨.nil, .gc .table p, iterator (i + 1)⟩)) := by
  obtain ⟨hint, -⟩ := forgloopAux_pairs hn
  unfold turn forgloop
  show Except.ok ((forgloopTable t _ _ vars).map _) = _
  rw [forgloopTable_eq, iteratorIndex_iterator hq, hint, if_neg fun h => absurd h.1 (by omega), Option.map_map]
  congr 2
  funext i
  show (bound n _, _) = _
  congr 1
  unfold pairVars bound
  apply List.map_congr_left
  intro j hj
  have hjn := List.mem_range.mp hj
  match j, hjn with
  | 0, _ => rfl
  | 1, _ => rfl
  | j + 2, hjn =>
    show (if _ ∧ _ ∧ _ then TValue.nil else _) = TValue.nil
    rw [if_pos ⟨by omega, by omega, by exact_mod_cast hjn⟩]

/-- A turn of the path that calls binds the results of the call. -/
theorem turn_call {g : TValue} {ipairs : Bool} (hg : g.isNil = false)
    (hn : ((forgloopAux ipairs n).setWidth 8).toNat = n) (hn' : 1 ≤ n) {results : List TValue}
    (hcall : callBuiltin B E t ⟨g, .gc .table p, key⟩ = .ok results) :
    turn B ipairs n E t vars ⟨g, .gc .table p, key⟩ =
      .ok (if (results.getD 0 .nil).isNil then none
        else some (bound n (fun j => results.getD j .nil), ⟨g, .gc .table p, results.getD 0 .nil⟩)) := by
  have hbound : ∀ f : LoopVars, bound n (fun j => if j < n then results.getD j .nil else f j) =
      bound n fun j => results.getD j .nil := by
    intro f
    unfold bound
    apply List.map_congr_left
    intro j hj
    rw [if_pos (List.mem_range.mp hj)]
  unfold turn forgloop forgloopCall
  rw [hg, Bool.false_and, if_neg Bool.false_ne_true, hcall, hn]
  simp only [bind, Except.bind]
  rw [if_pos (show 0 < n by omega)]
  split
  · rfl
  · show Except.ok (some (bound n _, _)) = _
    rw [hbound]

theorem callBuiltin_next : callBuiltin B E t ⟨.gc .function B.next, .gc .table p, key⟩ = luaB_next E t key :=
  (if_neg Bool.false_ne_true).trans (if_pos rfl)

theorem callBuiltin_inext : callBuiltin B E t ⟨.gc .function B.inext, .gc .table p, key⟩ = luaB_inext t key := by
  have hne : ¬(.gc .function B.inext : TValue) = .gc .function B.next := by
    intro h
    injection h with _ h
    exact B.distinct h.symm
  exact (if_neg Bool.false_ne_true).trans ((if_neg hne).trans (if_pos rfl))

theorem turn_next (hn : n < 256) (hn' : 1 ≤ n) (hnil : ∀ i, nextpos t q = some i → posKey t i ≠ .nil)
    (hnext : luaH_next E t key = .ok ((nextpos t q).map fun i => (posKey t i, posVal t i))) :
    turn B false n E t vars ⟨.gc .function B.next, .gc .table p, key⟩ =
      .ok ((nextpos t q).map fun i =>
        (pairVars n (posKey t i) (posVal t i), ⟨.gc .function B.next, .gc .table p, posKey t i⟩)) := by
  have hcall := @callBuiltin_next B E t p key
  unfold luaB_next at hcall
  rw [hnext] at hcall
  cases hpos : nextpos t q with
  | none =>
    rw [hpos] at hcall
    rw [turn_call rfl (forgloopAux_pairs hn).2 hn' hcall]
    rfl
  | some i =>
    rw [hpos] at hcall
    have hkey : (posKey t i).isNil = false := TValue.isNil_eq_false_iff.mpr (hnil i hpos)
    rw [turn_call rfl (forgloopAux_pairs hn).2 hn' hcall]
    show Except.ok (if (posKey t i).isNil then none else _) = _
    rw [hkey, if_neg Bool.false_ne_true]
    rfl

/-- The position `q` of `ipairs` is at most the size of the array part, or the next integer has no entry. -/
def Covered (E : Env) (t : LuaTable) (q : ℕ) : Prop :=
  q ≤ t.sizearray ∨ lookup E t (.number (cast_num ((q : ℤ) + 1))) = .nil

theorem rawgeti_eq_lookup {i : ℤ} (hi : -2 ^ 31 ≤ i ∧ i < 2 ^ 31) : rawgeti t i = lookup E t (.number (cast_num i)) := by
  have hself : (cast_num i).eq (cast_num i) = true := Double.eq_refl (Double.ofInt_not_nan (natAbs_lt_of_int hi))
  have hget : luaH_get E t (.number (cast_num i)) = luaH_getnum t i := by
    unfold luaH_get
    simp only [luai_num2int_cast_num hi, hself, if_true]
  unfold rawgeti lookup
  rw [hget]
  cases luaH_getnum t i <;> rfl

/-- Inside the array part the entry is the one of the slot. -/
theorem lookup_array (h : Inv E t) (hq : q < t.sizearray) :
    lookup E t (.number (cast_num ((q : ℤ) + 1))) = t.arr q := by
  have hM : MAXSIZE = 2 ^ 26 := rfl
  have hmax := h.sizeMax
  have hvalid : (TValue.number (cast_num ((q : ℤ) + 1))).ValidKey :=
    validKey_of_isNumberEq (isNumberEq_cast_num (by omega))
  by_cases hnil : t.arr q = .nil
  · rw [hnil, h.lookup_eq_nil_iff hvalid]
    intro v hv
    obtain ⟨hne, hval⟩ := (holds_int h hq).mp hv
    exact hne (hval.symm.trans hnil)
  · exact (h.lookup_eq_iff hvalid hnil).mpr ((holds_int h hq).mpr ⟨hnil, rfl⟩)

/-- Behind the array part there is no entry. -/
theorem lookup_boundary (h : Inv E t) : lookup E t (.number (cast_num ((t.sizearray : ℤ) + 1))) = .nil := by
  have hM : MAXSIZE = 2 ^ 26 := rfl
  have hmax := h.sizeMax
  have heq : isNumberEq (.number (cast_num ((t.sizearray : ℤ) + 1))) (t.sizearray + 1) = true :=
    isNumberEq_cast_num (by omega)
  rw [h.lookup_eq_nil_iff (validKey_of_isNumberEq heq)]
  exact fun v hv => h.boundary_absent heq hv

/-- A turn of the path that calls `inext` -/
theorem turn_inext (hn : n ≤ 2) (hn' : 1 ≤ n) (hq : q ≤ MAXSIZE) :
    turn B true n E t vars ⟨.gc .function B.inext, .gc .table p, .number (cast_num q)⟩ =
      .ok (if lookup E t (.number (cast_num ((q : ℤ) + 1))) = .nil then none
        else some (pairVars n (.number (cast_num ((q : ℤ) + 1))) (lookup E t (.number (cast_num ((q : ℤ) + 1)))),
          ⟨.gc .function B.inext, .gc .table p, .number (cast_num ((q : ℤ) + 1))⟩)) := by
  have hM : MAXSIZE = 2 ^ 26 := rfl
  have hint : luai_num2int (cast_num (q : ℤ)) = q := luai_num2int_cast_num (by omega)
  have hvalue : rawgeti t ((q : ℤ) + 1) = lookup E t (.number (cast_num ((q : ℤ) + 1))) := rawgeti_eq_lookup (by omega)
  have hcall := @callBuiltin_inext B E t p (.number (cast_num q))
  unfold luaB_inext checkinteger at hcall
  simp only [bind, Except.bind, hint, hvalue] at hcall
  by_cases hnil : lookup E t (.number (cast_num ((q : ℤ) + 1))) = .nil
  · rw [if_pos (TValue.isNil_iff.mpr hnil)] at hcall
    rw [turn_call rfl (forgloopAux_ipairs hn).2 hn' hcall, if_pos hnil]
    rfl
  · rw [if_neg fun h => hnil (TValue.isNil_iff.mp h)] at hcall
    rw [turn_call rfl (forgloopAux_ipairs hn).2 hn' hcall, if_neg hnil]
    rfl

/-- A turn of the built-in path for `ipairs` ends with the array part. -/
theorem turn_array (hn : n ≤ 2) (hq : q < 2 ^ 32) :
    turn B true n E t vars ⟨.nil, .gc .table p, iterator q⟩ =
      .ok (if t.sizearray ≤ q ∨ t.arr q = .nil then none
        else some (pairVars n (.number (cast_num ((q : ℤ) + 1))) (t.arr q), ⟨.nil, .gc .table p, iterator (q + 1)⟩)) := by
  obtain ⟨hint, -⟩ := forgloopAux_ipairs hn
  unfold turn forgloop
  show Except.ok ((forgloopTable t _ _ vars).map _) = _
  rw [forgloopTable_eq, iteratorIndex_iterator hq]
  by_cases hend : t.sizearray ≤ q ∨ t.arr q = .nil
  · rw [if_pos ⟨hint, hend⟩, if_pos hend]
    rfl
  · rw [if_neg fun h => hend h.2, if_neg hend]
    obtain ⟨hlt, hne⟩ := not_or.mp hend
    obtain ⟨hkey, hval⟩ := posKey_array (not_le.mp hlt)
    have hpos : nextpos t q = some q := by
      rcases nextpos_spec t q with ⟨r, hqr, -, -, hskip, hpos⟩ | ⟨hskip, -⟩
      · rcases Nat.lt_or_eq_of_le hqr with hless | rfl
        · exact absurd (hval.symm.trans (hskip q le_rfl hless)) hne
        · exact hpos
      · have hlt' : q < positions t := Nat.lt_of_lt_of_le (not_le.mp hlt) (Nat.le_add_right _ _)
        exact absurd (hval.symm.trans (hskip q le_rfl hlt')) hne
    rw [hpos, Option.map_some, Option.map_some, hkey, hval]
    show Except.ok (some (bound n _, _)) = _
    congr 3
    unfold pairVars bound
    apply List.map_congr_left
    intro j hj
    have hjn := List.mem_range.mp hj
    match j, hjn with
    | 0, _ => rfl
    | 1, _ => rfl
    | j + 2, hjn => omega

/-- **The two paths of `ipairs` agree in a turn exactly when the position is covered.** -/
theorem sameNext_ipairs_iff (h : Inv E t) (hn : n ≤ 2) (hn' : 1 ≤ n) (hq : q ≤ MAXSIZE) :
    SameNext (turn B true n E t vars ⟨.nil, .gc .table p, iterator q⟩)
      (turn B true n E t vars ⟨.gc .function B.inext, .gc .table p, .number (cast_num q)⟩) ↔ Covered E t q := by
  have hM : MAXSIZE = 2 ^ 26 := rfl
  rw [turn_array hn (by omega), turn_inext hn hn' hq]
  unfold Covered
  by_cases hlt : q < t.sizearray
  · refine iff_of_true ?_ (Or.inl hlt.le)
    rw [lookup_array h hlt]
    by_cases hnil : t.arr q = .nil
    · rw [if_pos (Or.inr hnil), if_pos hnil]
      exact Or.inr ⟨rfl, rfl⟩
    · rw [if_neg fun hend => hend.elim (not_le.mpr hlt) hnil, if_neg hnil]
      exact Or.inl ⟨_, _, _, rfl, rfl⟩
  · rw [if_pos (Or.inl (not_lt.mp hlt))]
    by_cases hnil : lookup E t (.number (cast_num ((q : ℤ) + 1))) = .nil
    · rw [if_pos hnil]
      exact iff_of_true (Or.inr ⟨rfl, rfl⟩) (Or.inr hnil)
    · rw [if_neg hnil]
      constructor
      · intro hsame
        rcases hsame with ⟨b, j, j', hx, -⟩ | ⟨-, hy⟩
        · cases hx
        · cases hy
      · intro hcovered
        rcases hcovered with hle | hnil'
        · have heq : q = t.sizearray := by omega
          rw [heq] at hnil
          exact absurd (lookup_boundary h) hnil
        · exact absurd hnil' hnil

theorem callBuiltin_length {r : ForRegs} {results : List TValue} (h : callBuiltin B E t r = .ok results) :
    results.length ≤ 2 := by
  unfold callBuiltin at h
  split_ifs at h
  · unfold luaB_next at h
    obtain ⟨entry, -, h⟩ := Run.of_bind_ok h
    cases entry with
    | some _ =>
      cases h
      exact le_rfl
    | none =>
      cases h
      exact Nat.le_succ 1
  · unfold luaB_inext at h
    obtain ⟨i, -, h⟩ := Run.of_bind_ok h
    simp only at h
    split at h <;> cases h
    · exact Nat.zero_le 2
    · exact le_rfl

/-- **The variables beyond the second are nil.** -/
theorem turn_extra (hn : n < 256) {r r' : ForRegs} {b : List TValue} (h : turn B false n E t vars r = .ok (some (b, r')))
    {j : ℕ} (hj : 2 ≤ j) : b.getD j .nil = .nil := by
  have hbound : ∀ vars' : LoopVars, (j < n → vars' j = .nil) → (bound n vars').getD j .nil = .nil := by
    intro vars' hnil
    unfold bound
    rw [List.getD_eq_getElem?_getD, List.getElem?_map]
    by_cases hjn : j < n
    · rw [List.getElem?_range hjn]
      exact hnil hjn
    · rw [List.getElem?_eq_none (by rw [List.length_range]; omega)]
      rfl
  obtain ⟨hint, hwidth⟩ := forgloopAux_pairs hn
  unfold turn forgloop at h
  split at h
  · rw [forgloopTable_eq, hint] at h
    simp only [Except.map, Except.ok.injEq, Option.map_eq_some_iff, Prod.mk.injEq] at h
    obtain ⟨next, hnext, rfl, -⟩ := h
    split at hnext
    · cases hnext
    · obtain ⟨i, -, rfl⟩ := Option.map_eq_some_iff.mp hnext
      apply hbound
      intro hjn
      show (if j = 0 then _ else if j = 1 then _ else if _ then _ else _) = _
      rw [if_neg (by omega), if_neg (by omega), if_pos ⟨by omega, hj, by exact_mod_cast hjn⟩]
  · obtain ⟨next, hcall, hnext⟩ := Run.of_map_ok h
    obtain ⟨⟨vars', r''⟩, rfl, heq⟩ := Option.map_eq_some_iff.mp hnext
    cases heq
    unfold forgloopCall at hcall
    obtain ⟨results, hresults, hcall⟩ := Run.of_bind_ok hcall
    have hlength := callBuiltin_length hresults
    have hvars : ∀ V : LoopVars, (if (V 0).isNil then return none else return some (V, { r with control := V 0 }) :
        Except TableError (Option (LoopVars × ForRegs))) = .ok (some (vars', r'')) → V = vars' := by
      intro V hV
      split at hV <;> cases hV
      rfl
    rw [← hvars (fun j =>
      if j < ((forgloopAux false n).setWidth 8).toNat then results.getD j .nil
      else if j = 0 then r.generator else if j = 1 then r.state else if j = 2 then r.control else vars j) hcall]
    apply hbound
    intro hjn
    show (if j < ((forgloopAux false n).setWidth 8).toNat then _ else _) = _
    rw [hwidth, if_pos hjn, List.getD_eq_getElem?_getD, List.getElem?_eq_none (by omega)]
    rfl

end Turn

/-! ### Runs -/


section Runs

variable {B : Builtins} {E E₀ : Env} {t t₀ : LuaTable} {n : ℕ} {p : GCPtr}

/-- The heap, the table and the registers of the variables, which the body may overwrite. -/
structure LoopWorld where
  env : Env
  table : LuaTable
  vars : LoopVars

/-- The body of a loop over all entries: it assigns existing keys, and the collector runs. The key of the turn stays
alive. -/
def AssignsExisting (b : List TValue) (w w' : LoopWorld) : Prop :=
  Relation.ReflTransGen (fun x y : Env × LuaTable => Between (b.headD .nil) x.1 x.2 y.1 y.2) (w.env, w.table)
    (w'.env, w'.table)

theorem Frozen.body {key : TValue} (h : Frozen E₀ t₀ E t key) {x : Env × LuaTable}
    (hbody : Relation.ReflTransGen (fun x y : Env × LuaTable => Between key x.1 x.2 y.1 y.2) (E, t) x) :
    Frozen E₀ t₀ x.1 x.2 key := by
  induction hbody with
  | refl => exact h
  | tail _ hb ih => exact ih.between hb

/-- The built-in path is at the position behind the entry whose key the other path holds. -/
structure AtEntry (E₀ : Env) (t₀ : LuaTable) (B : Builtins) (p : GCPtr) (w : LoopWorld) (r r' : ForRegs) (key : TValue)
    (q : ℕ) : Prop where
  frozen : Frozen E₀ t₀ w.env w.table key
  cursor : CursorAt t₀ key q
  inside : q ≤ positions t₀
  fast : r = ⟨.nil, .gc .table p, iterator q⟩
  slow : r' = ⟨.gc .function B.next, .gc .table p, key⟩

theorem positions_lt (h : Inv E t) : positions t < 2 ^ 32 := by
  have hM : MAXSIZE = 2 ^ 26 := rfl
  have hmax := h.sizeMax
  have hbits : t.lsizenode ≤ 26 := by
    by_cases hnode : t.node = none
    · rw [h.dummySize hnode]
      omega
    · exact (h.nodeSize hnode).2
  have hsize : t.sizenode ≤ 2 ^ 26 := Nat.pow_le_pow_right (by omega) hbits
  unfold positions
  omega

theorem posKey_ne_nil (h : Inv E t) {i : ℕ} (hi : posVal t i ≠ .nil) : posKey t i ≠ .nil := by
  unfold posKey
  unfold posVal at hi
  split
  · exact nofun
  · next hge =>
    rw [if_neg hge] at hi
    exact (h.keyed_of_val hi).ne_nil

theorem linked_next (h₀ : Inv E₀ t₀) (hd : DeadBehind E₀ t₀) (ha : DistinctAddresses t₀) (hn : n < 256) (hn' : 1 ≤ n) :
    Linked (fun w r => turn B false n w.env w.table w.vars r) (fun w r => turn B false n w.env w.table w.vars r)
      AssignsExisting fun w r r' => ∃ key q, AtEntry E₀ t₀ B p w r r' key q := by
  intro w r r' ⟨key, q, hf, hc, hin, hr, hr'⟩
  have hM : MAXSIZE = 2 ^ 26 := rfl
  have hpositions := positions_lt h₀
  have hpos : positions w.table = positions t₀ := by
    unfold positions LuaTable.sizenode
    rw [hf.sizearray, hf.lsizenode]
  have hspec := nextpos_spec w.table q
  have hnext := luaH_next_eq (findindex_spec h₀ hd ha hf hc)
  have hkey : ∀ i, nextpos w.table q = some i → posKey w.table i ≠ .nil := by
    intro i hi
    rcases hspec with ⟨r, -, -, hused, -, hr⟩ | ⟨-, hnone⟩
    · cases hr.symm.trans hi
      exact posKey_ne_nil hf.inv hused
    · cases hnone.symm.trans hi
  simp only [hr, hr', turn_table (B := B) (E := w.env) (t := w.table) (p := p) hn (show q < 2 ^ 32 by omega),
    turn_next hn hn' hkey hnext]
  rcases hspec with ⟨i, -, hip, hused, -, hi⟩ | ⟨-, hi⟩
  · rw [hi]
    refine Or.inl ⟨_, _, _, rfl, rfl, fun w' hbody => ?_⟩
    have hmove := hf.move hused
    refine ⟨posKey w.table i, i + 1, ?_, cursorAt_posKey hf hused, by omega, rfl, rfl⟩
    have hhead : (pairVars n (posKey w.table i) (posVal w.table i)).headD .nil = posKey w.table i := by
      rw [List.headD_eq_head?_getD, pairVars_head hn']
      rfl
    unfold AssignsExisting at hbody
    rw [hhead] at hbody
    exact hmove.body hbody
  · rw [hi]
    exact Or.inr ⟨rfl, rfl⟩

/-- The body of an `ipairs` loop: any operations on the table, after which the position of the loop is covered. -/
def KeepsCovered (b : List TValue) (w w' : World × LoopVars) : Prop :=
  (∃ ops, TableOp.Contracts w.1 ops ∧ w'.1 = TableOp.run w.1 ops) ∧
    ∀ q ≤ MAXSIZE, b.head? = some (.number (cast_num q)) → Covered w'.1.env w'.1.table q

/-- The built-in path is at the number that the other path holds. -/
structure AtInteger (B : Builtins) (p : GCPtr) (w : World × LoopVars) (r r' : ForRegs) (q : ℕ) : Prop where
  simulates : Simulates w.1
  roomy : w.1.env.Roomy
  small : q ≤ MAXSIZE
  covered : Covered w.1.env w.1.table q
  fast : r = ⟨.nil, .gc .table p, iterator q⟩
  slow : r' = ⟨.gc .function B.inext, .gc .table p, .number (cast_num q)⟩

theorem linked_inext (hn : n ≤ 2) (hn' : 1 ≤ n) :
    Linked (fun (w : World × LoopVars) r => turn B true n w.1.env w.1.table w.2 r)
      (fun w r => turn B true n w.1.env w.1.table w.2 r) KeepsCovered fun w r r' => ∃ q, AtInteger B p w r r' q := by
  intro w r r' ⟨q, hs, hroomy, hsmall, hcovered, hr, hr'⟩
  have hM : MAXSIZE = 2 ^ 26 := rfl
  have hinv := hs.wf.inv
  have hmax := hinv.sizeMax
  have hfast := @turn_array B w.1.env w.1.table w.2 _ _ p hn (show q < 2 ^ 32 by omega)
  have hslow := @turn_inext B w.1.env w.1.table w.2 _ _ p hn hn' hsmall
  simp only [hr, hr', hfast, hslow]
  by_cases hmore : w.1.table.sizearray ≤ q ∨ w.1.table.arr q = .nil
  · have hend : lookup w.1.env w.1.table (.number (cast_num ((q : ℤ) + 1))) = .nil := by
      rcases hcovered with hle | hnil
      · rcases hmore with hge | hnil
        · rw [Nat.le_antisymm hle hge]
          exact lookup_boundary hinv
        · by_cases hlt : q < w.1.table.sizearray
          · rw [lookup_array hinv hlt, hnil]
          · rw [Nat.le_antisymm hle (not_lt.mp hlt)]
            exact lookup_boundary hinv
      · exact hnil
    rw [if_pos hmore, if_pos hend]
    exact Or.inr ⟨rfl, rfl⟩
  · obtain ⟨hlt, hne⟩ := not_or.mp hmore
    have hvalue := lookup_array (E := w.1.env) hinv (not_le.mp hlt)
    rw [if_neg hmore, hvalue, if_neg hne]
    refine Or.inl ⟨_, _, _, rfl, rfl, fun w' hbody => ?_⟩
    obtain ⟨⟨ops, hcontracts, hops⟩, hafter⟩ := hbody
    obtain ⟨hs', hroomy'⟩ := run_simulates hroomy ops hcontracts hs
    have hcast : ((q + 1 : ℕ) : ℤ) = (q : ℤ) + 1 := Nat.cast_succ q
    refine ⟨q + 1, hops ▸ hs', hops ▸ hroomy', by omega, ?_, rfl, by rw [hcast]⟩
    apply hafter (q + 1) (by omega)
    rw [pairVars_head hn', hcast]

/-- Three elements, in an array part with a place for a fourth -/
def threeOps : List TableOp :=
  [.setnum 1 (.boolean true), .setnum 2 (.boolean true), .setnum 3 (.boolean true)]

def sampleBuiltins : Builtins := ⟨1, 2, by decide⟩

end Runs

end Luwu
