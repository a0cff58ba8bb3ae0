import Luwu.Table.Boundary

/-!
# A table is a finite map

`KeyMap` is the abstract map, from keys up to raw equality to values, with nil for "no entry".  `TableOp`
is the interface of the table code together with what the collector does to a table between its
operations: `removeentry` marks the key of an entry without a value dead, and `reuse` gives the address of
an object that is gone to a new string.  `TableOp.exec` runs one operation of the code, and
`TableOp.assign` is its effect on the abstract map.  An operation that raises an error has no effect on
the map.

The size arguments of `luaH_resizearray` and `luaH_resizehash` are part of the contract: `resize` asserts
that the migration does not rehash recursively, so the new hash part must have room for the entries that
do not fit the new array part (`LuaTable.Fits`).  Both callers see to it: arrays are only ever asked to
grow (`fits_of_grow`), and the hash part is resized to its number of entries (`fits_live`).

`Simulates` is the refinement relation: well-formed, and `luaH_get` computes the abstract map.  Every
operation preserves it (`step_simulates`), hence every run does.
-/

namespace Luwu

/-- The abstract map. -/
abbrev KeyMap := TValue → TValue

/-- `m[k] = v`: keys are compared by raw equality. -/
def KeyMap.assign (m : KeyMap) (k v : TValue) : KeyMap := fun k' =>
  if luaO_rawequalObj k k' then v else m k'

inductive TableOp
  | set (k v : TValue)
  | setnum (i : ℤ) (v : TValue)
  | setstr (s : GCPtr) (v : TValue)
  | resizearray (n : ℕ)
  | resizehash (n : ℕ)
  | clone
  | clear
  | getn
  | removeentry (i : ℕ)
  | reuse (strhash : GCPtr → BitVec 32)

/-- A store through the slot that an operation of the `luaH_set` family returns. -/
def storeThrough (slot : TableM Slot) (v : TValue) : TableM Unit := do
  let s ← slot
  modify (·.slotSet v s)

/-- A run keeps the heap the table sees, the table, and the abstract map. -/
structure World where
  env : Env
  table : LuaTable
  map : KeyMap

/-- The hash part has room for the entries outside the array part, so that migrating them does not
rehash. -/
def LuaTable.Fits (t : LuaTable) (nasize nhsize : ℕ) : Prop := t.outside nasize ≤ capacity nhsize

/-- The size of the hash part, which `luaH_resizearray` keeps. -/
def LuaTable.hashsize (t : LuaTable) : ℕ := if t.node = none then 0 else t.sizenode

namespace TableOp

/-- One operation; after `clone` the run goes on with the copy. -/
def exec (E : Env) : TableOp → TableM Unit
  | set k v => storeThrough (luaH_set E k) v
  | setnum i v => storeThrough (luaH_setnum E i) v
  | setstr s v => storeThrough (luaH_setstr E s) v
  | resizearray n => luaH_resizearray E n
  | resizehash n => luaH_resizehash E n
  | clone => modify clonetable
  | clear => modify luaH_clear
  | getn => modify fun t => (luaH_getn t).2
  | removeentry i => modify (Luwu.removeentry · i)
  | reuse _ => pure ⟨⟩

/-- The effect of an operation on the abstract map. -/
def assign : TableOp → KeyMap → KeyMap
  | set k v, m => m.assign k v
  | setnum i v, m => m.assign (.number (cast_num i)) v
  | setstr s v, m => m.assign (.gc .string s) v
  | clear, _ => fun _ => .nil
  | _, m => m

/-- The effect of an operation on the heap. -/
def heap : TableOp → Env → Env
  | reuse strhash, E => { E with strhash := strhash }
  | _, E => E

/-- What an operation finds when it is called. -/
def Contract (E : Env) (t : LuaTable) : TableOp → Prop
  | set k _ => k.ValidKey
  | setnum i _ => -2 ^ 31 ≤ i ∧ i < 2 ^ 31
  | resizearray n => n < 2 ^ 30 ∧
      ∀ asize, adjustasize t n none = some asize → t.Fits asize t.hashsize
  | resizehash n => t.Fits t.sizearray n
  | removeentry i => t.gval i = .nil ∧ AloneAt t i
  | reuse strhash => SameHashes E { E with strhash := strhash } t
  | _ => True

/-- A step of a run. -/
def step (w : World) (op : TableOp) : World :=
  match op.exec w.env w.table with
  | .ok _ t => ⟨op.heap w.env, t, op.assign w.map⟩
  | .error _ t => ⟨w.env, t, w.map⟩

/-- A run. -/
def run (w : World) (ops : List TableOp) : World := ops.foldl step w

/-- Every operation of a run finds its contract met. -/
def Contracts : World → List TableOp → Prop
  | _, [] => True
  | w, op :: ops => op.Contract w.env w.table ∧ Contracts (step w op) ops

end TableOp

section

variable {E : Env} {t t' : LuaTable} {m : KeyMap}

/-! ### The operations that are not assignments -/

/-- **`luaH_new`** makes an empty table. -/
theorem luaH_new_spec (ha : E.Roomy) {narray nhash : ℕ} (h1 : narray ≤ MAXSIZE) (h2 : nhash ≤ MAXSIZE) :
    ∃ t', luaH_new E narray nhash t = .ok ⟨⟩ t' ∧ Wellformed E t' ∧ DeadBehind E t' ∧
      ∀ k w, ¬ t'.Holds k w := by
  -- both parts are optional: a part of size zero is what the empty table has
  set t' := LuaTable.freshNodes
    { emptyTable with array := List.replicate narray .nil, sizearray := narray } nhash with ht'
  have hfill : Filling E t' := filling_freshNodes (by simp) h1 h2
  refine ⟨t', ?_, ⟨hfill.inv, ?_⟩, hfill.deadBehind, ?_⟩
  · have harray : (if 0 < narray then setarrayvector E narray else pure ⟨⟩ : TableM Unit) emptyTable
        = .ok ⟨⟩ { emptyTable with array := List.replicate narray .nil, sizearray := narray } := by
      by_cases h0 : 0 < narray
      · rw [if_pos h0, setarrayvector_run ha h1]
        rfl
      · rw [if_neg h0, show narray = 0 from by omega]
        rfl
    have hnode : ∀ t₀ : LuaTable, t₀.node = none → t₀.lsizenode = 0 → t₀.lastfree = 0 →
        (if 0 < nhash then setnodevector E nhash else pure ⟨⟩ : TableM Unit) t₀
          = .ok ⟨⟩ (t₀.freshNodes nhash) := by
      intro t₀ hn hl hf
      by_cases h0 : 0 < nhash
      · rw [if_pos h0, setnodevector_run ha h2]
      · rw [if_neg h0, show nhash = 0 from by omega]
        have : t₀.freshNodes 0 = t₀ := by
          unfold LuaTable.freshNodes
          rw [ceillog2_eq, capacity]
          cases t₀
          simp_all
        rw [this]
        rfl
    have hrun : luaH_new E narray nhash t
        = ((if 0 < narray then setarrayvector E narray else pure ⟨⟩ : TableM Unit) >>= fun _ =>
            (if 0 < nhash then setnodevector E nhash else pure ⟨⟩ : TableM Unit)) emptyTable := by
      unfold luaH_new
      rw [TableM.set_bind]
      by_cases h0 : 0 < narray
      · rw [if_pos h0, if_pos h0]
      · rw [if_neg h0, if_neg h0]
        rfl
    rw [hrun, TableM.bind_ok _ harray, hnode _ rfl rfl rfl]
  · show (List.replicate narray TValue.nil).length = narray
    simp
  · rintro k w ⟨hw, s, hs, hget⟩
    cases s with
    | nilobject => exact hs.elim
    | array i =>
      have : t'.arr i = .nil := by
        show (List.replicate narray TValue.nil).getD i .nil = _
        rw [List.getD_eq_getElem?_getD, List.getElem?_replicate]
        split <;> rfl
      exact hw (hget.symm.trans this)
    | node i => exact hw (hget.symm.trans (gval_freshNodes i))

/-- The outcomes of an operation that only resizes: the same map, the error "table overflow", or what an allocation
that failed has left. -/
def Resizes (E : Env) (t : LuaTable) (nasize nhsize : ℕ) (r : EStateM.Result TableError LuaTable Unit) : Prop :=
  (∃ t', r = .ok ⟨⟩ t' ∧ SameMap E t t') ∨ r = .error (.runerror "table overflow") t ∨
    ∃ t', r = .error .errmem t' ∧ Short E t nasize nhsize t'

/-- **`luaH_resizehash`** within its contract. -/
theorem luaH_resizehash_resizes (h : Wellformed E t) {n : ℕ} (hfits : t.Fits t.sizearray n) :
    Resizes E t t.sizearray n (luaH_resizehash E n t) := by
  unfold luaH_resizehash
  rw [TableM.get_bind]
  by_cases hmax : MAXSIZE < t.sizearray ∨ MAXSIZE < n
  · exact Or.inr (Or.inl (resize_overflow _ hmax))
  · rw [not_or, not_lt, not_lt] at hmax
    rcases resize_outcomes h.inv h.full hmax.1 hmax.2 hfits
      (fun k w hk => h.inv.boundary_absent hk) (inserts_newkey E 2) with ⟨t', hrun, hres⟩ | hshort
    · exact Or.inl ⟨t', hrun, hres.sameMap⟩
    · exact Or.inr (Or.inr hshort)

/-- **`luaH_resizearray`** within its contract. -/
theorem luaH_resizearray_resizes (h : Wellformed E t) {n : ℕ} (hn : n < 2 ^ 30)
    (hfits : ∀ asize, adjustasize t n none = some asize → t.Fits asize t.hashsize) :
    ∃ asize, adjustasize t n none = some asize ∧ Resizes E t asize t.hashsize (luaH_resizearray E n t) := by
  have hM : MAXSIZE = 2 ^ 26 := rfl
  obtain ⟨asize, hadj, _, _, _, hstop⟩ := adjustasize_spec h.inv none hn
  refine ⟨asize, hadj, ?_⟩
  have hrun : luaH_resizearray E n t = resize E (newkey E newkeyFuel) asize t.hashsize t := by
    unfold luaH_resizearray
    rw [TableM.get_bind, hadj]
    rfl
  rw [hrun]
  by_cases hmax : MAXSIZE < asize ∨ MAXSIZE < t.hashsize
  · exact Or.inr (Or.inl (resize_overflow _ hmax))
  · rw [not_or, not_lt, not_lt] at hmax
    rcases resize_outcomes h.inv h.full hmax.1 hmax.2 (hfits asize hadj)
      (fun k w hk hh => by
        obtain ⟨k', hmem, hk'⟩ := (h.inv.holds_int_iff (by omega) hk).mp ⟨w, hh⟩
        rw [hstop k' hmem] at hk'
        cases hk') (inserts_newkey E 2) with ⟨t', hrun, hres⟩ | hshort
    · exact Or.inl ⟨t', hrun, hres.sameMap⟩
    · exact Or.inr (Or.inr hshort)

/-- **`luaH_clone`** copies the map: array, nodes and links are the same, and so are the sizes. -/
theorem clonetable_spec (h : Wellformed E t) : SameMap E t (clonetable t) := by
  have hfacts : (clonetable t).array = t.array ∧ (clonetable t).sizearray = t.sizearray ∧
      (clonetable t).node = t.node ∧ (clonetable t).lsizenode = t.lsizenode ∧
      ((clonetable t).lastfree = t.lastfree ∨
        (t.node = none ∧ -(clonetable t).lastfree ≤ t.sizearray ∧ (clonetable t).lastfree ≤ 0)) := by
    unfold clonetable
    dsimp only
    have hab : t.getaboundary ≤ t.sizearray := by
      have := h.inv.aboundary
      unfold LuaTable.getaboundary
      split <;> omega
    have htake : t.array.take t.sizearray = t.array := List.take_of_length_le h.full.le
    have hempty : t.sizearray = 0 → t.array = [] := fun h0 =>
      List.eq_nil_of_length_eq_zero (h.full.trans h0)
    cases hn : t.node with
    | none =>
      by_cases h0 : t.sizearray = 0
      · rw [if_neg (by omega)]
        exact ⟨(hempty h0).symm, h0.symm, rfl, (h.inv.dummySize hn).symm, Or.inr ⟨rfl, by
          show -(0 : ℤ) ≤ _
          omega, le_rfl⟩⟩
      · rw [if_pos h0]
        refine ⟨htake, rfl, rfl, (h.inv.dummySize hn).symm, Or.inr ⟨rfl, ?_, ?_⟩⟩
        · show -(-(t.getaboundary : ℤ)) ≤ _
          omega
        · show -(t.getaboundary : ℤ) ≤ 0
          omega
    | some ns =>
      by_cases h0 : t.sizearray = 0
      · rw [if_neg (by omega)]
        exact ⟨(hempty h0).symm, h0.symm, rfl, rfl, Or.inl rfl⟩
      · rw [if_pos h0]
        exact ⟨htake, rfl, rfl, rfl, Or.inl rfl⟩
  obtain ⟨harr, hsize, hnode, hls, hlf⟩ := hfacts
  have heq : clonetable t = { t with lastfree := (clonetable t).lastfree } := by
    rw [← harr, ← hsize, ← hnode, ← hls]
  rw [heq]
  rcases hlf with hlf | ⟨hn, hb, h0⟩
  · rw [hlf]
    exact SameMap.refl h
  · have hzero : t.nodeCount = 0 := by
      unfold LuaTable.nodeCount
      rw [hn]
      rfl
    refine ⟨⟨{ h.inv with
      freeBelow := fun i hi _ => ?_
      freeMax := ?_
      aboundary := hb }, h.full⟩, fun _ _ _ => Iff.rfl, fun hd => hd⟩
    · have : i < t.nodeCount := hi
      omega
    · show (clonetable t).lastfree ≤ (t.nodeCount : ℤ)
      omega

/-- **`luaH_clear`** empties the map and keeps the sizes. -/
theorem luaH_clear_spec (h : Wellformed E t) :
    Wellformed E (luaH_clear t) ∧ DeadBehind E (luaH_clear t) ∧
      ∀ k w, ¬ (luaH_clear t).Holds k w := by
  set arr := List.replicate t.sizearray TValue.nil with harr
  have hget : ∀ i, arr.getD i .nil = .nil := fun i => by
    rw [List.getD_eq_getElem?_getD, List.getElem?_replicate]
    split <;> rfl
  have hlenarr : arr.length = t.sizearray := by simp [harr]
  -- the nodes are those of a new node vector
  obtain ⟨size, lf, hs, hclear, hlf⟩ : ∃ size lf, size ≤ MAXSIZE ∧
      luaH_clear t = { LuaTable.freshNodes { t with array := arr } size with lastfree := lf } ∧
      (lf = capacity size ∨ (size = 0 ∧ lf ≤ 0 ∧ -lf ≤ t.sizearray)) := by
    unfold luaH_clear LuaTable.maybesetaboundary
    dsimp only
    cases hn : t.node with
    | none =>
      have hls := h.inv.dummySize hn
      have hlog : ceillog2 0 = 0 := by
        rw [ceillog2_eq]
        rfl
      have hmax := h.inv.freeMax
      have hzero : t.nodeCount = 0 := by
        unfold LuaTable.nodeCount
        rw [hn]
        rfl
      have hle : t.lastfree ≤ 0 := by omega
      refine ⟨0, -(0 : ℕ), Nat.zero_le _, ?_, Or.inr ⟨rfl, le_rfl, by omega⟩⟩
      rw [if_pos hle]
      unfold LuaTable.freshNodes
      simp only [if_true, hls, hlog]
      rfl
    | some ns =>
      have hne : t.node ≠ none := by simp [hn]
      obtain ⟨hcount, hbits⟩ := h.inv.nodeSize hne
      have hcap : capacity t.sizenode = t.sizenode := by
        unfold capacity LuaTable.sizenode
        rw [if_neg (by positivity), ceillog2_eq, Nat.clog_pow _ _ (by norm_num)]
      have hlog : ceillog2 t.sizenode = t.lsizenode := by
        unfold LuaTable.sizenode
        rw [ceillog2_eq, Nat.clog_pow _ _ (by norm_num)]
      have hpos : t.sizenode ≠ 0 := by
        unfold LuaTable.sizenode
        positivity
      refine ⟨t.sizenode, t.sizenode, h.inv.sizenode_le, ?_, Or.inl (by rw [hcap])⟩
      unfold LuaTable.freshNodes
      simp only [hpos, if_false, hcap, hlog]
      by_cases hle : t.lastfree ≤ 0
      · rw [if_pos hle]
        rfl
      · rw [if_neg hle]
        rfl
  have hfill : Filling E (LuaTable.freshNodes { t with array := arr } size) :=
    filling_freshNodes hlenarr.ge h.inv.sizeMax hs
  rw [hclear]
  have hzero : size = 0 → (LuaTable.freshNodes { t with array := arr } size).nodeCount = 0 := by
    intro h0
    rw [nodeCount_freshNodes, h0]
    rfl
  refine ⟨⟨{ hfill.inv with
    freeBelow := fun i hi hle => ?_
    freeMax := ?_
    aboundary := ?_ }, hlenarr⟩, fun a b p h1 h2 h3 => hfill.deadBehind a b p h1 h2 h3, ?_⟩
  · have hi' : i < (LuaTable.freshNodes { t with array := arr } size).nodeCount := hi
    have hle' : lf ≤ (i : ℤ) := hle
    rw [nodeCount_freshNodes] at hi'
    rcases hlf with rfl | ⟨h0, _, _⟩
    · omega
    · rw [h0] at hi'
      exact absurd hi' (Nat.not_lt_zero _)
  · show lf ≤ ((LuaTable.freshNodes { t with array := arr } size).nodeCount : ℤ)
    rw [nodeCount_freshNodes]
    rcases hlf with rfl | ⟨_, h0, _⟩
    · exact le_rfl
    · omega
  · show -lf ≤ (t.sizearray : ℤ)
    rcases hlf with rfl | ⟨_, _, hb⟩
    · omega
    · exact hb
  · rintro k w ⟨hw, s, hsl, hgets⟩
    cases s with
    | nilobject => exact hsl.elim
    | array i => exact hw (hgets.symm.trans (hget i))
    | node i =>
      have hnil : (LuaTable.freshNodes { t with array := arr } size).gval i = .nil :=
        gval_freshNodes i
      exact hw (hgets.symm.trans hnil)

/-! ### Refinement -/

/-- The table is well-formed, its dead keys hide nothing, and it denotes the abstract map. -/
structure Simulates (w : World) : Prop where
  wf : Wellformed w.env w.table
  dead : DeadBehind w.env w.table
  lookup : ∀ k, k.ValidKey → lookup w.env w.table k = w.map k

theorem SameMap.simulates (hs : Simulates ⟨E, t, m⟩) (hm : SameMap E t t') : Simulates ⟨E, t', m⟩ :=
  ⟨hm.wf, hm.dead hs.dead, fun k hk =>
    (hm.wf.inv.lookup_congr hs.wf.inv hk (hm.holds k · hk)).trans (hs.lookup k hk)⟩

/-- Storing through the slot of the key. -/
theorem Placed.simulates {key v : TValue} {s : Slot} (hs : Simulates ⟨E, t, m⟩) (hk : key.ValidKey)
    (hp : Placed E t key s t') : Simulates ⟨E, t'.slotSet v s, m.assign key v⟩ := by
  have hm : Simulates ⟨E, t', m⟩ := hp.same.simulates hs
  have hinv' : Inv E t' := hm.wf.inv
  have hinv : Inv E (t'.slotSet v s) := hinv'.slotSet hk hp.slot v
  obtain ⟨hkey, hlink, _, hsize, hlen, _, hls, _, _⟩ := slotSet_frame (v := v) hp.slot hk hinv'
  refine ⟨⟨hinv, hlen.trans (hm.wf.full.trans hsize.symm)⟩, hm.dead.congr hkey hlink hls,
    fun k hkv => ?_⟩
  have hstore := fun w => holds_slotSet (v := v) (w := w) hinv' hk hp.slot hkv
  show Luwu.lookup E (t'.slotSet v s) k = if luaO_rawequalObj key k = true then v else m k
  by_cases he : luaO_rawequalObj key k = true
  · rw [if_pos he]
    by_cases hv : v = .nil
    · refine ((hinv.lookup_eq_nil_iff hkv).mpr fun w hw => ?_).trans hv.symm
      have hw' := (hstore w).mp hw
      rw [if_pos he] at hw'
      exact hw'.1 (hw'.2.trans hv)
    · refine (hinv.lookup_eq_iff hkv hv).mpr ((hstore v).mpr ?_)
      rw [if_pos he]
      exact ⟨hv, rfl⟩
  · rw [if_neg he]
    refine Eq.trans ?_ (hm.lookup k hkv)
    refine hinv.lookup_congr hinv' hkv fun w => ?_
    rw [hstore w, if_neg he]

/-- What an operation with the effect `m'` on the map can do: that, or raise "table overflow" and do
nothing, or fail to allocate and leave a table as `short` says. -/
def Outcome (E : Env) (m m' : KeyMap) (short : LuaTable → Prop) (r : EStateM.Result TableError LuaTable Unit) :
    Prop :=
  (∃ t', r = .ok ⟨⟩ t' ∧ Simulates ⟨E, t', m'⟩) ∨
    (∃ t', r = .error (.runerror "table overflow") t' ∧ Simulates ⟨E, t', m⟩) ∨
    ∃ t', r = .error .errmem t' ∧ short t'

theorem Places.outcome {key v : TValue} {slot : TableM Slot} (hs : Simulates ⟨E, t, m⟩)
    (hk : key.ValidKey) (h : Places E t key (slot t)) :
    Outcome E m (m.assign key v) (GrowShort E t key) (storeThrough slot v t) := by
  unfold storeThrough
  rcases h with ⟨s, t', hrun, hp⟩ | ⟨t', hrun, hsame⟩ | ⟨t', hrun, hshort⟩
  · refine Or.inl ⟨t'.slotSet v s, ?_, hp.simulates hs hk⟩
    rw [TableM.bind_ok _ hrun]
    rfl
  · refine Or.inr (Or.inl ⟨t', ?_, hsame.simulates hs⟩)
    rw [TableM.bind_error _ hrun]
  · refine Or.inr (Or.inr ⟨t', ?_, hshort⟩)
    rw [TableM.bind_error _ hrun]

theorem Resizes.outcome {na nh : ℕ} {r : EStateM.Result TableError LuaTable Unit} (hs : Simulates ⟨E, t, m⟩)
    (h : Resizes E t na nh r) : Outcome E m m (Short E t na nh) r := by
  rcases h with ⟨t', hrun, hm⟩ | hrun | hshort
  · exact Or.inl ⟨t', hrun, hm.simulates hs⟩
  · exact Or.inr (Or.inl ⟨t, hrun, hs⟩)
  · exact Or.inr (Or.inr hshort)

/-- Changes of the heap do not show in a table. -/
theorem Simulates.sameHashes {E' : Env} (hs : Simulates ⟨E, t, m⟩) (hh : SameHashes E E' t) :
    Simulates ⟨E', t, m⟩ := by
  have hinv : Inv E' t := hs.wf.inv.sameHashes hh
  refine ⟨⟨hinv, hs.wf.full⟩, hs.dead.sameHashes hh, fun k hk => ?_⟩
  refine Eq.trans ?_ (hs.lookup k hk)
  show Luwu.lookup E' t k = Luwu.lookup E t k
  by_cases hn : Luwu.lookup E t k = .nil
  · rw [hn, hinv.lookup_eq_nil_iff hk]
    exact (hs.wf.inv.lookup_eq_nil_iff hk).mp hn
  · rw [hinv.lookup_eq_iff hk hn, ← hs.wf.inv.lookup_eq_iff hk hn]

/-- What an allocation that fails in an operation leaves of the table. -/
def TableOp.Short (E : Env) (t : LuaTable) : TableOp → LuaTable → Prop
  | .set k _, t' => GrowShort E t k t'
  | .setnum i _, t' => GrowShort E t (.number (cast_num i)) t'
  | .setstr s _, t' => GrowShort E t (.gc .string s) t'
  | .resizearray n, t' => ∃ asize, adjustasize t n none = some asize ∧ Luwu.Short E t asize t.hashsize t'
  | .resizehash n, t' => Luwu.Short E t t.sizearray n t'
  | _, _ => False

theorem TableOp.Short.not_roomy {op : TableOp} {t' : LuaTable} (h : op.Short E t t') : ¬E.Roomy := by
  cases op with
  | set k v =>
    obtain ⟨_, _, _, _, hshort⟩ := h
    exact hshort.not_roomy
  | setnum i v =>
    obtain ⟨_, _, _, _, hshort⟩ := h
    exact hshort.not_roomy
  | setstr s v =>
    obtain ⟨_, _, _, _, hshort⟩ := h
    exact hshort.not_roomy
  | resizearray n =>
    obtain ⟨_, _, hshort⟩ := h
    exact hshort.not_roomy
  | resizehash n => exact Luwu.Short.not_roomy h
  | _ => exact h.elim

/-- **One operation.**  Within its contract it succeeds and does to the map what it says, or raises
"table overflow" and changes nothing, or an allocation failed. -/
theorem exec_outcomes (op : TableOp) (hc : op.Contract E t) (hs : Simulates ⟨E, t, m⟩) :
    (∃ t', op.exec E t = .ok ⟨⟩ t' ∧ Simulates ⟨op.heap E, t', op.assign m⟩) ∨
      (∃ t', op.exec E t = .error (.runerror "table overflow") t' ∧ Simulates ⟨E, t', m⟩) ∨
      ∃ t', op.exec E t = .error .errmem t' ∧ op.Short E t t' := by
  cases op with
  | set k v => exact (luaH_set_places hs.wf hc).outcome hs hc
  | setnum i v =>
    exact (luaH_setnum_places hs.wf hc).outcome hs (validKey_of_isNumberEq (isNumberEq_cast_num hc))
  | setstr p v =>
    have hk : (TValue.gc .string p).ValidKey := trivial
    exact (luaH_setstr_places hs.wf p).outcome hs hk
  | resizearray n =>
    obtain ⟨asize, hadj, hres⟩ := luaH_resizearray_resizes hs.wf hc.1 hc.2
    rcases hres.outcome hs with hok | hover | ⟨t', hrun, hshort⟩
    · exact Or.inl hok
    · exact Or.inr (Or.inl hover)
    · exact Or.inr (Or.inr ⟨t', hrun, asize, hadj, hshort⟩)
  | resizehash n => exact (luaH_resizehash_resizes hs.wf hc).outcome hs
  | clone => exact Or.inl ⟨clonetable t, rfl, (clonetable_spec hs.wf).simulates hs⟩
  | clear =>
    obtain ⟨hwf, hdead, hno⟩ := luaH_clear_spec hs.wf
    exact Or.inl ⟨luaH_clear t, rfl, hwf, hdead, fun k hk =>
      (hwf.inv.lookup_eq_nil_iff hk).mpr fun w hw => hno k w hw⟩
  | getn => exact Or.inl ⟨_, rfl, (hs.wf.cached (luaH_getn_spec t).2).simulates hs⟩
  | removeentry i =>
    have hframe := removeentry_frame t i
    have hfull : (Luwu.removeentry t i).array.length = (Luwu.removeentry t i).sizearray := by
      rw [hframe.1, hframe.2.1]
      exact hs.wf.full
    have hsame : SameMap E t (Luwu.removeentry t i) :=
      ⟨⟨hs.wf.inv.removeentry i hc.1, hfull⟩, fun k w _ => holds_removeentry i hc.1,
        fun hd => hd.removeentry hc.2⟩
    exact Or.inl ⟨_, rfl, hsame.simulates hs⟩
  | reuse strhash => exact Or.inl ⟨t, rfl, hs.sameHashes hc⟩

/-- With memory to spare, "table overflow" is the only error. -/
theorem exec_outcome (ha : E.Roomy) (op : TableOp) (hc : op.Contract E t)
    (hs : Simulates ⟨E, t, m⟩) :
    (∃ t', op.exec E t = .ok ⟨⟩ t' ∧ Simulates ⟨op.heap E, t', op.assign m⟩) ∨
      ∃ t', op.exec E t = .error (.runerror "table overflow") t' ∧ Simulates ⟨E, t', m⟩ := by
  rcases exec_outcomes op hc hs with hok | hover | ⟨_, _, hshort⟩
  · exact Or.inl hok
  · exact Or.inr hover
  · exact absurd ha hshort.not_roomy

/-- **One step** of a run keeps the table and the abstract map together. -/
theorem step_simulates {w : World} (ha : w.env.Roomy) (op : TableOp) (hc : op.Contract w.env w.table)
    (hs : Simulates w) : Simulates (TableOp.step w op) ∧ (TableOp.step w op).env.Roomy := by
  have hheap : (op.heap w.env).Roomy := by
    cases op <;> exact ha
  unfold TableOp.step
  rcases exec_outcome ha op hc hs with ⟨t', hrun, h⟩ | ⟨t', hrun, h⟩ <;> rw [hrun]
  · exact ⟨h, hheap⟩
  · exact ⟨h, ha⟩

/-- **A whole run.** -/
theorem run_simulates {w : World} (ha : w.env.Roomy) (ops : List TableOp)
    (hc : TableOp.Contracts w ops) (hs : Simulates w) :
    Simulates (TableOp.run w ops) ∧ (TableOp.run w ops).env.Roomy := by
  induction ops generalizing w with
  | nil => exact ⟨hs, ha⟩
  | cons op ops ih =>
    obtain ⟨hs', ha'⟩ := step_simulates ha op hc.1 hs
    exact ih ha' hc.2 hs'

/-- `luaH_new` refuses sizes beyond the limit. -/
theorem luaH_new_sizes {narray nhash : ℕ} {t₀ : LuaTable}
    (hnew : luaH_new E narray nhash t₀ = .ok ⟨⟩ t) : narray ≤ MAXSIZE ∧ nhash ≤ MAXSIZE := by
  have harray : narray ≤ MAXSIZE := by
    by_contra hmax
    have herr : ∀ t₁, setarrayvector E narray t₁ = .error (.runerror "table overflow") t₁ := by
      intro t₁
      unfold setarrayvector
      rw [if_pos (not_le.mp hmax)]
      rfl
    unfold luaH_new at hnew
    rw [TableM.set_bind, if_pos (by omega), TableM.bind_error _ (herr _)] at hnew
    cases hnew
  refine ⟨harray, ?_⟩
  by_contra hmax
  have hpos : nhash ≠ 0 := by omega
  have hbits : MAXBITS < ceillog2 nhash := by
    rw [ceillog2_eq]
    exact (Nat.lt_clog_iff_pow_lt (by norm_num)).mpr (not_le.mp hmax)
  have herr : ∀ t₁, setnodevector E nhash t₁ = .error (.runerror "table overflow") t₁ := by
    intro t₁
    unfold setnodevector
    rw [if_neg hpos]
    dsimp only
    rw [if_pos hbits]
    rfl
  unfold luaH_new at hnew
  rw [TableM.set_bind] at hnew
  by_cases h0 : 0 < narray
  · rw [if_pos h0, if_pos (by omega)] at hnew
    cases hrun : setarrayvector E narray emptyTable with
    | ok a t₁ =>
      rw [TableM.bind_ok _ hrun] at hnew
      exact absurd ((herr t₁).symm.trans hnew) (by simp)
    | error e t₁ =>
      rw [TableM.bind_error _ hrun] at hnew
      cases hnew
  · rw [if_neg h0, if_pos (by omega)] at hnew
    have := herr emptyTable
    exact absurd (this.symm.trans hnew) (by simp)

/-- A new table is the empty map. -/
theorem luaH_new_simulates (ha : E.Roomy) {narray nhash : ℕ} {t₀ : LuaTable}
    (hnew : luaH_new E narray nhash t₀ = .ok ⟨⟩ t) : Simulates ⟨E, t, fun _ => .nil⟩ := by
  obtain ⟨h1, h2⟩ := luaH_new_sizes hnew
  obtain ⟨t', hrun, hwf, hdead, hno⟩ := luaH_new_spec (t := t₀) ha h1 h2
  rw [hrun] at hnew
  obtain rfl := (EStateM.Result.ok.inj hnew).2
  exact ⟨hwf, hdead, fun k hk => (hwf.inv.lookup_eq_nil_iff hk).mpr fun w hw => hno k w hw⟩

/-! ### What the callers provide -/

theorem outside_le_live {n : ℕ} (hn : t.sizearray ≤ n) :
    t.outside n ≤ t.nodes.countP fun nd => !nd.val.isNil := by
  unfold LuaTable.outside
  rw [show t.sizearray - n = 0 from by omega]
  refine List.countP_mono_left fun nd _ hs => ?_
  unfold LuaNode.stays at hs
  exact (Bool.and_eq_true _ _ ▸ hs).1

/-- Growing the array part: every entry of the hash part fits the hash part it is in. -/
theorem fits_of_grow (h : Wellformed E t) {n : ℕ} (hn : t.sizearray ≤ n) (hmax : n < 2 ^ 30) :
    (TableOp.resizearray n).Contract E t := by
  refine ⟨hmax, fun asize hadj => ?_⟩
  obtain ⟨s, hs, hle, _⟩ := adjustasize_spec h.inv none hmax
  rw [hadj] at hs
  obtain rfl := Option.some.inj hs
  have hlive := outside_le_live (hn.trans hle)
  unfold LuaTable.Fits LuaTable.hashsize
  by_cases hnode : t.node = none
  · have hzero : t.nodes.countP (fun nd => !nd.val.isNil) = 0 := by
      unfold LuaTable.nodes
      rw [hnode]
      rfl
    omega
  · rw [if_neg hnode]
    have hcount : t.nodes.countP (fun nd => !nd.val.isNil) ≤ t.nodes.length := List.countP_le_length
    rw [h.inv.length_nodes] at hcount
    exact hlive.trans (hcount.trans (le_capacity _))

/-! ### Runs from `luaH_new` -/

/-- **A table is a finite map.**  After any run from `luaH_new`, the lookup functions answer the value
last assigned, a clone answers alike, and the representation invariant holds; the only error an operation
can raise is "table overflow". -/
theorem luaH_get_last_assigned (ha : E.Roomy) {narray nhash : ℕ} {t₀ : LuaTable}
    (hnew : luaH_new E narray nhash t₀ = .ok ⟨⟩ t) (ops : List TableOp)
    (hc : TableOp.Contracts ⟨E, t, fun _ => .nil⟩ ops) :
    let w := TableOp.run ⟨E, t, fun _ => .nil⟩ ops
    (∀ k, k.ValidKey → ∃ s, luaH_get w.env w.table k = some s ∧ w.table.slotGet s = w.map k) ∧
    (∀ i : ℤ, -2 ^ 31 ≤ i ∧ i < 2 ^ 31 →
      ∃ s, luaH_getnum w.table i = some s ∧ w.table.slotGet s = w.map (.number (cast_num i))) ∧
    (∀ p, ∃ s, luaH_getstr w.env w.table p = some s ∧ w.table.slotGet s = w.map (.gc .string p)) ∧
    (∀ k, k.ValidKey → lookup w.env (clonetable w.table) k = w.map k) ∧
    Wellformed w.env w.table ∧
    ∀ op : TableOp, op.Contract w.env w.table → ∀ e t', op.exec w.env w.table = .error e t' →
      e = .runerror "table overflow" := by
  intro w
  obtain ⟨hs, ha'⟩ : Simulates w ∧ w.env.Roomy := run_simulates ha ops hc (luaH_new_simulates ha hnew)
  have hget : ∀ k, k.ValidKey →
      ∃ s, luaH_get w.env w.table k = some s ∧ w.table.slotGet s = w.map k := by
    intro k hk
    have hval := hs.lookup k hk
    unfold lookup at hval
    rcases hs.wf.inv.get_cases hk with ⟨s, _, hget⟩ | ⟨hget, _⟩ <;> rw [hget] at hval
    · exact ⟨s, hget, hval⟩
    · exact ⟨.nilobject, hget, hval⟩
  refine ⟨hget, fun i hi => ?_, fun p => hget (.gc .string p) trivial, fun k hk => ?_, hs.wf, ?_⟩
  · rw [hs.wf.inv.getnum_eq_get hi]
    exact hget _ (validKey_of_isNumberEq (isNumberEq_cast_num hi))
  · exact ((clonetable_spec hs.wf).simulates hs).lookup k hk
  · intro op hop e t' herr
    rcases exec_outcome ha' op hop hs with ⟨t'', hrun, _⟩ | ⟨t'', hrun, _⟩ <;> rw [hrun] at herr
    · cases herr
    · exact (EStateM.Result.error.inj herr).1.symm

/-- Strings hash by address, and memory never runs out. -/
def plainEnv : Env := ⟨fun p => p.setWidth 32, fun _ _ => true⟩

/-- Keys of three kinds, one of them assigned twice, and a key that dies. -/
def sampleOps : List TableOp :=
  [.set (.boolean true) (.boolean false), .setnum 1 (.boolean true), .setstr 7 .nil,
    .removeentry 0, .resizehash 4, .setnum 1 (.boolean false), .clone]

theorem sampleOps_contracts : TableOp.Contracts ⟨plainEnv, emptyTable, fun _ => .nil⟩ sampleOps := by
  -- the table when the key dies: two nodes, and the other key has no address
  set w := TableOp.run ⟨plainEnv, emptyTable, fun _ => .nil⟩ (sampleOps.take 3) with hw
  have hcount : w.table.nodeCount = 2 := by decide +kernel
  have hother : (w.table.gkey 1).gcvalue = none := by decide +kernel
  have halone : AloneAt w.table 0 := by
    intro j tt p _ hj hp
    have hlt := Inv.keyed_lt hj
    rw [hcount] at hlt
    have hne : j ≠ 1 := by
      rintro rfl
      rw [hother] at hp
      cases hp
    omega
  refine ⟨trivial, ⟨by norm_num, by norm_num⟩, trivial, ⟨by decide +kernel, halone⟩, ?_,
    ⟨by norm_num, by norm_num⟩, trivial, trivial⟩
  unfold TableOp.Contract LuaTable.Fits
  decide +kernel

theorem luaH_get_last_assigned_sample :
    let w := TableOp.run ⟨plainEnv, emptyTable, fun _ => .nil⟩ sampleOps
    ∃ s, luaH_getnum w.table 1 = some s ∧ w.table.slotGet s = .boolean false := by
  intro w
  have hnew : luaH_new plainEnv 0 0 emptyTable = .ok ⟨⟩ emptyTable := rfl
  have h := luaH_get_last_assigned (fun _ _ => rfl) hnew sampleOps sampleOps_contracts
  have hvalue : w.map (.number (cast_num 1)) = .boolean false := by decide +kernel
  rw [← hvalue]
  exact h.2.1 1 (by norm_num)

/-- Shrinking the array part of `{2, 3, 4}` while there is no hash part breaks the contract.  The
migration rehashes recursively and grows the array part again; then `resize` cuts the block to the size
it was asked for. -/
def shrinkOps : List TableOp :=
  [.setnum 2 (.boolean true), .setnum 3 (.boolean true), .setnum 4 (.boolean true), .resizearray 0]

/-- An array part of four slots, all nil. -/
def fourSlots : LuaTable := { emptyTable with array := List.replicate 4 .nil, sizearray := 4 }

theorem luaH_get_after_bad_shrink :
    luaH_new plainEnv 4 0 emptyTable = .ok ⟨⟩ fourSlots ∧
    (let w := TableOp.run ⟨plainEnv, fourSlots, fun _ => .nil⟩ shrinkOps
    w.map (.number (cast_num 2)) = .boolean true ∧
      (luaH_get w.env w.table (.number (cast_num 2))).map w.table.slotGet = some .nil ∧
      w.table.sizearray = 4 ∧ w.table.array.length = 0) := by
  refine ⟨rfl, ?_⟩
  decide +kernel

end

end Luwu
