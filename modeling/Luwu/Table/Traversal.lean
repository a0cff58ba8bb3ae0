import Luwu.Table.FiniteMap

/-!
# Traversal

`luaH_next` has no state of its own: it recovers its position from the key of the last entry.  Between two
calls the program may store through slots that exist and the collector may mark keys dead, but the links
and the places of the keys stay (`Frozen`), so the position recovered is the one the key came from
(`findindex_spec`).  The only doubtful case is a dead key, which is compared by address; `DeadBehind` and
`DistinctAddresses` say that the first node found is the right one.

Positions number the array slots and then the nodes.  Every call moves on to the next position in use, so
a traversal visits positions in increasing order (`Progress`), and everything else follows from that.
-/

namespace Luwu

open Links

/-! ### The functions -/

/-- The test of the chain loop of `findindex`: a dead key matches by address. -/
def matchesKey (key k : TValue) : Bool :=
  luaO_rawequalObj k key || (k.isDead && key.iscollectable && k.gcvalue == key.gcvalue)

/-- `ttisnumber(key) ? arrayindex(nvalue(key)) : -1` -/
def keyindex : TValue → ℤ
  | .number n => arrayindex n
  | _ => -1

def findindex (E : Env) (t : LuaTable) (key : TValue) : Except TableError ℤ :=
  if key.isNil then .ok (-1) -- first iteration
  else
    let i := keyindex key
    if 0 < i ∧ i ≤ t.sizearray then .ok (i - 1)
    else
      match t.findChain (matchesKey key) t.sizenode (mainposition E t key) with
      | none => .error .loop
      | some none => .error (.runerror "invalid key to 'next'")
      | some (some n) => .ok (n + t.sizearray) -- hash elements are numbered after array ones

/-- `for (; i < n; i++) if (p(i)) return i;` over `rest` indices. -/
def scan (p : ℕ → Bool) : ℕ → ℕ → Option ℕ
  | 0, _ => none
  | rest + 1, i => if p i then some i else scan p rest (i + 1)

/-- The next entry, or nothing at the end. -/
def luaH_next (E : Env) (t : LuaTable) (key : TValue) : Except TableError (Option (TValue × TValue)) := do
  let i ← findindex E t key
  let i := (i + 1).toNat
  match scan (fun i => !(t.arr i).isNil) (t.sizearray - i) i with
  | some i => return some (.number (cast_num ((i : ℤ) + 1)), t.arr i)
  | none =>
    let i := i - t.sizearray
    match scan (fun i => !(t.gval i).isNil) (t.sizenode - i) i with
    | some i => return some (t.gkey i, t.gval i)
    | none => return none

theorem scan_some {p : ℕ → Bool} {rest i j : ℕ} (h : scan p rest i = some j) :
    i ≤ j ∧ j < i + rest ∧ p j = true ∧ ∀ k, i ≤ k → k < j → p k = false := by
  induction rest generalizing i with
  | zero => cases h
  | succ rest ih =>
    unfold scan at h
    by_cases hp : p i = true
    · rw [if_pos hp, Option.some.injEq] at h
      exact ⟨h.le, by omega, h ▸ hp, fun k h1 h2 => by omega⟩
    · rw [if_neg hp] at h
      obtain ⟨h1, h2, h3, h4⟩ := ih h
      refine ⟨by omega, by omega, h3, fun k hk hkj => ?_⟩
      by_cases he : k = i
      · rw [he]
        exact Bool.not_eq_true _ ▸ hp
      · exact h4 k (by omega) hkj

theorem scan_none {p : ℕ → Bool} {rest i : ℕ} (h : scan p rest i = none) :
    ∀ k, i ≤ k → k < i + rest → p k = false := by
  induction rest generalizing i with
  | zero => exact fun k h1 h2 => by omega
  | succ rest ih =>
    unfold scan at h
    by_cases hp : p i = true
    · rw [if_pos hp] at h
      cases h
    · rw [if_neg hp] at h
      intro k h1 h2
      by_cases he : k = i
      · rw [he]
        exact Bool.not_eq_true _ ▸ hp
      · exact ih h k (by omega) (by omega)

/-! ### Positions -/

/-- The key at a position: array slots first, then nodes. -/
def posKey (t : LuaTable) (q : ℕ) : TValue :=
  if q < t.sizearray then .number (cast_num ((q : ℤ) + 1)) else t.gkey (q - t.sizearray)

def posVal (t : LuaTable) (q : ℕ) : TValue :=
  if q < t.sizearray then t.arr q else t.gval (q - t.sizearray)

/-- The number of positions. -/
def positions (t : LuaTable) : ℕ := t.sizearray + t.sizenode

/-- The first position in use from `q` on: the two loops of a traversal. -/
def nextpos (t : LuaTable) (q : ℕ) : Option ℕ :=
  match scan (fun i => !(t.arr i).isNil) (t.sizearray - q) q with
  | some i => some i
  | none =>
    (scan (fun i => !(t.gval i).isNil) (t.sizenode - (q - t.sizearray)) (q - t.sizearray)).map (· + t.sizearray)

theorem nextpos_spec (t : LuaTable) (q : ℕ) :
    (∃ r, q ≤ r ∧ r < positions t ∧ posVal t r ≠ .nil ∧ (∀ k, q ≤ k → k < r → posVal t k = .nil) ∧
        nextpos t q = some r) ∨
      ((∀ k, q ≤ k → k < positions t → posVal t k = .nil) ∧ nextpos t q = none) := by
  -- an array position is nil when the scan passed it
  have hnil : ∀ v : TValue, (!v.isNil) = false → v = .nil := fun v hv => by
    rw [Bool.not_eq_false'] at hv
    exact TValue.isNil_iff.mp hv
  unfold nextpos
  cases harr : scan (fun i => !(t.arr i).isNil) (t.sizearray - q) q with
  | some i =>
    obtain ⟨h1, h2, h3, h4⟩ := scan_some harr
    have hi : i < t.sizearray := by omega
    refine Or.inl ⟨i, h1, by unfold positions; omega, ?_, fun k hk hki => ?_, rfl⟩
    · rw [posVal, if_pos hi]
      exact isNil_ne.mp h3
    · rw [posVal, if_pos (by omega)]
      exact hnil _ (h4 k hk hki)
  | none =>
    have harr' := scan_none harr
    have hlow : ∀ k, q ≤ k → k < t.sizearray → posVal t k = .nil := fun k hk hks => by
      rw [posVal, if_pos hks]
      exact hnil _ (harr' k hk (by omega))
    cases hnode : scan (fun i => !(t.gval i).isNil) (t.sizenode - (q - t.sizearray))
      (q - t.sizearray) with
    | some i =>
      obtain ⟨h1, h2, h3, h4⟩ := scan_some hnode
      have hi : ¬ i + t.sizearray < t.sizearray := by omega
      refine Or.inl ⟨i + t.sizearray, by omega, by unfold positions; omega, ?_, fun k hk hki => ?_, rfl⟩
      · rw [posVal, if_neg hi, Nat.add_sub_cancel]
        exact isNil_ne.mp h3
      · by_cases hks : k < t.sizearray
        · exact hlow k hk hks
        · rw [posVal, if_neg hks]
          exact hnil _ (h4 _ (by omega) (by omega))
    | none =>
      have hnode' := scan_none hnode
      refine Or.inr ⟨fun k hk hkp => ?_, rfl⟩
      unfold positions at hkp
      by_cases hks : k < t.sizearray
      · exact hlow k hk hks
      · rw [posVal, if_neg hks]
        exact hnil _ (hnode' _ (by omega) (by omega))

theorem posKey_array {t : LuaTable} {i : ℕ} (hi : i < t.sizearray) :
    posKey t i = .number (cast_num ((i : ℤ) + 1)) ∧ posVal t i = t.arr i := ⟨if_pos hi, if_pos hi⟩

theorem posKey_node (t : LuaTable) (i : ℕ) :
    posKey t (i + t.sizearray) = t.gkey i ∧ posVal t (i + t.sizearray) = t.gval i := by
  have hi : ¬ i + t.sizearray < t.sizearray := by omega
  rw [posKey, posVal, if_neg hi, if_neg hi, Nat.add_sub_cancel]
  exact ⟨rfl, rfl⟩

/-- A call that has recovered its position answers with the entry at the next position in use. -/
theorem luaH_next_eq {E : Env} {t : LuaTable} {key : TValue} {q : ℕ}
    (hfind : findindex E t key = .ok ((q : ℤ) - 1)) :
    luaH_next E t key = .ok ((nextpos t q).map fun r => (posKey t r, posVal t r)) := by
  have hq : ((q : ℤ) - 1 + 1).toNat = q := by omega
  have hrun : luaH_next E t key =
      (match scan (fun i => !(t.arr i).isNil) (t.sizearray - q) q with
      | some i => .ok (some (.number (cast_num ((i : ℤ) + 1)), t.arr i))
      | none =>
        match scan (fun i => !(t.gval i).isNil) (t.sizenode - (q - t.sizearray)) (q - t.sizearray) with
        | some i => .ok (some (t.gkey i, t.gval i))
        | none => .ok none) := by
    unfold luaH_next
    rw [hfind]
    simp only [bind, Except.bind, hq]
    rfl
  rw [hrun]
  unfold nextpos
  cases harr : scan (fun i => !(t.arr i).isNil) (t.sizearray - q) q with
  | some i =>
    obtain ⟨h1, h2, -, -⟩ := scan_some harr
    obtain ⟨hkey, hval⟩ := posKey_array (t := t) (i := i) (by omega)
    simp only [Option.map_some, hkey, hval]
  | none =>
    cases scan (fun i => !(t.gval i).isNil) (t.sizenode - (q - t.sizearray)) (q - t.sizearray) with
    | some i =>
      obtain ⟨hkey, hval⟩ := posKey_node t i
      simp only [Option.map_some, hkey, hval]
    | none => rfl

/-- What a call of `luaH_next` answers that has recovered its position: the first entry from `q` on. -/
theorem next_from {E : Env} {t : LuaTable} {key : TValue} {q : ℕ}
    (hfind : findindex E t key = .ok ((q : ℤ) - 1)) :
    (∃ r, q ≤ r ∧ r < positions t ∧ posVal t r ≠ .nil ∧ (∀ k, q ≤ k → k < r → posVal t k = .nil) ∧
        luaH_next E t key = .ok (some (posKey t r, posVal t r))) ∨
      ((∀ k, q ≤ k → k < positions t → posVal t k = .nil) ∧ luaH_next E t key = .ok none) := by
  have hrun := luaH_next_eq hfind
  rcases nextpos_spec t q with ⟨r, hqr, hrp, hused, hskip, hpos⟩ | ⟨hskip, hpos⟩
  · rw [hpos] at hrun
    exact Or.inl ⟨r, hqr, hrp, hused, hskip, hrun⟩
  · rw [hpos] at hrun
    exact Or.inr ⟨hskip, hrun⟩

/-! ### What stays while a traversal is under way -/

section Frozen

variable {E₀ E : Env} {t₀ t : LuaTable} {key : TValue}

/-- Two keys that are not dead are the same object when they have the same address. -/
def DistinctAddresses (t : LuaTable) : Prop :=
  ∀ i j p, t.Keyed i → t.Keyed j → (t.gkey i).gcvalue = some p → (t.gkey j).gcvalue = some p → i = j

/-- What a run of stores and collections leaves of the table `t₀` with which the traversal began, while
`key` is on the stack: only values change, keys can only die, and the hashes of the keys that are left,
and of `key`, stay. -/
structure Frozen (E₀ : Env) (t₀ : LuaTable) (E : Env) (t : LuaTable) (key : TValue) : Prop where
  inv : Inv E t
  sizearray : t.sizearray = t₀.sizearray
  lsizenode : t.lsizenode = t₀.lsizenode
  link : t.link = t₀.link
  gkey : ∀ j, t.gkey j = t₀.gkey j ∨ ∃ tt p, t₀.gkey j = .gc tt p ∧ t.gkey j = .deadkey p
  hash : ∀ j, t.Keyed j → keyhash E (t.gkey j) = keyhash E₀ (t.gkey j)
  cursor : keyhash E key = keyhash E₀ key

/-- What the program and the collector may do between two calls. -/
inductive Between (key : TValue) : Env → LuaTable → Env → LuaTable → Prop
  | store {E : Env} {t : LuaTable} {k : TValue} {s : Slot} (v : TValue) (valid : k.ValidKey)
      (slot : t.SlotOf k s) : Between key E t E (t.slotSet v s)
  | removeentry {E : Env} {t : LuaTable} {i : ℕ} (empty : t.gval i = .nil) :
      Between key E t E (removeentry t i)
  | reuse {E : Env} {t : LuaTable} {strhash : GCPtr → BitVec 32}
      (hashes : SameHashes E { E with strhash := strhash } t)
      (cursor : keyhash { E with strhash := strhash } key = keyhash E key) :
      Between key E t { E with strhash := strhash } t

/-- A key that is not dead is the key the traversal began with. -/
theorem Frozen.gkey_eq (h : Frozen E₀ t₀ E t key) {j : ℕ} (hj : t.Keyed j) :
    t.gkey j = t₀.gkey j ∧ t₀.Keyed j := by
  rcases h.gkey j with hk | ⟨_, p, _, hk⟩
  · exact ⟨hk, by rw [LuaTable.Keyed, ← hk]; exact hj⟩
  · unfold LuaTable.Keyed at hj
    rw [hk] at hj
    exact hj.elim

theorem Frozen.refl (h : Inv E t) : Frozen E t E t key :=
  ⟨h, rfl, rfl, rfl, fun _ => Or.inl rfl, fun _ _ => rfl, rfl⟩

/-- **Nothing moves between two calls.** -/
theorem Frozen.between (h : Frozen E₀ t₀ E t key) {E' : Env} {t' : LuaTable}
    (hb : Between key E t E' t') : Frozen E₀ t₀ E' t' key := by
  cases hb with
  | @store k s v valid slot =>
    obtain ⟨hkey, hlink, _, hsize, _, _, hls, _, _⟩ := slotSet_frame (v := v) slot valid h.inv
    refine ⟨h.inv.slotSet valid slot v, hsize.trans h.sizearray, hls.trans h.lsizenode,
      hlink.trans h.link, fun j => by rw [hkey]; exact h.gkey j, fun j hj => ?_, h.cursor⟩
    unfold LuaTable.Keyed at hj
    rw [hkey] at hj ⊢
    exact h.hash j hj
  | @removeentry i empty =>
    obtain ⟨_, hsize, hls, _, _, _, hlink, _, _, hkey⟩ := removeentry_frame t i
    refine ⟨h.inv.removeentry i empty, hsize.trans h.sizearray, hls.trans h.lsizenode,
      hlink.trans h.link, fun j => ?_, fun j hj => ?_, h.cursor⟩
    · rcases hkey j with hk | ⟨hji, tt, p, hki, hk⟩
      · rw [hk]
        exact h.gkey j
      · -- the key dies now; it was not dead before
        refine Or.inr ⟨tt, p, ?_, hk⟩
        rcases h.gkey i with hold | ⟨_, q, _, hq⟩
        · rw [hji, ← hold, hki]
        · rw [hki] at hq
          cases hq
    · obtain ⟨hk, hold⟩ := gkey_removeentry t i hj
      rw [hk]
      exact h.hash j hold
  | reuse hashes cursor =>
    exact ⟨h.inv.sameHashes hashes, h.sizearray, h.lsizenode, h.link, h.gkey,
      fun j hj => (hashes j hj).trans (h.hash j hj), cursor.trans h.cursor⟩

/-- The cursor moves to a key of the table. -/
theorem Frozen.move (h : Frozen E₀ t₀ E t key) {q : ℕ} (hq : posVal t q ≠ .nil) :
    Frozen E₀ t₀ E t (posKey t q) := by
  refine { h with cursor := ?_ }
  unfold posKey
  split
  · rfl
  · rename_i hsize
    rw [posVal, if_neg hsize] at hq
    exact h.hash _ (h.inv.keyed_of_val hq)

/-! ### The position of a key -/

theorem keyindex_iff {k : TValue} {m : ℕ} :
    (0 < keyindex k ∧ keyindex k ≤ m) ↔ below m k = true := by
  cases k <;> simp [keyindex, below]

/-- **`findindex` recovers the position of a node key**, dead or not. -/
theorem findindex_node (h₀ : Inv E₀ t₀) (hd : DeadBehind E₀ t₀) (ha : DistinctAddresses t₀)
    (h : Frozen E₀ t₀ E t key) {n : ℕ} (hn : t₀.Keyed n) (hkey : key = t₀.gkey n) :
    findindex E t key = .ok ((n : ℤ) + t.sizearray) := by
  have hvalid : key.ValidKey := hkey ▸ hn
  have hmain : mainposition E t key = mainposition E₀ t₀ key := by
    unfold mainposition hashpow2 LuaTable.sizenode
    rw [h.cursor, h.lsizenode]
  have hreach : Reach t.link (mainposition E t key) n := by
    rw [hmain, h.link, hkey]
    exact h₀.reach n hn
  have hmatch : matchesKey key (t.gkey n) = true := by
    unfold matchesKey
    rw [Bool.or_eq_true]
    rcases h.gkey n with hk | ⟨tt, p, hold, hk⟩
    · exact Or.inl (by rw [hk, ← hkey]; exact rawequal_refl hvalid)
    · right
      rw [hk, hkey, hold]
      simp [TValue.isDead, TValue.iscollectable, TValue.gcvalue]
  -- no node in front of it matches
  have hfirst : ∀ j, Reach t.link (mainposition E t key) j → Reach t.link j n →
      matchesKey key (t.gkey j) = true → j = n := by
    intro j hmj hjn hj
    unfold matchesKey at hj
    rw [Bool.or_eq_true, Bool.and_eq_true, Bool.and_eq_true, beq_iff_eq] at hj
    rcases hj with he | ⟨⟨hdead, hcol⟩, hptr⟩
    · have hkj : t.Keyed j := Inv.keyed_of_rawequal hvalid he
      obtain ⟨hkj', hkj₀⟩ := h.gkey_eq hkj
      rw [hkj', hkey] at he
      exact h₀.unique j n hkj₀ hn he
    · obtain ⟨p, hp⟩ := isDead_iff.mp hdead
      rw [hp] at hptr
      have hnp : (t₀.gkey n).gcvalue = some p := by
        rw [← hkey, ← hptr]
        rfl
      rcases h.gkey j with hk | ⟨tt, q, hold, hk⟩
      · rw [h.link, hmain, hkey] at hmj
        rw [h.link] at hjn
        exact absurd hjn (hd n j p hn hnp (hk ▸ hp) hmj)
      · have hqp : q = p := TValue.deadkey.inj (hk.symm.trans hp)
        have hkj₀ : t₀.Keyed j := by
          unfold LuaTable.Keyed
          rw [hold]
          trivial
        exact ha j n p hkj₀ hn (by rw [hold, ← hqp]; rfl) hnp
  have hfound : t.findChain (matchesKey key) t.sizenode (mainposition E t key) = some (some n) := by
    rw [LuaTable.findChain_eq_walk]
    exact walk_found (h.inv.walk_ends _ (mainposition_lt key)) hreach hmatch fun j h1 h2 h3 =>
      hfirst j h1 h2 h3
  have hout : ¬ (0 < keyindex key ∧ keyindex key ≤ t.sizearray) := by
    rw [keyindex_iff, ← isSome_arrayslot h.inv.sizeMax, h.sizearray, hkey, h₀.hashOnly n hn]
    exact Bool.false_ne_true
  unfold findindex
  rw [if_neg (by rw [TValue.isNil_iff]; exact hvalid.ne_nil)]
  dsimp only
  rw [if_neg hout, hfound]

/-- The cursor: the position behind the last entry visited. -/
inductive CursorAt (t₀ : LuaTable) : TValue → ℕ → Prop
  | start : CursorAt t₀ .nil 0
  | array {i : ℕ} (inside : i < t₀.sizearray) : CursorAt t₀ (.number (cast_num ((i : ℤ) + 1))) (i + 1)
  | node {n : ℕ} (keyed : t₀.Keyed n) : CursorAt t₀ (t₀.gkey n) (n + t₀.sizearray + 1)

theorem cursorAt_posKey (h : Frozen E₀ t₀ E t key) {q : ℕ} (hq : posVal t q ≠ .nil) :
    CursorAt t₀ (posKey t q) (q + 1) := by
  unfold posKey
  unfold posVal at hq
  split at hq
  · rename_i hlt
    rw [if_pos hlt]
    exact .array (h.sizearray ▸ hlt)
  · rename_i hge
    rw [if_neg hge]
    obtain ⟨hk, hk₀⟩ := h.gkey_eq (h.inv.keyed_of_val hq)
    rw [hk]
    have hpos : q + 1 = q - t.sizearray + t₀.sizearray + 1 := by
      have := h.sizearray
      omega
    rw [hpos]
    exact .node hk₀

/-- **`findindex` recovers the position of the cursor.** -/
theorem findindex_spec (h₀ : Inv E₀ t₀) (hd : DeadBehind E₀ t₀) (ha : DistinctAddresses t₀)
    (h : Frozen E₀ t₀ E t key) {q : ℕ} (hc : CursorAt t₀ key q) :
    findindex E t key = .ok ((q : ℤ) - 1) := by
  have hM : MAXSIZE = 2 ^ 26 := rfl
  have hmax := h₀.sizeMax
  cases hc with
  | start => rfl
  | @array i inside =>
    have hindex : keyindex (.number (cast_num ((i : ℤ) + 1))) = ((i + 1 : ℕ) : ℤ) := by
      have := arrayindex_cast_num (j := i + 1) (by omega) (by omega)
      rw [← this]
      rfl
    unfold findindex
    rw [if_neg (by simp [TValue.isNil])]
    dsimp only
    rw [hindex, if_pos ⟨by omega, by rw [h.sizearray]; omega⟩]
  | @node n keyed =>
    rw [findindex_node h₀ hd ha h keyed rfl, h.sizearray]
    congr 1
    omega

end Frozen

/-! ### Runs -/

/-- A call of `luaH_next` that found an entry: the state in which it ran, and its answer. -/
structure Visit where
  env : Env
  table : LuaTable
  key : TValue
  value : TValue

/-- A traversal of `t₀` from nil: calls of `luaH_next`, with changes between them. -/
inductive Traversed (E₀ : Env) (t₀ : LuaTable) : List Visit → Env → LuaTable → TValue → Prop
  | start : Traversed E₀ t₀ [] E₀ t₀ .nil
  | between {vs : List Visit} {E E' : Env} {t t' : LuaTable} {key : TValue}
      (before : Traversed E₀ t₀ vs E t key) (change : Between key E t E' t') :
      Traversed E₀ t₀ vs E' t' key
  | next {vs : List Visit} {E : Env} {t : LuaTable} {key k v : TValue}
      (before : Traversed E₀ t₀ vs E t key) (call : luaH_next E t key = .ok (some (k, v))) :
      Traversed E₀ t₀ (vs ++ [⟨E, t, k, v⟩]) E t k

section Runs

variable {E₀ E : Env} {t₀ t : LuaTable} {key : TValue} {vs : List Visit}

/-- A visit of position `r`. -/
structure VisitAt (E₀ : Env) (t₀ : LuaTable) (u : Visit) (r : ℕ) : Prop where
  frozen : Frozen E₀ t₀ u.env u.table u.key
  inside : r < positions t₀
  key : u.key = posKey u.table r
  value : u.value = posVal u.table r
  used : posVal u.table r ≠ .nil

/-- The state of a traversal: the positions visited so far increase up to the cursor, and a position
passed over was empty when it was passed over. -/
structure Progress (E₀ : Env) (t₀ : LuaTable) (vs : List Visit) (ps : List ℕ) (q : ℕ) : Prop where
  visits : List.Forall₂ (VisitAt E₀ t₀) vs ps
  increasing : ps.Pairwise (· < ·)
  below : ∀ r ∈ ps, r < q
  passed : ∀ r, r < q → r ∈ ps ∨ ∃ u ∈ vs, posVal u.table r = .nil

/-- **A call moves on**, and a traversal as a whole keeps `Frozen` and `Progress`. -/
theorem Traversed.progress (h₀ : Inv E₀ t₀) (hd : DeadBehind E₀ t₀) (ha : DistinctAddresses t₀)
    (h : Traversed E₀ t₀ vs E t key) :
    Frozen E₀ t₀ E t key ∧ ∃ ps q, CursorAt t₀ key q ∧ Progress E₀ t₀ vs ps q := by
  induction h with
  | start =>
    exact ⟨.refl h₀, [], 0, .start, .nil, .nil, fun r hr => (List.not_mem_nil hr).elim,
      fun r hr => absurd hr (Nat.not_lt_zero r)⟩
  | between before change ih =>
    obtain ⟨hf, ps, q, hc, hp⟩ := ih
    exact ⟨hf.between change, ps, q, hc, hp⟩
  | @next vs E t key k v before call ih =>
    obtain ⟨hf, ps, q, hc, hp⟩ := ih
    rcases next_from (findindex_spec h₀ hd ha hf hc) with
      ⟨r, hqr, hrp, hused, hskip, hrun⟩ | ⟨_, hrun⟩ <;> rw [call] at hrun
    · obtain ⟨rfl, rfl⟩ := Prod.mk.inj (Option.some.inj (Except.ok.inj hrun))
      have hmove := hf.move hused
      have hpos : positions t = positions t₀ := by
        unfold positions LuaTable.sizenode
        rw [hf.sizearray, hf.lsizenode]
      refine ⟨hmove, ps ++ [r], r + 1, cursorAt_posKey hf hused, ?_, ?_, ?_, ?_⟩
      · exact List.rel_append hp.visits (.cons ⟨hmove, hpos ▸ hrp, rfl, rfl, hused⟩ .nil)
      · rw [List.pairwise_append]
        refine ⟨hp.increasing, List.pairwise_singleton _ _, fun a ha' b hb => ?_⟩
        rw [List.mem_singleton] at hb
        have := hp.below a ha'
        omega
      · intro a ha'
        rcases List.mem_append.mp ha' with ha' | ha'
        · have := hp.below a ha'
          omega
        · rw [List.mem_singleton] at ha'
          omega
      · intro a har
        by_cases haq : a < q
        · rcases hp.passed a haq with hmem | ⟨u, hu, hnil⟩
          · exact Or.inl (List.mem_append_left _ hmem)
          · exact Or.inr ⟨u, List.mem_append_left _ hu, hnil⟩
        · by_cases har' : a = r
          · exact Or.inl (List.mem_append_right _ (List.mem_singleton.mpr har'))
          · exact Or.inr ⟨_, List.mem_append_right _ (List.mem_singleton_self _),
              hskip a (by omega) (by omega)⟩
    · cases Except.ok.inj hrun

/-- The key at a position in use is the key the traversal began with. -/
theorem posKey_frozen (h : Frozen E₀ t₀ E t key) {r : ℕ} (hr : posVal t r ≠ .nil) :
    posKey t r = posKey t₀ r := by
  unfold posKey
  unfold posVal at hr
  rw [← h.sizearray]
  split
  · rfl
  · rename_i hge
    rw [if_neg hge] at hr
    exact (h.gkey_eq (h.inv.keyed_of_val hr)).1

/-- The entry at a position in use. -/
theorem slotOf_position (h : Inv E t) {r : ℕ} (hr : posVal t r ≠ .nil) :
    ∃ s, t.SlotOf (posKey t r) s ∧ t.slotGet s = posVal t r ∧ (posKey t r).ValidKey := by
  have hM : MAXSIZE = 2 ^ 26 := rfl
  have hmax := h.sizeMax
  unfold posVal at hr ⊢
  unfold posKey
  split
  · rename_i hlt
    have hself : isNumberEq (.number (cast_num ((r : ℤ) + 1))) (r + 1) = true :=
      isNumberEq_cast_num (by omega)
    exact ⟨.array r, (arrayslot_eq_some_iff hmax).mpr ⟨hself, hlt⟩, rfl, validKey_of_isNumberEq hself⟩
  · rename_i hge
    rw [if_neg hge] at hr
    have hk := h.keyed_of_val hr
    exact ⟨.node (r - t.sizearray), rawequal_refl hk, rfl, hk⟩

/-- An entry is at some position. -/
theorem exists_position (h : Inv E t) {k w : TValue} (hw : t.Holds k w) :
    ∃ r, r < positions t ∧ posVal t r ≠ .nil ∧ luaO_rawequalObj (posKey t r) k = true := by
  have hM : MAXSIZE = 2 ^ 26 := rfl
  have hmax := h.sizeMax
  obtain ⟨hw, s, hs, hget⟩ := hw
  cases s with
  | nilobject => exact hs.elim
  | array i =>
    obtain ⟨he, hi⟩ := (arrayslot_eq_some_iff hmax).mp hs
    refine ⟨i, by unfold positions; omega, ?_, ?_⟩
    · have hget : t.arr i = w := hget
      rw [posVal, if_pos hi, hget]
      exact hw
    · rw [posKey, if_pos hi]
      exact rawequal_of_isNumberEq (isNumberEq_cast_num (by omega)) he
  | node j =>
    have hv : t.gval j ≠ .nil := by
      have hget : t.gval j = w := hget
      rw [hget]
      exact hw
    have hlt : j < t.nodeCount := LuaTable.lt_of_gval hv
    have hle := h.nodeCount_le
    have hge : ¬ j + t.sizearray < t.sizearray := by omega
    refine ⟨j + t.sizearray, by unfold positions; omega, ?_, ?_⟩
    · rw [posVal, if_neg hge, Nat.add_sub_cancel]
      exact hv
    · rw [posKey, if_neg hge, Nat.add_sub_cancel]
      exact hs

/-- Positions with equal keys are the same position. -/
theorem position_unique (h₀ : Inv E₀ t₀) {r r' : ℕ} (hr : (posKey t₀ r).ValidKey)
    (hr' : (posKey t₀ r').ValidKey) (he : luaO_rawequalObj (posKey t₀ r) (posKey t₀ r') = true) :
    r = r' := by
  have hM : MAXSIZE = 2 ^ 26 := rfl
  have hmax := h₀.sizeMax
  have hself : ∀ i, i < t₀.sizearray → isNumberEq (.number (cast_num ((i : ℤ) + 1))) (i + 1) = true :=
    fun i hi => isNumberEq_cast_num (by omega)
  -- an array key is no node key
  have hmixed : ∀ i j, i < t₀.sizearray → t₀.Keyed j →
      luaO_rawequalObj (.number (cast_num ((i : ℤ) + 1))) (t₀.gkey j) = true → False := by
    intro i j hi hj he'
    have hslot := h₀.hashOnly j hj
    rw [← arrayslot_congr he', (arrayslot_eq_some_iff hmax).mpr ⟨hself i hi, hi⟩] at hslot
    cases hslot
  unfold posKey at hr hr' he
  split at he
  · rename_i hlt
    rw [if_pos hlt] at hr
    split at he
    · rename_i hlt'
      have h1 := hself r hlt
      rw [isNumberEq_congr he] at h1
      have := isNumberEq_inj (by omega) (by omega) h1 (hself r' hlt')
      omega
    · rename_i hge'
      rw [if_neg hge'] at hr'
      exact (hmixed r _ hlt hr' he).elim
  · rename_i hge
    rw [if_neg hge] at hr
    split at he
    · rename_i hlt'
      rw [rawequal_comm] at he
      exact (hmixed r' _ hlt' hr he).elim
    · rename_i hge'
      rw [if_neg hge'] at hr'
      have := h₀.unique _ _ hr hr' he
      omega

/-- What a visit answers is an entry of the table at that time. -/
theorem VisitAt.lookup {u : Visit} {r : ℕ} (h : VisitAt E₀ t₀ u r) :
    u.key.ValidKey ∧ u.value ≠ .nil ∧ lookup u.env u.table u.key = u.value := by
  obtain ⟨s, hs, hget, hk⟩ := slotOf_position h.frozen.inv h.used
  rw [h.key, h.value]
  exact ⟨hk, h.used, (h.frozen.inv.lookup_eq_iff hk h.used).mpr ⟨h.used, s, hs, hget⟩⟩

theorem VisitAt.key_eq {u : Visit} {r : ℕ} (h : VisitAt E₀ t₀ u r) : u.key = posKey t₀ r :=
  h.key.trans (posKey_frozen h.frozen h.used)

/-- Entries of one key, seen at two times of a traversal, are at one position. -/
theorem same_position (h₀ : Inv E₀ t₀) {E' : Env} {t' : LuaTable} {key' k w w' : TValue}
    (h : Frozen E₀ t₀ E t key) (h' : Frozen E₀ t₀ E' t' key') (hw : t.Holds k w) (hw' : t'.Holds k w') :
    ∃ r, r < positions t₀ ∧ posVal t r ≠ .nil ∧ posVal t' r ≠ .nil ∧
      luaO_rawequalObj (posKey t₀ r) k = true := by
  obtain ⟨r, hrp, hr, he⟩ := exists_position h.inv hw
  obtain ⟨r', _, hr', he'⟩ := exists_position h'.inv hw'
  obtain ⟨_, _, _, hk⟩ := slotOf_position h.inv hr
  obtain ⟨_, _, _, hk'⟩ := slotOf_position h'.inv hr'
  rw [posKey_frozen h hr] at he hk
  rw [posKey_frozen h' hr'] at he' hk'
  have heq := position_unique h₀ hk hk' (rawequal_trans he (rawequal_symm he'))
  have hpos : positions t = positions t₀ := by
    unfold positions LuaTable.sizenode
    rw [h.sizearray, h.lsizenode]
  exact ⟨r, hpos ▸ hrp, hr, heq ▸ hr', he⟩

/-- **Traversal.**  A traversal of a table whose dead keys hide nothing never fails and ends after at most
`positions` entries; it answers current entries, no key twice, and every key that had a value at all of
its calls. -/
theorem traversal_spec (h₀ : Inv E₀ t₀) (hd : DeadBehind E₀ t₀) (ha : DistinctAddresses t₀)
    (h : Traversed E₀ t₀ vs E t key) :
    (∃ r, luaH_next E t key = .ok r) ∧ vs.length ≤ positions t₀ ∧
    (vs.Pairwise fun u u' => luaO_rawequalObj u.key u'.key = false) ∧
    (∀ u ∈ vs, u.value ≠ .nil ∧ lookup u.env u.table u.key = u.value) ∧
    (luaH_next E t key = .ok none → ∀ k, k.ValidKey → (∀ u ∈ vs, lookup u.env u.table k ≠ .nil) →
      lookup E t k ≠ .nil → ∃ u ∈ vs, luaO_rawequalObj u.key k = true) := by
  obtain ⟨hf, ps, q, hc, hp⟩ := h.progress h₀ hd ha
  have hcall := next_from (findindex_spec h₀ hd ha hf hc)
  have hlen : vs.length = ps.length := hp.visits.length_eq
  have hvisit : ∀ i (hi : i < vs.length) (hi' : i < ps.length), VisitAt E₀ t₀ vs[i] ps[i] := fun i hi hi' =>
    (List.forall₂_iff_get.mp hp.visits).2 i hi hi'
  refine ⟨?_, ?_, ?_, fun u hu => ?_, fun hend k hk hall hlast => ?_⟩
  · rcases hcall with ⟨_, _, _, _, _, hrun⟩ | ⟨_, hrun⟩
    · exact ⟨_, hrun⟩
    · exact ⟨_, hrun⟩
  · -- the positions visited are distinct
    have hnodup : ps.Nodup := hp.increasing.imp fun h => h.ne
    have hsub : ps ⊆ List.range (positions t₀) := by
      intro r hr
      obtain ⟨i, hi, rfl⟩ := List.mem_iff_getElem.mp hr
      exact List.mem_range.mpr (hvisit i (by omega) hi).inside
    have := (hnodup.subperm hsub).length_le
    rw [List.length_range] at this
    omega
  · rw [List.pairwise_iff_getElem]
    intro i j hi hj hij
    have hi' : i < ps.length := by omega
    have hj' : j < ps.length := by omega
    have hui := hvisit i hi hi'
    have huj := hvisit j hj hj'
    rw [← Bool.not_eq_true]
    intro he
    have hlt : ps[i] < ps[j] := List.pairwise_iff_getElem.mp hp.increasing i j hi' hj' hij
    have hki := hui.lookup.1
    have hkj := huj.lookup.1
    rw [hui.key_eq] at hki he
    rw [huj.key_eq] at hkj he
    have := position_unique h₀ hki hkj he
    omega
  · obtain ⟨i, hi, rfl⟩ := List.mem_iff_getElem.mp hu
    exact (hvisit i hi (by omega)).lookup.2
  · have hholds : t.Holds k (lookup E t k) := (hf.inv.lookup_eq_iff hk hlast).mp rfl
    obtain ⟨r, hrp, hr, he⟩ := exists_position hf.inv hholds
    have hpos : positions t = positions t₀ := by
      unfold positions LuaTable.sizenode
      rw [hf.sizearray, hf.lsizenode]
    rw [posKey_frozen hf hr] at he
    by_cases hrq : r < q
    · rcases hp.passed r hrq with hmem | ⟨u, hu, hnil⟩
      · obtain ⟨i, hi', rfl⟩ := List.mem_iff_getElem.mp hmem
        have hi : i < vs.length := by omega
        refine ⟨vs[i], List.getElem_mem _, ?_⟩
        rw [(hvisit i hi hi').key_eq]
        exact he
      · -- the position was passed over, but the key had a value then
        obtain ⟨i, hi, rfl⟩ := List.mem_iff_getElem.mp hu
        have hui := hvisit i hi (by omega)
        have hne := hall _ hu
        have hholds' := (hui.frozen.inv.lookup_eq_iff hk hne).mp rfl
        obtain ⟨r', _, hr', hru, he'⟩ := same_position h₀ hf hui.frozen hholds hholds'
        obtain ⟨_, _, _, hkr⟩ := slotOf_position hf.inv hr
        obtain ⟨_, _, _, hkr'⟩ := slotOf_position hf.inv hr'
        rw [posKey_frozen hf hr] at hkr
        rw [posKey_frozen hf hr'] at hkr'
        have heq := position_unique h₀ hkr hkr' (rawequal_trans he (rawequal_symm he'))
        rw [← heq] at hru
        exact absurd hnil hru
    · rcases hcall with ⟨_, _, _, _, _, hrun⟩ | ⟨hnil, _⟩
      · rw [hend] at hrun
        cases Except.ok.inj hrun
      · exact absurd (hnil r (by omega) hrp) hr

end Runs

end Luwu
