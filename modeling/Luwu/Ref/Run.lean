import Luwu.Ref.Registry
import Luwu.Ref.Core

/-!
# Runs of reference calls

A run is a sequence of the calls on host references, with collections between them.  `Books` records what
each reference was handed out for.  Every call keeps the host in agreement with the books (`HostOk`), so
in every state a new reference is one that nobody holds, a reference reads what it was made for, and the
free lists hold what was released.  One thing is asked of the runs: a weak reference is not taken from the
end of its table while the value of a reference in use is gone (`RefCall.Allowed`).  Without it the length
of the table can be the reference that lost its value.
-/

namespace Luwu

open Function Luwu.Run Luwu.SlotStore

/-- What the references of each store were handed out for. -/
structure Books where
  registry : RegistryKind → RefLedger
  pool : Ledger ℤ TValue

def Books.empty : Books := ⟨fun _ _ => .unused, fun _ => .unused⟩

def Books.setRegistry (B : Books) (k : RegistryKind) (L : RefLedger) : Books :=
  { B with registry := update B.registry k L }

inductive RefAnswer where
  | ref (r : ℤ)
  | value (v : TValue)
  | done
  deriving DecidableEq

/-- The calls.  `ref .weak` is `lua_weakref`, and so on; a call that makes a reference comes with the
answers of the allocator, and a collection with what it left unmarked. -/
inductive RefCall where
  | ref (k : RegistryKind) (alloc : LuaTable → ℕ → Bool) (p : TValue)
  | unref (k : RegistryKind) (r : ℤ)
  | getref (k : RegistryKind) (r : ℤ)
  | refpool (room : Bool) (p : TValue)
  | unrefpool (r : ℤ)
  | getrefpool (r : ℤ)
  | collect (white : GCPtr → Bool)

namespace RefCall

def exec (strhash : GCPtr → BitVec 32) : RefCall → HostM RefAnswer
  | ref .strong alloc p => .ref <$> lua_ref ⟨strhash, alloc⟩ p
  | ref .weak alloc p => .ref <$> lua_weakref ⟨strhash, alloc⟩ p
  | unref .strong r => (fun _ => .done) <$> lua_unref r
  | unref .weak r => (fun _ => .done) <$> lua_weakunref r
  | getref .strong r => .value <$> lua_getref r
  | getref .weak r => .value <$> lua_getweakref r
  | refpool room p => .ref <$> lua_refpool room p
  | unrefpool r => (fun _ => .done) <$> lua_unrefpool r
  | getrefpool r => .value <$> lua_getrefpool r
  | collect white => (fun _ => .done) <$> (modify (Luwu.collect white) : HostM PUnit)

/-- The books after a call that answered. -/
def after (B : Books) : RefCall → RefAnswer → Books
  | ref k _ p, .ref r =>
    if r = LUA_REFNIL then B
    else B.setRegistry k (update (B.registry k) r (.held (p, false)))
  | unref k r, _ =>
    if r ≤ LUA_REFNIL then B else B.setRegistry k (update (B.registry k) r .released)
  | refpool _ p, .ref r =>
    if r = LUA_REFNIL then B else { B with pool := update B.pool r (.held p) }
  | unrefpool r, _ =>
    if r ≤ LUA_REFNIL then B else { B with pool := update B.pool r .released }
  | collect white, _ => B.setRegistry .weak (collectLedger white (B.registry .weak))
  | _, _ => B

/-- A reference is released and read only while it is held (or when it is none), and a weak reference
is taken from the end of its table only while no value of a weak reference in use was collected. -/
def Allowed (h : Host) (B : Books) : RefCall → Prop
  | ref .weak _ p => p ≠ .nil → h.registryfree .weak = 0 → ∀ r v, B.registry .weak r ≠ .held (v, true)
  | ref .strong _ _ => True
  | unref k r => r ≤ LUA_REFNIL ∨ ∃ a, B.registry k r = .held a
  | getref k r => r = LUA_REFNIL ∨ ∃ a, B.registry k r = .held a
  | refpool _ _ => True
  | unrefpool r => r ≤ LUA_REFNIL ∨ ∃ v, B.pool r = .held v
  | getrefpool r => r = LUA_REFNIL ∨ ∃ v, B.pool r = .held v
  | collect _ => True

/-- A call in a run; none when it faults. -/
def step (strhash : GCPtr → BitVec 32) (c : RefCall) (s : Host × Books) : Option (Host × Books) :=
  match c.exec strhash s.1 with
  | .ok a h => some (h, c.after s.2 a)
  | .error .fault _ => none
  | .error _ h => some (h, s.2)

def run (strhash : GCPtr → BitVec 32) : List RefCall → Host × Books → Option (Host × Books)
  | [], s => some s
  | c :: cs, s => (c.step strhash s).bind (run strhash cs)

/-- Every call of a run is allowed where it is made. -/
def Permitted (strhash : GCPtr → BitVec 32) : List RefCall → Host × Books → Prop
  | [], _ => True
  | c :: cs, s => c.Allowed s.1 s.2 ∧ ∀ s', c.step strhash s = some s' → Permitted strhash cs s'

end RefCall

/-- The host agrees with the books. -/
structure HostOk (strhash : GCPtr → BitVec 32) (h : Host) (B : Books) : Prop where
  registry : ∀ k, ∃ n, RegistryOk strhash (h.registry k) (h.registryfree k) (B.registry k) n
  kept : ∀ r v, B.registry .strong r ≠ .held (v, true)
  pool : PoolOk h.pool B.pool
  nilobject : h.nilobject = .nil

section Run

variable {strhash : GCPtr → BitVec 32} {h h' : Host} {B : Books} {k : RegistryKind} {p v : TValue}
  {r : ℤ} {n : ℕ} {E : Env} {t : LuaTable} {a : TValue × Bool} {c : RefCall}

/-! ### Registries -/

theorem onRegistry_ok {β : Type} {x : TableM β} {b : β} (hx : x (h.registry k) = .ok b t) :
    onRegistry k x h = .ok b (h.setRegistry k t) := by
  unfold onRegistry
  rw [hx]

theorem onRegistry_error {β : Type} {x : TableM β} {e : TableError}
    (hx : x (h.registry k) = .error e t) :
    onRegistry k x h = .error (.table e) (h.setRegistry k t) := by
  unfold onRegistry
  rw [hx]

theorem intvalue_number (x : Double) : intvalue (.number x) = pure (luai_num2int x) := rfl

/-- The store through a slot of the array part. -/
theorem slotSet_array (h : Host) (k : RegistryKind) (v : TValue) (i : ℕ) :
    h.slotSet k v (.array i) = h.setRegistry k ((h.registry k).slotSet v (.array i)) := rfl

/-- A host in which one registry was edited. -/
theorem HostOk.edit (hok : HostOk strhash h B) {L : RefLedger} {free : ℤ}
    (hreg : RegistryOk strhash t free L n) (hkept : k = .strong → ∀ r v, L r ≠ .held (v, true)) :
    HostOk strhash ((h.setRegistry k t).setFree k free) (B.setRegistry k L) where
  registry := by
    intro k'
    by_cases he : k' = k
    · subst he
      refine ⟨n, ?_⟩
      show RegistryOk strhash (update h.registry k' t k') (update h.registryfree k' free k')
        (update B.registry k' L k') n
      rw [update_self, update_self, update_self]
      exact hreg
    · obtain ⟨m, hm⟩ := hok.registry k'
      refine ⟨m, ?_⟩
      show RegistryOk strhash (update h.registry k t k') (update h.registryfree k free k')
        (update B.registry k L k') m
      rw [update_of_ne he, update_of_ne he, update_of_ne he]
      exact hm
  kept := by
    show ∀ r v, update B.registry k L .strong r ≠ .held (v, true)
    by_cases he : k = .strong
    · subst he
      rw [update_self]
      exact hkept rfl
    · rw [update_of_ne (Ne.symm he)]
      exact hok.kept
  pool := hok.pool
  nilobject := hok.nilobject

theorem setFree_self (h : Host) (k : RegistryKind) (t : LuaTable) :
    (h.setRegistry k t).setFree k (h.registryfree k) = h.setRegistry k t := by
  unfold Host.setFree Host.setRegistry
  rw [update_eq_self]

theorem setRegistry_setRegistry (h : Host) (k : RegistryKind) (t t' : LuaTable) :
    (h.setRegistry k t).setRegistry k t' = h.setRegistry k t' := by
  unfold Host.setRegistry
  rw [update_idem]

theorem setRegistry_self (h : Host) (k : RegistryKind) : h.setRegistry k (h.registry k) = h := by
  unfold Host.setRegistry
  rw [update_eq_self]

theorem Books.setRegistry_self (B : Books) (k : RegistryKind) :
    B.setRegistry k (B.registry k) = B := by
  unfold Books.setRegistry
  rw [update_eq_self]

/-- A registry whose elements moved holds the same references. -/
theorem HostOk.move (hok : HostOk strhash h B)
    (hreg : RegistryOk strhash t (h.registryfree k) (B.registry k) n) :
    HostOk strhash (h.setRegistry k t) B := by
  have := hok.edit (k := k) hreg (fun he => by subst he; exact hok.kept)
  rwa [setFree_self, Books.setRegistry_self] at this

theorem kept_held (hok : HostOk strhash h B) (hk : k = .strong) (r' : ℤ) (v' : TValue) :
    update (B.registry k) r (.held (p, false)) r' ≠ .held (v', true) := by
  subst hk
  by_cases he : r' = r
  · subst he
    rw [update_self]
    exact fun h => by cases h
  · rw [update_of_ne he]
    exact hok.kept r' v'

/-- **A reference is made**: it is one that nobody holds, or the table could not grow and nothing
changed. -/
theorem registryref_spec (hok : HostOk strhash h B) (hE : E.strhash = strhash) (hp : p ≠ .nil)
    (hall : h.registryfree k = 0 → ∀ r v, B.registry k r ≠ .held (v, true)) :
    (∃ r h', registryref E k p h = .ok r h' ∧ 0 < r ∧ (∀ a, B.registry k r ≠ .held a) ∧
      HostOk strhash h' (B.setRegistry k (update (B.registry k) r (.held (p, false))))) ∨
    ∃ e h', registryref E k p h = .error (.table e) h' ∧ HostOk strhash h' B := by
  obtain ⟨n, hreg⟩ := hok.registry k
  have hpn : p.isNil = false := by
    rw [TValue.isNil_eq_false_iff]
    exact hp
  by_cases hfree : h.registryfree k = 0
  · -- behind the last element
    have hz : RegistryOk strhash (h.registry k) 0 (B.registry k) n := hfree ▸ hreg
    have hfull : ∀ i, i < n → (h.registry k).arr i ≠ .nil := by
      intro i hi
      have hused : B.registry k (i + 1) ≠ .unused := (hz.issued _).mpr ⟨by omega, by omega⟩
      have hidx : ((i : ℤ) + 1 - 1).toNat = i := by omega
      obtain ⟨xs, hxs⟩ := hz.threads
      obtain rfl := hxs.empty
      cases hL : B.registry k (i + 1) with
      | unused => exact absurd hL hused
      | released => exact absurd ((hxs.mem_iff _).mpr hL) List.not_mem_nil
      | held a =>
        obtain ⟨v, c⟩ := a
        obtain ⟨hv, hslot⟩ := hz.held _ v c hL
        have hc : c = false := by
          cases c with
          | false => rfl
          | true => exact absurd hL (hall hfree _ _)
        rw [hc] at hslot
        unfold LuaTable.refslot at hslot
        rw [hidx] at hslot
        rw [hslot]
        exact hv
    obtain ⟨hn, hsame⟩ := hz.getn hfull
    have hz1 := hz.move hsame
    have hfull1 : ∀ i, i < n → (luaH_getn (h.registry k)).2.arr i ≠ .nil := fun i hi => by
      rw [hsame.arr]
      exact hfull i hi
    have hchoose : chooseref k h = .ok (n + 1) (h.setRegistry k (luaH_getn (h.registry k)).2) := by
      have hgetn : onRegistry k (fun t => .ok (luaH_getn t).1 (luaH_getn t).2) h
          = .ok (luaH_getn (h.registry k)).1 (h.setRegistry k (luaH_getn (h.registry k)).2) :=
        onRegistry_ok rfl
      unfold chooseref
      simp only [run_bind, run_get, hfree, ne_eq, not_true_eq_false, if_false, hgetn, run_pure, hn]
    have hset := luaH_setnum_append E (hz1.wf.ofHash hE) hz1.packed hz1.fits hfull1
    rcases hset with ⟨t', hrun, hs, hlt⟩ | ⟨e, t', hrun, _, hs⟩
    · have hs' : SameArray (hashEnv strhash) (luaH_getn (h.registry k)).2 t' :=
        ⟨hs.wf.ofHash hE.symm, hs.packed, hs.arr, hs.grows⟩
      obtain ⟨hunused, hnew⟩ := (hz1.move hs').issue hlt hp
      refine Or.inl ⟨n + 1, (h.setRegistry k t').slotSet k p (.array n), ?_, by omega, ?_, ?_⟩
      · unfold registryref
        have hsetrun : onRegistry k (luaH_setnum E (n + 1))
            (h.setRegistry k (luaH_getn (h.registry k)).2)
            = .ok (.array n) (h.setRegistry k t') := by
          have hself : (h.setRegistry k (luaH_getn (h.registry k)).2).registry k
              = (luaH_getn (h.registry k)).2 := update_self _ _ _
          rw [onRegistry_ok (hself ▸ hrun), setRegistry_setRegistry]
        have hf : ¬(h.setRegistry k t').registryfree k ≠ 0 := not_not.mpr hfree
        simp only [hpn, Bool.false_eq_true, if_false, run_bind, hchoose, hsetrun, run_get, if_neg hf, run_pure,
          run_modify]
      · exact fun a ha => by
          rw [hunused] at ha
          cases ha
      · have hedit := hok.edit (k := k) hnew (kept_held hok)
        have hslot : (h.setRegistry k t').slotSet k p (.array n)
            = (h.setRegistry k (t'.setref (n + 1) p)).setFree k 0 := by
          rw [slotSet_array, setRegistry_setRegistry, ← hfree, setFree_self]
          have hself : (h.setRegistry k t').registry k = t' := update_self _ _ _
          have hidx : ((n : ℤ) + 1 - 1).toNat = n := by omega
          rw [hself]
          unfold LuaTable.setref
          rw [hidx]
        rw [hslot]
        exact hedit
    · have hs' : SameArray (hashEnv strhash) (luaH_getn (h.registry k)).2 t' :=
        ⟨hs.wf.ofHash hE.symm, hs.packed, hs.arr, hs.grows⟩
      refine Or.inr ⟨e, h.setRegistry k t', ?_, ?_⟩
      · unfold registryref
        have hsetrun : onRegistry k (luaH_setnum E (n + 1))
            (h.setRegistry k (luaH_getn (h.registry k)).2)
            = .error (.table e) (h.setRegistry k t') := by
          have hself : (h.setRegistry k (luaH_getn (h.registry k)).2).registry k
              = (luaH_getn (h.registry k)).2 := update_self _ _ _
          rw [onRegistry_error (hself ▸ hrun), setRegistry_setRegistry]
        simp only [hpn, Bool.false_eq_true, if_false, run_bind, hchoose, hsetrun]
      · refine hok.move (n := n) ?_
        rw [hfree]
        exact hz1.move hs'
  · -- a released slot
    obtain ⟨d, hrel, hslot, hd, hnew⟩ := hreg.reuse hfree hp
    have hused : B.registry k (h.registryfree k) ≠ .unused := by
      rw [hrel]
      exact fun h => by cases h
    have hpos := ((hreg.issued _).mp hused).1
    refine Or.inl ⟨h.registryfree k,
      (h.setRegistry k ((h.registry k).setref (h.registryfree k) p)).setFree k d, ?_, by omega,
      fun a ha => (by rw [hrel] at ha; cases ha), hok.edit hnew (kept_held hok)⟩
    have hchoose : chooseref k h = .ok (h.registryfree k) h := by
      unfold chooseref
      simp only [run_bind, run_get, if_pos hfree, run_pure]
    have hsetrun : onRegistry k (luaH_setnum E (h.registryfree k)) h
        = .ok (.array (h.registryfree k - 1).toNat) h := by
      rw [onRegistry_ok (hreg.setnum hused E), setRegistry_self]
    have hint : intvalue (h.slotGet k (.array (h.registryfree k - 1).toNat)) h = .ok d h := by
      have hget : h.slotGet k (.array (h.registryfree k - 1).toNat) = .number (cast_num d) := hslot
      rw [hget, intvalue_number, run_pure, hd]
    unfold registryref
    simp only [hpn, Bool.false_eq_true, if_false, run_bind, hchoose, hsetrun, run_get, if_pos hfree, hint, run_modify,
      run_pure]
    rfl

/-- The slot of a reference that was handed out. -/
theorem registryslot_spec (hok : HostOk strhash h B) (hr : B.registry k r ≠ .unused) :
    registryslot k r h = .ok (.array (r - 1).toNat) h := by
  obtain ⟨n, hreg⟩ := hok.registry k
  unfold registryslot
  simp only [run_bind, run_get, hreg.getnum hr, run_pure]

/-- **A reference is released.** -/
theorem registryunref_spec (hok : HostOk strhash h B) (hr : B.registry k r = .held a) :
    ∃ h', registryunref k r h = .ok ⟨⟩ h' ∧
      HostOk strhash h' (B.setRegistry k (update (B.registry k) r .released)) := by
  obtain ⟨n, hreg⟩ := hok.registry k
  have hused : B.registry k r ≠ .unused := by
    rw [hr]
    exact fun h => by cases h
  have hpos := ((hreg.issued r).mp hused).1
  have hnone : ¬r ≤ LUA_REFNIL := by
    unfold LUA_REFNIL
    omega
  refine ⟨(h.setRegistry k ((h.registry k).setref r (.number (cast_num (h.registryfree k))))).setFree
    k r, ?_, hok.edit (hreg.release hr) (fun hk r' v' => ?_)⟩
  · unfold registryunref
    simp only [if_neg hnone, run_bind, registryslot_spec hok hused, run_modify]
    rfl
  · subst hk
    by_cases he : r' = r
    · subst he
      rw [update_self]
      exact fun h => by cases h
    · rw [update_of_ne he]
      exact hok.kept r' v'

/-- **A reference is read.** -/
theorem registryget_spec (hok : HostOk strhash h B) {c : Bool} (hr : B.registry k r = .held (v, c)) :
    registryget k r h = .ok (if c then .nil else v) h := by
  obtain ⟨n, hreg⟩ := hok.registry k
  have hused : B.registry k r ≠ .unused := by
    rw [hr]
    exact fun h => by cases h
  obtain ⟨_, hslot⟩ := hreg.held r v c hr
  unfold registryget
  simp only [run_bind, registryslot_spec hok hused, run_get, run_pure]
  exact congrArg (fun x => EStateM.Result.ok x h) hslot

/-- The reference of nil reads nil: it is a number outside the array part. -/
theorem registryget_refnil (hok : HostOk strhash h B) : registryget k LUA_REFNIL h = .ok .nil h := by
  obtain ⟨n, hreg⟩ := hok.registry k
  have hM : MAXSIZE = 2 ^ 26 := rfl
  have hmax := hreg.wf.inv.sizeMax
  have hout : (h.registry k).sizearray ≤ cast_unsigned (LUA_REFNIL - 1) := by
    unfold cast_unsigned LUA_REFNIL
    omega
  have hget := getnum_absent hreg.wf.inv hreg.packed (i := LUA_REFNIL) (by decide) hout
  have hnil : h.slotGet k .nilobject = .nil := hok.nilobject
  unfold registryget registryslot
  simp only [run_bind, run_get, hget, run_pure, hnil]

theorem registryref_nil (E : Env) (k : RegistryKind) (h : Host) :
    registryref E k .nil h = .ok LUA_REFNIL h := rfl

theorem registryunref_none (hr : r ≤ LUA_REFNIL) : registryunref k r h = .ok ⟨⟩ h := by
  unfold registryunref
  rw [if_pos hr, run_pure]

/-! ### The pool -/

theorem HostOk.setPool {g : RefPool} {L : Ledger ℤ TValue} (hok : HostOk strhash h B)
    (hg : PoolOk g L) : HostOk strhash { h with pool := g } { B with pool := L } :=
  ⟨hok.registry, hok.kept, hg, hok.nilobject⟩

theorem poolcapacity_spec {c : ℤ} (h0 : 0 ≤ c) (h1 : c < INT_MAX) :
    c + 1 ≤ poolcapacity c ∧ poolcapacity c ≤ INT_MAX := by
  have hmax : INT_MAX = 2147483647 := rfl
  unfold poolcapacity
  rw [hmax] at h1 ⊢
  split
  · omega
  · split <;> omega

/-- **A pool reference is made**: it is one that nobody holds; or there is no room, and nothing
changed. -/
theorem lua_refpool_spec (hok : HostOk strhash h B) (hp : p ≠ .nil) (room : Bool) :
    (∃ r h', lua_refpool room p h = .ok r h' ∧ 0 ≤ r ∧ (∀ v, B.pool r ≠ .held v) ∧
      HostOk strhash h' { B with pool := update B.pool r (.held p) }) ∨
    (h.pool.ref_size = INT_MAX ∧ lua_refpool room p h = .ok LUA_REFNIL h) ∨
    lua_refpool room p h = .error .errmem h := by
  have hpn : p.isNil = false := by
    rw [TValue.isNil_eq_false_iff]
    exact hp
  have hsome : ∀ {ref : ℤ} {h₁ : Host}, choosepool room h = .ok (some ref) h₁ →
      lua_refpool room p h = .ok ref { h₁ with pool := { h₁.pool.setslot ref (.value p) with
        gc_ref_gray := h₁.pool.gc_ref_gray || p.iscollectable } } := by
    intro ref h₁ hrun
    unfold lua_refpool
    simp only [hpn, Bool.false_eq_true, if_false, run_bind, hrun, run_modify, run_pure]
    rfl
  by_cases hfree : h.pool.ref_free = -1
  · by_cases hfull : h.pool.ref_size = INT_MAX
    · refine Or.inr (Or.inl ⟨hfull, ?_⟩)
      have hnone : choosepool room h = .ok none h := by
        unfold choosepool
        simp only [run_bind, run_get, hfree, ne_eq, not_true_eq_false, if_false, if_pos hfull,
          run_pure]
      unfold lua_refpool
      simp only [hpn, Bool.false_eq_true, if_false, run_bind, hnone, run_pure]
    · obtain ⟨hs1, hs2, hs3⟩ := hok.pool.size
      by_cases hgrow : h.pool.ref_size ≥ h.pool.ref_capacity
      · obtain ⟨hc1, hc2⟩ := poolcapacity_spec (c := h.pool.ref_capacity) (by omega) (by omega)
        cases room with
        | true =>
          obtain ⟨hunused, hnew⟩ := hok.pool.issue (p := p) (by omega) hc2 hp
          have hrun : choosepool true h = .ok (some h.pool.ref_size)
              { h with pool := { h.pool with
                ref_capacity := poolcapacity h.pool.ref_capacity
                ref_size := h.pool.ref_size + 1 } } := by
            unfold choosepool growpool
            simp only [run_bind, run_get, hfree, ne_eq, not_true_eq_false, if_false, if_neg hfull,
              if_pos hgrow, if_true, run_modify, run_pure]
          refine Or.inl ⟨_, _, hsome hrun, hs1, fun v hv => ?_, hok.setPool hnew⟩
          rw [hunused] at hv
          cases hv
        | false =>
          refine Or.inr (Or.inr ?_)
          have hrun : choosepool false h = .error .errmem h := by
            unfold choosepool growpool
            simp only [run_bind, run_get, hfree, ne_eq, not_true_eq_false, if_false, if_neg hfull,
              if_pos hgrow, Bool.false_eq_true, run_throw]
          unfold lua_refpool
          simp only [hpn, Bool.false_eq_true, if_false, run_bind, hrun]
      · obtain ⟨hunused, hnew⟩ := hok.pool.issue (p := p) (by omega) hs3 hp
        have hrun : choosepool room h = .ok (some h.pool.ref_size)
            { h with pool := { h.pool with ref_size := h.pool.ref_size + 1 } } := by
          unfold choosepool growpool
          simp only [run_bind, run_get, hfree, ne_eq, not_true_eq_false, if_false, if_neg hfull,
            if_neg hgrow, run_modify, run_pure]
        refine Or.inl ⟨_, _, hsome hrun, hs1, fun v hv => ?_, hok.setPool hnew⟩
        rw [hunused] at hv
        cases hv
  · obtain ⟨d, hrel, hnext, hnew⟩ := @PoolOk.reuse _ _ p
      (h.pool.gc_ref_gray || p.iscollectable) hok.pool hfree hp
    have hrun : choosepool room h = .ok (some h.pool.ref_free)
        { h with pool := { h.pool with ref_free := d } } := by
      unfold choosepool
      simp only [run_bind, run_get, ne_eq, hfree, not_false_eq_true, if_true, hnext, run_modify,
        run_pure]
    have hpos := (hok.pool.issued h.pool.ref_free).mp (by rw [hrel]; exact fun h => by cases h)
    refine Or.inl ⟨_, _, hsome hrun, hpos.1, fun v hv => ?_, hok.setPool hnew⟩
    rw [hrel] at hv
    cases hv

/-- A pool reference is released. -/
theorem lua_unrefpool_spec (hok : HostOk strhash h B) (hr : B.pool r = .held v) :
    ∃ h', lua_unrefpool r h = .ok ⟨⟩ h' ∧
      HostOk strhash h' { B with pool := update B.pool r .released } := by
  have hin := (hok.pool.issued r).mp (by rw [hr]; exact fun h => by cases h)
  have hnone : ¬r ≤ LUA_REFNIL := by
    unfold LUA_REFNIL
    omega
  refine ⟨_, ?_, hok.setPool (hok.pool.release hr)⟩
  unfold lua_unrefpool
  simp only [if_neg hnone, run_bind, run_get, if_pos hin, run_modify]
  rfl

theorem lua_unrefpool_none (hr : r ≤ LUA_REFNIL) : lua_unrefpool r h = .ok ⟨⟩ h := by
  unfold lua_unrefpool
  rw [if_pos hr, run_pure]

/-- A pool reference is read. -/
theorem lua_getrefpool_spec (hok : HostOk strhash h B) (hr : B.pool r = .held v) :
    lua_getrefpool r h = .ok v h := by
  have hin := (hok.pool.issued r).mp (by rw [hr]; exact fun h => by cases h)
  have hnone : r ≠ LUA_REFNIL := by
    unfold LUA_REFNIL
    omega
  obtain ⟨_, hslot⟩ := hok.pool.held r v hr
  unfold lua_getrefpool
  simp only [if_neg hnone, run_bind, run_get, if_pos hin, hslot, run_pure]

theorem lua_getrefpool_refnil (h : Host) : lua_getrefpool LUA_REFNIL h = .ok .nil h := rfl

/-! ### Collection -/

/-- A collection changes the weak registry only. -/
theorem HostOk.collect (hok : HostOk strhash h B) (white : GCPtr → Bool) :
    HostOk strhash (Luwu.collect white h)
      (B.setRegistry .weak (collectLedger white (B.registry .weak))) where
  registry := by
    intro k
    obtain ⟨n, hreg⟩ := hok.registry k
    cases k with
    | strong => exact ⟨n, hreg.traverse⟩
    | weak => exact ⟨n, hreg.traverse.clear white⟩
  kept := hok.kept
  pool := hok.pool
  nilobject := hok.nilobject

end Run

end Luwu
