import Luwu.Ref.Run

/-!
# References are exclusive

The runs start where `f_luaopen` leaves the host.  In every state of a permitted run a reference reads
what it was made for, both kinds of free list hold the released slots, and the next call hands out a
reference that nobody holds.  The last theorem is a run that is not permitted: a collection takes the
value of the only weak reference, and the next weak reference is the same number.
-/

namespace Luwu

open Function Luwu.Run Luwu.SlotStore

/-- The host after `f_luaopen`: the tables are `luaH_new(L, 0, 2)` and `luaH_new(L, 0, 0)`. -/
def f_luaopen : Host where
  registry
    | .strong => emptyTable.freshNodes 2
    | .weak => emptyTable
  registryfree := fun _ => 0
  pool := ⟨fun _ => .none 0, 0, 0, -1, false⟩
  nilobject := .nil

/-- What the references read, and what the free lists hold. -/
structure Exclusive (h : Host) (B : Books) : Prop where
  strong : ∀ r v c, B.registry .strong r = .held (v, c) → lua_getref r h = .ok v h
  weak : ∀ r v c, B.registry .weak r = .held (v, c) →
    lua_getweakref r h = .ok (if c then .nil else v) h
  pool : ∀ r v, B.pool r = .held v → lua_getrefpool r h = .ok v h
  refnil : lua_getref LUA_REFNIL h = .ok .nil h ∧ lua_getweakref LUA_REFNIL h = .ok .nil h ∧
    lua_getrefpool LUA_REFNIL h = .ok .nil h
  free : ∀ k, ∃ xs, Threads (B.registry k) (h.registry k).refnext (reflink (h.registryfree k)) xs
  poolfree : ∃ xs, Threads B.pool h.pool.refnext (poollink h.pool.ref_free) xs
  nilobject : h.nilobject = .nil

namespace RefCall

/-- The answer to a call: a new reference is one that nobody holds, unless it is the reference of nil
or the pool is full. -/
def New (s : Host × Books) : RefCall → RefAnswer → Prop
  | ref k _ p, .ref r => if p = .nil then r = LUA_REFNIL else 0 < r ∧ ∀ a, s.2.registry k r ≠ .held a
  | refpool _ p, .ref r =>
    if p = .nil then r = LUA_REFNIL
    else (0 ≤ r ∧ ∀ v, s.2.pool r ≠ .held v) ∨ (r = LUA_REFNIL ∧ s.1.pool.ref_size = INT_MAX)
  | _, _ => True

/-- A call answers as it should, or throws an error of the table or of the allocator, and then the
references stay what they were. -/
def Answers (strhash : GCPtr → BitVec 32) (c : RefCall) (s : Host × Books) : Prop :=
  match c.exec strhash s.1 with
  | .ok a h => c.New s a ∧ Exclusive h (c.after s.2 a)
  | .error e h => e ≠ .fault ∧ Exclusive h s.2

end RefCall

section Exclusive

variable {strhash : GCPtr → BitVec 32} {h : Host} {B : Books} {c : RefCall} {k : RegistryKind}
  {s s' : Host × Books} {p : TValue}

theorem HostOk.exclusive (hok : HostOk strhash h B) : Exclusive h B where
  strong := by
    intro r v c hr
    have hread := registryget_spec hok hr
    cases c with
    | false => exact hread
    | true => exact absurd hr (hok.kept r v)
  weak := fun r v c hr => registryget_spec hok hr
  pool := fun r v hr => lua_getrefpool_spec hok hr
  refnil := ⟨registryget_refnil hok, registryget_refnil hok, lua_getrefpool_refnil h⟩
  free := fun k => by
    obtain ⟨n, hreg⟩ := hok.registry k
    exact hreg.threads
  poolfree := hok.pool.threads
  nilobject := hok.nilobject

/-! ### One call -/

/-- What a call does to a host that agrees with the books. -/
def RefCall.Keeps (strhash : GCPtr → BitVec 32) (c : RefCall) (s : Host × Books) : Prop :=
  (∃ a h, c.exec strhash s.1 = .ok a h ∧ c.New s a ∧ HostOk strhash h (c.after s.2 a)) ∨
    ∃ e h, c.exec strhash s.1 = .error e h ∧ e ≠ .fault ∧ HostOk strhash h s.2

theorem registryref_exec (k : RegistryKind) (alloc : LuaTable → ℕ → Bool) (p : TValue) :
    RefCall.exec strhash (.ref k alloc p) = .ref <$> registryref ⟨strhash, alloc⟩ k p := by
  cases k <;> rfl

theorem registryget_exec (k : RegistryKind) (r : ℤ) :
    RefCall.exec strhash (.getref k r) = .value <$> registryget k r := by
  cases k <;> rfl

theorem registryunref_exec {r : ℤ} {u : Unit} {h' : Host} (hrun : registryunref k r h = .ok u h') :
    RefCall.exec strhash (.unref k r) h = .ok .done h' := by
  cases k <;>
  · unfold RefCall.exec lua_unref lua_weakunref
    simp only [run_map, run_bind, hrun, run_pure]

theorem keeps_ref (hok : HostOk strhash s.1 s.2) (alloc : LuaTable → ℕ → Bool)
    (hall : p ≠ .nil → s.1.registryfree k = 0 → ∀ r v, s.2.registry k r ≠ .held (v, true)) :
    (RefCall.ref k alloc p).Keeps strhash s := by
  by_cases hp : p = .nil
  · subst hp
    refine Or.inl ⟨.ref LUA_REFNIL, s.1, ?_, ?_, ?_⟩
    · rw [registryref_exec]
      simp only [run_map, registryref_nil]
    · simp only [RefCall.New, if_true]
    · simpa only [RefCall.after, if_true] using hok
  · rcases registryref_spec hok (E := ⟨strhash, alloc⟩) rfl hp (hall hp) with
      ⟨r, h', hrun, hpos, hnew, hok'⟩ | ⟨e, h', hrun, hok'⟩
    · have hr : r ≠ LUA_REFNIL := by
        unfold LUA_REFNIL
        omega
      refine Or.inl ⟨.ref r, h', ?_, ?_, ?_⟩
      · rw [registryref_exec]
        simp only [run_map, hrun]
      · simpa only [RefCall.New, if_neg hp] using ⟨hpos, hnew⟩
      · simpa only [RefCall.after, if_neg hr] using hok'
    · refine Or.inr ⟨.table e, h', ?_, (fun he => by cases he), hok'⟩
      rw [registryref_exec]
      simp only [run_map, hrun]

theorem keeps_refpool (hok : HostOk strhash s.1 s.2) (room : Bool) :
    (RefCall.refpool room p).Keeps strhash s := by
  by_cases hp : p = .nil
  · subst hp
    refine Or.inl ⟨.ref LUA_REFNIL, s.1, rfl, ?_, ?_⟩
    · simp only [RefCall.New, if_true]
    · simpa only [RefCall.after, if_true] using hok
  · rcases lua_refpool_spec hok hp room with
      ⟨r, h', hrun, hpos, hnew, hok'⟩ | ⟨hfull, hrun⟩ | hrun
    · have hr : r ≠ LUA_REFNIL := by
        unfold LUA_REFNIL
        omega
      refine Or.inl ⟨.ref r, h', ?_, ?_, ?_⟩
      · unfold RefCall.exec
        simp only [run_map, hrun]
      · simpa only [RefCall.New, if_neg hp] using Or.inl ⟨hpos, hnew⟩
      · simpa only [RefCall.after, if_neg hr] using hok'
    · refine Or.inl ⟨.ref LUA_REFNIL, s.1, ?_, ?_, ?_⟩
      · unfold RefCall.exec
        simp only [run_map, hrun]
      · simpa only [RefCall.New, if_neg hp] using Or.inr ⟨trivial, hfull⟩
      · simpa only [RefCall.after, if_true] using hok
    · refine Or.inr ⟨.errmem, s.1, ?_, (fun he => by cases he), hok⟩
      unfold RefCall.exec
      simp only [run_map, hrun]

/-- **Every call keeps the host in agreement with the books.** -/
theorem exec_spec (hok : HostOk strhash s.1 s.2) (hall : c.Allowed s.1 s.2) : c.Keeps strhash s := by
  cases c with
  | ref k alloc p =>
    refine keeps_ref hok alloc (fun hp hfree => ?_)
    cases k with
    | strong => exact hok.kept
    | weak => exact hall hp hfree
  | unref k r =>
    by_cases hr : r ≤ LUA_REFNIL
    · refine Or.inl ⟨.done, s.1, registryunref_exec (registryunref_none hr), trivial, ?_⟩
      simpa only [RefCall.after, if_pos hr] using hok
    · obtain ⟨a, ha⟩ := hall.resolve_left hr
      obtain ⟨h', hrun, hok'⟩ := registryunref_spec hok ha
      refine Or.inl ⟨.done, h', registryunref_exec hrun, trivial, ?_⟩
      simpa only [RefCall.after, if_neg hr] using hok'
  | getref k r =>
    have hread : ∃ v, registryget k r s.1 = .ok v s.1 := by
      rcases hall with rfl | ⟨a, ha⟩
      · exact ⟨_, registryget_refnil hok⟩
      · exact ⟨_, registryget_spec hok ha⟩
    obtain ⟨v, hrun⟩ := hread
    refine Or.inl ⟨.value v, s.1, ?_, trivial, hok⟩
    rw [registryget_exec]
    simp only [run_map, hrun]
  | refpool room p => exact keeps_refpool hok room
  | unrefpool r =>
    by_cases hr : r ≤ LUA_REFNIL
    · refine Or.inl ⟨.done, s.1, ?_, trivial, ?_⟩
      · unfold RefCall.exec
        simp only [run_map, lua_unrefpool_none hr]
      · simpa only [RefCall.after, if_pos hr] using hok
    · obtain ⟨v, hv⟩ := hall.resolve_left hr
      obtain ⟨h', hrun, hok'⟩ := lua_unrefpool_spec hok hv
      refine Or.inl ⟨.done, h', ?_, trivial, ?_⟩
      · unfold RefCall.exec
        simp only [run_map, hrun]
      · simpa only [RefCall.after, if_neg hr] using hok'
  | getrefpool r =>
    have hread : ∃ v, lua_getrefpool r s.1 = .ok v s.1 := by
      rcases hall with rfl | ⟨v, hv⟩
      · exact ⟨_, lua_getrefpool_refnil s.1⟩
      · exact ⟨_, lua_getrefpool_spec hok hv⟩
    obtain ⟨v, hrun⟩ := hread
    refine Or.inl ⟨.value v, s.1, ?_, trivial, hok⟩
    unfold RefCall.exec
    simp only [run_map, hrun]
  | collect white => exact Or.inl ⟨.done, _, rfl, trivial, hok.collect white⟩

theorem exec_answers (hok : HostOk strhash s.1 s.2) (hall : c.Allowed s.1 s.2) :
    c.Answers strhash s := by
  unfold RefCall.Answers
  rcases exec_spec hok hall with ⟨a, h', hrun, hnew, hok'⟩ | ⟨e, h', hrun, he, hok'⟩
  · rw [hrun]
    exact ⟨hnew, hok'.exclusive⟩
  · rw [hrun]
    exact ⟨he, hok'.exclusive⟩

theorem step_spec (hok : HostOk strhash s.1 s.2) (hall : c.Allowed s.1 s.2) :
    ∃ s', c.step strhash s = some s' ∧ HostOk strhash s'.1 s'.2 := by
  unfold RefCall.step
  rcases exec_spec hok hall with ⟨a, h', hrun, _, hok'⟩ | ⟨e, h', hrun, he, hok'⟩
  · rw [hrun]
    exact ⟨_, rfl, hok'⟩
  · rw [hrun]
    cases e with
    | fault => exact absurd rfl he
    | table e => exact ⟨_, rfl, hok'⟩
    | errmem => exact ⟨_, rfl, hok'⟩

/-! ### Runs -/

theorem run_spec {cs : List RefCall} (hok : HostOk strhash s.1 s.2)
    (hperm : RefCall.Permitted strhash cs s) :
    ∃ s', RefCall.run strhash cs s = some s' ∧ HostOk strhash s'.1 s'.2 := by
  induction cs generalizing s with
  | nil => exact ⟨s, rfl, hok⟩
  | cons c cs ih =>
    obtain ⟨s₁, hstep, hok₁⟩ := step_spec hok hperm.1
    obtain ⟨s', hrun, hok'⟩ := ih hok₁ (hperm.2 s₁ hstep)
    refine ⟨s', ?_, hok'⟩
    unfold RefCall.run
    rw [hstep]
    exact hrun

/-- A table without elements holds no references. -/
theorem registryOk_empty {t : LuaTable} (hwf : Wellformed (hashEnv strhash) t)
    (hkeys : ∀ i, t.gkey i = .nil) (harr : ∀ i, t.arr i = .nil) :
    RegistryOk strhash t 0 (fun _ => .unused) 0 where
  wf := hwf
  packed := fun i d hi => by
    rw [hkeys i] at hi
    cases hi
  fits := Nat.zero_le _
  issued := fun r => iff_of_false (fun h => h rfl) (by omega)
  rest := fun i _ => harr i
  held := fun r v c hr => by cases hr
  released := fun r hr => by cases hr
  free_range := by decide
  threads := ⟨[], rfl, List.nodup_nil, fun r => iff_of_false List.not_mem_nil (fun h => by cases h)⟩

theorem f_luaopen_ok (strhash : GCPtr → BitVec 32) : HostOk strhash f_luaopen Books.empty where
  registry := by
    intro k
    refine ⟨0, ?_⟩
    cases k with
    | strong =>
      refine registryOk_empty ⟨?_, rfl⟩ (fun i => gkey_freshNodes i) (fun i => rfl)
      exact (filling_freshNodes le_rfl (Nat.zero_le _) (by decide)).inv
    | weak =>
      have hfresh : emptyTable.freshNodes 0 = emptyTable := by
        unfold LuaTable.freshNodes emptyTable
        rw [ceillog2_eq]
        rfl
      refine registryOk_empty ⟨?_, rfl⟩ (fun i => LuaTable.gkey_of_ge (Nat.zero_le i)) (fun i => rfl)
      show Inv (hashEnv strhash) emptyTable
      rw [← hfresh]
      exact (filling_freshNodes le_rfl (Nat.zero_le _) (Nat.zero_le _)).inv
  kept := fun r v hr => by cases hr
  pool := {
    issued := fun r => iff_of_false (fun h => h rfl) (by
      show ¬(0 ≤ r ∧ r < 0)
      omega)
    size := by decide
    held := fun r v hr => by cases hr
    released := fun r hr => by cases hr
    free_range := by decide
    threads := ⟨[], rfl, List.nodup_nil, fun r => iff_of_false List.not_mem_nil (fun h => by cases h)⟩ }
  nilobject := rfl

/-- **Host references are exclusive.**  Every permitted run goes through; in the state it reaches every
reference reads what it was made for and the free lists hold what was released, and the next call hands
out a reference that nobody holds. -/
theorem references_exclusive (strhash : GCPtr → BitVec 32) (cs : List RefCall)
    (hperm : RefCall.Permitted strhash cs (f_luaopen, .empty)) :
    ∃ s, RefCall.run strhash cs (f_luaopen, .empty) = some s ∧ Exclusive s.1 s.2 ∧
      ∀ c : RefCall, c.Allowed s.1 s.2 → c.Answers strhash s := by
  obtain ⟨s, hrun, hok⟩ := run_spec (s := (f_luaopen, .empty)) (f_luaopen_ok strhash) hperm
  exact ⟨s, hrun, hok.exclusive, fun c hall => exec_answers hok hall⟩

/-! ### Two runs -/

/-- Strings hash by their address. -/
def plainhash : GCPtr → BitVec 32 := fun p => p.setWidth 32

/-- A weak reference to a table, while memory does not run out. -/
def weakref (p : GCPtr) : RefCall := .ref .weak (fun _ _ => true) (.gc .table p)

def weakrefCollected : List RefCall := [weakref 16, .collect fun _ => true]

theorem weakrefCollected_books :
    (RefCall.run plainhash weakrefCollected (f_luaopen, .empty)).map (fun s => s.2.registry .weak 1)
      = some (.held (.gc .table 16, true)) := by decide +kernel

/-- A weak reference whose value was collected is released. -/
theorem references_exclusive_sample :
    ∃ s, RefCall.run plainhash (weakrefCollected ++ [.unref .weak 1]) (f_luaopen, .empty) = some s ∧
      Exclusive s.1 s.2 ∧ ∀ c : RefCall, c.Allowed s.1 s.2 → c.Answers plainhash s := by
  refine references_exclusive plainhash _ ⟨fun _ _ r v hr => (by cases hr), fun s₁ h₁ => ?_⟩
  refine ⟨trivial, fun s₂ h₂ => ⟨Or.inr ⟨(.gc .table 16, true), ?_⟩, fun _ _ => trivial⟩⟩
  have hrun : RefCall.run plainhash weakrefCollected (f_luaopen, .empty) = some s₂ := by
    unfold weakrefCollected RefCall.run
    rw [h₁]
    unfold RefCall.run
    rw [Option.bind_some, h₂]
    rfl
  have hbooks := weakrefCollected_books
  rw [hrun] at hbooks
  exact Option.some.inj hbooks

/-- While that reference is not released, the next weak reference is the same number and takes over what
it reads. -/
theorem lua_weakref_twice :
    ∃ s, RefCall.run plainhash weakrefCollected (f_luaopen, .empty) = some s ∧
      s.2.registry .weak 1 = .held (.gc .table 16, true) ∧
      ∃ h h', (weakref 32).exec plainhash s.1 = .ok (.ref 1) h ∧
        lua_getweakref 1 h = .ok (.gc .table 32) h' := by
  have hbooks := weakrefCollected_books
  have hobs : ((RefCall.run plainhash weakrefCollected (f_luaopen, .empty)).bind fun s =>
      match (weakref 32).exec plainhash s.1 with
      | .ok a h =>
        match lua_getweakref 1 h with
        | .ok v _ => some (a, v)
        | .error _ _ => none
      | .error _ _ => none) = some (.ref 1, .gc .table 32) := by decide +kernel
  obtain ⟨s, hrun, hs⟩ := Option.bind_eq_some_iff.mp hobs
  rw [hrun] at hbooks
  refine ⟨s, hrun, Option.some.inj hbooks, ?_⟩
  split at hs
  · next a h hexec =>
    split at hs
    · next v h' hget =>
      obtain ⟨rfl, rfl⟩ := Prod.mk.inj (Option.some.inj hs)
      exact ⟨h, h', hexec, hget⟩
    · cases hs
  · cases hs

end Exclusive

end Luwu
