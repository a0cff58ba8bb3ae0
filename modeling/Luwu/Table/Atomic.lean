import Luwu.Table.Traversal

/-!
# Running out of memory

`resize` allocates the array part, then the hash part, and gives memory back last; each of the three can fail.
`Short` says what is left of the table then.  The table is as good as before unless

* the array part has grown over a key that is still in the hash part, where it is not looked for any more; or
* the array part was to shrink and the hash part is replaced already.

`ResizeSafe` excludes the two.  A step that runs out of memory keeps the finite map if and only if it is safe, so
a run whose failing steps are all safe keeps it throughout.  The resize of the collector never touches the array
part, and is always safe.
-/

namespace Luwu

section Atomic

variable {E : Env} {t t' : LuaTable} {m : KeyMap} {nasize nhsize : ℕ} {key : TValue}

/-! ### One resize -/

/-- When `resize` may run out of memory.  Growing: if the array part itself is not granted, or no key of the hash part
belongs there.  Shrinking: if the hash part is not granted, so that nothing has been replaced. -/
structure ResizeSafe (E : Env) (t : LuaTable) (nasize nhsize : ℕ) : Prop where
  grows : t.sizearray < nasize → E.alloc t (nasize * sizeofTValue) = false ∨ Unshadowed t nasize
  shrinks : nasize < t.sizearray → nhsize ≠ 0 ∧ E.alloc t (capacity nhsize * sizeofLuaNode) = false

theorem resizeSafe_of_eq (E : Env) (t : LuaTable) (nhsize : ℕ) : ResizeSafe E t t.sizearray nhsize :=
  ⟨fun h => absurd h (lt_irrefl _), fun h => absurd h (lt_irrefl _)⟩

/-- A safe resize that fails leaves the map as it was. -/
theorem Short.sameMap (hs : Short E t nasize nhsize t') (h : Wellformed E t) (hsafe : ResizeSafe E t nasize nhsize) :
    SameMap E t t' := by
  cases hs with
  | array grows fails => exact SameMap.refl h
  | nodes limit given asked fails =>
    unfold LuaTable.widened
    by_cases hgrow : t.sizearray < nasize
    · rw [if_pos hgrow]
      rcases hsafe.grows hgrow with hrefused | hunshadowed
      · rw [given hgrow] at hrefused
        cases hrefused
      · exact h.grown hunshadowed hgrow.le limit
    · rw [if_neg hgrow]
      exact SameMap.refl h
  | shrunk shrinks given fails sizearray arrayLen =>
    obtain ⟨hasked, hrefused⟩ := hsafe.shrinks shrinks
    rw [given hasked] at hrefused
    cases hrefused

/-- A failed resize that leaves a well-formed table was safe. -/
theorem Short.safe (hs : Short E t nasize nhsize t') (h : Wellformed E t) (hwf : Wellformed E t') :
    ResizeSafe E t nasize nhsize := by
  cases hs with
  | array grows fails => exact ⟨fun _ => Or.inl fails, fun hshrink => by omega⟩
  | nodes limit given asked fails =>
    unfold LuaTable.widened at hwf fails
    constructor
    · intro hgrow
      right
      rw [if_pos hgrow] at hwf
      exact fun i hi => ⟨hwf.inv.hashOnly i hi, hwf.inv.boundary i hi⟩
    · intro hshrink
      rw [if_neg (by omega)] at fails
      exact ⟨asked, fails⟩
  | shrunk shrinks given fails sizearray arrayLen =>
    -- the array block is longer than the array part
    have hfull := hwf.full
    have hold := h.full
    omega

/-! ### One operation -/

/-- When an insertion may run out of memory. -/
def GrowSafe (E : Env) (t : LuaTable) (key : TValue) : Prop :=
  ∀ na nh, rehashSizes (t.growing key) key = some (na, nh) → ResizeSafe E (t.growing key) na nh

/-- When an operation may run out of memory. -/
def TableOp.Safe (E : Env) (t : LuaTable) : TableOp → Prop
  | .set k _ => GrowSafe E t k
  | .setnum i _ => GrowSafe E t (.number (cast_num i))
  | .setstr s _ => GrowSafe E t (.gc .string s)
  | .resizearray n => ∀ asize, adjustasize t n none = some asize → ResizeSafe E t asize t.hashsize
  | .resizehash n => ResizeSafe E t t.sizearray n
  | _ => True

theorem GrowShort.sameMap (hs : GrowShort E t key t') (hsafe : GrowSafe E t key) : SameMap E t t' := by
  obtain ⟨hsame, na, nh, hsizes, hshort⟩ := hs
  exact hsame.trans (hshort.sameMap hsame.wf (hsafe na nh hsizes))

theorem GrowShort.safe (hs : GrowShort E t key t') (hwf : Wellformed E t') : GrowSafe E t key := by
  obtain ⟨hsame, na, nh, hsizes, hshort⟩ := hs
  intro na' nh' hsizes'
  obtain ⟨rfl, rfl⟩ := Prod.mk.inj (Option.some.inj (hsizes.symm.trans hsizes'))
  exact hshort.safe hsame.wf hwf

theorem TableOp.Short.sameMap {op : TableOp} (hs : op.Short E t t') (h : Wellformed E t) (hsafe : op.Safe E t) :
    SameMap E t t' := by
  cases op with
  | set k v => exact GrowShort.sameMap hs hsafe
  | setnum i v => exact GrowShort.sameMap hs hsafe
  | setstr s v => exact GrowShort.sameMap hs hsafe
  | resizearray n =>
    obtain ⟨asize, hadj, hshort⟩ := hs
    exact hshort.sameMap h (hsafe asize hadj)
  | resizehash n => exact Luwu.Short.sameMap hs h hsafe
  | _ => exact hs.elim

theorem TableOp.Short.safe {op : TableOp} (hs : op.Short E t t') (h : Wellformed E t) (hwf : Wellformed E t') :
    op.Safe E t := by
  cases op with
  | set k v => exact GrowShort.safe hs hwf
  | setnum i v => exact GrowShort.safe hs hwf
  | setstr s v => exact GrowShort.safe hs hwf
  | resizearray n =>
    obtain ⟨asize, hadj, hshort⟩ := hs
    intro asize' hadj'
    obtain rfl := Option.some.inj (hadj.symm.trans hadj')
    exact hshort.safe h hwf
  | resizehash n => exact Luwu.Short.safe hs h hwf
  | _ => exact hs.elim

/-- An operation that runs out of memory. -/
theorem exec_errmem (op : TableOp) (hc : op.Contract E t) (hs : Simulates ⟨E, t, m⟩)
    (herr : op.exec E t = .error .errmem t') : op.Short E t t' := by
  rcases exec_outcomes op hc hs with ⟨_, hrun, _⟩ | ⟨_, hrun, _⟩ | ⟨t'', hrun, hshort⟩ <;> rw [hrun] at herr
  · cases herr
  · cases herr
  · obtain rfl := (EStateM.Result.error.inj herr).2
    exact hshort

/-! ### What a table denotes -/

/-- Calls of `luaH_next` from nil on, the entries they answered, and the last key. -/
inductive Walked (E : Env) (t : LuaTable) : List (TValue × TValue) → TValue → Prop
  | start : Walked E t [] .nil
  | next {vs : List (TValue × TValue)} {key k v : TValue} (before : Walked E t vs key)
      (call : luaH_next E t key = .ok (some (k, v))) : Walked E t (vs ++ [(k, v)]) k

/-- What the calls of a traversal answer: a next call succeeds, the entries are those of the map, no key comes twice,
there is an end, and at the end no key is missing. -/
structure Enumerates (E : Env) (t : LuaTable) (m : KeyMap) (vs : List (TValue × TValue)) (key : TValue) : Prop where
  goesOn : ∃ r, luaH_next E t key = .ok r
  ends : vs.length ≤ positions t
  distinct : vs.Pairwise fun u u' => luaO_rawequalObj u.1 u'.1 = false
  entries : ∀ u ∈ vs, u.2 ≠ .nil ∧ u.1.ValidKey ∧ m u.1 = u.2
  complete : luaH_next E t key = .ok none → ∀ k, k.ValidKey → m k ≠ .nil → ∃ u ∈ vs, luaO_rawequalObj u.1 k = true

/-- A table denotes a finite map: the invariant holds, lookups answer its values, and traversals its entries. -/
structure Denotes (E : Env) (t : LuaTable) (m : KeyMap) : Prop where
  wf : Wellformed E t
  get : ∀ k, k.ValidKey → ∃ s, luaH_get E t k = some s ∧ t.slotGet s = m k
  next : DistinctAddresses t → ∀ vs key, Walked E t vs key → Enumerates E t m vs key

theorem Walked.traversed {vs : List (TValue × TValue)} (h : Walked E t vs key) :
    Traversed E t (vs.map fun u => ⟨E, t, u.1, u.2⟩) E t key := by
  induction h with
  | start => exact .start
  | next before call ih =>
    rw [List.map_append]
    exact ih.next call

/-- The keys that a traversal answers are valid. -/
theorem Traversed.validKey {E₀ : Env} {t₀ : LuaTable} {vs : List Visit} (h₀ : Inv E₀ t₀) (hd : DeadBehind E₀ t₀)
    (ha : DistinctAddresses t₀) (h : Traversed E₀ t₀ vs E t key) : ∀ u ∈ vs, u.key.ValidKey := by
  intro u hu
  obtain ⟨_, ps, q, _, hp⟩ := h.progress h₀ hd ha
  obtain ⟨i, hi, rfl⟩ := List.mem_iff_getElem.mp hu
  have hlen : vs.length = ps.length := hp.visits.length_eq
  have hvisit : VisitAt E₀ t₀ vs[i] ps[i] := (List.forall₂_iff_get.mp hp.visits).2 i hi (by omega)
  exact hvisit.lookup.1

theorem Simulates.denotes (hs : Simulates ⟨E, t, m⟩) : Denotes E t m := by
  have hinv : Inv E t := hs.wf.inv
  refine ⟨hs.wf, fun k hk => ?_, fun haddr vs key hwalk => ?_⟩
  · have hval := hs.lookup k hk
    unfold Luwu.lookup at hval
    rcases hinv.get_cases hk with ⟨s, _, hget⟩ | ⟨hget, _⟩ <;> rw [hget] at hval
    · exact ⟨s, hget, hval⟩
    · exact ⟨.nilobject, hget, hval⟩
  · obtain ⟨hgoes, hends, hdistinct, hentries, hcomplete⟩ := traversal_spec hinv hs.dead haddr hwalk.traversed
    rw [List.length_map] at hends
    rw [List.pairwise_map] at hdistinct
    refine ⟨hgoes, hends, hdistinct, fun u hu => ?_, fun hend k hk hne => ?_⟩
    · have hmem : (⟨E, t, u.1, u.2⟩ : Visit) ∈ vs.map fun u => ⟨E, t, u.1, u.2⟩ := List.mem_map_of_mem hu
      obtain ⟨hne, hlookup⟩ := hentries _ hmem
      have hvalid := hwalk.traversed.validKey hinv hs.dead haddr _ hmem
      exact ⟨hne, hvalid, (hs.lookup _ hvalid).symm.trans hlookup⟩
    · have hlookup := hs.lookup k hk
      have hne' : Luwu.lookup E t k ≠ .nil := hlookup.trans_ne hne
      obtain ⟨u, hu, he⟩ := hcomplete hend k hk (fun u hu => by
        obtain ⟨_, _, rfl⟩ := List.mem_map.mp hu
        exact hne') hne'
      obtain ⟨v, hv, rfl⟩ := List.mem_map.mp hu
      exact ⟨v, hv, he⟩

/-- **One operation that runs out of memory** leaves the table denoting the same map if and only if it was safe. -/
theorem exec_errmem_iff (op : TableOp) (hc : op.Contract E t) (hs : Simulates ⟨E, t, m⟩)
    (herr : op.exec E t = .error .errmem t') : Denotes E t' m ↔ op.Safe E t := by
  have hshort := exec_errmem op hc hs herr
  constructor
  · intro hdenotes
    exact hshort.safe hs.wf hdenotes.wf
  · intro hsafe
    exact ((hshort.sameMap hs.wf hsafe).simulates hs).denotes

/-! ### Runs -/

/-- Every operation of a run finds its contract met, and those that run out of memory are safe. -/
def TableOp.SafeContracts : World → List TableOp → Prop
  | _, [] => True
  | w, op :: ops => op.Contract w.env w.table ∧
      (∀ t', op.exec w.env w.table = .error .errmem t' → op.Safe w.env w.table) ∧
      SafeContracts (step w op) ops

theorem step_simulates_safe {w : World} (op : TableOp) (hc : op.Contract w.env w.table)
    (hsafe : ∀ t', op.exec w.env w.table = .error .errmem t' → op.Safe w.env w.table) (hs : Simulates w) :
    Simulates (TableOp.step w op) := by
  unfold TableOp.step
  rcases exec_outcomes op hc hs with ⟨t', hrun, h⟩ | ⟨t', hrun, h⟩ | ⟨t', hrun, hshort⟩ <;> rw [hrun]
  · exact h
  · exact h
  · exact (hshort.sameMap hs.wf (hsafe t' hrun)).simulates hs

theorem run_simulates_safe {w : World} (ops : List TableOp) (hc : TableOp.SafeContracts w ops) (hs : Simulates w) :
    Simulates (TableOp.run w ops) := by
  induction ops generalizing w with
  | nil => exact hs
  | cons op ops ih => exact ih hc.2.2 (step_simulates_safe op hc.1 hc.2.1 hs)

/-- The same heap, with memory to spare. -/
def Env.roomy (E : Env) : Env := { E with alloc := fun _ _ => true }

theorem roomy_roomy (E : Env) : E.roomy.Roomy := fun _ _ => rfl

/-- A new table does not depend on the memory that is left. -/
theorem luaH_new_ok {narray nhash : ℕ} {t₀ : LuaTable} (hnew : luaH_new E narray nhash t₀ = .ok ⟨⟩ t) :
    luaH_new E.roomy narray nhash t₀ = .ok ⟨⟩ t := by
  obtain ⟨h1, h2⟩ := luaH_new_sizes hnew
  have harray : ∀ t₁ t₂, setarrayvector E narray t₁ = .ok ⟨⟩ t₂ → setarrayvector E.roomy narray t₁ = .ok ⟨⟩ t₂ := by
    intro t₁ t₂ hrun
    by_cases hfail : 0 < narray ∧ E.alloc t₁ (narray * sizeofTValue) = false
    · rw [setarrayvector_errmem h1 hfail.1 hfail.2] at hrun
      cases hrun
    · rw [setarrayvector_ok h1 fun h0 => Bool.of_not_eq_false fun hf => hfail ⟨h0, hf⟩] at hrun
      rw [setarrayvector_run (roomy_roomy E) h1]
      exact hrun
  have hnodes : ∀ t₁ t₂, setnodevector E nhash t₁ = .ok ⟨⟩ t₂ → setnodevector E.roomy nhash t₁ = .ok ⟨⟩ t₂ := by
    intro t₁ t₂ hrun
    by_cases hfail : nhash ≠ 0 ∧ E.alloc t₁ (capacity nhash * sizeofLuaNode) = false
    · rw [setnodevector_errmem h2 hfail.1 hfail.2] at hrun
      cases hrun
    · rw [setnodevector_ok h2 fun h0 => Bool.of_not_eq_false fun hf => hfail ⟨h0, hf⟩] at hrun
      rw [setnodevector_run (roomy_roomy E) h2]
      exact hrun
  unfold luaH_new at hnew ⊢
  rw [TableM.set_bind] at hnew ⊢
  by_cases ha : 0 < narray
  · rw [if_pos ha] at hnew ⊢
    cases hrun : setarrayvector E narray emptyTable with
    | error e t₁ =>
      rw [TableM.bind_error _ hrun] at hnew
      cases hnew
    | ok _ t₁ =>
      rw [TableM.bind_ok _ hrun] at hnew
      rw [TableM.bind_ok _ (harray _ _ hrun)]
      by_cases hn : 0 < nhash
      · rw [if_pos hn] at hnew ⊢
        exact hnodes _ _ hnew
      · rw [if_neg hn] at hnew ⊢
        exact hnew
  · rw [if_neg ha] at hnew ⊢
    by_cases hn : 0 < nhash
    · rw [if_pos hn] at hnew ⊢
      exact hnodes _ _ hnew
    · rw [if_neg hn] at hnew ⊢
      exact hnew

theorem luaH_new_simulates_any {narray nhash : ℕ} {t₀ : LuaTable}
    (hnew : luaH_new E narray nhash t₀ = .ok ⟨⟩ t) : Simulates ⟨E, t, fun _ => .nil⟩ := by
  have hs : Simulates ⟨E.roomy, t, fun _ => .nil⟩ := luaH_new_simulates (roomy_roomy E) (luaH_new_ok hnew)
  have hhash : SameHashes E.roomy E t := fun _ _ => rfl
  exact hs.sameHashes hhash

/-- **Running out of memory.**  In a run from `luaH_new` whose steps that ran out of memory were safe, the table denotes
the map of the assignments that succeeded.  The next operation that runs out of memory leaves it so if and only if it is
safe too, and a resize of the hash part alone always is. -/
theorem resize_atomic_iff {narray nhash : ℕ} {t₀ : LuaTable}
    (hnew : luaH_new E narray nhash t₀ = .ok ⟨⟩ t) (ops : List TableOp)
    (hc : TableOp.SafeContracts ⟨E, t, fun _ => .nil⟩ ops) :
    let w := TableOp.run ⟨E, t, fun _ => .nil⟩ ops
    Denotes w.env w.table w.map ∧
      (∀ op : TableOp, op.Contract w.env w.table → ∀ t', op.exec w.env w.table = .error .errmem t' →
        (Denotes w.env t' w.map ↔ op.Safe w.env w.table)) ∧
      ∀ n, (TableOp.resizehash n).Safe w.env w.table := by
  intro w
  have hs : Simulates w := run_simulates_safe ops hc (luaH_new_simulates_any hnew)
  refine ⟨hs.denotes, ?_, ?_⟩
  · intro op hop t' herr
    exact exec_errmem_iff op hop hs herr
  · intro n
    exact resizeSafe_of_eq w.env w.table n

/-- Memory runs out once there is an array part. -/
def tightEnv : Env := ⟨fun p => p.setWidth 32, fun t _ => t.sizearray == 0⟩

/-- A string and the number 2, in the hash part. -/
def tightOps : List TableOp := [.setnum 2 (.boolean true), .setstr 7 (.boolean true)]

/-- What holds of the table that a failed allocation leaves -/
def afterErrmem (p : LuaTable → Bool) : EStateM.Result TableError LuaTable PUnit → Bool
  | .error .errmem t => p t
  | _ => false

theorem afterErrmem_spec {p : LuaTable → Bool} {r : EStateM.Result TableError LuaTable PUnit}
    (h : afterErrmem p r = true) : ∃ t, r = .error .errmem t ∧ p t = true := by
  cases r with
  | ok _ _ => cases h
  | error e t =>
    cases e with
    | errmem => exact ⟨t, rfl, h⟩
    | _ => cases h

def finished : EStateM.Result TableError LuaTable PUnit → Bool
  | .ok _ _ => true
  | .error _ _ => false

theorem tightOps_contracts : TableOp.SafeContracts ⟨tightEnv, emptyTable, fun _ => .nil⟩ tightOps := by
  have hno : ∀ (op : TableOp) (w : World),
      finished (op.exec w.env w.table) = true →
      ∀ t', op.exec w.env w.table = .error .errmem t' → op.Safe w.env w.table := by
    intro op w hok t' herr
    rw [herr] at hok
    cases hok
  exact ⟨⟨by norm_num, by norm_num⟩, hno _ _ (by decide +kernel), trivial, hno _ _ (by decide +kernel), trivial⟩

/-- The table of the run. -/
def tightWorld : World := TableOp.run ⟨tightEnv, emptyTable, fun _ => .nil⟩ tightOps

theorem resize_atomic_sample :
    ∃ t', (TableOp.setnum 1 (.boolean true)).exec tightWorld.env tightWorld.table = .error .errmem t' ∧
      (Denotes tightWorld.env t' tightWorld.map ↔
        (TableOp.setnum 1 (.boolean true)).Safe tightWorld.env tightWorld.table) := by
  have hnew : luaH_new tightEnv 0 0 emptyTable = .ok ⟨⟩ emptyTable := rfl
  have hone : (TableOp.setnum 1 (.boolean true)).Contract tightWorld.env tightWorld.table :=
    ⟨by norm_num, by norm_num⟩
  have hiff : ∀ t', (TableOp.setnum 1 (.boolean true)).exec tightWorld.env tightWorld.table = .error .errmem t' →
      (Denotes tightWorld.env t' tightWorld.map ↔
        (TableOp.setnum 1 (.boolean true)).Safe tightWorld.env tightWorld.table) :=
    (resize_atomic_iff hnew tightOps tightOps_contracts).2.1 _ hone
  have hrun : afterErrmem (fun _ => true) ((TableOp.setnum 1 (.boolean true)).exec tightWorld.env tightWorld.table) =
      true := by
    decide +kernel
  obtain ⟨t', herr, -⟩ := afterErrmem_spec hrun
  exact ⟨t', herr, hiff t' herr⟩

/-- The number 1 belongs behind the empty array part: `rehash` asks for two array slots, gets them, and then is refused
the hash part.  The number 2 is left in the hash part, where no lookup finds it. -/
theorem resize_not_atomic :
    luaH_new tightEnv 0 0 emptyTable = .ok ⟨⟩ emptyTable ∧
    TableOp.SafeContracts ⟨tightEnv, emptyTable, fun _ => .nil⟩ tightOps ∧
    tightWorld.map (.number (cast_num 2)) = .boolean true ∧
      ∃ t', (TableOp.setnum 1 (.boolean true)).exec tightWorld.env tightWorld.table = .error .errmem t' ∧
        (luaH_get tightWorld.env t' (.number (cast_num 2))).map t'.slotGet = some .nil := by
  have hrun : afterErrmem
      (fun t' => decide ((luaH_get tightWorld.env t' (.number (cast_num 2))).map t'.slotGet = some .nil))
      ((TableOp.setnum 1 (.boolean true)).exec tightWorld.env tightWorld.table) = true := by
    decide +kernel
  obtain ⟨t', herr, hlost⟩ := afterErrmem_spec hrun
  exact ⟨rfl, tightOps_contracts, by decide +kernel, t', herr, of_decide_eq_true hlost⟩

end Atomic

end Luwu
