import Luwu.Subtyping.PackScopes

/-!
# Runs of the generic pack scopes

What the lookups answer, and what a binding changes, in every state that is reached by opening, closing and binding, as long as no
outermost scope is closed.
-/

namespace Luwu.Subtyping

open Function Luwu.Chains MappedGenericEnvironment

section Lookup

variable {Pack : Type} {S : Packs Pack} {env env' : MappedGenericEnvironment Pack} {i j k : ℕ} {tp : Pack} {xs pre post : List ℕ}

theorem findSome_congr {α β : Type} {f g : α → Option β} {l : List α} (h : ∀ x ∈ l, f x = g x) : l.findSome? f = l.findSome? g := by
  induction l with
  | nil => rfl
  | cons x l ih =>
    rw [List.findSome?_cons, List.findSome?_cons, h x List.mem_cons_self, ih fun y hy => h y (List.mem_cons_of_mem x hy)]

theorem Linked.searchUp_chain (L : Linked env) (h : Chain env.parentOf env.currentScopeIndex xs) (tp : Pack) :
    env.searchUp tp env.frames.length env.currentScopeIndex = some (xs.findSome? fun i => (env.find i tp).map (.ofMapping i)) := by
  refine searchUp_eq h (L.mem_chain h L.current) ?_
  cases hcurrent : env.currentScopeIndex with
  | none =>
    rw [hcurrent] at h
    cases xs with
    | nil => exact Nat.zero_le _
    | cons x xs => cases h.1
  | some i =>
    have hle := L.chain_length h hcurrent
    have hlt := L.current i hcurrent
    omega

/-- **The innermost enclosing scope** that has the pack answers. -/
theorem Linked.lookup_enclosing (L : Linked env) (h : Chain env.parentOf env.currentScopeIndex (pre ++ i :: post))
    (hpre : ∀ j ∈ pre, env.find j (S.follow tp) = none) {m : Option Pack} (hi : env.find i (S.follow tp) = some m) :
    env.lookupGenericPack S tp = some (.ofMapping i m) := by
  have hfirst : (pre ++ i :: post).findSome? (fun i => (env.find i (S.follow tp)).map (LookupResult.ofMapping i)) =
      some (.ofMapping i m) := by
    rw [List.findSome?_append, List.findSome?_eq_none_iff.mpr fun j hj => by rw [hpre j hj]; rfl, List.findSome?_cons, hi]
    rfl
  unfold lookupGenericPack
  rw [L.searchUp_chain h, hfirst]

/-- The lookup goes on inside the current scope. -/
theorem Linked.lookup_none (L : Linked env) (h : Chain env.parentOf env.currentScopeIndex xs)
    (hnone : ∀ j ∈ xs, env.find j (S.follow tp) = none) : env.lookupGenericPack S tp =
      match env.currentScopeIndex with
      | none => some .notBindable
      | some i => (env.searchDown S (S.follow tp) env.frames.length (S.order (env.childrenOf i)).reverse).map fun result =>
          result.getD .notBindable := by
  have hfirst : xs.findSome? (fun i => (env.find i (S.follow tp)).map (LookupResult.ofMapping i)) = none :=
    List.findSome?_eq_none_iff.mpr fun j hj => by rw [hnone j hj]; rfl
  unfold lookupGenericPack
  rw [L.searchUp_chain h, hfirst]
  dsimp only
  cases hcurrent : env.currentScopeIndex with
  | none => rfl
  | some i =>
    obtain ⟨frame, hframe⟩ := frame_of_lt (L.current i hcurrent)
    dsimp only
    rw [hframe, childrenOf_eq hframe]

/-- **A scope inside the current one** answers where no enclosing scope has the pack. -/
theorem Linked.lookup_inside (L : Linked env) (h : Chain env.parentOf env.currentScopeIndex xs)
    (hnone : ∀ j ∈ xs, env.find j (S.follow tp) = none) :
    (env.lookupGenericPack S tp = some .notBindable ∧
      ∀ i j, env.currentScopeIndex = some i → env.Inside j i → env.find j (S.follow tp) = none) ∨
    ∃ i j m, env.currentScopeIndex = some i ∧ env.Inside j i ∧ env.find j (S.follow tp) = some m ∧
      env.lookupGenericPack S tp = some (.ofMapping j m) := by
  rw [L.lookup_none h hnone]
  cases hcurrent : env.currentScopeIndex with
  | none => exact Or.inl ⟨rfl, fun i j hi => by cases hi⟩
  | some i =>
    obtain ⟨r, hrun, hr⟩ := @Linked.searchDown_spec _ _ _ (S.follow tp) _ _ L S _ (L.visiting_start S i) (fun j hj => absurd hj List.not_mem_nil)
      (Nat.le_add_left _ _)
    dsimp only
    rw [hrun]
    rcases hr with ⟨rfl, hall⟩ | ⟨j, m, hj, hm, rfl⟩
    · refine Or.inl ⟨rfl, fun i' j hi hj => hall j ?_⟩
      rwa [Option.some.inj hi]
    · exact Or.inr ⟨i, j, m, rfl, hj, hm, rfl⟩

/-- The scope that a lookup names has the pack unbound. -/
theorem Linked.lookup_unmapped (L : Linked env) (hchain : Chain env.parentOf env.currentScopeIndex xs) {i : ℕ}
    (h : env.lookupGenericPack S tp = some (.unmapped i)) : env.find i (S.follow tp) = some none := by
  have hof : ∀ {j : ℕ} {m : Option Pack}, LookupResult.ofMapping j m = .unmapped i → j = i ∧ m = none := by
    intro j m hj
    cases m with
    | none => exact ⟨LookupResult.unmapped.inj hj, rfl⟩
    | some tp => cases hj
  by_cases hnone : ∀ j ∈ xs, env.find j (S.follow tp) = none
  · rcases L.lookup_inside hchain hnone with ⟨hl, -⟩ | ⟨_, j, m, -, -, hm, hl⟩
    · rw [h] at hl
      cases hl
    · obtain ⟨rfl, rfl⟩ := hof (Option.some.inj (hl.symm.trans h))
      exact hm
  · -- the innermost scope that has the pack
    have hup := L.searchUp_chain hchain (S.follow tp)
    unfold lookupGenericPack at h
    rw [hup] at h
    cases hfind : xs.findSome? fun i => (env.find i (S.follow tp)).map (LookupResult.ofMapping i) with
    | none =>
      refine absurd (fun j hj => ?_) hnone
      exact Option.map_eq_none_iff.mp (List.findSome?_eq_none_iff.mp hfind j hj)
    | some r =>
      rw [hfind] at h
      obtain rfl := Option.some.inj h
      obtain ⟨j, -, hj⟩ := List.exists_of_findSome?_eq_some hfind
      obtain ⟨m, hm, hanswer⟩ := Option.map_eq_some_iff.mp hj
      obtain ⟨rfl, rfl⟩ := hof hanswer
      exact hm

/-- The enclosing scopes of a scope -/
theorem Linked.exists_chain (L : Linked env) (i : ℕ) : ∃ xs, Chain env.parentOf (some i) xs ∧ ∀ x ∈ xs, x = i ∨ env.Inside i x := by
  induction i using Nat.strongRecOn with
  | ind i ih =>
    cases hparent : env.parentOf i with
    | none =>
      refine ⟨[i], ⟨rfl, hparent⟩, fun x hx => Or.inl (List.mem_singleton.mp hx)⟩
    | some j =>
      obtain ⟨xs, hchain, hmem⟩ := ih j (L.parent i j hparent)
      refine ⟨i :: xs, ⟨rfl, by rwa [hparent]⟩, fun x hx => ?_⟩
      rcases List.mem_cons.mp hx with rfl | hx
      · exact Or.inl rfl
      · rcases hmem x hx with rfl | h
        · exact Or.inr (Relation.TransGen.single hparent)
        · exact Or.inr (Relation.TransGen.head hparent h)

/-- **What a lookup can see**: the scopes around the current one, and the ones inside it -/
theorem Linked.lookup_congr (L : Linked env) (L' : Linked env') (hcurrent : env.currentScopeIndex = some k)
    (hcurrent' : env'.currentScopeIndex = some k) (hparent : ∀ j, env'.parentOf j = env.parentOf j)
    (hchildren : ∀ j, env'.childrenOf j = env.childrenOf j) (hlength : env'.frames.length = env.frames.length)
    (hfind : ∀ j, j = k ∨ env.Inside k j ∨ env.Inside j k → env'.find j (S.follow tp) = env.find j (S.follow tp)) :
    env'.lookupGenericPack S tp = env.lookupGenericPack S tp := by
  obtain ⟨xs, hchain, hmem⟩ := L.exists_chain k
  have hchain' : Chain env'.parentOf (some k) xs := hchain.congr fun x _ => hparent x
  rw [← hcurrent] at hchain
  rw [← hcurrent'] at hchain'
  have hup := L.searchUp_chain hchain (S.follow tp)
  have hup' := L'.searchUp_chain hchain' (S.follow tp)
  have hsame : xs.findSome? (fun i => (env'.find i (S.follow tp)).map (LookupResult.ofMapping i)) =
      xs.findSome? (fun i => (env.find i (S.follow tp)).map (LookupResult.ofMapping i)) := by
    refine findSome_congr fun x hx => ?_
    rw [hfind x ((hmem x hx).imp_right Or.inl)]
  have hdown := @Linked.searchDown_congr _ _ _ _ _ _ _ L S env.frames.length (L.visiting_start S k) hchildren hlength
    fun j hj => hfind j (Or.inr (Or.inr hj))
  obtain ⟨frame, hframe⟩ := frame_of_lt (L.current k hcurrent)
  obtain ⟨frame', hframe'⟩ := frame_of_lt (L'.current k hcurrent')
  have hbase : frame'.children = frame.children := by
    rw [← childrenOf_eq hframe, ← childrenOf_eq hframe', hchildren]
  unfold lookupGenericPack
  rw [hup, hup', hsame, hcurrent, hcurrent']
  cases xs.findSome? fun i => (env.find i (S.follow tp)).map (LookupResult.ofMapping i) with
  | some r => rfl
  | none =>
    dsimp only
    rw [hframe, hframe']
    dsimp only
    rw [hbase, hlength, ← childrenOf_eq hframe, hdown]

theorem popFrame_current {i j : ℕ} (hi : env.currentScopeIndex = some i) (hj : env.parentOf i = some j) :
    env.popFrame.currentScopeIndex = some j := by
  unfold popFrame
  rw [hi]
  show some ((env.parentOf i).getD 0) = some j
  rw [hj]
  rfl

theorem popFrame_frames : env.popFrame.frames = env.frames := by
  unfold popFrame
  cases env.currentScopeIndex <;> rfl

end Lookup

/-! ### Runs -/

section Runs

variable {Pack : Type} [DecidableEq Pack] (S : Packs Pack)

inductive ScopeOp (Pack : Type) where
  | pushFrame (genericTps : List Pack)
  | popFrame
  | bindGeneric (genericTp bindeeTp : Pack)

def ScopeOp.exec (env : MappedGenericEnvironment Pack) : ScopeOp Pack → Option (MappedGenericEnvironment Pack)
  | .pushFrame genericTps => some (env.pushFrame genericTps)
  | .popFrame => some env.popFrame
  | .bindGeneric genericTp bindeeTp => (env.bindGeneric S genericTp bindeeTp).map Prod.fst

/-- The scopes that are open after an operation, the innermost one first -/
def ScopeOp.opened (env : MappedGenericEnvironment Pack) (scopes : List ℕ) : ScopeOp Pack → List ℕ
  | .pushFrame _ => env.frames.length :: scopes
  | .popFrame => scopes.tail
  | .bindGeneric _ _ => scopes

/-- A scope is closed only inside another one. -/
def ScopeOp.Nested (env : MappedGenericEnvironment Pack) : ScopeOp Pack → Prop
  | .popFrame => ∃ i j, env.currentScopeIndex = some i ∧ env.parentOf i = some j
  | _ => True

/-- The states that are reached, each with its open scopes -/
inductive Reached : MappedGenericEnvironment Pack → List ℕ → Prop
  | start : Reached .empty []
  | step {env env' : MappedGenericEnvironment Pack} {scopes : List ℕ} (op : ScopeOp Pack) : Reached env scopes → op.Nested env →
      op.exec S env = some env' → Reached env' (op.opened env scopes)

/-- Operations between a `pushFrame` and its `popFrame` -/
inductive Between : MappedGenericEnvironment Pack → MappedGenericEnvironment Pack → Prop
  | nothing {env : MappedGenericEnvironment Pack} : Between env env
  | bind {env env' env'' : MappedGenericEnvironment Pack} {genericTp bindeeTp : Pack} {b : Bool} : Between env env' →
      env'.bindGeneric S genericTp bindeeTp = some (env'', b) → Between env env''
  | scope {env env' env'' : MappedGenericEnvironment Pack} {genericTps : List Pack} : Between env env' →
      Between (env'.pushFrame genericTps) env'' → Between env env''.popFrame

variable {S} {env env' : MappedGenericEnvironment Pack} {scopes : List ℕ} {genericTp bindeeTp : Pack}

/-- A binding is the change of one entry that was empty, or nothing. -/
theorem bindGeneric_cases {b : Bool} (h : env.bindGeneric S genericTp bindeeTp = some (env', b)) :
    env' = env ∨ ∃ i, S.isGeneric genericTp = true ∧ env.lookupGenericPack S genericTp = some (.unmapped i) ∧
      env' = env.setMapping i genericTp bindeeTp := by
  unfold bindGeneric at h
  by_cases heq : genericTp = bindeeTp
  · rw [if_pos heq] at h
    exact Or.inl (congrArg Prod.fst (Option.some.inj h)).symm
  rw [if_neg heq] at h
  by_cases hgeneric : S.isGeneric genericTp = false
  · rw [if_pos hgeneric] at h
    exact Or.inl (congrArg Prod.fst (Option.some.inj h)).symm
  rw [if_neg hgeneric] at h
  cases hlookup : env.lookupGenericPack S genericTp with
  | none =>
    rw [hlookup] at h
    cases h
  | some r =>
    rw [hlookup] at h
    cases r with
    | unmapped i => exact Or.inr ⟨i, Bool.not_eq_false _ ▸ hgeneric, rfl, (congrArg Prod.fst (Option.some.inj h)).symm⟩
    | pack tp => exact Or.inl (congrArg Prod.fst (Option.some.inj h)).symm
    | notBindable => exact Or.inl (congrArg Prod.fst (Option.some.inj h)).symm

theorem bindGeneric_links {b : Bool} (h : env.bindGeneric S genericTp bindeeTp = some (env', b)) :
    env'.currentScopeIndex = env.currentScopeIndex ∧ ∀ j, env'.parentOf j = env.parentOf j := by
  rcases bindGeneric_cases h with rfl | ⟨i, -, -, rfl⟩
  · exact ⟨rfl, fun _ => rfl⟩
  · exact ⟨rfl, fun j => parentOf_set _ _ i j⟩

/-- The links are those of a forest, and the enclosing scopes are the open ones. -/
theorem Reached.linked (R : Reached S env scopes) : Linked env ∧ Chain env.parentOf env.currentScopeIndex scopes := by
  induction R with
  | start => exact ⟨linked_empty, rfl⟩
  | @step env env' scopes op _ hnested hexec ih =>
    obtain ⟨L, hchain⟩ := ih
    cases op with
    | pushFrame genericTps =>
      obtain rfl := Option.some.inj hexec
      refine ⟨L.push genericTps, pushFrame_current genericTps, ?_⟩
      rw [parentOf_push L, if_pos rfl]
      refine hchain.congr fun x hx => ?_
      have hlt := L.mem_chain hchain L.current x hx
      rw [parentOf_push L, if_neg (by omega)]
    | popFrame =>
      obtain rfl := Option.some.inj hexec
      obtain ⟨i, j, hi, hj⟩ := hnested
      refine ⟨L.pop, ?_⟩
      rw [hi] at hchain
      cases scopes with
      | nil => cases hchain
      | cons x xs =>
        obtain ⟨hx, hrest⟩ := hchain
        obtain rfl := Option.some.inj hx
        rw [popFrame_current hi hj, ← hj]
        refine hrest.congr fun x _ => ?_
        unfold parentOf
        rw [popFrame_frames]
    | bindGeneric genericTp bindeeTp =>
      obtain ⟨⟨env'', b⟩, hbind, rfl⟩ := Option.map_eq_some_iff.mp hexec
      obtain ⟨hcurrent, hparent⟩ := bindGeneric_links hbind
      refine ⟨?_, ?_⟩
      · rcases bindGeneric_cases hbind with h | ⟨i, -, -, h⟩
        · rw [show env'' = env from h]
          exact L
        · rw [show env'' = env.setMapping i genericTp bindeeTp from h]
          exact L.set _ _ i
      · show Chain env''.parentOf env''.currentScopeIndex scopes
        rw [hcurrent]
        exact hchain.congr fun x _ => hparent x

/-- What is between a `pushFrame` and its `popFrame` leaves the scope, and the parents that there were. -/
theorem Between.restored (B : Between S env env') (L : Linked env) {i : ℕ} (hi : env.currentScopeIndex = some i) :
    Linked env' ∧ env'.currentScopeIndex = some i ∧ env.frames.length ≤ env'.frames.length ∧
      ∀ j < env.frames.length, env'.parentOf j = env.parentOf j := by
  induction B generalizing i with
  | nothing => exact ⟨L, hi, le_rfl, fun _ _ => rfl⟩
  | @bind env env' env'' genericTp bindeeTp b _ hbind ih =>
    obtain ⟨L', hcurrent, hlength, hparent⟩ := ih L hi
    obtain ⟨hcurrent', hparent'⟩ := bindGeneric_links hbind
    refine ⟨?_, hcurrent'.trans hcurrent, ?_, fun j hj => (hparent' j).trans (hparent j hj)⟩
    · rcases bindGeneric_cases hbind with rfl | ⟨i, -, -, rfl⟩
      · exact L'
      · exact L'.set _ _ i
    · rcases bindGeneric_cases hbind with rfl | ⟨i, -, -, rfl⟩
      · exact hlength
      · rwa [setMapping_length]
  | @scope env env' env'' genericTps _ _ ih ih' =>
    obtain ⟨L', hcurrent, hlength, hparent⟩ := ih L hi
    obtain ⟨L'', hcurrent'', hlength'', hparent''⟩ := ih' (L'.push genericTps) (pushFrame_current genericTps)
    rw [pushFrame_length] at hlength'' hparent''
    -- the parent of the new scope is the one before
    have hnew : env''.parentOf env'.frames.length = some i := by
      rw [hparent'' _ (Nat.lt_succ_self _), parentOf_push L', if_pos rfl, hcurrent]
    refine ⟨L''.pop, popFrame_current hcurrent'' hnew, by rw [popFrame_frames]; omega, fun j hj => ?_⟩
    have hsame : env''.popFrame.parentOf j = env''.parentOf j := by
      unfold parentOf
      rw [popFrame_frames]
    rw [hsame, hparent'' j (by omega), parentOf_push L', if_neg (by omega), hparent j hj]

/-- What holds of the scopes in a state -/
structure Scoped (S : Packs Pack) (env : MappedGenericEnvironment Pack) (scopes : List ℕ) : Prop where
  current : env.currentScopeIndex = scopes.head?
  restored : ∀ genericTps env', Between S (env.pushFrame genericTps) env' → env.currentScopeIndex ≠ none →
    env'.popFrame.currentScopeIndex = env.currentScopeIndex
  enclosing : ∀ tp pre i post m, scopes = pre ++ i :: post → (∀ j ∈ pre, env.find j (S.follow tp) = none) →
    env.find i (S.follow tp) = some m → env.lookupGenericPack S tp = some (.ofMapping i m)
  inside : ∀ tp, (∀ j ∈ scopes, env.find j (S.follow tp) = none) →
    (env.lookupGenericPack S tp = some .notBindable ∧
      ∀ i j, env.currentScopeIndex = some i → env.Inside j i → env.find j (S.follow tp) = none) ∨
    ∃ i j m, env.currentScopeIndex = some i ∧ env.Inside j i ∧ j ∉ scopes ∧ env.find j (S.follow tp) = some m ∧
      env.lookupGenericPack S tp = some (.ofMapping j m)
  bound : ∀ genericTp bindeeTp env' b, env.bindGeneric S genericTp bindeeTp = some (env', b) → env' = env ∨
    ∃ i, env.find i genericTp = some none ∧ env'.find i genericTp = some (some bindeeTp) ∧
      (∀ j tp, ¬ (j = i ∧ tp = genericTp) → env'.find j tp = env.find j tp) ∧
      ∀ k < env.frames.length, k ≠ i → ¬ env.Inside k i → ¬ env.Inside i k → ∀ tp,
        lookupGenericPack S { env' with currentScopeIndex := some k } tp =
          lookupGenericPack S { env with currentScopeIndex := some k } tp

/-- **Generic pack scopes**: as long as no outermost scope is closed, every state that is reached keeps its scopes apart. -/
theorem scopes_isolated (R : Reached S env scopes) : Scoped S env scopes := by
  obtain ⟨L, hchain⟩ := R.linked
  refine ⟨hchain.head_eq, ?_, ?_, ?_, ?_⟩
  · intro genericTps env' B hne
    obtain ⟨i, hi⟩ := Option.ne_none_iff_exists'.mp hne
    obtain ⟨L', hcurrent', -, hparent'⟩ := B.restored (L.push genericTps) (pushFrame_current genericTps)
    rw [pushFrame_length] at hparent'
    have hnew : env'.parentOf env.frames.length = some i := by
      rw [hparent' _ (Nat.lt_succ_self _), parentOf_push L, if_pos rfl, hi]
    rw [popFrame_current hcurrent' hnew, hi]
  · intro tp pre i post m hscopes hpre hi
    exact L.lookup_enclosing (hscopes ▸ hchain) hpre hi
  · intro tp hnone
    refine (L.lookup_inside hchain hnone).imp_right ?_
    rintro ⟨i, j, m, hi, hj, hm, hl⟩
    refine ⟨i, j, m, hi, hj, fun hmem => ?_, hm, hl⟩
    rw [hnone j hmem] at hm
    cases hm
  · intro genericTp bindeeTp env' b hbind
    refine (bindGeneric_cases hbind).imp_right ?_
    rintro ⟨i, hgeneric, hlookup, rfl⟩
    have hunbound := L.lookup_unmapped hchain hlookup
    rw [S.follow_generic genericTp hgeneric] at hunbound
    refine ⟨i, hunbound, find_set_self bindeeTp hunbound, fun j tp h => find_set _ _ _ _ _ h, fun k hk hne hki hik tp => ?_⟩
    have Lk : Linked { env with currentScopeIndex := some k } :=
      ⟨fun i hi => by obtain rfl := Option.some.inj hi; exact hk, L.parent, L.children, L.nodup⟩
    have Lk' : Linked { env.setMapping i genericTp bindeeTp with currentScopeIndex := some k } := Lk.set genericTp bindeeTp i
    refine Lk.lookup_congr Lk' rfl rfl (fun j => parentOf_set _ _ i j) (fun j => childrenOf_set _ _ i j) (setMapping_length _ _ i)
      fun j hj => ?_
    refine find_set _ _ _ _ _ ?_
    rintro ⟨rfl, -⟩
    rcases hj with rfl | h | h
    · exact hne rfl
    · exact hki h
    · exact hik h

/-- Packs that are numbers; the first ones are generic. -/
def samplePacks : Packs ℕ := ⟨id, fun p => decide (p < 5), id, fun _ _ => rfl, fun _ => List.Perm.refl _⟩

/-- A pack that two scopes quantify is bound in the inner one. -/
theorem scopes_isolated_sample : ∃ env, Reached samplePacks env [1, 0] ∧ env.lookupGenericPack samplePacks 0 = some (.pack 7) ∧
    env.find 0 0 = some none ∧ Scoped samplePacks env [1, 0] := by
  have R : Reached samplePacks _ _ := Reached.step (.bindGeneric 0 7)
    (Reached.step (.pushFrame [0]) (Reached.step (.pushFrame [0]) Reached.start trivial rfl) trivial rfl) trivial rfl
  exact ⟨_, R, by decide, by decide, scopes_isolated R⟩

/-- Closing the outermost scope leaves the environment in it: the next scope at the top sees its bindings. -/
theorem outermost_not_restored : (empty : MappedGenericEnvironment ℕ).currentScopeIndex = none ∧
    ((empty.pushFrame [0]).bindGeneric samplePacks 0 7).map (fun r => r.1.popFrame.currentScopeIndex) = some (some 0) ∧
    ((empty.pushFrame [0]).bindGeneric samplePacks 0 7).map
      (fun r => (r.1.popFrame.pushFrame [1]).lookupGenericPack samplePacks 0) = some (some (.pack 7)) := by
  decide

end Runs

end Luwu.Subtyping
