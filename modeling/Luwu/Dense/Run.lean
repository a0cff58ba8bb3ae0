import Luwu.Dense.Ops

/-!
# Programs with DenseHashTable

A program does operations on any number of tables, each with its own empty key, which its keys must not be
(`DenseOp.Legal`).  Copies and moves take the empty key along.  Each table is the finite map that the
operations on it say (`DenseOp.spec`), and an operation that finds no memory changes nothing.
-/

namespace Luwu.DenseHash

open Function Luwu.Dense Luwu.Association Luwu.OpenAddressing Luwu.Probing

/-- An operation on the tables with these numbers. -/
inductive DenseOp (Key Value : Type) where
  | construct (t : ℕ) (empty_key : Key) (buckets : ℕ)
  | insert (t : ℕ) (key : Key)
  | assign (t : ℕ) (key : Key) (v : Value)
  | try_insert (t : ℕ) (key : Key) (v : Value)
  | lookup (t : ℕ) (key : Key)
  | contains (t : ℕ) (key : Key)
  | change (t : ℕ) (key : Key) (v : Value)
  | size (t : ℕ)
  | iterate (t : ℕ)
  | rehash (t : ℕ)
  | clear (t thresholdToDestroy : ℕ)
  | copy (t other : ℕ)
  | move (t other : ℕ)

section Run

variable {Key Value Item : Type} [BEq Key] [Inhabited Value]

/-- A table is constructed with a power of two of buckets, or none, and its empty key is never inserted. -/
def DenseOp.Allowed (s : ℕ → Table Key Item) : DenseOp Key Value → Prop
  | .construct _ _ buckets => buckets = 0 ∨ ∃ e, buckets = 2 ^ e
  | .insert t key => (key == (s t).empty_key) = false
  | .assign t key _ => (key == (s t).empty_key) = false
  | .try_insert t key _ => (key == (s t).empty_key) = false
  | _ => True

variable (T : Traits Key Value Item)

def DenseOp.exec (room : ℕ → Bool) (s : ℕ → Table Key Item) :
    DenseOp Key Value → DenseM ((ℕ → Table Key Item) × DenseAnswer Item)
  | .construct t empty_key buckets => do
    let t' ← Table.make T room empty_key buckets
    return (update s t t', .done)
  | .insert t key => do
    let (t', bucket) ← (s t).insert T room key
    return (update s t t', .item (t'.data bucket))
  | .assign t key v => do
    let t' ← (s t).assign T room key v
    return (update s t t', .done)
  | .try_insert t key v => do
    let (t', fresh) ← (s t).try_insert T room key v
    return (update s t t', .fresh fresh)
  | .lookup t key => do
    let a ← (s t).lookup T key
    return (s, .item a)
  | .contains t key => do
    let found ← (s t).find T key
    return (s, .fresh found.isSome)
  | .change t key v => do
    let t' ← (s t).change T key v
    return (update s t t', .done)
  | .size t => return (s, .size (s t).count)
  | .iterate t => do
    let l ← (s t).items T
    return (s, .items l)
  | .rehash t => do
    let t' ← (s t).rehash T room
    return (update s t t', .done)
  | .clear t threshold => return (update s t ((s t).clear T threshold), .done)
  | .copy t other =>
    if t = other then return (s, .done)
    else do
      let t' ← (s other).copy room
      return (update s t t', .done)
  | .move t other =>
    if t = other then return (s, .done)
    else return (update (update s t (s other)) other (.bare (s other).empty_key), .done)

/-- An operation without memory throws and leaves everything; a fault ends the run. -/
def DenseOp.step (room : ℕ → Bool) (s : ℕ → Table Key Item) (op : DenseOp Key Value) :
    Option ((ℕ → Table Key Item) × DenseAnswer Item) :=
  match op.exec T room s with
  | .ok r => some r
  | .error .badalloc => some (s, .badalloc)
  | .error .fault => none

/-- The operations, each with what the allocator says then. -/
def DenseOp.run : List (DenseOp Key Value × (ℕ → Bool)) → (ℕ → Table Key Item) →
    Option ((ℕ → Table Key Item) × List (DenseAnswer Item))
  | [], s => some (s, [])
  | (op, room) :: ops, s => do
    let (s, answer) ← op.step T room s
    let (s, answers) ← DenseOp.run ops s
    return (s, answer :: answers)

/-- Every operation is allowed where the run comes to it. -/
def DenseOp.Legal : List (DenseOp Key Value × (ℕ → Bool)) → (ℕ → Table Key Item) → Prop
  | [], _ => True
  | (op, room) :: ops, s => op.Allowed s ∧ ∀ r ∈ op.step T room s, DenseOp.Legal ops r.1

/-- What an operation does to the finite maps. -/
def DenseOp.spec (m : ℕ → List Item) : DenseOp Key Value → (ℕ → List Item) × DenseAnswer Item
  | .construct t _ _ => (update m t [], .done)
  | .insert t key =>
    (update m t (put T.getKey (m t) key (T.newItem key)),
      .item (get T.getKey (put T.getKey (m t) key (T.newItem key)) key))
  | .assign t key v =>
    (update m t (modify T.getKey (put T.getKey (m t) key (T.newItem key)) key (T.setValue · v)), .done)
  | .try_insert t key v =>
    (update m t (if (get T.getKey (m t) key).isSome then m t
        else modify T.getKey (put T.getKey (m t) key (T.newItem key)) key (T.setValue · v)),
      .fresh !(get T.getKey (m t) key).isSome)
  | .lookup t key => (m, .item (get T.getKey (m t) key))
  | .contains t key => (m, .fresh (get T.getKey (m t) key).isSome)
  | .change t key v => (update m t (modify T.getKey (m t) key (T.setValue · v)), .done)
  | .size t => (m, .size (m t).length)
  | .iterate t => (m, .items (m t))
  | .rehash _ => (m, .done)
  | .clear t _ => (update m t [], .done)
  | .copy t other => (update m t (m other), .done)
  | .move t other => (if t = other then m else update (update m t (m other)) other [], .done)

/-- The answers are those of the finite maps, which the operations take from `m` to `m'`. -/
def DenseOp.Agree : List (DenseOp Key Value) → List (DenseAnswer Item) → (ℕ → List Item) →
    (ℕ → List Item) → Prop
  | [], [], m, m' => m = m'
  | op :: ops, answer :: answers, m, m' =>
    (answer = .badalloc ∧ DenseOp.Agree ops answers m m') ∨
      (answer.Is (op.spec T m).2 ∧ DenseOp.Agree ops answers (op.spec T m).1 m')
  | _, _, _, _ => False

variable {T} {s s' : ℕ → Table Key Item} {m : ℕ → List Item} {op : DenseOp Key Value} {room : ℕ → Bool}

/-- Every table is a finite map. -/
def Simulates (T : Traits Key Value Item) (s : ℕ → Table Key Item) (m : ℕ → List Item) : Prop :=
  ∀ t, TableOk T (s t) ∧ ((s t).contents T).Perm (m t)

theorem Simulates.update (h : Simulates T s m) (t : ℕ) {t' : Table Key Item} {l : List Item}
    (ht : TableOk T t') (hl : (t'.contents T).Perm l) : Simulates T (update s t t') (update m t l) := by
  intro i
  by_cases he : i = t
  · rw [he, update_self, update_self]
    exact ⟨ht, hl⟩
  · rw [update_of_ne he, update_of_ne he]
    exact h i

/-- A table that is replaced by one with the same items. -/
theorem Simulates.replace (h : Simulates T s m) (t : ℕ) {t' : Table Key Item} (ht : TableOk T t')
    (hl : (t'.contents T).Perm (m t)) : Simulates T (Function.update s t t') m := by
  have hup := h.update t ht hl
  rw [update_eq_self_iff.mpr rfl] at hup
  exact hup

variable [EquivBEq Key]

theorem Simulates.get (h : Simulates T s m) (t : ℕ) (key : Key) :
    get T.getKey ((s t).contents T) key = get T.getKey (m t) key :=
  get_perm (h t).1.layout.distinct_entries (h t).2 key

theorem Simulates.put (h : Simulates T s m) (t : ℕ) (key : Key) :
    (put T.getKey ((s t).contents T) key (T.newItem key)).Perm (put T.getKey (m t) key (T.newItem key)) :=
  put_perm (h t).1.layout.distinct_entries (h t).2

/-- What an operation may end in: it runs out of memory, or does what it does to the finite maps. -/
def Ends (T : Traits Key Value Item) (m : ℕ → List Item) (op : DenseOp Key Value)
    (r : DenseM ((ℕ → Table Key Item) × DenseAnswer Item)) : Prop :=
  r = .error .badalloc ∨ ∃ s' answer, r = .ok (s', answer) ∧ Simulates T s' (op.spec T m).1 ∧
    answer.Is (op.spec T m).2

omit [EquivBEq Key] in
theorem ends_badalloc {α : Type} {x : DenseM α} {f : α → DenseM ((ℕ → Table Key Item) × DenseAnswer Item)}
    (h : x = .error .badalloc) : Ends T m op (x >>= f) := by
  left
  rw [h]
  rfl

omit [EquivBEq Key] in
theorem ends_ok {α : Type} {x : DenseM α} {f : α → DenseM ((ℕ → Table Key Item) × DenseAnswer Item)} {a : α}
    {answer : DenseAnswer Item} (h : x = .ok a) (hf : f a = .ok (s', answer))
    (hsim : Simulates T s' (op.spec T m).1) (hanswer : answer.Is (op.spec T m).2) : Ends T m op (x >>= f) := by
  right
  refine ⟨s', answer, ?_, hsim, hanswer⟩
  rw [h]
  exact hf

/-- One step of a program. -/
theorem exec_ok (h : Simulates T s m) (hallowed : op.Allowed s) : Ends T m op (op.exec T room s) := by
  cases op with
  | construct t empty_key buckets =>
    cases hallowed with
    | inl hzero =>
      subst hzero
      exact ends_ok (make_zero T room empty_key) rfl
        (h.update t (bare_ok T empty_key) (List.Perm.refl _)) rfl
    | inr hpow =>
      obtain ⟨e, rfl⟩ := hpow
      cases make_pow_ok T room empty_key e with
      | inl hbad => exact ends_badalloc hbad
      | inr hmake =>
        obtain ⟨t', hmake, ht, _, _, _, hnil⟩ := hmake
        exact ends_ok hmake rfl (h.update t ht (List.Perm.of_eq hnil)) rfl
  | insert t key =>
    cases insert_ok (h t).1 room hallowed with
    | inl hbad => exact ends_badalloc hbad
    | inr hins =>
      obtain ⟨t', b, a, hins, ht, _, hb, hk, hperm⟩ := hins
      have hput := hperm.trans (h.put t key)
      have hget : Association.get T.getKey (put T.getKey (m t) key (T.newItem key)) key = some a := by
        rw [← get_perm ht.layout.distinct_entries hput key]
        exact ht.layout.get_some hb hk
      apply ends_ok hins rfl (h.update t ht hput)
      show DenseAnswer.item (t'.data b) = DenseAnswer.item _
      rw [hget, (data_of_slots hb).1]
  | assign t key v =>
    cases assign_ok (h t).1 room hallowed v with
    | inl hbad => exact ends_badalloc hbad
    | inr hassign =>
      obtain ⟨t', hassign, ht, _, hperm⟩ := hassign
      exact ends_ok hassign rfl (h.update t ht (hperm.trans (modify_perm (h.put t key) key _))) rfl
  | try_insert t key v =>
    cases try_insert_ok (h t).1 room hallowed v with
    | inl hbad => exact ends_badalloc hbad
    | inr htry =>
      obtain ⟨t', htry, ht, _, hperm⟩ := htry
      rw [h.get t key] at htry hperm
      refine ends_ok htry rfl ?_ rfl
      apply h.update t ht
      cases hsome : (Association.get T.getKey (m t) key).isSome with
      | true =>
        rw [hsome, if_pos rfl] at hperm
        exact hperm.trans (h t).2
      | false =>
        rw [hsome, if_neg Bool.false_ne_true] at hperm
        exact hperm.trans (modify_perm (h.put t key) key _)
  | lookup t key => exact ends_ok (lookup_ok (h t).1 key) rfl h (congrArg DenseAnswer.item (h.get t key))
  | contains t key =>
    cases find_ok (h t).1 key with
    | inl hfound =>
      obtain ⟨b, a, hfind, _, _, hget⟩ := hfound
      apply ends_ok hfind rfl h
      show DenseAnswer.fresh true = DenseAnswer.fresh _
      rw [← h.get t key, hget]
      rfl
    | inr hnone =>
      obtain ⟨hfind, hget⟩ := hnone
      apply ends_ok hfind rfl h
      show DenseAnswer.fresh false = DenseAnswer.fresh _
      rw [← h.get t key, hget]
      rfl
  | change t key v =>
    obtain ⟨t', hchange, ht, _, hcontents⟩ := change_ok (h t).1 key v
    refine ends_ok hchange rfl (h.update t ht ?_) rfl
    rw [hcontents]
    exact modify_perm (h t).2 key _
  | size t =>
    right
    refine ⟨s, .size (s t).count, rfl, h, ?_⟩
    show DenseAnswer.size _ = DenseAnswer.size _
    rw [(h t).1.size, (h t).2.length_eq]
  | iterate t => exact ends_ok (items_ok (h t).1) rfl h (h t).2
  | rehash t =>
    cases rehash_ok (h t).1 room with
    | inl hbad => exact ends_badalloc hbad
    | inr hre =>
      obtain ⟨t', hre, ht, _, hperm, _⟩ := hre
      exact ends_ok hre rfl (h.replace t ht (hperm.trans (h t).2)) rfl
  | clear t threshold =>
    right
    obtain ⟨ht, hnil, _⟩ := clear_ok (h t).1 threshold
    exact ⟨_, _, rfl, h.update t ht (List.Perm.of_eq hnil), rfl⟩
  | copy t other =>
    by_cases he : t = other
    · right
      subst he
      refine ⟨s, .done, if_pos rfl, ?_, rfl⟩
      show Simulates T s (Function.update m t (m t))
      rw [update_eq_self_iff.mpr rfl]
      exact h
    · show Ends T m _ (if t = other then _ else (s other).copy room >>= _)
      rw [if_neg he]
      cases copy_ok (h other).1 room with
      | inl hbad => exact ends_badalloc hbad
      | inr hcopy =>
        obtain ⟨t', hcopy, ht, _, hcontents⟩ := hcopy
        refine ends_ok hcopy rfl (h.update t ht ?_) rfl
        rw [hcontents]
        exact (h other).2
  | move t other =>
    right
    by_cases he : t = other
    · refine ⟨s, .done, if_pos he, ?_, rfl⟩
      show Simulates T s (if t = other then m else _)
      rw [if_pos he]
      exact h
    · refine ⟨_, .done, if_neg he, ?_, rfl⟩
      show Simulates T _ (if t = other then m else _)
      rw [if_neg he]
      exact (h.update t (h other).1 (h other).2).update other (bare_ok T _) (List.Perm.refl _)

theorem step_ok (h : Simulates T s m) (hallowed : op.Allowed s) : ∃ s' answer,
    op.step T room s = some (s', answer) ∧ ((answer = .badalloc ∧ Simulates T s' m) ∨
      (answer.Is (op.spec T m).2 ∧ Simulates T s' (op.spec T m).1)) := by
  unfold DenseOp.step
  cases exec_ok h hallowed with
  | inl hbad =>
    rw [hbad]
    exact ⟨s, .badalloc, rfl, Or.inl ⟨rfl, h⟩⟩
  | inr hexec =>
    obtain ⟨s', answer, hexec, hsim, hanswer⟩ := hexec
    rw [hexec]
    exact ⟨s', answer, rfl, Or.inr ⟨hanswer, hsim⟩⟩

theorem run_ok {ops : List (DenseOp Key Value × (ℕ → Bool))} (h : Simulates T s m)
    (hlegal : DenseOp.Legal T ops s) :
    ∃ s' answers m', DenseOp.run T ops s = some (s', answers) ∧
      DenseOp.Agree T (ops.map Prod.fst) answers m m' ∧ Simulates T s' m' := by
  induction ops generalizing s m with
  | nil => exact ⟨s, [], m, rfl, rfl, h⟩
  | cons op ops ih =>
    obtain ⟨op, room⟩ := op
    obtain ⟨hallowed, hrest⟩ := hlegal
    obtain ⟨s₁, answer, hstep, hcase⟩ := step_ok h hallowed
    rw [DenseOp.run, hstep]
    cases hcase with
    | inl hbad =>
      obtain ⟨s', answers, m', hrun, hagree, hsim⟩ := ih hbad.2 (hrest _ hstep)
      refine ⟨s', answer :: answers, m', ?_, Or.inl ⟨hbad.1, hagree⟩, hsim⟩
      simp only [hrun, Option.bind_eq_bind, Option.bind_some]
      rfl
    | inr hok =>
      obtain ⟨s', answers, m', hrun, hagree, hsim⟩ := ih hok.2 (hrest _ hstep)
      refine ⟨s', answer :: answers, m', ?_, Or.inr ⟨hok.1, hagree⟩, hsim⟩
      simp only [hrun, Option.bind_eq_bind, Option.bind_some]
      rfl

/-- A map with a constant hash, so that every key collides. -/
def colliding : Traits ℕ ℕ (ℕ × ℕ) := mapTraits (fun _ => 7) fun _ _ _ => rfl

def collisions : List (DenseOp ℕ ℕ × (ℕ → Bool)) :=
  [(.construct 0 9 1, fun _ => true), (.assign 0 3 30, fun _ => true), (.insert 0 4, fun _ => true),
    (.copy 1 0, fun _ => true), (.move 2 0, fun _ => false), (.try_insert 2 5 50, fun _ => false)]

theorem collisions_legal : DenseOp.Legal colliding collisions fun _ => Table.bare 0 := by
  refine ⟨Or.inr ⟨0, rfl⟩, ?_⟩
  rintro _ ⟨⟩
  refine ⟨rfl, ?_⟩
  rintro _ ⟨⟩
  refine ⟨rfl, ?_⟩
  rintro _ ⟨⟩
  refine ⟨trivial, ?_⟩
  rintro _ ⟨⟩
  refine ⟨trivial, ?_⟩
  rintro _ ⟨⟩
  exact ⟨rfl, fun _ _ => trivial⟩

end Run

end Luwu.DenseHash
