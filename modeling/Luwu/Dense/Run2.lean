import Luwu.Dense.Ops2

/-!
# Programs with DenseHashTable2

A program has any number of tables and does its operations on them one after the other.  Each table is the
finite map that the operations on it say (`DenseOp.spec`), as a list of items up to order; an operation that
finds no memory changes nothing.
-/

namespace Luwu.DenseHash2

open Function Luwu.Dense Luwu.Association Luwu.OpenAddressing Luwu.Probing

/-- An operation on the tables with these numbers. -/
inductive DenseOp (Key Value : Type) where
  | construct (t buckets : ℕ)
  | insert (t : ℕ) (key : Key)
  | assign (t : ℕ) (key : Key) (v : Value)
  | try_insert (t : ℕ) (key : Key) (v : Value)
  | erase (t : ℕ) (key : Key)
  | lookup (t : ℕ) (key : Key)
  | change (t : ℕ) (key : Key) (v : Value)
  | size (t : ℕ)
  | iterate (t : ℕ)
  | grow (t : ℕ)
  | clear (t thresholdToDestroy : ℕ)
  | copy (t other : ℕ)
  | move (t other : ℕ)

section Run

variable {Key Value Item : Type} [BEq Key] [Inhabited Value]

/-- A table is constructed with a power of two of buckets, or none. -/
def DenseOp.Allowed : DenseOp Key Value → Prop
  | .construct _ buckets => buckets = 0 ∨ ∃ e, buckets = 2 ^ e
  | _ => True

variable (T : Traits Key Value Item)

def DenseOp.exec (room : ℕ → Bool) (s : ℕ → Table Item) :
    DenseOp Key Value → DenseM ((ℕ → Table Item) × DenseAnswer Item)
  | .construct t buckets => do
    let t' ← Table.make room buckets
    return (update s t t', .done)
  | .insert t key => do
    let (t', bucket) ← (s t).insert T room key
    return (update s t t', .item (t'.data bucket))
  | .assign t key v => do
    let t' ← (s t).assign T room key v
    return (update s t t', .done)
  | .try_insert t key v => do
    let (t', fresh) ← (s t).try_insert T room key v
    return (update s t t', .fresh fresh)
  | .erase t key => do
    let t' ← (s t).erase T key
    return (update s t t', .done)
  | .lookup t key => do
    let a ← (s t).lookup T key
    return (s, .item a)
  | .change t key v => do
    let t' ← (s t).change T key v
    return (update s t t', .done)
  | .size t => return (s, .size (s t).count)
  | .iterate t => do
    let l ← (s t).items
    return (s, .items l)
  | .grow t => do
    let t' ← (s t).grow T room
    return (update s t t', .done)
  | .clear t threshold => return (update s t ((s t).clear threshold), .done)
  | .copy t other =>
    if t = other then return (s, .done)
    else do
      let t' ← (s other).copy room
      return (update s t t', .done)
  | .move t other =>
    if t = other then return (s, .done)
    else return (update (update s t (s other)) other .empty, .done)

/-- An operation without memory throws and leaves everything; a fault ends the run. -/
def DenseOp.step (room : ℕ → Bool) (s : ℕ → Table Item) (op : DenseOp Key Value) :
    Option ((ℕ → Table Item) × DenseAnswer Item) :=
  match op.exec T room s with
  | .ok r => some r
  | .error .badalloc => some (s, .badalloc)
  | .error .fault => none

/-- The operations, each with what the allocator says then. -/
def DenseOp.run : List (DenseOp Key Value × (ℕ → Bool)) → (ℕ → Table Item) →
    Option ((ℕ → Table Item) × List (DenseAnswer Item))
  | [], s => some (s, [])
  | (op, room) :: ops, s => do
    let (s, answer) ← op.step T room s
    let (s, answers) ← DenseOp.run ops s
    return (s, answer :: answers)

/-- What an operation does to the finite maps. -/
def DenseOp.spec (m : ℕ → List Item) : DenseOp Key Value → (ℕ → List Item) × DenseAnswer Item
  | .construct t _ => (update m t [], .done)
  | .insert t key =>
    (update m t (put T.getKey (m t) key (T.setKey key)),
      .item (get T.getKey (put T.getKey (m t) key (T.setKey key)) key))
  | .assign t key v =>
    (update m t (modify T.getKey (put T.getKey (m t) key (T.setKey key)) key (T.setValue · v)), .done)
  | .try_insert t key v =>
    (update m t (if (get T.getKey (m t) key).isSome then m t
        else modify T.getKey (put T.getKey (m t) key (T.setKey key)) key (T.setValue · v)),
      .fresh !(get T.getKey (m t) key).isSome)
  | .erase t key => (update m t (drop T.getKey (m t) key), .done)
  | .lookup t key => (m, .item (get T.getKey (m t) key))
  | .change t key v => (update m t (modify T.getKey (m t) key (T.setValue · v)), .done)
  | .size t => (m, .size (m t).length)
  | .iterate t => (m, .items (m t))
  | .grow _ => (m, .done)
  | .clear t _ => (update m t [], .done)
  | .copy t other => (update m t (m other), .done)
  | .move t other => (if t = other then m else update (update m t (m other)) other [], .done)

/-- The answers are those of the finite maps, which the operations take from `m` to `m'`. -/
def DenseOp.Agree : List (DenseOp Key Value) → List (DenseAnswer Item) → (ℕ → List Item) →
    (ℕ → List Item) → Prop
  | [], [], m, m' => m = m'
  | op :: ops, answer :: answers, m, m' =>
    (answer = .badalloc ∧ DenseOp.Agree ops answers m m') ∨
      (answer.Is (op.spec T m).2 ∧ DenseOp.Agree ops answers (op.spec T m).1 m')
  | _, _, _, _ => False

variable {T} {s s' : ℕ → Table Item} {m : ℕ → List Item} {op : DenseOp Key Value} {room : ℕ → Bool}

/-- Every table is a finite map. -/
def Simulates (T : Traits Key Value Item) (s : ℕ → Table Item) (m : ℕ → List Item) : Prop :=
  ∀ t, TableOk T (s t) ∧ (s t).contents.Perm (m t)

theorem Simulates.update (h : Simulates T s m) (t : ℕ) {t' : Table Item} {l : List Item} (ht : TableOk T t')
    (hl : t'.contents.Perm l) : Simulates T (update s t t') (update m t l) := by
  intro i
  by_cases he : i = t
  · rw [he, update_self, update_self]
    exact ⟨ht, hl⟩
  · rw [update_of_ne he, update_of_ne he]
    exact h i

variable [EquivBEq Key]

theorem Simulates.get (h : Simulates T s m) (t : ℕ) (key : Key) :
    get T.getKey (s t).contents key = get T.getKey (m t) key :=
  get_perm (h t).1.layout.distinct_entries (h t).2 key

theorem Simulates.put (h : Simulates T s m) (t : ℕ) (key : Key) :
    (put T.getKey (s t).contents key (T.setKey key)).Perm (put T.getKey (m t) key (T.setKey key)) :=
  put_perm (h t).1.layout.distinct_entries (h t).2

/-- One operation: it runs out of memory, or does what it does to the finite maps. -/
theorem exec_ok (h : Simulates T s m) (hallowed : op.Allowed) :
    op.exec T room s = .error .badalloc ∨ ∃ s' answer, op.exec T room s = .ok (s', answer) ∧
      Simulates T s' (op.spec T m).1 ∧ answer.Is (op.spec T m).2 := by
  cases op with
  | construct t buckets =>
    cases hallowed with
    | inl hzero =>
      subst hzero
      exact Or.inr ⟨_, _, rfl, h.update t (empty_ok T) (List.Perm.refl _), rfl⟩
    | inr hpow =>
      obtain ⟨e, rfl⟩ := hpow
      cases make_pow_ok T room e with
      | inl hbad =>
        left
        show (Table.make room (2 ^ e) >>= _) = _
        rw [hbad]
        rfl
      | inr hmake =>
        obtain ⟨t', hmake, ht, _, _, hnil⟩ := hmake
        right
        refine ⟨update s t t', .done, ?_, h.update t ht (List.Perm.of_eq hnil), rfl⟩
        show (Table.make room (2 ^ e) >>= _) = _
        rw [hmake]
        rfl
  | insert t key =>
    cases insert_ok (h t).1 room key with
    | inl hbad =>
      left
      show ((s t).insert T room key >>= _) = _
      rw [hbad]
      rfl
    | inr hins =>
      obtain ⟨t', b, a, hins, ht, hb, hk, hperm⟩ := hins
      right
      have hdata : t'.data b = some a := (slots_of_used (Stored.has_of_some hb)).symm.trans hb
      have hput := hperm.trans (h.put t key)
      refine ⟨update s t t', .item (some a), ?_, h.update t ht hput, ?_⟩
      · show ((s t).insert T room key >>= _) = _
        rw [hins, ← hdata]
        rfl
      · show DenseAnswer.item _ = DenseAnswer.item _
        rw [← get_perm ht.layout.distinct_entries hput key]
        exact congrArg _ (ht.layout.get_some hb hk).symm
  | assign t key v =>
    cases assign_ok (h t).1 room key v with
    | inl hbad =>
      left
      show ((s t).assign T room key v >>= _) = _
      rw [hbad]
      rfl
    | inr hassign =>
      obtain ⟨t', hassign, ht, hperm⟩ := hassign
      right
      refine ⟨update s t t', .done, ?_, h.update t ht (hperm.trans (modify_perm (h.put t key) key _)), rfl⟩
      show ((s t).assign T room key v >>= _) = _
      rw [hassign]
      rfl
  | try_insert t key v =>
    cases try_insert_ok (h t).1 room key v with
    | inl hbad =>
      left
      show ((s t).try_insert T room key v >>= _) = _
      rw [hbad]
      rfl
    | inr htry =>
      obtain ⟨t', htry, ht, hperm⟩ := htry
      right
      rw [h.get t key] at htry hperm
      refine ⟨update s t t', .fresh !(get T.getKey (m t) key).isSome, ?_, ?_, rfl⟩
      · show ((s t).try_insert T room key v >>= _) = _
        rw [htry]
        rfl
      · apply h.update t ht
        cases hsome : (get T.getKey (m t) key).isSome with
        | true =>
          rw [hsome, if_pos rfl] at hperm
          exact hperm.trans (h t).2
        | false =>
          rw [hsome, if_neg Bool.false_ne_true] at hperm
          exact hperm.trans (modify_perm (h.put t key) key _)
  | erase t key =>
    obtain ⟨t', herase, ht, hperm⟩ := erase_ok (h t).1 key
    right
    refine ⟨update s t t', .done, ?_, h.update t ht (hperm.trans (drop_perm (h t).2 key)), rfl⟩
    show ((s t).erase T key >>= _) = _
    rw [herase]
    rfl
  | lookup t key =>
    right
    refine ⟨s, .item (get T.getKey (m t) key), ?_, h, rfl⟩
    show ((s t).lookup T key >>= _) = _
    rw [lookup_ok (h t).1 key, h.get t key]
    rfl
  | change t key v =>
    obtain ⟨t', hchange, ht, hcontents⟩ := change_ok (h t).1 key v
    right
    refine ⟨update s t t', .done, ?_, h.update t ht ?_, rfl⟩
    · show ((s t).change T key v >>= _) = _
      rw [hchange]
      rfl
    · rw [hcontents]
      exact modify_perm (h t).2 key _
  | size t =>
    right
    refine ⟨s, .size (s t).count, rfl, h, ?_⟩
    show DenseAnswer.size _ = DenseAnswer.size _
    rw [(h t).1.size, (h t).2.length_eq]
  | iterate t =>
    right
    refine ⟨s, .items (s t).contents, ?_, h, (h t).2⟩
    show ((s t).items >>= _) = _
    rw [items_ok (h t).1]
    rfl
  | grow t =>
    cases grow_ok (h t).1 room with
    | inl hbad =>
      left
      show ((s t).grow T room >>= _) = _
      rw [hbad]
      rfl
    | inr hgrow =>
      obtain ⟨t', hgrow, ht, hperm, _⟩ := hgrow
      right
      refine ⟨update s t t', .done, ?_, ?_, rfl⟩
      · show ((s t).grow T room >>= _) = _
        rw [hgrow]
        rfl
      · have hup := h.update t ht (hperm.trans (h t).2)
        rw [update_eq_self_iff.mpr rfl] at hup
        exact hup
  | clear t threshold =>
    right
    obtain ⟨ht, hnil⟩ := clear_ok (h t).1 threshold
    exact ⟨_, _, rfl, h.update t ht (List.Perm.of_eq hnil), rfl⟩
  | copy t other =>
    by_cases he : t = other
    · right
      subst he
      refine ⟨s, .done, if_pos rfl, ?_, rfl⟩
      show Simulates T s (update m t (m t))
      rw [update_eq_self_iff.mpr rfl]
      exact h
    · cases copy_ok (h other).1 room with
      | inl hbad =>
        left
        show (if t = other then _ else ((s other).copy room >>= _)) = _
        rw [if_neg he, hbad]
        rfl
      | inr hcopy =>
        obtain ⟨t', hcopy, ht, hcontents⟩ := hcopy
        right
        refine ⟨update s t t', .done, ?_, h.update t ht ?_, rfl⟩
        · show (if t = other then _ else ((s other).copy room >>= _)) = _
          rw [if_neg he, hcopy]
          rfl
        · rw [hcontents]
          exact (h other).2
  | move t other =>
    right
    by_cases he : t = other
    · refine ⟨s, .done, if_pos he, ?_, rfl⟩
      show Simulates T s (if t = other then m else _)
      rw [if_pos he]
      exact h
    · refine ⟨_, .done, if_neg he, ?_, rfl⟩
      show Simulates T _ (if t = other then m else _)
      rw [if_neg he]
      exact (h.update t (h other).1 (h other).2).update other (empty_ok T) (List.Perm.refl _)

theorem run_ok {ops : List (DenseOp Key Value × (ℕ → Bool))} (h : Simulates T s m)
    (hallowed : ∀ op ∈ ops, op.1.Allowed) :
    ∃ s' answers m', DenseOp.run T ops s = some (s', answers) ∧
      DenseOp.Agree T (ops.map Prod.fst) answers m m' ∧ Simulates T s' m' := by
  induction ops generalizing s m with
  | nil => exact ⟨s, [], m, rfl, rfl, h⟩
  | cons op ops ih =>
    obtain ⟨op, room⟩ := op
    have hrest : ∀ op ∈ ops, op.1.Allowed := fun op hop => hallowed op (List.mem_cons_of_mem _ hop)
    cases exec_ok h (hallowed (op, room) List.mem_cons_self) with
    | inl hbad =>
      obtain ⟨s', answers, m', hrun, hagree, hsim⟩ := ih h hrest
      refine ⟨s', .badalloc :: answers, m', ?_, Or.inl ⟨rfl, hagree⟩, hsim⟩
      rw [DenseOp.run]
      unfold DenseOp.step
      rw [hbad]
      simp only [hrun, Option.bind_eq_bind, Option.bind_some]
      rfl
    | inr hexec =>
      obtain ⟨s₁, answer, hexec, h₁, hanswer⟩ := hexec
      obtain ⟨s', answers, m', hrun, hagree, hsim⟩ := ih h₁ hrest
      refine ⟨s', answer :: answers, m', ?_, Or.inr ⟨hanswer, hagree⟩, hsim⟩
      rw [DenseOp.run]
      unfold DenseOp.step
      rw [hexec]
      simp only [hrun, Option.bind_eq_bind, Option.bind_some]
      rfl

/-- A map with a constant hash, so that every key collides. -/
theorem seven_eq (k k' : ℕ) (_ : (k == k') = true) : (7 : BitVec 64) = 7 := rfl

def colliding : Traits ℕ ℕ (ℕ × ℕ) := mapTraits (fun _ => 7) seven_eq

def collisions : List (DenseOp ℕ ℕ × (ℕ → Bool)) :=
  [(.construct 0 1, fun _ => true), (.assign 0 3 30, fun _ => true), (.insert 0 4, fun _ => true),
    (.erase 0 3, fun _ => true), (.copy 1 0, fun _ => true), (.move 2 0, fun _ => false),
    (.try_insert 2 5 50, fun _ => false)]

end Run

end Luwu.DenseHash2
