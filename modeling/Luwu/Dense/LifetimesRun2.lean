import Luwu.Dense.Held2

/-!
# Programs that construct and destroy every item once

A program has its tables, and the slots of the arrays that they have given back.  It is clean when those arrays are settled, and
those of its tables would be if they were destroyed now.
-/

namespace Luwu.DenseHash2

open Function Luwu.Dense Luwu.Association Luwu.OpenAddressing

structure Program (Item : Type) where
  tables : ℕ → Tracked Item
  gone : List Slots

namespace Program

variable {Key Value Item : Type} [BEq Key] [Inhabited Value]

def start : Program Item := ⟨fun _ => .empty, []⟩

/-- A table with a new array that comes for the old one -/
def put (p : Program Item) (t : ℕ) (t' : Tracked Item) (gone : List Slots) : Program Item :=
  ⟨update p.tables t t', gone ++ p.gone⟩

/-- The old array is destroyed. -/
def replace (p : Program Item) (t : ℕ) (t' : Tracked Item) : Program Item := p.put t t' [(p.tables t).destroyed]

variable (T : Traits Key Value Item)

def exec (room : ℕ → Bool) (p : Program Item) : DenseOp Key Value → DenseM (Program Item)
  | .construct t buckets => do
    let t' ← Tracked.make room buckets
    return p.replace t t'
  | .insert t key => do
    let ((t', _), gone) ← (p.tables t).insert T room key
    return p.put t t' gone
  | .assign t key v => do
    let (t', gone) ← (p.tables t).assign T room key v
    return p.put t t' gone
  | .try_insert t key v => do
    let ((t', _), gone) ← (p.tables t).try_insert T room key v
    return p.put t t' gone
  | .erase t key => do
    let t' ← (p.tables t).erase T key
    return p.put t t' []
  | .lookup t key => do
    let _ ← (p.tables t).table.lookup T key
    return p
  | .change t key v => do
    let t' ← (p.tables t).change T key v
    return p.put t t' []
  | .size _ => return p
  | .iterate t => do
    let _ ← (p.tables t).table.items
    return p
  | .grow t => do
    let (t', gone) ← (p.tables t).grow T room
    return p.put t t' gone
  | .clear t threshold => return p.put t ((p.tables t).clear threshold).1 ((p.tables t).clear threshold).2
  | .copy t other =>
    if t = other then return p
    else do
      let t' ← Tracked.copy room (p.tables other).table
      return p.replace t t'
  | .move t other =>
    if t = other then return p
    else return (p.replace t (p.tables other)).put other .empty []

def step (room : ℕ → Bool) (p : Program Item) (op : DenseOp Key Value) : Option (Program Item) :=
  match p.exec T room op with
  | .ok p' => some p'
  | .error .badalloc => some p
  | .error .fault => none

/-- All constructions were on raw slots and all destructions on live ones; in an array that was given back, and in that of a table
that is destroyed now, there are as many of both. -/
def Clean (p : Program Item) : Prop := Tracked.AllSettled p.gone ∧ ∀ t, (p.tables t).destroyed.Settled

/-- The program goes through and is clean all the way. -/
def CleanRun : List (DenseOp Key Value × (ℕ → Bool)) → Program Item → Prop
  | [], p => p.Clean
  | (op, room) :: ops, p => p.Clean ∧ ∃ p', p.step T room op = some p' ∧ CleanRun ops p'

/-- Where the operations take a program -/
def run : List (DenseOp Key Value × (ℕ → Bool)) → Program Item → Option (Program Item)
  | [], p => some p
  | (op, room) :: ops, p => (p.step T room op).bind (run ops)

/-- An erase moves no item. -/
def Keeps [EquivBEq Key] (p : Program Item) : DenseOp Key Value → Prop
  | .erase t key => Tracked.Erases T (p.tables t).table key
  | _ => True

def KeepsRun [EquivBEq Key] : List (DenseOp Key Value × (ℕ → Bool)) → Program Item → Prop
  | [], _ => True
  | (op, room) :: ops, p => p.Keeps T op ∧ ∀ p', p.step T room op = some p' → KeepsRun ops p'

variable {T} {p p' : Program Item} {op : DenseOp Key Value} {room : ℕ → Bool} {t : ℕ} {t' : Tracked Item}
  {gone : List Slots}

/-- The tables of a program, without their slots -/
def bare (p : Program Item) (t : ℕ) : Table Item := (p.tables t).table

theorem bare_put : (p.put t t' gone).bare = update p.bare t t'.table := by
  funext i
  show (update p.tables t t' i).table = _
  by_cases he : i = t
  · rw [he, update_self, update_self]
  · rw [update_of_ne he, update_of_ne he]
    rfl

theorem bare_replace : (p.replace t t').bare = update p.bare t t'.table := bare_put

open Tracked in
/-- The operations on the tables are those of `DenseOp.exec`. -/
theorem exec_bare : (p.exec T room op).map bare = (op.exec T room p.bare).map Prod.fst := by
  cases op with
  | construct t buckets =>
    rw [exec, DenseOp.exec, map_bind, map_bind]
    unfold Tracked.make
    cases Table.make room buckets with
    | error e => rfl
    | ok n => exact congrArg Except.ok bare_replace
  | insert t key =>
    rw [exec, DenseOp.exec, map_bind, map_bind, show p.bare t = (p.tables t).table from rfl, ← insert_table, bind_map]
    congr 1
    funext r
    exact congrArg Except.ok bare_put
  | assign t key v =>
    rw [exec, DenseOp.exec, map_bind, map_bind, show p.bare t = (p.tables t).table from rfl, ← assign_table, bind_map]
    congr 1
    funext r
    exact congrArg Except.ok bare_put
  | try_insert t key v =>
    rw [exec, DenseOp.exec, map_bind, map_bind, show p.bare t = (p.tables t).table from rfl, ← try_insert_table,
      bind_map]
    congr 1
    funext r
    exact congrArg Except.ok bare_put
  | erase t key =>
    rw [exec, DenseOp.exec, map_bind, map_bind, show p.bare t = (p.tables t).table from rfl, ← erase_table, bind_map]
    congr 1
    funext r
    exact congrArg Except.ok bare_put
  | lookup t key =>
    rw [exec, DenseOp.exec, map_bind, map_bind]
    rfl
  | change t key v =>
    rw [exec, DenseOp.exec, map_bind, map_bind, show p.bare t = (p.tables t).table from rfl, ← change_table, bind_map]
    congr 1
    funext r
    exact congrArg Except.ok bare_put
  | size t => rfl
  | iterate t =>
    rw [exec, DenseOp.exec, map_bind, map_bind]
    rfl
  | grow t =>
    rw [exec, DenseOp.exec, map_bind, map_bind, show p.bare t = (p.tables t).table from rfl, ← grow_table, bind_map]
    congr 1
    funext r
    exact congrArg Except.ok bare_put
  | clear t threshold =>
    rw [exec, DenseOp.exec]
    exact congrArg Except.ok (bare_put.trans (congrArg _ (clear_table threshold)))
  | copy t other =>
    rw [exec, DenseOp.exec]
    by_cases he : t = other
    · rw [if_pos he, if_pos he]
      rfl
    · rw [if_neg he, if_neg he, map_bind, map_bind, show p.bare other = (p.tables other).table from rfl, ← copy_table,
        bind_map]
      congr 1
      funext r
      exact congrArg Except.ok bare_replace
  | move t other =>
    rw [exec, DenseOp.exec]
    by_cases he : t = other
    · rw [if_pos he, if_pos he]
      rfl
    · rw [if_neg he, if_neg he]
      refine congrArg Except.ok (bare_put.trans ?_)
      rw [bare_replace]
      rfl

/-! ### Steps -/

/-- Every table is a table of the hash table, with its slots in order, and all other arrays are settled. -/
structure Good (T : Traits Key Value Item) (p : Program Item) : Prop where
  ok : ∀ t, TableOk T (p.tables t).table
  held : ∀ t, (p.tables t).Held
  gone : Tracked.AllSettled p.gone

theorem good_start (T : Traits Key Value Item) : Good T start where
  ok := fun _ => empty_ok T
  held := fun _ => Tracked.held_empty
  gone := Tracked.allSettled_nil

theorem Good.clean (h : Good T p) : p.Clean := ⟨h.gone, fun t => (h.held t).settled (h.ok t)⟩

theorem allSettled_append {gone gone' : List Slots} (h : Tracked.AllSettled gone) (h' : Tracked.AllSettled gone') :
    Tracked.AllSettled (gone ++ gone') := fun s hs => (List.mem_append.mp hs).elim (h s) (h' s)

theorem held_update (h : ∀ t, (p.tables t).Held) (ht : t'.Held) (i : ℕ) : (update p.tables t t' i).Held := by
  by_cases he : i = t
  · rw [he, update_self]
    exact ht
  · rw [update_of_ne he]
    exact h i

/-- What is in order after an operation -/
def InOrder (p : Program Item) : Prop := (∀ t, (p.tables t).Held) ∧ Tracked.AllSettled p.gone

theorem Good.put (h : Good T p) (hnew : t'.Held ∧ Tracked.AllSettled gone) : InOrder (p.put t t' gone) :=
  ⟨held_update h.held hnew.1, allSettled_append hnew.2 h.gone⟩

theorem Good.replace (h : Good T p) (ht : t'.Held) : InOrder (p.replace t t') := by
  refine h.put ⟨ht, fun s hs => ?_⟩
  rw [List.mem_singleton.mp hs]
  exact (h.held t).settled (h.ok t)

theorem bind_ok {α β : Type} {x : DenseM α} {f : α → DenseM β} {b : β} (h : (x >>= f) = .ok b) :
    ∃ a, x = .ok a ∧ f a = .ok b := by
  cases x with
  | error e => cases h
  | ok a => exact ⟨a, rfl, h⟩

variable [EquivBEq Key]

theorem exec_inOrder (h : Good T p) (hrun : p.exec T room op = .ok p') (hkeeps : p.Keeps T op) : InOrder p' := by
  cases op with
  | construct t buckets =>
    obtain ⟨t', hmake, hp⟩ := bind_ok hrun
    cases hp
    exact h.replace (Tracked.make_held hmake)
  | insert t key =>
    obtain ⟨r, hins, hp⟩ := bind_ok hrun
    cases hp
    exact h.put (Tracked.insert_held (h.held t) (h.ok t) hins)
  | assign t key v =>
    obtain ⟨r, hassign, hp⟩ := bind_ok hrun
    cases hp
    exact h.put (Tracked.assign_held (h.held t) (h.ok t) hassign)
  | try_insert t key v =>
    obtain ⟨r, htry, hp⟩ := bind_ok hrun
    cases hp
    exact h.put (Tracked.try_insert_held (h.held t) (h.ok t) htry)
  | erase t key =>
    obtain ⟨t', herase, hp⟩ := bind_ok hrun
    cases hp
    exact h.put ⟨(Tracked.erase_held (h.held t) (h.ok t) herase).1 hkeeps, Tracked.allSettled_nil⟩
  | lookup t key =>
    obtain ⟨_, _, hp⟩ := bind_ok hrun
    cases hp
    exact ⟨h.held, h.gone⟩
  | change t key v =>
    obtain ⟨t', hchange, hp⟩ := bind_ok hrun
    cases hp
    exact h.put ⟨Tracked.change_held (h.held t) hchange, Tracked.allSettled_nil⟩
  | size t =>
    cases hrun
    exact ⟨h.held, h.gone⟩
  | iterate t =>
    obtain ⟨_, _, hp⟩ := bind_ok hrun
    cases hp
    exact ⟨h.held, h.gone⟩
  | grow t =>
    obtain ⟨r, hgrow, hp⟩ := bind_ok hrun
    cases hp
    exact h.put (Tracked.grow_held (h.held t) (h.ok t) hgrow)
  | clear t threshold =>
    cases hrun
    exact h.put (Tracked.clear_held (h.held t) (h.ok t) threshold)
  | copy t other =>
    rw [exec] at hrun
    split at hrun
    · cases hrun
      exact ⟨h.held, h.gone⟩
    · obtain ⟨t', hcopy, hp⟩ := bind_ok hrun
      cases hp
      exact h.replace (Tracked.copy_held (h.ok other) hcopy)
  | move t other =>
    rw [exec] at hrun
    split at hrun
    · cases hrun
      exact ⟨h.held, h.gone⟩
    · cases hrun
      obtain ⟨hheld, hgone⟩ := h.replace (t := t) (h.held other)
      exact ⟨held_update hheld Tracked.held_empty, hgone⟩

/-- A step that leaves a clean program moved no item. -/
theorem keeps_of_clean (h : Good T p) (hrun : p.exec T room op = .ok p') (hclean : p'.Clean) : p.Keeps T op := by
  cases op with
  | erase t key =>
    obtain ⟨t', herase, hp⟩ := bind_ok hrun
    cases hp
    apply (Tracked.erase_held (h.held t) (h.ok t) herase).2
    have hsettled := hclean.2 t
    rw [show (p.put t t' []).tables t = t' from update_self _ _ _] at hsettled
    exact Tracked.proper_of_settled hsettled
  | construct t buckets => trivial
  | insert t key => trivial
  | assign t key v => trivial
  | try_insert t key v => trivial
  | lookup t key => trivial
  | change t key v => trivial
  | size t => trivial
  | iterate t => trivial
  | grow t => trivial
  | clear t threshold => trivial
  | copy t other => trivial
  | move t other => trivial

theorem exec_ok (h : Good T p) (hallowed : op.Allowed) :
    p.exec T room op = .error .badalloc ∨ ∃ p', p.exec T room op = .ok p' ∧ ∀ t, TableOk T (p'.tables t).table := by
  have hsim : Simulates T p.bare fun t => (p.bare t).contents := fun t => ⟨h.ok t, List.Perm.refl _⟩
  have hbare := @exec_bare _ _ _ _ _ T p op room
  cases hexec : p.exec T room op with
  | error e =>
    rw [hexec] at hbare
    rcases @Luwu.DenseHash2.exec_ok _ _ _ _ _ _ _ _ _ room _ hsim hallowed with hbad | ⟨s', answer, hrun, _⟩
    · rw [hbad] at hbare
      cases hbare
      exact Or.inl rfl
    · rw [hrun] at hbare
      cases hbare
  | ok p' =>
    rw [hexec] at hbare
    rcases @Luwu.DenseHash2.exec_ok _ _ _ _ _ _ _ _ _ room _ hsim hallowed with hbad | ⟨s', answer, hrun, hsim', _⟩
    · rw [hbad] at hbare
      cases hbare
    · rw [hrun] at hbare
      cases hbare
      exact Or.inr ⟨p', rfl, fun t => (hsim' t).1⟩

/-! ### Runs -/

theorem run_iff {ops : List (DenseOp Key Value × (ℕ → Bool))} (h : Good T p) (hallowed : ∀ op ∈ ops, op.1.Allowed) :
    CleanRun T ops p ↔ KeepsRun T ops p := by
  induction ops generalizing p with
  | nil => exact ⟨fun _ => trivial, fun _ => h.clean⟩
  | cons op ops ih =>
    obtain ⟨op, room⟩ := op
    have hrest : ∀ op ∈ ops, op.1.Allowed := fun op hop => hallowed op (List.mem_cons_of_mem _ hop)
    rw [CleanRun, KeepsRun]
    rcases @exec_ok _ _ _ _ _ _ _ _ room _ h (hallowed (op, room) List.mem_cons_self) with hbad | ⟨p', hexec, hok⟩
    · have hstep : p.step T room op = some p := by
        unfold step
        rw [hbad]
      have hkeeps : p.Keeps T op := by
        cases op with
        | erase t key =>
          -- an erase allocates nothing
          obtain ⟨t', herase, _⟩ := Luwu.DenseHash2.erase_ok (h.ok t) key
          obtain ⟨t₁, hrun, _⟩ := Tracked.ok_of_table (Tracked.erase_table.trans herase)
          rw [exec, hrun] at hbad
          cases hbad
        | construct t buckets => trivial
        | insert t key => trivial
        | assign t key v => trivial
        | try_insert t key v => trivial
        | lookup t key => trivial
        | change t key v => trivial
        | size t => trivial
        | iterate t => trivial
        | grow t => trivial
        | clear t threshold => trivial
        | copy t other => trivial
        | move t other => trivial
      constructor
      · rintro ⟨_, p₁, hp₁, hclean⟩
        rw [hstep] at hp₁
        cases hp₁
        refine ⟨hkeeps, fun p₂ hp₂ => ?_⟩
        rw [hstep] at hp₂
        cases hp₂
        exact (ih h hrest).mp hclean
      · rintro ⟨_, hkept⟩
        exact ⟨h.clean, p, hstep, (ih h hrest).mpr (hkept p hstep)⟩
    · have hstep : p.step T room op = some p' := by
        unfold step
        rw [hexec]
      constructor
      · rintro ⟨_, p₁, hp₁, hclean⟩
        rw [hstep] at hp₁
        cases hp₁
        have hnow : p'.Clean := by
          cases ops with
          | nil => exact hclean
          | cons op' ops => exact hclean.1
        have hkeeps := keeps_of_clean h hexec hnow
        obtain ⟨hheld, hgone⟩ := exec_inOrder h hexec hkeeps
        refine ⟨hkeeps, fun p₂ hp₂ => ?_⟩
        rw [hstep] at hp₂
        cases hp₂
        exact (ih ⟨hok, hheld, hgone⟩ hrest).mp hclean
      · rintro ⟨hkeeps, hkept⟩
        obtain ⟨hheld, hgone⟩ := exec_inOrder h hexec hkeeps
        exact ⟨h.clean, p', hstep, (ih ⟨hok, hheld, hgone⟩ hrest).mpr (hkept p' hstep)⟩

/-- A program constructs and destroys every item once exactly as long as its erases move no items. -/
theorem lifetimes_iff (T : Traits Key Value Item) (ops : List (DenseOp Key Value × (ℕ → Bool)))
    (hallowed : ∀ op ∈ ops, op.1.Allowed) : CleanRun T ops start ↔ KeepsRun T ops start :=
  run_iff (good_start T) hallowed

omit [EquivBEq Key] in
theorem clean_of_run {ops : List (DenseOp Key Value × (ℕ → Bool))} (h : CleanRun T ops p) (hrun : run T ops p = some p') :
    p'.Clean := by
  induction ops generalizing p with
  | nil =>
    cases hrun
    exact h
  | cons op ops ih =>
    obtain ⟨_, p₁, hstep, hrest⟩ := h
    rw [run, hstep] at hrun
    exact ih hrest hrun

end Program

def insertsAndErases : List (DenseOp ℕ ℕ × (ℕ → Bool)) :=
  [(.assign 0 3 30, fun _ => true), (.insert 0 4, fun _ => true), (.erase 0 4, fun _ => true)]

theorem lifetimes_iff_sample :
    Program.CleanRun colliding insertsAndErases .start ↔ Program.KeepsRun colliding insertsAndErases .start :=
  Program.lifetimes_iff colliding insertsAndErases (by
    intro op hop
    simp only [insertsAndErases, List.mem_cons, List.not_mem_nil, or_false] at hop
    obtain rfl | rfl | rfl := hop <;> exact trivial)

/-- The first of two items with the same hash is erased. -/
def erasesFirst : List (DenseOp ℕ ℕ × (ℕ → Bool)) :=
  [(.assign 0 3 30, fun _ => true), (.assign 0 4 40, fun _ => true), (.erase 0 3, fun _ => true)]

/-- Three constructions and two destructions -/
theorem erasesFirst_leaks :
    (Program.run colliding erasesFirst .start).map (fun p =>
        ((p.tables 0).destroyed.proper, (p.tables 0).destroyed.constructions, (p.tables 0).destroyed.destructions)) =
      some (false, 3, 2) ∧ ¬ Program.CleanRun colliding erasesFirst .start := by
  have hrun : (Program.run colliding erasesFirst .start).map (fun p : Program (ℕ × ℕ) =>
      ((p.tables 0).destroyed.proper, (p.tables 0).destroyed.constructions, (p.tables 0).destroyed.destructions)) =
        some (false, 3, 2) := by decide +kernel
  refine ⟨hrun, fun hclean => ?_⟩
  obtain ⟨p, hp, hcounts⟩ := Option.map_eq_some_iff.mp hrun
  have hproper := ((Program.clean_of_run hclean hp).2 0).1
  exact Bool.false_ne_true ((congrArg Prod.fst hcounts).symm.trans hproper)

end Luwu.DenseHash2
