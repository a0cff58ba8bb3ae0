import Luwu.Str.Free

/-!
# Runs of string operations

The operations of a run are the calls that make strings, the writes into string buffers, and what the
collector does with strings and with the table.  `StringBooks` records the buffers that were started and
not finished, and the memory that was handed over.  In every state of a run the table is in order, and
every callback has run or is still to come (`StringsBooked`).
-/

namespace Luwu

open Function Luwu.Run Luwu.Chains Luwu.HashChains

structure StringBooks where
  buffers : List ℕ
  handed : List ExtBuffer

def StringBooks.empty : StringBooks := ⟨[], []⟩

/-- `fresh` and `room` are the answers of the allocator, `garbage` is what memory holds, and `live` is what
the collector reached. -/
inductive StringOp where
  | newlstr (fresh : Option ℕ) (room : Bool) (str : Bytes)
  | bufstart (fresh : Option ℕ) (garbage : Bytes)
  | fillbuffer (p : ℕ) (bytes : Bytes)
  | buffinish (room : Bool) (p : ℕ)
  | newexternallstr (fresh : Option ℕ) (room : Bool) (b : ExtBuffer)
  | free (p : ℕ)
  | fix (p : ℕ)
  | flipwhite (live : ℕ → Bool)
  | resize (room : Bool) (newsize : ℕ)
  | shrinkbuffers (room : Bool)
  | shrinkbuffersfull (room : Bool)

namespace StringOp

def exec : StringOp → StringM (Option ℕ)
  | newlstr fresh room str => some <$> luaS_newlstr fresh room str
  | bufstart fresh garbage => some <$> luaS_bufstart fresh garbage
  | fillbuffer p bytes => (fun _ => none) <$> Luwu.fillbuffer p bytes
  | buffinish room p => some <$> luaS_buffinish room p
  | newexternallstr fresh room b => some <$> luaS_newexternallstr fresh room b
  | free p => (fun _ => none) <$> luaS_free p
  | fix p => (fun _ => none) <$> luaS_fix p
  | flipwhite live => (fun _ => none) <$> Luwu.flipwhite live
  | resize room newsize => (fun _ => none) <$> luaS_resize room newsize
  | shrinkbuffers room => (fun _ => none) <$> Luwu.shrinkbuffers room
  | shrinkbuffersfull room => (fun _ => none) <$> Luwu.shrinkbuffersfull room

/-- The books after an operation; no string is answered when it fails. -/
def after (B : StringBooks) : StringOp → Option ℕ → StringBooks
  | bufstart _ _, some p => { B with buffers := p :: B.buffers }
  | buffinish _ p, _ => { B with buffers := B.buffers.filter (· ≠ p) }
  | free p, _ => { B with buffers := B.buffers.filter (· ≠ p) }
  | newexternallstr _ _ b, _ => { B with handed := b.handed ++ B.handed }
  | _, _ => B

/-- The allocator answers what is not in use; buffers are filled up to their length and finished once,
while they are alive; the size of the table is a power of two. -/
def Allowed (s : StringState) (B : StringBooks) : StringOp → Prop
  | newlstr fresh _ _ => ∀ p, fresh = some p → p ∉ s.objects
  | bufstart fresh _ => ∀ p, fresh = some p → p ∉ s.objects
  | fillbuffer p bytes => p ∈ B.buffers ∧ ∀ ts, s.strings p = some ts → bytes.length = ts.len
  | buffinish _ p => p ∈ B.buffers ∧ ∀ ts, s.strings p = some ts → ts.isdead = false
  | newexternallstr fresh _ _ => ∀ p, fresh = some p → p ∉ s.objects
  | free p => p ∈ s.objects
  | fix p => p ∈ s.objects
  | flipwhite _ => True
  | resize _ newsize => ∃ k, newsize = 2 ^ k
  | shrinkbuffers _ => True
  | shrinkbuffersfull _ => True

/-- An operation in a run; none when it faults. -/
def step (op : StringOp) (s : StringState × StringBooks) : Option (StringState × StringBooks) :=
  match op.exec s.1 with
  | .ok a s' => some (s', op.after s.2 a)
  | .error .fault _ => none
  | .error _ s' => some (s', op.after s.2 none)

def run : List StringOp → StringState × StringBooks → Option (StringState × StringBooks)
  | [], s => some s
  | op :: ops, s => (op.step s).bind (run ops)

/-- Every operation of a run is allowed where it is made. -/
def Permitted : List StringOp → StringState × StringBooks → Prop
  | [], _ => True
  | op :: ops, s => op.Allowed s.1 s.2 ∧ ∀ s', op.step s = some s' → Permitted ops s'

end StringOp

/-- The table that `f_luaopen` makes. -/
def openstrt : StringState where
  strings := fun _ => none
  objects := []
  hash := fun _ => none
  size := LUA_MINSTRTABSIZE
  nuse := 0
  freed := []

/-- The state and the books agree. -/
structure StringsBooked (s : StringState × StringBooks) (ms : List ℕ) : Prop where
  strings : StringsOk s.1 ms
  buffers : ∀ p ∈ s.2.buffers, p ∉ ms ∧ ∃ ts bytes, s.1.strings p = some ts ∧ ts.u = .data bytes
  owed : s.1.owed.Perm s.2.handed

section Run

variable {s s' : StringState} {B : StringBooks} {ms ms' : List ℕ} {p q : ℕ} {ts ts' : TString} {str : Bytes}
  {x : Option ℕ} {bs : List ExtBuffer} {op : StringOp}

/-! ### The collector -/

theorem fillbuffer_spec (h : StringsOk s ms) (hts : s.strings p = some ts) (hp : p ∉ ms) {old : Bytes}
    (hu : ts.u = .data old) {bytes : Bytes} (hlen : bytes.length = ts.len) :
    ∃ s', fillbuffer p bytes s = .ok ⟨⟩ s' ∧ Interns s s' ms ms (some p) [] ∧
      s'.strings p = some { ts with u := .data bytes } := by
  have hpo : p ∈ s.objects := (h.alloc p).mp (by rw [hts]; exact Option.some_ne_none ts)
  have hobj : ∀ q, q ∈ s.objects ↔ q = p ∨ q ∈ s.objects := fun q =>
    (or_iff_right_of_imp (fun he : q = p => he ▸ hpo)).symm
  refine ⟨s.setString p { ts with u := .data bytes }, ?_, ⟨?_, fun _ hq => hq, fun _ hq => Or.inl hq,
    fun q hq => ?_, ?_⟩, update_self p _ _⟩
  · unfold fillbuffer
    simp only [run_bind, getstring_run hts, setstring_run]
  · exact h.setLoose hp rfl hobj h.objects rfl rfl rfl (h.loose p ts hts hp) hlen.symm
  · have hqp : q ≠ p := fun he => hq (by rw [he])
    show Option.map _ (update s.strings p _ q) = _
    rw [update_of_ne hqp]
  · have hreturns : (s.setString p { ts with u := .data bytes }).returns = s.returns := by
      funext q
      by_cases he : q = p
      · subst he
        rw [returns_of (update_self q _ _), returns_of hts]
        unfold TString.returns
        rw [hu]
      · exact returns_update rfl he
    unfold StringState.owed StringState.held
    rw [hreturns]
    exact List.Perm.refl _

theorem luaS_fix_spec (h : StringsOk s ms) (hp : p ∈ s.objects) :
    ∃ s', luaS_fix p s = .ok ⟨⟩ s' ∧ Interns s s' ms ms none [] := by
  obtain ⟨ts, hts⟩ := Option.ne_none_iff_exists'.mp ((h.alloc p).mpr hp)
  refine ⟨s.setString p { ts with fixed := true }, ?_,
    Interns.of_same (sameBodies_setString hts rfl) (h.setcolor hts rfl rfl)⟩
  unfold luaS_fix
  simp only [run_bind, getstring_run hts, setstring_run]

theorem flipwhite_spec (h : StringsOk s ms) (live : ℕ → Bool) :
    ∃ s', flipwhite live s = .ok ⟨⟩ s' ∧ Interns s s' ms ms none [] := by
  set s' : StringState := { s with
    strings := fun p => (s.strings p).map fun ts => { ts with otherwhite := !live p } } with hs'
  have hsame : SameBodies s s' := by
    refine ⟨rfl, rfl, fun q => ?_⟩
    show Option.map _ (Option.map _ (s.strings q)) = _
    rw [Option.map_map]
    rfl
  refine ⟨s', rfl, Interns.of_same hsame (h.recolor hsame rfl rfl rfl fun q => ?_)⟩
  show Option.bind (Option.map _ (s.strings q)) _ = _
  unfold StringState.next
  cases s.strings q <;> rfl

theorem strresize_spec (h : StringsOk s ms) (k : ℕ) :
    ∃ s', luaS_resize true (2 ^ k) s = .ok ⟨⟩ s' ∧ Interns s s' ms ms none [] := by
  obtain ⟨s', hrun, hok, hre⟩ := luaS_resize_spec h k
  exact ⟨s', hrun, Interns.of_same hre.same hok⟩

/-- A power of two that is halved. -/
theorem two_pow_half {k : ℕ} (h : LUA_MINSTRTABSIZE * 2 < 2 ^ k) : ∃ j, 2 ^ k / 2 = 2 ^ j := by
  cases k with
  | zero => exact absurd h (by decide)
  | succ k => exact ⟨k, by rw [Nat.pow_succ, Nat.mul_div_cancel _ Nat.two_pos]⟩

theorem shrinkbuffers_spec (h : StringsOk s ms) (room : Bool) :
    ∃ s', shrinkbuffers room s = .ok ⟨⟩ s' ∧ Interns s s' ms ms none [] := by
  have hsame : Interns s s ms ms none [] := Interns.of_same (SameBodies.refl s) h
  unfold shrinkbuffers
  simp only [run_bind, run_get]
  rw [run_ite]
  split
  · next hsmall =>
    obtain ⟨k, hk⟩ := h.pow
    obtain ⟨j, hj⟩ := two_pow_half (hk ▸ hsmall.2)
    cases room with
    | false => exact ⟨s, rfl, hsame⟩
    | true =>
      rw [hk, hj]
      exact strresize_spec h j
  · exact ⟨s, rfl, hsame⟩

theorem fullsize_pow (nuse fuel k : ℕ) : ∃ j, fullsize nuse fuel (2 ^ k) = 2 ^ j := by
  induction fuel generalizing k with
  | zero => exact ⟨k, rfl⟩
  | succ fuel ih =>
    unfold fullsize
    split
    · next hsmall =>
      obtain ⟨j, hj⟩ := two_pow_half hsmall.2
      rw [hj]
      exact ih j
    · exact ⟨k, rfl⟩

theorem shrinkbuffersfull_spec (h : StringsOk s ms) (room : Bool) :
    ∃ s', shrinkbuffersfull room s = .ok ⟨⟩ s' ∧ Interns s s' ms ms none [] := by
  have hsame : Interns s s ms ms none [] := Interns.of_same (SameBodies.refl s) h
  obtain ⟨k, hk⟩ := h.pow
  obtain ⟨j, hj⟩ := fullsize_pow s.nuse.toNat s.size k
  rw [← hk] at hj
  unfold shrinkbuffersfull
  simp only [run_bind, run_get, hj]
  rw [run_ite]
  split
  · cases room with
    | false => exact ⟨s, rfl, hsame⟩
    | true => exact strresize_spec h j
  · exact ⟨s, rfl, hsame⟩

/-! ### One operation -/

/-- Buffers other than the string that the call may add stay as they are. -/
theorem Interns.buffers (hi : Interns s s' ms ms' x bs)
    (hp : p ∉ ms ∧ ∃ ts bytes, s.strings p = some ts ∧ ts.u = .data bytes) (hx : x ≠ some p) :
    p ∉ ms' ∧ ∃ ts bytes, s'.strings p = some ts ∧ ts.u = .data bytes := by
  obtain ⟨hpm, ts, bytes, hts, hu⟩ := hp
  refine ⟨fun hm => (hi.members p hm).elim hpm hx, ?_⟩
  have hb := hi.bodies p hx
  rw [hts, Option.map_some] at hb
  obtain ⟨ts', hts', he⟩ := Option.map_eq_some_iff.mp hb
  exact ⟨ts', bytes, hts', (body_fields he).2.2.trans hu⟩

/-- A block that is not in use is no buffer. -/
theorem StringsBooked.fresh (h : StringsBooked (s, B) ms) (hx : ∀ p, x = some p → p ∉ s.objects) :
    ∀ p ∈ B.buffers, x ≠ some p := by
  intro p hp he
  obtain ⟨_, ts, _, hts, _⟩ := h.buffers p hp
  exact hx p he ((h.strings.alloc p).mp (by
    rw [hts]
    exact Option.some_ne_none ts))

/-- An interning call that leaves the buffers alone. -/
theorem StringsBooked.interns (h : StringsBooked (s, B) ms) (hi : Interns s s' ms ms' x bs)
    (hx : ∀ p ∈ B.buffers, x ≠ some p) :
    StringsBooked (s', { B with handed := bs ++ B.handed }) ms' :=
  ⟨hi.ok, fun p hp => hi.buffers (h.buffers p hp) (hx p hp), hi.owed.trans (h.owed.append_left bs)⟩

/-- An interning call on a buffer, which is then a buffer no longer. -/
theorem StringsBooked.finish (h : StringsBooked (s, B) ms) (hi : Interns s s' ms ms' (some p) []) :
    StringsBooked (s', { B with buffers := B.buffers.filter (· ≠ p) }) ms' where
  strings := hi.ok
  buffers := by
    intro q hq
    obtain ⟨hqb, hqp⟩ := List.mem_filter.mp hq
    refine hi.buffers (h.buffers q hqb) (fun he => ?_)
    rw [Option.some.inj he] at hqp
    exact of_decide_eq_true hqp rfl
  owed := hi.owed.trans h.owed

/-- How a step of a run goes. -/
theorem step_of_ok {a : Option ℕ} (h : op.exec s = .ok a s') : op.step (s, B) = some (s', op.after B a) := by
  unfold StringOp.step
  rw [h]

theorem step_of_error {e : StringError} (he : e ≠ .fault) (h : op.exec s = .error e s') :
    op.step (s, B) = some (s', op.after B none) := by
  unfold StringOp.step
  rw [h]
  cases e with
  | fault => exact absurd rfl he
  | errmem => rfl
  | toobig msg max => rfl

/-- The step of an interning call, whichever way it ends. -/
theorem step_of_ends {c : StringM ℕ} (hexec : op.exec = some <$> c) (hends : Ends (c s) s' ms' str) :
    ∃ a, op.step (s, B) = some (s', op.after B a) := by
  have hrun : op.exec s = (some <$> c) s := by rw [hexec]
  rw [run_map] at hrun
  cases hends with
  | inl hok =>
    obtain ⟨p, hp, _⟩ := hok
    rw [hp] at hrun
    exact ⟨some p, step_of_ok hrun⟩
  | inr herr =>
    obtain ⟨e, he, hp⟩ := herr
    rw [hp] at hrun
    exact ⟨none, step_of_error he hrun⟩

/-- The step of an operation that answers nothing. -/
theorem step_of_unit {c : StringM Unit} (hexec : op.exec = (fun _ => none) <$> c)
    (hrun : c s = .ok ⟨⟩ s') : op.step (s, B) = some (s', op.after B none) := by
  apply step_of_ok
  rw [hexec, run_map, hrun]

/-- **Every operation** that is allowed goes through and keeps the table in order. -/
theorem stringstep_spec (h : StringsBooked (s, B) ms) (hall : op.Allowed s B) :
    ∃ s' ms', op.step (s, B) = some s' ∧ StringsBooked s' ms' := by
  -- the operations that leave the books as they are
  have hquiet : ∀ {c : StringM Unit}, op.exec = (fun _ => none) <$> c → op.after B none = B →
      (∃ s', c s = .ok ⟨⟩ s' ∧ Interns s s' ms ms none []) →
      ∃ s' ms', op.step (s, B) = some s' ∧ StringsBooked s' ms' := by
    intro c hexec hafter ⟨s', hrun, hi⟩
    refine ⟨_, ms, step_of_unit hexec hrun, ?_⟩
    rw [hafter]
    exact h.interns hi (fun p _ => (Option.some_ne_none p).symm)
  cases op with
  | newlstr fresh room str =>
    obtain ⟨s', ms', hends, hi⟩ := luaS_newlstr_spec h.strings hall room str
    obtain ⟨a, hstep⟩ := @step_of_ends _ _ B _ _ (.newlstr fresh room str) _ rfl hends
    exact ⟨_, ms', hstep, h.interns hi (h.fresh hall)⟩
  | bufstart fresh garbage =>
    obtain ⟨s', hi, hends⟩ := luaS_bufstart_spec h.strings hall garbage
    have hbook := h.interns hi (h.fresh hall)
    cases hends with
    | inl hok =>
      obtain ⟨p, ts, hp, hrun, hts, hu⟩ := hok
      have hexec : (StringOp.bufstart fresh garbage).exec s = .ok (some p) s' := by
        show (some <$> luaS_bufstart fresh garbage) s = _
        rw [run_map, hrun]
      refine ⟨_, ms, step_of_ok hexec, hbook.strings, fun q hq => ?_, hbook.owed⟩
      cases List.mem_cons.mp hq with
      | inl he =>
        rw [he]
        exact ⟨h.strings.loose_of_fresh (hall p hp), ts, garbage, hts, hu⟩
      | inr hq => exact hbook.buffers q hq
    | inr herr =>
      obtain ⟨e, he, hrun⟩ := herr
      have hexec : (StringOp.bufstart fresh garbage).exec s = .error e s' := by
        show (some <$> luaS_bufstart fresh garbage) s = _
        rw [run_map, hrun]
      exact ⟨_, ms, step_of_error he hexec, hbook⟩
  | fillbuffer p bytes =>
    obtain ⟨hp, hlen⟩ := hall
    obtain ⟨hpm, ts, old, hts, hu⟩ := h.buffers p hp
    obtain ⟨s', hrun, hi, hfilled⟩ := fillbuffer_spec h.strings hts hpm hu (hlen ts hts)
    refine ⟨_, ms, step_of_unit rfl hrun, hi.ok, fun q hq => ?_, hi.owed.trans h.owed⟩
    by_cases he : q = p
    · rw [he]
      exact ⟨hpm, _, bytes, hfilled, rfl⟩
    · exact hi.buffers (h.buffers q hq) (fun hpq => he (Option.some.inj hpq).symm)
  | buffinish room p =>
    obtain ⟨hp, halive⟩ := hall
    obtain ⟨hpm, ts, _, hts, _⟩ := h.buffers p hp
    obtain ⟨s', ms', hends, hi⟩ := luaS_buffinish_spec h.strings hts hpm (halive ts hts) room
    obtain ⟨a, hstep⟩ := @step_of_ends _ _ B _ _ (.buffinish room p) _ rfl hends
    exact ⟨_, ms', hstep, h.finish hi⟩
  | newexternallstr fresh room b =>
    obtain ⟨s', ms', hends, hi⟩ := luaS_newexternallstr_spec h.strings hall room b
    obtain ⟨a, hstep⟩ := @step_of_ends _ _ B _ _ (.newexternallstr fresh room b) _ rfl hends
    exact ⟨_, ms', hstep, h.interns hi (h.fresh hall)⟩
  | free p =>
    obtain ⟨s', hrun, hok, _, hbodies, howed⟩ := luaS_free_spec h.strings hall
    refine ⟨_, _, step_of_unit rfl hrun, hok, fun q hq => ?_, howed.trans h.owed⟩
    obtain ⟨hqb, hqp⟩ := List.mem_filter.mp hq
    have hne : q ≠ p := of_decide_eq_true hqp
    obtain ⟨hqm, ts, bytes, hts, hu⟩ := h.buffers q hqb
    have hb := hbodies q hne
    rw [show s.strings q = some ts from hts, Option.map_some] at hb
    obtain ⟨ts', hts', he⟩ := Option.map_eq_some_iff.mp hb
    exact ⟨fun hm => hqm (List.mem_of_mem_erase hm), ts', bytes, hts', (body_fields he).2.2.trans hu⟩
  | fix p => exact hquiet rfl rfl (luaS_fix_spec h.strings hall)
  | flipwhite live => exact hquiet rfl rfl (flipwhite_spec h.strings live)
  | resize room newsize =>
    obtain ⟨k, rfl⟩ := hall
    cases room with
    | true => exact hquiet rfl rfl (strresize_spec h.strings k)
    | false =>
      have hexec : (StringOp.resize false (2 ^ k)).exec s = .error .errmem s := rfl
      exact ⟨_, ms, step_of_error StringError.noConfusion hexec, h⟩
  | shrinkbuffers room => exact hquiet rfl rfl (shrinkbuffers_spec h.strings room)
  | shrinkbuffersfull room => exact hquiet rfl rfl (shrinkbuffersfull_spec h.strings room)

/-! ### Runs -/

theorem stringrun_spec {ops : List StringOp} {s : StringState × StringBooks} (h : StringsBooked s ms)
    (hperm : StringOp.Permitted ops s) :
    ∃ s' ms', StringOp.run ops s = some s' ∧ StringsBooked s' ms' := by
  induction ops generalizing s ms with
  | nil => exact ⟨s, ms, rfl, h⟩
  | cons op ops ih =>
    obtain ⟨s₁, ms₁, hstep, h₁⟩ := stringstep_spec h hperm.1
    obtain ⟨s', ms', hrun, h'⟩ := ih h₁ (hperm.2 s₁ hstep)
    refine ⟨s', ms', ?_, h'⟩
    unfold StringOp.run
    rw [hstep]
    exact hrun

theorem openstrt_ok : StringsBooked (openstrt, .empty) [] where
  strings := {
    pow := ⟨5, rfl⟩
    nodup := List.nodup_nil
    nuse := rfl
    chains := bucketed_nil fun _ _ => rfl
    interned := fun p hp => absurd hp List.not_mem_nil
    unique := fun p _ hp => absurd hp List.not_mem_nil
    lens := fun p ts hp => (by cases hp)
    loose := fun p ts hp => (by cases hp)
    alloc := fun p => iff_of_false (fun hn => hn rfl) List.not_mem_nil
    objects := List.nodup_nil }
  buffers := fun p hp => absurd hp List.not_mem_nil
  owed := List.Perm.refl _

/-- The string of some bytes is found. -/
theorem luaS_newlstr_found (h : StringsOk s ms) (hp : p ∈ ms) (hb : s.bytes p = some str)
    (fresh : Option ℕ) (room : Bool) :
    ∃ s', luaS_newlstr fresh room str s = .ok p s' ∧ Interned s' ms str p := by
  obtain ⟨r, hrun, hsome, hnone⟩ := h.find str
  cases r with
  | none => exact absurd hb (hnone rfl p hp)
  | some el =>
    obtain ⟨hel, hbel⟩ := hsome el rfl
    obtain rfl : el = p := h.unique el p hel hp (hbel.trans hb.symm)
    obtain ⟨s', hkeep, _, hfound⟩ := keepalive_spec (x := fresh) h hel hbel
    refine ⟨s', ?_, hfound⟩
    unfold luaS_newlstr
    simp only [run_bind, run_get, strfuel_run, hrun, hkeep, run_pure]

/-- **The string table.**  Every permitted run goes through.  In the state it reaches the chained strings
`ms` are in order, the string of some bytes is found, also when it was dead, and the buffers whose callback
ran and those that strings hold are together the buffers that were handed over; when all strings are freed
every callback has run once. -/
theorem strings_interned (ops : List StringOp)
    (hperm : StringOp.Permitted ops (openstrt, .empty)) :
    ∃ s ms, StringOp.run ops (openstrt, .empty) = some s ∧ StringsOk s.1 ms ∧
      (∀ p ∈ ms, ∀ str fresh room, s.1.bytes p = some str →
        ∃ s', luaS_newlstr fresh room str s.1 = .ok p s' ∧ Interned s' ms str p) ∧
      (s.1.freed ++ s.1.held).Perm s.2.handed ∧
      ∃ s', freeall s.1 = .ok ⟨⟩ s' ∧ s'.freed.Perm s.2.handed := by
  obtain ⟨s, ms, hrun, h⟩ := stringrun_spec openstrt_ok hperm
  obtain ⟨s', hfree, hfreed, _⟩ := freeall_spec h.strings
  exact ⟨s, ms, hrun, h.strings, fun p hp str fresh room hb => luaS_newlstr_found h.strings hp hb fresh room,
    h.owed, s', hfree, hfreed.trans h.owed⟩

/-! ### Two runs -/

/-- One byte in two buffers of the host. -/
def twobuffers : List StringOp :=
  [.newexternallstr (some 8) true ⟨100, [97], 0, some 1⟩,
    .newexternallstr (some 9) true ⟨200, [97], 0, some 1⟩]

/-- The second buffer goes back at once. -/
theorem strings_interned_sample :
    ∃ s ms, StringOp.run twobuffers (openstrt, .empty) = some s ∧ StringsOk s.1 ms ∧
      (∀ p ∈ ms, ∀ str fresh room, s.1.bytes p = some str →
        ∃ s', luaS_newlstr fresh room str s.1 = .ok p s' ∧ Interned s' ms str p) ∧
      (s.1.freed ++ s.1.held).Perm s.2.handed ∧
      ∃ s', freeall s.1 = .ok ⟨⟩ s' ∧ s'.freed.Perm s.2.handed := by
  apply strings_interned twobuffers
  refine ⟨fun p _ => List.not_mem_nil, fun s₁ h₁ => ⟨fun p hp => ?_, fun _ _ => trivial⟩⟩
  have hobjects : ((StringOp.newexternallstr (some 8) true ⟨100, [97], 0, some 1⟩).step
      (openstrt, .empty)).map (fun s => s.1.objects) = some [8] := by decide +kernel
  rw [h₁] at hobjects
  rw [show s₁.1.objects = [8] from Option.some.inj hobjects, ← Option.some.inj hp]
  decide

/-- Different bytes for every number of 32 bits. -/
def fourbytes (i : ℕ) : Bytes := [i, i / 2 ^ 8, i / 2 ^ 16, i / 2 ^ 24].map UInt8.ofNat

theorem fourbytes_inj {i j : ℕ} (hi : i < 2 ^ 32) (hj : j < 2 ^ 32) (h : fourbytes i = fourbytes j) :
    i = j := by
  have hmod : ∀ {a b : ℕ}, UInt8.ofNat a = UInt8.ofNat b → a % 2 ^ 8 = b % 2 ^ 8 := fun hab => by
    simpa using congrArg UInt8.toNat hab
  unfold fourbytes at h
  simp only [List.map_cons, List.map_nil, List.cons.injEq, and_true] at h
  obtain ⟨h0, h1, h2, h3⟩ := h
  have h0 := hmod h0
  have h1 := hmod h1
  have h2 := hmod h2
  have h3 := hmod h3
  omega

/-- The strings of the numbers from `i` on. -/
def numberstrings : ℕ → ℕ → List StringOp
  | _, 0 => []
  | i, n + 1 => .newlstr (some i) true (fourbytes i) :: numberstrings (i + 1) n

/-- The members are the strings of the numbers below `i`. -/
structure Numbered (s : StringState × StringBooks) (ms : List ℕ) (i : ℕ) : Prop where
  booked : StringsBooked s ms
  below : ∀ p ∈ s.1.objects, p < i
  bytes : ∀ p ∈ ms, ∃ j < i, s.1.bytes p = some (fourbytes j)
  count : ms.length = i

theorem luaS_newlstr_adds (h : StringsOk s ms) (hp : p ∉ s.objects) (hnew : ∀ q ∈ ms, s.bytes q ≠ some str)
    (hlen : str.length ≤ MAXSSIZE) :
    ∃ s', luaS_newlstr (some p) true str s = .ok p s' ∧ Interned s' (p :: ms) str p ∧
      Interns s s' ms (p :: ms) (some p) [] := by
  obtain ⟨s', hends, hroom, hi⟩ := @make_spec _ _ _ ⟨none, luaS_hash str, str.length, .data str, false, false⟩
    h hp rfl rfl rfl hnew rfl true
  obtain ⟨r, hrun, hsome, hnone⟩ := h.find str
  have hr : r = none := by
    cases r with
    | none => rfl
    | some el => exact absurd (hsome el rfl).2 (hnew el (hsome el rfl).1)
  refine ⟨s', ?_, ?_, hi⟩
  · unfold luaS_newlstr
    simp only [run_bind, run_get, strfuel_run, hrun, hr]
    unfold newlstr
    rw [run_ite, if_neg (Nat.not_lt.mpr hlen)]
    exact hroom rfl
  · cases hends with
    | inl hok =>
      obtain ⟨q, hq, hint⟩ := hok
      rw [hroom rfl] at hq
      rw [← (EStateM.Result.ok.inj hq).1] at hint
      exact hint
    | inr herr =>
      obtain ⟨e, _, he⟩ := herr
      rw [hroom rfl] at he
      cases he

theorem numbered_step {i : ℕ} (h : Numbered (s, B) ms i) (hi : i < 2 ^ 32) :
    (StringOp.newlstr (some i) true (fourbytes i)).Allowed s B ∧
      ∃ s', (StringOp.newlstr (some i) true (fourbytes i)).step (s, B) = some (s', B) ∧
        Numbered (s', B) (i :: ms) (i + 1) := by
  have hfresh : i ∉ s.objects := fun hm => Nat.lt_irrefl i (h.below i hm)
  have hnew : ∀ q ∈ ms, s.bytes q ≠ some (fourbytes i) := by
    intro q hq hb
    obtain ⟨j, hj, hbj⟩ := h.bytes q hq
    have he := fourbytes_inj (hj.trans hi) hi (Option.some.inj (hbj.symm.trans hb))
    exact Nat.ne_of_lt hj he
  have hall : ∀ p, some i = some p → p ∉ s.objects := fun p hp => Option.some.inj hp ▸ hfresh
  obtain ⟨s', hrun, hint, his⟩ := luaS_newlstr_adds h.booked.strings hfresh hnew
    (show 4 ≤ MAXSSIZE by decide)
  have hother : ∀ q, q ≠ i → (s'.strings q).map TString.body = (s.strings q).map TString.body := fun q hq =>
    his.bodies q (fun he => hq (Option.some.inj he).symm)
  refine ⟨hall, s', ?_, ?_, fun q hq => ?_, fun q hq => ?_, ?_⟩
  · apply step_of_ok (a := some i)
    show (some <$> luaS_newlstr _ _ _) s = _
    rw [run_map, hrun]
  · exact h.booked.interns his (h.booked.fresh hall)
  · by_cases he : q = i
    · omega
    · have hq' : s'.strings q ≠ none := (his.ok.alloc q).mpr hq
      have hqs : q ∈ s.objects := by
        apply (h.booked.strings.alloc q).mp
        intro hn
        have hb := hother q he
        rw [show s.strings q = none from hn, Option.map_none] at hb
        exact hq' (Option.map_eq_none_iff.mp hb)
      exact Nat.lt_succ_of_lt (h.below q hqs)
  · by_cases he : q = i
    · exact ⟨i, Nat.lt_succ_self i, by rw [he]; exact hint.bytes⟩
    · obtain ⟨j, hj, hb⟩ := h.bytes q ((List.mem_cons.mp hq).resolve_left he)
      refine ⟨j, Nat.lt_succ_of_lt hj, ?_⟩
      have hm : ∀ r : Option TString, r.map TString.getstr = (r.map TString.body).map TString.getstr := by
        intro r
        rw [Option.map_map]
        rfl
      show (s'.strings q).map TString.getstr = _
      rw [hm, hother q he, ← hm]
      exact hb
  · rw [List.length_cons, h.count]

theorem numbered_run {n i : ℕ} (h : Numbered (s, B) ms i) (hn : i + n ≤ 2 ^ 32) :
    StringOp.Permitted (numberstrings i n) (s, B) ∧
      ∃ s' ms', StringOp.run (numberstrings i n) (s, B) = some (s', B) ∧ Numbered (s', B) ms' (i + n) := by
  induction n generalizing s ms i with
  | zero => exact ⟨trivial, s, ms, rfl, h⟩
  | succ n ih =>
    obtain ⟨hall, s₁, hstep, h₁⟩ := numbered_step h (by omega)
    obtain ⟨hperm, s', ms', hrun, h'⟩ := ih h₁ (by omega)
    refine ⟨⟨hall, fun s₂ h₂ => ?_⟩, s', ms', ?_, ?_⟩
    · rw [hstep] at h₂
      rw [← Option.some.inj h₂]
      exact hperm
    · unfold numberstrings StringOp.run
      rw [hstep]
      exact hrun
    · rw [show i + (n + 1) = i + 1 + n by omega]
      exact h'

/-- The counter of the table has 32 bits: with that many strings it is zero again. -/
theorem nuse_wraps :
    StringOp.Permitted (numberstrings 0 (2 ^ 32)) (openstrt, .empty) ∧
      ∃ s ms, StringOp.run (numberstrings 0 (2 ^ 32)) (openstrt, .empty) = some s ∧ StringsOk s.1 ms ∧
        s.1.nuse.toNat ≠ ms.length := by
  have hzero : Numbered (openstrt, .empty) [] 0 :=
    ⟨openstrt_ok, fun p hp => absurd hp List.not_mem_nil, fun p hp => absurd hp List.not_mem_nil, rfl⟩
  obtain ⟨hperm, s, ms, hrun, h⟩ := numbered_run (n := 2 ^ 32) hzero (Nat.le_of_eq (Nat.zero_add _))
  refine ⟨hperm, _, ms, hrun, h.booked.strings, ?_⟩
  have hnuse : s.nuse = BitVec.ofNat 32 ms.length := h.booked.strings.nuse
  show s.nuse.toNat ≠ _
  rw [hnuse, h.count, Nat.zero_add, BitVec.toNat_ofNat, Nat.mod_self]
  exact (Nat.two_pow_pos 32).ne

end Run

end Luwu
