import Luwu.TabLib.Core

/-!
# Elements move as if all at once

A cell is a table with a key.  `Agrees` relates a heap of tables to the contents of its cells; each turn of a loop of
`moveelements` copies one cell (`copyslot_ends`, `copyelement_ends`), and the direction of the loop makes the copies
ordered (`ordered_upward`, `ordered_downward`).  So either loop has the effect of `Moved`.
-/

namespace Luwu.TabLib

open Checked Copies

/-- The contents of a heap: a value for each table and key -/
abbrev Cells := GCPtr × TValue → TValue

/-- Every table is well-formed and denotes its part of the contents. -/
def Agrees (E : Env) (h : Tables) (g : Cells) : Prop := ∀ p, Simulates ⟨E, h p, fun k => g (p, k)⟩

/-- The cell of a table with an integer key -/
def cell (p : GCPtr) (i : ℤ) : GCPtr × TValue := (p, .number (cast_num i))

def holdsAt (p : GCPtr) (i : ℤ) (l : GCPtr × TValue) : Prop :=
  l.1 = p ∧ luaO_rawequalObj (.number (cast_num i)) l.2 = true

instance (p : GCPtr) (i : ℤ) (l : GCPtr × TValue) : Decidable (holdsAt p i l) := by
  unfold holdsAt
  infer_instance

def Cells.assign (g : Cells) (p : GCPtr) (i : ℤ) (v : TValue) : Cells := fun l => if holdsAt p i l then v else g l

/-- The call succeeds as `Q` says; or the table is read-only or cannot grow any more, and the tables stay intact. -/
def Ends {α : Type} (E : Env) (r : EStateM.Result LibError Tables α) (Q : α → Tables → Prop) : Prop :=
  (∃ a h', r = .ok a h' ∧ Q a h') ∨
    ∃ e h', r = .error e h' ∧ (e = .readonly ∨ e = .table (.runerror "table overflow")) ∧ ∃ g, Agrees E h' g

section Ends

variable {α β : Type} {E : Env} {h : Tables} {x : LibM α} {f : α → LibM β} {Q : α → Tables → Prop}
  {R : β → Tables → Prop}

theorem ends_pure {a : α} (hq : Q a h) : Ends E ((pure a : LibM α) h) Q := Or.inl ⟨a, h, rfl, hq⟩

theorem Ends.bind (hx : Ends E (x h) Q) (hf : ∀ a h', Q a h' → Ends E (f a h') R) : Ends E ((x >>= f) h) R := by
  rcases hx with ⟨a, h', hrun, hq⟩ | ⟨e, h', hrun, he⟩
  · have hbind : (x >>= f) h = f a h' := by
      show EStateM.bind x f h = _
      unfold EStateM.bind
      rw [hrun]
    rw [hbind]
    exact hf a h' hq
  · refine Or.inr ⟨e, h', ?_, he⟩
    show EStateM.bind x f h = _
    unfold EStateM.bind
    rw [hrun]

theorem Ends.mono {Q' : α → Tables → Prop} {r : EStateM.Result LibError Tables α} (hx : Ends E r Q)
    (hQ : ∀ a h', Q a h' → Q' a h') : Ends E r Q' := by
  rcases hx with ⟨a, h', hrun, hq⟩ | herr
  · exact Or.inl ⟨a, h', hrun, hQ a h' hq⟩
  · exact Or.inr herr

theorem ends_get_bind {f : Tables → LibM β} (hf : Ends E (f h h) R) : Ends E ((get >>= f) h) R := hf

theorem ends_checked_bind {a : α} {y : Except Fault α} (hy : y = .ok a) (hf : Ends E (f a h) R) :
    Ends E ((checked y >>= f) h) R := by
  rw [hy]
  exact hf

/-- The check that a table may be written -/
theorem ends_readonly {b : Bool} {f : PUnit → LibM β} {g : Cells} (hA : Agrees E h g)
    (hf : b = false → Ends E (f ⟨⟩ h) R) :
    Ends E ((if b = true then (throw .readonly : LibM PUnit) >>= f else f ⟨⟩) h) R := by
  cases b with
  | true => exact Or.inr ⟨.readonly, h, rfl, Or.inl rfl, g, hA⟩
  | false => exact hf rfl

end Ends

section Cells

variable {E : Env} {h : Tables} {g : Cells} {c : Call} {p src dst : GCPtr} {i j n : ℤ} {v : TValue}

theorem fits_int (h1 : -2147483648 ≤ i) (h2 : i ≤ INT_MAX) : Fits 32 i := by
  unfold INT_MAX at h2
  constructor
  · norm_num
    exact h1
  · norm_num
    omega

theorem rawequal_cast_num_iff (hi : Fits 32 i) (hj : Fits 32 j) :
    luaO_rawequalObj (.number (cast_num i)) (.number (cast_num j)) = true ↔ i = j := by
  constructor
  · intro heq
    have hnum : isNumberEq (.number (cast_num i)) j = true := by
      rw [isNumberEq_congr heq]
      exact isNumberEq_cast_num hj
    exact isNumberEq_inj hi hj (isNumberEq_cast_num hi) hnum
  · rintro rfl
    exact rawequal_of_isNumberEq (isNumberEq_cast_num hi) (isNumberEq_cast_num hi)

theorem holdsAt_cell_iff (hi : Fits 32 i) (hj : Fits 32 j) : holdsAt dst i (cell src j) ↔ src = dst ∧ i = j :=
  and_congr_right fun _ => rawequal_cast_num_iff hi hj

theorem holdsAt_iff (hi : Fits 32 i) {k : TValue} : holdsAt dst i (p, k) ↔ p = dst ∧ isNumberEq k i = true := by
  refine and_congr_right fun _ => ?_
  constructor
  · intro heq
    rw [← isNumberEq_congr heq]
    exact isNumberEq_cast_num hi
  · exact rawequal_of_isNumberEq (isNumberEq_cast_num hi)

/-- One table of the heap changes. -/
theorem Agrees.update (hA : Agrees E h g) {t' : LuaTable} {g' : Cells} (ht : Simulates ⟨E, t', fun k => g' (p, k)⟩)
    (hg : ∀ q k, q ≠ p → g' (q, k) = g (q, k)) : Agrees E (Function.update h p t') g' := by
  intro q
  by_cases hq : q = p
  · rw [hq, Function.update_self]
    exact ht
  · rw [Function.update_of_ne hq]
    have hsame : (fun k => g' (q, k)) = fun k => g (q, k) := funext fun k => hg q k hq
    rw [hsame]
    exact hA q

theorem Agrees.assign (hA : Agrees E h g) {t' : LuaTable}
    (ht : Simulates ⟨E, t', KeyMap.assign (fun k => g (p, k)) (.number (cast_num i)) v⟩) :
    Agrees E (Function.update h p t') (g.assign p i v) := by
  apply hA.update
  · have hsame : (fun k => g.assign p i v (p, k)) = KeyMap.assign (fun k => g (p, k)) (.number (cast_num i)) v := by
      funext k
      unfold Cells.assign KeyMap.assign holdsAt
      exact if_congr (and_iff_right rfl) rfl rfl
    rw [hsame]
    exact ht
  · intro q k hq
    exact if_neg fun hat => hq hat.1

/-- A table may be replaced by one with the same entries. -/
theorem Agrees.same (hA : Agrees E h g) {t' : LuaTable} (ht : SameMap E (h p) t') :
    Agrees E (Function.update h p t') g :=
  hA.update (ht.simulates (hA p)) fun _ _ _ => rfl

/-! ### The API functions -/

theorem onTable_ok {α : Type} {x : TableM α} {a : α} {t' : LuaTable} (hx : x (h p) = .ok a t') :
    onTable p x h = .ok a (Function.update h p t') := by
  unfold onTable
  rw [hx]

theorem onTable_error {α : Type} {x : TableM α} {e : TableError} {t' : LuaTable} (hx : x (h p) = .error e t') :
    onTable p x h = .error (.table e) (Function.update h p t') := by
  unfold onTable
  rw [hx]

theorem lua_rawgeti_run (hA : Agrees E h g) (c : Call) (idx : ℕ) (hn : Fits 32 n) :
    lua_rawgeti c idx n h = .ok (g (cell (c.base idx) n)) h := by
  have hvalid : (TValue.number (cast_num n)).ValidKey := validKey_of_isNumberEq (isNumberEq_cast_num hn)
  have hvalue : rawgeti (h (c.base idx)) n = g (cell (c.base idx) n) :=
    (rawgeti_eq_lookup hn).trans ((hA (c.base idx)).lookup _ hvalid)
  show EStateM.Result.ok (rawgeti (h (c.base idx)) n) h = _
  rw [hvalue]

theorem lua_rawseti_ends (ha : c.env.Roomy) (hA : Agrees c.env h g) (idx : ℕ) (hn : Fits 32 n) (v : TValue) :
    Ends c.env (lua_rawseti c idx n v h) fun _ h' => Agrees c.env h' (g.assign (c.base idx) n v) := by
  unfold lua_rawseti
  apply ends_readonly hA
  intro _
  rcases exec_outcome ha (.setnum n v) hn (hA (c.base idx)) with ⟨t', hrun, ht⟩ | ⟨t', hrun, ht⟩
  · have hstore : storeThrough (luaH_setnum c.env n) v (h (c.base idx)) = .ok ⟨⟩ t' := hrun
    exact Or.inl ⟨⟨⟩, _, onTable_ok hstore, hA.assign ht⟩
  · have hstore : storeThrough (luaH_setnum c.env n) v (h (c.base idx))
        = .error (.runerror "table overflow") t' := hrun
    exact Or.inr ⟨_, _, onTable_error hstore, Or.inr rfl, g, hA.update ht fun _ _ _ => rfl⟩

/-! ### Keys inside the array part -/

theorem cast_unsigned_slot {tbl : LuaTable} (h1 : 1 ≤ i) (hi : i ≤ tbl.sizearray) (hmax : i ≤ INT_MAX) :
    cast_unsigned (i - 1) < tbl.sizearray := by
  unfold cast_unsigned
  unfold INT_MAX at hmax
  omega

theorem rawgeti_slot {tbl : LuaTable} (h1 : 1 ≤ i) (hi : i ≤ tbl.sizearray) (hmax : i ≤ INT_MAX) :
    rawgeti tbl i = tbl.arr (i - 1).toNat := by
  unfold rawgeti luaH_getnum
  rw [if_pos (cast_unsigned_slot h1 hi hmax)]
  rfl

theorem storeThrough_slot {tbl : LuaTable} (h1 : 1 ≤ i) (hi : i ≤ tbl.sizearray) (hmax : i ≤ INT_MAX) (v : TValue) :
    storeThrough (luaH_setnum E i) v tbl = .ok ⟨⟩ (tbl.slotSet v (.array (i - 1).toNat)) := by
  have hrun : luaH_setnum E i tbl = .ok (.array (i - 1).toNat) tbl := by
    unfold luaH_setnum
    show (if _ then _ else _ : TableM Slot) _ = _
    rw [if_pos (cast_unsigned_slot h1 hi hmax)]
    rfl
  unfold storeThrough
  rw [TableM.bind_ok _ hrun]
  rfl

/-- The array parts are so short that their positions are ints. -/
theorem Agrees.slot_le (hA : Agrees E h g) (p : GCPtr) (hi : i ≤ (h p).sizearray) : i ≤ 2 ^ 26 := by
  have hM : MAXSIZE = 2 ^ 26 := rfl
  have hmax := (hA p).wf.inv.sizeMax
  dsimp only at hmax
  omega

theorem Agrees.slot_fits (hA : Agrees E h g) (h1 : 1 ≤ i) (hi : i ≤ (h p).sizearray) : Fits 32 i := by
  have hle := hA.slot_le p hi
  exact ⟨by norm_num; omega, by norm_num; omega⟩

/-- Storing through a slot of the array part sets the cell of the key. -/
theorem Agrees.slotSet (hA : Agrees E h g) (h1 : 1 ≤ i) (hi : i ≤ (h p).sizearray) (v : TValue) :
    Agrees E (Function.update h p ((h p).slotSet v (.array (i - 1).toNat))) (g.assign p i v) := by
  have hfits := hA.slot_fits h1 hi
  have hvalid : (TValue.number (cast_num i)).ValidKey := validKey_of_isNumberEq (isNumberEq_cast_num hfits)
  have hplaced : Placed E (h p) (.number (cast_num i)) (.array (i - 1).toNat) (h p) := by
    refine ⟨SameMap.refl (hA p).wf, ?_⟩
    refine (arrayslot_eq_some_iff (hA p).wf.inv.sizeMax).mpr ⟨?_, by dsimp only; omega⟩
    rw [show (((i - 1).toNat : ℕ) : ℤ) + 1 = i from by omega]
    exact isNumberEq_cast_num hfits
  exact hA.assign (hplaced.simulates (hA p) hvalid)

/-- A write inside the array part succeeds. -/
theorem lua_rawseti_slot (hA : Agrees c.env h g) {idx : ℕ} (hwritable : c.readonly (c.base idx) = false) (h1 : 1 ≤ i)
    (hi : i ≤ (h (c.base idx)).sizearray) (v : TValue) :
    ∃ h', lua_rawseti c idx i v h = .ok ⟨⟩ h' ∧ (∀ p, (h' p).sizearray = (h p).sizearray) ∧
      Agrees c.env h' (g.assign (c.base idx) i v) := by
  have hle := hA.slot_le (c.base idx) hi
  refine ⟨_, ?_, fun p => ?_, hA.slotSet h1 hi v⟩
  · unfold lua_rawseti
    rw [hwritable]
    exact onTable_ok (storeThrough_slot h1 hi (by unfold INT_MAX; omega) v)
  · by_cases hp : p = c.base idx
    · rw [hp, Function.update_self]
      rfl
    · rw [Function.update_of_ne hp]

/-- The length is a border of the array part, and is only remembered. -/
theorem lua_objlen_run (hA : Agrees c.env h g) (idx : ℕ) :
    ∃ h', lua_objlen c idx h = .ok ((luaH_getn (h (c.base idx))).1 : ℤ) h' ∧ Agrees c.env h' g := by
  refine ⟨_, rfl, ?_⟩
  exact hA.same ((hA (c.base idx)).wf.cached (luaH_getn_spec (h (c.base idx))).2)

end Cells

/-! ### The loops -/

section Loops

variable {E : Env} {h : Tables} {g : Cells} {c : Call} {src dst : GCPtr} {f e t : ℤ} {i n : ℕ}

/-- The cell that turn `i` reads -/
def reads (src : GCPtr) (f : ℤ) (i : ℕ) : GCPtr × TValue := cell src (f + i)

/-- The cells that turn `i` writes -/
def writes (dst : GCPtr) (t : ℤ) (i : ℕ) (l : GCPtr × TValue) : Prop := holdsAt dst (t + i) l

instance (dst : GCPtr) (t : ℤ) (i : ℕ) (l : GCPtr × TValue) : Decidable (writes dst t i l) := by
  unfold writes
  infer_instance

theorem assign_eq_copy (g : Cells) (src dst : GCPtr) (f t : ℤ) (i : ℕ) :
    g.assign dst (t + i) (g (cell src (f + i))) = copy (reads src f) (writes dst t) g i := rfl

/-- The two ranges consist of ints. -/
structure Ranges (f t : ℤ) (n : ℕ) : Prop where
  source : ∀ i < n, Fits 32 (f + i)
  target : ∀ i < n, Fits 32 (t + i)

theorem Ranges.writes_reads_iff (hr : Ranges f t n) {j : ℕ} (hi : i < n) (hj : j < n) :
    writes dst t i (reads src f j) ↔ src = dst ∧ t + i = f + j :=
  holdsAt_cell_iff (hr.target i hi) (hr.source j hj)

theorem Ranges.not_writes_twice (hr : Ranges f t n) {j : ℕ} (hi : i < n) (hj : j < n) (hij : i ≠ j)
    {l : GCPtr × TValue} (hl : writes dst t i l) : ¬writes dst t j l := by
  intro hl'
  obtain ⟨q, k⟩ := l
  obtain ⟨_, hki⟩ := (holdsAt_iff (hr.target i hi)).mp hl
  obtain ⟨_, hkj⟩ := (holdsAt_iff (hr.target j hj)).mp hl'
  have := isNumberEq_inj (hr.target i hi) (hr.target j hj) hki hkj
  omega

/-- Upward is in order when the target is not above the source, or behind it, or elsewhere. -/
theorem ordered_upward (hr : Ranges f t n) (hdir : f + n ≤ t ∨ t ≤ f ∨ dst ≠ src) :
    Ordered (reads src f) (writes dst t) (List.range n) := by
  constructor
  · refine List.pairwise_lt_range.imp_of_mem ?_
    intro i j hi hj hij hw
    rw [List.mem_range] at hi hj
    obtain ⟨hsame, heq⟩ := (hr.writes_reads_iff hi hj).mp hw
    rcases hdir with h1 | h1 | h1
    · omega
    · omega
    · exact h1 hsame.symm
  · refine List.pairwise_lt_range.imp_of_mem ?_
    intro i j hi hj hij l hl
    rw [List.mem_range] at hi hj
    exact hr.not_writes_twice hi hj hij.ne hl

/-- Downward is in order when the target is not below the source. -/
theorem ordered_downward (hr : Ranges f t n) (hdir : f ≤ t) :
    Ordered (reads src f) (writes dst t) (List.range n).reverse := by
  constructor
  · rw [List.pairwise_reverse]
    refine List.pairwise_lt_range.imp_of_mem ?_
    intro i j hi hj hij hw
    rw [List.mem_range] at hi hj
    obtain ⟨_, heq⟩ := (hr.writes_reads_iff hj hi).mp hw
    omega
  · rw [List.pairwise_reverse]
    refine List.pairwise_lt_range.imp_of_mem ?_
    intro i j hi hj hij l hl
    rw [List.mem_range] at hi hj
    exact hr.not_writes_twice hj hi hij.ne' hl

/-- A loop whose turns copy their cells copies them one after the other. -/
theorem forEach_ends {body : ℕ → LibM Unit} {is : List ℕ}
    (hbody : ∀ i ∈ is, ∀ h g, Agrees E h g →
      Ends E (body i h) fun _ h' => Agrees E h' (copy (reads src f) (writes dst t) g i))
    (hA : Agrees E h g) :
    Ends E (forEach body is h) fun _ h' => Agrees E h' (copyAll (reads src f) (writes dst t) g is) := by
  induction is generalizing h g with
  | nil => exact ends_pure hA
  | cons i is ih =>
    refine (hbody i List.mem_cons_self h g hA).bind fun _ h' hA' => ?_
    exact ih (fun j hj => hbody j (List.mem_cons_of_mem i hj)) hA'

theorem copyelement_ends (ha : c.env.Roomy) (hA : Agrees c.env h g) {srct dstt : ℕ} (hs : Fits 32 (f + i))
    (hd : Fits 32 (t + i)) : Ends c.env (copyelement c srct dstt f t i h) fun _ h' =>
      Agrees c.env h' (copy (reads (c.base srct) f) (writes (c.base dstt) t) g i) := by
  unfold copyelement
  apply ends_checked_bind (add_ok hs)
  have hget : Ends c.env (lua_rawgeti c srct (f + i) h) fun v h' => v = g (cell (c.base srct) (f + i)) ∧ h' = h :=
    Or.inl ⟨_, h, lua_rawgeti_run hA c srct hs, rfl, rfl⟩
  refine hget.bind fun v h' hv => ?_
  obtain ⟨rfl, rfl⟩ := hv
  apply ends_checked_bind (add_ok hd)
  rw [← assign_eq_copy]
  exact lua_rawseti_ends ha hA dstt hd _

theorem slotIndex_ok {a : ℤ} (h1 : 1 ≤ a + i) (h2 : a + i ≤ INT_MAX) : slotIndex a i = .ok (a + i - 1) := by
  unfold slotIndex
  rw [add_ok (fits_int (by omega) h2)]
  exact sub_ok (fits_int (by omega) (by omega))

/-- The source and the target slot are inside the array parts. -/
theorem copyslot_ends (hA : Agrees E h g) (hs : 1 ≤ f + i ∧ f + i ≤ (h src).sizearray)
    (hd : 1 ≤ t + i ∧ t + i ≤ (h dst).sizearray) :
    ∃ h', copyslot src dst f t i h = .ok ⟨⟩ h' ∧ (∀ p, (h' p).sizearray = (h p).sizearray) ∧
      Agrees E h' (copy (reads src f) (writes dst t) g i) := by
  have hsle := hA.slot_le src hs.2
  have hdle := hA.slot_le dst hd.2
  have hsource := slotIndex_ok hs.1 (show f + i ≤ INT_MAX by unfold INT_MAX; omega)
  have htarget := slotIndex_ok hd.1 (show t + i ≤ INT_MAX by unfold INT_MAX; omega)
  have hrun : copyslot src dst f t i h = .ok ⟨⟩ (Function.update h dst
      ((h dst).slotSet ((h src).arr (f + i - 1).toNat) (.array (t + i - 1).toNat))) := by
    unfold copyslot
    rw [hsource, htarget]
    rfl
  refine ⟨_, hrun, fun p => ?_, ?_⟩
  · by_cases hp : p = dst
    · rw [hp, Function.update_self]
      rfl
    · rw [Function.update_of_ne hp]
  · -- the slot read is that of the key
    have hvalue : (h src).arr (f + i - 1).toNat = g (cell src (f + i)) := by
      have hfits := hA.slot_fits hs.1 hs.2
      have hvalid : (TValue.number (cast_num (f + i))).ValidKey := validKey_of_isNumberEq (isNumberEq_cast_num hfits)
      rw [← show lookup E (h src) (.number (cast_num (f + i))) = g (cell src (f + i)) from (hA src).lookup _ hvalid,
        ← rawgeti_eq_lookup hfits, rawgeti_slot hs.1 hs.2 (by unfold INT_MAX; omega)]
    rw [hvalue, ← assign_eq_copy]
    exact hA.slotSet hd.1 hd.2 _

/-- What moving a range does to the contents of the tables. -/
structure Moved (g g' : Cells) (src dst : GCPtr) (f t : ℤ) (n : ℕ) : Prop where
  moved : ∀ i < n, ∀ k, isNumberEq k (t + i) = true → g' (dst, k) = g (cell src (f + i))
  kept : ∀ p k, (p = dst → ∀ i < n, isNumberEq k (t + i) = false) → g' (p, k) = g (p, k)

/-- **Copies in order move a range.** -/
theorem moved_copyAll (hr : Ranges f t n) {is : List ℕ} (hmem : ∀ i, i ∈ is ↔ i < n)
    (hord : Ordered (reads src f) (writes dst t) is) :
    Moved g (copyAll (reads src f) (writes dst t) g is) src dst f t n := by
  constructor
  · intro i hi k hk
    have hwrites : writes dst t i (dst, k) := (holdsAt_iff (hr.target i hi)).mpr ⟨rfl, hk⟩
    exact copyAll_of_writes hord ((hmem i).mpr hi) hwrites
  · intro p k hk
    apply copyAll_of_not_writes
    intro i hi hw
    rw [hmem] at hi
    obtain ⟨hp, he⟩ := (holdsAt_iff (hr.target i hi)).mp hw
    rw [hk hp i hi] at he
    cases he

theorem mem_upward {m : ℤ} : i ∈ upward m ↔ i < m.toNat := List.mem_range

theorem mem_downward {m : ℤ} : i ∈ downward m ↔ i < m.toNat := List.mem_reverse.trans List.mem_range

/-- A call ends with the range moved. -/
def EndsMoved (E : Env) (g : Cells) (src dst : GCPtr) (f t : ℤ) (n : ℕ) (r : EStateM.Result LibError Tables Unit) :
    Prop :=
  Ends E r fun _ h' => ∃ g', Agrees E h' g' ∧ Moved g g' src dst f t n

/-- The loops through the API -/
theorem moverawly_moves (ha : c.env.Roomy) (hA : Agrees c.env h g) (srct dstt : ℕ) {m : ℤ} (hm : m = e - f + 1)
    (h0 : 0 ≤ m) (hr : Ranges f t m.toNat) :
    EndsMoved c.env g (c.base srct) (c.base dstt) f t m.toNat (moverawly c srct dstt f e t m h) := by
  have hbody : ∀ i < m.toNat, ∀ h g, Agrees c.env h g → Ends c.env (copyelement c srct dstt f t i h) fun _ h' =>
      Agrees c.env h' (copy (reads (c.base srct) f) (writes (c.base dstt) t) g i) := fun i hi h g hA =>
    copyelement_ends ha hA (hr.source i hi) (hr.target i hi)
  unfold moverawly
  by_cases hdir : e < t ∨ t ≤ f ∨ c.base dstt ≠ c.base srct
  · rw [if_pos hdir]
    refine (forEach_ends (fun i hi => hbody i (mem_upward.mp hi)) hA).mono fun _ h' hA' => ⟨_, hA', ?_⟩
    apply moved_copyAll hr fun i => mem_upward
    exact ordered_upward hr (hdir.imp_left fun hlt => by omega)
  · rw [if_neg hdir]
    refine (forEach_ends (fun i hi => hbody i (mem_downward.mp hi)) hA).mono fun _ h' hA' => ⟨_, hA', ?_⟩
    apply moved_copyAll hr fun i => mem_downward
    exact ordered_downward hr (by omega)

/-- A loop over the array parts succeeds. -/
theorem forEach_copyslot {is : List ℕ} (hs : ∀ i ∈ is, 1 ≤ f + (i : ℤ) ∧ f + i ≤ (h src).sizearray)
    (hd : ∀ i ∈ is, 1 ≤ t + (i : ℤ) ∧ t + i ≤ (h dst).sizearray) (hA : Agrees E h g) :
    ∃ h', forEach (copyslot src dst f t) is h = .ok ⟨⟩ h' ∧
      Agrees E h' (copyAll (reads src f) (writes dst t) g is) := by
  induction is generalizing h g with
  | nil => exact ⟨h, rfl, hA⟩
  | cons i is ih =>
    obtain ⟨h', hrun, hsize, hA'⟩ := copyslot_ends hA (hs i List.mem_cons_self) (hd i List.mem_cons_self)
    obtain ⟨h'', hrest, hA''⟩ := ih
      (fun j hj => by
        rw [hsize]
        exact hs j (List.mem_cons_of_mem i hj))
      (fun j hj => by
        rw [hsize]
        exact hd j (List.mem_cons_of_mem i hj)) hA'
    refine ⟨h'', ?_, hA''⟩
    show EStateM.bind _ _ h = _
    unfold EStateM.bind
    rw [hrun]
    exact hrest

/-- The bounds that the unsigned comparisons check -/
theorem InArrays.bounds {s d : LuaTable} {m : ℤ} (hin : InArrays s d f t m) (hf : Fits 32 f) (ht : Fits 32 t)
    (hm : 0 ≤ m ∧ m < 2 ^ 31) (hs : s.sizearray ≤ MAXSIZE) (hd : d.sizearray ≤ MAXSIZE) :
    (1 ≤ f ∧ f - 1 + m ≤ s.sizearray) ∧ 1 ≤ t ∧ t - 1 + m ≤ d.sizearray := by
  have hM : MAXSIZE = 2 ^ 26 := rfl
  obtain ⟨h1, h2, h3, h4⟩ := hin
  obtain ⟨hf1, hf2⟩ := hf
  obtain ⟨ht1, ht2⟩ := ht
  unfold cast_unsigned at h1 h2 h3 h4
  norm_num at hf1 hf2 ht1 ht2 h1 h2 h3 h4
  omega

/-- The loops over the array parts -/
theorem moveslots_moves (hA : Agrees E h g) (srct dstt : ℕ) {m : ℤ} (hm : m = e - f + 1) (h0 : 0 ≤ m)
    (hr : Ranges f t m.toNat) (hs : 1 ≤ f ∧ f - 1 + m ≤ (h src).sizearray) (hd : 1 ≤ t ∧ t - 1 + m ≤ (h dst).sizearray) :
    ∃ h' g', moveslots srct dstt src dst f e t m h = .ok ⟨⟩ h' ∧ Agrees E h' g' ∧ Moved g g' src dst f t m.toNat := by
  unfold moveslots
  by_cases hdir : e < t ∨ t ≤ f ∨ dstt ≠ srct ∧ dst ≠ src
  · rw [if_pos hdir]
    obtain ⟨h', hrun, hA'⟩ := @forEach_copyslot E h g src dst f t (upward m)
      (fun i hi => by rw [mem_upward] at hi; omega) (fun i hi => by rw [mem_upward] at hi; omega) hA
    refine ⟨h', _, hrun, hA', moved_copyAll hr (fun i => mem_upward) ?_⟩
    apply ordered_upward hr
    rcases hdir with hlt | hle | hne
    · exact Or.inl (by omega)
    · exact Or.inr (Or.inl hle)
    · exact Or.inr (Or.inr hne.2)
  · rw [if_neg hdir]
    obtain ⟨h', hrun, hA'⟩ := @forEach_copyslot E h g src dst f t (downward m)
      (fun i hi => by rw [mem_downward] at hi; omega) (fun i hi => by rw [mem_downward] at hi; omega) hA
    refine ⟨h', _, hrun, hA', moved_copyAll hr (fun i => mem_downward) ?_⟩
    exact ordered_downward hr (by omega)

/-- Inside the array parts, a turn through the API does what one on the slots does. -/
theorem copyelement_eq_copyslot {srct dstt : ℕ} (hwritable : c.readonly (c.base dstt) = false)
    (hs : 1 ≤ f + i ∧ f + i ≤ (h (c.base srct)).sizearray) (hd : 1 ≤ t + i ∧ t + i ≤ (h (c.base dstt)).sizearray)
    (hf : f + i ≤ INT_MAX) (ht : t + i ≤ INT_MAX) :
    copyelement c srct dstt f t i h = copyslot (c.base srct) (c.base dstt) f t i h := by
  unfold copyelement copyslot
  rw [add_ok (fits_int (by omega) hf), add_ok (fits_int (by omega) ht), slotIndex_ok hs.1 hf, slotIndex_ok hd.1 ht]
  show lua_rawseti c dstt (t + i) (rawgeti (h (c.base srct)) (f + i)) h = _
  unfold lua_rawseti
  rw [hwritable, rawgeti_slot hs.1 hs.2 hf]
  exact onTable_ok (storeThrough_slot hd.1 hd.2 ht _)

theorem forEach_copyelement {srct dstt : ℕ} {is : List ℕ} (hwritable : c.readonly (c.base dstt) = false)
    (hs : ∀ i ∈ is, 1 ≤ f + (i : ℤ) ∧ f + i ≤ (h (c.base srct)).sizearray)
    (hd : ∀ i ∈ is, 1 ≤ t + (i : ℤ) ∧ t + i ≤ (h (c.base dstt)).sizearray) (hA : Agrees c.env h g) :
    forEach (copyelement c srct dstt f t) is h = forEach (copyslot (c.base srct) (c.base dstt) f t) is h := by
  induction is generalizing h g with
  | nil => rfl
  | cons i is ih =>
    have hM : MAXSIZE = 2 ^ 26 := rfl
    have hsmax := (hA (c.base srct)).wf.inv.sizeMax
    have hdmax := (hA (c.base dstt)).wf.inv.sizeMax
    have hsi := hs i List.mem_cons_self
    have hdi := hd i List.mem_cons_self
    dsimp only at hsmax hdmax
    obtain ⟨h', hrun, hsize, hA'⟩ := copyslot_ends hA hsi hdi
    have hraw : copyelement c srct dstt f t i h = .ok ⟨⟩ h' :=
      (copyelement_eq_copyslot hwritable hsi hdi (by unfold INT_MAX; omega) (by unfold INT_MAX; omega)).trans hrun
    have hrest := ih
      (fun j hj => by
        rw [hsize]
        exact hs j (List.mem_cons_of_mem i hj))
      (fun j hj => by
        rw [hsize]
        exact hd j (List.mem_cons_of_mem i hj)) hA'
    show EStateM.bind _ _ h = EStateM.bind _ _ h
    unfold EStateM.bind
    rw [hraw, hrun]
    exact hrest

/-- **The two paths agree** where both are possible. -/
theorem moverawly_eq_moveslots {srct dstt : ℕ} {m : ℤ} (hA : Agrees c.env h g) (hwritable : c.readonly (c.base dstt) = false)
    (hs : 1 ≤ f ∧ f - 1 + m ≤ (h (c.base srct)).sizearray) (hd : 1 ≤ t ∧ t - 1 + m ≤ (h (c.base dstt)).sizearray) :
    moverawly c srct dstt f e t m h = moveslots srct dstt (c.base srct) (c.base dstt) f e t m h := by
  have hsame : (e < t ∨ t ≤ f ∨ dstt ≠ srct ∧ c.base dstt ≠ c.base srct)
      ↔ (e < t ∨ t ≤ f ∨ c.base dstt ≠ c.base srct) :=
    or_congr_right (or_congr_right (and_iff_right_of_imp fun hne he => hne (congrArg c.base he)))
  unfold moverawly moveslots
  by_cases hdir : e < t ∨ t ≤ f ∨ c.base dstt ≠ c.base srct
  · rw [if_pos hdir, if_pos (hsame.mpr hdir)]
    apply forEach_copyelement hwritable _ _ hA
    · intro i hi
      rw [mem_upward] at hi
      omega
    · intro i hi
      rw [mem_upward] at hi
      omega
  · rw [if_neg hdir, if_neg fun hslots => hdir (hsame.mp hslots)]
    apply forEach_copyelement hwritable _ _ hA
    · intro i hi
      rw [mem_downward] at hi
      omega
    · intro i hi
      rw [mem_downward] at hi
      omega

/-- **`moveelements`** moves the range, on whichever path. -/
theorem moveelements_moves (ha : c.env.Roomy) (hA : Agrees c.env h g) (srct dstt : ℕ) (hf : Fits 32 f)
    (ht : Fits 32 t) {m : ℤ} (hm : m = e - f + 1) (h0 : 0 ≤ m) (hm' : m < 2 ^ 31) (he : e < 2 ^ 31)
    (hend : t + m ≤ 2 ^ 31) :
    EndsMoved c.env g (c.base srct) (c.base dstt) f t m.toNat (moveelements c srct dstt f e t h) := by
  obtain ⟨hf1, hf2⟩ := hf
  obtain ⟨ht1, ht2⟩ := ht
  norm_num at hf1 hf2 ht1 ht2
  have hr : Ranges f t m.toNat := by
    constructor
    · intro i hi
      exact ⟨by norm_num; omega, by norm_num; omega⟩
    · intro i hi
      exact ⟨by norm_num; omega, by norm_num; omega⟩
  have hcount : count f e = .ok m := by
    have hsub : Fits 32 (e - f) := ⟨by norm_num; omega, by norm_num; omega⟩
    have hadd : Fits 32 (e - f + 1) := ⟨by norm_num; omega, by norm_num; omega⟩
    unfold count
    rw [sub_ok hsub, hm]
    exact add_ok hadd
  unfold moveelements
  apply ends_readonly hA
  intro _
  apply ends_checked_bind hcount
  apply ends_get_bind
  by_cases hin : InArrays (h (c.base srct)) (h (c.base dstt)) f t m
  · rw [if_pos hin]
    obtain ⟨hs, hd⟩ := hin.bounds ⟨hf1, hf2⟩ ⟨ht1, ht2⟩ ⟨h0, hm'⟩ (hA (c.base srct)).wf.inv.sizeMax
      (hA (c.base dstt)).wf.inv.sizeMax
    obtain ⟨h', g', hrun, hA', hmoved⟩ := moveslots_moves hA srct dstt hm h0 hr hs hd
    exact Or.inl ⟨⟨⟩, h', hrun, g', hA', hmoved⟩
  · rw [if_neg hin]
    exact moverawly_moves ha hA srct dstt hm h0 hr

end Loops

end Luwu.TabLib
