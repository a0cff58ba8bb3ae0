import Luwu.Table.Map
import Mathlib.Data.Nat.Log

/-!
# Resizing

`resize` allocates the new parts, then re-inserts every element that does not stay where it is.  The
re-insertions go through `newkey`, which could grow the table again; `resize_spec` shows that it does
not when the new hash part has room for the elements that belong there (`outside`) and the key behind
the new array part is absent.  These are the two things `rehash` and the callers of `luaH_resizearray`
and `luaH_resizehash` provide, and what the assertions at the end of `resize` check.

`room` counts the unused slots of the hash part.  A re-insertion uses up at most one of them
(`Inserted.room`), and while one is left `newkey` does not grow the table (`newkey_of_room`).  The two
loops of `resize` are then inductions over what is left to re-insert, with the map of the table — the
entries it `Holds` — growing by the element just inserted.
-/

namespace Luwu

open Links

/-! ### Logarithms -/

theorem log_2_eq {x : ℕ} (h0 : x ≠ 0) (hx : x < 256) : -1 + log_2 x = Nat.log 2 x := by
  have hlog : ∀ k, 2 ^ k ≤ x → x < 2 ^ (k + 1) → Nat.log 2 x = k := fun k hlo hhi =>
    (Nat.log_eq_iff (Or.inr ⟨by norm_num, h0⟩)).mpr ⟨hlo, hhi⟩
  unfold log_2
  split_ifs with h
  · exact absurd h h0
  · rw [hlog 0 (by omega) (by omega)]; rfl
  · rw [hlog 1 (by omega) (by omega)]; rfl
  · rw [hlog 2 (by omega) (by omega)]; rfl
  · rw [hlog 3 (by omega) (by omega)]; rfl
  · rw [hlog 4 (by omega) (by omega)]; rfl
  · rw [hlog 5 (by omega) (by omega)]; rfl
  · rw [hlog 6 (by omega) (by omega)]; rfl
  · rw [hlog 7 (by omega) (by omega)]; rfl

/-- `luaO_log2` is the binary logarithm, with `-1` at zero. -/
theorem luaO_log2_eq (x : ℕ) : luaO_log2 x = if x = 0 then -1 else (Nat.log 2 x : ℤ) := by
  induction x using Nat.strong_induction_on with
  | _ x ih =>
    unfold luaO_log2
    by_cases hx : 256 ≤ x
    · have hdiv : Nat.log 2 (x / 256) = Nat.log 2 x - 8 := by
        rw [show (256 : ℕ) = 2 ^ 8 from rfl, Nat.log_div_base_pow]
      have hge : 8 ≤ Nat.log 2 x := Nat.le_log_of_pow_le (by norm_num) hx
      rw [if_pos hx, ih (x / 256) (by omega), if_neg (by omega), if_neg (by omega), hdiv]
      omega
    · rw [if_neg hx]
      by_cases h0 : x = 0
      · rw [if_pos h0, h0]
        rfl
      · rw [if_neg h0]
        exact log_2_eq h0 (by omega)

/-- `ceillog2` is the logarithm rounded up. -/
theorem ceillog2_eq (x : ℕ) : ceillog2 x = Nat.clog 2 x := by
  unfold ceillog2
  rw [luaO_log2_eq]
  by_cases h0 : x - 1 = 0
  · rw [if_pos h0]
    exact (Nat.clog_of_right_le_one (by omega) 2).symm
  · rw [if_neg h0]
    have hlo := Nat.pow_log_le_self 2 h0
    have hhi := Nat.lt_pow_succ_log_self (b := 2) (by norm_num) (x - 1)
    have : Nat.clog 2 x = Nat.log 2 (x - 1) + 1 := by
      apply le_antisymm
      · exact (Nat.clog_le_iff_le_pow (by norm_num)).mpr (by omega)
      · exact (Nat.lt_clog_iff_pow_lt (by norm_num)).mpr (by omega)
    rw [this]
    omega

theorem le_two_pow_ceillog2 (x : ℕ) : x ≤ 2 ^ ceillog2 x := by
  rw [ceillog2_eq]
  exact Nat.le_pow_clog (by norm_num) x

theorem ceillog2_le {x : ℕ} (hx : x ≤ MAXSIZE) : ceillog2 x ≤ MAXBITS := by
  rw [ceillog2_eq]
  exact (Nat.clog_le_iff_le_pow (by norm_num)).mpr hx

/-! ### Room in the hash part -/

section Room

variable {E : Env} {t t' : LuaTable} {key : TValue} {i : ℕ} {ins : Inserter}

/-- The number of unused slots. -/
def LuaTable.room (t : LuaTable) : ℕ :=
  ((Finset.range t.nodeCount).filter fun j => t.gkey j = .nil).card

theorem room_pos (h : 0 < t.room) : ∃ j, j < t.nodeCount ∧ t.gkey j = .nil := by
  obtain ⟨j, hj⟩ := Finset.card_pos.mp h
  rw [Finset.mem_filter, Finset.mem_range] at hj
  exact ⟨j, hj⟩

/-- An edit that fills at most one unused slot costs at most one unit of room. -/
theorem room_le_of_fills (n : ℕ) (hc : t'.nodeCount = t.nodeCount)
    (hkeep : ∀ j, j ≠ n → t.gkey j = .nil → t'.gkey j = .nil) : t.room ≤ t'.room + 1 := by
  have hsub : ((Finset.range t.nodeCount).filter fun j => t.gkey j = .nil)
      ⊆ insert n ((Finset.range t'.nodeCount).filter fun j => t'.gkey j = .nil) := by
    intro j hj
    rw [Finset.mem_filter] at hj
    rw [Finset.mem_insert, Finset.mem_filter, hc]
    by_cases hjn : j = n
    · exact Or.inl hjn
    · exact Or.inr ⟨hj.1, hkeep j hjn hj.2⟩
  exact (Finset.card_le_card hsub).trans (Finset.card_insert_le _ _)

theorem Inserted.room (h : Inv E t) (hi : Inserted E t key t' i) : t.room ≤ t'.room + 1 := by
  have hf := hi.frame
  cases hi with
  | intoMain frame lf empty inside gkey gval link offset =>
    refine room_le_of_fills (mainposition E t key) hf.nodeCount fun j hj hn => ?_
    rw [gkey, if_neg hj]
    exact hn
  | @moved p n frame lf above inside ninside free taken out rel edit =>
    refine room_le_of_fills n hf.nodeCount fun j hj hn => ?_
    have hjm : j ≠ mainposition E t key := ne_unused (h.keyed_of_val taken) hn |>.symm
    rw [edit.gkey, if_neg hjm, if_neg hj]
    exact hn
  | chained frame lf above ninside free taken home edit =>
    refine room_le_of_fills i hf.nodeCount fun j hj hn => ?_
    rw [edit.gkey, if_neg hj]
    exact hn

/-- **While there is room, `newkey` does not grow the table.** -/
theorem newkeyOr_of_room (h : Inv E t) (grow : Inserter) (hnext : isNumberEq key (t.sizearray + 1) = false)
    (hroom : 0 < t.room) :
    ∃ t' i, newkeyOr E grow key t = .ok (.node i) t' ∧ Inserted E t key t' i := by
  rcases newkeyOr_cases h grow key with ⟨t', i, hrun, hins, _⟩ | ⟨_, _, hgrow⟩
  · exact ⟨t', i, hrun, hins⟩
  · rcases hgrow with hg | hused
    · rw [hnext] at hg
      cases hg
    · obtain ⟨j, hj, hn⟩ := room_pos hroom
      exact absurd hn (hused j hj)

theorem newkey_of_room (h : Inv E t) (fuel : ℕ) (hnext : isNumberEq key (t.sizearray + 1) = false)
    (hroom : 0 < t.room) :
    ∃ t' i, newkey E (fuel + 1) key t = .ok (.node i) t' ∧ Inserted E t key t' i :=
  newkeyOr_of_room h (growtable E (newkey E fuel)) hnext hroom

/-- What `resize` needs of the insertion that it calls back: with room, a key goes into the hash part. -/
def Inserts (E : Env) (newkey : Inserter) : Prop :=
  ∀ {t key}, Inv E t → isNumberEq key (t.sizearray + 1) = false → 0 < t.room →
    ∃ t' i, newkey key t = .ok (.node i) t' ∧ Inserted E t key t' i

theorem inserts_newkeyOr (E : Env) (grow : Inserter) : Inserts E (newkeyOr E grow) :=
  fun h hnext hroom => newkeyOr_of_room h grow hnext hroom

theorem inserts_newkey (E : Env) (fuel : ℕ) : Inserts E (newkey E (fuel + 1)) :=
  fun h hnext hroom => newkey_of_room h fuel hnext hroom

/-- Every slot in use has a value: so it is in a table that `resize` is filling. -/
def LuaTable.AllLive (t : LuaTable) : Prop := ∀ j, t.gkey j ≠ .nil → t.gval j ≠ .nil

/-- In such a table a key without an entry is not in the hash part at all. -/
theorem LuaTable.AllLive.absent (hl : t.AllLive) (hk : key.ValidKey) (hno : ∀ v, ¬ t.Holds key v)
    (j : ℕ) : luaO_rawequalObj (t.gkey j) key = false := by
  rw [← Bool.not_eq_true]
  intro he
  have hv := hl j (Inv.keyed_of_rawequal hk he).ne_nil
  exact hno _ ⟨hv, .node j, he, rfl⟩

/-- The sizes a re-insertion leaves alone. -/
structure SameSize (t t' : LuaTable) : Prop where
  sizearray : t'.sizearray = t.sizearray
  arrayLen : t'.array.length = t.array.length
  lsizenode : t'.lsizenode = t.lsizenode
  nodeCount : t'.nodeCount = t.nodeCount
  node : t'.node = none ↔ t.node = none

theorem SameSize.refl (t : LuaTable) : SameSize t t := ⟨rfl, rfl, rfl, rfl, Iff.rfl⟩

theorem SameSize.trans {t₁ t₂ t₃ : LuaTable} (h : SameSize t₁ t₂) (h' : SameSize t₂ t₃) :
    SameSize t₁ t₃ :=
  ⟨h'.sizearray.trans h.sizearray, h'.arrayLen.trans h.arrayLen, h'.lsizenode.trans h.lsizenode,
    h'.nodeCount.trans h.nodeCount, h'.node.trans h.node⟩

theorem SameFrame.size (h : SameFrame t t') : SameSize t t' :=
  ⟨h.sizearray, congrArg List.length h.array, h.lsizenode, h.nodeCount, h.node⟩

theorem sameSize_slotSet {k v : TValue} {s : Slot} (h : Inv E t) (hk : k.ValidKey)
    (hs : t.SlotOf k s) : SameSize t (t.slotSet v s) := by
  obtain ⟨_, _, _, h1, h2, h3, h4, _, h5⟩ := slotSet_frame (v := v) hs hk h
  exact ⟨h1, h2, h4, h3, h5⟩

/-- A table that is being filled by `resize`: its state after some re-insertions. -/
structure Filling (E : Env) (t : LuaTable) : Prop where
  inv : Inv E t
  live : t.AllLive

/-- What storing the value `v` under the fresh key `key` makes of a table. -/
structure Put (E : Env) (t : LuaTable) (key v : TValue) (cost : ℕ) (t' : LuaTable) : Prop where
  fill : Filling E t'
  size : SameSize t t'
  room : t.room ≤ t'.room + cost
  holds : ∀ k w, k.ValidKey → (t'.Holds k w ↔
    t.Holds k w ∨ (w ≠ .nil ∧ w = v ∧ luaO_rawequalObj key k = true))

/-- Storing a value through the slot of a key that had none. -/
theorem put_slotSet (hf : Filling E t) (hk : key.ValidKey) {s : Slot} (hs : t.SlotOf key s)
    (hlive : ∀ j, s ≠ .node j → t.gkey j ≠ .nil → t.gval j ≠ .nil)
    {v : TValue} (hv : v ≠ .nil) (hno : ∀ w, ¬ t.Holds key w) : Put E t key v 0 (t.slotSet v s) := by
  have hframe := slotSet_frame (v := v) hs hk hf.inv
  refine ⟨⟨hf.inv.slotSet hk hs v, ?_⟩, sameSize_slotSet hf.inv hk hs, ?_, ?_⟩
  · intro j hj
    rw [hframe.1] at hj
    have := slotGet_slotSet (v := v) hs hk hf.inv (.node j)
    have hget : (t.slotSet v s).gval j = if .node j = s then v else t.gval j := this
    rw [hget]
    split
    · exact hv
    · rename_i hne
      exact hlive j (Ne.symm hne) hj
  · unfold LuaTable.room
    rw [hframe.2.2.2.2.2.1]
    simp only [hframe.1]
    exact le_rfl
  · intro k w hkv
    rw [holds_slotSet hf.inv hk hs hkv]
    split
    · rename_i he
      constructor
      · rintro ⟨hw, hwv⟩
        exact Or.inr ⟨hw, hwv, he⟩
      · rintro (hh | ⟨hw, hwv, _⟩)
        · exact absurd ((holds_congr he).mpr hh) (hno w)
        · exact ⟨hw, hwv⟩
    · rename_i he
      constructor
      · exact Or.inl
      · rintro (hh | ⟨_, _, he'⟩)
        · exact hh
        · exact absurd he' he

/-- Inserting a key into the hash part and storing its value. -/
theorem put_newkey (hf : Filling E t) (hcall : Inserts E ins) (hk : key.ValidKey)
    (hhash : arrayslot t.sizearray key = none)
    (hnext : isNumberEq key (t.sizearray + 1) = false) (hno : ∀ w, ¬ t.Holds key w)
    (hroom : 0 < t.room) {v : TValue} (hv : v ≠ .nil) :
    ∃ t₀ i, ins key t = .ok (.node i) t₀ ∧
      t₀.array = t.array ∧ Put E t key v 1 (t₀.slotSet v (.node i)) := by
  obtain ⟨t₀, i, hrun, hins⟩ := hcall hf.inv hnext hroom
  have hinv := hins.inv hf.inv ⟨hk, hf.live.absent hk hno, hhash, hnext⟩
  obtain ⟨hnew, hnewval⟩ := hins.new_slot hf.inv
  have hs : t₀.SlotOf key (.node i) := by
    show luaO_rawequalObj (t₀.gkey i) key = true
    rw [hnew]
    exact rawequal_refl hk
  have hframe := slotSet_frame (v := v) hs hk hinv
  refine ⟨t₀, i, hrun, hins.frame.array, ⟨hinv.slotSet hk hs v, ?_⟩,
    hins.frame.size.trans (sameSize_slotSet hinv hk hs), ?_, ?_⟩
  · -- a slot other than the new one comes from a slot that had a value
    intro j hj
    rw [hframe.1] at hj
    have hget : (t₀.slotSet v (.node i)).gval j = if j = i then v else t₀.gval j := by
      have := slotGet_slotSet (v := v) hs hk hinv (.node j)
      simpa only [LuaTable.slotGet, Slot.node.injEq] using this
    rw [hget]
    split
    · exact hv
    · rename_i hne
      obtain ⟨j', hkey, hval⟩ := (hins.slots hf.inv).2 j hne
      rw [hval]
      exact hf.live j' (hkey ▸ hj)
  · have := hins.room hf.inv
    have heq : (t₀.slotSet v (.node i)).room = t₀.room := by
      unfold LuaTable.room
      rw [hframe.2.2.2.2.2.1]
      simp only [hframe.1]
    omega
  · intro k w hkv
    rw [holds_slotSet hinv hk hs hkv]
    split
    · rename_i he
      constructor
      · rintro ⟨hw, hwv⟩
        exact Or.inr ⟨hw, hwv, he⟩
      · rintro (hh | ⟨hw, hwv, _⟩)
        · exact absurd ((holds_congr he).mpr hh) (hno w)
        · exact ⟨hw, hwv⟩
    · rename_i he
      rw [hins.holds_iff hf.inv]
      constructor
      · exact Or.inl
      · rintro (hh | ⟨_, _, he'⟩)
        · exact hh
        · exact absurd he' he

/-- `arrayornewkey`, then the store: the array slot costs nothing, a node one unused slot. -/
theorem put_arrayornewkey (hf : Filling E t) (hcall : Inserts E ins) (hk : key.ValidKey)
    (hno : ∀ w, ¬ t.Holds key w)
    (hhash : arrayslot t.sizearray key = none →
      isNumberEq key (t.sizearray + 1) = false ∧ 0 < t.room) {v : TValue} (hv : v ≠ .nil) :
    ∃ t₀ s, arrayornewkey (ins) key t = .ok s t₀ ∧
      Put E t key v (if arrayslot t.sizearray key = none then 1 else 0) (t₀.slotSet v s) := by
  unfold arrayornewkey
  cases ha : arrayslot t.sizearray key with
  | some i =>
    refine ⟨t, .array i, ?_, ?_⟩
    · rw [TableM.get_bind, ha]
      rfl
    · rw [if_neg (by simp)]
      have hs : t.SlotOf key (.array i) := ha
      exact put_slotSet hf hk hs (fun j _ hj => hf.live j hj) hv hno
  | none =>
    obtain ⟨hnext, hroom⟩ := hhash ha
    obtain ⟨t₀, i, hrun, _, hput⟩ := put_newkey hf hcall hk ha hnext hno hroom hv
    refine ⟨t₀, .node i, ?_, ?_⟩
    · rw [TableM.get_bind, ha]
      exact hrun
    · rw [if_pos rfl]
      exact hput

end Room

/-! ### The two loops -/

section Loops

variable {E : Env} {t : LuaTable} {ins : Inserter}

/-- A node that belongs in the hash part of a table with `nasize` array slots. -/
def LuaNode.stays (nasize : ℕ) (n : LuaNode) : Bool :=
  !n.val.isNil && (arrayslot nasize n.key.tv).isNone

/-- What a list of nodes still to be re-inserted satisfies. -/
structure Pending (t : LuaTable) (rest : List LuaNode) : Prop where
  valid : ∀ n ∈ rest, n.val ≠ .nil → n.key.tv.ValidKey
  distinct : rest.Pairwise fun a b =>
    a.val ≠ .nil → b.val ≠ .nil → luaO_rawequalObj a.key.tv b.key.tv = false
  absent : ∀ n ∈ rest, n.val ≠ .nil → ∀ w, ¬ t.Holds n.key.tv w
  notNext : ∀ n ∈ rest, n.val ≠ .nil → isNumberEq n.key.tv (t.sizearray + 1) = false
  room : rest.countP (LuaNode.stays t.sizearray) ≤ t.room

/-- What re-inserting makes of a table: some of its room is used up, and the entries `new` are added. -/
structure Refilled (E : Env) (t : LuaTable) (cost : ℕ) (new : TValue → TValue → Prop)
    (t' : LuaTable) : Prop where
  fill : Filling E t'
  size : SameSize t t'
  room : t.room ≤ t'.room + cost
  holds : ∀ k w, k.ValidKey → (t'.Holds k w ↔ t.Holds k w ∨ (w ≠ .nil ∧ new k w))

/-- **The hash loop of `resize`** re-inserts every element; the hash part does not grow. -/
theorem reinsertNodes_spec (hcall : Inserts E ins) (rest : List LuaNode) (hf : Filling E t)
    (hp : Pending t rest) :
    ∃ t', reinsertNodes (ins) rest t = .ok ⟨⟩ t' ∧
      Refilled E t (rest.countP (LuaNode.stays t.sizearray))
        (fun k w => ∃ n ∈ rest, n.val = w ∧ luaO_rawequalObj n.key.tv k = true) t' := by
  induction rest generalizing t with
  | nil =>
    refine ⟨t, rfl, hf, SameSize.refl t, le_rfl, fun k w _ => ?_⟩
    simp
  | cons old rest ih =>
    have hdist := List.pairwise_cons.mp hp.distinct
    unfold reinsertNodes
    by_cases hv : old.val = .nil
    · -- an empty node is skipped
      have hstay : old.stays t.sizearray = false := by
        unfold LuaNode.stays
        rw [TValue.isNil_iff.mpr hv]
        rfl
      have hcount : (old :: rest).countP (LuaNode.stays t.sizearray)
          = rest.countP (LuaNode.stays t.sizearray) :=
        List.countP_cons_of_neg (by rw [hstay]; exact Bool.false_ne_true)
      rw [hcount]
      have hp' : Pending t rest :=
        ⟨fun n hn => hp.valid n (List.mem_cons_of_mem _ hn), hdist.2,
          fun n hn => hp.absent n (List.mem_cons_of_mem _ hn),
          fun n hn => hp.notNext n (List.mem_cons_of_mem _ hn),
          hcount ▸ hp.room⟩
      obtain ⟨t', hrun, hfill, hsize, hroom, hholds⟩ := ih hf hp'
      refine ⟨t', ?_, hfill, hsize, hroom, fun k w hk => ?_⟩
      · rw [TValue.isNil_iff.mpr hv]
        exact hrun
      · rw [hholds k w hk]
        refine or_congr_right (and_congr_right fun hw => ?_)
        simp only [List.mem_cons, exists_eq_or_imp, hv]
        refine ⟨Or.inr, ?_⟩
        rintro (⟨hw', _⟩ | h)
        · exact absurd hw'.symm hw
        · exact h
    · have hmem : old ∈ old :: rest := List.mem_cons_self
      have hk := hp.valid old hmem hv
      have hcount : (old :: rest).countP (LuaNode.stays t.sizearray)
          = rest.countP (LuaNode.stays t.sizearray)
            + if arrayslot t.sizearray old.key.tv = none then 1 else 0 := by
        rw [List.countP_cons]
        unfold LuaNode.stays
        rw [TValue.isNil_eq_false_iff.mpr hv]
        cases arrayslot t.sizearray old.key.tv <;> simp
      have hroom := hp.room
      rw [hcount] at hroom
      obtain ⟨t₀, s, hrun₀, hput⟩ := put_arrayornewkey hf hcall hk (hp.absent old hmem hv)
        (fun ha => ⟨hp.notNext old hmem hv, by rw [if_pos ha] at hroom; omega⟩) hv
      have hsa : (t₀.slotSet old.val s).sizearray = t.sizearray := hput.size.sizearray
      have hp' : Pending (t₀.slotSet old.val s) rest := by
        refine ⟨fun n hn => hp.valid n (List.mem_cons_of_mem _ hn), hdist.2, fun n hn hnv w hh => ?_,
          fun n hn => ?_, ?_⟩
        · rcases (hput.holds _ w (hp.valid n (List.mem_cons_of_mem _ hn) hnv)).mp hh with hh | ⟨_, _, he⟩
          · exact hp.absent n (List.mem_cons_of_mem _ hn) hnv w hh
          · rw [hdist.1 n hn hv hnv] at he
            cases he
        · rw [hsa]
          exact hp.notNext n (List.mem_cons_of_mem _ hn)
        · rw [hsa]
          have := hput.room
          omega
      obtain ⟨t', hrun, hfill, hsize, hroom', hholds⟩ := ih hput.fill hp'
      refine ⟨t', ?_, hfill, hput.size.trans hsize, ?_, fun k w hkv => ?_⟩
      · rw [TValue.isNil_eq_false_iff.mpr hv]
        rw [if_pos (by decide), TableM.bind_ok _ hrun₀]
        exact hrun
      · rw [hsa] at hroom'
        rw [hcount]
        have := hput.room
        omega
      · rw [hholds k w hkv, hput.holds k w hkv]
        simp only [List.mem_cons, exists_eq_or_imp]
        constructor
        · rintro ((h | ⟨hw, rfl, he⟩) | ⟨hw, h⟩)
          · exact Or.inl h
          · exact Or.inr ⟨hw, Or.inl ⟨rfl, he⟩⟩
          · exact Or.inr ⟨hw, Or.inr h⟩
        · rintro (h | ⟨hw, ⟨rfl, he⟩ | h⟩)
          · exact Or.inl (Or.inl h)
          · exact Or.inl (Or.inr ⟨hw, rfl, he⟩)
          · exact Or.inr ⟨hw, h⟩

/-- The number key of array slot `j`. -/
theorem rawequal_slotkey {j : ℕ} (hj : j < MAXSIZE) {k : TValue} :
    luaO_rawequalObj (.number (cast_num (j + 1))) k = true ↔ isNumberEq k (j + 1) = true := by
  have hj' : j < 2 ^ 26 := hj
  have hself : isNumberEq (.number (cast_num (j + 1))) (j + 1) = true :=
    isNumberEq_cast_num (by omega)
  constructor
  · intro h
    rw [← isNumberEq_congr h]
    exact hself
  · exact rawequal_of_isNumberEq hself

/-- **The array loop of `resize`** moves the vanishing slice into the hash part. -/
theorem reinsertArray_spec (hcall : Inserts E ins) (rest i : ℕ) (hf : Filling E t) (hi : t.sizearray ≤ i)
    (hmax : i + rest ≤ MAXSIZE) (hnext : t.arr t.sizearray = .nil)
    (habs : ∀ j, i ≤ j → j < i + rest → ∀ w, ¬ t.Holds (.number (cast_num (j + 1))) w)
    (hroom : (List.range' i rest).countP (fun j => !(t.arr j).isNil) ≤ t.room) :
    ∃ t', reinsertArray (ins) rest i t = .ok ⟨⟩ t' ∧ t'.array = t.array ∧
      Refilled E t ((List.range' i rest).countP fun j => !(t.arr j).isNil)
        (fun k w => ∃ j, i ≤ j ∧ j < i + rest ∧ t.arr j = w ∧ isNumberEq k (j + 1) = true) t' := by
  induction rest generalizing t i with
  | zero =>
    refine ⟨t, rfl, rfl, hf, SameSize.refl t, le_rfl, fun k w _ => ?_⟩
    constructor
    · exact Or.inl
    · rintro (h | ⟨_, j, h1, h2, _⟩)
      · exact h
      · omega
  | succ rest ih =>
    unfold reinsertArray
    rw [TableM.get_bind]
    have hM : MAXSIZE = 2 ^ 26 := rfl
    have himax : i < MAXSIZE := by omega
    rw [List.range'_succ, List.countP_cons] at hroom
    rw [List.range'_succ, List.countP_cons]
    by_cases hv : t.arr i = .nil
    · rw [TValue.isNil_iff.mpr hv] at hroom ⊢
      obtain ⟨t', hrun, harr, hfill, hsize, hroom', hholds⟩ := ih (i + 1) hf (by omega) (by omega) hnext
        (fun j h1 h2 => habs j (by omega) (by omega)) hroom
      refine ⟨t', hrun, harr, hfill, hsize, hroom', fun k w hk => ?_⟩
      rw [hholds k w hk]
      refine or_congr_right (and_congr_right fun hw => ?_)
      constructor
      · rintro ⟨j, h1, h2, h3⟩
        exact ⟨j, by omega, by omega, h3⟩
      · rintro ⟨j, h1, h2, h3, h4⟩
        have hji : j ≠ i := fun he => hw (by rw [← h3, he, hv])
        exact ⟨j, by omega, by omega, h3, h4⟩
    · rw [TValue.isNil_eq_false_iff.mpr hv] at hroom ⊢
      have hroom₁ : (List.range' (i + 1) rest).countP (fun j => !(t.arr j).isNil) + 1 ≤ t.room := hroom
      have hself : isNumberEq (.number (cast_num (i + 1))) (i + 1) = true :=
        isNumberEq_cast_num (by omega)
      have hk : (TValue.number (cast_num (i + 1))).ValidKey := validKey_of_isNumberEq hself
      have hsize := hf.inv.sizeMax
      have hhash : arrayslot t.sizearray (.number (cast_num (i + 1))) = none := by
        by_contra hne
        obtain ⟨j, hj⟩ := Option.ne_none_iff_exists'.mp hne
        obtain ⟨hj1, hj2⟩ := (arrayslot_eq_some_iff hsize).mp hj
        have := isNumberEq_inj (by omega) (by omega) hself hj1
        omega
      have hnot : isNumberEq (.number (cast_num (i + 1))) (t.sizearray + 1) = false := by
        rw [← Bool.not_eq_true]
        intro he
        have heq := isNumberEq_inj (by omega) (by omega) hself he
        have : t.sizearray = i := by omega
        exact hv (this ▸ hnext)
      obtain ⟨t₀, n, hrun₀, harr₀, hput⟩ := put_newkey hf hcall hk hhash hnot
        (habs i le_rfl (by omega)) (by omega) hv
      have hsa : (t₀.slotSet (t.arr i) (.node n)).sizearray = t.sizearray := hput.size.sizearray
      have harr₁ : (t₀.slotSet (t.arr i) (.node n)).array = t.array := harr₀
      have harr : ∀ j, (t₀.slotSet (t.arr i) (.node n)).arr j = t.arr j := fun j => by
        show (t₀.slotSet (t.arr i) (.node n)).array.getD j .nil = _
        rw [harr₁]
        rfl
      obtain ⟨t', hrun, harr', hfill, hsize', hroom', hholds⟩ := ih (t := t₀.slotSet (t.arr i) (.node n))
        (i + 1) hput.fill (by omega) (by omega) (by rw [hsa, harr]; exact hnext)
        (fun j h1 h2 w hh => by
          have hjself : isNumberEq (.number (cast_num (j + 1))) (j + 1) = true :=
            isNumberEq_cast_num (by omega)
          rcases (hput.holds _ w (validKey_of_isNumberEq hjself)).mp hh with hh | ⟨_, _, he⟩
          · exact habs j (by omega) (by omega) w hh
          · have := isNumberEq_inj (by omega) (by omega) ((rawequal_slotkey himax).mp he) hjself
            omega)
        (by
          simp only [harr]
          have := hput.room
          omega)
      simp only [harr] at hroom' hholds
      refine ⟨t', ?_, harr'.trans harr₁, hfill, hput.size.trans hsize', ?_, fun k w hkv => ?_⟩
      · rw [if_pos (by decide), TableM.bind_ok _ hrun₀]
        exact hrun
      · have := hput.room
        simp only [Bool.not_false, if_true]
        omega
      · rw [hholds k w hkv, hput.holds k w hkv, rawequal_slotkey himax]
        constructor
        · rintro ((h | ⟨hw, rfl, he⟩) | ⟨hw, j, h1, h2, h3⟩)
          · exact Or.inl h
          · exact Or.inr ⟨hw, i, le_rfl, by omega, rfl, he⟩
          · exact Or.inr ⟨hw, j, by omega, by omega, h3⟩
        · rintro (h | ⟨hw, j, h1, h2, h3, h4⟩)
          · exact Or.inl (Or.inl h)
          · by_cases hji : j = i
            · exact Or.inl (Or.inr ⟨hw, by rw [← h3, hji], hji ▸ h4⟩)
            · exact Or.inr ⟨hw, j, by omega, by omega, h3, h4⟩

end Loops

/-! ### The new parts -/

section NewParts

variable {E : Env} {t : LuaTable} {size : ℕ}

/-- Every allocation succeeds. -/
def Env.Roomy (E : Env) : Prop := ∀ t n, E.alloc t n = true

theorem luaM_alloc_ok {n : ℕ} (hn : 0 < n → E.alloc t n = true) : luaM_alloc E n t = .ok ⟨⟩ t := by
  unfold luaM_alloc
  have hno : ¬(0 < n ∧ E.alloc t n = false) := by
    rintro ⟨hpos, hf⟩
    rw [hn hpos] at hf
    cases hf
  rw [TableM.get_bind, if_neg hno]
  rfl

theorem luaM_alloc_errmem {n : ℕ} (hpos : 0 < n) (hf : E.alloc t n = false) :
    luaM_alloc E n t = .error .errmem t := by
  unfold luaM_alloc
  rw [TableM.get_bind]
  exact congrFun (if_pos ⟨hpos, hf⟩) t

/-- The number of nodes a hash part made for `size` elements has. -/
def capacity (size : ℕ) : ℕ := if size = 0 then 0 else 2 ^ ceillog2 size

theorem le_capacity (size : ℕ) : size ≤ capacity size := by
  unfold capacity
  split
  · omega
  · exact le_two_pow_ceillog2 size

/-- The table after `setnodevector`. -/
def LuaTable.freshNodes (t : LuaTable) (size : ℕ) : LuaTable :=
  { t with
    node := if size = 0 then none else some (List.replicate (capacity size) luaH_dummynode)
    lsizenode := ceillog2 size
    lastfree := capacity size }

theorem setnodevector_eq (hs : size ≤ MAXSIZE) (h0 : size ≠ 0) :
    setnodevector E size = luaM_alloc E (capacity size * sizeofLuaNode) >>= fun _ => modify (·.freshNodes size) := by
  unfold setnodevector LuaTable.freshNodes capacity
  simp only [h0, if_false]
  rw [if_neg (not_lt.mpr (ceillog2_le hs))]

theorem setnodevector_ok (hs : size ≤ MAXSIZE)
    (halloc : size ≠ 0 → E.alloc t (capacity size * sizeofLuaNode) = true) :
    setnodevector E size t = .ok ⟨⟩ (t.freshNodes size) := by
  by_cases h0 : size = 0
  · subst h0
    have hlog : ceillog2 0 = 0 := by
      rw [ceillog2_eq]
      rfl
    unfold setnodevector LuaTable.freshNodes capacity
    simp only [if_true, hlog]
    rfl
  · rw [setnodevector_eq hs h0, TableM.bind_ok _ (luaM_alloc_ok fun _ => halloc h0)]
    rfl

theorem setnodevector_errmem (hs : size ≤ MAXSIZE) (h0 : size ≠ 0)
    (halloc : E.alloc t (capacity size * sizeofLuaNode) = false) :
    setnodevector E size t = .error .errmem t := by
  have hpos : 0 < capacity size * sizeofLuaNode :=
    Nat.mul_pos ((Nat.pos_of_ne_zero h0).trans_le (le_capacity size)) (by decide)
  rw [setnodevector_eq hs h0, TableM.bind_error _ (luaM_alloc_errmem hpos halloc)]

theorem setnodevector_run (ha : E.Roomy) (hs : size ≤ MAXSIZE) :
    setnodevector E size t = .ok ⟨⟩ (t.freshNodes size) :=
  setnodevector_ok hs fun _ => ha _ _

theorem setarrayvector_ok (hs : size ≤ MAXSIZE) (halloc : 0 < size → E.alloc t (size * sizeofTValue) = true) :
    setarrayvector E size t = .ok ⟨⟩
      { t with
        array := t.array.take t.sizearray ++ List.replicate (size - t.sizearray) .nil
        sizearray := size } := by
  have hrun : luaM_alloc E (size * sizeofTValue) t = .ok ⟨⟩ t :=
    luaM_alloc_ok fun hpos => halloc (Nat.pos_of_mul_pos_right hpos)
  unfold setarrayvector
  rw [if_neg (not_lt.mpr hs)]
  exact (TableM.bind_ok _ hrun).trans rfl

theorem setarrayvector_errmem (hs : size ≤ MAXSIZE) (hpos : 0 < size)
    (halloc : E.alloc t (size * sizeofTValue) = false) : setarrayvector E size t = .error .errmem t := by
  have hrun : luaM_alloc E (size * sizeofTValue) t = .error .errmem t :=
    luaM_alloc_errmem (Nat.mul_pos hpos (by decide)) halloc
  unfold setarrayvector
  rw [if_neg (not_lt.mpr hs)]
  exact (TableM.bind_error _ hrun).trans rfl

theorem setarrayvector_run (ha : E.Roomy) (hs : size ≤ MAXSIZE) :
    setarrayvector E size t = .ok ⟨⟩
      { t with
        array := t.array.take t.sizearray ++ List.replicate (size - t.sizearray) .nil
        sizearray := size } :=
  setarrayvector_ok hs fun _ => ha _ _

theorem gnode_freshNodes (i : ℕ) : (t.freshNodes size).gnode i = luaH_dummynode := by
  unfold LuaTable.gnode LuaTable.freshNodes
  by_cases h0 : size = 0
  · rcases i with _ | i <;> simp [h0]
  · simp only [h0, if_false, Option.getD_some, List.getD_eq_getElem?_getD,
      List.getElem?_replicate]
    split <;> rfl

theorem gkey_freshNodes (i : ℕ) : (t.freshNodes size).gkey i = .nil := by
  rw [LuaTable.gkey, gnode_freshNodes]
  rfl

theorem gval_freshNodes (i : ℕ) : (t.freshNodes size).gval i = .nil := by
  rw [LuaTable.gval, gnode_freshNodes]
  rfl

theorem gnext_freshNodes (i : ℕ) : (t.freshNodes size).gnext i = 0 := by
  rw [LuaTable.gnext, gnode_freshNodes]
  rfl

theorem nodeCount_freshNodes : (t.freshNodes size).nodeCount = capacity size := by
  unfold LuaTable.nodeCount LuaTable.freshNodes
  by_cases h0 : size = 0
  · simp [h0, capacity]
  · simp [h0]

theorem room_freshNodes : (t.freshNodes size).room = capacity size := by
  unfold LuaTable.room
  rw [Finset.filter_true_of_mem fun j _ => gkey_freshNodes j, nodeCount_freshNodes,
    Finset.card_range]

/-- A new hash part is empty, so nothing can be wrong with it. -/
theorem filling_freshNodes (hlen : t.sizearray ≤ t.array.length) (hmax : t.sizearray ≤ MAXSIZE)
    (hs : size ≤ MAXSIZE) : Filling E (t.freshNodes size) := by
  have hlink : (t.freshNodes size).link = fun _ => none := by
    funext i
    exact LuaTable.link_eq_none_iff.mpr (gnext_freshNodes i)
  have hkeyed : ∀ i, ¬ (t.freshNodes size).Keyed i := fun i hi =>
    hi.ne_nil (gkey_freshNodes i)
  refine ⟨?_, fun j hj => absurd (gkey_freshNodes j) hj⟩
  refine
    { arrayLen := hlen
      sizeMax := hmax
      dummySize := fun hn => ?_
      nodeSize := fun hn => ?_
      offset := fun i hi => absurd (gnext_freshNodes i) hi
      inRange := by simp [hlink]
      ranked := ⟨fun _ => 0, by simp [hlink]⟩
      unshared := by simp [hlink, Unshared]
      unused := fun i _ => ⟨gval_freshNodes i, by simp [hlink, Fresh]⟩
      keys := fun i => Or.inl (gkey_freshNodes i)
      reach := fun i hi => absurd hi (hkeyed i)
      unique := fun i _ hi => absurd hi (hkeyed i)
      head := fun i hi => absurd hi (hkeyed i)
      hashOnly := fun i hi => absurd hi (hkeyed i)
      boundary := fun i hi => absurd hi (hkeyed i)
      freeBelow := fun i hi hle => ?_
      freeMax := ?_
      aboundary := ?_ }
  · by_cases h0 : size = 0
    · rw [h0, LuaTable.freshNodes, ceillog2_eq]
      rfl
    · simp [LuaTable.freshNodes, h0] at hn
  · have h0 : size ≠ 0 := fun h0 => hn (by simp [LuaTable.freshNodes, h0])
    rw [nodeCount_freshNodes, capacity, if_neg h0]
    exact ⟨rfl, ceillog2_le hs⟩
  · rw [nodeCount_freshNodes] at hi
    have : ((capacity size : ℕ) : ℤ) ≤ i := hle
    omega
  · rw [nodeCount_freshNodes]
    exact le_rfl
  · show -((capacity size : ℕ) : ℤ) ≤ _
    omega

end NewParts

/-! ### The whole of `resize` -/

section Resize

variable {E : Env} {t t' : LuaTable} {nasize nhsize : ℕ} {ins : Inserter}

/-- The table before anything is re-inserted. -/
def LuaTable.newParts (t : LuaTable) (nasize nhsize : ℕ) : LuaTable :=
  LuaTable.freshNodes
    { t with
      array := t.array ++ List.replicate (nasize - t.sizearray) .nil
      sizearray := nasize } nhsize

theorem arr_newParts (hlen : t.array.length = t.sizearray) (i : ℕ) :
    (t.newParts nasize nhsize).arr i = t.arr i := by
  show (t.array ++ List.replicate (nasize - t.sizearray) TValue.nil).getD i .nil = t.array.getD i .nil
  simp only [List.getD_eq_getElem?_getD, List.getElem?_append, List.getElem?_replicate]
  by_cases hi : i < t.array.length
  · simp [hi]
  · rw [if_neg hi, List.getElem?_eq_none (by omega)]
    split <;> rfl

/-- The table after `setarrayvector`. -/
def LuaTable.grown (t : LuaTable) (nasize : ℕ) : LuaTable :=
  { t with
    array := t.array ++ List.replicate (nasize - t.sizearray) .nil
    sizearray := nasize }

/-- The table in which `resize` allocates its hash part. -/
def LuaTable.widened (t : LuaTable) (nasize : ℕ) : LuaTable :=
  if t.sizearray < nasize then t.grown nasize else t

/-- What an allocation of `resize` that fails leaves of a table. -/
inductive Short (E : Env) (t : LuaTable) (nasize nhsize : ℕ) : LuaTable → Prop
  | array (grows : t.sizearray < nasize) (fails : E.alloc t (nasize * sizeofTValue) = false) : Short E t nasize nhsize t
  | nodes (limit : nasize ≤ MAXSIZE) (given : t.sizearray < nasize → E.alloc t (nasize * sizeofTValue) = true)
      (asked : nhsize ≠ 0)
      (fails : E.alloc (t.widened nasize) (capacity nhsize * sizeofLuaNode) = false) :
      Short E t nasize nhsize (t.widened nasize)
  | shrunk {t₁ : LuaTable} (shrinks : nasize < t.sizearray)
      (given : nhsize ≠ 0 → E.alloc t (capacity nhsize * sizeofLuaNode) = true)
      (fails : E.alloc t₁ (nasize * sizeofTValue) = false)
      (sizearray : t₁.sizearray = nasize) (arrayLen : t₁.array.length = t.array.length) :
      Short E t nasize nhsize t₁

theorem Short.not_roomy {t' : LuaTable} (h : Short E t nasize nhsize t') : ¬E.Roomy := by
  intro ha
  cases h with
  | array grows fails =>
    rw [ha] at fails
    cases fails
  | nodes limit given asked fails =>
    rw [ha] at fails
    cases fails
  | shrunk shrinks given fails =>
    rw [ha] at fails
    cases fails

theorem shrinkarray_ok (newkey : Inserter) {oldasize : ℕ} {t₁ : LuaTable}
    (harray : reinsertArray newkey (oldasize - nasize) nasize { t with sizearray := nasize } = .ok ⟨⟩ t₁)
    (halloc : 0 < nasize * sizeofTValue → E.alloc t₁ (nasize * sizeofTValue) = true) :
    shrinkarray E newkey nasize oldasize t
      = .ok ⟨⟩ { t₁ with array := t₁.array.take nasize } := by
  unfold shrinkarray
  rw [TableM.modify_bind, TableM.bind_ok _ harray, TableM.bind_ok _ (luaM_alloc_ok halloc)]
  rfl

theorem shrinkarray_errmem (newkey : Inserter) {oldasize : ℕ} {t₁ : LuaTable}
    (harray : reinsertArray newkey (oldasize - nasize) nasize { t with sizearray := nasize } = .ok ⟨⟩ t₁)
    (hpos : 0 < nasize * sizeofTValue) (halloc : E.alloc t₁ (nasize * sizeofTValue) = false) :
    shrinkarray E newkey nasize oldasize t = .error .errmem t₁ := by
  unfold shrinkarray
  rw [TableM.modify_bind, TableM.bind_ok _ harray, TableM.bind_error _ (luaM_alloc_errmem hpos halloc)]

/-- `resize`, when its re-insertions succeed: only an allocation can fail. -/
theorem resize_run (newkey : Inserter) (hlen : t.array.length = t.sizearray)
    (hna : nasize ≤ MAXSIZE) (hnh : nhsize ≤ MAXSIZE) {t₁ t₂ : LuaTable}
    (harray : reinsertArray newkey (t.sizearray - nasize) nasize (t.newParts nasize nhsize)
      = .ok ⟨⟩ t₁)
    (hsize : t₁.sizearray = nasize) (hkeep : nasize < t.sizearray → t₁.array.length = t.array.length)
    (hnodes : reinsertNodes newkey t.nodes.reverse { t₁ with array := t₁.array.take nasize }
      = .ok ⟨⟩ t₂) :
    resize E newkey nasize nhsize t = .ok ⟨⟩ t₂ ∨
      ∃ t', resize E newkey nasize nhsize t = .error .errmem t' ∧ Short E t nasize nhsize t' := by
  unfold resize
  rw [if_neg (by omega)]
  simp only [TableM.get_bind]
  by_cases hgrow : t.sizearray < nasize
  · -- the array grows: nothing vanishes
    have hzero : t.sizearray - nasize = 0 := by omega
    have hwide : t.widened nasize = t.grown nasize := if_pos hgrow
    rw [hzero] at harray
    have ht₁ : t.newParts nasize nhsize = t₁ := (EStateM.Result.ok.inj harray).2
    have htake : t₁.array.take nasize = t₁.array := by
      rw [List.take_of_length_le]
      rw [← ht₁]
      show (t.array ++ List.replicate (nasize - t.sizearray) TValue.nil).length ≤ nasize
      simp only [List.length_append, List.length_replicate]
      omega
    rw [htake] at hnodes
    rw [if_pos hgrow]
    cases harr : E.alloc t (nasize * sizeofTValue) with
    | false =>
      refine Or.inr ⟨t, ?_, .array hgrow harr⟩
      rw [TableM.bind_error _ (setarrayvector_errmem hna (by omega) harr)]
    | true =>
      rw [TableM.bind_ok _ (setarrayvector_ok hna fun _ => harr), List.take_of_length_le hlen.le]
      by_cases hfail : nhsize ≠ 0 ∧ E.alloc (t.grown nasize) (capacity nhsize * sizeofLuaNode) = false
      · have hshort : Short E t nasize nhsize (t.widened nasize) :=
          .nodes hna (fun _ => harr) hfail.1 (by rw [hwide]; exact hfail.2)
        rw [hwide] at hshort
        refine Or.inr ⟨t.grown nasize, ?_, hshort⟩
        exact TableM.bind_error _ (setnodevector_errmem hnh hfail.1 hfail.2)
      · left
        have hnode : setnodevector E nhsize (t.grown nasize) = .ok ⟨⟩ ((t.grown nasize).freshNodes nhsize) :=
          setnodevector_ok hnh fun h0 => Bool.of_not_eq_false fun hf => hfail ⟨h0, hf⟩
        rw [← ht₁] at hnodes
        refine (TableM.bind_ok _ hnode).trans ?_
        rw [if_neg (by omega)]
        exact hnodes
  · have hparts : t.array ++ List.replicate (nasize - t.sizearray) TValue.nil = t.array := by
      rw [show nasize - t.sizearray = 0 from by omega, List.replicate_zero, List.append_nil]
    have hwide : t.widened nasize = t := if_neg hgrow
    rw [if_neg hgrow]
    by_cases hfail : nhsize ≠ 0 ∧ E.alloc t (capacity nhsize * sizeofLuaNode) = false
    · have hshort : Short E t nasize nhsize (t.widened nasize) :=
        .nodes hna (fun hlt => absurd hlt hgrow) hfail.1 (by rw [hwide]; exact hfail.2)
      rw [hwide] at hshort
      refine Or.inr ⟨t, ?_, hshort⟩
      exact TableM.bind_error _ (setnodevector_errmem hnh hfail.1 hfail.2)
    · have hgiven : nhsize ≠ 0 → E.alloc t (capacity nhsize * sizeofLuaNode) = true := fun h0 =>
        Bool.of_not_eq_false fun hf => hfail ⟨h0, hf⟩
      rw [TableM.bind_ok _ (setnodevector_ok hnh hgiven)]
      by_cases hshrink : nasize < t.sizearray
      · rw [if_pos hshrink]
        have hstart : { t.freshNodes nhsize with sizearray := nasize } = t.newParts nasize nhsize := by
          unfold LuaTable.newParts LuaTable.freshNodes
          rw [hparts]
        by_cases hcut : 0 < nasize * sizeofTValue ∧ E.alloc t₁ (nasize * sizeofTValue) = false
        · refine Or.inr ⟨t₁, ?_, .shrunk hshrink hgiven hcut.2 hsize (hkeep hshrink)⟩
          rw [TableM.bind_error _ (shrinkarray_errmem newkey (hstart ▸ harray) hcut.1 hcut.2)]
        · left
          rw [TableM.bind_ok _ (shrinkarray_ok newkey (hstart ▸ harray) fun hpos =>
            Bool.of_not_eq_false fun hf => hcut ⟨hpos, hf⟩)]
          exact hnodes
      · left
        have heq : nasize = t.sizearray := by omega
        have hzero : t.sizearray - nasize = 0 := by omega
        rw [hzero] at harray
        have ht₁ : t.newParts nasize nhsize = t₁ := (EStateM.Result.ok.inj harray).2
        have hstart : t.freshNodes nhsize = { t₁ with array := t₁.array.take nasize } := by
          rw [← ht₁]
          unfold LuaTable.newParts LuaTable.freshNodes
          rw [hparts, heq, List.take_of_length_le hlen.le]
        rw [if_neg hshrink, hstart]
        exact hnodes

/-- The entries of a table, part by part. -/
theorem holds_iff_entries (hmax : t.sizearray ≤ MAXSIZE) {k w : TValue} :
    t.Holds k w ↔ w ≠ .nil ∧
      ((∃ i, i < t.sizearray ∧ t.arr i = w ∧ isNumberEq k (i + 1) = true) ∨
        ∃ n ∈ t.nodes, n.val = w ∧ luaO_rawequalObj n.key.tv k = true) := by
  refine and_congr_right fun hw => ?_
  constructor
  · rintro ⟨s, hs, hget⟩
    cases s with
    | nilobject => exact hs.elim
    | array i =>
      obtain ⟨hi, hlt⟩ := (arrayslot_eq_some_iff hmax).mp hs
      exact Or.inl ⟨i, hlt, hget, hi⟩
    | node i =>
      have hget : (t.gnode i).val = w := hget
      have hlt : i < t.nodes.length := by
        by_contra hge
        have hd : t.gnode i = luaH_dummynode := by
          show t.nodes.getD i luaH_dummynode = _
          rw [List.getD_eq_getElem?_getD, List.getElem?_eq_none (not_lt.mp hge)]
          rfl
        rw [hd] at hget
        exact hw hget.symm
      have hmem : t.gnode i ∈ t.nodes := by
        show t.nodes.getD i luaH_dummynode ∈ t.nodes
        rw [List.getD_eq_getElem?_getD, List.getElem?_eq_getElem hlt]
        exact List.getElem_mem hlt
      exact Or.inr ⟨t.gnode i, hmem, hget, hs⟩
  · rintro (⟨i, hlt, hget, hi⟩ | ⟨n, hmem, hget, he⟩)
    · exact ⟨.array i, (arrayslot_eq_some_iff hmax).mpr ⟨hi, hlt⟩, hget⟩
    · obtain ⟨i, hlt, rfl⟩ := List.mem_iff_getElem.mp hmem
      have hnode : t.gnode i = t.nodes[i] := by
        show t.nodes.getD i luaH_dummynode = _
        rw [List.getD_eq_getElem?_getD, List.getElem?_eq_getElem hlt]
        rfl
      refine ⟨.node i, ?_, ?_⟩
      · show luaO_rawequalObj (t.gnode i).key.tv k = true
        rw [hnode]
        exact he
      · show (t.gnode i).val = w
        rw [hnode]
        exact hget

/-- The number of elements that go to the hash part of a table with `nasize` array slots. -/
def LuaTable.outside (t : LuaTable) (nasize : ℕ) : ℕ :=
  t.nodes.countP (LuaNode.stays nasize)
    + (List.range' nasize (t.sizearray - nasize)).countP fun i => !(t.arr i).isNil

/-- What `resize` makes of a table. -/
structure Resized (E : Env) (t : LuaTable) (nasize nhsize : ℕ) (t' : LuaTable) : Prop where
  fill : Filling E t'
  sizearray : t'.sizearray = nasize
  arrayLen : t'.array.length = nasize
  room : capacity nhsize ≤ t'.room + t.outside nasize
  holds : ∀ k w, k.ValidKey → (t'.Holds k w ↔ t.Holds k w)

/-- The node list of a table is a list of pending nodes with distinct keys. -/
theorem Inv.nodes_distinct (h : Inv E t) :
    (∀ n ∈ t.nodes, n.val ≠ .nil → n.key.tv.ValidKey) ∧
    t.nodes.Pairwise fun a b =>
      a.val ≠ .nil → b.val ≠ .nil → luaO_rawequalObj a.key.tv b.key.tv = false := by
  have hnode : ∀ i (hlt : i < t.nodes.length), t.gnode i = t.nodes[i] := fun i hlt => by
    show t.nodes.getD i luaH_dummynode = _
    rw [List.getD_eq_getElem?_getD, List.getElem?_eq_getElem hlt]
    rfl
  have hkeyed : ∀ i (hlt : i < t.nodes.length), t.nodes[i].val ≠ .nil → t.Keyed i :=
    fun i hlt hv => h.keyed_of_val (by
      rw [LuaTable.gval, hnode i hlt]
      exact hv)
  constructor
  · intro n hn hv
    obtain ⟨i, hlt, rfl⟩ := List.mem_iff_getElem.mp hn
    rw [← hnode i hlt]
    exact hkeyed i hlt hv
  · rw [List.pairwise_iff_getElem]
    intro i j hi hj hij hvi hvj
    rw [← Bool.not_eq_true]
    intro he
    rw [← hnode i hi, ← hnode j hj] at he
    exact absurd (h.unique i j (hkeyed i hi hvi) (hkeyed j hj hvj) he) (by omega)

/-- Re-insertion into the new parts.  If the new hash part holds everything that belongs there and the
key behind the new array part is absent, it never grows the table again. -/
theorem reinsert_spec (h : Inv E t) (hlen : t.array.length = t.sizearray)
    (hna : nasize ≤ MAXSIZE) (hnh : nhsize ≤ MAXSIZE)
    (hfits : t.outside nasize ≤ capacity nhsize)
    (hnext : ∀ k w, isNumberEq k (nasize + 1) = true → ¬ t.Holds k w) (hcall : Inserts E ins) :
    ∃ t₁ t₂, reinsertArray (ins) (t.sizearray - nasize) nasize
        (t.newParts nasize nhsize) = .ok ⟨⟩ t₁ ∧
      reinsertNodes (ins) t.nodes.reverse
        { t₁ with array := t₁.array.take nasize } = .ok ⟨⟩ t₂ ∧
      t₁.sizearray = nasize ∧ (nasize < t.sizearray → t₁.array.length = t.array.length) ∧
      Resized E t nasize nhsize t₂ := by
  have hM : MAXSIZE = 2 ^ 26 := rfl
  have hold := h.sizeMax
  set t₀ := t.newParts nasize nhsize with ht₀
  have harr : ∀ i, t₀.arr i = t.arr i := arr_newParts hlen
  have hsize₀ : t₀.sizearray = nasize := rfl
  have hlen₀ : t₀.array.length = t.array.length + (nasize - t.sizearray) := by
    show (t.array ++ List.replicate (nasize - t.sizearray) TValue.nil).length = _
    simp
  have hroom₀ : t₀.room = capacity nhsize := room_freshNodes
  have hfill₀ : Filling E t₀ := by
    refine filling_freshNodes ?_ hna hnh
    show nasize ≤ (t.array ++ List.replicate (nasize - t.sizearray) TValue.nil).length
    simp only [List.length_append, List.length_replicate]
    omega
  -- the entries of the new table are the array slots that stay
  have hholds₀ : ∀ k w, t₀.Holds k w → w ≠ .nil ∧
      ∃ i, i < nasize ∧ t.arr i = w ∧ isNumberEq k (i + 1) = true := by
    rintro k w ⟨hw, s, hs, hget⟩
    cases s with
    | nilobject => exact hs.elim
    | array i =>
      obtain ⟨hi, hlt⟩ := (arrayslot_eq_some_iff hna).mp hs
      exact ⟨hw, i, hlt, (harr i).symm.trans hget, hi⟩
    | node i => exact absurd (hget.symm.trans (gval_freshNodes i)) hw
  have hholdsArr : ∀ i k, i < t.sizearray → t.arr i ≠ .nil → isNumberEq k (i + 1) = true →
      t.Holds k (t.arr i) := fun i k hi hv hk =>
    ⟨hv, .array i, (arrayslot_eq_some_iff hold).mpr ⟨hk, hi⟩, rfl⟩
  have hbeyond : ∀ i, t.sizearray ≤ i → t.arr i = .nil := fun i hi => by
    unfold LuaTable.arr
    rw [List.getD_eq_getElem?_getD, List.getElem?_eq_none (by omega)]
    rfl
  have hnextArr : t.arr nasize = .nil := by
    by_contra hv
    have hlt : nasize < t.sizearray := by
      by_contra hge
      exact hv (hbeyond _ (not_lt.mp hge))
    exact hnext (.number (cast_num (nasize + 1))) _ (isNumberEq_cast_num (by omega))
      (hholdsArr _ _ hlt hv (isNumberEq_cast_num (by omega)))
  unfold LuaTable.outside at hfits
  -- the vanishing slice
  have hcount : (List.range' nasize (t.sizearray - nasize)).countP (fun i => !(t₀.arr i).isNil)
      = (List.range' nasize (t.sizearray - nasize)).countP fun i => !(t.arr i).isNil := by
    simp only [harr]
  by_cases hcase : nasize + (t.sizearray - nasize) ≤ MAXSIZE
  swap
  · omega
  obtain ⟨t₁, hrun₁, hkeep₁, hfill₁, hsize₁, hroom₁, hholds₁⟩ := reinsertArray_spec hcall
    (t.sizearray - nasize) nasize hfill₀ le_rfl hcase (by rw [hsize₀, harr]; exact hnextArr)
    (fun j hj hlt w hh => by
      obtain ⟨_, i, hi, _, he⟩ := hholds₀ _ _ hh
      have := isNumberEq_inj (by omega) (by omega) (isNumberEq_cast_num (by omega)) he
      omega)
    (by rw [hcount, hroom₀]; omega)
  simp only [harr] at hholds₁ hroom₁
  have hsa₁ : t₁.sizearray = nasize := hsize₁.sizearray
  -- the array block is cut to its new size
  have hlen₁ : (t₁.array.take nasize).length = nasize := by
    rw [List.length_take, hkeep₁, hlen₀]
    omega
  set t₂ : LuaTable := { t₁ with array := t₁.array.take nasize } with ht₂
  have harrayLen₂ : t₂.sizearray ≤ t₂.array.length := by
    show t₁.sizearray ≤ (t₁.array.take nasize).length
    omega
  have hfill₂ : Filling E t₂ := ⟨{ hfill₁.inv with arrayLen := harrayLen₂ }, hfill₁.live⟩
  have hget₂ : ∀ k s, t₁.SlotOf k s → t₂.slotGet s = t₁.slotGet s := by
    intro k s hs
    cases s with
    | array i =>
      obtain ⟨_, hlt⟩ := (arrayslot_eq_some_iff (hsa₁ ▸ hna)).mp hs
      show (t₁.array.take nasize).getD i .nil = t₁.array.getD i .nil
      rw [List.getD_eq_getElem?_getD, List.getD_eq_getElem?_getD, List.getElem?_take_of_lt (by omega)]
    | _ => rfl
  have hholds₂ : ∀ k w, t₂.Holds k w ↔ t₁.Holds k w := by
    intro k w
    refine and_congr_right fun _ => exists_congr fun s => and_congr_right fun hs => ?_
    rw [hget₂ k s hs]
  have hentries : ∀ k w, k.ValidKey → (t₂.Holds k w ↔ w ≠ .nil ∧
      ∃ i, i < t.sizearray ∧ t.arr i = w ∧ isNumberEq k (i + 1) = true) := by
    intro k w hk
    rw [hholds₂, hholds₁ k w hk]
    constructor
    · rintro (hh | ⟨hw, j, h1, h2, h3, h4⟩)
      · obtain ⟨hw, i, _, hi, he⟩ := hholds₀ k w hh
        refine ⟨hw, i, ?_, hi, he⟩
        by_contra hge
        exact hw (hi.symm.trans (hbeyond i (not_lt.mp hge)))
      · exact ⟨hw, j, by omega, h3, h4⟩
    · rintro ⟨hw, i, hi, hget, he⟩
      by_cases hlt : i < nasize
      · exact Or.inl ⟨hw, .array i, (arrayslot_eq_some_iff hna).mpr ⟨he, hlt⟩,
          (harr i).trans hget⟩
      · exact Or.inr ⟨hw, i, by omega, by omega, hget, he⟩
  -- the old nodes
  obtain ⟨hvalid, hdistinct⟩ := h.nodes_distinct
  have hholdsNode : ∀ n ∈ t.nodes, n.val ≠ .nil → t.Holds n.key.tv n.val := fun n hn hv =>
    (holds_iff_entries hold).mpr
      ⟨hv, Or.inr ⟨n, hn, rfl, rawequal_refl (hvalid n hn hv)⟩⟩
  have hpending : Pending t₂ t.nodes.reverse := by
    refine ⟨fun n hn => hvalid n (List.mem_reverse.mp hn), ?_, fun n hn hv w hh => ?_,
      fun n hn hv => ?_, ?_⟩
    · rw [List.pairwise_reverse]
      refine hdistinct.imp fun hab hb ha => ?_
      rw [rawequal_comm]
      exact hab ha hb
    · -- a node key is not a key of the old array part
      have hk := hvalid n (List.mem_reverse.mp hn) hv
      obtain ⟨hw, i, hi, hget, he⟩ := (hentries _ w hk).mp hh
      obtain ⟨j, hlt, hj⟩ := List.mem_iff_getElem.mp (List.mem_reverse.mp hn)
      have hnode : t.gnode j = n := by
        show t.nodes.getD j luaH_dummynode = _
        rw [List.getD_eq_getElem?_getD, List.getElem?_eq_getElem hlt, Option.getD_some, hj]
      have hkj : t.gkey j = n.key.tv := by rw [LuaTable.gkey, hnode]
      have hno := h.hashOnly j (by rw [LuaTable.Keyed, hkj]; exact hk)
      rw [hkj, (arrayslot_eq_some_iff hold).mpr ⟨he, hi⟩] at hno
      cases hno
    · show isNumberEq n.key.tv (t₁.sizearray + 1) = false
      rw [hsa₁, ← Bool.not_eq_true]
      exact fun he => hnext _ _ he (hholdsNode n (List.mem_reverse.mp hn) hv)
    · have hroom₂ : t₂.room = t₁.room := rfl
      show t.nodes.reverse.countP (LuaNode.stays t₁.sizearray) ≤ t₂.room
      rw [hsa₁, List.countP_reverse, hroom₂]
      omega
  obtain ⟨t₃, hrun₃, hfill₃, hsize₃, hroom₃, hholds₃⟩ :=
    reinsertNodes_spec hcall t.nodes.reverse hfill₂ hpending
  refine ⟨t₁, t₃, hrun₁, hrun₃, hsa₁, fun hlt => ?_, hfill₃, hsize₃.sizearray.trans hsa₁,
    hsize₃.arrayLen.trans hlen₁, ?_, fun k w hk => ?_⟩
  · rw [hkeep₁, hlen₀, show nasize - t.sizearray = 0 from by omega, Nat.add_zero]
  · have hsa₂ : t₂.sizearray = nasize := hsa₁
    rw [hsa₂, List.countP_reverse] at hroom₃
    have hroom₂ : t₂.room = t₁.room := rfl
    unfold LuaTable.outside
    omega
  · rw [hholds₃ k w hk, hentries k w hk, holds_iff_entries hold, ← and_or_left]
    simp only [List.mem_reverse]

/-- **`resize` keeps the map.**  If the new hash part holds everything that belongs there and the key
behind the new array part is absent, the result is a well-formed table of the sizes asked for with the
same entries; otherwise an allocation failed. -/
theorem resize_outcomes (h : Inv E t) (hlen : t.array.length = t.sizearray)
    (hna : nasize ≤ MAXSIZE) (hnh : nhsize ≤ MAXSIZE)
    (hfits : t.outside nasize ≤ capacity nhsize)
    (hnext : ∀ k w, isNumberEq k (nasize + 1) = true → ¬ t.Holds k w) (hcall : Inserts E ins) :
    (∃ t', resize E ins nasize nhsize t = .ok ⟨⟩ t' ∧ Resized E t nasize nhsize t') ∨
      ∃ t', resize E ins nasize nhsize t = .error .errmem t' ∧ Short E t nasize nhsize t' := by
  obtain ⟨t₁, t₂, harray, hnodes, hsize, hkeep, hres⟩ := reinsert_spec h hlen hna hnh hfits hnext hcall
  rcases resize_run ins hlen hna hnh harray hsize hkeep hnodes with hrun | hshort
  · exact Or.inl ⟨t₂, hrun, hres⟩
  · exact Or.inr hshort

/-- A size beyond the limit is refused before anything changes. -/
theorem resize_overflow (newkey : Inserter) (h : MAXSIZE < nasize ∨ MAXSIZE < nhsize) :
    resize E newkey nasize nhsize t = .error (.runerror "table overflow") t := by
  unfold resize
  rw [if_pos h]
  rfl

end Resize

end Luwu
