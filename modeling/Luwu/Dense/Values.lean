import Luwu.Dense.Ops

/-!
# The values of a DenseHashMap

What a map holds for a key, and how the operations change it.
-/

namespace Luwu.DenseHash

open Function Luwu.Dense Luwu.Association Luwu.OpenAddressing

section Lists

variable {κ α : Type} [BEq κ] {key : α → κ} {l : List α} {k k' : κ} {a : α}

theorem get_cons : get key (a :: l) k' = if key a == k' then some a else get key l k' := by
  unfold Association.get
  rw [List.find?_cons]
  split
  · next h => rw [if_pos h]
  · next h => rw [if_neg (by rw [h]; exact Bool.false_ne_true)]

theorem get_modify {f : α → α} (hf : ∀ a, key (f a) = key a) :
    get key (modify key l k f) k' = (get key l k').map fun a => if key a == k then f a else a := by
  have hkey : ∀ a, key (if key a == k then f a else a) = key a := by
    intro a
    split
    · exact hf a
    · rfl
  unfold Association.get Association.modify
  rw [List.find?_map]
  congr 2
  funext a
  exact congrArg (· == k') (hkey a)

theorem key_of_get (h : get key l k = some a) : (key a == k) = true := List.find?_some (p := fun a => key a == k) h

end Lists

section Values

variable {Key Value Item : Type} [BEq Key] [Inhabited Value] {T : Traits Key Value Item} {t t' : Table Key Item}
  {key k k' : Key} {room : ℕ → Bool} {v : Value} {b : ℕ} {a : Item}

/-- What a map holds for a key -/
def Table.valueOf (T : Traits Key Value Item) (t : Table Key Item) (key : Key) : Option Value :=
  (get T.getKey (t.contents T) key).map T.getValue

theorem valueOf_nil (h : t.contents T = []) : t.valueOf T k = none := by
  unfold Table.valueOf
  rw [h]
  rfl

variable [EquivBEq Key]

theorem valueOf_congr (h : (k == k') = true) : t.valueOf T k = t.valueOf T k' := by
  unfold Table.valueOf
  rw [get_congr h]

theorem valueOf_perm (h : TableOk T t') {l : List Item} (hl : (t'.contents T).Perm l) :
    t'.valueOf T k = (get T.getKey l k).map T.getValue :=
  congrArg (Option.map T.getValue) (get_perm h.layout.distinct_entries hl k)

/-- A key that is there has its value. -/
theorem lookup_value (h : TableOk T t) (hkey : t.valueOf T key = some v) :
    ∃ a, t.lookup T key = .ok (some a) ∧ T.getValue a = v := by
  obtain ⟨a, hget, hv⟩ := Option.map_eq_some_iff.mp hkey
  exact ⟨a, by rw [lookup_ok h, hget], hv⟩

theorem lookup_none (h : TableOk T t) (hkey : t.valueOf T key = none) : t.lookup T key = .ok none := by
  rw [lookup_ok h, Option.map_eq_none_iff.mp hkey]

/-- The value of a key is stored in an item that has the key. -/
theorem valueOf_modify {l : List Item} (hl : ∃ a, get T.getKey l key = some a) :
    (get T.getKey (modify T.getKey l key fun item => T.setValue item v) k).map T.getValue =
      if key == k then some v else (get T.getKey l k).map T.getValue := by
  rw [get_modify (fun a => T.getKey_setValue a v), Option.map_map]
  by_cases hk : (key == k) = true
  · obtain ⟨a, ha⟩ := hl
    rw [if_pos hk, ← get_congr hk, ha, Option.map_some, comp_apply, if_pos (key_of_get ha), T.getValue_setValue]
  · rw [if_neg hk]
    cases hget : get T.getKey l k with
    | none => rfl
    | some a =>
      have hne : ¬(T.getKey a == key) = true := fun h => hk (BEq.trans (BEq.symm h) (key_of_get hget))
      rw [Option.map_some, comp_apply, if_neg hne]
      rfl

theorem get_put_newItem {l : List Item} : ∃ a, get T.getKey (put T.getKey l key (T.newItem key)) key = some a := by
  unfold put
  by_cases h : (get T.getKey l key).isSome = true
  · rw [if_pos h]
    exact Option.isSome_iff_exists.mp h
  · rw [if_neg h, get_cons, getKey_newItem, if_pos BEq.rfl]
    exact ⟨_, rfl⟩

omit [EquivBEq Key] in
theorem get_put_other {l : List Item} (hk : ¬(key == k) = true) :
    get T.getKey (put T.getKey l key (T.newItem key)) k = get T.getKey l k := by
  unfold put
  by_cases h : (get T.getKey l key).isSome = true
  · rw [if_pos h]
  · rw [if_neg h, get_cons, getKey_newItem, if_neg hk]

/-- `table[key] = v` -/
theorem assign_value (h : TableOk T t) (room : ℕ → Bool) (hkey : (key == t.empty_key) = false) (v : Value) :
    t.assign T room key v = .error .badalloc ∨ ∃ t', t.assign T room key v = .ok t' ∧ TableOk T t' ∧
      t'.empty_key = t.empty_key ∧ ∀ k, t'.valueOf T k = if key == k then some v else t.valueOf T k := by
  obtain hbad | ⟨t', hrun, h', hempty, hperm⟩ := assign_ok h room hkey v
  · exact Or.inl hbad
  · refine Or.inr ⟨t', hrun, h', hempty, fun k => ?_⟩
    rw [valueOf_perm h' hperm, valueOf_modify get_put_newItem]
    by_cases hk : (key == k) = true
    · rw [if_pos hk, if_pos hk]
    · rw [if_neg hk, if_neg hk, get_put_other hk]
      rfl

/-- `table[key]` as a reference: the item of a new key has the value of a fresh one. -/
theorem insert_value (h : TableOk T t) (room : ℕ → Bool) (hkey : (key == t.empty_key) = false) :
    t.insert T room key = .error .badalloc ∨ ∃ t' b a, t.insert T room key = .ok (t', b) ∧ TableOk T t' ∧
      t'.empty_key = t.empty_key ∧ t'.data b = some a ∧ T.getValue a = (t.valueOf T key).getD default ∧
      t'.count = t.count + (if (t.valueOf T key).isSome then 0 else 1) ∧
      (∀ k, t'.valueOf T k = if key == k then some (T.getValue a) else t.valueOf T k) ∧
      ∀ v, ∃ t'', t'.store T b v = .ok t'' ∧ TableOk T t'' ∧ t''.empty_key = t.empty_key ∧ t''.count = t'.count ∧
        ∀ k, t''.valueOf T k = if key == k then some v else t.valueOf T k := by
  obtain hbad | ⟨t', b, a, hrun, h', hempty, hb, hk, hperm⟩ := insert_ok h room hkey
  · exact Or.inl hbad
  · have hmem : a ∈ t'.contents T := mem_entries.mpr ⟨b, h'.layout.bound b a hb, hb⟩
    have hget : get T.getKey (put T.getKey (t.contents T) key (T.newItem key)) key = some a := by
      rw [← get_perm h'.layout.distinct_entries hperm]
      exact (get_some_iff h'.layout.distinct_entries).mpr ⟨hmem, hk⟩
    have hvalue : T.getValue a = (t.valueOf T key).getD default := by
      unfold Table.valueOf
      unfold put at hget
      cases hold : get T.getKey (t.contents T) key with
      | some old =>
        rw [hold, Option.isSome_some, if_pos rfl, hold] at hget
        rw [← Option.some.inj hget]
        rfl
      | none =>
        rw [hold, Option.isSome_none, if_neg Bool.false_ne_true, get_cons, getKey_newItem, if_pos BEq.rfl] at hget
        rw [← Option.some.inj hget]
        show T.getValue (T.setKey (T.filler key) key) = default
        rw [T.getValue_setKey, T.getValue_filler]
    have hcount : t'.count = t.count + (if (t.valueOf T key).isSome then 0 else 1) := by
      rw [h'.size, h.size, hperm.length_eq]
      unfold put Table.valueOf
      rw [Option.isSome_map]
      split
      · rfl
      · rfl
    refine Or.inr ⟨t', b, a, hrun, h', hempty, (data_of_slots hb).1, hvalue, hcount, ?_, ?_⟩
    · intro k
      rw [valueOf_perm h' hperm]
      by_cases hkk : (key == k) = true
      · rw [if_pos hkk, ← get_congr hkk, hget, Option.map_some]
      · rw [if_neg hkk, get_put_other hkk]
        rfl
    · intro v
      obtain ⟨t'', hstore, h'', hempty'', hcontents⟩ := store_ok h' hb hk v
      refine ⟨t'', hstore, h'', hempty''.trans hempty, ?_, fun k => ?_⟩
      · rw [h''.size, hcontents, h'.size]
        exact List.length_map _
      · rw [valueOf_perm h'' (hcontents ▸ (modify_perm hperm key _)), valueOf_modify get_put_newItem]
        by_cases hk : (key == k) = true
        · rw [if_pos hk, if_pos hk]
        · rw [if_neg hk, if_neg hk, get_put_other hk]
          rfl

/-- The key of the empty buckets is refused. -/
theorem insert_empty (h : TableOk T t) (room : ℕ → Bool) (hkey : (key == t.empty_key) = true) :
    ∃ e, t.insert T room key = .error e := by
  unfold Table.insert
  obtain hbad | ⟨t', hrun, -, hempty, -⟩ := rehash_if_full_ok h room key
  · rw [hbad]
    exact ⟨_, rfl⟩
  · rw [hrun]
    refine ⟨.fault, ?_⟩
    show t'.insert_unsafe T key = _
    unfold Table.insert_unsafe assertion
    rw [hempty, hkey]
    rfl

theorem assign_empty (h : TableOk T t) (room : ℕ → Bool) (hkey : (key == t.empty_key) = true) (v : Value) :
    ∃ e, t.assign T room key v = .error e := by
  obtain ⟨e, hrun⟩ := insert_empty h room hkey
  unfold Table.assign
  rw [hrun]
  exact ⟨e, rfl⟩

end Values

end Luwu.DenseHash
