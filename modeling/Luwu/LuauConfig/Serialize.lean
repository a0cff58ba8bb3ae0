import Luwu.Lib.Run
import Luwu.Lib.FloatInt
import Mathlib.Data.List.TakeWhile

/-!
# Reading the table of a configuration

The value that a configuration returns lives in the heap of the virtual machine, where tables may be shared and may
contain themselves. It is copied through the stack of the machine, which has so many slots and is not checked: a push
without a slot is an outcome of its own. Characters stand for bytes.
-/

namespace Luwu.LuauConfig

open Floating Run Fuel

abbrev Text := List Char

abbrev Double := Datum Format.double

/-- The values of the machine; the kinds that are no part of a configuration are not told apart. -/
inductive Value where
  | nil
  | boolean (b : Bool)
  | number (n : Double)
  | string (s : Text)
  | table (t : ℕ)
  | other (id : ℕ)
  deriving DecidableEq

/-- Tables, with their entries in the order of a traversal. Keys are compared as they are: no key is NaN, and zero has
only one sign as a key. -/
structure Heap where
  entries : ℕ → List (Value × Value)
  distinct : ∀ t, ((entries t).map Prod.fst).Nodup
  keys : ∀ t, .nil ∉ (entries t).map Prod.fst

/-- `ConfigTableKey` -/
inductive Key where
  | string (s : Text)
  | number (n : Double)
  deriving DecidableEq

inductive ConfigValue where
  | string (s : Text)
  | number (n : Double)
  | boolean (b : Bool)
  | table (entries : List (Key × ConfigValue))

/-- A hash table, with its entries in the order in which they came -/
abbrev ConfigTable := List (Key × ConfigValue)

/-- `table[key] = value`; the empty text is the empty key of the hash table. -/
def assignKey (table : ConfigTable) (key : Key) (value : ConfigValue) : Option ConfigTable :=
  if key = .string [] then none
  else if key ∈ table.map Prod.fst then some (table.map fun e => if e.1 = key then (key, value) else e)
  else some (table ++ [(key, value)])

inductive Stop where
  | outOfFuel
  | stackOverflow
  | emptyKey
  | invalidStack
  deriving DecidableEq

/-- Computations on the stack, with its top first -/
abbrev Vm := EStateM Stop (List Value)

/-- What follows the entry with this key in a traversal; `nil` comes before the first entry. -/
def follows (entries : List (Value × Value)) (key : Value) : List (Value × Value) :=
  if key = .nil then entries else (entries.dropWhile fun e => e.1 ≠ key).tail

/-- `std::string{lua_tostring(..)}`, which ends at the first zero byte -/
def cString (s : Text) : Text := s.takeWhile fun c => c ≠ Char.ofNat 0

def keyOf : Value → Option Key
  | .number n => some (.number n)
  | .string s => some (.string (cString s))
  | _ => none

section Program

variable (H : Heap) (limit : ℕ) (numberText : Double → Text)

def push (v : Value) : Vm Unit := do
  let s ← get
  if s.length < limit then set (v :: s) else throw .stackOverflow

def pop : Vm Unit := modify List.tail

/-- `lua_next(L, -2)` -/
def next : Vm Bool := do
  match ← get with
  | key :: .table t :: rest =>
    match follows (H.entries t) key with
    | [] =>
      set (Value.table t :: rest)
      return false
    | (k, v) :: _ =>
      set (k :: Value.table t :: rest)
      push limit v
      return true
  | _ => throw .invalidStack

def Key.toString : Key → Text
  | .string s => s
  | .number n => numberText n

def assign (table : ConfigTable) (key : Key) (value : ConfigValue) : Vm (Except Text ConfigTable) :=
  match assignKey table key value with
  | some table => return .ok table
  | none => throw .emptyKey

/-- The body of the loop of `serializeTable`, with what the recursive call does -/
def processEntry (recursive : Vm (Except Text ConfigTable)) (table : ConfigTable) : Vm (Except Text ConfigTable) := do
  match ← get with
  | value :: key :: _ =>
    match keyOf key with
    | none => return .error "configuration table keys must be strings or numbers".toList
    | some key =>
      match value with
      | .number n => assign table key (.number n)
      | .string s => assign table key (.string (cString s))
      | .boolean b => assign table key (.boolean b)
      | .table t => do
        push limit (.table t)
        match ← recursive with
        | .ok nested => assign table key (.table nested)
        | .error message => return .error message
      | _ =>
        return .error ("configuration value for key \"".toList ++ key.toString numberText ++
          "\" must be a string, number, boolean, or nested table".toList)
  | _ => throw .invalidStack

/-- `serializeTable` around its loop; what it returns, it returns with the top of the stack removed. -/
def aroundEntries (entries : ConfigTable → Vm (Except Text ConfigTable)) : Vm (Except Text ConfigTable) := do
  push limit .nil
  let result ← entries []
  pop
  return result

/-- The loop of `serializeTable` -/
def serializeEntries : ℕ → ConfigTable → Vm (Except Text ConfigTable)
  | 0, _ => throw .outOfFuel
  | k + 1, table => do
    if !(← next H limit) then return .ok table
    else
      let result ← processEntry limit numberText (aroundEntries limit (serializeEntries k)) table
      pop
      match result with
      | .ok table => serializeEntries k table
      | .error message => return .error message

/-- The table is on the top of the stack. -/
def serializeTable (k : ℕ) : Vm (Except Text ConfigTable) := aroundEntries limit (serializeEntries H limit numberText k)

end Program

/-! ### What is read -/

/-- A value that is no table, as it is read -/
def scalarOf : Value → Option ConfigValue
  | .number n => some (.number n)
  | .string s => some (.string (cString s))
  | .boolean b => some (.boolean b)
  | _ => none

/-- The values of the configuration, with all of their characters -/
def exactKey : Value → Option Key
  | .number n => some (.number n)
  | .string s => some (.string s)
  | _ => none

def exactScalar : Value → Option ConfigValue
  | .number n => some (.number n)
  | .string s => some (.string s)
  | .boolean b => some (.boolean b)
  | _ => none

/-- `Adds H room entries table table'`: with `room` free slots of the stack the entries are added to `table`. -/
inductive Adds (H : Heap) : ℕ → List (Value × Value) → ConfigTable → ConfigTable → Prop
  | nil {room : ℕ} {table : ConfigTable} : Adds H room [] table table
  | scalar {room : ℕ} {k v : Value} {key : Key} {w : ConfigValue} {es : List (Value × Value)}
      {table table₁ table' : ConfigTable} : 2 ≤ room → keyOf k = some key → scalarOf v = some w →
      assignKey table key w = some table₁ → Adds H room es table₁ table' → Adds H room ((k, v) :: es) table table'
  | table {room u : ℕ} {k : Value} {key : Key} {es : List (Value × Value)}
      {nested table table₁ table' : ConfigTable} : 4 ≤ room → keyOf k = some key →
      Adds H (room - 3) (H.entries u) [] nested → assignKey table key (.table nested) = some table₁ →
      Adds H room es table₁ table' → Adds H room ((k, .table u) :: es) table table'

/-- The table has exactly the entries, with their values converted. -/
inductive Converts (H : Heap) : List (Value × Value) → ConfigTable → Prop
  | nil : Converts H [] []
  | scalar {k v : Value} {key : Key} {w : ConfigValue} {es : List (Value × Value)} {fs : ConfigTable} :
      exactKey k = some key → exactScalar v = some w → Converts H es fs → Converts H ((k, v) :: es) ((key, w) :: fs)
  | table {u : ℕ} {k : Value} {key : Key} {es : List (Value × Value)} {nested fs : ConfigTable} :
      exactKey k = some key → Converts H (H.entries u) nested → Converts H es fs →
      Converts H ((k, .table u) :: es) ((key, .table nested) :: fs)

/-- A text that a C string can hold -/
def NoZero (s : Text) : Prop := Char.ofNat 0 ∉ s

def PlainKey : Value → Prop
  | .number _ => True
  | .string s => NoZero s ∧ s ≠ []
  | _ => False

def PlainScalar : Value → Prop
  | .number _ => True
  | .string s => NoZero s
  | .boolean _ => True
  | _ => False

/-- Entries of a configuration, nested only as deep as there are slots of the stack: three for every table inside of
another. -/
inductive Plain (H : Heap) : ℕ → List (Value × Value) → Prop
  | nil {room : ℕ} : Plain H room []
  | scalar {room : ℕ} {k v : Value} {es : List (Value × Value)} : 2 ≤ room → PlainKey k → PlainScalar v →
      Plain H room es → Plain H room ((k, v) :: es)
  | table {room u : ℕ} {k : Value} {es : List (Value × Value)} : 4 ≤ room → PlainKey k →
      Plain H (room - 3) (H.entries u) → Plain H room es → Plain H room ((k, .table u) :: es)

/-! ### Runs -/

section Runs

variable {H : Heap} {limit : ℕ} {numberText : Double → Text} {S : List Value} {t k : ℕ} {key key' v : Value}
  {es : List (Value × Value)} {T T' : ConfigTable}

theorem push_run (v : Value) (s : List Value) :
    push limit v s = if s.length < limit then .ok () (v :: s) else .error .stackOverflow s := by
  show (if s.length < limit then (set (v :: s) : Vm Unit) else throw .stackOverflow) s = _
  rw [run_ite]
  rfl

theorem next_done (h : follows (H.entries t) key = []) :
    next H limit (key :: .table t :: S) = .ok false (.table t :: S) := by
  unfold next
  rw [run_bind, run_get]
  simp only [h]
  rfl

theorem next_entry (h : follows (H.entries t) key = (key', v) :: es) :
    next H limit (key :: .table t :: S) =
      if S.length + 2 < limit then .ok true (v :: key' :: .table t :: S)
      else .error .stackOverflow (key' :: .table t :: S) := by
  unfold next
  rw [run_bind, run_get]
  simp only [h, run_bind, run_set, push_run, List.length_cons]
  split
  · rename_i heq
    split at heq
    · rename_i hlt
      cases heq
      rw [if_pos hlt]
      rfl
    · cases heq
  · rename_i heq
    split at heq
    · cases heq
    · rename_i hlt
      cases heq
      rw [if_neg hlt]

/-- A traversal goes through the entries one after another. -/
theorem follows_next (h : follows (H.entries t) key = (key', v) :: es) : follows (H.entries t) key' = es := by
  have hsplit : ∃ before, H.entries t = before ++ (key', v) :: es := by
    unfold follows at h
    split at h
    · exact ⟨[], h⟩
    · have hsuffix : (key', v) :: es <:+ H.entries t :=
        h ▸ (List.tail_suffix _).trans (List.dropWhile_suffix _)
      obtain ⟨before, hbefore⟩ := hsuffix
      exact ⟨before, hbefore.symm⟩
  obtain ⟨before, hbefore⟩ := hsplit
  have hdistinct := H.distinct t
  have hkeys := H.keys t
  rw [hbefore, List.map_append, List.map_cons] at hdistinct hkeys
  have hnil : key' ≠ .nil := by
    rintro rfl
    exact hkeys (List.mem_append_right _ List.mem_cons_self)
  have hbefore' : ∀ e ∈ before, e.1 ≠ key' := by
    intro e he heq
    exact (List.nodup_append.mp hdistinct).2.2 e.1 (List.mem_map_of_mem he) key' List.mem_cons_self heq
  unfold follows
  rw [if_neg hnil, hbefore, List.dropWhile_append_of_pos fun e he => decide_eq_true (hbefore' e he),
    List.dropWhile_cons_of_neg (by simp)]
  rfl

theorem assign_run (key : Key) (w : ConfigValue) (s : List Value) :
    assign T key w s = match assignKey T key w with
      | some table => .ok (.ok table) s
      | none => .error .emptyKey s := by
  unfold assign
  cases assignKey T key w <;> rfl

/-- A value that is no table is read as it is, or refused. -/
theorem processEntry_scalar {recursive : Vm (Except Text ConfigTable)} (hv : ∀ u, v ≠ .table u) :
    processEntry limit numberText recursive T (v :: key' :: S) =
      match keyOf key', scalarOf v with
      | some key, some w => assign T key w (v :: key' :: S)
      | none, _ => .ok (.error "configuration table keys must be strings or numbers".toList) (v :: key' :: S)
      | some key, none =>
        .ok (.error ("configuration value for key \"".toList ++ key.toString numberText ++
          "\" must be a string, number, boolean, or nested table".toList)) (v :: key' :: S) := by
  unfold processEntry
  rw [run_bind, run_get]
  simp only
  cases keyOf key' with
  | none => rfl
  | some key =>
    cases v with
    | table u => exact absurd rfl (hv u)
    | nil | boolean | number | string | other => rfl

theorem processEntry_table {recursive : Vm (Except Text ConfigTable)} {u : ℕ} (key : Key) (hkey : keyOf key' = some key) :
    processEntry limit numberText recursive T (.table u :: key' :: S) =
      if S.length + 2 < limit then
        match recursive (.table u :: .table u :: key' :: S) with
        | .ok (.ok nested) s => assign T key (.table nested) s
        | .ok (.error message) s => .ok (.error message) s
        | .error e s => .error e s
      else .error .stackOverflow (.table u :: key' :: S) := by
  unfold processEntry
  rw [run_bind, run_get]
  simp only [hkey, run_bind, push_run, List.length_cons]
  by_cases hlt : S.length + 1 + 1 < limit
  · rw [if_pos hlt, if_pos hlt]
    simp only
    match recursive (.table u :: .table u :: key' :: S) with
    | .ok (.ok nested) s => rfl
    | .ok (.error message) s => rfl
    | .error e s => rfl
  · rw [if_neg hlt, if_neg hlt]

theorem aroundEntries_run {entries : ConfigTable → Vm (Except Text ConfigTable)} (s : List Value) :
    aroundEntries limit entries s =
      if s.length < limit then
        match entries [] (.nil :: s) with
        | .ok result s' => .ok result s'.tail
        | .error e s' => .error e s'
      else .error .stackOverflow s := by
  unfold aroundEntries
  rw [run_bind, push_run]
  by_cases hlt : s.length < limit
  · rw [if_pos hlt, if_pos hlt]
    simp only [run_bind]
    cases entries [] (.nil :: s) <;> rfl
  · rw [if_neg hlt, if_neg hlt]

/-- One turn of the loop -/
theorem entries_turn (h : follows (H.entries t) key = (key', v) :: es) :
    serializeEntries H limit numberText (k + 1) T (key :: .table t :: S) =
      if S.length + 2 < limit then
        match processEntry limit numberText (aroundEntries limit (serializeEntries H limit numberText k)) T
            (v :: key' :: .table t :: S) with
        | .ok (.ok table) s => serializeEntries H limit numberText k table s.tail
        | .ok (.error message) s => .ok (.error message) s.tail
        | .error e s => .error e s
      else .error .stackOverflow (key' :: .table t :: S) := by
  conv_lhs => unfold serializeEntries
  rw [run_bind, next_entry h]
  by_cases hlt : S.length + 2 < limit
  · rw [if_pos hlt, if_pos hlt]
    simp only [Bool.not_true, Bool.false_eq_true, if_false, run_bind]
    match processEntry limit numberText (aroundEntries limit (serializeEntries H limit numberText k)) T
        (v :: key' :: .table t :: S) with
    | .ok (.ok table) s => rfl
    | .ok (.error message) s => rfl
    | .error e s => rfl
  · rw [if_neg hlt, if_neg hlt]

theorem entries_done (h : follows (H.entries t) key = []) :
    serializeEntries H limit numberText (k + 1) T (key :: .table t :: S) = .ok (.ok T) (.table t :: S) := by
  conv_lhs => unfold serializeEntries
  rw [run_bind, next_done h]
  rfl

/-- What a run of the loop may end with: the entries added, or an error with its key and value still on the stack -/
def Outcome (H : Heap) (limit : ℕ) (S : List Value) (t : ℕ) (es : List (Value × Value)) (T : ConfigTable) :
    EStateM.Result Stop (List Value) (Except Text ConfigTable) → Prop
  | .ok (.ok T') s => s = .table t :: S ∧ Adds H (limit - (S.length + 1)) es T T'
  | .ok (.error _) s => S.length + 2 ≤ s.length
  | .error _ _ => True

theorem follows_nil (es : List (Value × Value)) : follows es .nil = es := if_pos rfl

theorem Outcome.mono {es' : List (Value × Value)} {T₁ : ConfigTable}
    {r : EStateM.Result Stop (List Value) (Except Text ConfigTable)} (h : Outcome H limit S t es T₁ r)
    (hadds : ∀ T', Adds H (limit - (S.length + 1)) es T₁ T' → Adds H (limit - (S.length + 1)) es' T T') :
    Outcome H limit S t es' T r := by
  match r, h with
  | .ok (.ok T') s, h => exact ⟨h.1, hadds T' h.2⟩
  | .ok (.error _) s, h => exact h
  | .error _ _, _ => trivial

theorem entries_outcome (k : ℕ) (T : ConfigTable) (t : ℕ) (S : List Value) (key : Value) :
    Outcome H limit S t (follows (H.entries t) key) T
      (serializeEntries H limit numberText k T (key :: .table t :: S)) := by
  induction k generalizing T t S key with
  | zero => trivial
  | succ k ih =>
    match hfollows : follows (H.entries t) key with
    | [] =>
      rw [entries_done hfollows]
      exact ⟨rfl, .nil⟩
    | (key', v) :: es =>
      rw [entries_turn hfollows]
      by_cases hlt : S.length + 2 < limit
      · rw [if_pos hlt]
        have hrest : ∀ T₁, Outcome H limit S t es T₁
            (serializeEntries H limit numberText k T₁ (key' :: .table t :: S)) := by
          intro T₁
          have h := ih T₁ t S key'
          rwa [follows_next hfollows] at h
        by_cases hv : ∃ u, v = .table u
        · obtain ⟨u, rfl⟩ := hv
          match hkey : keyOf key' with
          | none =>
            have hrun : ∀ recursive : Vm (Except Text ConfigTable),
                processEntry limit numberText recursive T (.table u :: key' :: .table t :: S) =
                  .ok (.error "configuration table keys must be strings or numbers".toList)
                    (.table u :: key' :: .table t :: S) := by
              intro recursive
              unfold processEntry
              rw [run_bind, run_get]
              simp only [hkey]
              rfl
            rw [hrun]
            exact Nat.le_refl _
          | some configKey =>
            rw [processEntry_table configKey hkey]
            by_cases hroom : (Value.table t :: S).length + 2 < limit
            · rw [if_pos hroom, aroundEntries_run]
              rw [List.length_cons] at hroom
              by_cases hnil : (Value.table u :: Value.table u :: key' :: Value.table t :: S).length < limit
              · rw [if_pos hnil]
                have hnested := ih [] u (.table u :: key' :: .table t :: S) .nil
                rw [follows_nil] at hnested
                match serializeEntries H limit numberText k [] (.nil :: .table u :: .table u :: key' :: .table t :: S),
                  hnested with
                | .ok (.ok nested) s, h =>
                  obtain ⟨rfl, hadds⟩ := h
                  simp only [List.tail_cons, assign_run]
                  match hassign : assignKey T configKey (.table nested) with
                  | none => trivial
                  | some T₁ =>
                    simp only [List.tail_cons]
                    refine (hrest T₁).mono fun T' hes => ?_
                    simp only [List.length_cons] at hnil hadds
                    have hsame : limit - (S.length + 1) - 3 = limit - (S.length + 1 + 1 + 1 + 1) := by omega
                    exact .table (by omega) hkey (hsame ▸ hadds) hassign hes
                | .ok (.error message) s, h =>
                  have hlen : S.length + 3 + 2 ≤ s.length := h
                  show S.length + 2 ≤ s.tail.tail.length
                  rw [List.length_tail, List.length_tail]
                  omega
                | .error _ _, _ => trivial
              · rw [if_neg hnil]
                trivial
            · rw [if_neg hroom]
              trivial
        · rw [processEntry_scalar fun u hu => hv ⟨u, hu⟩]
          match hkey : keyOf key', hscalar : scalarOf v with
          | none, _ => exact Nat.le_refl _
          | some _, none => exact Nat.le_refl _
          | some configKey, some w =>
            simp only [assign_run]
            match hassign : assignKey T configKey w with
            | none => trivial
            | some T₁ =>
              simp only [List.tail_cons]
              exact (hrest T₁).mono fun T' hes => .scalar (by omega) hkey hscalar hassign hes
      · rw [if_neg hlt]
        trivial

/-- With enough fuel entries that can be added are added. -/
theorem entries_settle {room : ℕ} (hadds : Adds H room es T T') (hroom : room = limit - (S.length + 1))
    (hfollows : follows (H.entries t) key = es) :
    Settles (fun k => serializeEntries H limit numberText k T) (key :: .table t :: S) (.ok (.ok T') (.table t :: S)) := by
  induction hadds generalizing key t S with
  | nil => exact settles_of_succ fun k => entries_done hfollows
  | @scalar room k v configKey w es T T₁ T' h2 hkey hscalar hassign _ ih =>
    refine (ih hroom (follows_next hfollows)).succ fun j => ?_
    have hv : ∀ u, v ≠ .table u := by
      rintro u rfl
      cases hscalar
    rw [entries_turn hfollows, if_pos (by omega), processEntry_scalar hv]
    simp only [hkey, hscalar, assign_run, hassign, List.tail_cons]
  | @table room u k configKey es nested T T₁ T' h4 hkey _ hassign _ ihnested ih =>
    have hinnerRoom : room - 3 = limit - ((Value.table u :: k :: .table t :: S).length + 1) := by
      simp only [List.length_cons]
      omega
    obtain ⟨n, hn⟩ := ihnested hinnerRoom (follows_nil (H.entries u))
    obtain ⟨m, hm⟩ := ih hroom (follows_next hfollows)
    refine ⟨n + m + 1, fun j hj => ?_⟩
    obtain ⟨j, rfl⟩ : ∃ i, j = i + 1 := ⟨j - 1, by omega⟩
    have hinner : aroundEntries limit (serializeEntries H limit numberText j) (.table u :: .table u :: k :: .table t :: S) =
        .ok (.ok nested) (.table u :: k :: .table t :: S) := by
      have hnested : serializeEntries H limit numberText j [] (.nil :: .table u :: .table u :: k :: .table t :: S) =
          .ok (.ok nested) (.table u :: .table u :: k :: .table t :: S) := hn j (by omega)
      rw [aroundEntries_run, if_pos (by simp only [List.length_cons]; omega), hnested]
      rfl
    show serializeEntries H limit numberText (j + 1) T _ = _
    rw [entries_turn hfollows, if_pos (by omega), processEntry_table configKey hkey,
      if_pos (by simp only [List.length_cons]; omega), hinner]
    simp only [assign_run, hassign, List.tail_cons]
    exact hm j (by omega)

end Runs

/-! ### Exact tables -/

section Exact

variable {H : Heap} {room : ℕ} {es : List (Value × Value)} {T T' fs : ConfigTable} {key key' : Key} {k v : Value}
  {w : ConfigValue} {s : Text}

theorem cString_of_noZero (h : NoZero s) : cString s = s := by
  unfold cString
  rw [List.takeWhile_eq_self_iff]
  exact fun c hc => decide_eq_true fun heq => h (heq ▸ hc)

theorem noZero_cString (s : Text) : NoZero (cString s) := by
  intro h
  have hall := List.mem_takeWhile_imp h
  simp at hall

/-- A key that a C string can hold -/
def Whole : Key → Prop
  | .string s => NoZero s ∧ s ≠ []
  | .number _ => True

theorem assignKey_new (h : assignKey T key w = some T') (hnew : key ∉ T.map Prod.fst) : T' = T ++ [(key, w)] := by
  unfold assignKey at h
  by_cases hempty : key = .string []
  · rw [if_pos hempty] at h
    cases h
  · rw [if_neg hempty, if_neg hnew] at h
    exact (Option.some.inj h).symm

theorem assignKey_keys (h : assignKey T key w = some T') {key' : Key} (hmem : key' ∈ T'.map Prod.fst) :
    key' ∈ T.map Prod.fst ∨ key' = key ∧ key ≠ .string [] := by
  unfold assignKey at h
  split at h
  · cases h
  · rename_i hne
    split at h
    · cases h
      rw [List.map_map, List.mem_map] at hmem
      obtain ⟨e, he, heq⟩ := hmem
      by_cases hkey : e.1 = key
      · right
        simp only [Function.comp, if_pos hkey] at heq
        exact ⟨heq.symm, hne⟩
      · left
        simp only [Function.comp, if_neg hkey] at heq
        exact heq ▸ List.mem_map_of_mem he
    · cases h
      rw [List.map_append, List.mem_append] at hmem
      rcases hmem with hmem | hmem
      · exact Or.inl hmem
      · exact Or.inr ⟨List.mem_singleton.mp hmem, hne⟩

theorem whole_keyOf (h : keyOf k = some key) (hne : key ≠ .string []) : Whole key := by
  cases k with
  | number n =>
    cases h
    trivial
  | string s =>
    cases h
    exact ⟨noZero_cString s, fun h => hne (congrArg Key.string h)⟩
  | nil | boolean | table | other => cases h

/-- Only keys that a C string can hold are added. -/
theorem adds_keys (h : Adds H room es T T') (hmem : key ∈ T'.map Prod.fst) : key ∈ T.map Prod.fst ∨ Whole key := by
  induction h with
  | nil => exact Or.inl hmem
  | scalar _ hkey _ hassign _ ih | table _ hkey _ hassign _ _ ih =>
    rcases ih hmem with hold | hwhole
    · rcases assignKey_keys hassign hold with hold | ⟨rfl, hne⟩
      · exact Or.inl hold
      · exact Or.inr (whole_keyOf hkey hne)
    · exact Or.inr hwhole

theorem converts_keys (h : Converts H es T) : es.map (fun e => exactKey e.1) = T.map fun f => some f.1 := by
  induction h with
  | nil => rfl
  | scalar hkey _ _ ih =>
    rw [List.map_cons, List.map_cons, ih, hkey]
  | table hkey _ _ _ ih =>
    rw [List.map_cons, List.map_cons, ih, hkey]

theorem plainKey_of_whole (h : exactKey k = some key) (hwhole : Whole key) : PlainKey k ∧ keyOf k = some key := by
  cases k with
  | number n =>
    cases h
    exact ⟨trivial, rfl⟩
  | string s =>
    cases h
    exact ⟨hwhole, congrArg (fun s => some (Key.string s)) (cString_of_noZero hwhole.1)⟩
  | nil | boolean | table | other => cases h

theorem exactKey_of_plain (h : PlainKey k) : ∃ key, exactKey k = some key ∧ keyOf k = some key ∧ key ≠ .string [] := by
  cases k with
  | number n => exact ⟨.number n, rfl, rfl, nofun⟩
  | string s =>
    refine ⟨.string s, rfl, congrArg (fun s => some (Key.string s)) (cString_of_noZero h.1), fun heq => h.2 ?_⟩
    exact Key.string.inj heq
  | nil | boolean | table | other => exact absurd h id

/-- The value that a key was -/
def Key.value : Key → Value
  | .string s => .string s
  | .number n => .number n

theorem eq_value_of_exactKey (h : exactKey k = some key) : k = key.value := by
  cases k with
  | number n =>
    cases h
    rfl
  | string s =>
    cases h
    rfl
  | nil | boolean | table | other => cases h

/-- After a key came into the table the other keys are still new. -/
theorem still_new {e : Value × Value} (hnodup : (((k, v) :: es).map Prod.fst).Nodup) (he : e ∈ es)
    (hk : exactKey k = some key) (hkey : exactKey e.1 = some key') (hnew : key' ∉ T.map Prod.fst) (w : ConfigValue) :
    key' ∉ (T ++ [(key, w)]).map Prod.fst := by
  rw [List.map_append, List.mem_append]
  rintro (hold | hsame)
  · exact hnew hold
  · obtain rfl : key' = key := List.mem_singleton.mp hsame
    rw [List.map_cons, List.nodup_cons] at hnodup
    apply hnodup.1
    rw [(eq_value_of_exactKey hk).trans (eq_value_of_exactKey hkey).symm]
    exact List.mem_map.mpr ⟨e, he, rfl⟩

/-- The keys of an exact table are whole. -/
theorem whole_keys (h : Adds H room es [] T) (hconverts : Converts H es T) :
    ∀ e ∈ es, ∃ key, exactKey e.1 = some key ∧ Whole key ∧ key ∉ ([] : ConfigTable).map Prod.fst := by
  intro e he
  have hmem : exactKey e.1 ∈ es.map fun e => exactKey e.1 := List.mem_map_of_mem he
  rw [converts_keys hconverts, List.mem_map] at hmem
  obtain ⟨f, hf, hfkey⟩ := hmem
  refine ⟨f.1, hfkey.symm, ?_, List.not_mem_nil⟩
  rcases adds_keys h (List.mem_map_of_mem hf) with hnone | hwhole
  · exact absurd hnone List.not_mem_nil
  · exact hwhole

/-- Where what was added is exact, the entries are those of a configuration. -/
theorem plain_of_adds (h : Adds H room es T T') (hnodup : (es.map Prod.fst).Nodup)
    (hkeys : ∀ e ∈ es, ∃ key, exactKey e.1 = some key ∧ Whole key ∧ key ∉ T.map Prod.fst) :
    ∃ fs, T' = T ++ fs ∧ (Converts H es fs → Plain H room es) := by
  induction h with
  | nil => exact ⟨[], (List.append_nil _).symm, fun _ => .nil⟩
  | @scalar room k v key w es T T₁ T' h2 hkey hscalar hassign _ ih =>
    obtain ⟨exact', hexact, hwhole, hnew⟩ := hkeys (k, v) List.mem_cons_self
    obtain ⟨hplain, hsame⟩ := plainKey_of_whole hexact hwhole
    obtain rfl : exact' = key := Option.some.inj (hsame.symm.trans hkey)
    obtain rfl := assignKey_new hassign hnew
    have hrest : ∀ e ∈ es, ∃ key, exactKey e.1 = some key ∧ Whole key ∧ key ∉ (T ++ [(exact', w)]).map Prod.fst := by
      intro e he
      obtain ⟨key', hkey', hwhole', hnew'⟩ := hkeys e (List.mem_cons_of_mem _ he)
      exact ⟨key', hkey', hwhole', still_new hnodup he hexact hkey' hnew' w⟩
    obtain ⟨fs, rfl, himp⟩ := ih (List.nodup_cons.mp hnodup).2 hrest
    refine ⟨(exact', w) :: fs, List.append_assoc _ _ _, fun hconverts => ?_⟩
    cases hconverts with
    | scalar hexactKey hexactScalar hes =>
      refine .scalar h2 hplain ?_ (himp hes)
      cases v with
      | string s =>
        rw [Option.some.inj (hscalar.trans hexactScalar.symm) |> ConfigValue.string.inj |> Eq.symm]
        exact noZero_cString s
      | number | boolean => trivial
      | nil | table | other => cases hscalar
    | table => cases hscalar
  | @table room u k key es nested T T₁ T' h4 hkey hadds hassign _ ihnested ih =>
    obtain ⟨exact', hexact, hwhole, hnew⟩ := hkeys (k, .table u) List.mem_cons_self
    obtain ⟨hplain, hsame⟩ := plainKey_of_whole hexact hwhole
    obtain rfl : exact' = key := Option.some.inj (hsame.symm.trans hkey)
    obtain rfl := assignKey_new hassign hnew
    have hrest : ∀ e ∈ es, ∃ key, exactKey e.1 = some key ∧ Whole key ∧
        key ∉ (T ++ [(exact', ConfigValue.table nested)]).map Prod.fst := by
      intro e he
      obtain ⟨key', hkey', hwhole', hnew'⟩ := hkeys e (List.mem_cons_of_mem _ he)
      exact ⟨key', hkey', hwhole', still_new hnodup he hexact hkey' hnew' _⟩
    obtain ⟨fs, rfl, himp⟩ := ih (List.nodup_cons.mp hnodup).2 hrest
    refine ⟨(exact', .table nested) :: fs, List.append_assoc _ _ _, fun hconverts => ?_⟩
    cases hconverts with
    | scalar _ hexactScalar => cases hexactScalar
    | table _ hinner hes =>
      refine .table h4 hplain ?_ (himp hes)
      obtain ⟨fs', hfs', himp'⟩ := ihnested (H.distinct u) (whole_keys hadds hinner)
      rw [List.nil_append] at hfs'
      exact himp' (hfs' ▸ hinner)

theorem plain_of_exact (h : Adds H room es [] T) (hnodup : (es.map Prod.fst).Nodup) (hconverts : Converts H es T) :
    Plain H room es := by
  obtain ⟨fs, hfs, himp⟩ := plain_of_adds h hnodup (whole_keys h hconverts)
  rw [List.nil_append] at hfs
  exact himp (hfs ▸ hconverts)

/-- The entries of a configuration are added as they are. -/
theorem adds_of_plain (h : Plain H room es) (hnodup : (es.map Prod.fst).Nodup)
    (hnew : ∀ e ∈ es, ∀ key, exactKey e.1 = some key → key ∉ T.map Prod.fst) :
    ∃ fs, Adds H room es T (T ++ fs) ∧ Converts H es fs := by
  have hassign : ∀ (T : ConfigTable) (key : Key) (w : ConfigValue), key ≠ .string [] → key ∉ T.map Prod.fst →
      assignKey T key w = some (T ++ [(key, w)]) := by
    intro T key w hne hkey
    unfold assignKey
    rw [if_neg hne, if_neg hkey]
  induction h generalizing T with
  | nil =>
    refine ⟨[], ?_, .nil⟩
    rw [List.append_nil]
    exact .nil
  | @scalar room k v es h2 hplain hscalar _ ih =>
    obtain ⟨key, hexact, hkey, hne⟩ := exactKey_of_plain hplain
    obtain ⟨w, hw, hw'⟩ : ∃ w, scalarOf v = some w ∧ exactScalar v = some w := by
      cases v with
      | number n => exact ⟨_, rfl, rfl⟩
      | boolean b => exact ⟨_, rfl, rfl⟩
      | string s => exact ⟨_, rfl, congrArg (fun s => some (ConfigValue.string s)) (cString_of_noZero hscalar).symm⟩
      | nil | table | other => exact absurd hscalar id
    obtain ⟨fs, hadds, hconverts⟩ := @ih (T ++ [(key, w)]) (List.nodup_cons.mp hnodup).2 fun e he key' hkey' =>
      still_new hnodup he hexact hkey' (hnew e (List.mem_cons_of_mem _ he) key' hkey') w
    refine ⟨(key, w) :: fs, ?_, .scalar hexact hw' hconverts⟩
    rw [List.append_assoc] at hadds
    exact .scalar h2 hkey hw (hassign T key w hne (hnew _ List.mem_cons_self key hexact)) hadds
  | @table room u k es h4 hplain _ _ ihnested ih =>
    obtain ⟨key, hexact, hkey, hne⟩ := exactKey_of_plain hplain
    obtain ⟨nested, hnested, hinner⟩ := @ihnested [] (H.distinct u) fun _ _ _ _ => List.not_mem_nil
    rw [List.nil_append] at hnested
    obtain ⟨fs, hadds, hconverts⟩ := @ih (T ++ [(key, .table nested)]) (List.nodup_cons.mp hnodup).2
      fun e he key' hkey' => still_new hnodup he hexact hkey' (hnew e (List.mem_cons_of_mem _ he) key' hkey') _
    refine ⟨(key, .table nested) :: fs, ?_, .table hexact hinner hconverts⟩
    rw [List.append_assoc] at hadds
    exact .table h4 hkey hnested (hassign T key _ hne (hnew _ List.mem_cons_self key hexact)) hadds

end Exact

/-! ### Extraction -/

section Extraction

variable {H : Heap} {limit : ℕ} {numberText : Double → Text} {S : List Value} {t : ℕ}

/-- Reading the table on the top of the stack ends with an error or with exactly that table, and with the rest of the
stack. -/
def Extracts (H : Heap) (limit : ℕ) (numberText : Double → Text) (S : List Value) (t : ℕ) : Prop :=
  ∃ result, Settles (fun k => serializeTable H limit numberText k) (.table t :: S) (.ok result S) ∧
    ∀ T, result = .ok T → Converts H (H.entries t) T

theorem extracts_iff : Extracts H limit numberText S t ↔
    S.length + 1 < limit ∧ Plain H (limit - (S.length + 1)) (H.entries t) := by
  constructor
  · rintro ⟨result, ⟨n, hn⟩, hexact⟩
    have hrun := hn n (Nat.le_refl n)
    unfold serializeTable at hrun
    simp only at hrun
    rw [aroundEntries_run] at hrun
    by_cases hlt : (Value.table t :: S).length < limit
    · refine ⟨hlt, ?_⟩
      rw [if_pos hlt] at hrun
      have houtcome := @entries_outcome H limit numberText n [] t S .nil
      rw [follows_nil] at houtcome
      match serializeEntries H limit numberText n [] (.nil :: .table t :: S), houtcome, hrun with
      | .ok (.ok T) s, houtcome, hrun =>
        obtain ⟨-, hadds⟩ := houtcome
        have hconverts : Converts H (H.entries t) T := by
          simp only [EStateM.Result.ok.injEq] at hrun
          exact hexact T hrun.1.symm
        exact plain_of_exact hadds (H.distinct t) hconverts
      | .ok (.error message) s, houtcome, hrun =>
        exfalso
        simp only [EStateM.Result.ok.injEq] at hrun
        have hlen : S.length + 2 ≤ s.length := houtcome
        have htail := congrArg List.length hrun.2
        rw [List.length_tail] at htail
        omega
      | .error e s, _, hrun => cases hrun
    · rw [if_neg hlt] at hrun
      cases hrun
  · rintro ⟨hlt, hplain⟩
    obtain ⟨T, hadds, hconverts⟩ := @adds_of_plain H _ _ [] hplain (H.distinct t) fun _ _ _ _ => List.not_mem_nil
    rw [List.nil_append] at hadds
    obtain ⟨n, hn⟩ := @entries_settle _ _ numberText _ _ _ _ _ _ _ hadds rfl (follows_nil (H.entries t))
    refine ⟨.ok T, ⟨n, fun k hk => ?_⟩, fun T' hT' => ?_⟩
    · show serializeTable H limit numberText k _ = _
      have hentries : serializeEntries H limit numberText k [] (.nil :: .table t :: S) = .ok (.ok T) (.table t :: S) :=
        hn k hk
      have hlen : (Value.table t :: S).length < limit := hlt
      unfold serializeTable
      rw [aroundEntries_run, if_pos hlen, hentries]
      rfl
    · cases hT'
      exact hconverts

end Extraction

end Luwu.LuauConfig
