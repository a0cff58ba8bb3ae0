import Mathlib.Data.List.Perm.Subperm
import Mathlib.Data.List.Infix
import Mathlib.Logic.Function.Basic
import Mathlib.Logic.Relation
import Luwu.Lib.Chain

/-!
# Generic pack scopes

`MappedGenericEnvironment`: frames for the scopes of generic packs.  A frame stays when its scope is closed; `currentScopeIndex` says
where the environment is.
-/

namespace Luwu.Subtyping

open Function Luwu.Chains

/-- What the environment knows of type packs, and the order in which a set of indices is read out. -/
structure Packs (Pack : Type) where
  follow : Pack → Pack
  isGeneric : Pack → Bool
  order : List ℕ → List ℕ
  follow_generic : ∀ p, isGeneric p = true → follow p = p
  order_perm : ∀ l, (order l).Perm l

/-- A pack of the scope is mapped to nothing until it is bound. -/
structure MappedGenericFrame (Pack : Type) where
  mappings : Pack → Option (Option Pack)
  parentScopeIndex : Option ℕ
  children : List ℕ

structure MappedGenericEnvironment (Pack : Type) where
  frames : List (MappedGenericFrame Pack)
  currentScopeIndex : Option ℕ

inductive LookupResult (Pack : Type) where
  | pack (tp : Pack)
  | unmapped (scopeIndex : ℕ)
  | notBindable
  deriving DecidableEq

/-- What a frame that has the pack answers -/
def LookupResult.ofMapping {Pack : Type} (scopeIndex : ℕ) : Option Pack → LookupResult Pack
  | some tp => .pack tp
  | none => .unmapped scopeIndex

namespace MappedGenericEnvironment

variable {Pack : Type} (S : Packs Pack) (env : MappedGenericEnvironment Pack)

def empty : MappedGenericEnvironment Pack := ⟨[], none⟩

/-- The loop over the enclosing scopes; an index that is no frame has no outcome. -/
def searchUp (tp : Pack) : ℕ → Option ℕ → Option (Option (LookupResult Pack))
  | _, none => some none
  | 0, some _ => none
  | fuel + 1, some i =>
    match env.frames[i]? with
    | none => none
    | some frame =>
      match frame.mappings tp with
      | some m => some (some (.ofMapping i m))
      | none => searchUp tp fuel frame.parentScopeIndex

/-- The search of the enclosed scopes; the back of `toCheck` is the head of the list. -/
def searchDown (tp : Pack) : ℕ → List ℕ → Option (Option (LookupResult Pack))
  | _, [] => some none
  | 0, _ :: _ => none
  | fuel + 1, i :: toCheck =>
    match env.frames[i]? with
    | none => none
    | some frame =>
      match frame.mappings tp with
      | some m => some (some (.ofMapping i m))
      | none => searchDown tp fuel ((S.order frame.children).reverse ++ toCheck)

def lookupGenericPack (genericTp : Pack) : Option (LookupResult Pack) :=
  match env.searchUp (S.follow genericTp) env.frames.length env.currentScopeIndex with
  | none => none
  | some (some result) => some result
  | some none =>
    match env.currentScopeIndex with
    | none => some .notBindable
    | some i =>
      match env.frames[i]? with
      | none => none
      | some baseFrame =>
        (env.searchDown S (S.follow genericTp) env.frames.length (S.order baseFrame.children).reverse).map fun result =>
          result.getD .notBindable

variable [DecidableEq Pack]

def pushFrame (genericTps : List Pack) : MappedGenericEnvironment Pack :=
  let frames := env.frames ++ [⟨fun tp => if tp ∈ genericTps then some none else none, env.currentScopeIndex, []⟩]
  let newFrameIndex := frames.length - 1
  let frames := match env.currentScopeIndex with
    | none => frames
    | some i => frames.modify i fun frame => { frame with children := frame.children.insert newFrameIndex }
  ⟨frames, some newFrameIndex⟩

/-- With a scope that is open -/
def popFrame : MappedGenericEnvironment Pack :=
  match env.currentScopeIndex with
  | none => env
  | some i => { env with currentScopeIndex := some ((env.frames[i]?.bind MappedGenericFrame.parentScopeIndex).getD 0) }

/-- `frames[scopeIndex].mappings[genericTp] = bindeeTp` -/
def setMapping (scopeIndex : ℕ) (genericTp bindeeTp : Pack) : MappedGenericEnvironment Pack :=
  { env with frames := env.frames.modify scopeIndex fun frame =>
      { frame with mappings := update frame.mappings genericTp (some (some bindeeTp)) } }

def bindGeneric (genericTp bindeeTp : Pack) : Option (MappedGenericEnvironment Pack × Bool) :=
  if genericTp = bindeeTp then some (env, true)
  else if S.isGeneric genericTp = false then some (env, false)
  else match env.lookupGenericPack S genericTp with
    | none => none
    | some (.unmapped scopeIndex) => some (env.setMapping scopeIndex genericTp bindeeTp, true)
    | some _ => some (env, false)

/-! ### Frames by their index -/

def parentOf (i : ℕ) : Option ℕ := env.frames[i]?.bind MappedGenericFrame.parentScopeIndex

def childrenOf (i : ℕ) : List ℕ := (env.frames[i]?.map MappedGenericFrame.children).getD []

/-- What a scope maps a pack to, if it quantifies it -/
def find (i : ℕ) (tp : Pack) : Option (Option Pack) := env.frames[i]?.bind fun frame => frame.mappings tp

/-- The scope `j` is somewhere inside the scope `i`. -/
def Inside (j i : ℕ) : Prop := Relation.TransGen (fun j i => env.parentOf j = some i) j i

end MappedGenericEnvironment

/-! ### The links -/

section Links

open MappedGenericEnvironment

variable {Pack : Type} {S : Packs Pack} {env env' : MappedGenericEnvironment Pack} {i j k : ℕ} {tp genericTp bindeeTp : Pack}
  {genericTps : List Pack} {xs : List ℕ}

/-- The links of parents and children are those of a forest in the order of opening. -/
structure Linked (env : MappedGenericEnvironment Pack) : Prop where
  current : ∀ i, env.currentScopeIndex = some i → i < env.frames.length
  parent : ∀ j i, env.parentOf j = some i → i < j
  children : ∀ i j, j ∈ env.childrenOf i ↔ env.parentOf j = some i
  nodup : ∀ i, (env.childrenOf i).Nodup

theorem lt_of_parentOf (h : env.parentOf j = some i) : j < env.frames.length := by
  by_contra hle
  unfold parentOf at h
  rw [List.getElem?_eq_none (by omega)] at h
  cases h

theorem Linked.inside_lt (L : Linked env) (h : env.Inside j i) : i < j := by
  induction h with
  | single h => exact L.parent _ _ h
  | tail _ h ih => exact Nat.lt_trans (L.parent _ _ h) ih

theorem Inside.lt_length (h : env.Inside j i) : j < env.frames.length := by
  obtain ⟨k, hk, -⟩ := Relation.TransGen.head'_iff.mp h
  exact lt_of_parentOf hk

theorem linked_empty : Linked (empty : MappedGenericEnvironment Pack) :=
  ⟨fun _ h => (Option.some_ne_none _ h.symm).elim, fun _ _ h => (Option.some_ne_none _ h.symm).elim,
    fun _ _ => iff_of_false List.not_mem_nil fun h => Option.some_ne_none _ h.symm, fun _ => List.nodup_nil⟩

/-- The enclosing scopes are not more than the frames. -/
theorem Linked.chain_length (L : Linked env) {head : Option ℕ} (h : Chain env.parentOf head xs) (hi : head = some i) :
    xs.length ≤ i + 1 := by
  induction xs generalizing head i with
  | nil => exact Nat.zero_le _
  | cons x xs ih =>
    obtain ⟨hx, hrest⟩ := h
    obtain rfl := Option.some.inj (hi.symm.trans hx)
    rw [List.length_cons]
    cases hparent : env.parentOf i with
    | none =>
      rw [hparent] at hrest
      cases xs with
      | nil => exact Nat.le_add_left _ _
      | cons y ys => cases hrest.1
    | some j =>
      have hle := ih hrest hparent
      have hlt := L.parent _ _ hparent
      omega

theorem Linked.mem_chain (L : Linked env) {head : Option ℕ} (h : Chain env.parentOf head xs)
    (hhead : ∀ i, head = some i → i < env.frames.length) : ∀ x ∈ xs, x < env.frames.length := by
  induction xs generalizing head with
  | nil => exact fun x hx => absurd hx List.not_mem_nil
  | cons y ys ih =>
    obtain ⟨hy, hrest⟩ := h
    intro x hx
    rcases List.mem_cons.mp hx with rfl | hx
    · exact hhead _ hy
    · refine ih hrest (fun i hi => ?_) x hx
      exact Nat.lt_trans (L.parent _ _ hi) (hhead _ hy)

theorem frame_of_lt (h : i < env.frames.length) : ∃ frame, env.frames[i]? = some frame := ⟨_, List.getElem?_eq_getElem h⟩

theorem find_eq {frame : MappedGenericFrame Pack} (h : env.frames[i]? = some frame) : env.find i tp = frame.mappings tp := by
  unfold find
  rw [h]
  rfl

theorem parentOf_eq {frame : MappedGenericFrame Pack} (h : env.frames[i]? = some frame) : env.parentOf i = frame.parentScopeIndex := by
  unfold parentOf
  rw [h]
  rfl

theorem childrenOf_eq {frame : MappedGenericFrame Pack} (h : env.frames[i]? = some frame) : env.childrenOf i = frame.children := by
  unfold childrenOf
  rw [h]
  rfl

/-! ### Lookups -/

/-- **The enclosing scopes** are asked from the innermost one on. -/
theorem searchUp_eq {fuel : ℕ} {head : Option ℕ} (h : Chain env.parentOf head xs) (hin : ∀ x ∈ xs, x < env.frames.length)
    (hfuel : xs.length ≤ fuel) : env.searchUp tp fuel head = some (xs.findSome? fun i => (env.find i tp).map (.ofMapping i)) := by
  induction xs generalizing head fuel with
  | nil =>
    obtain rfl : head = none := h
    cases fuel <;> rfl
  | cons x xs ih =>
    obtain ⟨rfl, hrest⟩ := h
    cases fuel with
    | zero => exact absurd hfuel (by simp)
    | succ fuel =>
      obtain ⟨frame, hx⟩ := frame_of_lt (hin x List.mem_cons_self)
      rw [searchUp, hx, List.findSome?_cons, find_eq hx]
      dsimp only
      cases frame.mappings tp with
      | some m => rfl
      | none =>
        dsimp only [Option.map_none]
        rw [← parentOf_eq hx]
        exact ih hrest (fun y hy => hin y (List.mem_cons_of_mem x hy)) (by simpa using hfuel)

/-- How far the search inside a scope got: `done` are the scopes that were asked, and `toCheck` those that come next. -/
structure Visiting (env : MappedGenericEnvironment Pack) (i : ℕ) (done toCheck : List ℕ) : Prop where
  nodup : (done ++ toCheck).Nodup
  inside : ∀ x ∈ done ++ toCheck, env.Inside x i
  reached : ∀ x ∈ done ++ toCheck, env.parentOf x = some i ∨ ∃ y ∈ done, env.parentOf x = some y
  closed : ∀ x y, y = i ∨ y ∈ done → env.parentOf x = some y → x ∈ done ++ toCheck

variable {done toCheck : List ℕ}

theorem Visiting.length_le (V : Visiting env i done toCheck) : done.length + toCheck.length ≤ env.frames.length := by
  have hsub : (done ++ toCheck) ⊆ List.range env.frames.length := fun x hx =>
    List.mem_range.mpr (Inside.lt_length (V.inside x hx))
  have hle := (V.nodup.subperm hsub).length_le
  rwa [List.length_append, List.length_range] at hle

/-- At the end every scope inside was asked. -/
theorem Visiting.all (V : Visiting env i done []) (h : env.Inside j i) : j ∈ done := by
  have hall : ∀ x y, y = i ∨ y ∈ done → env.parentOf x = some y → x ∈ done := fun x y hy hx => by
    have := V.closed x y hy hx
    rwa [List.append_nil] at this
  induction h using Relation.TransGen.head_induction_on with
  | single h => exact hall _ _ (Or.inl rfl) h
  | head h _ ih => exact hall _ _ (Or.inr ih) h

theorem Linked.visiting_start (L : Linked env) (S : Packs Pack) (i : ℕ) :
    Visiting env i [] (S.order (env.childrenOf i)).reverse := by
  have hmem : ∀ x, x ∈ (S.order (env.childrenOf i)).reverse ↔ env.parentOf x = some i := fun x => by
    rw [List.mem_reverse, (S.order_perm _).mem_iff, L.children]
  refine ⟨?_, ?_, ?_, ?_⟩
  · exact List.nodup_reverse.mpr ((S.order_perm _).nodup_iff.mpr (L.nodup i))
  · intro x hx
    exact Relation.TransGen.single ((hmem x).mp hx)
  · intro x hx
    exact Or.inl ((hmem x).mp hx)
  · rintro x y (rfl | hy) hx
    · exact (hmem x).mpr hx
    · exact absurd hy List.not_mem_nil

/-- **One scope** is asked, and its children come next. -/
theorem Linked.visiting_step (L : Linked env) (S : Packs Pack) (V : Visiting env i done (j :: toCheck)) :
    Visiting env i (j :: done) ((S.order (env.childrenOf j)).reverse ++ toCheck) := by
  have hmem : ∀ x, x ∈ (S.order (env.childrenOf j)).reverse ↔ env.parentOf x = some j := fun x => by
    rw [List.mem_reverse, (S.order_perm _).mem_iff, L.children]
  have hj : env.Inside j i := V.inside j (by simp)
  have hnodup := V.nodup
  rw [List.nodup_middle] at hnodup
  obtain ⟨hnew, hold⟩ := List.nodup_cons.mp hnodup
  have hnotdone : j ∉ done := fun h => hnew (List.mem_append_left _ h)
  -- a child was not seen before its parent
  have hfresh : ∀ x, env.parentOf x = some j → x ∉ done ++ j :: toCheck := by
    intro x hx hxmem
    rcases V.reached x hxmem with h | ⟨y, hy, h⟩
    · obtain rfl := Option.some.inj (hx.symm.trans h)
      exact absurd (L.inside_lt hj) (Nat.lt_irrefl _)
    · obtain rfl := Option.some.inj (hx.symm.trans h)
      exact hnotdone hy
  have hchildren : (S.order (env.childrenOf j)).reverse.Nodup :=
    List.nodup_reverse.mpr ((S.order_perm _).nodup_iff.mpr (L.nodup j))
  have hsplit : ∀ x, x ∈ (j :: done) ++ ((S.order (env.childrenOf j)).reverse ++ toCheck) ↔
      x ∈ done ++ j :: toCheck ∨ env.parentOf x = some j := by
    intro x
    simp only [List.mem_append, List.mem_cons, hmem]
    tauto
  refine ⟨?_, ?_, ?_, ?_⟩
  · have hperm : ((j :: done) ++ ((S.order (env.childrenOf j)).reverse ++ toCheck)).Perm
        ((S.order (env.childrenOf j)).reverse ++ (done ++ j :: toCheck)) := by
      refine (List.perm_append_comm_assoc _ _ _).trans (List.Perm.append_left _ ?_)
      exact (List.perm_middle (a := j)).symm
    rw [hperm.nodup_iff]
    exact hchildren.append V.nodup fun x hx hx' => hfresh x ((hmem x).mp hx) hx'
  · intro x hx
    rcases (hsplit x).mp hx with h | h
    · exact V.inside x h
    · exact Relation.TransGen.head h hj
  · intro x hx
    rcases (hsplit x).mp hx with h | h
    · exact (V.reached x h).imp_right fun ⟨y, hy, h⟩ => ⟨y, List.mem_cons_of_mem j hy, h⟩
    · exact Or.inr ⟨j, List.mem_cons_self, h⟩
  · intro x y hy hx
    rw [hsplit]
    rcases hy with rfl | hy
    · exact Or.inl (V.closed x _ (Or.inl rfl) hx)
    · rcases List.mem_cons.mp hy with rfl | hy
      · exact Or.inr hx
      · exact Or.inl (V.closed x y (Or.inr hy) hx)

/-- **The scopes inside** are asked until one has the pack. -/
theorem Linked.searchDown_spec (L : Linked env) (S : Packs Pack) {fuel : ℕ} (V : Visiting env i done toCheck)
    (hdone : ∀ j ∈ done, env.find j tp = none) (hfuel : env.frames.length ≤ done.length + fuel) :
    ∃ r, env.searchDown S tp fuel toCheck = some r ∧
      (r = none ∧ (∀ j, env.Inside j i → env.find j tp = none) ∨
        ∃ j m, env.Inside j i ∧ env.find j tp = some m ∧ r = some (.ofMapping j m)) := by
  induction fuel generalizing done toCheck with
  | zero =>
    have hle := V.length_le
    obtain rfl : toCheck = [] := List.eq_nil_of_length_eq_zero (by omega)
    exact ⟨none, rfl, Or.inl ⟨rfl, fun j hj => hdone j (V.all hj)⟩⟩
  | succ fuel ih =>
    cases toCheck with
    | nil => exact ⟨none, rfl, Or.inl ⟨rfl, fun j hj => hdone j (V.all hj)⟩⟩
    | cons j toCheck =>
      have hj : env.Inside j i := V.inside j (by simp)
      obtain ⟨frame, hframe⟩ := frame_of_lt (Inside.lt_length hj)
      rw [searchDown, hframe]
      dsimp only
      cases hm : frame.mappings tp with
      | some m => exact ⟨_, rfl, Or.inr ⟨j, m, hj, (find_eq hframe).trans hm, rfl⟩⟩
      | none =>
        dsimp only
        rw [← childrenOf_eq hframe]
        refine ih (L.visiting_step S V) (fun k hk => ?_) (by rw [List.length_cons]; omega)
        rcases List.mem_cons.mp hk with rfl | hk
        · exact (find_eq hframe).trans hm
        · exact hdone k hk

/-- Where the search goes depends on the scopes inside alone. -/
theorem Linked.searchDown_congr (L : Linked env) (S : Packs Pack) {fuel : ℕ} (V : Visiting env i done toCheck)
    (hchildren : ∀ j, env'.childrenOf j = env.childrenOf j) (hlength : env'.frames.length = env.frames.length)
    (hfind : ∀ j, env.Inside j i → env'.find j tp = env.find j tp) :
    env'.searchDown S tp fuel toCheck = env.searchDown S tp fuel toCheck := by
  induction fuel generalizing done toCheck with
  | zero => cases toCheck <;> rfl
  | succ fuel ih =>
    cases toCheck with
    | nil => rfl
    | cons j toCheck =>
      have hj : env.Inside j i := V.inside j (by simp)
      obtain ⟨frame, hframe⟩ := frame_of_lt (Inside.lt_length hj)
      obtain ⟨frame', hframe'⟩ := @frame_of_lt _ env' j (by rw [hlength]; exact Inside.lt_length hj)
      have hm := hfind j hj
      rw [find_eq hframe, find_eq hframe'] at hm
      rw [searchDown, searchDown, hframe, hframe']
      dsimp only
      rw [hm]
      cases frame.mappings tp with
      | some m => rfl
      | none =>
        dsimp only
        rw [← childrenOf_eq hframe, ← childrenOf_eq hframe', hchildren]
        exact ih (L.visiting_step S V)

/-! ### The operations on the links -/

theorem parentOf_length (h : env.frames.length ≤ j) : env.parentOf j = none := by
  unfold parentOf
  rw [List.getElem?_eq_none h]
  rfl

theorem Linked.pop (L : Linked env) : Linked env.popFrame := by
  unfold popFrame
  cases hcurrent : env.currentScopeIndex with
  | none =>
    dsimp only
    exact L
  | some i =>
    refine ⟨fun k hk => ?_, L.parent, L.children, L.nodup⟩
    have hi := L.current i hcurrent
    obtain rfl := Option.some.inj hk
    show (env.parentOf i).getD 0 < env.frames.length
    cases hparent : env.parentOf i with
    | none => exact Nat.lt_of_le_of_lt (Nat.zero_le _) hi
    | some j => exact Nat.lt_trans (L.parent i j hparent) hi

section Operations

variable [DecidableEq Pack]

theorem pushFrame_get (L : Linked env) (genericTps : List Pack) (j : ℕ) : (env.pushFrame genericTps).frames[j]? =
    if j = env.frames.length then some ⟨fun tp => if tp ∈ genericTps then some none else none, env.currentScopeIndex, []⟩
    else env.frames[j]?.map fun frame =>
      if env.currentScopeIndex = some j then { frame with children := frame.children.insert env.frames.length } else frame := by
  have hsub : (env.frames ++ [(⟨fun tp => if tp ∈ genericTps then some none else none, env.currentScopeIndex, []⟩ :
      MappedGenericFrame Pack)]).length - 1 = env.frames.length := by simp
  unfold pushFrame
  dsimp only
  rw [hsub]
  cases hcurrent : env.currentScopeIndex with
  | none =>
    dsimp only
    by_cases hj : j = env.frames.length
    · rw [if_pos hj, hj, List.getElem?_concat_length]
    · rw [if_neg hj, List.getElem?_append]
      by_cases hlt : j < env.frames.length
      · rw [if_pos hlt]
        simp
      · rw [if_neg hlt, List.getElem?_eq_none (by simp; omega), List.getElem?_eq_none (by omega)]
        rfl
  | some i =>
    have hi := L.current i hcurrent
    dsimp only
    rw [List.getElem?_modify]
    by_cases hj : j = env.frames.length
    · rw [if_pos hj, hj, List.getElem?_concat_length]
      simp only [Option.map_eq_map, Option.map_some]
      rw [if_neg (by omega)]
    · rw [if_neg hj, List.getElem?_append]
      by_cases hlt : j < env.frames.length
      · rw [if_pos hlt]
        simp only [Option.some.injEq]
        rfl
      · rw [if_neg hlt, List.getElem?_eq_none (by simp; omega), List.getElem?_eq_none (by omega)]
        rfl

theorem parentOf_push (L : Linked env) (genericTps : List Pack) (j : ℕ) :
    (env.pushFrame genericTps).parentOf j = if j = env.frames.length then env.currentScopeIndex else env.parentOf j := by
  unfold parentOf
  rw [pushFrame_get L]
  by_cases hj : j = env.frames.length
  · rw [if_pos hj, if_pos hj]
    rfl
  · rw [if_neg hj, if_neg hj]
    cases env.frames[j]? with
    | none => rfl
    | some frame =>
      by_cases hc : env.currentScopeIndex = some j
      · simp [hc]
      · simp [hc]

theorem childrenOf_push (L : Linked env) (genericTps : List Pack) (i : ℕ) : (env.pushFrame genericTps).childrenOf i =
    if env.currentScopeIndex = some i then (env.childrenOf i).insert env.frames.length else env.childrenOf i := by
  unfold childrenOf
  rw [pushFrame_get L]
  by_cases hi : i = env.frames.length
  · have hc : env.currentScopeIndex ≠ some i := fun h => by
      have := L.current i h
      omega
    rw [if_pos hi, if_neg hc, List.getElem?_eq_none (by omega)]
    rfl
  · rw [if_neg hi]
    by_cases hc : env.currentScopeIndex = some i
    · obtain ⟨frame, hframe⟩ := frame_of_lt (L.current i hc)
      rw [if_pos hc, hframe]
      simp [hc]
    · rw [if_neg hc]
      simp [hc]

theorem pushFrame_current (genericTps : List Pack) : (env.pushFrame genericTps).currentScopeIndex = some env.frames.length := by
  unfold pushFrame
  simp

theorem pushFrame_length (genericTps : List Pack) : (env.pushFrame genericTps).frames.length = env.frames.length + 1 := by
  unfold pushFrame
  dsimp only
  cases env.currentScopeIndex with
  | none => simp
  | some i => simp

theorem Linked.push (L : Linked env) (genericTps : List Pack) : Linked (env.pushFrame genericTps) where
  current i hi := by
    rw [pushFrame_current] at hi
    obtain rfl := Option.some.inj hi
    rw [pushFrame_length]
    exact Nat.lt_succ_self _
  parent j i h := by
    rw [parentOf_push L] at h
    by_cases hj : j = env.frames.length
    · rw [if_pos hj] at h
      rw [hj]
      exact L.current i h
    · rw [if_neg hj] at h
      exact L.parent j i h
  children i j := by
    have hold := L.children i j
    rw [childrenOf_push L, parentOf_push L]
    by_cases hj : j = env.frames.length
    · rw [if_pos hj]
      by_cases hc : env.currentScopeIndex = some i
      · rw [if_pos hc, List.mem_insert_iff]
        exact iff_of_true (Or.inl hj) hc
      · rw [if_neg hc, hold, parentOf_length (by omega)]
        exact iff_of_false (fun h => by cases h) hc
    · rw [if_neg hj, ← hold]
      by_cases hc : env.currentScopeIndex = some i
      · rw [if_pos hc, List.mem_insert_iff]
        exact or_iff_right hj
      · rw [if_neg hc]
  nodup i := by
    rw [childrenOf_push L]
    by_cases hc : env.currentScopeIndex = some i
    · rw [if_pos hc]
      exact (L.nodup i).insert
    · rw [if_neg hc]
      exact L.nodup i

theorem setMapping_get (genericTp bindeeTp : Pack) (i j : ℕ) : (env.setMapping i genericTp bindeeTp).frames[j]? =
    env.frames[j]?.map fun frame =>
      if i = j then { frame with mappings := update frame.mappings genericTp (some (some bindeeTp)) } else frame := by
  unfold setMapping
  rw [List.getElem?_modify]
  rfl

theorem parentOf_set (genericTp bindeeTp : Pack) (i j : ℕ) : (env.setMapping i genericTp bindeeTp).parentOf j = env.parentOf j := by
  unfold parentOf
  rw [setMapping_get]
  cases env.frames[j]? with
  | none => rfl
  | some frame => by_cases h : i = j <;> simp [h]

theorem childrenOf_set (genericTp bindeeTp : Pack) (i j : ℕ) :
    (env.setMapping i genericTp bindeeTp).childrenOf j = env.childrenOf j := by
  unfold childrenOf
  rw [setMapping_get]
  cases env.frames[j]? with
  | none => rfl
  | some frame => by_cases h : i = j <;> simp [h]

theorem find_set (genericTp bindeeTp : Pack) (i j : ℕ) (tp : Pack) (h : ¬ (j = i ∧ tp = genericTp)) :
    (env.setMapping i genericTp bindeeTp).find j tp = env.find j tp := by
  unfold find
  rw [setMapping_get]
  cases env.frames[j]? with
  | none => rfl
  | some frame =>
    by_cases hij : i = j
    · have htp : tp ≠ genericTp := fun htp => h ⟨hij.symm, htp⟩
      simp [hij, update_of_ne htp]
    · simp [hij]

theorem find_set_self {m : Option Pack} (bindeeTp : Pack) (h : env.find i genericTp = some m) :
    (env.setMapping i genericTp bindeeTp).find i genericTp = some (some bindeeTp) := by
  unfold find at h ⊢
  rw [setMapping_get]
  cases hframe : env.frames[i]? with
  | none =>
    rw [hframe] at h
    cases h
  | some frame => simp

theorem setMapping_length (genericTp bindeeTp : Pack) (i : ℕ) :
    (env.setMapping i genericTp bindeeTp).frames.length = env.frames.length := by
  unfold setMapping
  simp

theorem Linked.set (L : Linked env) (genericTp bindeeTp : Pack) (i : ℕ) : Linked (env.setMapping i genericTp bindeeTp) where
  current k hk := by
    rw [setMapping_length]
    exact L.current k hk
  parent j k h := by
    rw [parentOf_set] at h
    exact L.parent j k h
  children k j := by
    rw [childrenOf_set, parentOf_set]
    exact L.children k j
  nodup k := by
    rw [childrenOf_set]
    exact L.nodup k

end Operations

end Links

end Luwu.Subtyping
