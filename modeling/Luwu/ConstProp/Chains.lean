import Mathlib.Data.Finset.Card
import Mathlib.Data.Finset.Range
import Luwu.ConstProp.Tags

/-!
# Tags along chains of blocks

`constPropInBlockChains` visits every block once, alone or in a chain of blocks that are only entered from the one before.
The tags that it records at the end of a block are those that every execution leaves there, if its propagation inside of
single blocks is right.
-/

namespace Luwu.ConstProp

inductive IrBlockKind
  | Bytecode
  | Fallback
  | Internal
  | Linearized
  | ExitSync
  | Dead
deriving DecidableEq

/-- What the propagation knows of the registers; `rest` is what it knows of values and the heap. -/
structure ConstPropState (ρ : Type) where
  tag : ℕ → Tag
  maxReg : ℕ
  rest : ρ

def ConstPropState.updateTag {ρ : Type} (i : ℕ) (t : Tag) (s : ConstPropState ρ) : ConstPropState ρ :=
  { s with tag := Function.update s.tag i t, maxReg := max i s.maxReg }

def constPropTags (ρ : Type) : TagState (ConstPropState ρ) where
  getTag := ConstPropState.tag
  setTag := ConstPropState.updateTag
  get_set s i t j := Function.update_apply s.tag i t j

/-- The function that is optimized and the parts of the pass that work inside of a block -/
structure Pass (F ρ : Type) where
  kind : F → ℕ → IrBlockKind
  /-- The target of the jump that ends a block, if it ends with one to a block -/
  jumpTarget : F → ℕ → Option ℕ
  useCount : F → ℕ → ℕ
  getLiveOutValueCount : F → ℕ → ℕ
  /-- The block checks the tags of the arguments. -/
  entryArgCheck : ℕ → Bool
  /-- The tags of the arguments that are declared and never written or captured -/
  argumentTags : List (Option Tag)
  clearRest : ρ → ρ
  constPropInBlock : ℕ → F → ConstPropState ρ → F × ConstPropState ρ

structure World (F ρ : Type) where
  function : F
  blockExitTags : List (List Tag)
  visited : Finset ℕ
  state : ConstPropState ρ

section

variable {F ρ : Type} (P : Pass F ρ) (cfg : CfgInfo)

/-- Only the registers up to `maxReg` are cleared. -/
def clear (s : ConstPropState ρ) : ConstPropState ρ where
  tag i := if i ≤ s.maxReg then kUnknownTag else s.tag i
  maxReg := 0
  rest := P.clearRest s.rest

def setArgumentTags : ℕ → List (Option Tag) → ConstPropState ρ → ConstPropState ρ
  | _, [], s => s
  | i, none :: types, s => setArgumentTags (i + 1) types s
  | i, some vmTag :: types, s => setArgumentTags (i + 1) types (s.updateTag i vmTag)

def setupBlockEntryState (blockExitTags : List (List Tag)) (block : ℕ) (s : ConstPropState ρ) : ConstPropState ρ :=
  if P.entryArgCheck block then s
  else propagateTagsFromPredecessors (constPropTags ρ) cfg blockExitTags block (setArgumentTags 0 P.argumentTags s)

def saveBlockExitState (block : ℕ) (w : World F ρ) : World F ρ :=
  { w with blockExitTags := w.blockExitTags.set block ((List.range (w.state.maxReg + 1)).map w.state.tag) }

/-- The block that the chain goes on with; a target with live values ends the chain before the tags are saved. -/
def nextBlock (f : F) (visited : Finset ℕ) (block : ℕ) : Option (Option ℕ) :=
  match P.jumpTarget f block with
  | none => some none
  | some target =>
    if P.useCount f target = 1 ∧ target ∉ visited ∧ P.kind f target ≠ .Fallback then
      if P.getLiveOutValueCount f target ≠ 0 then none else some (some target)
    else some none

/-- The loop of `constPropInBlockChain`, with fuel for its turns -/
def chain : ℕ → ℕ → World F ρ → Option (World F ρ)
  | 0, _, _ => none
  | fuel + 1, block, w =>
    let r := P.constPropInBlock block w.function w.state
    let w := { w with function := r.1, state := r.2, visited := insert block w.visited }
    if P.kind w.function block = .Dead then some w
    else match nextBlock P w.function w.visited block with
      | none => some w
      | some none => some (saveBlockExitState block w)
      | some (some target) => chain fuel target (saveBlockExitState block w)

def constPropInBlockChain (blocks block : ℕ) (w : World F ρ) : Option (World F ρ) :=
  chain P blocks block { w with state := setupBlockEntryState P cfg w.blockExitTags block (clear P w.state) }

def visitBlock (blocks : ℕ) (w : World F ρ) (block : ℕ) : Option (World F ρ) :=
  if P.kind w.function block = .Fallback ∨ P.kind w.function block = .Dead then some w
  else if block ∈ w.visited then some w
  else constPropInBlockChain P cfg blocks block w

def constPropInBlockChains (blocks : ℕ) (f : F) (s : ConstPropState ρ) : Option (World F ρ) :=
  (List.range blocks).foldlM (visitBlock P cfg blocks) ⟨f, List.replicate blocks [], ∅, s⟩

end

/-! ### Executions -/

/-- Executions, with the tags of the registers before and after each block -/
structure Executions where
  /-- A block is entered from outside. -/
  Enter : ℕ → (ℕ → Tag) → Prop
  /-- A block that runs to its end changes the tags. -/
  Runs : ℕ → (ℕ → Tag) → (ℕ → Tag) → Prop
  /-- The end of a block goes to another one. -/
  Edge : ℕ → ℕ → Prop
  /-- Guards inside of a block leave for this one. -/
  Escape : ℕ → Prop

inductive Executions.Reaches (X : Executions) : ℕ → (ℕ → Tag) → Prop
  | enter {b : ℕ} {v : ℕ → Tag} : X.Enter b v → X.Reaches b v
  | edge {p b : ℕ} {v v' : ℕ → Tag} : X.Reaches p v → X.Runs p v v' → X.Edge p b → X.Reaches b v'
  | escape {b : ℕ} {v : ℕ → Tag} : X.Escape b → X.Reaches b v

/-- What is known of the tags is true. -/
def Agrees {ρ : Type} (s : ConstPropState ρ) (v : ℕ → Tag) : Prop := ∀ i, s.tag i ≠ kUnknownTag → v i = s.tag i

/-- Nothing is known of registers past `maxReg`. -/
def Bounded {ρ : Type} (s : ConstPropState ρ) : Prop := ∀ i, s.maxReg < i → s.tag i = kUnknownTag

/-- Tags recorded at the end of a block hold in all executions. -/
def Recorded (X : Executions) (blockExitTags : List (List Tag)) : Prop :=
  ∀ p tags v v', blockExitTags[p]? = some tags → X.Reaches p v → X.Runs p v v' →
    ∀ i t, tags[i]? = some t → t ≠ kUnknownTag → v' i = t

section

variable {F ρ : Type}

/-- The pass works on a function with these executions: its edges are known, guards leave for fallback blocks, a block with
a single use is entered by the jump that uses it, and inside of a block what is known stays true. -/
structure Fits (P : Pass F ρ) (cfg : CfgInfo) (X : Executions) (blocks : ℕ) : Prop where
  edge : ∀ p b, X.Edge p b → p ∈ cfg.preds b
  enter : ∀ b v, X.Enter b v → b = 0 ∨ cfg.preds b = []
  escape : ∀ f b, X.Escape b → P.kind f b = .Fallback ∨ P.kind f b = .Dead
  single : ∀ f p b, P.jumpTarget f p = some b → P.useCount f b = 1 → P.kind f b ≠ .Fallback →
    b < blocks ∧ p ∈ cfg.preds b ∧ ¬X.Escape b ∧ ∀ q, X.Edge q b → q = p
  arguments : ∀ b v, X.Reaches b v → P.entryArgCheck b = false → ∀ i t, P.argumentTags[i]? = some (some t) → v i = t
  bounded : ∀ b f s, Bounded s → Bounded (P.constPropInBlock b f s).2
  block : ∀ b f s v v', Bounded s → X.Reaches b v → Agrees s v → X.Runs b v v' →
    Agrees (P.constPropInBlock b f s).2 v'

variable {P : Pass F ρ} {cfg : CfgInfo} {X : Executions} {blocks : ℕ} {w : World F ρ} {s : ConstPropState ρ} {b : ℕ}

/-! ### The entry of a chain -/

theorem Bounded.updateTag (h : Bounded s) (i : ℕ) (t : Tag) : Bounded (s.updateTag i t) := by
  intro j hj
  have hmax : i < j ∧ s.maxReg < j := max_lt_iff.mp hj
  exact (Function.update_of_ne hmax.1.ne' t s.tag).trans (h j hmax.2)

theorem Bounded.clear (h : Bounded s) (i : ℕ) : (clear P s).tag i = kUnknownTag := by
  unfold ConstProp.clear
  dsimp only
  split
  · rfl
  · rename_i hi
    exact h i (Nat.lt_of_not_le hi)

theorem Bounded.setArgumentTags (types : List (Option Tag)) (i : ℕ) (h : Bounded s) :
    Bounded (setArgumentTags i types s) := by
  induction types generalizing i s with
  | nil => exact h
  | cons type types ih =>
    cases type with
    | none => exact ih (i + 1) h
    | some t => exact ih (i + 1) (h.updateTag i t)

theorem Agrees.setArgumentTags {v : ℕ → Tag} (types : List (Option Tag)) (i : ℕ) (h : Agrees s v)
    (hargs : ∀ j t, types[j]? = some (some t) → v (i + j) = t) : Agrees (setArgumentTags i types s) v := by
  induction types generalizing i s with
  | nil => exact h
  | cons type types ih =>
    have hrest : ∀ j t, types[j]? = some (some t) → v (i + 1 + j) = t := by
      intro j t hj
      rw [Nat.add_assoc, Nat.add_comm 1]
      exact hargs (j + 1) t hj
    cases type with
    | none => exact ih (i + 1) h hrest
    | some t =>
      refine ih (i + 1) ?_ hrest
      intro j hj
      by_cases heq : j = i
      · subst heq
        exact (hargs 0 t rfl).trans (Function.update_self j t s.tag).symm
      · have hsame : (s.updateTag i t).tag j = s.tag j := by
          show Function.update s.tag i t j = s.tag j
          rw [Function.update_of_ne heq]
        rw [hsame] at hj ⊢
        exact h j hj

theorem Bounded.propagateTags (live : ℕ → Bool) (n : ℕ) (first : Bool) (preds : List (List Tag)) (h : Bounded s) :
    Bounded (propagateTags (constPropTags ρ) live n first preds s) := by
  induction preds generalizing first s with
  | nil => exact h
  | cons predTags preds ih =>
    refine ih false ?_
    generalize List.range n = is
    induction is generalizing s with
    | nil => exact h
    | cons i is ih' =>
      refine ih' ?_
      unfold propagateTag
      dsimp only
      split
      · split
        · exact h.updateTag i _
        · split
          · exact h.updateTag i _
          · exact h
      · exact h

theorem Bounded.propagate (exitTags : List (List Tag)) (b : ℕ) (h : Bounded s) :
    Bounded (propagateTagsFromPredecessors (constPropTags ρ) cfg exitTags b s) := by
  unfold propagateTagsFromPredecessors
  split
  · exact h
  · split
    · exact h
    · split
      · exact h
      · exact h.propagateTags _ _ _ _

/-- Tags that all predecessors have recorded hold where the block is entered from them. -/
theorem known_holds {σ : Type} (S : TagState σ) {s : σ} {exitTags : List (List Tag)} {v : ℕ → Tag}
    (hrecorded : Recorded X exitTags) (hedge : ∀ p b, X.Edge p b → p ∈ cfg.preds b)
    (h : ∀ i, S.getTag s i ≠ kUnknownTag → v i = S.getTag s i)
    (hentry : (∃ p u, X.Reaches p u ∧ X.Runs p u v ∧ X.Edge p b) ∨ ∀ i, ¬Informed cfg exitTags b i) (i : ℕ)
    (hi : S.getTag (propagateTagsFromPredecessors S cfg exitTags b s) i ≠ kUnknownTag) :
    v i = S.getTag (propagateTagsFromPredecessors S cfg exitTags b s) i := by
  have hspec := propagate_known S cfg exitTags b s i
  by_cases hinformed : Informed cfg exitTags b i
  · rcases hentry with ⟨p, u, hreach, hruns, hpb⟩ | hnone
    · obtain ⟨tags, htags, ht⟩ := (hspec.2 hinformed _ hi).mp rfl p (hedge p b hpb)
      exact hrecorded p tags u v htags hreach hruns i _ ht hi
    · exact absurd hinformed (hnone i)
  · rw [hspec.1 hinformed] at hi ⊢
    exact h i hi

theorem not_informed_of_nil {exitTags : List (List Tag)} (h : cfg.preds b = []) (i : ℕ) : ¬Informed cfg exitTags b i :=
  fun hinformed => hinformed.2.1 h

theorem not_informed_of_empty (i : ℕ) : ¬Informed cfg (List.replicate blocks []) b i := by
  intro hinformed
  obtain ⟨p, hp⟩ := List.exists_mem_of_ne_nil _ hinformed.2.1
  obtain ⟨tags, htags, hi⟩ := hinformed.2.2.2 p hp
  have hnil : tags = [] := List.eq_of_mem_replicate (List.mem_of_getElem? htags)
  rw [hnil] at hi
  exact absurd hi (Nat.not_lt_zero i)

/-! ### Runs of the pass -/

/-- What the pass keeps from chain to chain -/
structure Good (X : Executions) (blocks : ℕ) (w : World F ρ) : Prop where
  bounded : Bounded w.state
  recorded : Recorded X w.blockExitTags
  visited : w.visited ⊆ Finset.range blocks
  entry : 0 ∈ w.visited ∨ w.visited = ∅ ∧ w.blockExitTags = List.replicate blocks []

/-- The state at the entry of a block holds whenever the block is entered. -/
theorem agrees_entry (hfits : Fits P cfg X blocks) (hgood : Good X blocks w)
    (hzero : b = 0 → w.visited = ∅) (hescape : ¬X.Escape b) {v : ℕ → Tag} (hreach : X.Reaches b v) :
    Agrees (setupBlockEntryState P cfg w.blockExitTags b (clear P w.state)) v := by
  have hclear : Agrees (clear P w.state) v := fun i hi => absurd (hgood.bounded.clear i) hi
  unfold setupBlockEntryState
  split
  · exact hclear
  · rename_i hcheck
    refine known_holds (constPropTags ρ) hgood.recorded hfits.edge (hclear.setArgumentTags _ 0 fun j t hj => ?_) ?_
    · rw [Nat.zero_add]
      exact hfits.arguments b v hreach (Bool.eq_false_iff.mpr hcheck) j t hj
    · cases hreach with
      | enter henter =>
        refine .inr ?_
        rcases hfits.enter b v henter with h0 | hnil
        · have hempty : w.blockExitTags = List.replicate blocks [] := by
            rcases hgood.entry with hmem | hstart
            · rw [hzero h0] at hmem
              exact absurd hmem (Finset.notMem_empty 0)
            · exact hstart.2
          rw [hempty]
          exact not_informed_of_empty
        · exact not_informed_of_nil hnil
      | edge hreach' hruns hedge => exact .inl ⟨_, _, hreach', hruns, hedge⟩
      | escape hescape' => exact absurd hescape' hescape

theorem bounded_entry (hgood : Good X blocks w) (b : ℕ) :
    Bounded (setupBlockEntryState P cfg w.blockExitTags b (clear P w.state)) := by
  have hclear : Bounded (clear P w.state) := fun i _ => hgood.bounded.clear i
  unfold setupBlockEntryState
  split
  · exact hclear
  · exact (hclear.setArgumentTags _ 0).propagate _ b

theorem saved_tag {n i : ℕ} {t : Tag} (h : ((List.range n).map s.tag)[i]? = some t) : s.tag i = t := by
  obtain ⟨hi, ht⟩ := List.getElem?_eq_some_iff.mp h
  rw [List.getElem_map, List.getElem_range] at ht
  exact ht

theorem Recorded.set {exitTags : List (List Tag)} (h : Recorded X exitTags)
    (hb : ∀ v v', X.Reaches b v → X.Runs b v v' → Agrees s v') :
    Recorded X (exitTags.set b ((List.range (s.maxReg + 1)).map s.tag)) := by
  intro p tags v v' htags hreach hruns i t ht hne
  by_cases hp : b = p
  · subst hp
    have hlength : b < exitTags.length := by
      have hlt := (List.getElem?_eq_some_iff.mp htags).1
      rwa [List.length_set] at hlt
    rw [List.getElem?_set_self hlength, Option.some.injEq] at htags
    subst htags
    have htag := saved_tag ht
    rw [← htag] at hne ⊢
    exact hb v v' hreach hruns i hne
  · rw [List.getElem?_set_ne hp] at htags
    exact h p tags v v' htags hreach hruns i t ht hne

/-- The next block of a chain is one that is only entered from the end of the block before. -/
theorem nextBlock_some {f : F} {visited : Finset ℕ} {target : ℕ} (h : nextBlock P f visited b = some (some target)) :
    P.jumpTarget f b = some target ∧ P.useCount f target = 1 ∧ target ∉ visited ∧ P.kind f target ≠ .Fallback := by
  unfold nextBlock at h
  cases hjump : P.jumpTarget f b with
  | none =>
    rw [hjump] at h
    cases h
  | some t =>
    rw [hjump] at h
    dsimp only at h
    split at h
    · rename_i hnext
      split at h
      · cases h
      · cases h
        exact ⟨rfl, hnext⟩
    · cases h

/-- A chain ends, and keeps what the pass keeps, if the state at its start holds. -/
theorem chain_good (hfits : Fits P cfg X blocks) (fuel : ℕ) (hgood : Good X blocks w) (hb : b < blocks)
    (hnew : b ∉ w.visited) (hzero : 0 ∈ w.visited ∨ b = 0) (hfuel : blocks ≤ fuel + w.visited.card)
    (hagrees : ∀ v, X.Reaches b v → Agrees w.state v) :
    ∃ w', chain P fuel b w = some w' ∧ Good X blocks w' ∧ 0 ∈ w'.visited := by
  induction fuel generalizing b w with
  | zero =>
    have hsub : insert b w.visited ⊆ Finset.range blocks :=
      Finset.insert_subset (Finset.mem_range.mpr hb) hgood.visited
    have hcard := Finset.card_le_card hsub
    rw [Finset.card_insert_of_notMem hnew, Finset.card_range] at hcard
    omega
  | succ fuel ih =>
    have hmem : 0 ∈ insert b w.visited := by
      rcases hzero with h | h
      · exact Finset.mem_insert_of_mem h
      · exact h ▸ Finset.mem_insert_self b w.visited
    have hsub : insert b w.visited ⊆ Finset.range blocks :=
      Finset.insert_subset (Finset.mem_range.mpr hb) hgood.visited
    have hbounded := hfits.bounded b w.function w.state hgood.bounded
    have hend : ∀ v v', X.Reaches b v → X.Runs b v v' → Agrees (P.constPropInBlock b w.function w.state).2 v' :=
      fun v v' hreach hruns => hfits.block b w.function w.state v v' hgood.bounded hreach (hagrees v hreach) hruns
    have hsaved := hgood.recorded.set hend
    rw [chain]
    dsimp only
    split
    · exact ⟨_, rfl, ⟨hbounded, hgood.recorded, hsub, .inl hmem⟩, hmem⟩
    · cases hnext : nextBlock P (P.constPropInBlock b w.function w.state).1 (insert b w.visited) b with
      | none => exact ⟨_, rfl, ⟨hbounded, hgood.recorded, hsub, .inl hmem⟩, hmem⟩
      | some next =>
        cases next with
        | none => exact ⟨_, rfl, ⟨hbounded, hsaved, hsub, .inl hmem⟩, hmem⟩
        | some target =>
          obtain ⟨hjump, huse, hfresh, hkind⟩ := nextBlock_some hnext
          obtain ⟨htarget, hpred, hescape, hsingle⟩ := hfits.single _ b target hjump huse hkind
          refine ih ⟨hbounded, hsaved, hsub, .inl hmem⟩ htarget hfresh (.inl hmem) ?_ ?_
          · show blocks ≤ fuel + (insert b w.visited).card
            rw [Finset.card_insert_of_notMem hnew]
            omega
          · intro v hreach
            cases hreach with
            | enter henter =>
              rcases hfits.enter target v henter with h0 | hnil
              · exact absurd (h0 ▸ hmem) hfresh
              · rw [hnil] at hpred
                exact absurd hpred List.not_mem_nil
            | edge hreach' hruns hedge =>
              obtain rfl := hsingle _ hedge
              exact hend _ v hreach' hruns
            | escape hescape' => exact absurd hescape' hescape

theorem visitBlock_good (hfits : Fits P cfg X blocks) (hgood : Good X blocks w) (hb : b < blocks)
    (hzero : b = 0 → w.visited = ∅ ∧ P.kind w.function 0 ≠ .Fallback ∧ P.kind w.function 0 ≠ .Dead)
    (hlater : b ≠ 0 → 0 ∈ w.visited) :
    ∃ w', visitBlock P cfg blocks w b = some w' ∧ Good X blocks w' ∧ 0 ∈ w'.visited := by
  unfold visitBlock
  split
  · rename_i hkind
    have hne : b ≠ 0 := by
      rintro rfl
      exact hkind.elim (hzero rfl).2.1 (hzero rfl).2.2
    exact ⟨w, rfl, hgood, hlater hne⟩
  · rename_i hkind
    split
    · rename_i hmem
      have hne : b ≠ 0 := by
        rintro rfl
        rw [(hzero rfl).1] at hmem
        exact absurd hmem (Finset.notMem_empty 0)
      exact ⟨w, rfl, hgood, hlater hne⟩
    · rename_i hnew
      have hescape : ¬X.Escape b := fun h => hkind (hfits.escape w.function b h)
      refine chain_good hfits blocks (w := { w with state := _ }) ?_ hb hnew ?_ (Nat.le_add_right _ _) ?_
      · exact ⟨bounded_entry hgood b, hgood.recorded, hgood.visited, hgood.entry⟩
      · by_cases h0 : b = 0
        · exact .inr h0
        · exact .inl (hlater h0)
      · exact fun v hreach => agrees_entry hfits hgood (fun h => (hzero h).1) hescape hreach

/-- The pass ends, and the tags that it has recorded at the end of a block hold in every execution that gets there. -/
theorem constPropInBlockChains_recorded (hfits : Fits P cfg X blocks) (hblocks : 0 < blocks) {f : F}
    (hentry : P.kind f 0 ≠ .Fallback ∧ P.kind f 0 ≠ .Dead) (hs : Bounded s) :
    ∃ w, constPropInBlockChains P cfg blocks f s = some w ∧ Recorded X w.blockExitTags := by
  have hempty : Recorded X (List.replicate blocks []) := by
    intro p tags v v' htags _ _ i t ht
    rw [List.eq_of_mem_replicate (List.mem_of_getElem? htags)] at ht
    cases ht
  have hrest : ∀ (bs : List ℕ) (w : World F ρ), (∀ b ∈ bs, b < blocks ∧ b ≠ 0) → Good X blocks w → 0 ∈ w.visited →
      ∃ w', bs.foldlM (visitBlock P cfg blocks) w = some w' ∧ Recorded X w'.blockExitTags := by
    intro bs
    induction bs with
    | nil => exact fun w _ hgood _ => ⟨w, rfl, hgood.recorded⟩
    | cons b bs ih =>
      intro w hbs hgood hmem
      obtain ⟨hb, hne⟩ := hbs b List.mem_cons_self
      obtain ⟨w₁, hvisit, hgood₁, hmem₁⟩ := visitBlock_good hfits hgood hb (fun h => absurd h hne) fun _ => hmem
      rw [List.foldlM_cons, hvisit]
      exact ih w₁ (fun b hb => hbs b (List.mem_cons_of_mem _ hb)) hgood₁ hmem₁
  obtain ⟨n, rfl⟩ : ∃ n, blocks = n + 1 := ⟨blocks - 1, by omega⟩
  unfold constPropInBlockChains
  have hgood : Good X (n + 1) (⟨f, List.replicate (n + 1) [], ∅, s⟩ : World F ρ) :=
    ⟨hs, hempty, Finset.empty_subset _, .inr ⟨rfl, rfl⟩⟩
  obtain ⟨w₁, hvisit, hgood₁, hmem₁⟩ := visitBlock_good hfits hgood hblocks (fun _ => ⟨rfl, hentry⟩) fun h => absurd rfl h
  rw [List.range_succ_eq_map, List.foldlM_cons, hvisit]
  refine hrest _ w₁ ?_ hgood₁ hmem₁
  intro b hb
  obtain ⟨a, ha, rfl⟩ := List.mem_map.mp hb
  exact ⟨Nat.succ_lt_succ (List.mem_range.mp ha), Nat.succ_ne_zero a⟩

end

/-! ### The entry of blocks after the pass -/

/-- `info[i].knownTag` of the removal of dead stores -/
def infoTags : TagState (ℕ → Tag) where
  getTag s := s
  setTag i t s := Function.update s i t
  get_set s i t j := Function.update_apply s i t j

/-- What the removal of dead stores knows at the start of a chain -/
def deadStoreEntry (cfg : CfgInfo) (blockExitTags : List (List Tag)) (block : ℕ) : ℕ → Tag :=
  propagateTagsFromPredecessors infoTags cfg blockExitTags block fun _ => kUnknownTag

/-- A tag is known at the start of a chain if and only if the register is live there and every predecessor, of which there
is one, has recorded just this tag. -/
theorem deadStoreEntry_iff (cfg : CfgInfo) (exitTags : List (List Tag)) (b i : ℕ) (t : Tag) (ht : t ≠ kUnknownTag) :
    deadStoreEntry cfg exitTags b i = t ↔
      b < cfg.predecessorsOffsets.length ∧ cfg.preds b ≠ [] ∧ cfg.isLiveIn b i = true ∧
        ∀ p ∈ cfg.preds b, ∃ tags, exitTags[p]? = some tags ∧ tags[i]? = some t := by
  have hspec := propagate_known infoTags cfg exitTags b (fun _ => kUnknownTag) i
  by_cases hinformed : Informed cfg exitTags b i
  · refine (hspec.2 hinformed t ht).trans ⟨fun h => ?_, fun h => h.2.2.2⟩
    exact ⟨hinformed.1, hinformed.2.1, hinformed.2.2.1, h⟩
  · have hunknown : deadStoreEntry cfg exitTags b i = kUnknownTag := hspec.1 hinformed
    rw [hunknown]
    refine ⟨fun h => absurd h.symm ht, fun h => absurd ?_ hinformed⟩
    refine ⟨h.1, h.2.1, h.2.2.1, fun p hp => ?_⟩
    obtain ⟨tags, htags, hi⟩ := h.2.2.2 p hp
    exact ⟨tags, htags, (List.getElem?_eq_some_iff.mp hi).1⟩

/-- A block that makes the first register a number, and goes to the last block directly or through another one -/
def samplePass : Pass Unit Unit where
  kind _ _ := .Bytecode
  jumpTarget _ b := if b = 1 then some 2 else none
  useCount _ b := if b = 2 then 2 else 1
  getLiveOutValueCount _ _ := 0
  entryArgCheck _ := false
  argumentTags := []
  clearRest := id
  constPropInBlock b _ s := ((), if b = 0 then s.updateTag 0 3 else s)

def sampleCfg : CfgInfo where
  predecessors := [0, 0, 1]
  predecessorsOffsets := [0, 0, 1]
  liveIn _ := ⟨fun _ => true, false, 0⟩

def sampleExecutions : Executions where
  Enter b _ := b = 0
  Runs b v v' := v' = if b = 0 then Function.update v 0 3 else v
  Edge p b := (p, b) ∈ [(0, 1), (0, 2), (1, 2)]
  Escape _ := False

theorem sample_fits : Fits samplePass sampleCfg sampleExecutions 3 where
  edge := by
    intro p b hedge
    have hall : ∀ e ∈ [(0, 1), (0, 2), (1, 2)], e.1 ∈ sampleCfg.preds e.2 := by decide
    exact hall (p, b) hedge
  enter _ _ h := .inl h
  escape _ _ h := h.elim
  single := by
    intro f p b hjump huse _
    have hb : b = 2 := by
      by_contra hne
      by_cases hp : p = 1 <;> simp [samplePass, hp] at hjump
      exact hne hjump.symm
    subst hb
    cases huse
  arguments _ _ _ _ i t h := by cases h
  bounded := by
    intro b f s hs
    show Bounded (if b = 0 then s.updateTag 0 3 else s)
    split
    · exact hs.updateTag 0 3
    · exact hs
  block := by
    intro b f s v v' _ _ hagrees hruns
    have hv : v' = if b = 0 then Function.update v 0 3 else v := hruns
    subst hv
    show Agrees (if b = 0 then s.updateTag 0 3 else s) _
    split
    · intro i hi
      show Function.update v 0 3 i = Function.update s.tag 0 3 i
      by_cases h0 : i = 0
      · rw [h0, Function.update_self, Function.update_self]
      · have hi' : Function.update s.tag 0 3 i ≠ kUnknownTag := hi
        rw [Function.update_of_ne h0] at hi' ⊢
        rw [Function.update_of_ne h0]
        exact hagrees i hi'
    · exact hagrees

theorem deadStoreEntry_iff_sample : deadStoreEntry sampleCfg [[3], [3], [3]] 2 0 = 3 ↔
    2 < sampleCfg.predecessorsOffsets.length ∧ sampleCfg.preds 2 ≠ [] ∧ sampleCfg.isLiveIn 2 0 = true ∧
      ∀ p ∈ sampleCfg.preds 2, ∃ tags : List Tag, [[3], [3], [3]][p]? = some tags ∧ tags[0]? = some 3 :=
  deadStoreEntry_iff sampleCfg [[3], [3], [3]] 2 0 3 (by decide)

end Luwu.ConstProp
