import Mathlib.Data.List.Forall2

/-!
# Tags from predecessors

`propagateTagsFromPredecessors`: the tags that all predecessors of a block leave in a register are known at its entry.
-/

namespace Luwu.ConstProp

abbrev Tag := UInt8

def kUnknownTag : Tag := 0xff

structure RegisterSet where
  regs : ℕ → Bool
  varargSeq : Bool
  varargStart : ℕ

/-- The part of `CfgInfo` that is used here; blocks are their indices. -/
structure CfgInfo where
  predecessors : List ℕ
  predecessorsOffsets : List ℕ
  liveIn : ℕ → RegisterSet

/-- `predecessors(cfg, blockIdx)` -/
def CfgInfo.preds (cfg : CfgInfo) (blockIdx : ℕ) : List ℕ :=
  let start := cfg.predecessorsOffsets.getD blockIdx 0
  let finish := cfg.predecessorsOffsets.getD (blockIdx + 1) cfg.predecessors.length
  (cfg.predecessors.take finish).drop start

/-- A register is live at the entry of a block, by itself or in the variadic sequence. -/
def CfgInfo.isLiveIn (cfg : CfgInfo) (blockIdx i : ℕ) : Bool :=
  let live := cfg.liveIn blockIdx
  live.regs i || (live.varargSeq && decide (i ≥ live.varargStart))

/-- `getTag` and `setTag`: a state that knows a tag of each register -/
structure TagState (σ : Type) where
  getTag : σ → ℕ → Tag
  setTag : ℕ → Tag → σ → σ
  get_set : ∀ s i t j, getTag (setTag i t s) j = if j = i then t else getTag s j

section

variable {σ : Type} (S : TagState σ)

/-- What a predecessor does to a register that is live -/
def meetTag (firstPredecessor : Bool) (currentTag predTag : Tag) : Tag :=
  if firstPredecessor then predTag
  else if currentTag ≠ kUnknownTag ∧ currentTag ≠ predTag then kUnknownTag
  else currentTag

def propagateTag (live : ℕ → Bool) (firstPredecessor : Bool) (predTags : List Tag) (s : σ) (i : ℕ) : σ :=
  if live i then
    let currentTag := S.getTag s i
    if firstPredecessor then S.setTag i (predTags.getD i 0) s
    else if currentTag ≠ kUnknownTag ∧ currentTag ≠ predTags.getD i 0 then S.setTag i kUnknownTag s
    else s
  else s

def propagateTags (live : ℕ → Bool) (minRegsKnown : ℕ) : Bool → List (List Tag) → σ → σ
  | _, [], s => s
  | firstPredecessor, predTags :: preds, s =>
    propagateTags live minRegsKnown false preds
      ((List.range minRegsKnown).foldl (propagateTag S live firstPredecessor predTags) s)

def propagateTagsFromPredecessors (cfg : CfgInfo) (blockExitTags : List (List Tag)) (blockIdx : ℕ) (s : σ) : σ :=
  if blockIdx ≥ cfg.predecessorsOffsets.length then s
  else match (cfg.preds blockIdx).mapM (blockExitTags[·]?) with
    -- a predecessor without exit tags
    | none => s
    | some preds => match (preds.map List.length).min? with
      | none => s
      | some minRegsKnown => propagateTags S (cfg.isLiveIn blockIdx) minRegsKnown true preds s

/-! ### One predecessor -/

variable {S}

variable {live : ℕ → Bool} {first : Bool} {predTags : List Tag} {n : ℕ}

theorem getTag_propagateTag (live : ℕ → Bool) (first : Bool) (predTags : List Tag) (s : σ) (i j : ℕ) :
    S.getTag (propagateTag S live first predTags s i) j =
      if live i ∧ j = i then meetTag first (S.getTag s j) (predTags.getD i 0) else S.getTag s j := by
  unfold propagateTag meetTag
  by_cases hlive : live i = true
  · by_cases hj : j = i
    · subst hj
      simp only [hlive, if_true, and_self]
      split
      · simp [S.get_set]
      · split <;> simp [S.get_set]
    · simp only [hlive, if_true, hj, and_false, if_false]
      split
      · simp [S.get_set, hj]
      · split <;> simp [S.get_set, hj]
  · simp [hlive]

theorem getTag_foldl (live : ℕ → Bool) (first : Bool) (predTags : List Tag) (n : ℕ) (s : σ) (j : ℕ) :
    S.getTag ((List.range n).foldl (propagateTag S live first predTags) s) j =
      if live j ∧ j < n then meetTag first (S.getTag s j) (predTags.getD j 0) else S.getTag s j := by
  induction n with
  | zero => rw [if_neg fun h => Nat.not_lt_zero j h.2, List.range_zero, List.foldl_nil]
  | succ n ih =>
    rw [List.range_succ, List.foldl_append, List.foldl_cons, List.foldl_nil, getTag_propagateTag, ih]
    by_cases hj : j = n
    · subst hj
      by_cases hlive : live j = true <;> simp [hlive]
    · have hlt : j < n + 1 ↔ j < n := by omega
      simp only [hj, and_false, if_false, hlt]

/-! ### All predecessors -/

/-- The tag that all have, if they have the same -/
def meet : List Tag → Tag
  | [] => kUnknownTag
  | t :: ts => if ts.all (· == t) then t else kUnknownTag

theorem all_same {t : Tag} {ts : List Tag} : ts.all (· == t) = true ↔ ∀ x ∈ ts, x = t := by simp

theorem meet_cons_cons (t t' : Tag) (ts : List Tag) : meet (t :: t' :: ts) = meet (meetTag false t t' :: ts) := by
  unfold meetTag
  rw [if_neg Bool.false_ne_true]
  split
  · rename_i h
    have hdiffer : ¬(t' :: ts).all (· == t) = true := fun hall => h.2 (all_same.mp hall t' List.mem_cons_self).symm
    simp only [meet, if_neg hdiffer]
    split <;> rfl
  · rename_i h
    by_cases hunknown : t = kUnknownTag
    · subst hunknown
      simp only [meet]
      split <;> split <;> rfl
    · have hsame : t' = t := by
        by_contra hne
        exact h ⟨hunknown, fun heq => hne heq.symm⟩
      simp [meet, hsame]

theorem meet_eq_iff {t : Tag} (ht : t ≠ kUnknownTag) {ts : List Tag} (hts : ts ≠ []) : meet ts = t ↔ ∀ x ∈ ts, x = t := by
  obtain ⟨x, xs, rfl⟩ := List.exists_cons_of_ne_nil hts
  rw [meet, List.forall_mem_cons]
  by_cases hall : xs.all (· == x) = true
  · rw [if_pos hall]
    exact ⟨fun heq => ⟨heq, fun y hy => (all_same.mp hall y hy).trans heq⟩, fun h => h.1⟩
  · rw [if_neg hall]
    refine ⟨fun heq => absurd heq.symm ht, fun h => absurd (all_same.mpr ?_) hall⟩
    intro y hy
    exact (h.2 y hy).trans h.1.symm

theorem getTag_propagateTags (live : ℕ → Bool) (n : ℕ) (preds : List (List Tag)) (s : σ) (j : ℕ) :
    S.getTag (propagateTags S live n false preds s) j =
      if live j ∧ j < n then meet (S.getTag s j :: preds.map (·.getD j 0)) else S.getTag s j := by
  induction preds generalizing s with
  | nil =>
    rw [propagateTags]
    split
    · simp [meet]
    · rfl
  | cons predTags preds ih =>
    rw [propagateTags, ih, getTag_foldl]
    split
    · rw [List.map_cons, meet_cons_cons]
    · rfl

theorem getTag_propagateTags_first (live : ℕ → Bool) (n : ℕ) {preds : List (List Tag)} (hpreds : preds ≠ []) (s : σ) (j : ℕ) :
    S.getTag (propagateTags S live n true preds s) j =
      if live j ∧ j < n then meet (preds.map (·.getD j 0)) else S.getTag s j := by
  obtain ⟨predTags, preds, rfl⟩ := List.exists_cons_of_ne_nil hpreds
  rw [propagateTags, getTag_propagateTags, getTag_foldl]
  split
  · rw [meetTag, if_pos rfl, List.map_cons]
  · rfl

/-! ### What is known at the entry of a block -/

/-- All predecessors have recorded the register, and it is live. -/
def Informed (cfg : CfgInfo) (blockExitTags : List (List Tag)) (blockIdx i : ℕ) : Prop :=
  blockIdx < cfg.predecessorsOffsets.length ∧ cfg.preds blockIdx ≠ [] ∧ cfg.isLiveIn blockIdx i = true ∧
    ∀ p ∈ cfg.preds blockIdx, ∃ tags, blockExitTags[p]? = some tags ∧ i < tags.length

theorem mapM_some {exitTags : List (List Tag)} {ps : List ℕ} {preds : List (List Tag)}
    (h : ps.mapM (exitTags[·]?) = some preds) : List.Forall₂ (fun p tags => exitTags[p]? = some tags) ps preds := by
  induction ps generalizing preds with
  | nil =>
    rw [List.mapM_nil] at h
    cases h
    exact .nil
  | cons p ps ih =>
    rw [List.mapM_cons] at h
    obtain ⟨tags, htags, h⟩ := Option.bind_eq_some_iff.mp h
    obtain ⟨rest, hrest, h⟩ := Option.bind_eq_some_iff.mp h
    cases h
    exact .cons htags (ih hrest)

theorem mapM_none {exitTags : List (List Tag)} {ps : List ℕ} (h : ps.mapM (exitTags[·]?) = none) :
    ∃ p ∈ ps, exitTags[p]? = none := by
  induction ps with
  | nil => cases h
  | cons p ps ih =>
    cases hp : exitTags[p]? with
    | none => exact ⟨p, List.mem_cons_self, hp⟩
    | some tags =>
      cases hrest : ps.mapM (exitTags[·]?) with
      | none =>
        obtain ⟨q, hq, hnone⟩ := ih hrest
        exact ⟨q, List.mem_cons_of_mem p hq, hnone⟩
      | some rest =>
        rw [List.mapM_cons, hp, hrest] at h
        cases h

theorem forall_recorded {exitTags : List (List Tag)} {ps : List ℕ} {preds : List (List Tag)}
    (h : List.Forall₂ (fun p tags => exitTags[p]? = some tags) ps preds) (P : List Tag → Prop) :
    (∀ tags ∈ preds, P tags) ↔ ∀ p ∈ ps, ∃ tags, exitTags[p]? = some tags ∧ P tags := by
  induction h with
  | nil => simp
  | cons hhead _ ih =>
    rw [List.forall_mem_cons, List.forall_mem_cons, ih, hhead]
    simp

variable (S) in
/-- A tag is known of an informed register if and only if every predecessor leaves it there; of the others the old tag stays. -/
theorem propagate_known (cfg : CfgInfo) (exitTags : List (List Tag)) (b : ℕ) (s : σ) (i : ℕ) :
    (¬Informed cfg exitTags b i → S.getTag (propagateTagsFromPredecessors S cfg exitTags b s) i = S.getTag s i) ∧
    (Informed cfg exitTags b i → ∀ t ≠ kUnknownTag,
      (S.getTag (propagateTagsFromPredecessors S cfg exitTags b s) i = t ↔
        ∀ p ∈ cfg.preds b, ∃ tags, exitTags[p]? = some tags ∧ tags[i]? = some t)) := by
  unfold propagateTagsFromPredecessors
  by_cases hb : b < cfg.predecessorsOffsets.length
  · rw [if_neg (Nat.not_le.mpr hb)]
    cases hpreds : (cfg.preds b).mapM (exitTags[·]?) with
    | none =>
      obtain ⟨p, hp, hnone⟩ := mapM_none hpreds
      refine ⟨fun _ => rfl, fun hinformed => ?_⟩
      obtain ⟨tags, htags, -⟩ := hinformed.2.2.2 p hp
      rw [hnone] at htags
      cases htags
    | some preds =>
      have hrecorded := mapM_some hpreds
      have hnil : preds = [] ↔ cfg.preds b = [] := by
        rw [← List.length_eq_zero_iff, ← hrecorded.length_eq, List.length_eq_zero_iff]
      dsimp only
      cases hmin : (preds.map List.length).min? with
      | none =>
        rw [List.min?_eq_none_iff, List.map_eq_nil_iff, hnil] at hmin
        exact ⟨fun _ => rfl, fun hinformed => absurd hmin hinformed.2.1⟩
      | some n =>
        have hne : preds ≠ [] := by
          rintro rfl
          cases hmin
        have hknown : Informed cfg exitTags b i ↔ cfg.isLiveIn b i = true ∧ i < n := by
          have hlengths : i < n ↔ ∀ tags ∈ preds, i < tags.length := by
            rw [← Nat.succ_le_iff, List.le_min?_iff hmin, List.forall_mem_map]
            rfl
          rw [hlengths, forall_recorded hrecorded fun tags => i < tags.length]
          exact ⟨fun h => h.2.2, fun h => ⟨hb, fun hempty => hne (hnil.mpr hempty), h⟩⟩
        dsimp only
        rw [getTag_propagateTags_first _ _ hne]
        refine ⟨fun hnot => if_neg fun h => hnot (hknown.mpr h), fun hinformed t ht => ?_⟩
        rw [if_pos (hknown.mp hinformed), meet_eq_iff ht fun h => hne (List.map_eq_nil_iff.mp h), List.forall_mem_map,
          forall_recorded hrecorded fun tags => tags.getD i 0 = t]
        refine forall₂_congr fun p hp => exists_congr fun tags => and_congr_right fun htags => ?_
        obtain ⟨tags', htags', hi⟩ := hinformed.2.2.2 p hp
        rw [htags, Option.some.injEq] at htags'
        subst htags'
        rw [List.getD_eq_getElem?_getD, List.getElem?_eq_getElem hi, Option.getD_some, Option.some.injEq]
  · rw [if_pos (Nat.not_lt.mp hb)]
    exact ⟨fun _ => rfl, fun hinformed => absurd hinformed.1 hb⟩

end

end Luwu.ConstProp
