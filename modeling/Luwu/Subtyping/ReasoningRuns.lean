import Luwu.Subtyping.ReasoningSets

/-!
# Trees of combinations

When every result of a tree of combinations has a set of reasonings, and every merge brings a covariant and a contravariant
failure together.
-/

namespace Luwu.Subtyping

open Luwu.Dense Luwu.DenseHash Luwu.OpenAddressing

/-! ### Pairs of paths -/

def SamePair (r r' : SubtypingReasoning) : Prop := r.subPath = r'.subPath ∧ r.superPath = r'.superPath

instance (r r' : SubtypingReasoning) : Decidable (SamePair r r') := inferInstanceAs (Decidable (_ ∧ _))

/-- A covariant and a contravariant failure at the same pair of paths -/
def Opposed (r r' : SubtypingReasoning) : Prop :=
  SamePair r r' ∧ (r.variance = .Covariant ∧ r'.variance = .Contravariant ∨
    r.variance = .Contravariant ∧ r'.variance = .Covariant)

/-- Opposed reasonings of the two sets have become one, which is invariant. -/
def Reconciled (la lb l : List SubtypingReasoning) : Prop :=
  ∀ r ∈ la, ∀ r' ∈ lb, Opposed r r' → ∃ m, l.filter (fun x => SamePair x r) = [m] ∧ m.variance = .Invariant

/-- A reasoning of the pair that is an access modifier violation is not invariant, and its set has it without the mark too. -/
def Unmarked (l : List SubtypingReasoning) (r : SubtypingReasoning) : Prop :=
  ∀ x ∈ l, SamePair x r → x.isAccessModifierViolation = true →
    x.variance ≠ .Invariant ∧ { x with isAccessModifierViolation := false } ∈ l

def Cancellable (la lb : List SubtypingReasoning) : Prop :=
  ∀ r ∈ la, ∀ r' ∈ lb, Opposed r r' → Unmarked la r ∧ Unmarked lb r

/-- No set has a covariant and a contravariant failure at the same pair of paths. -/
def Unopposed (l : List SubtypingReasoning) : Prop :=
  ∀ r ∈ l, r.variance = .Covariant → r.isAccessModifierViolation = false → { r with variance := .Contravariant } ∉ l

structure Regular (S : StdHash) (t : SubtypingReasonings) : Prop extends Genuine S t where
  unopposed : Unopposed (t.contents S.traits)

section Merging

variable {S : StdHash} {a b t : SubtypingReasonings} {r r' x y : SubtypingReasoning}

theorem SamePair.symm (h : SamePair r r') : SamePair r' r := ⟨h.1.symm, h.2.symm⟩

theorem SamePair.trans (h : SamePair r r') (h' : SamePair r' x) : SamePair r x := ⟨h.1.trans h'.1, h.2.trans h'.2⟩

theorem Opposed.symm (h : Opposed r r') : Opposed r' r := ⟨h.1.symm, h.2.symm.imp And.symm And.symm⟩

theorem Unmarked.congr {l : List SubtypingReasoning} (h : Unmarked l r) (hp : SamePair r r') : Unmarked l r' :=
  fun x hx hsame => h x hx (hsame.trans hp.symm)

/-- The reasoning at the same pair that has the variance and no mark -/
def pairAt (r : SubtypingReasoning) (v : SubtypingVariance) : SubtypingReasoning :=
  { subPath := r.subPath, superPath := r.superPath, variance := v }

theorem pairAt_congr (h : SamePair r r') (v : SubtypingVariance) : pairAt r v = pairAt r' v := by
  unfold pairAt
  rw [h.1, h.2]

theorem unopposed_pairAt {l : List SubtypingReasoning} (h : Unopposed l) (hc : pairAt r .Covariant ∈ l)
    (hv : pairAt r .Contravariant ∈ l) : False := h _ hc rfl rfl hv

theorem samePair_merged : SamePair (merged b S r) r := by
  unfold merged
  split
  · exact ⟨rfl, rfl⟩
  · exact ⟨rfl, rfl⟩

/-- A reasoning is merged with the inverse one, or it stays. -/
theorem merged_cases (b : SubtypingReasonings) (S : StdHash) (r : SubtypingReasoning) :
    ((r.variance = .Covariant ∧ pairAt r .Contravariant ∈ b.contents S.traits ∨
        r.variance = .Contravariant ∧ pairAt r .Covariant ∈ b.contents S.traits) ∧ merged b S r = pairAt r .Invariant) ∨
      (¬(r.variance = .Covariant ∧ pairAt r .Contravariant ∈ b.contents S.traits) ∧
        ¬(r.variance = .Contravariant ∧ pairAt r .Covariant ∈ b.contents S.traits) ∧ merged b S r = r) := by
  have hinv : r.variance = .Covariant → inverseReasoning r = pairAt r .Contravariant := by
    intro hv
    unfold inverseReasoning pairAt
    rw [if_pos hv]
  have hinv' : r.variance = .Contravariant → inverseReasoning r = pairAt r .Covariant := by
    intro hv
    unfold inverseReasoning pairAt
    rw [if_neg (by rw [hv]; exact SubtypingVariance.noConfusion)]
  unfold merged
  by_cases hcase : (r.variance = .Covariant ∨ r.variance = .Contravariant) ∧ inverseReasoning r ∈ b.contents S.traits
  · left
    rw [if_pos hcase]
    refine ⟨?_, rfl⟩
    rcases hcase.1 with hv | hv
    · exact Or.inl ⟨hv, hinv hv ▸ hcase.2⟩
    · exact Or.inr ⟨hv, hinv' hv ▸ hcase.2⟩
  · right
    rw [if_neg hcase]
    exact ⟨fun h => hcase ⟨Or.inl h.1, hinv h.1 ▸ h.2⟩, fun h => hcase ⟨Or.inr h.1, hinv' h.1 ▸ h.2⟩, rfl⟩

theorem pairAt_self (hf : r.isAccessModifierViolation = false) : r = pairAt r r.variance := by
  unfold pairAt
  rw [← hf]

/-- What a merge leaves of the unmarked failures that are not invariant was there, and the other set has not the inverse. -/
theorem merged_kept {v : SubtypingVariance} (hv : v ≠ .Invariant) (h : pairAt x v = merged b S r) :
    r = pairAt x v ∧ (v = .Covariant → pairAt x .Contravariant ∉ b.contents S.traits) ∧
      (v = .Contravariant → pairAt x .Covariant ∉ b.contents S.traits) := by
  rcases merged_cases b S r with ⟨_, hm⟩ | ⟨hc, hv', hm⟩
  · rw [hm] at h
    exact absurd (congrArg SubtypingReasoning.variance h) hv
  · rw [hm] at h
    subst h
    exact ⟨rfl, fun he hmem => hc ⟨he, hmem⟩, fun he hmem => hv' ⟨he, hmem⟩⟩

theorem unopposed_merged (ha : Unopposed (a.contents S.traits)) (hb : Unopposed (b.contents S.traits))
    (ht : ∀ x ∈ t.contents S.traits, MergedFrom S a b x) : Unopposed (t.contents S.traits) := by
  intro x hx hv hf hx'
  have hself := pairAt_self hf
  rw [hv] at hself
  have hother : { x with variance := SubtypingVariance.Contravariant } = pairAt x .Contravariant := by
    unfold pairAt
    rw [← hf]
  rw [hother] at hx'
  rw [hself] at hx
  have hne : SubtypingVariance.Covariant ≠ .Invariant := SubtypingVariance.noConfusion
  have hne' : SubtypingVariance.Contravariant ≠ .Invariant := SubtypingVariance.noConfusion
  rcases ht _ hx with ⟨r, hr, hm⟩ | ⟨r, hr, hm⟩ <;> rcases ht _ hx' with ⟨r', hr', hm'⟩ | ⟨r', hr', hm'⟩ <;>
    obtain ⟨rfl, hnot, _⟩ := merged_kept hne hm <;> obtain ⟨rfl, _, hnot'⟩ := merged_kept hne' hm'
  · exact unopposed_pairAt ha hr hr'
  · exact hnot rfl hr'
  · exact hnot rfl hr'
  · exact unopposed_pairAt hb hr hr'

/-! ### When opposed reasonings become one -/

theorem filter_eq_singleton {l : List SubtypingReasoning} {p : SubtypingReasoning → Bool} (hl : l.Nodup) (hx : x ∈ l)
    (hp : p x = true) (hall : ∀ y ∈ l, p y = true → y = x) : l.filter p = [x] := by
  apply List.perm_singleton.mp
  apply (List.perm_ext_iff_of_nodup (hl.filter p) (List.nodup_singleton x)).mpr
  intro y
  rw [List.mem_filter, List.mem_singleton]
  constructor
  · rintro ⟨hy, hpy⟩
    exact hall y hy hpy
  · rintro rfl
    exact ⟨hx, hp⟩

theorem eq_of_filter {l : List SubtypingReasoning} {p : SubtypingReasoning → Bool} (h : l.filter p = [y]) (hx : x ∈ l)
    (hp : p x = true) : x = y := by
  have hmem := List.mem_filter.mpr ⟨hx, hp⟩
  rw [h] at hmem
  exact List.mem_singleton.mp hmem

/-- The unmarked reasoning of an unmarked list -/
theorem Unmarked.pairAt_mem {l : List SubtypingReasoning} (h : Unmarked l r) (hx : x ∈ l) (hp : SamePair x r) :
    pairAt r x.variance ∈ l := by
  rw [← pairAt_congr hp]
  cases hf : x.isAccessModifierViolation with
  | false => exact pairAt_self hf ▸ hx
  | true => exact (h x hx hp hf).2

/-- Every reasoning that one set gives to the merge at the pair of an opposed one is the invariant one. -/
theorem merged_eq_invariant (ha : Regular S a) (hr : r ∈ a.contents S.traits) (hr' : r' ∈ b.contents S.traits)
    (ho : Opposed r r') (hma : Unmarked (a.contents S.traits) r) (hmb : Unmarked (b.contents S.traits) r)
    (hx : x ∈ a.contents S.traits) (hp : SamePair x r) : merged b S x = pairAt r .Invariant := by
  have hra := hma.pairAt_mem hr ⟨rfl, rfl⟩
  have hrb := hmb.pairAt_mem hr' ho.1.symm
  have hxa := hma.pairAt_mem hx hp
  rcases merged_cases b S x with ⟨_, hm⟩ | ⟨hc, hv, hm⟩
  · rw [hm, pairAt_congr hp]
  · rw [pairAt_congr hp] at hc hv
    rw [hm]
    cases hvar : x.variance with
    | Invalid => exact absurd hvar (ha.valid x hx)
    | Invariant =>
      have hf : x.isAccessModifierViolation = false := by
        by_contra hf
        exact (hma x hx hp (Bool.not_eq_false _ ▸ hf)).1 hvar
      rw [pairAt_self hf, hvar, pairAt_congr hp]
    | Covariant =>
      rw [hvar] at hxa
      rcases ho.2 with ⟨_, h'⟩ | ⟨h, _⟩
      · exact absurd ⟨hvar, h' ▸ hrb⟩ hc
      · exact (unopposed_pairAt ha.unopposed hxa (h ▸ hra)).elim
    | Contravariant =>
      rw [hvar] at hxa
      rcases ho.2 with ⟨h, _⟩ | ⟨_, h'⟩
      · exact (unopposed_pairAt ha.unopposed (h ▸ hra) hxa).elim
      · exact absurd ⟨hvar, h' ▸ hrb⟩ hv

/-- When everything at the pair is the invariant reasoning, the marked ones of a set were there unmarked. -/
theorem unmarked_of_invariant (hb : Regular S b) (hr : r ∈ a.contents S.traits)
    (hr' : r' ∈ b.contents S.traits) (ho : Opposed r r')
    (hall : ∀ x ∈ a.contents S.traits, SamePair x r → merged b S x = pairAt r .Invariant)
    (hall' : ∀ x ∈ b.contents S.traits, SamePair x r → merged a S x = pairAt r .Invariant) :
    Unmarked (a.contents S.traits) r := by
  -- a failure that has become invariant met its inverse
  have hmet : ∀ {a b : SubtypingReasonings} {x}, x.variance ≠ .Invariant → SamePair x r →
      merged b S x = pairAt r .Invariant → x.variance = .Covariant ∧ pairAt r .Contravariant ∈ b.contents S.traits ∨
        x.variance = .Contravariant ∧ pairAt r .Covariant ∈ b.contents S.traits := by
    intro a b x hne hp hm
    rcases merged_cases b S x with ⟨h, _⟩ | ⟨_, _, hx⟩
    · rw [pairAt_congr hp, pairAt_congr hp] at h
      exact h
    · rw [hx] at hm
      exact absurd (congrArg SubtypingReasoning.variance hm) hne
  have hne : r.variance ≠ .Invariant := by
    rcases ho.2 with ⟨h, _⟩ | ⟨h, _⟩ <;> rw [h] <;> exact SubtypingVariance.noConfusion
  have hne' : r'.variance ≠ .Invariant := by
    rcases ho.2 with ⟨_, h⟩ | ⟨_, h⟩ <;> rw [h] <;> exact SubtypingVariance.noConfusion
  have hmr := hmet (a := a) hne ⟨rfl, rfl⟩ (hall r hr ⟨rfl, rfl⟩)
  have hmr' := hmet (a := b) hne' ho.1.symm (hall' r' hr' ho.1.symm)
  intro x hx hp hf
  have hinv : x.variance ≠ .Invariant := by
    intro hv
    rcases merged_cases b S x with ⟨⟨h, _⟩ | ⟨h, _⟩, _⟩ | ⟨_, _, hm⟩
    · rw [hv] at h
      cases h
    · rw [hv] at h
      cases h
    · have hflag := congrArg SubtypingReasoning.isAccessModifierViolation (hm.symm.trans (hall x hx hp))
      rw [hf] at hflag
      cases hflag
  refine ⟨hinv, ?_⟩
  rw [show { x with isAccessModifierViolation := false } = pairAt x x.variance from rfl, pairAt_congr hp]
  rcases hmet (a := a) hinv hp (hall x hx hp) with ⟨hv, hin⟩ | ⟨hv, hin⟩
  · rw [hv]
    rcases hmr' with ⟨hv', hin'⟩ | ⟨_, hin'⟩
    · rcases ho.2 with ⟨_, h⟩ | ⟨h, _⟩
      · rw [hv'] at h
        cases h
      · rcases hmr with ⟨h', _⟩ | ⟨_, hin''⟩
        · rw [h] at h'
          cases h'
        · exact (unopposed_pairAt hb.unopposed hin'' hin).elim
    · exact hin'
  · rw [hv]
    rcases hmr' with ⟨_, hin'⟩ | ⟨hv', _⟩
    · exact hin'
    · rcases ho.2 with ⟨h, _⟩ | ⟨_, h⟩
      · rcases hmr with ⟨_, hin''⟩ | ⟨h', _⟩
        · exact (unopposed_pairAt hb.unopposed hin hin'').elim
        · rw [h] at h'
          cases h'
      · rw [hv'] at h
        cases h

/-- A merge below the limit reconciles opposed reasonings exactly when they are unmarked. -/
theorem reconciled_iff (ha : Regular S a) (hb : Regular S b) (ht : Genuine S t)
    (hmem : ∀ x, x ∈ t.contents S.traits ↔ MergedFrom S a b x) :
    Reconciled (a.contents S.traits) (b.contents S.traits) (t.contents S.traits) ↔
      Cancellable (a.contents S.traits) (b.contents S.traits) := by
  constructor
  · intro hrec r hr r' hr' ho
    obtain ⟨m, hfilter, hv⟩ := hrec r hr r' hr' ho
    have hone : ∀ x, MergedFrom S a b x → SamePair x r → x = m := fun x hx hp =>
      eq_of_filter hfilter ((hmem x).mpr hx) (decide_eq_true hp)
    have hm : m = pairAt r .Invariant := by
      have hmr := hone _ (Or.inl ⟨r, hr, rfl⟩) samePair_merged
      rcases merged_cases b S r with ⟨_, h⟩ | ⟨_, _, h⟩
      · exact hmr.symm.trans h
      · rw [← hmr, h] at hv
        rcases ho.2 with ⟨h', _⟩ | ⟨h', _⟩ <;> rw [hv] at h' <;> cases h'
    have hall : ∀ x ∈ a.contents S.traits, SamePair x r → merged b S x = pairAt r .Invariant := fun x hx hp =>
      (hone _ (Or.inl ⟨x, hx, rfl⟩) (samePair_merged.trans hp)).trans hm
    have hall' : ∀ x ∈ b.contents S.traits, SamePair x r → merged a S x = pairAt r .Invariant := fun x hx hp =>
      (hone _ (Or.inr ⟨x, hx, rfl⟩) (samePair_merged.trans hp)).trans hm
    refine ⟨unmarked_of_invariant hb hr hr' ho hall hall', ?_⟩
    refine Unmarked.congr (r := r') (unmarked_of_invariant ha hr' hr ho.symm ?_ ?_) ho.1.symm
    · intro x hx hp
      rw [pairAt_congr ho.1.symm]
      exact hall' x hx (hp.trans ho.1.symm)
    · intro x hx hp
      rw [pairAt_congr ho.1.symm]
      exact hall x hx (hp.trans ho.1.symm)
  · intro hcan r hr r' hr' ho
    obtain ⟨hma, hmb⟩ := hcan r hr r' hr' ho
    have hnodup := distinct_iff_nodup.mp ht.layout.distinct_entries
    have hall : ∀ x, MergedFrom S a b x → SamePair x r → x = pairAt r .Invariant := by
      rintro x (⟨y, hy, rfl⟩ | ⟨y, hy, rfl⟩) hp
      · exact merged_eq_invariant ha hr hr' ho hma hmb hy (samePair_merged.symm.trans hp)
      · rw [pairAt_congr ho.1]
        exact merged_eq_invariant hb hr' hr ho.symm (hmb.congr ho.1) (hma.congr ho.1) hy
          ((samePair_merged.symm.trans hp).trans ho.1)
    have hin : pairAt r .Invariant ∈ t.contents S.traits := by
      apply (hmem _).mpr
      exact Or.inl ⟨r, hr, (merged_eq_invariant ha hr hr' ho hma hmb hr ⟨rfl, rfl⟩).symm⟩
    refine ⟨pairAt r .Invariant, filter_eq_singleton hnodup hin (decide_eq_true ⟨rfl, rfl⟩) fun y hy hp => ?_, rfl⟩
    exact hall y ((hmem y).mp hy) (of_decide_eq_true hp)

end Merging

/-! ### Edits -/

namespace Edit

/-- What the operation does to every reasoning of a set -/
def change : Edit → SubtypingReasoning → SubtypingReasoning
  | .withSubComponent component => fun r => { r with subPath := Path.push_front r.subPath component }
  | .withSuperComponent component => fun r => { r with superPath := Path.push_front r.superPath component }
  | .withSubPath path => fun r => { r with subPath := path ++ r.subPath }
  | .withSuperPath path => fun r => { r with superPath := path ++ r.superPath }
  | .withAccessModifierViolation => fun r => { r with isAccessModifierViolation := true }
  | .contravariant => fun r =>
    { r with
      subPath := r.superPath, superPath := r.subPath
      variance := match r.variance with
        | .Covariant => .Contravariant
        | .Contravariant => .Covariant
        | v => v }
  | .invariant => fun r => { r with variance := .Invariant }

variable {S : StdHash} {room : ℕ → Bool} {e : Edit} {r r' x : SubtypingReasoning} {self : SubtypingResult}

theorem change_valid (e : Edit) (h : r.variance ≠ .Invalid) : (e.change r).variance ≠ .Invalid := by
  cases e with
  | contravariant =>
    unfold change
    simp only
    cases hv : r.variance with
    | Invalid => exact absurd hv h
    | Covariant => exact SubtypingVariance.noConfusion
    | Contravariant => exact SubtypingVariance.noConfusion
    | Invariant => exact SubtypingVariance.noConfusion
  | invariant => exact SubtypingVariance.noConfusion
  | withSubComponent component => exact h
  | withSuperComponent component => exact h
  | withSubPath path => exact h
  | withSuperPath path => exact h
  | withAccessModifierViolation => exact h

theorem change_ne_empty (e : Edit) (h : r ≠ kEmptyReasoning) : e.change r ≠ kEmptyReasoning := by
  obtain ⟨p, q, v, f⟩ := r
  intro he
  apply h
  cases e with
  | withSubComponent component => cases congrArg SubtypingReasoning.subPath he
  | withSuperComponent component => cases congrArg SubtypingReasoning.superPath he
  | withSubPath path =>
    have hp : path ++ p = [] := congrArg SubtypingReasoning.subPath he
    obtain ⟨rfl, rfl⟩ := List.append_eq_nil_iff.mp hp
    exact he
  | withSuperPath path =>
    have hq : path ++ q = [] := congrArg SubtypingReasoning.superPath he
    obtain ⟨rfl, rfl⟩ := List.append_eq_nil_iff.mp hq
    exact he
  | withAccessModifierViolation => cases congrArg SubtypingReasoning.isAccessModifierViolation he
  | contravariant =>
    have hp : p = [] := congrArg SubtypingReasoning.superPath he
    have hq : q = [] := congrArg SubtypingReasoning.subPath he
    have hv := congrArg SubtypingReasoning.variance he
    have hf : f = false := congrArg SubtypingReasoning.isAccessModifierViolation he
    rw [hp, hq, hf]
    cases v with
    | Invalid => rfl
    | Covariant => cases hv
    | Contravariant => cases hv
    | Invariant => cases hv
  | invariant => cases congrArg SubtypingReasoning.variance he

/-- Unmarked failures that an edit makes opposed were opposed. -/
theorem unopposed_change {l : List SubtypingReasoning} (e : Edit) (h : Unopposed l) : Unopposed (l.map e.change) := by
  have hcase : ∀ {p q : Path}, ⟨p, q, .Covariant, false⟩ ∈ l → ⟨p, q, .Contravariant, false⟩ ∈ l → False :=
    fun hc hv => h _ hc rfl rfl hv
  intro x hx hv hf hx'
  obtain ⟨⟨p, q, v, f⟩, hr, rfl⟩ := List.mem_map.mp hx
  obtain ⟨⟨p', q', v', f'⟩, hr', he⟩ := List.mem_map.mp hx'
  cases e with
  | withSubComponent component =>
    cases hv
    cases hf
    cases he
    exact hcase hr hr'
  | withSuperComponent component =>
    cases hv
    cases hf
    cases he
    exact hcase hr hr'
  | withSubPath path =>
    cases hv
    cases hf
    obtain rfl : p' = p := List.append_cancel_left (congrArg SubtypingReasoning.subPath he)
    cases he
    exact hcase hr hr'
  | withSuperPath path =>
    cases hv
    cases hf
    obtain rfl : q' = q := List.append_cancel_left (congrArg SubtypingReasoning.superPath he)
    cases he
    exact hcase hr hr'
  | withAccessModifierViolation => cases hf
  | contravariant =>
    cases hf
    obtain rfl : p' = p := congrArg SubtypingReasoning.superPath he
    obtain rfl : q' = q := congrArg SubtypingReasoning.subPath he
    obtain rfl : f' = false := congrArg SubtypingReasoning.isAccessModifierViolation he
    have hv' := congrArg SubtypingReasoning.variance he
    cases v with
    | Contravariant =>
      cases v' with
      | Covariant => exact hcase hr' hr
      | Invalid => cases hv'
      | Contravariant => cases hv'
      | Invariant => cases hv'
    | Invalid => cases hv
    | Covariant => cases hv
    | Invariant => cases hv
  | invariant => cases hv

/-- An edit changes the reasonings where they lie, or inserts one into a set that has none. -/
theorem exec_cases (h : Genuine S self.reasoning) :
    (∃ t, edit S e.change self.reasoning = .ok t ∧ Edited S e.change self.reasoning t ∧
        e.exec S room self = .ok { self with reasoning := t }) ∨
      self.reasoning.contents S.traits = [] ∧ ∃ fresh : SubtypingReasoning, fresh.variance ≠ .Invalid ∧
        e.exec S room self = do
          let (reasoning, _) ← self.reasoning.insert S.traits room fresh
          return { self with reasoning := reasoning } := by
  obtain ⟨t, hedit, hedited⟩ := edit_ok (f := e.change) h.stored fun r hr => by
    rw [h.empty_key] at hr ⊢
    exact change_ne_empty e hr
  have hnil : self.reasoning.count = 0 → self.reasoning.contents S.traits = [] := fun hzero =>
    List.length_eq_zero_iff.mp (h.size.symm.trans hzero)
  have hor : ∀ fresh f, f = e.change → fresh.variance ≠ .Invalid →
      e.exec S room = SubtypingResult.insertOrEdit S room fresh f →
      (∃ t, edit S e.change self.reasoning = .ok t ∧ Edited S e.change self.reasoning t ∧
          e.exec S room self = .ok { self with reasoning := t }) ∨
        self.reasoning.contents S.traits = [] ∧ ∃ fresh : SubtypingReasoning, fresh.variance ≠ .Invalid ∧
          e.exec S room self = do
            let (reasoning, _) ← self.reasoning.insert S.traits room fresh
            return { self with reasoning := reasoning } := by
    intro fresh f hf hfresh hexec
    rw [hexec]
    unfold SubtypingResult.insertOrEdit
    by_cases hzero : self.reasoning.count = 0
    · rw [if_pos hzero]
      exact Or.inr ⟨hnil hzero, fresh, hfresh, rfl⟩
    · rw [if_neg hzero, hf, hedit]
      exact Or.inl ⟨t, rfl, hedited, rfl⟩
  have hdefault : SubtypingVariance.Covariant ≠ .Invalid := SubtypingVariance.noConfusion
  cases e with
  | withSubComponent component => exact hor _ _ rfl hdefault rfl
  | withSuperComponent component => exact hor _ _ rfl hdefault rfl
  | withSubPath path => exact hor _ _ rfl hdefault rfl
  | withSuperPath path => exact hor _ _ rfl hdefault rfl
  | withAccessModifierViolation =>
    refine Or.inl ⟨t, hedit, hedited, ?_⟩
    show (do
      let reasoning ← edit S (change withAccessModifierViolation) self.reasoning
      return { self with reasoning := reasoning }) = _
    rw [hedit]
    rfl
  | contravariant => exact hor _ _ rfl SubtypingVariance.noConfusion rfl
  | invariant => exact hor _ _ rfl SubtypingVariance.noConfusion rfl

theorem kept_of_nil {f : SubtypingReasoning → SubtypingReasoning} {t : SubtypingReasonings}
    (h : TableOk S.traits t) (hnil : t.contents S.traits = []) : Edited.Kept S f t := by
  refine ⟨fun b r hb => ?_, fun r hr => ?_⟩
  · have hmem : r ∈ t.contents S.traits := mem_entries.mpr ⟨b, h.layout.bound b r hb, hb⟩
    rw [hnil] at hmem
    cases hmem
  · rw [hnil] at hr
    cases hr

theorem regular_edited {t t' : SubtypingReasonings} (h : Regular S t) (he : Edited S e.change t t')
    (hkept : Edited.Kept S e.change t) : Regular S t' := by
  refine ⟨⟨he.ok h.toTableOk hkept, he.written.empty_key.trans h.empty_key, fun r hr => ?_⟩, ?_⟩
  · rw [he.contents] at hr
    obtain ⟨r₀, hr₀, rfl⟩ := List.mem_map.mp hr
    exact change_valid e (h.valid r₀ hr₀)
  · rw [he.contents]
    exact unopposed_change e h.unopposed

theorem regular_fresh {t t' : SubtypingReasonings} {fresh : SubtypingReasoning} (hnil : t.contents S.traits = [])
    (hgen : Genuine S t') (hmem : ∀ x, x ∈ t'.contents S.traits ↔ x ∈ t.contents S.traits ∨ x = fresh) :
    Regular S t' := by
  refine ⟨hgen, fun x hx hv _ hx' => ?_⟩
  rw [hmem, hnil] at hx hx'
  rcases hx with hx | rfl
  · cases hx
  · rcases hx' with hx' | hx'
    · cases hx'
    · have hsame := congrArg SubtypingReasoning.variance hx'
      rw [hv] at hsame
      cases hsame

end Edit

/-! ### Joins -/

section Joins

variable {S : StdHash} {room : ℕ → Bool} {limit : ℕ}

/-- What `andAlso` and `orElse` share: two failures are merged, and otherwise one set is taken over or none. -/
def Joins (S : StdHash) (room : ℕ → Bool) (limit : ℕ)
    (op : SubtypingResult → SubtypingResult → DenseM SubtypingResult) : Prop :=
  ∀ a b : SubtypingResult,
    (a.isSubtype = false ∧ b.isSubtype = false → op a b = do
      let t ← mergeReasonings S room limit a.reasoning b.reasoning
      return { isSubtype := false, reasoning := t }) ∧
    (¬(a.isSubtype = false ∧ b.isSubtype = false) → ∃ r, op a b = .ok r ∧
      (r.reasoning = a.reasoning ∨ r.reasoning = b.reasoning ∨ r.reasoning = a.reasoning.clear S.traits 32))

theorem joins_andAlso (S : StdHash) (room : ℕ → Bool) (limit : ℕ) :
    Joins S room limit (SubtypingResult.andAlso S room limit) := by
  intro a b
  constructor
  · rintro ⟨ha, hb⟩
    unfold SubtypingResult.andAlso
    rw [if_pos hb, ha, hb]
    rfl
  · intro hnot
    unfold SubtypingResult.andAlso
    by_cases hb : b.isSubtype = false
    · have ha : a.isSubtype = true := Bool.not_eq_false _ ▸ fun ha => hnot ⟨ha, hb⟩
      rw [if_pos hb, if_pos ha]
      exact ⟨_, rfl, Or.inr (Or.inl rfl)⟩
    · rw [if_neg hb]
      exact ⟨_, rfl, Or.inl rfl⟩

theorem joins_orElse (S : StdHash) (room : ℕ → Bool) (limit : ℕ) :
    Joins S room limit (SubtypingResult.orElse S room limit) := by
  intro a b
  constructor
  · rintro ⟨ha, hb⟩
    unfold SubtypingResult.orElse
    rw [if_pos ha, ha, hb]
    rfl
  · intro hnot
    unfold SubtypingResult.orElse
    by_cases ha : a.isSubtype = false
    · have hb : b.isSubtype = true := Bool.not_eq_false _ ▸ fun hb => hnot ⟨ha, hb⟩
      rw [if_pos ha, if_pos hb]
      exact ⟨_, rfl, Or.inr (Or.inr rfl)⟩
    · rw [if_neg ha]
      exact ⟨_, rfl, Or.inl rfl⟩

theorem regular_clear {t : SubtypingReasonings} (h : Regular S t) : Regular S (t.clear S.traits 32) := by
  obtain ⟨hok, hnil, hempty⟩ := clear_ok h.toTableOk 32
  refine ⟨⟨hok, hempty.trans h.empty_key, fun r hr => ?_⟩, fun r hr => ?_⟩
  · rw [hnil] at hr
    cases hr
  · rw [hnil] at hr
    cases hr

end Joins

/-! ### Trees -/

namespace Combination

section Trees

variable (S : StdHash) (room : ℕ → Bool) (limit : ℕ)

/-- There is memory for the sets of a result, and its set stays below the limit. -/
def Fits (c : Combination) : Prop :=
  c.eval S room limit ≠ .error .badalloc ∧ ∀ r, c.eval S room limit = .ok r → r.reasoning.count < limit

/-- Every result of the tree fits. -/
def Within : Combination → Prop
  | .result isSubtype => Fits S room limit (.result isSubtype)
  | .edit e a => a.Within ∧ Fits S room limit (.edit e a)
  | .andAlso a b => a.Within ∧ b.Within ∧ Fits S room limit (.andAlso a b)
  | .orElse a b => a.Within ∧ b.Within ∧ Fits S room limit (.orElse a b)

/-- The combination has a result, and its reasonings are a set. -/
def HasSet (c : Combination) : Prop := ∃ r, c.eval S room limit = .ok r ∧ IsSet S r.reasoning

/-- A covariant and a contravariant failure that the operation merges become one. -/
def Reconciles (a b c : Combination) : Prop :=
  ∀ ra rb r, a.eval S room limit = .ok ra → b.eval S room limit = .ok rb → c.eval S room limit = .ok r →
    ra.isSubtype = false → rb.isSubtype = false →
    ∃ la lb l, ra.reasoning.items S.traits = .ok la ∧ rb.reasoning.items S.traits = .ok lb ∧
      r.reasoning.items S.traits = .ok l ∧ Reconciled la lb l

/-- The reasonings of every result of the tree are a set, and every merge reconciles them. -/
def Holds : Combination → Prop
  | .result isSubtype => HasSet S room limit (.result isSubtype)
  | .edit e a => a.Holds ∧ HasSet S room limit (.edit e a)
  | .andAlso a b => a.Holds ∧ b.Holds ∧ HasSet S room limit (.andAlso a b) ∧ Reconciles S room limit a b (.andAlso a b)
  | .orElse a b => a.Holds ∧ b.Holds ∧ HasSet S room limit (.orElse a b) ∧ Reconciles S room limit a b (.orElse a b)

def CanReconcile (a b : Combination) : Prop :=
  ∀ ra rb, a.eval S room limit = .ok ra → b.eval S room limit = .ok rb → ra.isSubtype = false → rb.isSubtype = false →
    Cancellable (ra.reasoning.contents S.traits) (rb.reasoning.contents S.traits)

/-- Every edit of the tree keeps the reasonings distinct and where searches for them lead, and no merge meets an access modifier
violation that has opposed failures at its pair. -/
def Kept : Combination → Prop
  | .result _ => True
  | .edit e a => a.Kept ∧ ∀ r, a.eval S room limit = .ok r → Edited.Kept S e.change r.reasoning
  | .andAlso a b => a.Kept ∧ b.Kept ∧ CanReconcile S room limit a b
  | .orElse a b => a.Kept ∧ b.Kept ∧ CanReconcile S room limit a b

end Trees

variable {S : StdHash} {room : ℕ → Bool} {limit : ℕ} {a b c : Combination}

/-- A combination whose set of reasonings is regular -/
def IsRegular (S : StdHash) (room : ℕ → Bool) (limit : ℕ) (c : Combination) : Prop :=
  ∃ r, c.eval S room limit = .ok r ∧ Regular S r.reasoning

theorem IsRegular.hasSet (h : IsRegular S room limit c) : HasSet S room limit c := by
  obtain ⟨r, hrun, hreg⟩ := h
  exact ⟨r, hrun, isSet_of_ok hreg.toTableOk⟩

theorem edit_regular_iff {e : Edit} (ha : IsRegular S room limit a) (hfits : Fits S room limit (.edit e a)) :
    (HasSet S room limit (.edit e a) → ∀ r, a.eval S room limit = .ok r → Edited.Kept S e.change r.reasoning) ∧
      ((∀ r, a.eval S room limit = .ok r → Edited.Kept S e.change r.reasoning) →
        IsRegular S room limit (.edit e a)) := by
  obtain ⟨ra, hra, hreg⟩ := ha
  have heval : eval S room limit (.edit e a) = e.exec S room ra := by
    rw [eval, hra]
    rfl
  rcases @Edit.exec_cases S room e _ hreg.toGenuine with
    ⟨t, _, hedited, hexec⟩ | ⟨hnil, fresh, hvalid, hexec⟩
  · rw [hexec] at heval
    refine ⟨fun hset r hr => ?_, fun hkept => ⟨_, heval, Edit.regular_edited hreg hedited (hkept ra hra)⟩⟩
    obtain rfl : ra = r := Except.ok.inj (hra.symm.trans hr)
    obtain ⟨r', hr', hset⟩ := hset
    obtain rfl := Except.ok.inj (heval.symm.trans hr')
    exact hedited.kept_of_isSet hreg.toTableOk hset
  · refine ⟨fun _ r hr => ?_, fun _ => ?_⟩
    · obtain rfl : ra = r := Except.ok.inj (hra.symm.trans hr)
      exact Edit.kept_of_nil hreg.toTableOk hnil
    · rw [hexec] at heval
      rcases insert_genuine hreg.toGenuine room hvalid with hbad | ⟨t', bucket, hins, hgen, hmem⟩
      · rw [hbad] at heval
        exact absurd heval hfits.1
      · rw [hins] at heval
        exact ⟨_, heval, Edit.regular_fresh hnil hgen hmem⟩

theorem join_regular_iff {op : SubtypingResult → SubtypingResult → DenseM SubtypingResult}
    (hop : Joins S room limit op) (hc : c.eval S room limit = do
      let ra ← a.eval S room limit
      let rb ← b.eval S room limit
      op ra rb)
    (ha : IsRegular S room limit a) (hb : IsRegular S room limit b) (hfits : Fits S room limit c) :
    IsRegular S room limit c ∧ (Reconciles S room limit a b c ↔ CanReconcile S room limit a b) := by
  obtain ⟨ra, hra, hrega⟩ := ha
  obtain ⟨rb, hrb, hregb⟩ := hb
  rw [hra, hrb] at hc
  replace hc : c.eval S room limit = op ra rb := hc
  by_cases hfail : ra.isSubtype = false ∧ rb.isSubtype = false
  · have hmerge := (hop ra rb).1 hfail
    rw [hmerge] at hc
    rcases @mergeReasonings_ok S room _ _ limit hrega.toGenuine hregb.toGenuine with
      hbad | ⟨t, hrun, hgen, hsub, hall⟩
    · rw [hbad] at hc
      exact absurd hc hfits.1
    · rw [hrun] at hc
      have hmem : ∀ x, x ∈ t.contents S.traits ↔ MergedFrom S ra.reasoning rb.reasoning x :=
        fun x => ⟨hsub x, hall (hfits.2 _ hc) x⟩
      have hiff := reconciled_iff hrega hregb hgen hmem
      refine ⟨⟨_, hc, hgen, unopposed_merged hrega.unopposed hregb.unopposed hsub⟩, fun hrec ra' rb' hra' hrb' _ _ => ?_,
        fun hcan ra' rb' r hra' hrb' hr _ _ => ?_⟩
      · obtain rfl : ra = ra' := Except.ok.inj (hra.symm.trans hra')
        obtain rfl : rb = rb' := Except.ok.inj (hrb.symm.trans hrb')
        obtain ⟨la, lb, l, hla, hlb, hl, hrec⟩ := hrec ra rb _ hra hrb hc hfail.1 hfail.2
        rw [items_ok hrega.toTableOk] at hla
        rw [items_ok hregb.toTableOk] at hlb
        rw [items_ok hgen.toTableOk] at hl
        cases hla
        cases hlb
        cases hl
        exact hiff.mp hrec
      · obtain rfl : ra = ra' := Except.ok.inj (hra.symm.trans hra')
        obtain rfl : rb = rb' := Except.ok.inj (hrb.symm.trans hrb')
        obtain rfl := Except.ok.inj (hc.symm.trans hr)
        exact ⟨_, _, _, items_ok hrega.toTableOk, items_ok hregb.toTableOk, items_ok hgen.toTableOk,
          hiff.mpr (hcan ra rb hra hrb hfail.1 hfail.2)⟩
  · obtain ⟨r, hr, htable⟩ := (hop ra rb).2 hfail
    have hsame : ∀ {ra' rb'}, a.eval S room limit = .ok ra' → b.eval S room limit = .ok rb' →
        ra'.isSubtype = false → rb'.isSubtype = false → False := by
      intro ra' rb' hra' hrb' hfa hfb
      obtain rfl : ra = ra' := Except.ok.inj (hra.symm.trans hra')
      obtain rfl : rb = rb' := Except.ok.inj (hrb.symm.trans hrb')
      exact hfail ⟨hfa, hfb⟩
    refine ⟨⟨r, hc.trans hr, ?_⟩, fun _ ra' rb' hra' hrb' hfa hfb => (hsame hra' hrb' hfa hfb).elim,
      fun _ ra' rb' _ hra' hrb' _ hfa hfb => (hsame hra' hrb' hfa hfb).elim⟩
    rcases htable with h | h | h
    · rw [h]
      exact hrega
    · rw [h]
      exact hregb
    · rw [h]
      exact regular_clear hrega

theorem tree_iff (hwithin : c.Within S room limit) :
    (c.Holds S room limit → c.Kept S room limit) ∧
      (c.Kept S room limit → c.Holds S room limit ∧ IsRegular S room limit c) := by
  induction c with
  | result isSubtype =>
    have hreg : IsRegular S room limit (.result isSubtype) :=
      ⟨{ isSubtype := isSubtype }, rfl, bare_genuine S, fun r hr => by cases hr⟩
    exact ⟨fun _ => trivial, fun _ => ⟨hreg.hasSet, hreg⟩⟩
  | edit e a ih =>
    obtain ⟨hwa, hfits⟩ := hwithin
    refine ⟨fun hholds => ?_, fun hkept => ?_⟩
    · have hka := (ih hwa).1 hholds.1
      exact ⟨hka, (edit_regular_iff ((ih hwa).2 hka).2 hfits).1 hholds.2⟩
    · obtain ⟨hha, hrega⟩ := (ih hwa).2 hkept.1
      have hreg := (edit_regular_iff hrega hfits).2 hkept.2
      exact ⟨⟨hha, hreg.hasSet⟩, hreg⟩
  | andAlso a b iha ihb =>
    obtain ⟨hwa, hwb, hfits⟩ := hwithin
    have hstep := fun ha hb => join_regular_iff (joins_andAlso S room limit) (c := .andAlso a b) rfl ha hb hfits
    refine ⟨fun hholds => ?_, fun hkept => ?_⟩
    · have hka := (iha hwa).1 hholds.1
      have hkb := (ihb hwb).1 hholds.2.1
      exact ⟨hka, hkb, (hstep ((iha hwa).2 hka).2 ((ihb hwb).2 hkb).2).2.mp hholds.2.2.2⟩
    · obtain ⟨hha, hrega⟩ := (iha hwa).2 hkept.1
      obtain ⟨hhb, hregb⟩ := (ihb hwb).2 hkept.2.1
      obtain ⟨hreg, hiff⟩ := hstep hrega hregb
      exact ⟨⟨hha, hhb, hreg.hasSet, hiff.mpr hkept.2.2⟩, hreg⟩
  | orElse a b iha ihb =>
    obtain ⟨hwa, hwb, hfits⟩ := hwithin
    have hstep := fun ha hb => join_regular_iff (joins_orElse S room limit) (c := .orElse a b) rfl ha hb hfits
    refine ⟨fun hholds => ?_, fun hkept => ?_⟩
    · have hka := (iha hwa).1 hholds.1
      have hkb := (ihb hwb).1 hholds.2.1
      exact ⟨hka, hkb, (hstep ((iha hwa).2 hka).2 ((ihb hwb).2 hkb).2).2.mp hholds.2.2.2⟩
    · obtain ⟨hha, hrega⟩ := (iha hwa).2 hkept.1
      obtain ⟨hhb, hregb⟩ := (ihb hwb).2 hkept.2.1
      obtain ⟨hreg, hiff⟩ := hstep hrega hregb
      exact ⟨⟨hha, hhb, hreg.hasSet, hiff.mpr hkept.2.2⟩, hreg⟩

/-- Below the limit, the reasonings of a tree of combinations are sets exactly when its edits keep them. -/
theorem reasonings_iff (S : StdHash) (room : ℕ → Bool) (limit : ℕ) (c : Combination)
    (hwithin : c.Within S room limit) : c.Holds S room limit ↔ c.Kept S room limit :=
  ⟨(tree_iff hwithin).1, fun hkept => ((tree_iff hwithin).2 hkept).1⟩

theorem fits_of_count {n : ℕ} (h : (c.eval S room limit).map (fun r => r.reasoning.count) = .ok n) (hn : n < limit) :
    Fits S room limit c := by
  constructor
  · intro hbad
    rw [hbad] at h
    cases h
  · intro r hr
    rw [hr] at h
    cases h
    exact hn

end Combination

/-! ### Runs -/

open Combination

def zeroHash : StdHash := ⟨fun _ => 0, fun _ => 0⟩

/-- A tail fails in both directions. -/
def tails : Combination :=
  .andAlso (.edit (.withSubComponent (.packField .Tail)) (.result false))
    (.edit .contravariant (.edit (.withSuperComponent (.packField .Tail)) (.result false)))

theorem reasonings_iff_tails : tails.Within zeroHash (fun _ => true) 100 ∧
    (tails.Holds zeroHash (fun _ => true) 100 ↔ tails.Kept zeroHash (fun _ => true) 100) := by
  have hwithin : tails.Within zeroHash (fun _ => true) 100 := by
    refine ⟨⟨fits_of_count (n := 0) rfl (by decide), fits_of_count (n := 1) rfl (by decide)⟩,
      ⟨⟨fits_of_count (n := 0) rfl (by decide), fits_of_count (n := 1) rfl (by decide)⟩,
        fits_of_count (n := 1) rfl (by decide)⟩, fits_of_count (n := 1) rfl (by decide)⟩
  exact ⟨hwithin, reasonings_iff zeroHash (fun _ => true) 100 tails hwithin⟩

/-- The reasoning of a tail on both sides is in a bucket where no search for it looks. -/
theorem both_tails_lost :
    (withBothComponent (.packField .Tail) (.result false)).Within zeroHash (fun _ => true) 100 ∧
      ¬ (withBothComponent (.packField .Tail) (.result false)).Holds zeroHash (fun _ => true) 100 := by
  refine ⟨⟨⟨fits_of_count (n := 0) rfl (by decide), fits_of_count (n := 1) rfl (by decide)⟩,
    fits_of_count (n := 1) rfl (by decide)⟩, fun hholds => ?_⟩
  obtain ⟨_, r, hr, l, hl, _, hfind, _⟩ := hholds
  cases hr
  cases hl
  cases hfind ⟨[.packField .Tail], [.packField .Tail], .Covariant, false⟩ List.mem_cons_self

end Luwu.Subtyping
