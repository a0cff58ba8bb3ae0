import Luwu.Normal.Atoms
import Luwu.Normal.Types

/-!
# Normalizing keeps the values

The induction over types: what `unionNormalWithTy` and `intersectNormalWithTy` do to the values of a normal
form, for the types that are good where they come.
-/

namespace Luwu.Normal

open Normalizer

variable {Class Obj : Type} [DecidableEq Class] {W : Classes Class Obj} {N : Normalizer Class}
  {n here there : NormalizedType Class} {t : Ty Class} {v : Value Obj}

/-- A normal form with the values `P`, and without errors when there were none. -/
structure Yields (W : Classes Class Obj) (n : NormalizedType Class) (P : Value Obj → Prop) (calm : Prop) : Prop where
  normalized : Normalized n
  has : ∀ v, v ≠ .error → (n.Has W v ↔ P v)
  errors : calm → n.errors = .never

omit [DecidableEq Class] in
theorem Yields.imp {P Q : Value Obj → Prop} {calm calm' : Prop} (h : Yields W n P calm)
    (hsame : ∀ v, v ≠ .error → (P v ↔ Q v)) (hcalm : calm' → calm) : Yields W n Q calm' :=
  ⟨h.normalized, fun v hv => (h.has v hv).trans (hsame v hv), fun hc => h.errors (hcalm hc)⟩

/-! ### Errors -/

omit [DecidableEq Class] in
theorem unionNormals_errors (h : here.errors = .never) (h' : there.errors = .never) :
    (N.unionNormals here there).errors = .never := by
  by_cases he : topsOfUnion here there = .never
  · rw [unionNormals_all he]
    show unionOfParts here.errors there.errors = _
    rw [h, h']
    rfl
  · rw [unionNormals_top he]
    rfl

omit [DecidableEq Class] in
theorem intersectNormals_errors (h : here.errors = .never) (h' : there.errors = .never) :
    (N.intersectNormals here there).errors = .never := by
  unfold Normalizer.intersectNormals
  split
  · exact h
  · split
    · exact unionNormals_errors rfl h'
    · show intersectionOfParts here.errors there.errors = _
      rw [h, h']
      rfl

/-! ### Tops -/

omit [DecidableEq Class] in
theorem unionNormalWithTop_ok (h : Normalized here) (ht : t = .unknown ∨ t = .any) :
    Yields W (unionNormalWithTop here t) (fun v => here.Has W v ∨ t.Has W v) (here.errors = .never) := by
  have hcases : (if (unionOfTops here.tops t).isUnknown && here.errors.isError then Ty.any
      else unionOfTops here.tops t) = .unknown ∨ (if (unionOfTops here.tops t).isUnknown && here.errors.isError then
        Ty.any else unionOfTops here.tops t) = .any := by
    obtain rfl | rfl := ht <;> obtain hh | hh | hh := h.tops <;>
      simp [unionOfTops, Ty.isNever, Ty.isAny, Ty.isUnknown, hh]
  have hn : Normalized (unionNormalWithTop here t) := normalized_top (Or.inr hcases)
  refine ⟨hn, fun v hv => ?_, fun _ => rfl⟩
  have htops : (unionNormalWithTop here t).tops ≠ .never := by
    intro he
    replace he : (if (unionOfTops here.tops t).isUnknown && here.errors.isError then Ty.any
      else unionOfTops here.tops t) = .never := he
    obtain hc | hc := hcases
    · rw [he] at hc
      cases hc
    · rw [he] at hc
      cases hc
  refine ⟨fun _ => Or.inr ?_, fun _ => hn.has_of_tops htops hv⟩
  obtain rfl | rfl := ht
  · exact hv
  · exact trivial

omit [DecidableEq Class] in
theorem absorbs_iff (h : Normalized here) :
    (here.tops.isAny || here.tops.isUnknown) = true ↔ here.tops ≠ .never := by
  obtain ht | ht | ht := h.tops <;> simp [ht, Ty.isAny, Ty.isUnknown]

omit [DecidableEq Class] in
/-- What comes to a top is there. -/
theorem yields_of_tops (h : Normalized here) (ht : here.tops ≠ .never) (P : Value Obj → Prop) :
    Yields W here (fun v => here.Has W v ∨ P v) (here.errors = .never) where
  normalized := h
  has := fun _ hv => ⟨Or.inl, fun _ => h.has_of_tops ht hv⟩
  errors := id

omit [DecidableEq Class] in
theorem tops_of_isAny (h : here.tops.isAny = true) : here.tops ≠ .never := by
  intro he
  rw [he] at h
  cases h

/-! ### Lists of types -/

/-- A part of an intersection, or the parts of an intersection among them -/
def meet (N : Normalizer Class) (here : NormalizedType Class) : Ty Class → Option (NormalizedType Class)
  | .intersection inner => N.intersectNormalWithParts here inner
  | t => N.intersectNormalWithTy here t

theorem parts_cons (t : Ty Class) (ts : List (Ty Class)) : N.intersectNormalWithParts here (t :: ts) =
    (meet N here t).bind fun n => N.intersectNormalWithParts n ts := by
  cases t <;> rw [intersectNormalWithParts] <;> first | rfl | simp

/-- The first part that is not a top is as by itself. -/
theorem intersectTy_of_tops (ht : here.tops ≠ .never) (htop : t.tops = false) :
    N.intersectNormalWithTy here t = N.unionNormalWithTy .never t := by
  cases t with
  | any => cases htop
  | unknown => cases htop
  | _ =>
    rw [intersectNormalWithTy.eq_def]
    exact if_pos (isNever_not ht)

/-- An option of a union, or the options of a union among them -/
def join (N : Normalizer Class) (here : NormalizedType Class) : Ty Class → Option (NormalizedType Class)
  | .union inner => N.unionNormalWithOptions here inner
  | t => N.unionNormalWithTy here t

theorem options_cons (t : Ty Class) (ts : List (Ty Class)) : N.unionNormalWithOptions here (t :: ts) =
    (join N here t).bind fun n => N.unionNormalWithOptions n ts := by
  cases t <;> rw [unionNormalWithOptions] <;> first | rfl | simp

/-- Leading tops leave a top. -/
theorem intersectParts_tops (ts : List (Ty Class)) (here : NormalizedType Class) (h : Normalized here)
    (ht : here.tops ≠ .never) (hall : Ty.allTops ts = true) :
    ∃ n, N.intersectNormalWithParts here ts = some n ∧ Normalized n ∧ n.tops ≠ .never := by
  match ts with
  | [] =>
    rw [intersectNormalWithParts]
    exact ⟨here, rfl, h, ht⟩
  | t :: ts =>
    obtain ⟨htop, hrest⟩ := Bool.and_eq_true_iff.mp hall
    have hmeet : ∃ n, meet N here t = some n ∧ Normalized n ∧ n.tops ≠ .never := by
      cases t with
      | unknown =>
        show ∃ n, N.intersectNormalWithTy here .unknown = some n ∧ _
        rw [intersectNormalWithTy]
        exact ⟨_, rfl, normalized_intersectTops h, fun he => (intersectionOfTops_never.mp he).elim ht (by simp)⟩
      | any =>
        show ∃ n, N.intersectNormalWithTy here .any = some n ∧ _
        rw [intersectNormalWithTy]
        exact ⟨_, rfl, normalized_intersectTops h, fun he => (intersectionOfTops_never.mp he).elim ht (by simp)⟩
      | intersection inner => exact intersectParts_tops inner here h ht htop
      | _ => cases htop
    obtain ⟨n, hrun, hn, htops⟩ := hmeet
    rw [parts_cons, hrun]
    exact intersectParts_tops ts n hn htops hrest
termination_by sizeOf ts

/-! ### The induction -/

omit [DecidableEq Class] in
theorem Denotes.yields {P Q : Value Obj → Prop} {calm : Prop} (h : Denotes W n P)
    (hsame : ∀ v, v ≠ .error → (P v ↔ Q v)) (herrors : calm → n.errors = .never) :
    n.tops = .never ∧ Yields W n Q calm :=
  ⟨h.tops, h.normalized, fun v hv => (h.has v hv).trans (hsame v hv), herrors⟩

omit [DecidableEq Class] in
/-- A negation that is met with, given the normal form of its type. -/
theorem intersectNegated_ok (hN : Exact W N) (h : Normalized here) (ht : here.tops = .never) (h' : Normalized there)
    (herrors : there.errors = .never) :
    ∃ n, N.intersectNormalWithNegated here there = some n ∧ n.tops = .never ∧
      Yields W n (fun v => here.Has W v ∧ ¬ there.Has W v) (here.errors = .never) := by
  obtain ⟨negated, hrun, hneg, _, hnone, hhas⟩ := negateNormal_ok hN h' herrors
  obtain ⟨hn, htops, hmeet⟩ := intersectNormals_ok hN h hneg
  refine ⟨N.intersectNormals here negated, ?_, htops ht, hn, fun v hv => ?_, fun hc => ?_⟩
  · unfold Normalizer.intersectNormalWithNegated
    rw [hrun]
    rfl
  · rw [hmeet v hv, hhas v hv]
  · exact intersectNormals_errors hc hnone

mutual

theorem unionTy_ok (hN : Exact W N) (t : Ty Class) (here : NormalizedType Class)
    (hgood : t.Good W N.oneTableWithExtern) (h : Normalized here) :
    ∃ n, N.unionNormalWithTy here t = some n ∧
      Yields W n (fun v => here.Has W v ∨ t.Has W v) (t.Calm ∧ here.errors = .never) := by
  rw [unionNormalWithTy.eq_def]
  match t with
  | .any => exact ⟨_, rfl, (unionNormalWithTop_ok h (Or.inr rfl)).imp (fun _ _ => Iff.rfl) And.right⟩
  | .unknown => exact ⟨_, rfl, (unionNormalWithTop_ok h (Or.inl rfl)).imp (fun _ _ => Iff.rfl) And.right⟩
  | .never => exact ⟨here, rfl, h, fun v _ => (or_iff_left id).symm, And.right⟩
  | .error =>
    obtain ht | ht | ht := h.tops
    · refine ⟨{ here with errors := .error }, ?_, ?_, fun v hv => ?_, fun hcalm => hcalm.1.elim⟩
      · rw [ht]
        rfl
      · exact { h with errors := Or.inr rfl, alone := fun hne => absurd ht hne }
      · have hn : Normalized ({ here with errors := .error } : NormalizedType Class) :=
          { h with errors := Or.inr rfl, alone := fun hne => absurd ht hne }
        rw [hn.has_parts ht, h.has_parts ht]
        cases v with
        | error => exact absurd rfl hv
        | _ => simp [NormalizedType.Part]
    · refine ⟨{ here with tops := .any }, ?_, ?_⟩
      · rw [ht]
        rfl
      · have htop : ({ here with tops := .any } : NormalizedType Class) = .top .any := by
          rw [h.alone (by simp [ht])]
          rfl
        rw [htop]
        have hn : Normalized (.top .any : NormalizedType Class) := normalized_top (Or.inr (Or.inr rfl))
        refine ⟨hn, fun v hv => ?_, fun _ => rfl⟩
        exact ⟨fun _ => Or.inl (h.has_of_tops (by simp [ht]) hv), fun _ => hn.has_of_tops (by simp [NormalizedType.top]) hv⟩
    · refine ⟨here, ?_, (yields_of_tops h (by simp [ht]) _).imp (fun _ _ => Iff.rfl) And.right⟩
      rw [ht]
      rfl
  | .union ts =>
    by_cases hany : here.tops.isAny = true
    · exact ⟨here, if_pos hany, (yields_of_tops h (tops_of_isAny hany) _).imp (fun _ _ => Iff.rfl) And.right⟩
    · obtain ⟨n, hrun, hyields⟩ := unionOptions_ok hN ts here hgood h
      exact ⟨n, (if_neg hany).trans hrun, hyields⟩
  | .intersection ts =>
    by_cases hany : here.tops.isAny = true
    · exact ⟨here, if_pos hany, (yields_of_tops h (tops_of_isAny hany) _).imp (fun _ _ => Iff.rfl) And.right⟩
    · obtain ⟨norm, hrun, hyields⟩ := intersectFirst_ok hN ts (.top .unknown) hgood
        (normalized_top (Or.inr (Or.inl rfl))) (by simp [NormalizedType.top])
      obtain ⟨hn, hhas⟩ := unionNormals_ok hN h hyields.normalized
      refine ⟨N.unionNormals here norm, ?_, hn, fun v hv => ?_, fun hcalm => ?_⟩
      · dsimp only
        rw [if_neg hany, hrun]
        rfl
      · rw [hhas v, hyields.has v hv]
        rfl
      · exact unionNormals_errors hcalm.2 (hyields.errors ⟨hcalm.1, rfl⟩)
  | .externType c =>
    by_cases htops : here.tops = .never
    · refine ⟨_, if_neg (mt (absorbs_iff h).mp (not_not.mpr htops)), ?_⟩
      exact ((unionExtern_ok hN h htops).yields (fun _ _ => Iff.rfl) And.right).2
    · exact ⟨here, if_pos ((absorbs_iff h).mpr htops), (yields_of_tops h htops _).imp (fun _ _ => Iff.rfl) And.right⟩
  | .primitive p =>
    by_cases htops : here.tops = .never
    · refine ⟨_, if_neg (mt (absorbs_iff h).mp (not_not.mpr htops)), ?_⟩
      refine ((unionPrimitive_ok h htops).yields (fun _ _ => Iff.rfl) fun hcalm => ?_).2
      cases p <;> exact hcalm.2
    · exact ⟨here, if_pos ((absorbs_iff h).mpr htops), (yields_of_tops h htops _).imp (fun _ _ => Iff.rfl) And.right⟩
  | .singleton s =>
    by_cases htops : here.tops = .never
    · refine ⟨_, if_neg (mt (absorbs_iff h).mp (not_not.mpr htops)), ?_⟩
      refine ((unionSingleton_ok h htops).yields (fun _ _ => Iff.rfl) fun hcalm => ?_).2
      cases s <;> exact hcalm.2
    · exact ⟨here, if_pos ((absorbs_iff h).mpr htops), (yields_of_tops h htops _).imp (fun _ _ => Iff.rfl) And.right⟩
  | .negation t =>
    by_cases htops : here.tops = .never
    · obtain ⟨norm, hrun, hyields⟩ := unionTy_ok hN t .never hgood.2 normalized_never
      obtain ⟨hnormalized, hkeep, hsame⟩ := normalized_ok (W := W) hN hyields.normalized
      obtain ⟨negated, hneg, hn, _, hnone, hcompl⟩ :=
        negateNormal_ok hN hnormalized (hkeep (hyields.errors ⟨hgood.1, rfl⟩))
      obtain ⟨hunion, hhas⟩ := unionNormals_ok hN h hn
      refine ⟨N.unionNormals here negated, ?_, hunion, fun v hv => ?_, fun hcalm => ?_⟩
      · dsimp only
        rw [if_neg (mt (absorbs_iff h).mp (not_not.mpr htops)), hrun]
        show ((N.negateNormal (N.normalized norm)).bind _) = _
        rw [hneg]
        rfl
      · rw [hhas v, hcompl v hv, hsame v, hyields.has v hv, or_iff_right has_never_form]
        exact or_congr_right (iff_and_self.mpr fun _ => hv)
      · exact unionNormals_errors hcalm.2 hnone
    · exact ⟨here, if_pos ((absorbs_iff h).mpr htops), (yields_of_tops h htops _).imp (fun _ _ => Iff.rfl) And.right⟩
termination_by (sizeOf t, 0)

theorem unionOptions_ok (hN : Exact W N) (ts : List (Ty Class)) (here : NormalizedType Class)
    (hgood : Ty.GoodAll W N.oneTableWithExtern ts) (h : Normalized here) :
    ∃ n, N.unionNormalWithOptions here ts = some n ∧
      Yields W n (fun v => here.Has W v ∨ Ty.HasSome W ts v) (Ty.CalmAll ts ∧ here.errors = .never) := by
  match ts with
  | [] =>
    rw [unionNormalWithOptions]
    exact ⟨here, rfl, h, fun v _ => (or_iff_left id).symm, And.right⟩
  | t :: ts =>
    have hjoin : ∃ n, join N here t = some n ∧
        Yields W n (fun v => here.Has W v ∨ t.Has W v) (t.Calm ∧ here.errors = .never) := by
      unfold join
      split
      · next inner => exact unionOptions_ok hN inner here hgood.1 h
      · exact unionTy_ok hN t here hgood.1 h
    obtain ⟨n, hrun, hyields⟩ := hjoin
    obtain ⟨n', hrun', hyields'⟩ := unionOptions_ok hN ts n hgood.2 hyields.normalized
    refine ⟨n', ?_, hyields'.imp (fun v hv => ?_) fun hcalm => ?_⟩
    · rw [options_cons, hrun]
      exact hrun'
    · rw [hyields.has v hv, or_assoc]
      rfl
    · exact ⟨hcalm.1.2, hyields.errors ⟨hcalm.1.1, hcalm.2⟩⟩
termination_by (sizeOf ts, 0)

/-- The parts of an intersection that has only met with tops. -/
theorem intersectFirst_ok (hN : Exact W N) (ts : List (Ty Class)) (here : NormalizedType Class)
    (hgood : Ty.GoodFirst W N.oneTableWithExtern ts) (h : Normalized here) (ht : here.tops ≠ .never) :
    ∃ n, N.intersectNormalWithParts here ts = some n ∧
      Yields W n (fun v => Ty.HasAll W ts v) (Ty.CalmAll ts ∧ here.errors = .never) := by
  match ts with
  | [] =>
    rw [intersectNormalWithParts]
    exact ⟨here, rfl, h, fun v hv => ⟨fun _ => trivial, fun _ => h.has_of_tops ht hv⟩, And.right⟩
  | t :: ts =>
    rw [parts_cons]
    unfold Ty.GoodFirst at hgood
    split at hgood
    · next htops =>
      have hall : Ty.allTops [t] = true := by
        unfold Ty.allTops
        rw [htops]
        rfl
      obtain ⟨n, hrun, hn, hne⟩ := intersectParts_tops (N := N) [t] here h ht hall
      rw [parts_cons] at hrun
      have hmeet : meet N here t = some n := by
        obtain ⟨m, hm, hnil⟩ := Option.bind_eq_some_iff.mp hrun
        rw [intersectNormalWithParts] at hnil
        rw [hm, hnil]
      obtain ⟨n', hrun', hyields⟩ := intersectFirst_ok hN ts n hgood hn hne
      refine ⟨n', ?_, hyields.imp (fun v hv => ?_) fun hcalm => ⟨hcalm.1.2, ?_⟩⟩
      · rw [hmeet]
        exact hrun'
      · exact (and_iff_right (has_of_tops t htops v hv)).symm
      · rw [hn.alone hne]
        rfl
    · next hnot =>
      have hcalm : here.errors = .never := by
        rw [h.alone ht]
        rfl
      have hmeet : ∃ n, meet N here t = some n ∧ Yields W n (fun v => t.Has W v) t.Calm := by
        unfold meet
        split
        · next inner =>
          obtain ⟨n, hrun, hyields⟩ := intersectFirst_ok hN inner here hgood.1 h ht
          exact ⟨n, hrun, hyields.imp (fun _ _ => Iff.rfl) fun hc => ⟨hc, hcalm⟩⟩
        · rw [intersectTy_of_tops ht (Bool.eq_false_iff.mpr hnot)]
          obtain ⟨n, hrun, hyields⟩ := unionTy_ok hN t .never hgood.1 normalized_never
          refine ⟨n, hrun, hyields.imp (fun v _ => or_iff_right has_never_form) fun hc => ⟨hc, rfl⟩⟩
      obtain ⟨n, hrun, hyields⟩ := hmeet
      rw [hrun]
      by_cases htops : n.tops = .never
      · obtain ⟨n', hrun', _, hyields'⟩ :=
          intersectRest_ok hN ts (fun v => t.Has W v) n hgood.2 hyields.normalized htops hyields.has
        exact ⟨n', hrun', hyields'.imp (fun _ _ => Iff.rfl) fun hc => ⟨hc.1.2, hyields.errors hc.1.1⟩⟩
      · have hall : ∀ v, v ≠ .error → t.Has W v := fun v hv =>
          (hyields.has v hv).mp (hyields.normalized.has_of_tops htops hv)
        obtain ⟨n', hrun', hyields'⟩ :=
          intersectFirst_ok hN ts n (GoodRest.first ts _ hall hgood.2) hyields.normalized htops
        refine ⟨n', hrun', hyields'.imp (fun v hv => ?_) fun hc => ⟨hc.1.2, hyields.errors hc.1.1⟩⟩
        exact (and_iff_right (hall v hv)).symm
termination_by (sizeOf ts, 0)

/-- The parts of an intersection that has the values `earlier` left. -/
theorem intersectRest_ok (hN : Exact W N) (ts : List (Ty Class)) (earlier : Value Obj → Prop)
    (here : NormalizedType Class) (hgood : Ty.GoodRest W N.oneTableWithExtern earlier ts) (h : Normalized here)
    (ht : here.tops = .never) (hearlier : ∀ v, v ≠ .error → (here.Has W v ↔ earlier v)) :
    ∃ n, N.intersectNormalWithParts here ts = some n ∧ n.tops = .never ∧
      Yields W n (fun v => earlier v ∧ Ty.HasAll W ts v) (Ty.CalmAll ts ∧ here.errors = .never) := by
  match ts with
  | [] =>
    rw [intersectNormalWithParts]
    exact ⟨here, rfl, ht, h, fun v hv => (hearlier v hv).trans (and_iff_left trivial).symm, And.right⟩
  | t :: ts =>
    have hmeet : ∃ n, meet N here t = some n ∧ n.tops = .never ∧
        Yields W n (fun v => earlier v ∧ t.Has W v) (t.Calm ∧ here.errors = .never) := by
      unfold meet
      split
      · next inner => exact intersectRest_ok hN inner earlier here hgood.1 h ht hearlier
      · exact intersectPart_ok hN t earlier here hgood.1 h ht hearlier
    obtain ⟨n, hrun, htops, hyields⟩ := hmeet
    obtain ⟨n', hrun', htops', hyields'⟩ :=
      intersectRest_ok hN ts _ n hgood.2 hyields.normalized htops hyields.has
    refine ⟨n', ?_, htops', hyields'.imp (fun v _ => and_assoc) fun hcalm => ?_⟩
    · rw [parts_cons, hrun]
      exact hrun'
    · exact ⟨hcalm.1.2, hyields.errors ⟨hcalm.1.1, hcalm.2⟩⟩
termination_by (sizeOf ts, 0)

theorem intersectPart_ok (hN : Exact W N) (t : Ty Class) (earlier : Value Obj → Prop)
    (here : NormalizedType Class) (hgood : t.GoodPart W N.oneTableWithExtern earlier) (h : Normalized here)
    (ht : here.tops = .never) (hearlier : ∀ v, v ≠ .error → (here.Has W v ↔ earlier v)) :
    ∃ n, N.intersectNormalWithTy here t = some n ∧ n.tops = .never ∧
      Yields W n (fun v => earlier v ∧ t.Has W v) (t.Calm ∧ here.errors = .never) := by
  have hsame : ∀ {P : Value Obj → Prop}, ∀ v, v ≠ .error → (here.Has W v ∧ P v ↔ earlier v ∧ P v) :=
    fun v hv => and_congr_left fun _ => hearlier v hv
  have hnever : (!here.tops.isNever) = false := by
    rw [ht]
    rfl
  rw [intersectNormalWithTy.eq_def]
  match t with
  | .any =>
    rw [show ({ here with tops := intersectionOfTops here.tops .any } : NormalizedType Class) = here from
      intersectTops_same ht]
    exact ⟨here, rfl, ht, h, fun v hv => (hearlier v hv).trans (and_iff_left trivial).symm, And.right⟩
  | .unknown =>
    rw [show ({ here with tops := intersectionOfTops here.tops .unknown } : NormalizedType Class) = here from
      intersectTops_same ht]
    exact ⟨here, rfl, ht, h, fun v hv => (hearlier v hv).trans (and_iff_left hv).symm, And.right⟩
  | .never => exact absurd hgood id
  | .error =>
    refine ⟨{ NormalizedType.never with errors := .error }, ?_, ?_⟩
    · dsimp only
      rw [hnever]
      rfl
    · exact denotes_error.yields (fun v hv => ⟨False.elim, fun hand => hv hand.2⟩) fun hcalm => hcalm.1.elim
  | .union ts =>
    obtain ⟨norm, hrun, hyields⟩ := unionOptions_ok hN ts .never hgood normalized_never
    obtain ⟨hn, htops, hhas⟩ := intersectNormals_ok hN h hyields.normalized
    refine ⟨N.intersectNormals here norm, ?_, htops ht, hn, fun v hv => ?_, fun hcalm => ?_⟩
    · dsimp only
      rw [hnever, hrun]
      rfl
    · rw [hhas v hv, hyields.has v hv, or_iff_right has_never_form, hearlier v hv]
      rfl
    · exact intersectNormals_errors hcalm.2 (hyields.errors ⟨hcalm.1, rfl⟩)
  | .intersection ts =>
    obtain ⟨n, hrun, hok⟩ := intersectRest_ok hN ts earlier here hgood h ht hearlier
    refine ⟨n, ?_, hok⟩
    dsimp only
    rw [hnever]
    exact hrun
  | .externType c =>
    refine ⟨N.intersectNormalWithExtern here c, ?_, ?_⟩
    · dsimp only
      rw [hnever]
      rfl
    · refine (intersectExtern_ok hN h ht fun hone => ?_).yields hsame fun _ => ?_
      · obtain hnone | ⟨o, ho⟩ := hgood hone
        · left
          obtain hempty | hsingle := h.tables
          · exact hempty
          · have htable : here.Has W (.table 0) := by
              rw [h.has_parts ht]
              show Ty.HasSome W here.tables _
              rw [hsingle]
              exact Or.inl trivial
            exact absurd ((hearlier _ (by simp)).mp htable) (hnone 0)
        · right
          have hobject : here.Has W (.object o) := (hearlier _ (by simp)).mpr ho
          rw [h.has_parts ht] at hobject
          by_contra hempty
          exact externs_of_isNever (Bool.not_eq_false _ ▸ hempty) hobject
      · unfold Normalizer.intersectNormalWithExtern
        split
        · split
          · rfl
          · split
            · rfl
            · rfl
        · rfl
  | .primitive p =>
    refine ⟨intersectNormalWithPrimitive here p, ?_, ?_⟩
    · dsimp only
      rw [hnever]
      rfl
    · refine (intersectPrimitive_ok h ht).yields hsame fun _ => ?_
      cases p <;> rfl
  | .singleton s =>
    refine ⟨intersectNormalWithSingleton here s, ?_, ?_⟩
    · dsimp only
      rw [hnever]
      rfl
    · refine (intersectSingleton_ok h ht).yields hsame fun _ => ?_
      cases s <;> rfl
  | .negation t =>
    obtain ⟨n, hrun, htops, hyields⟩ := intersectNegation_ok hN t earlier here hgood h ht hearlier
    refine ⟨n, ?_, htops, hyields.imp (fun v hv => ?_) id⟩
    · dsimp only
      rw [hnever]
      exact hrun
    · exact and_congr_right fun _ => (and_iff_right hv).symm
termination_by (sizeOf t, 1)

theorem intersectNegation_ok (hN : Exact W N) (t : Ty Class) (earlier : Value Obj → Prop)
    (here : NormalizedType Class) (hgood : t.GoodNegation W N.oneTableWithExtern earlier) (h : Normalized here)
    (ht : here.tops = .never) (hearlier : ∀ v, v ≠ .error → (here.Has W v ↔ earlier v)) :
    ∃ n, N.intersectNormalWithNegationOf here t = some n ∧ n.tops = .never ∧
      Yields W n (fun v => earlier v ∧ ¬ t.Has W v) (t.Calm ∧ here.errors = .never) := by
  have hsame : ∀ {P : Value Obj → Prop}, ∀ v, v ≠ .error → (here.Has W v ∧ P v ↔ earlier v ∧ P v) :=
    fun v hv => and_congr_left fun _ => hearlier v hv
  rw [intersectNormalWithNegationOf.eq_def]
  match t with
  | .primitive p =>
    refine ⟨_, rfl, (subtractPrimitive_ok h ht).yields hsame fun hcalm => ?_⟩
    cases p <;> exact hcalm.2
  | .singleton s =>
    refine ⟨_, rfl, (subtractSingleton_ok h ht).yields hsame fun hcalm => ?_⟩
    cases s <;> exact hcalm.2
  | .externType c =>
    obtain ⟨norm, hrun, hyields⟩ := unionTy_ok hN (.externType c) .never trivial normalized_never
    obtain ⟨hnormalized, hkeep, hequal⟩ := normalized_ok (W := W) hN hyields.normalized
    obtain ⟨n, hneg, htops, hn⟩ :=
      intersectNegated_ok hN h ht hnormalized (hkeep (hyields.errors ⟨trivial, rfl⟩))
    refine ⟨n, ?_, htops, hn.imp (fun v hv => ?_) And.right⟩
    · dsimp only
      rw [hrun]
      exact hneg
    · rw [hequal v, hyields.has v hv, or_iff_right has_never_form]
      exact and_congr_left fun _ => hearlier v hv
  | .union ts => exact intersectNegations_ok hN ts earlier here hgood.1 hgood.2 h ht hearlier
  | .any => exact absurd hgood id
  | .never => exact ⟨here, rfl, ht, h, fun v hv => (hearlier v hv).trans (and_iff_left id).symm, And.right⟩
  | .unknown =>
    refine ⟨.never, rfl, rfl, normalized_never, fun v hv => ?_, fun _ => rfl⟩
    exact ⟨fun hn => absurd hn has_never_form, fun hand => absurd hv hand.2⟩
  | .error => exact absurd hgood id
  | .negation t =>
    obtain ⟨n, hrun, htops, hyields⟩ := intersectPart_ok hN t earlier here hgood.2 h ht hearlier
    refine ⟨n, hrun, htops, hyields.imp (fun v hv => ?_) id⟩
    apply and_congr_right
    intro _
    exact ⟨fun ht hand => hand.2 ht, fun hnot => Classical.not_not.mp fun hno => hnot ⟨hv, hno⟩⟩
  | .intersection _ => exact absurd hgood id
termination_by (sizeOf t, 1)

theorem intersectNegations_ok (hN : Exact W N) (ts : List (Ty Class)) (earlier : Value Obj → Prop)
    (here : NormalizedType Class) (hcalm : Ty.CalmAll ts) (hgood : Ty.GoodAll W N.oneTableWithExtern ts)
    (h : Normalized here) (ht : here.tops = .never) (hearlier : ∀ v, v ≠ .error → (here.Has W v ↔ earlier v)) :
    ∃ n, N.intersectNormalWithNegations here ts = some n ∧ n.tops = .never ∧
      Yields W n (fun v => earlier v ∧ ¬ Ty.HasSome W ts v) (Ty.CalmAll ts ∧ here.errors = .never) := by
  rw [intersectNormalWithNegations.eq_def]
  match ts with
  | [] => exact ⟨here, rfl, ht, h, fun v hv => (hearlier v hv).trans (and_iff_left id).symm, And.right⟩
  | t :: ts =>
    obtain ⟨norm, hrun, hyields⟩ := unionTy_ok hN t .never hgood.1 normalized_never
    obtain ⟨hnormalized, hkeep, hequal⟩ := normalized_ok (W := W) hN hyields.normalized
    obtain ⟨n, hneg, htops, hn⟩ :=
      intersectNegated_ok hN h ht hnormalized (hkeep (hyields.errors ⟨hcalm.1, rfl⟩))
    have hleft : ∀ v, v ≠ .error → (n.Has W v ↔ earlier v ∧ ¬ t.Has W v) := by
      intro v hv
      rw [hn.has v hv, hequal v, hyields.has v hv, or_iff_right has_never_form, hearlier v hv]
    obtain ⟨n', hrun', htops', hyields'⟩ :=
      intersectNegations_ok hN ts _ n hcalm.2 hgood.2 hn.normalized htops hleft
    refine ⟨n', ?_, htops', hyields'.imp (fun v _ => ?_) fun hc => ⟨hc.1.2, hn.errors hc.2⟩⟩
    · dsimp only
      rw [hrun]
      show ((N.intersectNormalWithNegated here (N.normalized norm)).bind _) = _
      rw [hneg]
      exact hrun'
    · rw [and_assoc, ← not_or]
      rfl
termination_by (sizeOf ts, 0)

end

end Luwu.Normal
