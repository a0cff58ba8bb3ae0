import Mathlib.Data.Finset.Card
import Mathlib.Data.List.Nodup

/-!
# Recursion with a set of questions met before

A step of a recursion as a tree of the questions it asks (`Asking`), and the recursion that answers a question
met before at once (`search`).  It stops when the questions are finitely many (`search_total`), and its answers
are true when the steps are and no question was met twice (`search_true`).
-/

namespace Luwu.Questions

variable {Q A R R' : Type}

/-- A computation that may ask questions. -/
inductive Asking (Q A R : Type) where
  | done (r : R)
  | ask (q : Q) (k : A → Asking Q A R)

namespace Asking

def bind : Asking Q A R → (R → Asking Q A R') → Asking Q A R'
  | done r, f => f r
  | ask q k, f => ask q fun a => (k a).bind f

def map (f : R → R') (x : Asking Q A R) : Asking Q A R' := x.bind fun r => done (f r)

/-- Every question is in `P`, whatever the answers. -/
def Within (P : Q → Prop) : Asking Q A R → Prop
  | done _ => True
  | ask q k => P q ∧ ∀ a, (k a).Within P

/-- The result is in `G` when the answers are true. -/
def Gives (T : Q → A → Prop) (G : R → Prop) : Asking Q A R → Prop
  | done r => G r
  | ask q k => ∀ a, T q a → (k a).Gives T G

/-- Answer the questions one by one, with a state. -/
def run {S : Type} (answer : Q → S → Option (A × S)) : Asking Q A R → S → Option (R × S)
  | done r, s => some (r, s)
  | ask q k, s =>
    match answer q s with
    | none => none
    | some (a, s) => (k a).run answer s

variable {P P' : Q → Prop} {T : Q → A → Prop} {G G' : R → Prop} {x : Asking Q A R}

theorem Within.bind {f : R → Asking Q A R'} (h : x.Within P) (hf : ∀ r, (f r).Within P) : (x.bind f).Within P := by
  induction x with
  | done r => exact hf r
  | ask q k ih => exact ⟨h.1, fun a => ih a (h.2 a)⟩

theorem Within.map {f : R → R'} (h : x.Within P) : (x.map f).Within P := h.bind fun _ => trivial

theorem Gives.imp (h : x.Gives T G) (hG : ∀ r, G r → G' r) : x.Gives T G' := by
  induction x with
  | done r => exact hG r h
  | ask q k ih => exact fun a ha => ih a (h a ha)

theorem Gives.bind {G' : R' → Prop} {f : R → Asking Q A R'} (h : x.Gives T G)
    (hf : ∀ r, G r → (f r).Gives T G') : (x.bind f).Gives T G' := by
  induction x with
  | done r => exact hf r h
  | ask q k ih => exact fun a ha => ih a (h a ha)

theorem Gives.map {G' : R' → Prop} {f : R → R'} (h : x.Gives T G) (hf : ∀ r, G r → G' (f r)) :
    (x.map f).Gives T G' := h.bind hf

end Asking

open Asking

section Search

variable [DecidableEq Q] {step step' : Q → Asking Q A A} {known known' : Q → Option A} {again : A}
  {q : Q} {met met' : List Q} {a : A} {n : ℕ}

/-- Answer what is known, and what was met before with `again`; `met` lists the questions, the last first. -/
def search (step : Q → Asking Q A A) (known : Q → Option A) (again : A) :
    ℕ → Q → List Q → Option (A × List Q)
  | 0, _, _ => none
  | n + 1, q, met =>
    match known q with
    | some a => some (a, met)
    | none => if q ∈ met then some (again, q :: met) else (step q).run (search step known again n) (q :: met)

/-! ### What was met -/

omit [DecidableEq Q] in
theorem run_suffix {answer : Q → List Q → Option (A × List Q)}
    (h : ∀ q met a met', answer q met = some (a, met') → met <:+ met') {x : Asking Q A R} {r : R} :
    ∀ {met met' : List Q}, x.run answer met = some (r, met') → met <:+ met' := by
  induction x with
  | done r =>
    intro met met' hrun
    obtain ⟨-, rfl⟩ := Prod.ext_iff.mp (Option.some.inj hrun)
    exact List.suffix_rfl
  | ask q k ih =>
    intro met met' hrun
    unfold Asking.run at hrun
    split at hrun
    · cases hrun
    · next a s hs => exact (h q met a s hs).trans (ih a hrun)

theorem search_suffix : ∀ {q met a met'}, search step known again n q met = some (a, met') → met <:+ met' := by
  induction n with
  | zero =>
    intro q met a met' hrun
    cases hrun
  | succ n ih =>
    intro q met a met' hrun
    unfold search at hrun
    split at hrun
    · obtain ⟨-, rfl⟩ := Prod.ext_iff.mp (Option.some.inj hrun)
      exact List.suffix_rfl
    · split at hrun
      · obtain ⟨-, rfl⟩ := Prod.ext_iff.mp (Option.some.inj hrun)
        exact List.suffix_cons q met
      · exact (List.suffix_cons q met).trans (run_suffix (fun _ _ _ _ => ih) hrun)

/-! ### True answers -/

section True

variable {calm : Q → Prop} {T : Q → A → Prop}

omit [DecidableEq Q] in
theorem run_true {answer : Q → List Q → Option (A × List Q)}
    (hsuffix : ∀ q met a met', answer q met = some (a, met') → met <:+ met')
    (h : ∀ q met a met', answer q met = some (a, met') → met'.Nodup → (∀ p ∈ met', calm p) → T q a)
    {x : Asking Q A R} {r : R} {G : R → Prop} :
    ∀ {met met' : List Q}, x.Gives T G → x.run answer met = some (r, met') → met'.Nodup →
      (∀ p ∈ met', calm p) → G r := by
  induction x with
  | done r =>
    intro met met' hG hrun _ _
    obtain ⟨rfl, -⟩ := Prod.ext_iff.mp (Option.some.inj hrun)
    exact hG
  | ask q k ih =>
    intro met met' hG hrun hnodup hcalm
    unfold Asking.run at hrun
    split at hrun
    · cases hrun
    · next a s hs =>
      have hle := run_suffix hsuffix hrun
      have ha : T q a := h q met a s hs (hle.sublist.nodup hnodup) fun p hp => hcalm p (hle.mem hp)
      exact ih a (hG a ha) hrun hnodup hcalm

/-- The answers are true when no question was met twice and the steps are right for what was met. -/
theorem search_true (hknown : ∀ q a, known q = some a → T q a)
    (hstep : ∀ q, calm q → (step q).Gives T (T q)) : ∀ {q met a met'},
    search step known again n q met = some (a, met') → met'.Nodup → (∀ p ∈ met', calm p) → T q a := by
  induction n with
  | zero =>
    intro q met a met' hrun
    cases hrun
  | succ n ih =>
    intro q met a met' hrun hnodup hcalm
    unfold search at hrun
    split at hrun
    · next a' ha =>
      obtain ⟨rfl, -⟩ := Prod.ext_iff.mp (Option.some.inj hrun)
      exact hknown q a' ha
    · split at hrun
      · next hmem =>
        obtain ⟨-, rfl⟩ := Prod.ext_iff.mp (Option.some.inj hrun)
        exact absurd hmem (List.nodup_cons.mp hnodup).1
      · have hle := run_suffix (fun _ _ _ _ => search_suffix) hrun
        exact run_true (fun _ _ _ _ => search_suffix) (fun _ _ _ _ => ih)
          (hstep q (hcalm q (hle.mem List.mem_cons_self))) hrun hnodup hcalm

end True

/-! ### An answer to every question -/

section Total

variable {all : Finset Q}

theorem run_total {answer : Q → List Q → Option (A × List Q)} {m : ℕ}
    (hsuffix : ∀ q met a met', answer q met = some (a, met') → met <:+ met')
    (h : ∀ q met, q ∈ all → (all \ met.toFinset).card < m → ∃ r, answer q met = some r) {x : Asking Q A R} :
    ∀ {met : List Q}, x.Within (· ∈ all) → (all \ met.toFinset).card < m → ∃ r, x.run answer met = some r := by
  induction x with
  | done r => exact fun _ _ => ⟨_, rfl⟩
  | ask q k ih =>
    intro met hx hlt
    obtain ⟨⟨a, s⟩, hs⟩ := h q met hx.1 hlt
    have hle : (all \ s.toFinset).card ≤ (all \ met.toFinset).card := by
      apply Finset.card_le_card
      intro p hp
      rw [Finset.mem_sdiff, List.mem_toFinset] at hp ⊢
      exact ⟨hp.1, fun hmem => hp.2 ((hsuffix q met a s hs).mem hmem)⟩
    obtain ⟨r, hr⟩ := ih a (hx.2 a) (lt_of_le_of_lt hle hlt)
    refine ⟨r, ?_⟩
    unfold Asking.run
    rw [hs]
    exact hr

/-- With more fuel than questions of `all` that are left, there is an answer. -/
theorem search_total (all : Finset Q) (hstep : ∀ q ∈ all, (step q).Within (· ∈ all)) : ∀ {q met}, q ∈ all →
    (all \ met.toFinset).card < n → ∃ r, search step known again n q met = some r := by
  induction n with
  | zero => exact fun _ hlt => absurd hlt (Nat.not_lt_zero _)
  | succ n ih =>
    intro q met hq hlt
    unfold search
    split
    · exact ⟨_, rfl⟩
    · split
      · exact ⟨_, rfl⟩
      · next hmem =>
        apply run_total (fun _ _ _ _ => search_suffix) (fun _ _ => ih) (hstep q hq)
        have hless : (all \ (q :: met).toFinset).card < (all \ met.toFinset).card := by
          apply Finset.card_lt_card
          rw [Finset.ssubset_iff_of_subset]
          · refine ⟨q, ?_, ?_⟩
            · rw [Finset.mem_sdiff, List.mem_toFinset]
              exact ⟨hq, hmem⟩
            · rw [Finset.mem_sdiff, List.mem_toFinset]
              exact fun hmem' => hmem'.2 List.mem_cons_self
          · intro p hp
            rw [Finset.mem_sdiff, List.mem_toFinset] at hp ⊢
            exact ⟨hp.1, fun hmem' => hp.2 (List.mem_cons_of_mem q hmem')⟩
        omega

end Total

/-! ### More fuel, and steps that agree -/

end Search

end Luwu.Questions
