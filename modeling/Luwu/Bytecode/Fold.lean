import Luwu.Bytecode.Jumps

/-!
# Folding jumps keeps the flow of control

`Along` is the way that execution takes through unconditional jumps.  Every word of the folded code is the word it was, or
jumps farther along that way, or is a return that the way leads to (`FoldedWord`); so from every label execution arrives at
the same instruction as before, or at a copy of the return there (`arrives_iff`).
-/

namespace Luwu.Bytecode

open Relation

section Ways

variable {I : List Word} {p q e : ℕ} {w : Word} {S : Set ℕ} {jumps : List Jump}

/-- The unconditional jump at `p` goes to `q`. -/
def JumpsTo (I : List Word) (p q : ℕ) : Prop :=
  ∃ w, I[p]? = some w ∧ LUAU_INSN_OP w = LOP_JUMP ∧ (q : ℤ) = p + 1 + LUAU_INSN_D w

/-- Through unconditional jumps -/
def Along (I : List Word) : ℕ → ℕ → Prop := ReflTransGen (JumpsTo I)

/-- Execution from `p` on arrives at `e`, which is no unconditional jump. -/
def Arrives (I : List Word) (p e : ℕ) : Prop := Along I p e ∧ ∃ w, I[e]? = some w ∧ LUAU_INSN_OP w ≠ LOP_JUMP

/-- The labels `S` of the code are closed under its jumps, and every jump is listed once. -/
structure Code (S : Set ℕ) (I : List Word) (jumps : List Jump) : Prop where
  inside : ∀ p ∈ S, p < I.length
  closed : ∀ p ∈ S, ∀ w, I[p]? = some w → LUAU_INSN_OP w = LOP_JUMP → ∃ q ∈ S, (q : ℤ) = p + 1 + LUAU_INSN_D w
  listed : ∀ j ∈ jumps, ∃ w, I[j.source]? = some w ∧ isJumpD (LUAU_INSN_OP w) ∧
    ∃ q ∈ S, (q : ℤ) = j.source + 1 + LUAU_INSN_D w
  once : (jumps.map Jump.source).Nodup

theorem jumpsTo_unique {q' : ℕ} (h : JumpsTo I p q) (h' : JumpsTo I p q') : q = q' := by
  obtain ⟨w, hw, _, hq⟩ := h
  obtain ⟨w', hw', _, hq'⟩ := h'
  rw [hw] at hw'
  obtain rfl := Option.some.inj hw'
  omega

/-- A way that ends at no unconditional jump passes through the jumps of every way that starts with it. -/
theorem along_of_arrives (h : Along I p q) (he : Arrives I p e) : Along I q e := by
  obtain ⟨halong, w, hw, hop⟩ := he
  have hunique : Relator.RightUnique (JumpsTo I) := fun _ _ _ => jumpsTo_unique
  rcases ReflTransGen.total_of_right_unique hunique h halong with hqe | heq
  · exact hqe
  · rcases ReflTransGen.cases_head heq with rfl | ⟨x, ⟨w', hw', hop', _⟩, _⟩
    · exact ReflTransGen.refl
    · rw [hw] at hw'
      obtain rfl := Option.some.inj hw'
      exact absurd hop' hop

theorem Arrives.unique {e' : ℕ} (h : Arrives I p e) (h' : Arrives I p e') : e = e' := by
  obtain ⟨w', hw', hop'⟩ := h'.2
  rcases ReflTransGen.cases_head (along_of_arrives h.1 h') with rfl | ⟨x, ⟨w, hw, hop, _⟩, _⟩
  · rfl
  · obtain ⟨v, hv, hopv⟩ := h.2
    rw [hw] at hv
    obtain rfl := Option.some.inj hv
    exact absurd hop hopv

theorem Code.along (hc : Code S I jumps) (hp : p ∈ S) (h : Along I p q) : q ∈ S := by
  induction h with
  | refl => exact hp
  | tail _ hstep ih =>
    obtain ⟨w, hw, hop, hq⟩ := hstep
    obtain ⟨q', hq', heq⟩ := hc.closed _ ih w hw hop
    obtain rfl : q' = _ := by exact_mod_cast heq.trans hq.symm
    exact hq'

/-! ### Following -/

theorem fetch_ok (h : I[p]? = some w) : fetch I p = .ok w := by
  unfold fetch
  rw [h]

/-- Following forward jumps ends, at a label that is none. -/
theorem follow_ok {fuel : ℕ} (hin : ∀ p ∈ S, p < I.length)
    (hclosed : ∀ p ∈ S, ∀ w, I[p]? = some w → LUAU_INSN_OP w = LOP_JUMP → ∃ q ∈ S, (q : ℤ) = p + 1 + LUAU_INSN_D w)
    (hp : p ∈ S) (hfuel : I.length ≤ p + fuel) :
    ∃ q w, follow I fuel p = .ok q ∧ Along I p q ∧ q ∈ S ∧ p ≤ q ∧ I[q]? = some w ∧
      ¬(LUAU_INSN_OP w = LOP_JUMP ∧ 0 ≤ LUAU_INSN_D w) := by
  induction fuel generalizing p with
  | zero =>
    have := hin p hp
    omega
  | succ fuel ih =>
    obtain ⟨w, hw⟩ : ∃ w, I[p]? = some w := ⟨_, List.getElem?_eq_getElem (hin p hp)⟩
    unfold follow
    rw [fetch_ok hw]
    show ∃ q v, (if LUAU_INSN_OP w = LOP_JUMP ∧ 0 ≤ LUAU_INSN_D w then _ else _) = _ ∧ _
    by_cases hjump : LUAU_INSN_OP w = LOP_JUMP ∧ 0 ≤ LUAU_INSN_D w
    · obtain ⟨q, hq, heq⟩ := hclosed p hp w hw hjump.1
      have hnext : p + 1 + (LUAU_INSN_D w).toNat = q := by
        have := hjump.2
        omega
      obtain ⟨e, v, hrun, halong, he, hle, hv, hstop⟩ := ih hq (by omega)
      rw [if_pos hjump, hnext]
      refine ⟨e, v, hrun, ReflTransGen.head ⟨w, hw, hjump.1, heq⟩ halong, he, by omega, hv, hstop⟩
    · rw [if_neg hjump]
      exact ⟨p, w, rfl, ReflTransGen.refl, hp, le_rfl, hw, hjump⟩

end Ways

/-! ### The folded code -/

section Folded

variable {I₀ I I' : List Word} {p q e t : ℕ} {w₀ w : Word} {S : Set ℕ} {j j' : Jump} {jumps jumps' : List Jump}

/-- What a word at `p` may have become -/
inductive FoldedWord (I₀ : List Word) (p : ℕ) (w₀ : Word) : Word → Prop
  | same : FoldedWord I₀ p w₀ w₀
  | moved (t₀ t : ℕ) (hstart : (t₀ : ℤ) = p + 1 + LUAU_INSN_D w₀) (hjump : isJumpD (LUAU_INSN_OP w₀))
      (halong : Along I₀ t₀ t) (hle : t₀ ≤ t) (hfits : Int16 (t - p - 1)) : FoldedWord I₀ p w₀ (patchD w₀ (t - p - 1))
  | returns (r : ℕ) (w : Word) (hjump : LUAU_INSN_OP w₀ = LOP_JUMP) (halong : Along I₀ p r) (hr : I₀[r]? = some w)
      (hop : LUAU_INSN_OP w = LOP_RETURN) : FoldedWord I₀ p w₀ w

/-- Every word is one that it may have become. -/
structure FoldedCode (I₀ I : List Word) : Prop where
  length : I.length = I₀.length
  words : ∀ p w₀, I₀[p]? = some w₀ → ∃ w, I[p]? = some w ∧ FoldedWord I₀ p w₀ w

theorem return_ne_jump : LOP_RETURN ≠ LOP_JUMP := by decide

theorem foldedCode_refl (I : List Word) : FoldedCode I I := ⟨rfl, fun _ w hw => ⟨w, hw, .same⟩⟩

theorem FoldedCode.origin (hf : FoldedCode I₀ I) (hw : I[p]? = some w) :
    ∃ w₀, I₀[p]? = some w₀ ∧ FoldedWord I₀ p w₀ w := by
  have hp : p < I₀.length := hf.length ▸ (List.getElem?_eq_some_iff.mp hw).1
  obtain ⟨v, hv, hfolded⟩ := hf.words p _ (List.getElem?_eq_getElem hp)
  rw [hw] at hv
  obtain rfl := Option.some.inj hv
  exact ⟨_, List.getElem?_eq_getElem hp, hfolded⟩

/-- An unconditional jump of the folded code was one, and goes along the way that it went. -/
theorem FoldedCode.jumpsTo (hf : FoldedCode I₀ I) (h : JumpsTo I p q) : TransGen (JumpsTo I₀) p q := by
  obtain ⟨w, hw, hop, hq⟩ := h
  obtain ⟨w₀, hw₀, hfolded⟩ := hf.origin hw
  cases hfolded with
  | same => exact TransGen.single ⟨w, hw₀, hop, hq⟩
  | moved t₀ t hstart _ halong _ hfits =>
    rw [op_patchD] at hop
    rw [d_patchD hfits] at hq
    obtain rfl : q = t := by omega
    exact TransGen.head' ⟨w₀, hw₀, hop, hstart⟩ halong
  | returns r _ _ _ _ hret => exact absurd (hret.symm.trans hop) return_ne_jump

theorem FoldedCode.along (hf : FoldedCode I₀ I) (h : Along I p q) : Along I₀ p q := by
  induction h with
  | refl => exact ReflTransGen.refl
  | tail _ hstep ih => exact ih.trans (hf.jumpsTo hstep).to_reflTransGen

/-- A return stays, and what is a return now was one or leads to one. -/
theorem FoldedCode.return_origin (hf : FoldedCode I₀ I) (hw : I[p]? = some w) (hop : LUAU_INSN_OP w = LOP_RETURN) :
    ∃ r, Along I₀ p r ∧ I₀[r]? = some w := by
  obtain ⟨w₀, hw₀, hfolded⟩ := hf.origin hw
  cases hfolded with
  | same => exact ⟨p, ReflTransGen.refl, hw₀⟩
  | moved t₀ t _ hjump _ _ _ =>
    rw [op_patchD] at hop
    rw [hop] at hjump
    exact absurd hjump (by decide)
  | returns r _ _ halong hr _ => exact ⟨r, halong, hr⟩

theorem FoldedCode.closed (hf : FoldedCode I₀ I) (hc : Code S I₀ jumps) (hp : p ∈ S) (hw : I[p]? = some w)
    (hop : LUAU_INSN_OP w = LOP_JUMP) : ∃ q ∈ S, (q : ℤ) = p + 1 + LUAU_INSN_D w := by
  obtain ⟨w₀, hw₀, hfolded⟩ := hf.origin hw
  cases hfolded with
  | same => exact hc.closed p hp w hw₀ hop
  | moved t₀ t hstart _ halong _ hfits =>
    rw [op_patchD] at hop
    obtain ⟨q, hq, heq⟩ := hc.closed p hp w₀ hw₀ hop
    obtain rfl : q = t₀ := by omega
    exact ⟨t, hc.along hq halong, by rw [d_patchD hfits]; omega⟩
  | returns r _ _ _ _ hret => exact absurd (hret.symm.trans hop) return_ne_jump

/-- The ends of two ways: the same instruction, or a return and its copy -/
def SameEnd (I₀ I : List Word) (e e' : ℕ) : Prop :=
  e' = e ∨ ∃ w, LUAU_INSN_OP w = LOP_RETURN ∧ I₀[e]? = some w ∧ I[e']? = some w

theorem SameEnd.stops (h : SameEnd I₀ I e p) (hw : I₀[e]? = some w₀) (hop : LUAU_INSN_OP w₀ ≠ LOP_JUMP)
    (hf : FoldedCode I₀ I) : ∃ w, I[p]? = some w ∧ LUAU_INSN_OP w ≠ LOP_JUMP := by
  rcases h with rfl | ⟨w, hret, _, hw'⟩
  · obtain ⟨w, hw', hfolded⟩ := hf.words p w₀ hw
    refine ⟨w, hw', ?_⟩
    cases hfolded with
    | same => exact hop
    | moved t₀ t _ _ _ _ _ =>
      rw [op_patchD]
      exact hop
    | returns r _ hjump _ _ _ => exact absurd hjump hop
  · exact ⟨w, hw', fun hjump => return_ne_jump (hret.symm.trans hjump)⟩

/-- Execution of the folded code arrives where that of the code it was arrives. -/
theorem FoldedCode.arrives (hf : FoldedCode I₀ I) (h : Arrives I₀ p e) : ∃ e', Arrives I p e' ∧ SameEnd I₀ I e e' := by
  obtain ⟨halong, v, hv, hopv⟩ := h
  -- by induction on the way, from its end, for every label that is still to come
  have hway : ∀ q, Along I₀ q e → ∀ x, Along I₀ q x → ∃ e', Along I x e' ∧ SameEnd I₀ I e e' := by
    intro q hq
    induction hq using ReflTransGen.head_induction_on with
    | refl =>
      intro x hx
      rcases ReflTransGen.cases_head hx with rfl | ⟨y, ⟨w, hw, hop, _⟩, _⟩
      · exact ⟨e, ReflTransGen.refl, Or.inl rfl⟩
      · rw [hv] at hw
        obtain rfl := Option.some.inj hw
        exact absurd hop hopv
    | @head q c hstep hrest ih =>
      intro x hx
      rcases ReflTransGen.cases_head hx with rfl | ⟨y, hy, hyx⟩
      · obtain ⟨w₀, hw₀, hop, hc⟩ := hstep
        obtain ⟨w, hw, hfolded⟩ := hf.words q w₀ hw₀
        cases hfolded with
        | same =>
          obtain ⟨e', hway, hsame⟩ := ih c ReflTransGen.refl
          exact ⟨e', ReflTransGen.head ⟨w₀, hw, hop, hc⟩ hway, hsame⟩
        | moved t₀ t hstart _ hfar _ hfits =>
          obtain rfl : t₀ = c := by omega
          obtain ⟨e', hway, hsame⟩ := ih t hfar
          have hjump : JumpsTo I q t :=
            ⟨_, hw, (op_patchD w₀ _).trans hop, by rw [d_patchD hfits]; omega⟩
          exact ⟨e', ReflTransGen.head hjump hway, hsame⟩
        | returns r _ _ hfar hr hret =>
          have hends : Arrives I₀ q r := ⟨hfar, w, hr, fun hjump => return_ne_jump (hret.symm.trans hjump)⟩
          have hwhole : Arrives I₀ q e := ⟨ReflTransGen.head ⟨w₀, hw₀, hop, hc⟩ hrest, v, hv, hopv⟩
          obtain rfl := hends.unique hwhole
          exact ⟨q, ReflTransGen.refl, Or.inr ⟨w, hret, hr, hw⟩⟩
      · obtain rfl := jumpsTo_unique hstep hy
        exact ih x hyx
  obtain ⟨e', hway', hsame⟩ := hway p halong p ReflTransGen.refl
  exact ⟨e', ⟨hway', hsame.stops hv hopv hf⟩, hsame⟩

/-- And only there. -/
theorem FoldedCode.arrives_only (hf : FoldedCode I₀ I) {e' : ℕ} (h : Arrives I p e') :
    ∃ e, Arrives I₀ p e ∧ SameEnd I₀ I e e' := by
  obtain ⟨halong, w, hw, hop⟩ := h
  have hway := hf.along halong
  obtain ⟨w₀, hw₀, hfolded⟩ := hf.origin hw
  cases hfolded with
  | same => exact ⟨e', ⟨hway, w, hw₀, hop⟩, Or.inl rfl⟩
  | moved t₀ t _ _ _ _ _ =>
    rw [op_patchD] at hop
    exact ⟨e', ⟨hway, w₀, hw₀, hop⟩, Or.inl rfl⟩
  | returns r _ _ hfar hr hret => exact ⟨r, ⟨ReflTransGen.trans hway hfar, w, hr, hop⟩, Or.inr ⟨w, hret, hr, hw⟩⟩

end Folded

/-! ### The loop -/

section Loop

variable {I₀ I I' : List Word} {p s t : ℕ} {w₀ w : Word} {S : Set ℕ} {j j' : Jump} {jumps jumps' : List Jump}

/-- What became of a jump: its recorded target lies on the way from its target, as far as forward jumps lead; the jump is now
the return there, or goes to the recorded target, or stays as it was where the distance is too large. -/
structure FoldedJump (I₀ I : List Word) (j j' : Jump) : Prop where
  source : j'.source = j.source
  follows : ∃ w₀, ∃ t₀ : ℕ, I₀[j.source]? = some w₀ ∧ (t₀ : ℤ) = j.source + 1 + LUAU_INSN_D w₀ ∧ Along I₀ t₀ j'.target
  stops : ∀ w₀, I₀[j'.target]? = some w₀ → LUAU_INSN_OP w₀ = LOP_JUMP → 0 ≤ LUAU_INSN_D w₀ →
    ∃ w, I[j'.target]? = some w ∧ LUAU_INSN_OP w = LOP_RETURN
  result : ∃ w₀ w, I₀[j.source]? = some w₀ ∧ I[j.source]? = some w ∧
    (LUAU_INSN_OP w₀ = LOP_JUMP ∧ LUAU_INSN_OP w = LOP_RETURN ∧ I[j'.target]? = some w ∨
      Int16 (j'.target - j.source - 1) ∧ w = patchD w₀ (j'.target - j.source - 1) ∨
      ¬Int16 (j'.target - j.source - 1) ∧ w = w₀)

/-- The words of the jumps that are still to be folded -/
def Untouched (I₀ I : List Word) (jumps : List Jump) : Prop := ∀ j ∈ jumps, I[j.source]? = I₀[j.source]?

theorem FoldedCode.set (hf : FoldedCode I₀ I) (hw₀ : I₀[s]? = some w₀) (hw : FoldedWord I₀ s w₀ w) :
    FoldedCode I₀ (I.set s w) := by
  refine ⟨List.length_set.trans hf.length, ?_⟩
  intro p v hv
  by_cases hp : s = p
  · subst hp
    rw [hw₀] at hv
    obtain rfl := Option.some.inj hv
    have hlt : s < I.length := hf.length ▸ (List.getElem?_eq_some_iff.mp hw₀).1
    exact ⟨w, by rw [List.getElem?_set_self hlt], hw⟩
  · obtain ⟨v', hv', hfolded⟩ := hf.words p v hv
    exact ⟨v', by rw [List.getElem?_set_ne hp, hv'], hfolded⟩

theorem foldJump_eq {t₀ : ℕ} {v : Word} (hw : I[j.source]? = some w₀) (hstart : (t₀ : ℤ) = j.source + 1 + LUAU_INSN_D w₀)
    (hfollow : follow I I.length t₀ = .ok t) (hv : I[t]? = some v) :
    foldJump I j = .ok (if LUAU_INSN_OP w₀ = LOP_JUMP ∧ LUAU_INSN_OP v = LOP_RETURN then I.set j.source v
      else if Int16 (t - j.source - 1) then I.set j.source (patchD w₀ (t - j.source - 1)) else I,
      { j with target := t }) := by
  have hlabel : label (j.source + 1 + LUAU_INSN_D w₀) = .ok t₀ := by
    unfold label
    rw [← hstart, if_pos (Int.natCast_nonneg t₀), Int.toNat_natCast]
  show (fetch I j.source >>= _) = _
  rw [fetch_ok hw]
  show (label (j.source + 1 + LUAU_INSN_D w₀) >>= _) = _
  rw [hlabel]
  show (follow I I.length t₀ >>= _) = _
  rw [hfollow]
  show (fetch I t >>= _) = _
  rw [fetch_ok hv]
  rfl

/-- A turn of the loop -/
theorem foldJump_ok (hc : Code S I₀ jumps) (hf : FoldedCode I₀ I) (hj : j ∈ jumps)
    (hsame : I[j.source]? = I₀[j.source]?) :
    ∃ I' j', foldJump I j = .ok (I', j') ∧ FoldedCode I₀ I' ∧ FoldedJump I₀ I' j j' ∧
      ∀ p, p ≠ j.source → I'[p]? = I[p]? := by
  obtain ⟨w₀, hw₀, hlisted, t₀, ht₀, hstart⟩ := hc.listed j hj
  have hw : I[j.source]? = some w₀ := hsame.trans hw₀
  have hlt : j.source < I.length := (List.getElem?_eq_some_iff.mp hw).1
  obtain ⟨t, v, hfollow, hway, -, hle, hv, hstop⟩ := follow_ok (I := I) (S := S)
    (fun p hp => hf.length ▸ hc.inside p hp) (fun p hp w hw hop => hf.closed hc hp hw hop) ht₀
    (show I.length ≤ t₀ + I.length from Nat.le_add_left _ _)
  have halong := hf.along hway
  have hrun := foldJump_eq hw hstart hfollow hv
  -- a forward jump at the end has become a return
  have hends : ∀ u, I₀[t]? = some u → LUAU_INSN_OP u = LOP_JUMP → 0 ≤ LUAU_INSN_D u → LUAU_INSN_OP v = LOP_RETURN := by
    intro u hu hop hd
    obtain ⟨u', hu', hfolded⟩ := hf.origin hv
    rw [hu] at hu'
    obtain rfl := Option.some.inj hu'
    cases hfolded with
    | same => exact absurd ⟨hop, hd⟩ hstop
    | moved x y hx _ _ hxy hfits =>
      rw [op_patchD, d_patchD hfits] at hstop
      exact absurd ⟨hop, by omega⟩ hstop
    | returns r _ _ _ _ hret => exact hret
  have hkeep : LUAU_INSN_OP v = LOP_RETURN → t ≠ j.source := by
    rintro hret rfl
    rw [hw] at hv
    obtain rfl := Option.some.inj hv
    rw [hret] at hlisted
    exact absurd hlisted (by decide)
  have hfollows : ∃ w₀, ∃ t₀ : ℕ, I₀[j.source]? = some w₀ ∧ (t₀ : ℤ) = j.source + 1 + LUAU_INSN_D w₀ ∧ Along I₀ t₀ t :=
    ⟨w₀, t₀, hw₀, hstart, halong⟩
  by_cases hreturn : LUAU_INSN_OP w₀ = LOP_JUMP ∧ LUAU_INSN_OP v = LOP_RETURN
  · -- the jump becomes the return
    have hne := hkeep hreturn.2
    have hstays : (I.set j.source v)[t]? = some v := by rw [List.getElem?_set_ne hne.symm, hv]
    obtain ⟨r, hr, hrv⟩ := hf.return_origin hv hreturn.2
    have hjump : Along I₀ j.source t := ReflTransGen.head ⟨w₀, hw₀, hreturn.1, hstart⟩ halong
    rw [if_pos hreturn] at hrun
    refine ⟨_, _, hrun, hf.set hw₀ (.returns r v hreturn.1 (hjump.trans hr) hrv hreturn.2), ?_,
      fun p hp => List.getElem?_set_ne hp.symm⟩
    exact ⟨rfl, hfollows, fun _ _ _ _ => ⟨v, hstays, hreturn.2⟩,
      w₀, v, hw₀, List.getElem?_set_self hlt, Or.inl ⟨hreturn.1, hreturn.2, hstays⟩⟩
  · rw [if_neg hreturn] at hrun
    by_cases hfits : Int16 (t - j.source - 1)
    · rw [if_pos hfits] at hrun
      refine ⟨_, _, hrun, hf.set hw₀ (.moved t₀ t hstart hlisted halong hle hfits), ?_,
        fun p hp => List.getElem?_set_ne hp.symm⟩
      refine ⟨rfl, hfollows, fun u hu hop hd => ?_, w₀, _, hw₀, List.getElem?_set_self hlt, Or.inr (Or.inl ⟨hfits, rfl⟩)⟩
      have hret := hends u hu hop hd
      exact ⟨v, by rw [List.getElem?_set_ne (hkeep hret).symm, hv], hret⟩
    · rw [if_neg hfits] at hrun
      refine ⟨_, _, hrun, hf, ?_, fun _ _ => rfl⟩
      exact ⟨rfl, hfollows, fun u hu hop hd => ⟨v, hv, hends u hu hop hd⟩, w₀, w₀, hw₀, hw, Or.inr (Or.inr ⟨hfits, rfl⟩)⟩

/-- What became of a jump stays while others are folded. -/
theorem FoldedJump.mono (h : FoldedJump I₀ I j j') (hsource : I'[j.source]? = I[j.source]?)
    (hreturn : ∀ (p : ℕ) w, I[p]? = some w → LUAU_INSN_OP w = LOP_RETURN → I'[p]? = some w) : FoldedJump I₀ I' j j' := by
  refine ⟨h.source, h.follows, fun w₀ hw₀ hop hd => ?_, ?_⟩
  · obtain ⟨w, hw, hret⟩ := h.stops w₀ hw₀ hop hd
    exact ⟨w, hreturn _ w hw hret, hret⟩
  · obtain ⟨w₀, w, hw₀, hw, hcases⟩ := h.result
    refine ⟨w₀, w, hw₀, hsource.trans hw, ?_⟩
    rcases hcases with ⟨hop, hret, htarget⟩ | hmoved | hkept
    · exact Or.inl ⟨hop, hret, hreturn _ w htarget hret⟩
    · exact Or.inr (Or.inl hmoved)
    · exact Or.inr (Or.inr hkept)

theorem foldLoop_ok (hc : Code S I₀ jumps) {js : List Jump} (hsub : ∀ j ∈ js, j ∈ jumps)
    (honce : (js.map Jump.source).Nodup) (hf : FoldedCode I₀ I) (hsame : Untouched I₀ I js) :
    ∃ I' js', foldLoop I js = .ok (I', js') ∧ FoldedCode I₀ I' ∧ List.Forall₂ (FoldedJump I₀ I') js js' ∧
      ∀ p, (∀ j ∈ js, j.source ≠ p) → I'[p]? = I[p]? := by
  induction js generalizing I with
  | nil => exact ⟨I, [], rfl, hf, .nil, fun _ _ => rfl⟩
  | cons j js ih =>
    rw [List.map_cons, List.nodup_cons] at honce
    obtain ⟨I₁, j', hrun, hf₁, hfolded, hframe⟩ := foldJump_ok hc hf (hsub j List.mem_cons_self)
      (hsame j List.mem_cons_self)
    have hne : ∀ k ∈ js, k.source ≠ j.source := fun k hk heq => honce.1 (heq ▸ List.mem_map_of_mem hk)
    have hsame₁ : Untouched I₀ I₁ js := fun k hk =>
      (hframe k.source (hne k hk)).trans (hsame k (List.mem_cons_of_mem j hk))
    obtain ⟨I₂, js', hrest, hf₂, hall, hframe₂⟩ := ih (fun k hk => hsub k (List.mem_cons_of_mem j hk)) honce.2 hf₁ hsame₁
    refine ⟨I₂, j' :: js', ?_, hf₂, .cons (hfolded.mono (hframe₂ _ hne) fun p w hw hret => ?_) hall, fun p hp => ?_⟩
    · unfold foldLoop
      rw [hrun]
      show (foldLoop I₁ js >>= _) = _
      rw [hrest]
      rfl
    · -- a return is no jump that is still to be folded
      rw [hframe₂ p fun k hk heq => ?_]
      · exact hw
      · obtain ⟨v, hv, hlisted, -⟩ := hc.listed k (hsub k (List.mem_cons_of_mem j hk))
        rw [← heq, hsame₁ k hk, hv] at hw
        obtain rfl := Option.some.inj hw
        rw [hret] at hlisted
        exact absurd hlisted (by decide)
    · rw [hframe₂ p fun k hk => hp k (List.mem_cons_of_mem j hk), hframe p (hp j List.mem_cons_self).symm]

end Loop

/-! ### Samples -/

section Samples

/-- A conditional jump to a jump to a return -/
def returnCode : List Word := [0x00010019, 0, 0x00010017, 0, 0x00010016]

theorem code_returnCode {jumps : List Jump} (h : jumps = [⟨0, 2⟩, ⟨2, 4⟩] ∨ jumps = [⟨2, 4⟩, ⟨0, 2⟩]) :
    Code {2, 4} returnCode jumps := by
  constructor
  · rintro p (rfl | rfl) <;> decide
  · rintro p (rfl | rfl) w hw hop
    · obtain rfl := Option.some.inj hw
      exact ⟨4, Or.inr rfl, by decide⟩
    · obtain rfl := Option.some.inj hw
      exact absurd hop (by decide)
  · have hall : ∀ j ∈ [(⟨0, 2⟩ : Jump), ⟨2, 4⟩], ∃ w, returnCode[j.source]? = some w ∧ isJumpD (LUAU_INSN_OP w) ∧
        ∃ q ∈ ({2, 4} : Set ℕ), (q : ℤ) = j.source + 1 + LUAU_INSN_D w := by
      intro j hj
      rw [List.mem_cons, List.mem_singleton] at hj
      rcases hj with rfl | rfl
      · exact ⟨0x00010019, rfl, by decide, 2, Or.inl rfl, by decide⟩
      · exact ⟨0x00010017, rfl, by decide, 4, Or.inr rfl, by decide⟩
    intro j hj
    apply hall j
    rcases h with rfl | rfl
    · exact hj
    · exact (List.Perm.swap _ _ _).mem_iff.mp hj
  · rcases h with rfl | rfl <;> decide

/-- The jump is a return now, or goes to the end of the forward jumps at its target. -/
def EndsForward (insns insns' : List Word) (j : Jump) : Prop :=
  ∀ w w', ∀ t₀ e : ℕ, insns[j.source]? = some w → insns'[j.source]? = some w' →
    (t₀ : ℤ) = j.source + 1 + LUAU_INSN_D w → follow insns insns.length t₀ = .ok e →
    LUAU_INSN_OP w' = LOP_RETURN ∨ (e : ℤ) = j.source + 1 + LUAU_INSN_D w'

/-- A conditional jump to a backward jump, which becomes a forward one -/
def backCode : List Word := [0x00020019, 0, 0x00010017, 0xfffe0017, 0, 0x00010016]

/-- A conditional jump as far as it can go, to a jump -/
def farCode : List Word := 0x7fff0019 :: (List.replicate 32767 0 ++ [0x00010017, 0, 0x00010016])

theorem farCode_jump : farCode[32768]? = some 0x00010017 := by
  unfold farCode
  rw [List.getElem?_cons_succ, List.getElem?_append_right (by rw [List.length_replicate]), List.length_replicate]
  rfl

theorem farCode_return : farCode[32770]? = some 0x00010016 := by
  unfold farCode
  rw [List.getElem?_cons_succ, List.getElem?_append_right (by rw [List.length_replicate]; decide), List.length_replicate]
  rfl

/-- A jump to an instruction that is none -/
theorem follow_two {I : List Word} {p q n : ℕ} {w v : Word} (hw : I[p]? = some w)
    (hjump : LUAU_INSN_OP w = LOP_JUMP ∧ 0 ≤ LUAU_INSN_D w) (hq : p + 1 + (LUAU_INSN_D w).toNat = q) (hv : I[q]? = some v)
    (hop : LUAU_INSN_OP v ≠ LOP_JUMP) : follow I (n + 1 + 1) p = .ok q := by
  unfold follow
  rw [fetch_ok hw]
  show (if LUAU_INSN_OP w = LOP_JUMP ∧ 0 ≤ LUAU_INSN_D w then _ else _) = _
  rw [if_pos hjump, hq]
  unfold follow
  rw [fetch_ok hv]
  show (if LUAU_INSN_OP v = LOP_JUMP ∧ 0 ≤ LUAU_INSN_D v then _ else _) = _
  rw [if_neg fun h => hop h.1]
  rfl

theorem farCode_follow : follow farCode farCode.length 32768 = .ok 32770 := by
  have hlen : farCode.length = 32769 + 1 + 1 := by
    unfold farCode
    rw [List.length_cons, List.length_append, List.length_replicate]
    rfl
  rw [hlen]
  exact follow_two farCode_jump (by decide) (by decide) farCode_return (by decide)

theorem farCode_fold : foldJumps false farCode [⟨0, 32768⟩] = .ok (farCode, [⟨0, 32770⟩]) := by
  have hturn : foldJump farCode ⟨0, 32768⟩ = .ok (farCode, ⟨0, 32770⟩) := by
    have hfirst : farCode[(⟨0, 32768⟩ : Jump).source]? = some 0x7fff0019 := rfl
    rw [foldJump_eq hfirst (by decide) farCode_follow farCode_return, if_neg (by decide), if_neg (by decide)]
  show (foldJump farCode ⟨0, 32768⟩ >>= _) = _
  rw [hturn]
  rfl

end Samples

end Luwu.Bytecode
