import Luwu.Sccp.Rewrite
import Luwu.Lib.Run

/-!
# Rewriting the arithmetic of a graph

What one instruction is rewritten to is decided by its own code, by what is known of its operands and by the
constants. Over the whole graph every instruction that is visited is rewritten to that, once, and no other is.
-/

namespace Luwu.Sccp

open Floating

/-- What an instruction is rewritten to: an operation, or the load of an immediate that is added for it. -/
inductive Replacement where
  | code (op : LuauOpcode) (ops : List BcOp)
  | loadn (n : BitVec 32)

namespace BcFunction

variable {f g h : BcFunction} {i j : ℕ} {op : LuauOpcode} {ops : List BcOp}

def code (f : BcFunction) (i : ℕ) : LuauOpcode × List BcOp := ((f.inst i).op, (f.inst i).ops)

/-! ### Updates -/

/-- The functions differ in nothing but the uses of their instructions and phis. -/
structure SameCode (f g : BcFunction) : Prop where
  constants : g.constants = f.constants
  immediates : g.immediates = f.immediates
  blocks : g.blocks = f.blocks
  length : g.instructions.length = f.instructions.length
  code : ∀ i, g.code i = f.code i

theorem SameCode.refl (f : BcFunction) : SameCode f f := ⟨rfl, rfl, rfl, rfl, fun _ => rfl⟩

theorem SameCode.trans (hfg : SameCode f g) (hgh : SameCode g h) : SameCode f h where
  constants := hgh.constants.trans hfg.constants
  immediates := hgh.immediates.trans hfg.immediates
  blocks := hgh.blocks.trans hfg.blocks
  length := hgh.length.trans hfg.length
  code i := (hgh.code i).trans (hfg.code i)

theorem inst_modifyInst (f : BcFunction) (i : ℕ) (u : BcInst → BcInst) (j : ℕ) :
    (f.modifyInst i u).inst j = if i = j ∧ j < f.instructions.length then u (f.inst j) else f.inst j := by
  unfold modifyInst inst
  simp only [List.getD_eq_getElem?_getD, List.getElem?_modify]
  by_cases hj : j < f.instructions.length
  · simp only [List.getElem?_eq_getElem hj, hj, and_true]
    split <;> simp
  · simp only [List.getElem?_eq_none (not_lt.mp hj), hj, and_false, if_false]
    simp

theorem sameCode_modifyInst (f : BcFunction) (i : ℕ) {u : BcInst → BcInst}
    (hop : ∀ inst, (u inst).op = inst.op) (hops : ∀ inst, (u inst).ops = inst.ops) : SameCode f (f.modifyInst i u) where
  constants := rfl
  immediates := rfl
  blocks := rfl
  length := List.length_modify _ _ _
  code j := by
    unfold BcFunction.code
    rw [inst_modifyInst]
    split
    · rw [hop, hops]
    · rfl

theorem sameCode_recordUse (f : BcFunction) (usedOp user : BcOp) : SameCode f (f.recordUse usedOp user) := by
  cases usedOp with
  | inst i => exact sameCode_modifyInst f i (fun _ => rfl) (fun _ => rfl)
  | _ => exact ⟨rfl, rfl, rfl, rfl, fun _ => rfl⟩

theorem sameCode_eraseUse (f : BcFunction) (userOp usedOp : BcOp) : SameCode f (f.eraseUse userOp usedOp) := by
  cases usedOp with
  | inst i => exact sameCode_modifyInst f i (fun _ => rfl) (fun _ => rfl)
  | _ => exact ⟨rfl, rfl, rfl, rfl, fun _ => rfl⟩

theorem sameCode_foldl {u : BcFunction → BcOp → BcFunction} (hu : ∀ f op, SameCode f (u f op)) (ops : List BcOp)
    (f : BcFunction) : SameCode f (ops.foldl u f) := by
  induction ops generalizing f with
  | nil => exact SameCode.refl f
  | cons op ops ih => exact (hu f op).trans (ih (u f op))

/-- An instruction is given new code, and immediates may be added for it. -/
structure Sets (f g : BcFunction) (i : ℕ) (op : LuauOpcode) (ops : List BcOp) : Prop where
  constants : g.constants = f.constants
  blocks : g.blocks = f.blocks
  length : g.instructions.length = f.instructions.length
  at_inst : i < f.instructions.length → g.code i = (op, ops)
  at_other : ∀ j, j ≠ i → g.code j = f.code j

theorem sets_setInst (f : BcFunction) (i : ℕ) (op : LuauOpcode) (ops : List BcOp) :
    Sets f (f.setInst i op ops) i op ops ∧ (f.setInst i op ops).immediates = f.immediates := by
  have herased : SameCode f ((f.inst i).ops.foldl (fun f oldOp => f.eraseUse (.inst i) oldOp) f) :=
    sameCode_foldl (fun f oldOp => sameCode_eraseUse f _ oldOp) _ f
  unfold setInst
  generalize (f.inst i).ops.foldl (fun f oldOp => f.eraseUse (.inst i) oldOp) f = erased at herased
  have hrecorded := sameCode_foldl (fun f newOp => sameCode_recordUse f newOp (.inst i)) ops
    (erased.modifyInst i fun inst => { inst with op := op, ops := ops })
  refine ⟨⟨?_, ?_, ?_, ?_, ?_⟩, ?_⟩
  · exact hrecorded.constants.trans herased.constants
  · exact hrecorded.blocks.trans herased.blocks
  · exact hrecorded.length.trans ((List.length_modify _ _ _).trans herased.length)
  · intro hi
    rw [hrecorded.code]
    unfold BcFunction.code
    rw [inst_modifyInst, if_pos ⟨rfl, by rw [herased.length]; exact hi⟩]
  · intro j hj
    rw [hrecorded.code, ← herased.code]
    unfold BcFunction.code
    rw [inst_modifyInst, if_neg fun h => hj h.1.symm]
  · exact hrecorded.immediates.trans herased.immediates

/-- What lies outside the function has no code that is rewritten. -/
theorem lt_length_of_op (h : (f.inst i).op ≠ .other 0) : i < f.instructions.length := by
  by_contra hi
  apply h
  unfold inst
  rw [List.getD_eq_getElem?_getD, List.getElem?_eq_none (not_lt.mp hi)]
  rfl

/-- The instruction has the code of the replacement. -/
def Matches (f : BcFunction) (i : ℕ) : Replacement → Prop
  | .code op ops => f.code i = (op, ops)
  | .loadn n => ∃ k, f.code i = (.loadn, [.imm k]) ∧ f.immediates[k]? = some (.int n)

theorem Matches.congr {r : Replacement} (hm : f.Matches i r) (hcode : g.code i = f.code i)
    (himmediates : f.immediates <+: g.immediates) : g.Matches i r := by
  cases r with
  | code op ops => exact hcode.trans hm
  | loadn n =>
    obtain ⟨k, hk, hn⟩ := hm
    refine ⟨k, hcode.trans hk, ?_⟩
    obtain ⟨hlt, -⟩ := List.getElem?_eq_some_iff.mp hn
    obtain ⟨rest, hrest⟩ := himmediates
    rw [← hrest, List.getElem?_append_left hlt, hn]

end BcFunction

open BcFunction

variable {f g : BcFunction} {state : SccpState} {i j : ℕ} {op kOpcode : LuauOpcode} {ops : List BcOp} {r : Replacement}

/-! ### One instruction -/

/-- What an instruction with an operand whose number is the constant is rewritten to -/
def replacement (op : LuauOpcode) (ops : List BcOp) (form : KForm) (constant : BcOp) (k : Number) : Replacement :=
  if Datum.equal k (Datum.ofInt 0) then
    if op = .add ∨ op = .sub then .code .move [form.nonConstantOp]
    else if op = .mul then .loadn 0
    else if op = .pow then .loadn 1
    else .code op ops
  else if Datum.equal k (Datum.ofInt 1) then
    if op = .mul ∨ op = .pow ∨ op = .div then .code .move [form.nonConstantOp]
    else .code op ops
  else if form.rk then .code form.kOpcode [constant, form.nonConstantOp]
  else .code form.kOpcode [form.nonConstantOp, constant]

/-- What an instruction is rewritten to, unless the rewriting fails -/
def newCode (state : SccpState) (f : BcFunction) (i : ℕ) : Option Replacement :=
  match arithToKOpcode (f.inst i).op, (f.inst i).ops with
  | some kOpcode, [lhs, rhs] =>
    match chooseK f (f.inst i).op kOpcode lhs rhs (state.operandLattice lhs) (state.operandLattice rhs) with
    | none => some (.code (f.inst i).op [lhs, rhs])
    | some form =>
      match form.constantK with
      | .vmConstant constant => some (replacement (f.inst i).op [lhs, rhs] form constant (asNumber f constant))
      | _ => none
  | _, ops => some (.code (f.inst i).op ops)

/-- A number is known only of a constant of the machine. -/
theorem chooseK_congr (hconstants : g.constants = f.constants) (op kOpcode : LuauOpcode) (lhs rhs : BcOp)
    (lhsLat rhsLat : ConstnessLattice) :
    chooseK g op kOpcode lhs rhs lhsLat rhsLat = chooseK f op kOpcode lhs rhs lhsLat rhsLat := by
  have hconst : ∀ lat, isConstNumber g lat = isConstNumber f lat := by
    intro lat
    cases lat with
    | vmConstant op =>
      unfold isConstNumber isArithmeticConstant BcFunction.constOp
      rw [hconstants]
    | _ => rfl
  unfold chooseK
  rw [hconst, hconst]

theorem asNumber_congr (hconstants : g.constants = f.constants) (op : BcOp) : asNumber g op = asNumber f op := by
  unfold asNumber BcFunction.constOp
  rw [hconstants]

/-- The rewriting of an instruction depends on its code and the constants. -/
theorem newCode_congr (hconstants : g.constants = f.constants) (hcode : g.code i = f.code i) :
    newCode state g i = newCode state f i := by
  have hop : (g.inst i).op = (f.inst i).op := congrArg Prod.fst hcode
  have hops : (g.inst i).ops = (f.inst i).ops := congrArg Prod.snd hcode
  unfold newCode
  rw [hop, hops]
  simp only [chooseK_congr hconstants, asNumber_congr hconstants]

theorem newCode_of_other (h : arithToKOpcode (f.inst i).op = none) :
    newCode state f i = some (.code (f.inst i).op (f.inst i).ops) := by
  unfold newCode
  rw [h]

/-- The forms that arithmetic takes -/
def IsForm : LuauOpcode → Prop
  | .move | .addk | .subk | .mulk | .divk | .modk | .powk | .subrk | .divrk => True
  | _ => False

/-- Forms have no form themselves. -/
theorem IsForm.arithToKOpcode (h : IsForm op) : arithToKOpcode op = none := by
  cases op <;> first | rfl | cases h

theorem isForm_arithToKOpcode (h : arithToKOpcode op = some kOpcode) : IsForm kOpcode := by
  cases op <;> cases h <;> trivial

theorem isForm_chooseK {form : KForm} {lhs rhs : BcOp} {lhsLat rhsLat : ConstnessLattice}
    (hk : IsForm kOpcode) (h : chooseK f op kOpcode lhs rhs lhsLat rhsLat = some form) : IsForm form.kOpcode := by
  unfold chooseK at h
  split at h
  · cases h
    exact hk
  · split at h
    · split at h
      all_goals
        cases h
        first | exact hk | trivial
    · cases h

/-- What is rewritten is left as it is, is loaded, or is not rewritten again. -/
theorem newCode_cases (h : newCode state f i = some r) :
    r = .code (f.inst i).op (f.inst i).ops ∨ (∃ n, r = .loadn n) ∨
      ∃ op ops, r = .code op ops ∧ IsForm op := by
  unfold newCode at h
  split at h
  · next kOpcode lhs rhs hk hops =>
    split at h
    · cases h
      exact Or.inl (by rw [hops])
    · next form hform =>
      have hkform := isForm_chooseK (isForm_arithToKOpcode hk) hform
      split at h
      · next constant hconstant =>
        cases h
        unfold replacement
        rw [hops]
        split_ifs
        · exact Or.inr (Or.inr ⟨_, _, rfl, trivial⟩)
        · exact Or.inr (Or.inl ⟨_, rfl⟩)
        · exact Or.inr (Or.inl ⟨_, rfl⟩)
        · exact Or.inl rfl
        · exact Or.inr (Or.inr ⟨_, _, rfl, trivial⟩)
        · exact Or.inl rfl
        · exact Or.inr (Or.inr ⟨_, _, rfl, hkform⟩)
        · exact Or.inr (Or.inr ⟨_, _, rfl, hkform⟩)
      · cases h
  · cases h
    exact Or.inl rfl

/-- A step at one instruction, with the rest of the function left as it is -/
structure StepsTo (f g : BcFunction) (i : ℕ) (r : Replacement) : Prop where
  constants : g.constants = f.constants
  immediates : f.immediates <+: g.immediates
  blocks : g.blocks = f.blocks
  at_inst : g.Matches i r
  at_other : ∀ j, j ≠ i → g.code j = f.code j

theorem StepsTo.refl (hm : f.Matches i r) : StepsTo f f i r := ⟨rfl, List.prefix_rfl, rfl, hm, fun _ _ => rfl⟩

theorem stepsTo_setInst (hi : i < f.instructions.length) (op : LuauOpcode) (ops : List BcOp) :
    StepsTo f (f.setInst i op ops) i (.code op ops) := by
  obtain ⟨hsets, himm⟩ := sets_setInst f i op ops
  exact ⟨hsets.constants, by rw [himm], hsets.blocks, hsets.at_inst hi, hsets.at_other⟩

theorem stepsTo_loadn (hi : i < f.instructions.length) (n : BitVec 32) :
    StepsTo f ((f.addImm (.int n)).setInst i .loadn [f.nextImm]) i (.loadn n) := by
  obtain ⟨hsets, himm⟩ := sets_setInst (f.addImm (.int n)) i .loadn [f.nextImm]
  refine ⟨hsets.constants, ?_, hsets.blocks, ⟨f.immediates.length, hsets.at_inst hi, ?_⟩, hsets.at_other⟩
  · rw [himm]
    exact List.prefix_append _ _
  · rw [himm]
    exact List.getElem?_concat_length

theorem applyK_spec (hi : i < f.instructions.length) (form : KForm) :
    (∀ constant, form.constantK = .vmConstant constant →
      ∃ g, applyK f i form = .ok g ∧
        StepsTo f g i (replacement (f.inst i).op (f.inst i).ops form constant (asNumber f constant))) ∧
    ((∀ constant, form.constantK ≠ .vmConstant constant) → applyK f i form = .error .mk) := by
  constructor
  · intro constant hconstant
    unfold applyK replacement
    rw [hconstant]
    simp only [ConstnessLattice.vmConst, bind, Except.bind]
    split_ifs
    · exact ⟨_, rfl, stepsTo_setInst hi _ _⟩
    · exact ⟨_, rfl, stepsTo_loadn hi _⟩
    · exact ⟨_, rfl, stepsTo_loadn hi _⟩
    · exact ⟨_, rfl, StepsTo.refl rfl⟩
    · exact ⟨_, rfl, stepsTo_setInst hi _ _⟩
    · exact ⟨_, rfl, StepsTo.refl rfl⟩
    · exact ⟨_, rfl, stepsTo_setInst hi _ _⟩
    · exact ⟨_, rfl, stepsTo_setInst hi _ _⟩
  · intro hnone
    unfold applyK
    cases hk : form.constantK with
    | vmConstant constant => exact absurd hk (hnone constant)
    | _ => rfl

/-- A turn of the loop rewrites its instruction, or fails where there is nothing to rewrite it to. -/
theorem arithStep_spec (state : SccpState) (f : BcFunction) (i : ℕ) :
    match newCode state f i with
    | some r => ∃ g erased, arithStep state f i = .ok (g, erased) ∧ StepsTo f g i r
    | none => arithStep state f i = .error .mk := by
  have hsame : f.Matches i (.code (f.inst i).op (f.inst i).ops) := rfl
  unfold newCode arithStep
  cases hk : arithToKOpcode (f.inst i).op with
  | none => exact ⟨f, none, rfl, StepsTo.refl hsame⟩
  | some kOpcode =>
    have hi : i < f.instructions.length := by
      apply lt_length_of_op
      intro hother
      rw [hother] at hk
      cases hk
    match hops : (f.inst i).ops with
    | [lhs, rhs] =>
      simp only
      cases chooseK f (f.inst i).op kOpcode lhs rhs (state.operandLattice lhs) (state.operandLattice rhs) with
      | none => exact ⟨f, none, rfl, StepsTo.refl (by rw [← hops]; exact hsame)⟩
      | some form =>
        obtain ⟨hok, herror⟩ := applyK_spec hi form
        simp only
        cases hconstant : form.constantK with
        | vmConstant constant =>
          obtain ⟨g, hg, hsteps⟩ := hok constant hconstant
          rw [hops] at hsteps
          exact ⟨g, _, by rw [hg]; rfl, hsteps⟩
        | _ =>
          simp only
          rw [herror fun constant h => by rw [hconstant] at h; cases h]
          rfl
    | [] => exact ⟨f, none, rfl, StepsTo.refl (by rw [← hops]; exact hsame)⟩
    | [_] => exact ⟨f, none, rfl, StepsTo.refl (by rw [← hops]; exact hsame)⟩
    | _ :: _ :: _ :: _ => exact ⟨f, none, rfl, StepsTo.refl (by rw [← hops]; exact hsame)⟩

/-! ### The whole graph -/

/-- Instruction `i` has become what it is rewritten to. -/
def Done (state : SccpState) (f g : BcFunction) (i : ℕ) : Prop := ∃ r, newCode state f i = some r ∧ g.Matches i r

/-- Instruction `i` stands in a block that is reached. -/
def Visited (blockUses : ℕ → List BcOp) (f : BcFunction) (i : ℕ) : Prop :=
  ∃ b, b < f.blocks.length ∧ blockUses b ≠ [] ∧ .inst i ∈ f.blocks.getD b []

/-- The function `g` that `f` has become on the way: of the instructions `V` some are done. -/
structure Rewriting (state : SccpState) (V : ℕ → Prop) (f g : BcFunction) : Prop where
  constants : g.constants = f.constants
  code : ∀ i, g.code i = f.code i ∨ V i ∧ Done state f g i
  members : ∀ b i, .inst i ∈ f.blocks.getD b [] → .inst i ∈ g.blocks.getD b [] ∨ Done state f g i
  subset : ∀ b op, op ∈ g.blocks.getD b [] → op ∈ f.blocks.getD b []

theorem Rewriting.refl (state : SccpState) (V : ℕ → Prop) (f : BcFunction) : Rewriting state V f f :=
  ⟨rfl, fun _ => Or.inl rfl, fun _ _ => Or.inl, fun _ _ => id⟩

section Run

variable {V : ℕ → Prop} {f₀ : BcFunction}

/-- An instruction that is done is rewritten to what it is. -/
theorem Done.again (hconstants : f.constants = f₀.constants) (h : Done state f₀ f i) :
    ∃ r, newCode state f i = some r ∧ ∀ g, StepsTo f g i r → Done state f₀ g i := by
  obtain ⟨r, hr, hm⟩ := h
  have hother : ∀ op ops, f.code i = (op, ops) → arithToKOpcode op = none →
      ∃ r', newCode state f i = some r' ∧ ∀ g, StepsTo f g i r' → Done state f₀ g i := by
    intro op ops hcode hop
    have hop' : (f.inst i).op = op := congrArg Prod.fst hcode
    refine ⟨_, newCode_of_other (hop' ▸ hop), fun g hg => ⟨r, hr, ?_⟩⟩
    exact hm.congr hg.at_inst hg.immediates
  rcases newCode_cases hr with rfl | ⟨n, rfl⟩ | ⟨op, ops, rfl, hop⟩
  · refine ⟨_, (newCode_congr hconstants hm).trans hr, fun g hg => ⟨_, hr, hg.at_inst⟩⟩
  · obtain ⟨k, hcode, -⟩ := hm
    exact hother _ _ hcode rfl
  · exact hother _ _ hm hop.arithToKOpcode

theorem Done.other (hg : StepsTo f g i r) (hj : j ≠ i) (h : Done state f₀ f j) : Done state f₀ g j := by
  obtain ⟨q, hq, hm⟩ := h
  exact ⟨q, hq, hm.congr (hg.at_other j hj) hg.immediates⟩

/-- What is known after a part of the rewriting that started at `f`: it failed at one of the instructions `V`, or what
it was about to do is done. -/
def Becomes (state : SccpState) (V : ℕ → Prop) (f₀ f : BcFunction) {α : Type} (x : Except BadOptionalAccess α)
    (result : α → BcFunction) (D : ℕ → Prop) : Prop :=
  (∃ a, x = .ok a ∧ Rewriting state V f₀ (result a) ∧ (∀ j, Done state f₀ f j → Done state f₀ (result a) j) ∧
    ∀ j, D j → Done state f₀ (result a) j) ∨
  (x = .error .mk ∧ ∃ i, V i ∧ newCode state f₀ i = none)

theorem Rewriting.step (h : Rewriting state V f₀ f) (hi : V i) :
    Becomes state V f₀ f (arithStep state f i) Prod.fst (· = i) := by
  have hspec := arithStep_spec state f i
  have hok : ∀ r, newCode state f i = some r → (∀ g, StepsTo f g i r → Done state f₀ g i) →
      Becomes state V f₀ f (arithStep state f i) Prod.fst (· = i) := by
    intro r hr hdone
    rw [hr] at hspec
    obtain ⟨g, erased, hrun, hg⟩ := hspec
    have hmono : ∀ j, Done state f₀ f j → Done state f₀ g j := by
      intro j hj
      by_cases hji : j = i
      · exact hji ▸ hdone g hg
      · exact hj.other hg hji
    refine Or.inl ⟨_, hrun, ⟨hg.constants.trans h.constants, ?_, ?_, ?_⟩, hmono, fun j hj => hj ▸ hdone g hg⟩
    · intro j
      by_cases hji : j = i
      · exact Or.inr ⟨hji ▸ hi, hji ▸ hdone g hg⟩
      · rcases h.code j with hcode | ⟨hV, hj⟩
        · exact Or.inl ((hg.at_other j hji).trans hcode)
        · exact Or.inr ⟨hV, hmono j hj⟩
    · intro b j hmem
      show _ ∈ g.blocks.getD b [] ∨ _
      rw [hg.blocks]
      exact (h.members b j hmem).imp_right (hmono j)
    · intro b op hmem
      apply h.subset b op
      rw [← hg.blocks]
      exact hmem
  rcases h.code i with hcode | ⟨-, hdone⟩
  · have hnew : newCode state f i = newCode state f₀ i := newCode_congr h.constants hcode
    cases hr : newCode state f₀ i with
    | some r => exact hok r (hnew.trans hr) fun g hg => ⟨r, hr, hg.at_inst⟩
    | none =>
      rw [hnew, hr] at hspec
      exact Or.inr ⟨hspec, i, hi, hr⟩
  · obtain ⟨r, hr, hagain⟩ := hdone.again h.constants
    exact hok r hr hagain

/-- The turns of one block -/
theorem Rewriting.arithOps (ops : List BcOp) (h : Rewriting state V f₀ f) (hV : ∀ i, .inst i ∈ ops → V i)
    (toErase : List BcOp) :
    Becomes state V f₀ f (arithOps state ops (f, toErase)) Prod.fst fun i => .inst i ∈ ops := by
  induction ops generalizing f toErase with
  | nil => exact Or.inl ⟨_, rfl, h, fun _ => id, fun _ hmem => absurd hmem List.not_mem_nil⟩
  | cons op ops ih =>
    have hV' : ∀ i, .inst i ∈ ops → V i := fun i hmem => hV i (List.mem_cons_of_mem _ hmem)
    have hskip : (∀ i, op ≠ .inst i) → Becomes state V f₀ f (Sccp.arithOps state ops (f, toErase)) Prod.fst
        fun i => .inst i ∈ op :: ops := by
      intro hop
      refine (ih h hV' toErase).imp_left fun ⟨a, hrun, hr, hmono, hdone⟩ => ⟨a, hrun, hr, hmono, fun j hmem => ?_⟩
      rcases List.mem_cons.mp hmem with hhead | htail
      · exact absurd hhead.symm (hop j)
      · exact hdone j htail
    cases op with
    | inst i =>
      unfold Sccp.arithOps
      rcases h.step (hV i List.mem_cons_self) with ⟨⟨g, erased⟩, hrun, hg, hmono, hdone⟩ | ⟨herror, hnone⟩
      · rw [hrun]
        rcases ih hg hV' (toErase ++ erased.toList) with ⟨a, hrun', hr, hmono', hdone'⟩ | hfail
        · refine Or.inl ⟨a, hrun', hr, fun j hj => hmono' j (hmono j hj), fun j hmem => ?_⟩
          rcases List.mem_cons.mp hmem with hhead | htail
          · cases hhead
            exact hmono' _ (hdone _ rfl)
          · exact hdone' j htail
        · exact Or.inr hfail
      · rw [herror]
        exact Or.inr ⟨rfl, hnone⟩
    | _ => exact hskip nofun

theorem getD_eraseOp (f : BcFunction) (i b : ℕ) :
    (f.eraseOp i).blocks.getD b [] =
      if (f.inst i).block = b then (f.blocks.getD b []).filter (· ≠ .inst i) else f.blocks.getD b [] := by
  unfold eraseOp
  simp only [List.getD_eq_getElem?_getD, List.getElem?_modify]
  cases f.blocks[b]? with
  | none => split <;> rfl
  | some ops => split <;> rfl

/-- A producer of a value is no arithmetic. -/
theorem arithToKOpcode_of_pure (h : isPureProducer op = true) : arithToKOpcode op = none := by
  cases op <;> first | rfl | cases h

theorem Rewriting.eraseDeadProducer (h : Rewriting state V f₀ f) (op : BcOp) :
    Rewriting state V f₀ (eraseDeadProducer f op) ∧
      ∀ j, Done state f₀ f j → Done state f₀ (Sccp.eraseDeadProducer f op) j := by
  cases op with
  | inst i =>
    unfold Sccp.eraseDeadProducer
    simp only
    split
    · next hpure =>
      have hmono : ∀ j, Done state f₀ f j → Done state f₀ (f.eraseOp i) j := fun _ => id
      refine ⟨⟨h.constants, h.code, ?_, ?_⟩, hmono⟩
      · intro b j hmem
        rcases h.members b j hmem with hmem' | hdone
        · by_cases hji : j = i
          · subst hji
            right
            rcases h.code j with hcode | ⟨-, hdone⟩
            · have hop : (f.inst j).op = (f₀.inst j).op := congrArg Prod.fst hcode
              refine ⟨_, newCode_of_other ?_, hcode⟩
              rw [← hop]
              exact arithToKOpcode_of_pure hpure.1
            · exact hdone
          · left
            rw [getD_eraseOp]
            split
            · apply List.mem_filter.mpr ⟨hmem', ?_⟩
              rw [decide_eq_true_eq]
              intro heq
              cases heq
              exact hji rfl
            · exact hmem'
        · exact Or.inr hdone
      · intro b op hmem
        apply h.subset b op
        rw [getD_eraseOp] at hmem
        split at hmem
        · exact List.mem_of_mem_filter hmem
        · exact hmem
    · exact ⟨h, fun _ => id⟩
  | _ => exact ⟨h, fun _ => id⟩

theorem Rewriting.erase (ops : List BcOp) (h : Rewriting state V f₀ f) :
    Rewriting state V f₀ (ops.foldl Sccp.eraseDeadProducer f) ∧
      ∀ j, Done state f₀ f j → Done state f₀ (ops.foldl Sccp.eraseDeadProducer f) j := by
  induction ops generalizing f with
  | nil => exact ⟨h, fun _ => id⟩
  | cons op ops ih =>
    obtain ⟨hop, hmono⟩ := h.eraseDeadProducer op
    obtain ⟨hops, hmono'⟩ := ih hop
    exact ⟨hops, fun j hj => hmono' j (hmono j hj)⟩

theorem Rewriting.block (blockUses : ℕ → List BcOp) (h : Rewriting state V f₀ f) (b : ℕ)
    (hV : blockUses b ≠ [] → ∀ i, .inst i ∈ f₀.blocks.getD b [] → V i) :
    Becomes state V f₀ f (arithBlock state blockUses f b) id fun i =>
      blockUses b ≠ [] ∧ .inst i ∈ f₀.blocks.getD b [] := by
  unfold arithBlock
  split
  · next hunused => exact Or.inl ⟨f, rfl, h, fun _ => id, fun j hj => absurd hunused hj.1⟩
  · next hused =>
    have hV' : ∀ i, .inst i ∈ f.blocks.getD b [] → V i := fun i hmem => hV hused i (h.subset b _ hmem)
    rcases h.arithOps (f.blocks.getD b []) hV' [] with ⟨⟨g, toErase⟩, hrun, hg, hmono, hdone⟩ | ⟨herror, hnone⟩
    · obtain ⟨herase, hmono'⟩ := hg.erase toErase
      rw [hrun]
      refine Or.inl ⟨_, rfl, herase, fun j hj => hmono' j (hmono j hj), fun j hj => hmono' j ?_⟩
      rcases h.members b j hj.2 with hmem | hj'
      · exact hdone j hmem
      · exact hmono j hj'
    · rw [herror]
      exact Or.inr ⟨rfl, hnone⟩

theorem Rewriting.blocks (blockUses : ℕ → List BcOp) (bs : List ℕ) (h : Rewriting state V f₀ f)
    (hV : ∀ b ∈ bs, blockUses b ≠ [] → ∀ i, .inst i ∈ f₀.blocks.getD b [] → V i) :
    Becomes state V f₀ f (bs.foldlM (arithBlock state blockUses) f) id fun i =>
      ∃ b ∈ bs, blockUses b ≠ [] ∧ .inst i ∈ f₀.blocks.getD b [] := by
  induction bs generalizing f with
  | nil => exact Or.inl ⟨f, rfl, h, fun _ => id, fun j ⟨b, hb, _⟩ => absurd hb List.not_mem_nil⟩
  | cons b bs ih =>
    rw [List.foldlM_cons]
    rcases h.block blockUses b (hV b List.mem_cons_self) with ⟨g, hrun, hg, hmono, hdone⟩ | ⟨herror, hnone⟩
    · rw [hrun]
      rcases ih hg fun b' hb' => hV b' (List.mem_cons_of_mem _ hb') with ⟨a, hrun', hr, hmono', hdone'⟩ | hfail
      · refine Or.inl ⟨a, hrun', hr, fun j hj => hmono' j (hmono j hj), fun j ⟨b', hb', hj⟩ => ?_⟩
        rcases List.mem_cons.mp hb' with rfl | htail
        · exact hmono' j (hdone j hj)
        · exact hdone' j ⟨b', htail, hj⟩
      · exact Or.inr hfail
    · rw [herror]
      exact Or.inr ⟨rfl, hnone⟩

/-- The rewriting fails at an instruction that it visits, or rewrites all of these and no other. -/
theorem arithToK_spec (state : SccpState) (blockUses : ℕ → List BcOp) (f : BcFunction) :
    (∃ g, arithToK state blockUses f = .ok g ∧ g.constants = f.constants ∧
      (∀ i, g.code i = f.code i ∨ Visited blockUses f i) ∧ ∀ i, Visited blockUses f i → Done state f g i) ∨
    (arithToK state blockUses f = .error .mk ∧ ∃ i, Visited blockUses f i ∧ newCode state f i = none) := by
  have hV : ∀ b ∈ List.range f.blocks.length, blockUses b ≠ [] → ∀ i, .inst i ∈ f.blocks.getD b [] →
      Visited blockUses f i := fun b hb hused i hmem => ⟨b, List.mem_range.mp hb, hused, hmem⟩
  rcases (Rewriting.refl state (Visited blockUses f) f).blocks blockUses _ hV with ⟨g, hrun, hg, -, hdone⟩ | hfail
  · refine Or.inl ⟨g, hrun, hg.constants, fun i => (hg.code i).imp_right And.left, fun i hi => ?_⟩
    obtain ⟨b, hb, hused, hmem⟩ := hi
    exact hdone i ⟨b, List.mem_range.mpr hb, hused, hmem⟩
  · exact Or.inr hfail

end Run

end Luwu.Sccp
