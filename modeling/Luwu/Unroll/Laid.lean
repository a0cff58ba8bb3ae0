import Luwu.Unroll.Code

/-!
# Where the code of a statement lies

The code of a statement lies between two labels, with its jumps out of the statement to the labels where loops go on
and end.  What the compiler emits for a statement comes to lie so when the jumps are patched that it has left open.
-/

namespace Luwu.Unroll

open Floating Datum Sccp Regions

variable {L : Language} {b b' b₁ b₂ : Builder L} {js js₁ js₂ : List LoopJump} {code insns insns' : List (Insn L)}
  {f g : ℕ → Option ℕ} {lo mid hi : ℕ} {ps qs : List (ℕ × ℕ)}

/-! ### Layouts -/

section Layouts

variable (profitable : Stat L → ℕ → Bool) (code : List (Insn L))

def LaidCondition (c : L.Cond) (env : Env L) (onlyTruth : Bool) (lo hi target : ℕ) : Prop :=
  match L.truth c env.known with
  | some v =>
    if v = onlyTruth then code[lo]? = some (.jump (distance lo target)) ∧ hi = lo + 1 else hi = lo
  | none => code[lo]? = some (.branch c env onlyTruth (distance lo target)) ∧ hi = lo + 1

/-- The copies of a body follow each other; `continue` goes to the next copy and `break` to the end. -/
def LaidCopies (LaidBody : Number → ℕ → ℕ → ℕ → ℕ → Prop) (endLabel : ℕ) : List Number → ℕ → ℕ → Prop
  | [], lo, hi => hi = lo
  | v :: vs, lo, hi => ∃ mid, LaidBody v lo mid endLabel mid ∧ LaidCopies LaidBody endLabel vs mid hi

/-- The code of the statement lies from `lo` to `hi`; loops end at `brk` and go on at `cont`. -/
def Laid : Stat L → Env L → ℕ → ℕ → ℕ → ℕ → ℕ → Prop
  | .skip, _, _, lo, hi, _, _ => hi = lo
  | .atom a, env, _, lo, hi, _, _ => code[lo]? = some (.atom a env) ∧ hi = lo + 1
  | .seq p q, env, regTop, lo, hi, brk, cont =>
    ∃ mid, Laid p env regTop lo mid brk cont ∧
      if alwaysTerminates env.known p then hi = mid else Laid q env regTop mid hi brk cont
  | .ifThen c p, env, regTop, lo, hi, brk, cont =>
    if isConstant c env.known false then hi = lo
    else if isStatBreak p && !L.areLocalsCaptured c then LaidCondition code c env true lo hi brk
    else if isStatContinue p && !L.areLocalsCaptured c then LaidCondition code c env true lo hi cont
    else ∃ mid, LaidCondition code c env false lo mid hi ∧ Laid p env regTop mid hi brk cont
  | .ifElse c p q, env, regTop, lo, hi, brk, cont =>
    if isConstant c env.known false then Laid q env regTop lo hi brk cont
    else if isConstant c env.known true then Laid p env regTop lo hi brk cont
    else ∃ mid thenEnd elseLabel, LaidCondition code c env false lo mid elseLabel ∧
      Laid p env regTop mid thenEnd brk cont ∧
      (if alwaysTerminates env.known p then elseLabel = thenEnd
        else code[thenEnd]? = some (.jump (distance thenEnd hi)) ∧ elseLabel = thenEnd + 1) ∧
      Laid q env regTop elseLabel hi brk cont
  | .while c p, env, regTop, lo, hi, _, _ =>
    if isConstant c env.known false then hi = lo
    else ∃ mid back, LaidCondition code c env false lo mid hi ∧ Laid p env regTop mid back hi back ∧
      code[back]? = some (.jump (distance back lo)) ∧ hi = back + 1
  | .repeat p c, env, regTop, lo, hi, _, _ =>
    ∃ mid, Laid p env regTop lo mid hi mid ∧
      if isConstant c env.known true then hi = mid
      else ∃ back, LaidCondition code c env true mid back hi ∧ code[back]? = some (.jump (distance back lo)) ∧
        hi = back + 1
  | .forIn g p, env, regTop, lo, hi, _, _ =>
    ∃ back, code[lo]? = some (.forgprep g env (distance lo back)) ∧ Laid p env regTop (lo + 1) back hi back ∧
      code[back]? = some (.forgloop g env (distance back (lo + 1))) ∧ hi = back + 1
  | .for x e p, env, regTop, lo, hi, _, _ =>
    match tryUnroll profitable e env.known p with
    | some (from', step, tripCount) =>
      LaidCopies (fun v => Laid p (env.set x (.constant v)) regTop) hi (copyValues from' step tripCount) lo hi
    | none =>
      ∃ back, code[lo]? = some (.bounds e env regTop) ∧
        code[lo + 1]? = some (.fornprep regTop (distance (lo + 1) hi)) ∧
        Laid p (env.set x (.register (regTop + 2))) (regTop + 3) (lo + 2) back hi back ∧
        code[back]? = some (.fornloop regTop (distance back (lo + 2))) ∧ hi = back + 1
  | .break, _, _, lo, hi, brk, _ => code[lo]? = some (.jump (distance lo brk)) ∧ hi = lo + 1
  | .continue, _, _, lo, hi, _, cont => code[lo]? = some (.jump (distance lo cont)) ∧ hi = lo + 1
  | .return, _, _, lo, hi, _, _ => code[lo]? = some .return ∧ hi = lo + 1

attribute [grind =] Laid

end Layouts

/-! ### Patching -/

/-- The target of a jump out of a loop -/
def JumpType.target (endLabel contLabel : ℕ) : JumpType → ℕ
  | .break => endLabel
  | .continue => contLabel

theorem Insn.patch_patch (insn : Insn L) (d d' : ℤ) : (insn.patch d).patch d' = insn.patch d' := by
  cases insn <;> rfl

/-- Jumps patched one after the other, each given by its label and its target -/
def Builder.patchAll (b : Builder L) (ps : List (ℕ × ℕ)) : Builder L := ps.foldl (fun b p => b.patchJump p.1 p.2) b

/-- The targets of the patched jumps -/
def targets : List (ℕ × ℕ) → ℕ → Option ℕ
  | [], _ => none
  | p :: ps, i => (targets ps i).or (if i = p.1 then some p.2 else none)

theorem targets_append (ps qs : List (ℕ × ℕ)) (i : ℕ) : targets (ps ++ qs) i = (targets qs i).or (targets ps i) := by
  induction ps with
  | nil => exact (Option.or_none).symm
  | cons p ps ih =>
    show (targets (ps ++ qs) i).or _ = (targets qs i).or ((targets ps i).or _)
    rw [ih, Option.or_assoc]

theorem targets_none {i : ℕ} (h : ∀ p ∈ ps, p.1 ≠ i) : targets ps i = none := by
  induction ps with
  | nil => rfl
  | cons p ps ih =>
    show (targets ps i).or _ = none
    rw [ih fun q hq => h q (List.mem_cons_of_mem _ hq), if_neg fun heq => h p List.mem_cons_self heq.symm]
    rfl

theorem targets_mem (hdistinct : (ps.map Prod.fst).Nodup) {p : ℕ × ℕ} (h : p ∈ ps) : targets ps p.1 = some p.2 := by
  induction ps with
  | nil => exact absurd h List.not_mem_nil
  | cons q ps ih =>
    obtain ⟨hq, hps⟩ := List.nodup_cons.mp hdistinct
    show (targets ps p.1).or _ = some p.2
    rcases List.mem_cons.mp h with rfl | hmem
    · have hnone : targets ps p.1 = none := by
        apply targets_none
        intro r hr heq
        exact hq (List.mem_map.mpr ⟨r, hr, heq⟩)
      rw [hnone, if_pos rfl]
      rfl
    · rw [ih hps hmem]
      rfl

/-- The instruction at a label, patched when there is a target -/
def patchTo (i : ℕ) : Option ℕ → Insn L → Insn L
  | some t, insn => insn.patch (distance i t)
  | none, insn => insn

theorem patchTo_patchTo (i : ℕ) (t t' : Option ℕ) (insn : Insn L) :
    patchTo i t (patchTo i t' insn) = patchTo i (t.or t') insn := by
  cases t with
  | none => rfl
  | some t =>
    cases t' with
    | none => rfl
    | some t' => exact Insn.patch_patch _ _ _

theorem map_patchTo (i : ℕ) (t t' : Option ℕ) (insn : Option (Insn L)) :
    (insn.map (patchTo i t')).map (patchTo i t) = insn.map (patchTo i (t.or t')) := by
  rw [Option.map_map]
  congr 1
  funext insn
  exact patchTo_patchTo i t t' insn

theorem map_patchTo_none (i : ℕ) (insn : Option (Insn L)) : insn.map (patchTo i none) = insn := by
  cases insn <;> rfl

/-- Between `lo` and `hi` the code consists of these instructions, with the targets `f`. -/
def Final (code insns : List (Insn L)) (f : ℕ → Option ℕ) (lo hi : ℕ) : Prop :=
  ∀ i, lo ≤ i → i < hi → code[i]? = insns[i]?.map (patchTo i (f i))

theorem Final.sub {lo' hi' : ℕ} (h : Final code insns f lo hi) (hlo : lo ≤ lo') (hhi : hi' ≤ hi)
    (heq : ∀ i, lo' ≤ i → i < hi' → insns[i]? = insns'[i]? ∧ f i = g i) : Final code insns' g lo' hi' := by
  intro i hi₁ hi₂
  obtain ⟨hinsn, hf⟩ := heq i hi₁ hi₂
  rw [h i (hlo.trans hi₁) (hi₂.trans_le hhi), hinsn, hf]

namespace Builder

@[simp] theorem emit_length (b : Builder L) (insn : Insn L) : (b.emit insn).insns.length = b.insns.length + 1 :=
  List.length_append

@[simp] theorem emit_loopJumps (b : Builder L) (insn : Insn L) : (b.emit insn).loopJumps = b.loopJumps := rfl

theorem emit_get {i : ℕ} (insn : Insn L) (h : i < b.insns.length) : (b.emit insn).insns[i]? = b.insns[i]? :=
  List.getElem?_append_left h

theorem emit_last (b : Builder L) (insn : Insn L) : (b.emit insn).insns[b.insns.length]? = some insn := by
  show (b.insns ++ [insn])[b.insns.length]? = some insn
  rw [List.getElem?_append_right le_rfl, Nat.sub_self]
  rfl

@[simp] theorem patchAll_nil (b : Builder L) : b.patchAll [] = b := rfl

theorem patchAll_append (b : Builder L) (ps qs : List (ℕ × ℕ)) : b.patchAll (ps ++ qs) = (b.patchAll ps).patchAll qs :=
  List.foldl_append

theorem patchJump_eq (b : Builder L) (label target : ℕ) : b.patchJump label target = b.patchAll [(label, target)] := rfl

theorem patchJumps_eq (b : Builder L) (labels : List ℕ) (target : ℕ) :
    b.patchJumps labels target = b.patchAll (labels.map (·, target)) := by
  unfold patchJumps patchAll
  rw [List.foldl_map]

theorem patchLoopJumps_eq (b : Builder L) (oldJumps endLabel contLabel : ℕ) :
    b.patchLoopJumps oldJumps endLabel contLabel =
      b.patchAll ((b.loopJumps.drop oldJumps).map fun lj => (lj.label, lj.type.target endLabel contLabel)) := by
  unfold patchLoopJumps patchAll
  rw [List.foldl_map]
  congr 1
  funext b lj
  cases lj.type <;> rfl

theorem patchType_eq (b : Builder L) (oldJumps : ℕ) (type : JumpType) (target : ℕ) :
    b.patchType oldJumps type target =
      b.patchAll (((b.loopJumps.drop oldJumps).filter (·.type = type)).map fun lj => (lj.label, target)) := by
  unfold patchType
  rw [patchJumps_eq, List.map_map]
  rfl

@[simp] theorem patchAll_loopJumps (b : Builder L) (ps : List (ℕ × ℕ)) : (b.patchAll ps).loopJumps = b.loopJumps := by
  induction ps generalizing b with
  | nil => rfl
  | cons p ps ih => exact ih (b.patchJump p.1 p.2)

@[simp] theorem patchAll_length (b : Builder L) (ps : List (ℕ × ℕ)) :
    (b.patchAll ps).insns.length = b.insns.length := by
  induction ps generalizing b with
  | nil => rfl
  | cons p ps ih => exact (ih (b.patchJump p.1 p.2)).trans (List.length_modify _ _ _)

theorem patchJump_get (b : Builder L) (label target i : ℕ) :
    (b.patchJump label target).insns[i]? =
      b.insns[i]?.map (patchTo i (if i = label then some target else none)) := by
  show (b.insns.modify label _)[i]? = _
  rw [List.getElem?_modify]
  by_cases h : i = label
  · subst h
    simp only [if_true]
    rfl
  · have h' : label ≠ i := fun heq => h heq.symm
    rw [if_neg h, map_patchTo_none]
    simp [h']

/-- A patched instruction has the last of its targets. -/
theorem patchAll_get (b : Builder L) (ps : List (ℕ × ℕ)) (i : ℕ) :
    (b.patchAll ps).insns[i]? = b.insns[i]?.map (patchTo i (targets ps i)) := by
  induction ps generalizing b with
  | nil => exact (map_patchTo_none i _).symm
  | cons p ps ih =>
    show ((b.patchJump p.1 p.2).patchAll ps).insns[i]? = _
    rw [ih, patchJump_get, map_patchTo]
    rfl

theorem patchAll_get_of_notMem (b : Builder L) {i : ℕ} (h : ∀ p ∈ ps, p.1 ≠ i) :
    (b.patchAll ps).insns[i]? = b.insns[i]? := by
  rw [patchAll_get, targets_none h, map_patchTo_none]

end Builder

/-- Patching before the code is final, or with its targets -/
theorem Final.of_patchAll (h : Final code (b.patchAll ps).insns f lo hi) :
    Final code b.insns (fun i => (f i).or (targets ps i)) lo hi := by
  intro i hi₁ hi₂
  rw [h i hi₁ hi₂, Builder.patchAll_get, map_patchTo]

/-! ### How the builder grows -/

/-- The builder has new instructions, and new jumps out of loops among them; what was before is kept. -/
structure Grew (b b' : Builder L) (js : List LoopJump) : Prop where
  le : b.insns.length ≤ b'.insns.length
  kept : ∀ i < b.insns.length, b'.insns[i]? = b.insns[i]?
  jumps : b'.loopJumps = b.loopJumps ++ js
  labels : ∀ j ∈ js, b.insns.length ≤ j.label ∧ j.label < b'.insns.length
  distinct : (js.map (·.label)).Nodup

namespace Grew

theorem refl (b : Builder L) : Grew b b [] :=
  ⟨le_rfl, fun _ _ => rfl, (List.append_nil _).symm, fun _ h => absurd h List.not_mem_nil, List.nodup_nil⟩

theorem trans (h : Grew b b₁ js₁) (h' : Grew b₁ b₂ js₂) : Grew b b₂ (js₁ ++ js₂) where
  le := h.le.trans h'.le
  kept i hi := (h'.kept i (hi.trans_le h.le)).trans (h.kept i hi)
  jumps := by rw [h'.jumps, h.jumps, List.append_assoc]
  labels j hj := by
    rcases List.mem_append.mp hj with hj | hj
    · exact ⟨(h.labels j hj).1, (h.labels j hj).2.trans_le h'.le⟩
    · exact ⟨h.le.trans (h'.labels j hj).1, (h'.labels j hj).2⟩
  distinct := by
    rw [List.map_append]
    refine h.distinct.append h'.distinct fun l hl hl' => ?_
    obtain ⟨j, hj, rfl⟩ := List.mem_map.mp hl
    obtain ⟨j', hj', heq⟩ := List.mem_map.mp hl'
    have hj := (h.labels j hj).2
    have hj' := (h'.labels j' hj').1
    omega

theorem emit (h : Grew b b₁ js) (insn : Insn L) : Grew b (b₁.emit insn) js where
  le := by
    have := h.le
    rw [Builder.emit_length]
    omega
  kept i hi := (Builder.emit_get insn (hi.trans_le h.le)).trans (h.kept i hi)
  jumps := h.jumps
  labels j hj := by
    have := h.labels j hj
    rw [Builder.emit_length]
    omega
  distinct := h.distinct

theorem patchAll (h : Grew b b₁ js) (hps : ∀ p ∈ ps, b.insns.length ≤ p.1) : Grew b (b₁.patchAll ps) js where
  le := by rw [Builder.patchAll_length]; exact h.le
  kept i hi := by
    rw [Builder.patchAll_get_of_notMem _ fun p hp heq => absurd (hps p hp) (by omega)]
    exact h.kept i hi
  jumps := by rw [Builder.patchAll_loopJumps]; exact h.jumps
  labels j hj := by rw [Builder.patchAll_length]; exact h.labels j hj
  distinct := h.distinct

/-- All jumps of a loop are patched when it is left. -/
theorem resize (h : Grew b b₁ js) : Grew b (b₁.resizeJumps b.loopJumps.length) [] where
  le := h.le
  kept := h.kept
  jumps := by
    show b₁.loopJumps.take _ = _
    rw [h.jumps, List.take_left, List.append_nil]
  labels _ hj := absurd hj List.not_mem_nil
  distinct := List.nodup_nil

theorem drop (h : Grew b b₁ js) : b₁.loopJumps.drop b.loopJumps.length = js := by
  rw [h.jumps, List.drop_left]

/-- An instruction that jumps out of a loop -/
theorem loopJump (h : Grew b b₁ []) (type : JumpType) {label : ℕ} (hlo : b.insns.length ≤ label)
    (hhi : label < b₁.insns.length) : Grew b (b₁.addLoopJump type label) [⟨type, label⟩] where
  le := h.le
  kept := h.kept
  jumps := by
    show b₁.loopJumps ++ _ = _
    rw [h.jumps, List.append_nil]
  labels j hj := by
    rw [List.mem_singleton.mp hj]
    exact ⟨hlo, hhi⟩
  distinct := List.nodup_singleton _

end Grew

/-! ### What is emitted lies as it should -/

/-- The targets of the jumps out of a loop that lie between `lo` and `hi` -/
structure Leads (f : ℕ → Option ℕ) (js : List LoopJump) (lo hi brk cont : ℕ) : Prop where
  jumps : ∀ j ∈ js, f j.label = some (j.type.target brk cont)
  others : ∀ i, lo ≤ i → i < hi → (∀ j ∈ js, j.label ≠ i) → f i = none

theorem Final.get_patched {i t : ℕ} {insn : Insn L} (h : Final code insns f lo hi) (hi₁ : lo ≤ i) (hi₂ : i < hi)
    (hinsn : insns[i]? = some insn) (hf : f i = some t) : code[i]? = some (insn.patch (distance i t)) := by
  rw [h i hi₁ hi₂, hinsn, hf]
  rfl

theorem Final.get {i : ℕ} {insn : Insn L} (h : Final code insns f lo hi) (hi₁ : lo ≤ i) (hi₂ : i < hi)
    (hinsn : insns[i]? = some insn) (hf : f i = none) : code[i]? = some insn := by
  rw [h i hi₁ hi₂, hinsn, hf]
  rfl

theorem targets_const (ls : List ℕ) (t i : ℕ) : targets (ls.map (·, t)) i = if i ∈ ls then some t else none := by
  induction ls with
  | nil => rfl
  | cons l ls ih =>
    show (targets (ls.map (·, t)) i).or _ = _
    rw [ih]
    by_cases hmem : i ∈ ls
    · simp [hmem]
    · by_cases heq : i = l
      · subst heq
        simp [hmem]
      · simp [hmem, heq]

/-- The jumps of a loop that is left -/
def exits (js : List LoopJump) (endLabel contLabel : ℕ) : List (ℕ × ℕ) :=
  js.map fun j => (j.label, j.type.target endLabel contLabel)

theorem targets_exits {endLabel contLabel : ℕ} (hdistinct : (js.map (·.label)).Nodup) {j : LoopJump} (hj : j ∈ js) :
    targets (exits js endLabel contLabel) j.label = some (j.type.target endLabel contLabel) := by
  have hkeys : (exits js endLabel contLabel).map Prod.fst = js.map (·.label) := by
    unfold exits
    rw [List.map_map]
    rfl
  have hnodup : ((exits js endLabel contLabel).map Prod.fst).Nodup := by
    rw [hkeys]
    exact hdistinct
  exact targets_mem hnodup (List.mem_map.mpr ⟨j, hj, rfl⟩)

theorem targets_exits_none {endLabel contLabel i : ℕ} (h : ∀ j ∈ js, j.label ≠ i) :
    targets (exits js endLabel contLabel) i = none := by
  apply targets_none
  intro p hp
  obtain ⟨j, hj, rfl⟩ := List.mem_map.mp hp
  exact h j hj

/-- The compiler emits code for the statement that lies as it should when its open jumps are patched. -/
def Lays (profitable : Stat L → ℕ → Bool) (p : Stat L) (env : Env L) (regTop : ℕ) (b b' : Builder L) : Prop :=
  ∃ js, Grew b b' js ∧ ∀ code f brk cont, Final code b'.insns f b.insns.length b'.insns.length →
    Leads f js b.insns.length b'.insns.length brk cont →
    Laid profitable code p env regTop b.insns.length b'.insns.length brk cont

/-- The code of a condition, with at most one jump -/
theorem condition_lays (c : L.Cond) (env : Env L) (onlyTruth : Bool) (b : Builder L) :
    ∃ b₁ ls, compileConditionValue c env onlyTruth b = (b₁, ls) ∧ Grew b b₁ [] ∧
      (∀ l ∈ ls, b.insns.length ≤ l ∧ l < b₁.insns.length) ∧ ls.length ≤ 1 ∧
      (ls.length > 0 ↔ L.truth c env.known = none ∨ L.truth c env.known = some onlyTruth) ∧
      ∀ code f target, Final code b₁.insns f b.insns.length b₁.insns.length →
        (∀ i, b.insns.length ≤ i → i < b₁.insns.length → f i = if i ∈ ls then some target else none) →
        LaidCondition code c env onlyTruth b.insns.length b₁.insns.length target := by
  have hlast : ∀ insn : Insn L, b.insns.length < (b.emit insn).insns.length := by
    intro insn
    rw [Builder.emit_length]
    exact Nat.lt_succ_self _
  have hcode : ∀ (insn : Insn L) code f target, Final code (b.emit insn).insns f b.insns.length (b.emit insn).insns.length →
      (∀ i, b.insns.length ≤ i → i < (b.emit insn).insns.length → f i = if i ∈ [b.insns.length] then some target else none) →
      code[b.insns.length]? = some (insn.patch (distance b.insns.length target)) := by
    intro insn code f target hfinal hf
    refine hfinal.get_patched le_rfl (hlast insn) (Builder.emit_last b insn) ?_
    rw [hf _ le_rfl (hlast insn), if_pos List.mem_cons_self]
  have hlabels : ∀ insn : Insn L, ∀ l ∈ [b.insns.length], b.insns.length ≤ l ∧ l < (b.emit insn).insns.length := by
    intro insn l hl
    rw [List.mem_singleton.mp hl]
    exact ⟨le_rfl, hlast insn⟩
  unfold compileConditionValue LaidCondition
  cases htruth : L.truth c env.known with
  | none =>
    refine ⟨_, _, rfl, (Grew.refl b).emit _, hlabels _, le_rfl, by simp, ?_⟩
    intro code f target hfinal hf
    exact ⟨hcode _ code f target hfinal hf, Builder.emit_length b _⟩
  | some v =>
    by_cases hv : v = onlyTruth
    · simp only [hv, if_true]
      refine ⟨_, _, rfl, (Grew.refl b).emit _, hlabels _, le_rfl, by simp, ?_⟩
      intro code f target hfinal hf
      exact ⟨hcode _ code f target hfinal hf, Builder.emit_length b _⟩
    · simp only [hv, if_false]
      refine ⟨_, _, rfl, Grew.refl b, fun l hl => absurd hl List.not_mem_nil, Nat.zero_le _, by simp [hv], ?_⟩
      intro code f target _ _
      trivial

section Statements

variable {profitable : Stat L → ℕ → Bool} {p q : Stat L} {env : Env L} {regTop : ℕ}

/-- The targets of a part -/
theorem Leads.sub {lo' hi' brk cont : ℕ} {js' : List LoopJump} (h : Leads f js lo hi brk cont) (hlo : lo ≤ lo')
    (hhi : hi' ≤ hi) (hsub : ∀ j ∈ js', j ∈ js) (hother : ∀ j ∈ js, j ∉ js' → j.label < lo' ∨ hi' ≤ j.label) :
    Leads f js' lo' hi' brk cont where
  jumps j hj := h.jumps j (hsub j hj)
  others i hi₁ hi₂ hnot := by
    refine h.others i (hlo.trans hi₁) (hi₂.trans_le hhi) fun j hj heq => ?_
    by_cases hj' : j ∈ js'
    · exact hnot j hj' heq
    · rcases hother j hj hj' with h | h <;> omega

theorem lays_seq (hp : ∀ b, Lays profitable p env regTop b (compileStat profitable p env regTop b))
    (hq : ∀ b, Lays profitable q env regTop b (compileStat profitable q env regTop b)) (b : Builder L) :
    Lays profitable (.seq p q) env regTop b (compileStat profitable (.seq p q) env regTop b) := by
  obtain ⟨js₁, hgrew₁, hlays₁⟩ := hp b
  rw [compileStat]
  by_cases hends : alwaysTerminates env.known p = true
  · rw [if_pos hends]
    refine ⟨js₁, hgrew₁, fun code f brk cont hfinal hleads => ?_⟩
    refine ⟨_, hlays₁ code f brk cont hfinal hleads, ?_⟩
    rw [if_pos hends]
  · rw [if_neg hends]
    obtain ⟨js₂, hgrew₂, hlays₂⟩ := hq (compileStat profitable p env regTop b)
    refine ⟨js₁ ++ js₂, hgrew₁.trans hgrew₂, fun code f brk cont hfinal hleads => ?_⟩
    refine ⟨_, hlays₁ code f brk cont ?_ ?_, ?_⟩
    · exact hfinal.sub le_rfl hgrew₂.le fun i _ hi => ⟨hgrew₂.kept i hi, rfl⟩
    · refine hleads.sub le_rfl hgrew₂.le (fun j hj => List.mem_append_left _ hj) fun j hj hnot => ?_
      rcases List.mem_append.mp hj with hj | hj
      · exact absurd hj hnot
      · exact Or.inr (hgrew₂.labels j hj).1
    · rw [if_neg hends]
      refine hlays₂ code f brk cont (hfinal.sub hgrew₁.le le_rfl fun i _ _ => ⟨rfl, rfl⟩) ?_
      refine hleads.sub hgrew₁.le le_rfl (fun j hj => List.mem_append_right _ hj) fun j hj hnot => ?_
      rcases List.mem_append.mp hj with hj | hj
      · exact Or.inl (hgrew₁.labels j hj).2
      · exact absurd hj hnot

theorem lays_atom (insn : Insn L) (b : Builder L) {code : List (Insn L)} {f : ℕ → Option ℕ} {brk cont : ℕ}
    (hfinal : Final code (b.emit insn).insns f b.insns.length (b.emit insn).insns.length)
    (hleads : Leads f [] b.insns.length (b.emit insn).insns.length brk cont) :
    code[b.insns.length]? = some insn ∧ (b.emit insn).insns.length = b.insns.length + 1 := by
  have hlt : b.insns.length < (b.emit insn).insns.length := by
    rw [Builder.emit_length]
    exact Nat.lt_succ_self _
  refine ⟨hfinal.get le_rfl hlt (Builder.emit_last b insn) ?_, Builder.emit_length b insn⟩
  exact hleads.others _ le_rfl hlt fun j hj => absurd hj List.not_mem_nil

/-- A single jump out of a loop -/
theorem lays_jump (type : JumpType) (b : Builder L) :
    Grew b ((b.emit (.jump 0)).addLoopJump type b.emitLabel) [⟨type, b.emitLabel⟩] ∧
      ∀ (code : List (Insn L)) f brk cont,
        Final code (b.emit (.jump 0)).insns f b.insns.length (b.emit (.jump 0)).insns.length →
        Leads f [⟨type, b.emitLabel⟩] b.insns.length (b.emit (.jump 0)).insns.length brk cont →
        code[b.insns.length]? = some (.jump (distance b.insns.length (type.target brk cont))) ∧
          (b.emit (.jump 0)).insns.length = b.insns.length + 1 := by
  have hlt : b.insns.length < (b.emit (.jump 0)).insns.length := by
    rw [Builder.emit_length]
    exact Nat.lt_succ_self _
  refine ⟨((Grew.refl b).emit _).loopJump type le_rfl hlt, fun code f brk cont hfinal hleads => ⟨?_, Builder.emit_length b _⟩⟩
  exact hfinal.get_patched le_rfl hlt (Builder.emit_last b _) (hleads.jumps _ List.mem_cons_self)

/-- The condition of a statement that only breaks or continues -/
theorem lays_short (c : L.Cond) (env : Env L) (type : JumpType) (b : Builder L) :
    ∃ js, Grew b (compileConditionJump c env type b) js ∧ ∀ (code : List (Insn L)) f brk cont,
      Final code (compileConditionJump c env type b).insns f b.insns.length
        (compileConditionJump c env type b).insns.length →
      Leads f js b.insns.length (compileConditionJump c env type b).insns.length brk cont →
      LaidCondition code c env true b.insns.length (compileConditionJump c env type b).insns.length
        (type.target brk cont) := by
  obtain ⟨b₁, ls, hcond, hgrew, hls, hfew, -, hlaid⟩ := condition_lays c env true b
  unfold compileConditionJump
  rw [hcond]
  rcases ls with - | ⟨l, ls⟩
  · refine ⟨[], hgrew, fun code f brk cont hfinal hleads => hlaid code f _ hfinal fun i hi₁ hi₂ => ?_⟩
    rw [if_neg List.not_mem_nil]
    exact hleads.others i hi₁ hi₂ fun j hj => absurd hj List.not_mem_nil
  · obtain rfl : ls = [] := List.length_eq_zero_iff.mp (by simpa using hfew)
    obtain ⟨hlo, hhi⟩ := hls l List.mem_cons_self
    refine ⟨_, hgrew.loopJump type hlo hhi, fun code f brk cont hfinal hleads => hlaid code f _ hfinal fun i hi₁ hi₂ => ?_⟩
    by_cases heq : i = l
    · subst heq
      rw [if_pos List.mem_cons_self]
      exact hleads.jumps _ List.mem_cons_self
    · rw [if_neg fun hmem => heq (List.mem_singleton.mp hmem)]
      refine hleads.others i hi₁ hi₂ fun j hj => ?_
      rw [List.mem_singleton.mp hj]
      exact fun h => heq h.symm

theorem lays_ifThen (c : L.Cond) (hp : ∀ b, Lays profitable p env regTop b (compileStat profitable p env regTop b))
    (b : Builder L) : Lays profitable (.ifThen c p) env regTop b (compileStat profitable (.ifThen c p) env regTop b) := by
  rw [compileStat]
  by_cases hfalse : isConstant c env.known false = true
  · rw [if_pos hfalse]
    refine ⟨[], Grew.refl b, fun code f brk cont _ _ => ?_⟩
    rw [Laid, if_pos hfalse]
  by_cases hbreak : (isStatBreak p && !L.areLocalsCaptured c) = true
  · rw [if_neg hfalse, if_pos hbreak]
    obtain ⟨js, hgrew, hlaid⟩ := lays_short c env .break b
    refine ⟨js, hgrew, fun code f brk cont hfinal hleads => ?_⟩
    rw [Laid, if_neg hfalse, if_pos hbreak]
    exact hlaid code f brk cont hfinal hleads
  by_cases hcontinue : (isStatContinue p && !L.areLocalsCaptured c) = true
  · rw [if_neg hfalse, if_neg hbreak, if_pos hcontinue]
    obtain ⟨js, hgrew, hlaid⟩ := lays_short c env .continue b
    refine ⟨js, hgrew, fun code f brk cont hfinal hleads => ?_⟩
    rw [Laid, if_neg hfalse, if_neg hbreak, if_pos hcontinue]
    exact hlaid code f brk cont hfinal hleads
  rw [if_neg hfalse, if_neg hbreak, if_neg hcontinue]
  obtain ⟨b₁, ls, hcond, hgrew₁, hls, -, -, hlaid⟩ := condition_lays c env false b
  obtain ⟨js, hgrew₂, hlays⟩ := hp b₁
  rw [hcond]
  show Lays profitable _ env regTop b (Builder.patchJumps _ ls _)
  rw [Builder.patchJumps_eq]
  have hkeys : ∀ r ∈ ls.map (·, (compileStat profitable p env regTop b₁).emitLabel), b.insns.length ≤ r.1 := by
    intro r hr
    obtain ⟨l, hl, rfl⟩ := List.mem_map.mp hr
    exact (hls l hl).1
  have hlength : ∀ ps : List (ℕ × ℕ), ((compileStat profitable p env regTop b₁).patchAll ps).insns.length =
      (compileStat profitable p env regTop b₁).insns.length := Builder.patchAll_length _
  refine ⟨js, (hgrew₁.trans hgrew₂).patchAll hkeys, fun code f brk cont hfinal hleads => ?_⟩
  have hfinal' := hfinal.of_patchAll
  rw [hlength] at hfinal' hleads ⊢
  rw [Laid, if_neg hfalse, if_neg hbreak, if_neg hcontinue]
  refine ⟨_, hlaid code _ _ (hfinal'.sub le_rfl hgrew₂.le fun i _ hi => ⟨hgrew₂.kept i hi, rfl⟩) ?_, ?_⟩
  · intro i hi₁ hi₂
    have hnone : f i = none := hleads.others i hi₁ (hi₂.trans_le hgrew₂.le) fun j hj heq => by
      have := (hgrew₂.labels j hj).1
      omega
    rw [hnone, targets_const]
    rfl
  · have hsame : ∀ i, b₁.insns.length ≤ i →
        (f i).or (targets (ls.map (·, (compileStat profitable p env regTop b₁).emitLabel)) i) = f i := by
      intro i hi
      have hnot : i ∉ ls := fun hmem => absurd (hls i hmem).2 (by omega)
      rw [targets_const, if_neg hnot, Option.or_none]
    refine hlays code f brk cont (hfinal'.sub hgrew₁.le le_rfl fun i hi _ => ⟨rfl, hsame i hi⟩) ?_
    exact hleads.sub hgrew₁.le le_rfl (fun j hj => hj) fun j hj hnot => absurd hj hnot

/-- The code of the condition and of two branches: `ls` are the jumps to the second branch, and between the branches
    there may be a jump to the end. -/
theorem laid_branches {c : L.Cond} {b₃ b₄ : Builder L} {ls : List ℕ} {elseLabel brk cont : ℕ} {skip : List (ℕ × ℕ)}
    (hgrew₁ : Grew b b₁ []) (hls : ∀ l ∈ ls, b.insns.length ≤ l ∧ l < b₁.insns.length) (hgrew₂ : Grew b₁ b₂ js₁)
    (hgrew₃ : Grew b₂ b₃ []) (hgrew₄ : Grew b₃ b₄ js₂)
    (hskip : ∀ r ∈ skip, b₂.insns.length ≤ r.1 ∧ r.1 < b₃.insns.length)
    (hcond : ∀ f, Final code b₁.insns f b.insns.length b₁.insns.length →
      (∀ i, b.insns.length ≤ i → i < b₁.insns.length → f i = if i ∈ ls then some elseLabel else none) →
      LaidCondition code c env false b.insns.length b₁.insns.length elseLabel)
    (hfirst : ∀ f, Final code b₂.insns f b₁.insns.length b₂.insns.length →
      Leads f js₁ b₁.insns.length b₂.insns.length brk cont →
      Laid profitable code p env regTop b₁.insns.length b₂.insns.length brk cont)
    (hsecond : ∀ f, Final code b₄.insns f b₃.insns.length b₄.insns.length →
      Leads f js₂ b₃.insns.length b₄.insns.length brk cont →
      Laid profitable code q env regTop b₃.insns.length b₄.insns.length brk cont)
    (hfinal : Final code (b₄.patchAll (ls.map (·, elseLabel) ++ skip)).insns f b.insns.length b₄.insns.length)
    (hleads : Leads f (js₁ ++ js₂) b.insns.length b₄.insns.length brk cont) :
    LaidCondition code c env false b.insns.length b₁.insns.length elseLabel ∧
      Laid profitable code p env regTop b₁.insns.length b₂.insns.length brk cont ∧
      Final code b₃.insns (targets skip) b₂.insns.length b₃.insns.length ∧
      Laid profitable code q env regTop b₃.insns.length b₄.insns.length brk cont := by
  have hle₁ := hgrew₁.le
  have hle₂ := hgrew₂.le
  have hle₃ := hgrew₃.le
  have hle₄ := hgrew₄.le
  have hfinal := hfinal.of_patchAll
  have hkept : ∀ i, i < b₃.insns.length → b₄.insns[i]? = b₃.insns[i]? := hgrew₄.kept
  have htargets : ∀ i, targets (ls.map (·, elseLabel) ++ skip) i =
      (targets skip i).or (if i ∈ ls then some elseLabel else none) := by
    intro i
    rw [targets_append, targets_const]
  have hnotls : ∀ i, b₁.insns.length ≤ i → i ∉ ls := fun i hi hmem => absurd (hls i hmem).2 (by omega)
  have hnotskip : ∀ i, i < b₂.insns.length ∨ b₃.insns.length ≤ i → targets skip i = none := by
    intro i hi
    refine targets_none fun r hr heq => ?_
    have := hskip r hr
    omega
  have hnotjs : ∀ i, b.insns.length ≤ i → i < b₁.insns.length ∨ b₂.insns.length ≤ i ∧ i < b₃.insns.length → f i = none := by
    intro i hlo hi
    refine hleads.others i hlo (by omega) fun j hj heq => ?_
    rcases List.mem_append.mp hj with hj | hj
    · have := hgrew₂.labels j hj
      omega
    · have := hgrew₄.labels j hj
      omega
  refine ⟨hcond _ (hfinal.sub le_rfl (by omega) fun i _ hi => ⟨?_, rfl⟩) fun i hi₁ hi₂ => ?_,
    hfirst f (hfinal.sub hle₁ (by omega) fun i hi₁ hi₂ => ⟨?_, ?_⟩) ?_,
    hfinal.sub (by omega) (by omega) fun i hi₁ hi₂ => ⟨hkept i hi₂, ?_⟩,
    hsecond f (hfinal.sub (by omega) le_rfl fun i hi₁ hi₂ => ⟨rfl, ?_⟩) ?_⟩
  · rw [hkept i (by omega), hgrew₃.kept i (by omega), hgrew₂.kept i hi]
  · rw [hnotjs i hi₁ (Or.inl hi₂), htargets, hnotskip i (Or.inl (by omega))]
    rfl
  · rw [hkept i (by omega), hgrew₃.kept i hi₂]
  · rw [htargets, hnotskip i (Or.inl hi₂), if_neg (hnotls i hi₁)]
    exact Option.or_none
  · refine hleads.sub hle₁ (by omega) (fun j hj => List.mem_append_left _ hj) fun j hj hnot => ?_
    rcases List.mem_append.mp hj with hj | hj
    · exact absurd hj hnot
    · have := (hgrew₄.labels j hj).1
      exact Or.inr (by omega)
  · rw [hnotjs i (by omega) (Or.inr ⟨hi₁, hi₂⟩), htargets, if_neg (hnotls i (by omega)), Option.or_none]
    rfl
  · rw [htargets, hnotskip i (Or.inr hi₁), if_neg (hnotls i (by omega))]
    exact Option.or_none
  · refine hleads.sub (by omega) le_rfl (fun j hj => List.mem_append_right _ hj) fun j hj hnot => ?_
    rcases List.mem_append.mp hj with hj | hj
    · have := (hgrew₂.labels j hj).2
      exact Or.inl (by omega)
    · exact absurd hj hnot

theorem lays_ifElse (c : L.Cond) (hp : ∀ b, Lays profitable p env regTop b (compileStat profitable p env regTop b))
    (hq : ∀ b, Lays profitable q env regTop b (compileStat profitable q env regTop b)) (b : Builder L) :
    Lays profitable (.ifElse c p q) env regTop b (compileStat profitable (.ifElse c p q) env regTop b) := by
  rw [compileStat]
  by_cases hfalse : isConstant c env.known false = true
  · rw [if_pos hfalse]
    obtain ⟨js, hgrew, hlays⟩ := hq b
    refine ⟨js, hgrew, fun code f brk cont hfinal hleads => ?_⟩
    rw [Laid, if_pos hfalse]
    exact hlays code f brk cont hfinal hleads
  rw [if_neg hfalse]
  obtain ⟨b₁, ls, hcond, hgrew₁, hls, -, hjumps, hlaid⟩ := condition_lays c env false b
  obtain ⟨js₁, hgrew₂, hlays₁⟩ := hp b₁
  rw [hcond]
  dsimp only
  generalize hb₂ : compileStat profitable p env regTop b₁ = b₂ at hgrew₂ hlays₁
  by_cases htrue : isConstant c env.known true = true
  · have htruth : L.truth c env.known = some true := of_decide_eq_true htrue
    have hempty : ls = [] := by
      rw [htruth] at hjumps
      simpa using hjumps
    rw [hempty] at hlaid ⊢
    refine ⟨js₁, hgrew₁.trans hgrew₂, fun code f brk cont hfinal hleads => ?_⟩
    have hsame : b₁.insns.length = b.insns.length := by
      have hno : ∀ i, i < b₁.insns.length → ∀ j ∈ js₁, j.label ≠ i := by
        intro i hi j hj heq
        have := (hgrew₂.labels j hj).1
        omega
      have := hlaid code f 0 (hfinal.sub le_rfl hgrew₂.le fun i _ hi => ⟨hgrew₂.kept i hi, rfl⟩) fun i hi₁ hi₂ =>
        (hleads.others i hi₁ (hi₂.trans_le hgrew₂.le) (hno i hi₂)).trans (if_neg List.not_mem_nil).symm
      unfold LaidCondition at this
      rw [htruth] at this
      simpa using this
    rw [Laid, if_neg hfalse, if_pos htrue]
    rw [hsame] at hlays₁
    exact hlays₁ code f brk cont hfinal hleads
  have hnone : L.truth c env.known = none := by
    cases htruth : L.truth c env.known with
    | none => rfl
    | some v =>
      cases v with
      | true => exact absurd (decide_eq_true htruth) htrue
      | false => exact absurd (decide_eq_true htruth) hfalse
  rw [if_pos (hjumps.mpr (Or.inl hnone))]
  have hkeys : ∀ t : ℕ, ∀ r ∈ ls.map (·, t), b.insns.length ≤ r.1 := by
    intro t r hr
    obtain ⟨l, hl, rfl⟩ := List.mem_map.mp hr
    exact (hls l hl).1
  have hle₂ := hgrew₁.le.trans hgrew₂.le
  by_cases hends : alwaysTerminates env.known p = true
  · rw [if_pos hends]
    obtain ⟨js₂, hgrew₄, hlays₂⟩ := hq b₂
    generalize hb₄ : compileStat profitable q env regTop b₂ = b₄ at hgrew₄ hlays₂
    rw [Builder.patchJumps_eq]
    refine ⟨js₁ ++ js₂, ((hgrew₁.trans hgrew₂).trans hgrew₄).patchAll (hkeys _), fun code f brk cont hfinal hleads => ?_⟩
    have hlength : (b₄.patchAll (ls.map (·, b₂.emitLabel))).insns.length = b₄.insns.length := Builder.patchAll_length _ _
    rw [hlength] at hfinal hleads ⊢
    rw [← List.append_nil (ls.map _)] at hfinal
    obtain ⟨hcond, hfirst, -, hsecond⟩ := laid_branches hgrew₁ hls hgrew₂ (Grew.refl b₂) hgrew₄
      (fun r hr => absurd hr List.not_mem_nil) (fun f => hlaid code f _) (fun f => hlays₁ code f brk cont)
      (fun f => hlays₂ code f brk cont) hfinal hleads
    rw [Laid, if_neg hfalse, if_neg htrue]
    refine ⟨_, _, _, hcond, hfirst, ?_, hsecond⟩
    rw [if_pos hends]
    rfl
  · rw [if_neg hends]
    obtain ⟨js₂, hgrew₄, hlays₂⟩ := hq (b₂.emit (.jump 0))
    have hgrew₃ : Grew b₂ (b₂.emit (.jump 0)) [] := (Grew.refl b₂).emit _
    have hlen₃ : (b₂.emit (.jump 0)).insns.length = b₂.insns.length + 1 := Builder.emit_length b₂ _
    have hlast : (b₂.emit (.jump 0)).insns[b₂.insns.length]? = some (.jump 0) := Builder.emit_last b₂ _
    generalize hb₃ : b₂.emit (.jump 0) = b₃ at hgrew₃ hgrew₄ hlays₂ hlen₃ hlast
    generalize hb₄ : compileStat profitable q env regTop b₃ = b₄ at hgrew₄ hlays₂
    rw [Builder.patchJumps_eq, Builder.patchJump_eq, ← Builder.patchAll_append]
    have hgrew : Grew b b₄ (js₁ ++ js₂) := by
      have := ((hgrew₁.trans hgrew₂).trans hgrew₃).trans hgrew₄
      rwa [List.append_nil] at this
    refine ⟨js₁ ++ js₂, hgrew.patchAll fun r hr => ?_, fun code f brk cont hfinal hleads => ?_⟩
    · rcases List.mem_append.mp hr with hr | hr
      · exact hkeys _ r hr
      · rw [List.mem_singleton.mp hr]
        exact hle₂
    have hlength : (b₄.patchAll (ls.map (·, b₃.emitLabel) ++ [(b₂.emitLabel, b₄.emitLabel)])).insns.length =
        b₄.insns.length := Builder.patchAll_length _ _
    rw [hlength] at hfinal hleads ⊢
    have hskip : ∀ r ∈ [(b₂.emitLabel, b₄.emitLabel)], b₂.insns.length ≤ r.1 ∧ r.1 < b₃.insns.length := by
      intro r hr
      rw [List.mem_singleton.mp hr]
      exact ⟨le_rfl, by show b₂.insns.length < _; omega⟩
    obtain ⟨hcond, hfirst, hjump, hsecond⟩ := laid_branches hgrew₁ hls hgrew₂ hgrew₃ hgrew₄ hskip
      (fun f => hlaid code f _) (fun f => hlays₁ code f brk cont) (fun f => hlays₂ code f brk cont) hfinal hleads
    rw [Laid, if_neg hfalse, if_neg htrue]
    refine ⟨_, _, _, hcond, hfirst, ?_, hsecond⟩
    rw [if_neg hends]
    refine ⟨hjump.get_patched le_rfl (by omega) hlast ?_, hlen₃⟩
    show (none : Option ℕ).or (if b₂.insns.length = b₂.insns.length then _ else _) = _
    rw [if_pos rfl]
    rfl

/-- All jumps of a loop are patched, so that its code is final. -/
theorem Final.closed (h : Final code (b.patchAll ps).insns f lo hi) (hf : ∀ i, lo ≤ i → i < hi → f i = none) :
    Final code b.insns (targets ps) lo hi :=
  h.of_patchAll.sub le_rfl le_rfl fun i hi₁ hi₂ => ⟨rfl, by rw [hf i hi₁ hi₂]; rfl⟩

theorem close_loop (h : Grew b b₁ js) (ps : List (ℕ × ℕ)) (endLabel contLabel : ℕ) :
    (b₁.patchAll ps).patchLoopJumps b.loopJumps.length endLabel contLabel =
      b₁.patchAll (ps ++ exits js endLabel contLabel) := by
  rw [Builder.patchLoopJumps_eq, Builder.patchAll_loopJumps, h.drop, Builder.patchAll_append]
  rfl

/-- The code of a loop, all of whose jumps are patched -/
theorem lays_closed (hgrew : Grew b b₁ js) (hkeys : ∀ r ∈ ps, b.insns.length ≤ r.1)
    (hlaid : ∀ code brk cont, Final code b₁.insns (targets ps) b.insns.length b₁.insns.length →
      Laid profitable code p env regTop b.insns.length b₁.insns.length brk cont) :
    Lays profitable p env regTop b ((b₁.patchAll ps).resizeJumps b.loopJumps.length) := by
  refine ⟨[], (hgrew.patchAll hkeys).resize, fun code f brk cont hfinal hleads => ?_⟩
  have hlength : ((b₁.patchAll ps).resizeJumps b.loopJumps.length).insns.length = b₁.insns.length :=
    Builder.patchAll_length b₁ ps
  rw [hlength] at hfinal hleads ⊢
  refine hlaid code brk cont (Final.closed hfinal fun i hi₁ hi₂ => ?_)
  exact hleads.others i hi₁ hi₂ fun j hj => absurd hj List.not_mem_nil

theorem targets_left {endLabel contLabel i : ℕ} (h : ∀ j ∈ js, j.label ≠ i) :
    targets (ps ++ exits js endLabel contLabel) i = targets ps i := by
  rw [targets_append, targets_exits_none h]
  rfl

/-- The jumps of a body are patched by the loop around it. -/
theorem leads_exits {endLabel contLabel : ℕ} (hdistinct : (js.map (·.label)).Nodup)
    (hps : ∀ r ∈ ps, r.1 < lo ∨ hi ≤ r.1) :
    Leads (targets (ps ++ exits js endLabel contLabel)) js lo hi endLabel contLabel where
  jumps j hj := by
    rw [targets_append, targets_exits hdistinct hj]
    rfl
  others i hi₁ hi₂ hnot := by
    rw [targets_left hnot]
    refine targets_none fun r hr heq => ?_
    rcases hps r hr with h | h <;> omega

theorem lays_while (c : L.Cond) (hp : ∀ b, Lays profitable p env regTop b (compileStat profitable p env regTop b))
    (b : Builder L) : Lays profitable (.while c p) env regTop b (compileStat profitable (.while c p) env regTop b) := by
  rw [compileStat]
  by_cases hfalse : isConstant c env.known false = true
  · rw [if_pos hfalse]
    refine ⟨[], Grew.refl b, fun code f brk cont _ _ => ?_⟩
    rw [Laid, if_pos hfalse]
  rw [if_neg hfalse]
  obtain ⟨b₁, ls, hcond, hgrew₁, hls, -, -, hlaid⟩ := condition_lays c env false b
  obtain ⟨js, hgrew₂, hlays⟩ := hp b₁
  rw [hcond]
  generalize hb₂ : compileStat profitable p env regTop b₁ = b₂ at hgrew₂ hlays
  have hgrew : Grew b (b₂.emit (.jump 0)) js := (hgrew₁.trans hgrew₂).emit _
  have hlast : (b₂.emit (.jump 0)).insns.length = b₂.insns.length + 1 := Builder.emit_length b₂ _
  show Lays profitable _ env regTop b (Builder.resizeJumps (Builder.patchLoopJumps (Builder.patchJumps
    (Builder.patchJump ((compileStat profitable p env regTop b₁).emit _) _ _) ls _) _ _ _) _)
  rw [hb₂, Builder.patchJump_eq, Builder.patchJumps_eq, ← Builder.patchAll_append, close_loop hgrew]
  have hle₁ := hgrew₁.le
  have hle₂ := hgrew₂.le
  refine lays_closed hgrew ?_ fun code brk cont hfinal => ?_
  · intro r hr
    rcases List.mem_append.mp hr with hr | hr
    · rcases List.mem_cons.mp hr with rfl | hr
      · exact hle₁.trans hle₂
      · obtain ⟨l, hl, rfl⟩ := List.mem_map.mp hr
        exact (hls l hl).1
    · obtain ⟨j, hj, rfl⟩ := List.mem_map.mp hr
      exact (hgrew.labels j hj).1
  rw [Laid, if_neg hfalse]
  have hend : (b₂.emit (.jump 0)).emitLabel = b₂.insns.length + 1 := hlast
  rw [hlast, hend] at hfinal
  rw [hlast]
  have hjs : ∀ i, i < b₁.insns.length ∨ b₂.insns.length ≤ i → ∀ j ∈ js, j.label ≠ i := by
    intro i hi j hj heq
    have := hgrew₂.labels j hj
    omega
  refine ⟨b₁.insns.length, b₂.insns.length, hlaid code _ _ (hfinal.sub le_rfl (by omega) fun i _ hi => ⟨?_, rfl⟩) ?_,
    hlays code _ _ _ (hfinal.sub hle₁ (by omega) fun i _ hi => ⟨Builder.emit_get _ hi, rfl⟩)
      (leads_exits hgrew₂.distinct ?_), ?_, rfl⟩
  · rw [Builder.emit_get _ (by omega), hgrew₂.kept i hi]
  · intro i hi₁ hi₂
    have hback : i ≠ b₂.insns.length := by omega
    rw [targets_left (hjs i (Or.inl hi₂)), targets_append, targets_const]
    show Option.or (if i ∈ ls then _ else _) (if i = b₂.insns.length then _ else _) = _
    rw [if_neg hback, Option.or_none]
  · intro r hr
    rcases List.mem_cons.mp hr with rfl | hr
    · exact Or.inr le_rfl
    · obtain ⟨l, hl, rfl⟩ := List.mem_map.mp hr
      exact Or.inl (hls l hl).2
  · refine hfinal.get_patched (hle₁.trans hle₂) (Nat.lt_succ_self _) (Builder.emit_last b₂ _) ?_
    have hback : b₂.insns.length ∉ ls := fun hmem => absurd (hls _ hmem).2 (by omega)
    rw [targets_left (hjs _ (Or.inr le_rfl)), targets_append, targets_const, if_neg hback]
    show (none : Option ℕ).or (if b₂.insns.length = b₂.insns.length then _ else _) = _
    rw [if_pos rfl]
    rfl

theorem lays_repeat (c : L.Cond) (hp : ∀ b, Lays profitable p env regTop b (compileStat profitable p env regTop b))
    (b : Builder L) : Lays profitable (.repeat p c) env regTop b (compileStat profitable (.repeat p c) env regTop b) := by
  obtain ⟨js, hgrew₁, hlays⟩ := hp b
  rw [compileStat]
  generalize hb₁ : compileStat profitable p env regTop b = b₁ at hgrew₁ hlays
  have hle₁ := hgrew₁.le
  have hexits : ∀ endLabel contLabel, ∀ r ∈ exits js endLabel contLabel, b.insns.length ≤ r.1 := by
    intro endLabel contLabel r hr
    obtain ⟨j, hj, rfl⟩ := List.mem_map.mp hr
    exact (hgrew₁.labels j hj).1
  by_cases htrue : isConstant c env.known true = true
  · rw [if_pos htrue]
    show Lays profitable _ env regTop b (Builder.resizeJumps (Builder.patchLoopJumps (b₁.patchAll []) _ _ _) _)
    rw [close_loop hgrew₁]
    refine lays_closed hgrew₁ (hexits _ _) fun code brk cont hfinal => ?_
    rw [Laid]
    refine ⟨_, hlays code _ _ _ hfinal (leads_exits hgrew₁.distinct fun r hr => absurd hr List.not_mem_nil), ?_⟩
    rw [if_pos htrue]
  rw [if_neg htrue]
  obtain ⟨b₂, ls, hcond, hgrew₂, hls, -, -, hlaid⟩ := condition_lays c env true b₁
  rw [hcond]
  have hgrew : Grew b (b₂.emit (.jump 0)) js := by
    have := (hgrew₁.trans hgrew₂).emit (.jump 0)
    rwa [List.append_nil] at this
  have hend : (b₂.emit (.jump 0)).emitLabel = b₂.insns.length + 1 := Builder.emit_length b₂ _
  have hlast : (b₂.emit (.jump 0)).insns.length = b₂.insns.length + 1 := Builder.emit_length b₂ _
  show Lays profitable _ env regTop b (Builder.resizeJumps (Builder.patchLoopJumps (Builder.patchJumps
    (Builder.patchJump (b₂.emit _) _ _) ls _) _ _ _) _)
  rw [Builder.patchJump_eq, Builder.patchJumps_eq, ← Builder.patchAll_append, close_loop hgrew, hend]
  have hle₂ := hgrew₂.le
  refine lays_closed hgrew ?_ fun code brk cont hfinal => ?_
  · intro r hr
    rcases List.mem_append.mp hr with hr | hr
    · rcases List.mem_cons.mp hr with rfl | hr
      · exact hle₁.trans hle₂
      · obtain ⟨l, hl, rfl⟩ := List.mem_map.mp hr
        exact hle₁.trans (hls l hl).1
    · exact hexits _ _ r hr
  rw [Laid]
  rw [hlast] at hfinal ⊢
  have hjs : ∀ i, b₁.insns.length ≤ i → ∀ j ∈ js, j.label ≠ i := by
    intro i hi j hj heq
    have := (hgrew₁.labels j hj).2
    omega
  refine ⟨b₁.insns.length, hlays code _ _ _ (hfinal.sub le_rfl (by omega) fun i _ hi => ⟨?_, rfl⟩)
    (leads_exits hgrew₁.distinct ?_), ?_⟩
  · rw [Builder.emit_get _ (by omega), hgrew₂.kept i hi]
  · intro r hr
    rcases List.mem_cons.mp hr with rfl | hr
    · exact Or.inr hle₂
    · obtain ⟨l, hl, rfl⟩ := List.mem_map.mp hr
      exact Or.inr (hls l hl).1
  rw [if_neg htrue]
  refine ⟨b₂.insns.length, hlaid code _ _ (hfinal.sub hle₁ (by omega) fun i _ hi => ⟨Builder.emit_get _ hi, rfl⟩) ?_,
    ?_, rfl⟩
  · intro i hi₁ hi₂
    have hback : i ≠ b₂.insns.length := by omega
    rw [targets_left (hjs i hi₁), targets_append, targets_const]
    show Option.or (if i ∈ ls then _ else _) (if i = b₂.insns.length then _ else _) = _
    rw [if_neg hback, Option.or_none]
  · refine hfinal.get_patched (hle₁.trans hle₂) (Nat.lt_succ_self _) (Builder.emit_last b₂ _) ?_
    have hback : b₂.insns.length ∉ ls := fun hmem => absurd (hls _ hmem).2 (by omega)
    rw [targets_left (hjs _ hle₂), targets_append, targets_const, if_neg hback]
    show (none : Option ℕ).or (if b₂.insns.length = b₂.insns.length then _ else _) = _
    rw [if_pos rfl]
    rfl

/-- Loops whose first and last instructions jump to each other, or past the end -/
theorem targets_ends {first last : ℕ} (t t' : ℕ) (hne : first ≠ last) :
    targets [(first, t), (last, t')] first = some t ∧ targets [(first, t), (last, t')] last = some t' := by
  unfold targets targets targets
  simp [hne, hne.symm]

theorem lays_forIn (g : L.Generator) (hp : ∀ b, Lays profitable p env regTop b (compileStat profitable p env regTop b))
    (b : Builder L) : Lays profitable (.forIn g p) env regTop b (compileStat profitable (.forIn g p) env regTop b) := by
  rw [compileStat]
  obtain ⟨js, hgrew₂, hlays⟩ := hp (b.emit (.forgprep g env 0))
  generalize hb₁ : b.emit (.forgprep g env 0) = b₁ at hgrew₂ hlays
  have hgrew₁ : Grew b b₁ [] := by
    rw [← hb₁]
    exact (Grew.refl b).emit _
  have hfirst : b₁.insns.length = b.insns.length + 1 := by
    rw [← hb₁]
    exact Builder.emit_length b _
  have hinsn : b₁.insns[b.insns.length]? = some (.forgprep g env 0) := by
    rw [← hb₁]
    exact Builder.emit_last b _
  generalize hb₂ : compileStat profitable p env regTop b₁ = b₂ at hgrew₂ hlays
  have hgrew : Grew b (b₂.emit (.forgloop g env 0)) js := (hgrew₁.trans hgrew₂).emit _
  have hend : (b₂.emit (.forgloop g env 0)).emitLabel = b₂.insns.length + 1 := Builder.emit_length b₂ _
  have hlast : (b₂.emit (.forgloop g env 0)).insns.length = b₂.insns.length + 1 := Builder.emit_length b₂ _
  rw [Builder.patchJump_eq, Builder.patchJump_eq, ← Builder.patchAll_append, close_loop hgrew, hend]
  have hle₂ := hgrew₂.le
  refine lays_closed hgrew ?_ fun code brk cont hfinal => ?_
  · intro r hr
    rcases List.mem_append.mp hr with hr | hr
    · rcases List.mem_cons.mp hr with rfl | hr
      · exact le_rfl
      · rw [List.mem_singleton.mp hr]
        exact hgrew₁.le.trans hle₂
    · obtain ⟨j, hj, rfl⟩ := List.mem_map.mp hr
      exact (hgrew.labels j hj).1
  rw [Laid]
  rw [hlast] at hfinal ⊢
  have hjs : ∀ i, i < b₁.insns.length ∨ b₂.insns.length ≤ i → ∀ j ∈ js, j.label ≠ i := by
    intro i hi j hj heq
    have := hgrew₂.labels j hj
    omega
  have hends := targets_ends b₂.insns.length b₁.insns.length
    (show b.insns.length ≠ b₂.insns.length by omega)
  rw [← hfirst]
  refine ⟨b₂.insns.length, ?_, hlays code _ _ _ (hfinal.sub (by omega) (by omega) fun i _ hi =>
    ⟨Builder.emit_get _ hi, rfl⟩) (leads_exits hgrew₂.distinct ?_), ?_, rfl⟩
  · have hget : (b₂.emit (.forgloop g env 0)).insns[b.insns.length]? = some (.forgprep g env 0) := by
      rw [Builder.emit_get _ (by omega), hgrew₂.kept _ (by omega), hinsn]
    exact hfinal.get_patched le_rfl (by omega) hget ((targets_left (hjs _ (Or.inl (by omega)))).trans hends.1)
  · intro r hr
    rcases List.mem_cons.mp hr with rfl | hr
    · exact Or.inl (by show b.insns.length < _; omega)
    · rw [List.mem_singleton.mp hr]
      exact Or.inr le_rfl
  · exact hfinal.get_patched (by omega) (Nat.lt_succ_self _) (Builder.emit_last b₂ _)
      ((targets_left (hjs _ (Or.inr le_rfl))).trans hends.2)

/-! ### Unrolled loops -/

/-- The jumps of one type, all with the same target -/
def typed (js : List LoopJump) (type : JumpType) (target : ℕ) : List (ℕ × ℕ) :=
  (js.filter (·.type = type)).map fun j => (j.label, target)

theorem targets_typed {type : JumpType} {t : ℕ} (hdistinct : (js.map (·.label)).Nodup) {j : LoopJump} (hj : j ∈ js) :
    targets (typed js type t) j.label = if j.type = type then some t else none := by
  by_cases htype : j.type = type
  · have hkeys : (typed js type t).map Prod.fst = (js.filter (·.type = type)).map (·.label) := by
      unfold typed
      rw [List.map_map]
      rfl
    have hnodup : ((typed js type t).map Prod.fst).Nodup := by
      rw [hkeys]
      exact hdistinct.sublist (List.filter_sublist.map _)
    rw [if_pos htype]
    exact targets_mem hnodup (List.mem_map.mpr ⟨j, List.mem_filter.mpr ⟨hj, decide_eq_true htype⟩, rfl⟩)
  · rw [if_neg htype]
    refine targets_none fun r hr heq => ?_
    obtain ⟨j', hj', rfl⟩ := List.mem_map.mp hr
    obtain ⟨hmem, htype'⟩ := List.mem_filter.mp hj'
    have hsame := List.inj_on_of_nodup_map hdistinct hmem hj heq
    rw [hsame] at htype'
    exact htype (of_decide_eq_true htype')

theorem targets_typed_none {type : JumpType} {t i : ℕ} (h : ∀ j ∈ js, j.label ≠ i) :
    targets (typed js type t) i = none := by
  refine targets_none fun r hr => ?_
  obtain ⟨j, hj, rfl⟩ := List.mem_map.mp hr
  exact h j (List.mem_of_mem_filter hj)

theorem typed_keys {type : JumpType} {t : ℕ} (h : Grew b b₁ js) : ∀ r ∈ typed js type t, b.insns.length ≤ r.1 := by
  intro r hr
  obtain ⟨j, hj, rfl⟩ := List.mem_map.mp hr
  exact (h.labels j (List.mem_of_mem_filter hj)).1

/-- The `continue` jumps of every copy are patched with its end; the `break` jumps of all copies are left open. -/
theorem lays_copies {compileBody : Number → Builder L → Builder L}
    {LaidBody : List (Insn L) → Number → ℕ → ℕ → ℕ → ℕ → Prop}
    (hbody : ∀ v b, ∃ js, Grew b (compileBody v b) js ∧ ∀ code f brk cont,
      Final code (compileBody v b).insns f b.insns.length (compileBody v b).insns.length →
      Leads f js b.insns.length (compileBody v b).insns.length brk cont →
      LaidBody code v b.insns.length (compileBody v b).insns.length brk cont)
    (vs : List Number) (b : Builder L) :
    ∃ js, Grew b (compileCopies compileBody vs b) js ∧ ∀ code f endLabel,
      Final code (compileCopies compileBody vs b).insns f b.insns.length
        (compileCopies compileBody vs b).insns.length →
      (∀ j ∈ js, f j.label = if j.type = .break then some endLabel else none) →
      (∀ i, b.insns.length ≤ i → i < (compileCopies compileBody vs b).insns.length → (∀ j ∈ js, j.label ≠ i) →
        f i = none) →
      LaidCopies (LaidBody code) endLabel vs b.insns.length (compileCopies compileBody vs b).insns.length := by
  induction vs generalizing b with
  | nil => exact ⟨[], Grew.refl b, fun code f endLabel _ _ _ => rfl⟩
  | cons v vs ih =>
    obtain ⟨js₁, hgrew₁, hlays₁⟩ := hbody v b
    rw [compileCopies]
    generalize hb₁ : compileBody v b = b₁ at hgrew₁ hlays₁
    have hpatch : b₁.patchType b.loopJumps.length .continue b₁.emitLabel =
        b₁.patchAll (typed js₁ .continue b₁.emitLabel) := by
      rw [Builder.patchType_eq, hgrew₁.drop]
      rfl
    have hkeys : ∀ r ∈ typed js₁ .continue b₁.emitLabel, b.insns.length ≤ r.1 := typed_keys hgrew₁
    have hgrew₁' := hgrew₁.patchAll hkeys
    rw [hpatch]
    obtain ⟨js₂, hgrew₂, hlays₂⟩ := ih (b₁.patchAll (typed js₁ .continue b₁.emitLabel))
    have hlength : (b₁.patchAll (typed js₁ .continue b₁.emitLabel)).insns.length = b₁.insns.length :=
      Builder.patchAll_length _ _
    generalize hb' : compileCopies compileBody vs _ = b' at hgrew₂ hlays₂
    have hle₁ := hgrew₁.le
    have hle₂ := hgrew₂.le
    rw [hlength] at hle₂
    have hlow : ∀ i, i < b₁.insns.length → ∀ j ∈ js₂, j.label ≠ i := by
      intro i hi j hj heq
      have := (hgrew₂.labels j hj).1
      omega
    refine ⟨js₁ ++ js₂, hgrew₁'.trans hgrew₂, fun code f endLabel hfinal hjumps hothers => ?_⟩
    have hfinal₁ : Final code (b₁.patchAll (typed js₁ .continue b₁.emitLabel)).insns f b.insns.length b₁.insns.length :=
      hfinal.sub le_rfl hle₂ fun i _ hi => ⟨hgrew₂.kept i (by omega), rfl⟩
    refine ⟨b₁.insns.length, hlays₁ code _ endLabel _ hfinal₁.of_patchAll ⟨?_, ?_⟩, ?_⟩
    · intro j hj
      rw [hjumps j (List.mem_append_left _ hj), targets_typed hgrew₁.distinct hj]
      cases j.type <;> rfl
    · intro i hi₁ hi₂ hnot
      rw [targets_typed_none hnot, Option.or_none]
      refine hothers i hi₁ (by omega) fun j hj => ?_
      rcases List.mem_append.mp hj with hj | hj
      · exact hnot j hj
      · exact hlow i hi₂ j hj
    · have := hlays₂ code f endLabel (hfinal.sub (by omega) le_rfl fun _ _ _ => ⟨rfl, rfl⟩)
        (fun j hj => hjumps j (List.mem_append_right _ hj)) ?_
      · rwa [hlength] at this
      · intro i hi₁ hi₂ hnot
        refine hothers i (by omega) hi₂ fun j hj => ?_
        rcases List.mem_append.mp hj with hj | hj
        · have := (hgrew₁.labels j hj).2
          omega
        · exact hnot j hj

theorem lays_for (x : L.Local) (e : L.Bounds)
    (hp : ∀ env regTop b, Lays profitable p env regTop b (compileStat profitable p env regTop b)) (b : Builder L) :
    Lays profitable (.for x e p) env regTop b (compileStat profitable (.for x e p) env regTop b) := by
  rw [compileStat]
  cases hunroll : tryUnroll profitable e env.known p with
  | some r =>
    obtain ⟨from', step, tripCount⟩ := r
    obtain ⟨js, hgrew, hlays⟩ := lays_copies (fun v b => hp (env.set x (.constant v)) regTop b)
      (copyValues from' step tripCount) b
    dsimp only
    rw [Builder.patchType_eq, hgrew.drop]
    refine lays_closed hgrew (typed_keys hgrew) fun code brk cont hfinal => ?_
    rw [Laid, hunroll]
    exact hlays code _ _ hfinal (fun j hj => targets_typed hgrew.distinct hj) fun i _ _ hnot => targets_typed_none hnot
  | none =>
    obtain ⟨js, hgrew₂, hlays⟩ := hp (env.set x (.register (regTop + 2))) (regTop + 3)
      ((b.emit (.bounds e env regTop)).emit (.fornprep regTop 0))
    dsimp only
    generalize hb₀ : b.emit (.bounds e env regTop) = b₀ at hgrew₂ hlays
    have hgrew₀ : Grew b b₀ [] := by
      rw [← hb₀]
      exact (Grew.refl b).emit _
    have hlen₀ : b₀.insns.length = b.insns.length + 1 := by
      rw [← hb₀]
      exact Builder.emit_length b _
    have hbounds : b₀.insns[b.insns.length]? = some (.bounds e env regTop) := by
      rw [← hb₀]
      exact Builder.emit_last b _
    generalize hb₁ : b₀.emit (.fornprep regTop 0) = b₁ at hgrew₂ hlays
    have hgrew₁ : Grew b b₁ [] := by
      rw [← hb₁]
      exact hgrew₀.emit _
    have hlen₁ : b₁.insns.length = b₀.insns.length + 1 := by
      rw [← hb₁]
      exact Builder.emit_length b₀ _
    have hprep : b₁.insns[b₀.insns.length]? = some (.fornprep regTop 0) := by
      rw [← hb₁]
      exact Builder.emit_last b₀ _
    have hbounds₁ : b₁.insns[b.insns.length]? = some (.bounds e env regTop) := by
      rw [← hb₁, Builder.emit_get _ (by omega), hbounds]
    generalize hb₂ : compileStat profitable p _ _ b₁ = b₂ at hgrew₂ hlays
    have hgrew : Grew b (b₂.emit (.fornloop regTop 0)) js := (hgrew₁.trans hgrew₂).emit _
    have hend : (b₂.emit (.fornloop regTop 0)).emitLabel = b₂.insns.length + 1 := Builder.emit_length b₂ _
    have hlast : (b₂.emit (.fornloop regTop 0)).insns.length = b₂.insns.length + 1 := Builder.emit_length b₂ _
    rw [Builder.patchJump_eq, Builder.patchJump_eq, ← Builder.patchAll_append, close_loop hgrew, hend]
    have hle₂ := hgrew₂.le
    refine lays_closed hgrew ?_ fun code brk cont hfinal => ?_
    · intro r hr
      rcases List.mem_append.mp hr with hr | hr
      · rcases List.mem_cons.mp hr with rfl | hr
        · show b.insns.length ≤ b₀.insns.length
          omega
        · rw [List.mem_singleton.mp hr]
          exact hgrew₁.le.trans hle₂
      · obtain ⟨j, hj, rfl⟩ := List.mem_map.mp hr
        exact (hgrew.labels j hj).1
    rw [Laid, hunroll]
    rw [hlast] at hfinal ⊢
    have hjs : ∀ i, i < b₁.insns.length ∨ b₂.insns.length ≤ i → ∀ j ∈ js, j.label ≠ i := by
      intro i hi j hj heq
      have := hgrew₂.labels j hj
      omega
    have hends := targets_ends (b₂.insns.length + 1) b₁.insns.length
      (show b₀.insns.length ≠ b₂.insns.length by omega)
    have hkept : ∀ i, i < b₁.insns.length → (b₂.emit (.fornloop regTop 0)).insns[i]? = b₁.insns[i]? := by
      intro i hi
      rw [Builder.emit_get _ (by omega), hgrew₂.kept i hi]
    have htwo : b₁.insns.length = b.insns.length + 2 := by omega
    rw [← htwo, ← hlen₀]
    refine ⟨b₂.insns.length, ?_, ?_, hlays code _ _ _ (hfinal.sub (by omega) (by omega) fun i _ hi =>
      ⟨Builder.emit_get _ hi, rfl⟩) (leads_exits hgrew₂.distinct ?_), ?_, rfl⟩
    · refine hfinal.get le_rfl (by omega) ((hkept _ (by omega)).trans hbounds₁) ?_
      rw [targets_left (hjs _ (Or.inl (by omega)))]
      refine targets_none fun r hr heq => ?_
      rcases List.mem_cons.mp hr with rfl | hr
      · have heq : b₀.insns.length = b.insns.length := heq
        omega
      · rw [List.mem_singleton.mp hr] at heq
        have heq : b₂.insns.length = b.insns.length := heq
        omega
    · exact hfinal.get_patched (by omega) (by omega) ((hkept _ (by omega)).trans hprep)
        ((targets_left (hjs _ (Or.inl (by omega)))).trans hends.1)
    · intro r hr
      rcases List.mem_cons.mp hr with rfl | hr
      · exact Or.inl (by show b₀.insns.length < _; omega)
      · rw [List.mem_singleton.mp hr]
        exact Or.inr le_rfl
    · exact hfinal.get_patched (by omega) (Nat.lt_succ_self _) (Builder.emit_last b₂ _)
        ((targets_left (hjs _ (Or.inr le_rfl))).trans hends.2)

/-- The code of every statement lies as it should. -/
theorem compileStat_lays (profitable : Stat L → ℕ → Bool) (p : Stat L) (env : Env L) (regTop : ℕ) (b : Builder L) :
    Lays profitable p env regTop b (compileStat profitable p env regTop b) := by
  induction p generalizing env regTop b with
  | skip => exact ⟨[], Grew.refl b, fun code f brk cont _ _ => rfl⟩
  | atom a => exact ⟨[], (Grew.refl b).emit _, fun code f brk cont hfinal hleads => lays_atom _ b hfinal hleads⟩
  | seq p q hp hq => exact lays_seq (hp env regTop) (hq env regTop) b
  | ifThen c p hp => exact lays_ifThen c (hp env regTop) b
  | ifElse c p q hp hq => exact lays_ifElse c (hp env regTop) (hq env regTop) b
  | «while» c p hp => exact lays_while c (hp env regTop) b
  | «repeat» p c hp => exact lays_repeat c (hp env regTop) b
  | forIn g p hp => exact lays_forIn g (hp env regTop) b
  | «for» x e p hp => exact lays_for x e hp b
  | «break» => exact ⟨_, (lays_jump .break b).1, fun code f brk cont => (lays_jump .break b).2 code f brk cont⟩
  | «continue» => exact ⟨_, (lays_jump .continue b).1, fun code f brk cont => (lays_jump .continue b).2 code f brk cont⟩
  | «return» => exact ⟨[], (Grew.refl b).emit _, fun code f brk cont hfinal hleads => lays_atom _ b hfinal hleads⟩

end Statements

end Luwu.Unroll
