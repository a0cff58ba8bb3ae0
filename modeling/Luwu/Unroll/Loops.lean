import Luwu.Unroll.Laid

/-!
# Unrolled loops do what loops do

The code of a statement does what the statement does, whether its loops are unrolled or not, as long as no loop that is
unrolled counts up from minus zero.
-/

namespace Luwu.Unroll

open Floating Datum Sccp Sccp.Floats Regions

variable {L : Language} {code : List (Insn L)} {env : Env L} {regs regs' : ℕ → Number} {s : L.State} {top lo mid hi : ℕ}
  {brk cont n : ℕ} {profitable : Stat L → ℕ → Bool} {p q : Stat L}

/-! ### Configurations -/

/-- The part of the code from `lo` to `hi` -/
def In (lo hi : ℕ) : Conf L → Prop
  | .running pc _ _ => lo ≤ pc ∧ pc < hi
  | .halted _ _ => False

theorem In.mono {lo' hi' : ℕ} (hlo : lo ≤ lo') (hhi : hi' ≤ hi) : ∀ c : Conf L, In lo' hi' c → In lo hi c
  | .running _ _ _, h => ⟨hlo.trans h.1, h.2.trans_le hhi⟩

/-- The registers of the loops around are kept. -/
def Same (top : ℕ) (regs regs' : ℕ → Number) : Prop := ∀ r < top, regs' r = regs r

theorem Same.refl (top : ℕ) (regs : ℕ → Number) : Same top regs regs := fun _ _ => rfl

theorem Same.trans {regs'' : ℕ → Number} {top' : ℕ} (h : Same top regs regs') (h' : Same top' regs' regs'')
    (hle : top ≤ top') : Same top regs regs'' := fun r hr => (h' r (hr.trans_le hle)).trans (h r hr)

/-- The machine is at a label with the state `s`. -/
def At (top : ℕ) (regs : ℕ → Number) (pc : ℕ) (s : L.State) (c : Conf L) : Prop :=
  ∃ regs', Same top regs regs' ∧ c = .running pc regs' s

/-- Where the code of a statement ends -/
def Lands (top : ℕ) (regs : ℕ → Number) (hi brk cont : ℕ) : Outcome × L.State → Conf L → Prop
  | (.normal, s), c => At top regs hi s c
  | (.broken, s), c => At top regs brk s c
  | (.continued, s), c => At top regs cont s c
  | (.halt h, s), c => c = .halted h s

theorem At.sub {top' pc : ℕ} {c : Conf L} (h : At top' regs' pc s c) (hsame : Same top regs regs') (hle : top ≤ top') :
    At top regs pc s c := by
  obtain ⟨regs'', hsame', rfl⟩ := h
  exact ⟨regs'', hsame.trans hsame' hle, rfl⟩

theorem Lands.sub {top' : ℕ} {r : Outcome × L.State} {c : Conf L} (h : Lands top' regs' hi brk cont r c)
    (hsame : Same top regs regs') (hle : top ≤ top') : Lands top regs hi brk cont r c := by
  obtain ⟨o, s⟩ := r
  cases o with
  | normal => exact At.sub h hsame hle
  | broken => exact At.sub h hsame hle
  | continued => exact At.sub h hsame hle
  | halt _ => exact h

theorem step_running {pc : ℕ} {insn : Insn L} (h : code[pc]? = some insn) :
    step code (.running pc regs s) = insn.step pc regs s := by
  rw [step, h]

@[simp] theorem jumpTo_distance (label target : ℕ) : jumpTo label (distance label target) = target := by
  unfold jumpTo distance
  omega

/-! ### Where values are found -/

/-- The registers of loop variables are those of the loops around. -/
def Below (env : Env L) (top : ℕ) : Prop := ∀ x r, env x = some (.register r) → r < top

theorem read_same (hbelow : Below env top) (hsame : Same top regs regs') : env.read regs' = env.read regs := by
  funext x
  unfold Env.read
  cases hx : env x with
  | none => rfl
  | some src =>
    cases src with
    | constant v => rfl
    | register r => exact hsame r (hbelow x r hx)

theorem agrees_known (env : Env L) (regs : ℕ → Number) : Agrees env.known (env.read regs) := by
  intro x v h
  unfold Env.known at h
  unfold Env.read
  split at h
  · next v' hx =>
    rw [hx]
    exact Option.some.inj h
  · cases h

section Setting

variable (env : Env L) (x : L.Local) (v : Number) (r : ℕ) (regs : ℕ → Number)

theorem known_constant : (env.set x (.constant v)).known = Function.update env.known x (some v) := by
  funext y
  unfold Env.known Env.set
  by_cases h : y = x
  · subst h
    simp
  · simp [h]

theorem known_register : (env.set x (.register r)).known = Function.update env.known x none := by
  funext y
  unfold Env.known Env.set
  by_cases h : y = x
  · subst h
    simp
  · simp [h]

theorem read_constant : (env.set x (.constant v)).read regs = Function.update (env.read regs) x v := by
  funext y
  unfold Env.read Env.set
  by_cases h : y = x
  · subst h
    simp
  · simp [h]

theorem read_register : (env.set x (.register r)).read regs = Function.update (env.read regs) x (regs r) := by
  funext y
  unfold Env.read Env.set
  by_cases h : y = x
  · subst h
    simp
  · simp [h]

end Setting

theorem Below.set_constant (h : Below env top) (x : L.Local) (v : Number) : Below (env.set x (.constant v)) top := by
  intro y r hy
  unfold Env.set at hy
  by_cases heq : y = x
  · subst heq
    simp at hy
  · rw [Function.update_of_ne heq] at hy
    exact h y r hy

theorem Below.set_register (h : Below env top) (x : L.Local) {r top' : ℕ} (hr : r < top') (hle : top ≤ top') :
    Below (env.set x (.register r)) top' := by
  intro y r' hy
  unfold Env.set at hy
  by_cases heq : y = x
  · subst heq
    simp only [Function.update_self, Option.some.injEq, Source.register.injEq] at hy
    omega
  · rw [Function.update_of_ne heq] at hy
    exact (h y r' hy).trans_le hle

/-! ### Statements that end a block -/

theorem test_of_constant {c : L.Cond} {known : L.Local → Option Number} {ρ : L.Local → Number} {b : Bool}
    (hagrees : Agrees known ρ) (h : isConstant c known b = true) : L.test c ρ s = .ok (b, s) :=
  L.truth_sound c known ρ s b hagrees (of_decide_eq_true h)

attribute [grind =] run

/-- Nothing follows a statement all of whose paths leave. -/
theorem not_normal_of_alwaysTerminates {known : L.Local → Option Number} {ρ : L.Local → Number}
    (hagrees : Agrees known ρ) (h : alwaysTerminates known p = true) {r : Outcome × L.State}
    (hrun : run n p ρ s = some r) : r.1 ≠ .normal := by
  induction p generalizing s r with
  | seq p q hp hq =>
    rw [run] at hrun
    rw [alwaysTerminates, Bool.or_eq_true] at h
    obtain ⟨⟨o, s'⟩, hfirst, hrest⟩ := Option.bind_eq_some_iff.mp hrun
    cases o with
    | normal =>
      rcases h with h | h
      · exact absurd rfl (hp h hfirst)
      · exact hq h hrest
    | broken => cases hrest; nofun
    | continued => cases hrest; nofun
    | halt _ => cases hrest; nofun
  | ifThen c p hp =>
    rw [alwaysTerminates, Bool.and_eq_true] at h
    rw [run, test_of_constant hagrees h.1] at hrun
    exact hp h.2 hrun
  | ifElse c p q hp hq =>
    rw [alwaysTerminates] at h
    rw [run] at hrun
    split at h
    · next htrue =>
      rw [test_of_constant hagrees htrue] at hrun
      exact hp h hrun
    · split at h
      · next hfalse =>
        rw [test_of_constant hagrees hfalse] at hrun
        exact hq h hrun
      · rw [Bool.and_eq_true] at h
        split at hrun
        · exact hp h.1 hrun
        · exact hq h.2 hrun
        · cases hrun; nofun
  | «break» => cases hrun; nofun
  | «continue» => cases hrun; nofun
  | «return» => cases hrun; nofun
  | skip => cases h
  | atom _ => cases h
  | «while» _ _ _ => cases h
  | «repeat» _ _ _ => cases h
  | forIn _ _ _ => cases h
  | «for» _ _ _ _ => cases h

/-! ### The parts of statements -/

theorem laidCondition_le {c : L.Cond} {t : Bool} {target : ℕ} (h : LaidCondition code c env t lo hi target) : lo ≤ hi := by
  unfold LaidCondition at h
  split at h
  · split at h <;> omega
  · omega

/-- What the code of a condition does -/
theorem condition_goes {c : L.Cond} {t : Bool} {target : ℕ} (regs : ℕ → Number) (s : L.State)
    (h : LaidCondition code c env t lo hi target) :
    (∀ b s', L.test c (env.read regs) s = .ok (b, s') →
      Goes (step code) (In lo hi) (.running lo regs s) (.running (if b = t then target else hi) regs s')) ∧
    ∀ s', L.test c (env.read regs) s = .error s' →
      Goes (step code) (In lo hi) (.running lo regs s) (.halted .raised s') := by
  unfold LaidCondition at h
  cases htruth : L.truth c env.known with
  | some v =>
    rw [htruth] at h
    dsimp only at h
    have htest : L.test c (env.read regs) s = .ok (v, s) :=
      L.truth_sound c _ _ s v (agrees_known env regs) htruth
    rw [htest]
    refine ⟨fun b s' heq => ?_, fun s' heq => nomatch heq⟩
    cases heq
    by_cases hv : v = t
    · rw [if_pos hv] at h ⊢
      obtain ⟨hinsn, rfl⟩ := h
      refine .step ⟨le_rfl, Nat.lt_succ_self _⟩ ?_
      rw [step_running hinsn, Insn.step, jumpTo_distance]
      exact .here _
    · have hhi : hi = lo := by simpa [hv] using h
      rw [if_neg hv, hhi]
      exact .here _
  | none =>
    rw [htruth] at h
    obtain ⟨hinsn, rfl⟩ := h
    have hin : In lo (lo + 1) (.running lo regs s) := ⟨le_rfl, Nat.lt_succ_self _⟩
    refine ⟨fun b s' heq => .step hin ?_, fun s' heq => .step hin ?_⟩
    · rw [step_running hinsn, Insn.step, heq, jumpTo_distance]
      exact .here _
    · rw [step_running hinsn, Insn.step, heq]
      exact .here _

theorem laidCopies_le {LaidBody : Number → ℕ → ℕ → ℕ → ℕ → Prop} {endLabel : ℕ} {vs : List Number}
    (hbody : ∀ v lo hi brk cont, LaidBody v lo hi brk cont → lo ≤ hi) (h : LaidCopies LaidBody endLabel vs lo hi) :
    lo ≤ hi := by
  induction vs generalizing lo with
  | nil => exact Nat.le_of_eq (Eq.symm h)
  | cons v vs ih =>
    obtain ⟨mid, hlaid, hrest⟩ := h
    exact (hbody v lo mid _ _ hlaid).trans (ih hrest)

theorem laid_le (h : Laid profitable code p env top lo hi brk cont) : lo ≤ hi := by
  induction p generalizing env top lo hi brk cont with
  | skip => exact Nat.le_of_eq (Eq.symm h)
  | atom a => rw [h.2]; exact Nat.le_succ lo
  | seq p q hp hq =>
    obtain ⟨mid, hfirst, hrest⟩ := h
    have hle := hp hfirst
    split at hrest
    · omega
    · exact hle.trans (hq hrest)
  | ifThen c p hp =>
    rw [Laid] at h
    split at h
    · exact Nat.le_of_eq (Eq.symm h)
    · split at h
      · exact laidCondition_le h
      · split at h
        · exact laidCondition_le h
        · obtain ⟨mid, hcond, hbody⟩ := h
          exact (laidCondition_le hcond).trans (hp hbody)
  | ifElse c p q hp hq =>
    rw [Laid] at h
    split at h
    · exact hq h
    · split at h
      · exact hp h
      · obtain ⟨mid, thenEnd, elseLabel, hcond, hfirst, hjump, hsecond⟩ := h
        have hle₁ := laidCondition_le hcond
        have hle₂ := hp hfirst
        have hle₃ := hq hsecond
        split at hjump <;> omega
  | «while» c p hp =>
    rw [Laid] at h
    split at h
    · exact Nat.le_of_eq (Eq.symm h)
    · obtain ⟨mid, back, hcond, hbody, -, rfl⟩ := h
      exact ((laidCondition_le hcond).trans (hp hbody)).trans (Nat.le_succ _)
  | «repeat» p c hp =>
    obtain ⟨mid, hbody, hrest⟩ := h
    have hle := hp hbody
    split at hrest
    · omega
    · obtain ⟨back, hcond, -, rfl⟩ := hrest
      exact (hle.trans (laidCondition_le hcond)).trans (Nat.le_succ _)
  | forIn g p hp =>
    obtain ⟨back, -, hbody, -, rfl⟩ := h
    have := hp hbody
    omega
  | «for» x e p hp =>
    rw [Laid] at h
    split at h
    · exact laidCopies_le (fun v lo hi brk cont => hp) h
    · obtain ⟨back, -, -, hbody, -, rfl⟩ := h
      have := hp hbody
      omega
  | «break» => rw [h.2]; exact Nat.le_succ lo
  | «continue» => rw [h.2]; exact Nat.le_succ lo
  | «return» => rw [h.2]; exact Nat.le_succ lo

/-! ### The code of each statement -/

/-- The code from `lo` to `hi` does what the statement does. -/
def Does (n : ℕ) (code : List (Insn L)) (p : Stat L) (env : Env L) (top lo hi brk cont : ℕ) : Prop :=
  ∀ regs s, Meets (step code) (In lo hi) n (Lands top regs hi brk cont) (run n p (env.read regs) s) (.running lo regs s)

/-- One instruction -/
theorem goes_step {pc : ℕ} {insn : Insn L} {c : Conf L} (h : code[pc]? = some insn) (hlo : lo ≤ pc) (hhi : pc < hi)
    (hstep : insn.step pc regs s = c) : Goes (step code) (In lo hi) (.running pc regs s) c := by
  refine .step ⟨hlo, hhi⟩ ?_
  rw [step_running h, hstep]
  exact .here _

theorem does_seq (hbelow : Below env top) (hlo : lo ≤ mid) (hhi : mid ≤ hi) (hp : Does n code p env top lo mid brk cont)
    (hq : Does n code q env top mid hi brk cont) : Does n code (.seq p q) env top lo hi brk cont := by
  intro regs s
  rw [run]
  refine Meets.bind ((hp regs s).mono (In.mono le_rfl hhi)) ?_
  rintro ⟨o, s'⟩ c hlands
  cases o with
  | normal =>
    obtain ⟨regs', hsame, rfl⟩ := hlands
    have hnext := (hq regs' s').mono (In.mono hlo le_rfl)
    rw [read_same hbelow hsame] at hnext
    exact hnext.weaken fun r c hr => hr.sub hsame le_rfl
  | broken => exact meets_here hlands
  | continued => exact meets_here hlands
  | halt h => exact meets_here hlands

/-- What a body of a loop leads to -/
theorem after_body {τ : Type} {next : L.State → τ} {Head : τ → Conf L → Prop} {back top' : ℕ} {r : Outcome × L.State}
    {c : Conf L} (hsame : Same top regs regs') (hle : top ≤ top')
    (hback : ∀ regs'' s', Same top' regs' regs'' →
      In lo hi (.running back regs'' s' : Conf L) ∧ Head (next s') (step code (.running back regs'' s')))
    (h : Lands top' regs' back hi back r c) :
    AfterTurn (step code) (In lo hi) (Lands top regs hi brk cont) Head (turn next r) c := by
  obtain ⟨o, s'⟩ := r
  cases o with
  | normal =>
    obtain ⟨regs'', hsame', rfl⟩ := h
    exact hback regs'' s' hsame'
  | continued =>
    obtain ⟨regs'', hsame', rfl⟩ := h
    exact hback regs'' s' hsame'
  | broken => exact At.sub h hsame hle
  | halt _ => exact h

theorem does_while {c : L.Cond} {back : ℕ} (hbelow : Below env top) (hcond : LaidCondition code c env false lo mid hi)
    (hle : mid ≤ back) (hhi : hi = back + 1) (hjump : code[back]? = some (.jump (distance back lo)))
    (hp : Does n code p env top mid back hi back) : Does n code (.while c p) env top lo hi brk cont := by
  intro regs s
  rw [run]
  have hlo := laidCondition_le hcond
  refine meets_rounds (fun s c => At top regs lo s c) ?_ n le_rfl s _ ⟨regs, Same.refl _ _, rfl⟩
  rintro s _ ⟨regs', hsame, rfl⟩
  obtain ⟨hok, herror⟩ := condition_goes regs' s hcond
  have hsub : ∀ c : Conf L, In lo mid c → In lo hi c := In.mono le_rfl (by omega)
  rw [← read_same hbelow hsame]
  cases htest : L.test c (env.read regs') s with
  | error s' => exact ⟨_, (herror s' htest).mono hsub, rfl⟩
  | ok r =>
    obtain ⟨b, s'⟩ := r
    have hgoes := (hok b s' htest).mono hsub
    cases b with
    | false => exact ⟨_, hgoes, regs', hsame, rfl⟩
    | true =>
      refine hgoes.meets (Meets.map ((hp regs' s').mono (In.mono hlo (by omega))) fun r c hr => ?_)
      refine after_body hsame le_rfl (fun regs'' s'' hsame' => ?_) hr
      refine ⟨⟨hlo.trans hle, by omega⟩, ?_⟩
      rw [step_running hjump, Insn.step, jumpTo_distance]
      exact ⟨regs'', hsame.trans hsame' le_rfl, rfl⟩

/-- What a turn of a loop does once the condition behind its body is tested -/
def afterTest : Except L.State (Bool × L.State) → (Outcome × L.State) ⊕ L.State
  | .ok (true, s) => .inl (.normal, s)
  | .ok (false, s) => .inr s
  | .error s => .inl (.halt .raised, s)

/-- After the body of a `repeat`, whose condition goes to the end or back -/
theorem does_repeat {c : L.Cond} (hbelow : Below env top) (hhi : mid ≤ hi)
    (hp : Does n code p env top lo mid hi mid)
    (hcond : ∀ regs s,
      (∀ s', L.test c (env.read regs) s = .ok (true, s') →
        Goes (step code) (In lo hi) (.running mid regs s) (.running hi regs s')) ∧
      (∀ s', L.test c (env.read regs) s = .ok (false, s') → ∃ back, lo ≤ back ∧ back < hi ∧
        code[back]? = some (.jump (distance back lo)) ∧
        Goes (step code) (In lo hi) (.running mid regs s) (.running back regs s')) ∧
      ∀ s', L.test c (env.read regs) s = .error s' →
        Goes (step code) (In lo hi) (.running mid regs s) (.halted .raised s')) :
    Does n code (.repeat p c) env top lo hi brk cont := by
  intro regs s
  rw [run]
  refine meets_rounds (fun s c => At top regs lo s c) ?_ n le_rfl s _ ⟨regs, Same.refl _ _, rfl⟩
  rintro s _ ⟨regs', hsame, rfl⟩
  have hbody := (hp regs' s).mono (In.mono le_rfl hhi)
  rw [← read_same hbelow hsame, Option.map_eq_bind]
  refine Meets.bind hbody ?_
  rintro ⟨o, s'⟩ c' hlands
  -- after the body the condition is tested
  have htest : ∀ regs'', Same top regs' regs'' → Meets (step code) (In lo hi) n
      (AfterTurn (step code) (In lo hi) (Lands top regs hi brk cont) fun s c => At top regs lo s c)
      (some (afterTest (L.test c (env.read regs') s'))) (.running mid regs'' s') := by
    intro regs'' hsame'
    obtain ⟨htrue, hfalse, herror⟩ := hcond regs'' s'
    rw [← read_same hbelow hsame']
    have hsame'' := hsame.trans hsame' le_rfl
    cases ht : L.test c (env.read regs'') s' with
    | error s'' => exact ⟨_, herror s'' ht, rfl⟩
    | ok r =>
      obtain ⟨b, s''⟩ := r
      cases b with
      | true => exact ⟨_, htrue s'' ht, regs'', hsame'', rfl⟩
      | false =>
        obtain ⟨back, hlo', hhi', hjump, hgoes⟩ := hfalse s'' ht
        refine ⟨_, hgoes, ⟨hlo', hhi'⟩, ?_⟩
        rw [step_running hjump, Insn.step, jumpTo_distance]
        exact ⟨regs'', hsame'', rfl⟩
  cases o with
  | normal =>
    obtain ⟨regs'', hsame', rfl⟩ := hlands
    exact htest regs'' hsame'
  | continued =>
    obtain ⟨regs'', hsame', rfl⟩ := hlands
    exact htest regs'' hsame'
  | broken => exact meets_here (At.sub hlands hsame le_rfl)
  | halt _ => exact meets_here hlands

/-- The head of a generic loop is where the generator has answered. -/
def AtAnswer (top : ℕ) (regs : ℕ → Number) (turn done : ℕ) (answer : Except L.State (Bool × L.State)) (c : Conf L) : Prop :=
  match answer with
  | .ok (b, s) => At top regs (if b then turn else done) s c
  | .error s => c = .halted .raised s

theorem does_forIn {g : L.Generator} {back : ℕ} (hbelow : Below env top)
    (hprep : code[lo]? = some (.forgprep g env (distance lo back))) (hle : lo + 1 ≤ back) (hhi : hi = back + 1)
    (hloop : code[back]? = some (.forgloop g env (distance back (lo + 1))))
    (hp : Does n code p env top (lo + 1) back hi back) : Does n code (.forIn g p) env top lo hi brk cont := by
  intro regs s
  rw [run]
  cases hprepare : L.prepare g (env.read regs) s with
  | error s' =>
    refine ⟨_, goes_step hprep le_rfl (by omega) ?_, rfl⟩
    rw [Insn.step, hprepare]
  | ok s₁ =>
    have hstart : Goes (step code) (In lo hi) (.running lo regs s) (.running back regs s₁) := by
      refine goes_step hprep le_rfl (by omega) ?_
      rw [Insn.step, hprepare, jumpTo_distance]
    refine hstart.meets ?_
    have hhead : ∀ regs' s, Same top regs regs' → In lo hi (.running back regs' s : Conf L) ∧
        AtAnswer top regs (lo + 1) hi (L.iterate g (env.read regs) s) (step code (.running back regs' s)) := by
      intro regs' s hsame
      refine ⟨⟨by omega, by omega⟩, ?_⟩
      rw [step_running hloop, Insn.step, jumpTo_distance, read_same hbelow hsame]
      cases L.iterate g (env.read regs) s with
      | error s' => rfl
      | ok r => exact ⟨regs', hsame, by rw [← hhi]⟩
    obtain ⟨hin, hfirst⟩ := hhead regs s₁ (Same.refl _ _)
    refine Meets.after_step hin (meets_rounds
      (fun s => AtAnswer top regs (lo + 1) hi (L.iterate g (env.read regs) s)) ?_ n le_rfl s₁ _ hfirst)
    intro s c hc
    cases hiterate : L.iterate g (env.read regs) s with
    | error s' =>
      rw [hiterate] at hc
      exact meets_here hc
    | ok r =>
      obtain ⟨b, s'⟩ := r
      rw [hiterate] at hc
      cases b with
      | false => exact meets_here hc
      | true =>
        obtain ⟨regs', hsame, rfl⟩ := hc
        have hbody := (hp regs' s').mono (In.mono (Nat.le_succ lo) (by omega : back ≤ hi))
        rw [read_same hbelow hsame] at hbody
        refine Meets.map hbody fun r c hr => after_body hsame le_rfl (fun regs'' s'' hsame' => ?_) hr
        exact hhead regs'' s'' (hsame.trans hsame' le_rfl)

theorem does_for {x : L.Local} {e : L.Bounds} {back : ℕ} (hbelow : Below env top)
    (hbounds : code[lo]? = some (.bounds e env top))
    (hprep : code[lo + 1]? = some (.fornprep top (distance (lo + 1) hi))) (hle : lo + 2 ≤ back) (hhi : hi = back + 1)
    (hloop : code[back]? = some (.fornloop top (distance back (lo + 2))))
    (hp : Does n code p (env.set x (.register (top + 2))) (top + 3) (lo + 2) back hi back) :
    Does n code (.for x e p) env top lo hi brk cont := by
  intro regs s
  rw [run]
  cases hevaluate : L.evaluate e (env.read regs) s with
  | error s' =>
    refine ⟨_, goes_step hbounds le_rfl (by omega) ?_, rfl⟩
    rw [Insn.step, hevaluate]
  | ok r =>
    obtain ⟨⟨start, limit, stp⟩, s₁⟩ := r
    dsimp only
    -- the head of the loop is where the index has been compared with the limit
    let Head : Number × L.State → Conf L → Prop := fun t c => ∃ regs', Same top regs regs' ∧ regs' top = limit ∧
      regs' (top + 1) = stp ∧ regs' (top + 2) = t.1 ∧
      c = .running (if continues limit stp t.1 then lo + 2 else hi) regs' t.2
    have hstart : ∃ c, Goes (step code) (In lo hi) (.running lo regs s) c ∧ Head (start, s₁) c := by
      let regs₁ := Function.update (Function.update (Function.update regs (top + 2) start) top limit) (top + 1) stp
      have hlimit : regs₁ top = limit := by simp [regs₁]
      have hstep : regs₁ (top + 1) = stp := by simp [regs₁]
      have hindex : regs₁ (top + 2) = start := by simp [regs₁]
      have hsame : Same top regs regs₁ := by
        intro r hr
        have h₁ : r ≠ top := by omega
        have h₂ : r ≠ top + 1 := by omega
        have h₃ : r ≠ top + 2 := by omega
        simp [regs₁, h₁, h₂, h₃]
      have hnext : Goes (step code) (In lo hi) (.running (lo + 1) regs₁ s₁) _ :=
        goes_step hprep (Nat.le_succ lo) (by omega) rfl
      refine ⟨_, (goes_step hbounds le_rfl (by omega) ?_).trans hnext, regs₁, hsame, hlimit, hstep, hindex, ?_⟩
      · rw [Insn.step, hevaluate]
      · rw [Insn.step, jumpTo_distance, hlimit, hstep, hindex]
    obtain ⟨c, hgoes, hhead⟩ := hstart
    refine hgoes.meets (meets_rounds Head ?_ _ (Nat.le_add_right n spare) (start, s₁) c hhead)
    rintro ⟨idx, s⟩ c ⟨regs', hsame, hlimit, hstep, hindex, rfl⟩
    dsimp only at hindex
    by_cases hcont : continues limit stp idx = true
    · rw [if_pos hcont, if_pos hcont]
      have hbody := (hp regs' s).mono (In.mono (by omega : lo ≤ lo + 2) (by omega : back ≤ hi))
      rw [read_register, read_same hbelow hsame, hindex] at hbody
      refine Meets.map hbody fun r c hr => after_body hsame (by omega) (fun regs'' s'' hsame' => ?_) hr
      refine ⟨⟨by omega, by omega⟩, ?_⟩
      rw [step_running hloop, Insn.step, jumpTo_distance]
      have hkept : ∀ r < top + 3, regs'' r = regs' r := hsame'
      dsimp only
      rw [hkept top (by omega), hkept (top + 1) (by omega), hkept (top + 2) (by omega), hlimit, hstep, hindex]
      refine ⟨Function.update regs'' (top + 2) (add idx stp), ?_, ?_, ?_, ?_, ?_⟩
      · intro r hr
        rw [Function.update_of_ne (by omega), hkept r (by omega)]
        exact hsame r hr
      · rw [Function.update_of_ne (by omega), hkept top (by omega), hlimit]
      · rw [Function.update_of_ne (by omega), hkept (top + 1) (by omega), hstep]
      · rw [Function.update_self]
      · rw [hhi]
    · rw [if_neg hcont, if_neg hcont]
      exact meets_here ⟨regs', hsame, rfl⟩

/-! ### Unrolled loops -/

/-- The body runs for each of the values, until it leaves the loop. -/
def runCopies (body : Number → L.State → Option (Outcome × L.State)) :
    List Number → L.State → Option (Outcome × L.State)
  | [], s => some (.normal, s)
  | v :: vs, s =>
    (body v s).bind fun r =>
      match turn id r with
      | .inl r => some r
      | .inr s => runCopies body vs s

/-- A loop runs its body for the indices that it visits. -/
theorem rounds_visits (body : Number → L.State → Option (Outcome × L.State)) {limit stp idx : Number} {vs : List Number}
    (hvisits : Visits limit stp idx vs) (m : ℕ) (hm : vs.length < m) (s : L.State) :
    rounds (fun (idx, s) =>
      if continues limit stp idx then (body idx s).map (turn (add idx stp, ·)) else some (.inl (.normal, s))) m (idx, s) =
      runCopies body vs s := by
  induction hvisits generalizing m s with
  | @stop idx hstop =>
    obtain ⟨m, rfl⟩ : ∃ k, m = k + 1 := ⟨m - 1, by rw [List.length_nil] at hm; omega⟩
    rw [rounds]
    simp [hstop, runCopies]
  | @next idx rest hnext _ ih =>
    rw [List.length_cons] at hm
    obtain ⟨m, rfl⟩ : ∃ k, m = k + 1 := ⟨m - 1, by omega⟩
    have ih' := fun s => ih m (by omega) s
    rw [rounds, runCopies]
    simp only [hnext, if_true]
    cases hbody : body idx s with
    | none => rfl
    | some r =>
      obtain ⟨o, s'⟩ := r
      cases o with
      | normal => exact ih' s'
      | continued => exact ih' s'
      | broken => rfl
      | halt _ => rfl

theorem run_for {x : L.Local} {e : L.Bounds} {ρ : L.Local → Number} {start limit stp : Number} {vs : List Number}
    (hevaluate : L.evaluate e ρ s = .ok ((start, limit, stp), s)) (hvisits : Visits limit stp start vs)
    (hlength : vs.length < spare) :
    run n (.for x e p) ρ s = runCopies (fun v => run n p (Function.update ρ x v)) vs s := by
  rw [run, hevaluate]
  exact rounds_visits (fun v => run n p (Function.update ρ x v)) hvisits (n + spare) (by omega) s

/-- The code of the copies runs the body for each of the values. -/
theorem copies_meet {LaidBody : Number → ℕ → ℕ → ℕ → ℕ → Prop} {body : Number → L.State → Option (Outcome × L.State)}
    {vs : List Number} (hle : ∀ v lo hi brk cont, LaidBody v lo hi brk cont → lo ≤ hi)
    (hbody : ∀ v ∈ vs, ∀ lo mid, LaidBody v lo mid hi mid → mid ≤ hi → ∀ regs' s, Same top regs regs' →
      Meets (step code) (In lo mid) n (Lands top regs' mid hi mid) (body v s) (.running lo regs' s))
    (hlaid : LaidCopies LaidBody hi vs lo hi) (hsame : Same top regs regs') :
    Meets (step code) (In lo hi) n (Lands top regs hi brk cont) (runCopies body vs s) (.running lo regs' s) := by
  induction vs generalizing lo regs' s with
  | nil =>
    have hlaid : hi = lo := hlaid
    rw [← hlaid]
    exact meets_here ⟨regs', hsame, rfl⟩
  | cons v vs ih =>
    obtain ⟨mid, hfirst, hrest⟩ := hlaid
    have hlo := hle v lo mid _ _ hfirst
    have hhi := laidCopies_le hle hrest
    have hnext : ∀ regs'' s', Same top regs' regs'' →
        Meets (step code) (In lo hi) n (Lands top regs hi brk cont) (runCopies body vs s') (.running mid regs'' s') :=
      fun regs'' s' hsame' => (ih (fun v hv => hbody v (List.mem_cons_of_mem _ hv)) hrest
        (hsame.trans hsame' le_rfl)).mono (In.mono hlo le_rfl)
    rw [runCopies]
    refine Meets.bind ((hbody v List.mem_cons_self lo mid hfirst hhi regs' s hsame).mono (In.mono le_rfl hhi)) ?_
    rintro ⟨o, s'⟩ c hlands
    cases o with
    | normal =>
      obtain ⟨regs'', hsame', rfl⟩ := hlands
      exact hnext regs'' s' hsame'
    | continued =>
      obtain ⟨regs'', hsame', rfl⟩ := hlands
      exact hnext regs'' s' hsame'
    | broken => exact meets_here (At.sub hlands hsame le_rfl)
    | halt _ => exact meets_here hlands

theorem tryUnroll_spec {e : L.Bounds} {known : L.Local → Option Number} {from' stp : Number} {k : ℕ}
    (h : tryUnroll profitable e known p = some (from', stp, k)) :
    ∃ to', L.getConstant e known = some (from', to', stp) ∧ getTripCount from' to' stp = .ok (k : ℤ) := by
  unfold tryUnroll at h
  split at h
  · cases h
  · next first to' stp' hconstant =>
    split at h
    · cases h
    · next t htrip =>
      split at h
      · next hok =>
        cases h
        exact ⟨to', hconstant, by rw [htrip, Int.toNat_of_nonneg hok.1]⟩
      · cases h

/-- All numeric loops that are unrolled have the turns that they need. -/
theorem count_le_spare {from' to' stp : Number} {k : ℕ} (h : getTripCount from' to' stp = .ok (k : ℤ)) : k < spare := by
  obtain ⟨a, b, t, ha, hb, -, ht0, -, -, -, hcount⟩ := getTripCount_known h (by omega)
  unfold spare
  by_cases hin : Within b t a
  · rw [count_of_within ht0 hin] at hcount
    have hdiv : (b - a).natAbs / t.natAbs ≤ (b - a).natAbs := Nat.div_le_self _ _
    unfold Small at ha hb
    omega
  · rw [count_eq_zero ht0 hin] at hcount
    omega

/-- No loop that is unrolled counts up from minus zero. -/
def Plain (profitable : Stat L → ℕ → Bool) : Stat L → (L.Local → Option Number) → Prop
  | .seq p q, known => Plain profitable p known ∧ (alwaysTerminates known p = false → Plain profitable q known)
  | .ifThen c p, known => isConstant c known false = false → Plain profitable p known
  | .ifElse c p q, known =>
    (isConstant c known false = false → Plain profitable p known) ∧
      (isConstant c known true = false → Plain profitable q known)
  | .while c p, known => isConstant c known false = false → Plain profitable p known
  | .repeat p _, known => Plain profitable p known
  | .forIn _ p, known => Plain profitable p known
  | .for x e p, known =>
    match tryUnroll profitable e known p with
    | some (from', stp, tripCount) =>
      ¬(from' = num true 0 ∧ less (ofInt 0) stp = true ∧ 0 < tripCount) ∧
        ∀ v ∈ copyValues from' stp tripCount, Plain profitable p (Function.update known x (some v))
    | none => Plain profitable p (Function.update known x none)
  | _, _ => True

/-- The code of a loop that is unrolled, for any indices of the copies -/
theorem unrolled_meets {x : L.Local} {vs : List Number} (hbelow : Below env top)
    (hbody : ∀ v ∈ vs, ∀ lo mid, Laid profitable code p (env.set x (.constant v)) top lo mid hi mid → mid ≤ hi →
      Does n code p (env.set x (.constant v)) top lo mid hi mid)
    (hlaid : LaidCopies (fun v => Laid profitable code p (env.set x (.constant v)) top) hi vs lo hi) :
    Meets (step code) (In lo hi) n (Lands top regs hi brk cont)
      (runCopies (fun v => run n p (Function.update (env.read regs) x v)) vs s) (.running lo regs s) := by
  refine copies_meet (fun v lo hi brk cont => laid_le) ?_ hlaid (Same.refl _ _)
  intro v hv lo mid hfirst hhi regs' s hsame
  have := hbody v hv lo mid hfirst hhi regs' s
  rwa [read_constant, read_same hbelow hsame] at this

/-- The code of every statement does what the statement does. -/
theorem does_of_laid (n : ℕ) (hlaid : Laid profitable code p env top lo hi brk cont) (hbrk : hi ≤ brk) (hcont : hi ≤ cont)
    (hbelow : Below env top) (hplain : Plain profitable p env.known) : Does n code p env top lo hi brk cont := by
  induction p generalizing env top lo hi brk cont with
  | skip =>
    intro regs s
    have hlaid : hi = lo := hlaid
    rw [hlaid]
    exact meets_here ⟨regs, Same.refl _ _, rfl⟩
  | atom a =>
    intro regs s
    obtain ⟨hinsn, rfl⟩ := hlaid
    rw [run]
    cases hexec : L.exec a (env.read regs) s with
    | ok s' =>
      refine ⟨_, goes_step hinsn le_rfl (Nat.lt_succ_self _) ?_, regs, Same.refl _ _, rfl⟩
      rw [Insn.step, hexec]
    | error s' =>
      refine ⟨_, goes_step hinsn le_rfl (Nat.lt_succ_self _) ?_, rfl⟩
      rw [Insn.step, hexec]
  | seq p q hp hq =>
    obtain ⟨mid, hfirst, hrest⟩ := hlaid
    have hlo := laid_le hfirst
    by_cases hends : alwaysTerminates env.known p = true
    · rw [if_pos hends] at hrest
      obtain rfl := hrest
      intro regs s
      have hmeets := hp hfirst hbrk hcont hbelow hplain.1 regs s
      rw [run]
      cases hrun : run n p (env.read regs) s with
      | none =>
        rw [hrun] at hmeets
        exact hmeets
      | some r =>
        have hleaves := not_normal_of_alwaysTerminates (agrees_known env regs) hends hrun
        rw [hrun] at hmeets
        obtain ⟨o, s'⟩ := r
        cases o with
        | normal => exact absurd rfl hleaves
        | broken => exact hmeets
        | continued => exact hmeets
        | halt _ => exact hmeets
    · rw [if_neg hends] at hrest
      have hhi := laid_le hrest
      exact does_seq hbelow hlo hhi (hp hfirst (hhi.trans hbrk) (hhi.trans hcont) hbelow hplain.1)
        (hq hrest hbrk hcont hbelow (hplain.2 (Bool.eq_false_of_not_eq_true hends)))
  | ifThen c p hp =>
    rw [Laid] at hlaid
    intro regs s
    rw [run]
    by_cases hfalse : isConstant c env.known false = true
    · rw [if_pos hfalse] at hlaid
      rw [test_of_constant (agrees_known env regs) hfalse, hlaid]
      exact meets_here ⟨regs, Same.refl _ _, rfl⟩
    rw [if_neg hfalse] at hlaid
    by_cases hbreak : (isStatBreak p && !L.areLocalsCaptured c) = true
    · rw [if_pos hbreak] at hlaid
      obtain ⟨hok, herror⟩ := condition_goes regs s hlaid
      have hp : p = .break := by
        rw [Bool.and_eq_true] at hbreak
        cases p <;> first | rfl | cases hbreak.1
      subst hp
      cases htest : L.test c (env.read regs) s with
      | error s' => exact ⟨_, herror s' htest, rfl⟩
      | ok r =>
        obtain ⟨b, s'⟩ := r
        cases b with
        | true => exact ⟨_, hok true s' htest, regs, Same.refl _ _, rfl⟩
        | false => exact ⟨_, hok false s' htest, regs, Same.refl _ _, rfl⟩
    rw [if_neg hbreak] at hlaid
    by_cases hcontinue : (isStatContinue p && !L.areLocalsCaptured c) = true
    · rw [if_pos hcontinue] at hlaid
      obtain ⟨hok, herror⟩ := condition_goes regs s hlaid
      have hp : p = .continue := by
        rw [Bool.and_eq_true] at hcontinue
        cases p <;> first | rfl | cases hcontinue.1
      subst hp
      cases htest : L.test c (env.read regs) s with
      | error s' => exact ⟨_, herror s' htest, rfl⟩
      | ok r =>
        obtain ⟨b, s'⟩ := r
        cases b with
        | true => exact ⟨_, hok true s' htest, regs, Same.refl _ _, rfl⟩
        | false => exact ⟨_, hok false s' htest, regs, Same.refl _ _, rfl⟩
    rw [if_neg hcontinue] at hlaid
    obtain ⟨mid, hcond, hbody⟩ := hlaid
    have hlo := laidCondition_le hcond
    have hhi := laid_le hbody
    obtain ⟨hok, herror⟩ := condition_goes regs s hcond
    have hsub : ∀ c : Conf L, In lo mid c → In lo hi c := In.mono le_rfl hhi
    cases htest : L.test c (env.read regs) s with
    | error s' => exact ⟨_, (herror s' htest).mono hsub, rfl⟩
    | ok r =>
      obtain ⟨b, s'⟩ := r
      cases b with
      | true =>
        have hdoes := hp hbody hbrk hcont hbelow (hplain (Bool.eq_false_of_not_eq_true hfalse)) regs s'
        exact ((hok true s' htest).mono hsub).meets (hdoes.mono (In.mono hlo le_rfl))
      | false => exact ⟨_, (hok false s' htest).mono hsub, regs, Same.refl _ _, rfl⟩
  | ifElse c p q hp hq =>
    rw [Laid] at hlaid
    intro regs s
    rw [run]
    by_cases hfalse : isConstant c env.known false = true
    · rw [if_pos hfalse] at hlaid
      rw [test_of_constant (agrees_known env regs) hfalse]
      have htrue : isConstant c env.known true = false := by
        unfold isConstant at hfalse ⊢
        rw [of_decide_eq_true hfalse]
        rfl
      exact hq hlaid hbrk hcont hbelow (hplain.2 htrue) regs s
    rw [if_neg hfalse] at hlaid
    have hplain₁ := hplain.1 (Bool.eq_false_of_not_eq_true hfalse)
    by_cases htrue : isConstant c env.known true = true
    · rw [if_pos htrue] at hlaid
      rw [test_of_constant (agrees_known env regs) htrue]
      exact hp hlaid hbrk hcont hbelow hplain₁ regs s
    rw [if_neg htrue] at hlaid
    have hplain₂ := hplain.2 (Bool.eq_false_of_not_eq_true htrue)
    obtain ⟨mid, thenEnd, elseLabel, hcond, hfirst, hjump, hsecond⟩ := hlaid
    have hlo := laidCondition_le hcond
    have hmid := laid_le hfirst
    have hhi := laid_le hsecond
    have helse : thenEnd ≤ elseLabel := by split at hjump <;> omega
    obtain ⟨hok, herror⟩ := condition_goes regs s hcond
    have hsub : ∀ c : Conf L, In lo mid c → In lo hi c := In.mono le_rfl (by omega)
    cases htest : L.test c (env.read regs) s with
    | error s' => exact ⟨_, (herror s' htest).mono hsub, rfl⟩
    | ok r =>
      obtain ⟨b, s'⟩ := r
      have hgoes := (hok b s' htest).mono hsub
      cases b with
      | false =>
        have hdoes := hq hsecond hbrk hcont hbelow hplain₂ regs s'
        exact hgoes.meets (hdoes.mono (In.mono (by omega) le_rfl))
      | true =>
        have hdoes := (hp hfirst (by omega) (by omega) hbelow hplain₁ regs s').mono (In.mono hlo (by omega : thenEnd ≤ hi))
        refine hgoes.meets ?_
        -- the first branch ends with a jump to the end, unless it always leaves
        dsimp only
        cases hrun : run n p (env.read regs) s' with
        | none =>
          rw [hrun] at hdoes
          exact hdoes
        | some r =>
          rw [hrun] at hdoes
          obtain ⟨o, s''⟩ := r
          cases o with
          | broken => exact hdoes
          | continued => exact hdoes
          | halt _ => exact hdoes
          | normal =>
            by_cases hends : alwaysTerminates env.known p = true
            · exact absurd rfl (not_normal_of_alwaysTerminates (agrees_known env regs) hends hrun)
            rw [if_neg hends] at hjump
            obtain ⟨c', hgoes', regs', hsame, rfl⟩ := hdoes
            refine ⟨_, hgoes'.trans (goes_step hjump.1 (by omega) (by omega) ?_), regs', hsame, rfl⟩
            rw [Insn.step, jumpTo_distance]
  | «while» c p hp =>
    rw [Laid] at hlaid
    by_cases hfalse : isConstant c env.known false = true
    · rw [if_pos hfalse] at hlaid
      intro regs s
      rw [run, hlaid]
      cases n with
      | zero => exact trivial
      | succ n =>
        rw [rounds, test_of_constant (agrees_known env regs) hfalse]
        exact meets_here ⟨regs, Same.refl _ _, rfl⟩
    · rw [if_neg hfalse] at hlaid
      obtain ⟨mid, back, hcond, hbody, hjump, rfl⟩ := hlaid
      exact does_while hbelow hcond (laid_le hbody) rfl hjump
        (hp hbody (Nat.le_succ back) le_rfl hbelow (hplain (Bool.eq_false_of_not_eq_true hfalse)))
  | «repeat» p c hp =>
    obtain ⟨mid, hbody, hrest⟩ := hlaid
    have hmid := laid_le hbody
    by_cases htrue : isConstant c env.known true = true
    · rw [if_pos htrue] at hrest
      obtain rfl := hrest
      refine does_repeat hbelow le_rfl (hp hbody le_rfl le_rfl hbelow hplain) fun regs s => ?_
      rw [test_of_constant (agrees_known env regs) htrue]
      refine ⟨fun s' heq => ?_, fun s' heq => ?_, fun s' heq => ?_⟩
      · cases heq
        exact .here _
      · cases heq
      · cases heq
    · rw [if_neg htrue] at hrest
      obtain ⟨back, hcond, hjump, rfl⟩ := hrest
      have hback := laidCondition_le hcond
      refine does_repeat hbelow (by omega) (hp hbody (by omega) le_rfl hbelow hplain) fun regs s => ?_
      obtain ⟨hok, herror⟩ := condition_goes regs s hcond
      have hsub : ∀ c : Conf L, In mid back c → In lo (back + 1) c := In.mono hmid (Nat.le_succ back)
      exact ⟨fun s' h => (hok true s' h).mono hsub,
        fun s' h => ⟨back, by omega, Nat.lt_succ_self _, hjump, (hok false s' h).mono hsub⟩,
        fun s' h => (herror s' h).mono hsub⟩
  | forIn g p hp =>
    obtain ⟨back, hprep, hbody, hloop, rfl⟩ := hlaid
    exact does_forIn hbelow hprep (laid_le hbody) rfl hloop (hp hbody (Nat.le_succ back) le_rfl hbelow hplain)
  | «for» x e p hp =>
    rw [Laid] at hlaid
    rw [Plain] at hplain
    cases hunroll : tryUnroll profitable e env.known p with
    | none =>
      rw [hunroll] at hlaid hplain
      obtain ⟨back, hbounds, hprep, hbody, hloop, rfl⟩ := hlaid
      refine does_for hbelow hbounds hprep (laid_le hbody) rfl hloop
        (hp hbody (Nat.le_succ back) le_rfl (hbelow.set_register x (by omega) (by omega)) ?_)
      rw [known_register]
      exact hplain
    | some r =>
      obtain ⟨from', stp, k⟩ := r
      rw [hunroll] at hlaid hplain
      obtain ⟨to', hconstant, htrip⟩ := tryUnroll_spec hunroll
      obtain ⟨-, vs, hvisits, hlength, hvalues⟩ := getTripCount_spec htrip (by omega)
      have hspare := count_le_spare htrip
      have hsame : copyValues from' stp k = vs := by
        rw [Int.toNat_natCast] at hvalues
        refine hvalues.mpr fun h => hplain.1 ⟨h.1, h.2.1, by omega⟩
      intro regs s
      have hevaluate := L.constant_sound e _ _ s _ (agrees_known env regs) hconstant
      rw [run_for hevaluate hvisits (by omega), ← hsame]
      refine unrolled_meets hbelow (fun v hv lo mid hfirst hhi => ?_) hlaid
      refine hp hfirst hhi le_rfl (hbelow.set_constant x v) ?_
      rw [known_constant]
      exact hplain.2 v hv
  | «break» =>
    intro regs s
    obtain ⟨hinsn, rfl⟩ := hlaid
    refine ⟨_, goes_step hinsn le_rfl (Nat.lt_succ_self _) ?_, regs, Same.refl _ _, rfl⟩
    rw [Insn.step, jumpTo_distance]
  | «continue» =>
    intro regs s
    obtain ⟨hinsn, rfl⟩ := hlaid
    refine ⟨_, goes_step hinsn le_rfl (Nat.lt_succ_self _) ?_, regs, Same.refl _ _, rfl⟩
    rw [Insn.step, jumpTo_distance]
  | «return» =>
    intro regs s
    obtain ⟨hinsn, rfl⟩ := hlaid
    exact ⟨_, goes_step hinsn le_rfl (Nat.lt_succ_self _) rfl, rfl⟩

/-! ### Loops with constant bounds -/

/-- A loop with these bounds that is unrolled, where none of its copies has a loop that counts up from minus zero -/
structure Accepted (profitable : Stat L → ℕ → Bool) (from' to' stp : Number) (t : ℕ) (x : L.Local) (e : L.Bounds)
    (p : Stat L) (env : Env L) (top : ℕ) : Prop where
  constant : L.getConstant e env.known = some (from', to', stp)
  cheap : profitable p t = true
  below : Below env top
  plain : ∀ v ∈ copyValues from' stp t, Plain profitable p (Function.update env.known x (some v))

section Accepted

variable {from' to' stp : Number} {t : ℤ} {x : L.Local} {e : L.Bounds} {b : Builder L}

theorem tryUnroll_eq (h : getTripCount from' to' stp = .ok t) (ht : 0 ≤ t)
    (hok : Accepted profitable from' to' stp t.toNat x e p env top) :
    tryUnroll profitable e env.known p = some (from', stp, t.toNat) := by
  unfold tryUnroll
  rw [hok.constant]
  dsimp only
  rw [h]
  exact if_pos ⟨ht, hok.cheap⟩

/-- A loop leaves no jumps open. -/
theorem for_laid (profitable : Stat L → ℕ → Bool) (x : L.Local) (e : L.Bounds) (p : Stat L) (env : Env L) (top : ℕ) (b : Builder L) (brk cont : ℕ) :
    Laid profitable (compileStat profitable (.for x e p) env top b).insns (.for x e p) env top b.insns.length
      (compileStat profitable (.for x e p) env top b).insns.length brk cont := by
  obtain ⟨js, hgrew, hlays⟩ := compileStat_lays profitable (.for x e p) env top b
  have hlength : (compileStat profitable (.for x e p) env top b).loopJumps.length ≤ b.loopJumps.length := by
    rw [compileStat]
    split <;> exact List.length_take_le _ _
  have hjs : js = [] := by
    rw [hgrew.jumps, List.length_append] at hlength
    exact List.length_eq_zero_iff.mp (by omega)
  refine hlays _ (fun _ => none) brk cont (fun i _ _ => (map_patchTo_none i _).symm) ⟨?_, fun _ _ _ _ => rfl⟩
  rw [hjs]
  exact fun j hj => absurd hj List.not_mem_nil

/-- Each copy follows the one before; its `continue` goes to the next copy and its `break` past the last. -/
theorem copies_laid (h : getTripCount from' to' stp = .ok t) (ht : 0 ≤ t)
    (hok : Accepted profitable from' to' stp t.toNat x e p env top) :
    LaidCopies (fun v => Laid profitable (compileStat profitable (.for x e p) env top b).insns p (env.set x (.constant v)) top)
      (compileStat profitable (.for x e p) env top b).insns.length (copyValues from' stp t.toNat) b.insns.length
      (compileStat profitable (.for x e p) env top b).insns.length := by
  have := for_laid profitable x e p env top b 0 0
  rw [Laid, tryUnroll_eq h ht hok] at this
  exact this

/-- The code runs the body for the indices of the copies. -/
theorem copies_run (h : getTripCount from' to' stp = .ok t) (ht : 0 ≤ t)
    (hok : Accepted profitable from' to' stp t.toNat x e p env top) (b : Builder L) (n : ℕ) (regs : ℕ → Number)
    (s : L.State) (brk cont : ℕ) :
    Meets (step (compileStat profitable (.for x e p) env top b).insns)
      (In b.insns.length (compileStat profitable (.for x e p) env top b).insns.length) n
      (Lands top regs (compileStat profitable (.for x e p) env top b).insns.length brk cont)
      (runCopies (fun v => run n p (Function.update (env.read regs) x v)) (copyValues from' stp t.toNat) s)
      (.running b.insns.length regs s) := by
  refine unrolled_meets hok.below (fun v hv lo mid hfirst hhi => ?_) (copies_laid h ht hok)
  refine does_of_laid n hfirst hhi le_rfl (hok.below.set_constant x v) ?_
  rw [known_constant]
  exact hok.plain v hv

end Accepted

/-- For every body the code of the loop does what the loop does. -/
def SameAsLoop (from' to' stp : Number) (t : ℤ) : Prop :=
  ∀ (L : Language) (profitable : Stat L → ℕ → Bool) (x : L.Local) (e : L.Bounds) (p : Stat L) (env : Env L) (top : ℕ)
    (b : Builder L), Accepted profitable from' to' stp t.toNat x e p env top → ∀ n regs s,
    Meets (step (compileStat profitable (.for x e p) env top b).insns)
      (In b.insns.length (compileStat profitable (.for x e p) env top b).insns.length) n
      (Lands top regs (compileStat profitable (.for x e p) env top b).insns.length
        (compileStat profitable (.for x e p) env top b).insns.length
        (compileStat profitable (.for x e p) env top b).insns.length)
      (run n (.for x e p) (env.read regs) s) (.running b.insns.length regs s)

theorem sameAsLoop {from' to' stp : Number} {t : ℤ} (h : getTripCount from' to' stp = .ok t) (ht : 0 ≤ t)
    (hplus : ¬(from' = num true 0 ∧ less (ofInt 0) stp = true ∧ 0 < t)) : SameAsLoop from' to' stp t := by
  intro L profitable x e p env top b hok n regs s
  refine does_of_laid n (for_laid profitable x e p env top b _ _) le_rfl le_rfl hok.below ?_ regs s
  rw [Plain, tryUnroll_eq h ht hok]
  exact ⟨fun hneg => hplus ⟨hneg.1, hneg.2.1, by omega⟩, hok.plain⟩

/-! ### Bodies that record the index -/

/-- A body that records the values of its loop variable -/
abbrev recording (from' to' stp : Number) : Language where
  Local := Unit
  Atom := Unit
  Cond := Empty
  Bounds := Unit
  Generator := Empty
  State := List Number
  exec _ ρ s := .ok (s ++ [ρ ()])
  test c _ _ := nomatch c
  evaluate _ _ s := .ok ((from', to', stp), s)
  prepare g _ _ := nomatch g
  iterate g _ _ := nomatch g
  truth c _ := nomatch c
  getConstant _ _ := some (from', to', stp)
  areLocalsCaptured c := nomatch c
  truth_sound c := nomatch c
  constant_sound _ _ _ _ _ _ h := by
    cases h
    rfl

theorem record_copies {from' to' stp : Number} (ρ : Unit → Number) (vs s : List Number) :
    runCopies (fun v => run (L := recording from' to' stp) 0 (.atom ()) (Function.update ρ () v)) vs s =
      some (.normal, s ++ vs) := by
  induction vs generalizing s with
  | nil => rw [List.append_nil]; rfl
  | cons v vs ih =>
    have hnext := ih (s ++ [v])
    rw [List.append_assoc] at hnext
    exact hnext

theorem accepted_recording (from' to' stp : Number) (k : ℕ) :
    Accepted (L := recording from' to' stp) (fun _ _ => true) from' to' stp k () () (.atom ()) (fun _ => none) 0 where
  constant := rfl
  cheap := rfl
  below _ _ h := nomatch h
  plain _ _ := trivial

/-- The copies record other indices when the loop counts up from minus zero. -/
theorem not_sameAsLoop {from' to' stp : Number} {t : ℤ} (h : getTripCount from' to' stp = .ok t) (ht : t ≠ -1)
    (hminus : from' = num true 0 ∧ less (ofInt 0) stp = true ∧ 0 < t) : ¬SameAsLoop from' to' stp t := by
  intro hsame
  obtain ⟨hnonneg, vs, hvisits, hlength, hvalues⟩ := getTripCount_spec h ht
  have hok := accepted_recording from' to' stp t.toNat
  let regs : ℕ → Number := fun _ => nan
  let b : Builder (recording from' to' stp) := ⟨[], []⟩
  have hloop := hsame (recording from' to' stp) (fun _ _ => true) () () (.atom ()) (fun _ => none) 0 b hok 0 regs []
  have hcopies := copies_run h hnonneg hok b 0 regs [] 0 0
  have hspare : t.toNat < spare := count_le_spare (by rw [Int.toNat_of_nonneg hnonneg]; exact h)
  have hevaluate : (recording from' to' stp).evaluate () (Env.read (fun _ => none) regs) [] =
      .ok ((from', to', stp), []) := rfl
  rw [run_for hevaluate hvisits (by omega), record_copies] at hloop
  rw [record_copies] at hcopies
  obtain ⟨c, hgoes, r, -, rfl⟩ := hloop
  obtain ⟨c', hgoes', r', -, rfl⟩ := hcopies
  have heq := hgoes.unique hgoes' (fun hin => absurd hin.2 (lt_irrefl _)) (fun hin => absurd hin.2 (lt_irrefl _))
  have hsame' : vs = copyValues from' stp t.toNat := by
    have := (Conf.running.inj heq).2.2
    simpa using this
  exact hvalues.mp hsame'.symm hminus

/-! ### The unrolled loop -/

/-- A trip count is computed without overflow, and a count that is known is the number of iterations.  The copies of a
    loop that is unrolled follow each other, with `continue` to the next copy and `break` past the last.  The code does
    what the loop does, for every body, unless the loop counts up from minus zero. -/
theorem unrolled_iff {from' to' stp : Number} {t : ℤ} (h : getTripCount from' to' stp = .ok t) (ht : t ≠ -1) :
    (∀ f l s : Number, ∃ k, getTripCount f l s = .ok k) ∧
      (0 ≤ t ∧ ∃ vs, Visits to' stp from' vs ∧ (vs.length : ℤ) = t) ∧
      (∀ (L : Language) (profitable : Stat L → ℕ → Bool) (x : L.Local) (e : L.Bounds) (p : Stat L) (env : Env L)
        (top : ℕ) (b : Builder L), Accepted profitable from' to' stp t.toNat x e p env top →
        LaidCopies (fun v =>
            Laid profitable (compileStat profitable (.for x e p) env top b).insns p (env.set x (.constant v)) top)
          (compileStat profitable (.for x e p) env top b).insns.length (copyValues from' stp t.toNat) b.insns.length
          (compileStat profitable (.for x e p) env top b).insns.length) ∧
      (SameAsLoop from' to' stp t ↔ ¬(from' = num true 0 ∧ less (ofInt 0) stp = true ∧ 0 < t)) := by
  obtain ⟨hnonneg, vs, hvisits, hlength, -⟩ := getTripCount_spec h ht
  refine ⟨fun f l s => ⟨_, getTripCount_eq f l s⟩, ⟨hnonneg, vs, hvisits, hlength⟩, ?_, ?_⟩
  · intro L profitable x e p env top b hok
    exact copies_laid h hnonneg hok
  · constructor
    · intro hsame hminus
      exact not_sameAsLoop h ht hminus hsame
    · exact sameAsLoop h hnonneg

/-- A loop from one to three -/
theorem unrolled_iff_three : getTripCount (ofInt 1) (ofInt 3) (ofInt 1) = .ok 3 ∧
    (SameAsLoop (ofInt 1) (ofInt 3) (ofInt 1) 3 ↔
      ¬((ofInt 1 : Number) = num true 0 ∧ less (ofInt 0) (ofInt 1 : Number) = true ∧ (0 : ℤ) < 3)) := by
  have hint : ∀ c : ℤ, Small c → IsInt (ofInt c) c := fun c hc => ⟨hc.fits, Or.inl rfl⟩
  have h₁ : Small 1 := ⟨by decide, by decide⟩
  have h₃ : Small 3 := ⟨by decide, by decide⟩
  have h : getTripCount (ofInt 1) (ofInt 3) (ofInt 1) = .ok 3 :=
    getTripCount_ints (hint 1 h₁) (hint 3 h₃) (hint 1 h₁) h₁ h₃ h₁ (by decide)
  exact ⟨h, (unrolled_iff h (by decide)).2.2.2⟩

/-- `for i = -0, 1 do` is unrolled with `i = 0` in the first copy. -/
theorem minus_zero_copied : getTripCount (num true 0) (ofInt 1) (ofInt 1) = .ok 2 ∧
    ¬SameAsLoop (num true 0) (ofInt 1) (ofInt 1) 2 := by
  have hzero : IsInt (num true 0) 0 := ⟨fits_of_le (by decide), Or.inr ⟨rfl, rfl⟩⟩
  have h₀ : Small 0 := ⟨by decide, by decide⟩
  have h₁ : Small 1 := ⟨by decide, by decide⟩
  have hone : IsInt (ofInt 1) 1 := ⟨h₁.fits, Or.inl rfl⟩
  have h : getTripCount (num true 0) (ofInt 1) (ofInt 1) = .ok 2 :=
    getTripCount_ints hzero hone hone h₀ h₁ h₁ (by decide)
  refine ⟨h, not_sameAsLoop h (by decide) ⟨rfl, ?_, by decide⟩⟩
  rw [less_ofInt (fits_of_le (by decide)) (fits_of_le (by decide))]
  rfl

end Luwu.Unroll
