import Luwu.Lib.Regions
import Luwu.Unroll.TripCount

/-!
# Loops and their code

Statements with their loops, what they do, and the instructions that the compiler emits for them.  Statements without
control flow, conditions and generators are given, with what they do to the state of the program when the loop
variables around them have certain values; this includes the closures that capture a loop variable.  The compiler
replaces a loop variable by a number while it compiles a copy of an unrolled body.

An instruction here stands for all that are emitted for a statement or for a condition, and takes one place.  Jumps are
emitted with the distance zero, and patched when their target is known.
-/

namespace Luwu.Unroll

open Floating Datum Sccp Regions

/-- The numbers that locals are known to have agree with their values. -/
def Agrees {ι : Type} (known : ι → Option Number) (values : ι → Number) : Prop := ∀ x v, known x = some v → values x = v

/-- Statements without control flow, conditions, the bounds of loops and generators -/
structure Language where
  Local : Type
  [localEq : DecidableEq Local]
  Atom : Type
  Cond : Type
  Bounds : Type
  Generator : Type
  State : Type
  /-- An error leaves a state, too. -/
  exec : Atom → (Local → Number) → State → Except State State
  test : Cond → (Local → Number) → State → Except State (Bool × State)
  /-- The start, the limit and the step, after the conversions of `LOP_FORNPREP` -/
  evaluate : Bounds → (Local → Number) → State → Except State ((Number × Number × Number) × State)
  prepare : Generator → (Local → Number) → State → Except State State
  iterate : Generator → (Local → Number) → State → Except State (Bool × State)
  /-- `isConstantTrue` and `isConstantFalse` -/
  truth : Cond → (Local → Option Number) → Option Bool
  /-- `getConstant` of the bounds, when they are numbers -/
  getConstant : Bounds → (Local → Option Number) → Option (Number × Number × Number)
  /-- `areLocalsCaptured` at a condition whose statement breaks or continues -/
  areLocalsCaptured : Cond → Bool
  truth_sound : ∀ c known values s b, Agrees known values → truth c known = some b → test c values s = .ok (b, s)
  constant_sound : ∀ e known values s v, Agrees known values → getConstant e known = some v →
    evaluate e values s = .ok (v, s)

instance (L : Language) : DecidableEq L.Local := L.localEq

inductive Stat (L : Language)
  | skip
  | atom (a : L.Atom)
  | seq (s t : Stat L)
  | ifThen (c : L.Cond) (s : Stat L)
  | ifElse (c : L.Cond) (s t : Stat L)
  | while (c : L.Cond) (s : Stat L)
  | repeat (s : Stat L) (c : L.Cond)
  | forIn (g : L.Generator) (s : Stat L)
  | for (x : L.Local) (e : L.Bounds) (s : Stat L)
  | break
  | continue
  | return

inductive Halt
  | returned
  | raised

inductive Outcome
  | normal
  | broken
  | continued
  | halt (h : Halt)

variable {L : Language}

/-! ### What statements do -/

section Meaning

variable {τ : Type} {n : ℕ}

/-- What a body of a loop comes to -/
def turn (next : L.State → τ) : Outcome × L.State → (Outcome × L.State) ⊕ τ
  | (.normal, s) => .inr (next s)
  | (.continued, s) => .inr (next s)
  | (.broken, s) => .inl (.normal, s)
  | (.halt h, s) => .inl (.halt h, s)

/-- Unrolled loops take no steps of their own, so that all numeric loops have the turns that these need. -/
def spare : ℕ := 2 ^ 16

/-- The meaning of a statement, with fuel for its loops -/
def run (n : ℕ) : Stat L → (L.Local → Number) → L.State → Option (Outcome × L.State)
  | .skip, _, s => some (.normal, s)
  | .atom a, ρ, s =>
    match L.exec a ρ s with
    | .ok s => some (.normal, s)
    | .error s => some (.halt .raised, s)
  | .seq p q, ρ, s =>
    (run n p ρ s).bind fun r =>
      match r with
      | (.normal, s) => run n q ρ s
      | r => some r
  | .ifThen c p, ρ, s =>
    match L.test c ρ s with
    | .ok (true, s) => run n p ρ s
    | .ok (false, s) => some (.normal, s)
    | .error s => some (.halt .raised, s)
  | .ifElse c p q, ρ, s =>
    match L.test c ρ s with
    | .ok (true, s) => run n p ρ s
    | .ok (false, s) => run n q ρ s
    | .error s => some (.halt .raised, s)
  | .while c p, ρ, s =>
    rounds (fun s =>
      match L.test c ρ s with
      | .ok (true, s) => (run n p ρ s).map (turn id)
      | .ok (false, s) => some (.inl (.normal, s))
      | .error s => some (.inl (.halt .raised, s))) n s
  | .repeat p c, ρ, s =>
    rounds (fun s =>
      (run n p ρ s).map fun r =>
        match turn id r with
        | .inl r => .inl r
        | .inr s =>
          match L.test c ρ s with
          | .ok (true, s) => .inl (.normal, s)
          | .ok (false, s) => .inr s
          | .error s => .inl (.halt .raised, s)) n s
  | .forIn g p, ρ, s =>
    match L.prepare g ρ s with
    | .ok s =>
      rounds (fun s =>
        match L.iterate g ρ s with
        | .ok (true, s) => (run n p ρ s).map (turn id)
        | .ok (false, s) => some (.inl (.normal, s))
        | .error s => some (.inl (.halt .raised, s))) n s
    | .error s => some (.halt .raised, s)
  | .for x e p, ρ, s =>
    match L.evaluate e ρ s with
    | .ok ((start, limit, step), s) =>
      rounds (fun (idx, s) =>
        if continues limit step idx then (run n p (Function.update ρ x idx) s).map (turn (add idx step, ·))
        else some (.inl (.normal, s))) (n + spare) (start, s)
    | .error s => some (.halt .raised, s)
  | .break, _, s => some (.broken, s)
  | .continue, _, s => some (.continued, s)
  | .return, _, s => some (.halt .returned, s)

end Meaning

/-! ### Instructions -/

/-- Where the code finds the value of a loop variable -/
inductive Source
  | constant (v : Number)
  | register (r : ℕ)

abbrev Env (L : Language) := L.Local → Option Source

def Env.known (env : Env L) (x : L.Local) : Option Number :=
  match env x with
  | some (.constant v) => some v
  | _ => none

def Env.read (env : Env L) (regs : ℕ → Number) (x : L.Local) : Number :=
  match env x with
  | some (.constant v) => v
  | some (.register r) => regs r
  | none => nan

/-- The loop variable `x` is found at `src`. -/
def Env.set (env : Env L) (x : L.Local) (src : Source) : Env L := Function.update env x (some src)

inductive Insn (L : Language)
  | atom (a : L.Atom) (env : Env L)
  /-- Jumps when the condition is as `onlyTruth` says. -/
  | branch (c : L.Cond) (env : Env L) (onlyTruth : Bool) (d : ℤ)
  | jump (d : ℤ)
  /-- The limit, the step and the index go to three registers. -/
  | bounds (e : L.Bounds) (env : Env L) (regs : ℕ)
  | fornprep (regs : ℕ) (d : ℤ)
  | fornloop (regs : ℕ) (d : ℤ)
  | forgprep (g : L.Generator) (env : Env L) (d : ℤ)
  | forgloop (g : L.Generator) (env : Env L) (d : ℤ)
  | return

/-- The instruction with another distance -/
def Insn.patch (d : ℤ) : Insn L → Insn L
  | branch c env onlyTruth _ => branch c env onlyTruth d
  | jump _ => jump d
  | fornprep regs _ => fornprep regs d
  | fornloop regs _ => fornloop regs d
  | forgprep g env _ => forgprep g env d
  | forgloop g env _ => forgloop g env d
  | insn => insn

inductive Conf (L : Language)
  | running (pc : ℕ) (regs : ℕ → Number) (s : L.State)
  | halted (h : Halt) (s : L.State)

def jumpTo (pc : ℕ) (d : ℤ) : ℕ := (pc + 1 + d).toNat

/-- The distance from a jump to its target -/
def distance (label target : ℕ) : ℤ := target - label - 1

def Insn.step (pc : ℕ) (regs : ℕ → Number) (s : L.State) : Insn L → Conf L
  | atom a env =>
    match L.exec a (env.read regs) s with
    | .ok s => .running (pc + 1) regs s
    | .error s => .halted .raised s
  | branch c env onlyTruth d =>
    match L.test c (env.read regs) s with
    | .ok (b, s) => .running (if b = onlyTruth then jumpTo pc d else pc + 1) regs s
    | .error s => .halted .raised s
  | jump d => .running (jumpTo pc d) regs s
  | bounds e env r =>
    match L.evaluate e (env.read regs) s with
    | .ok ((start, limit, step), s) =>
      .running (pc + 1) (Function.update (Function.update (Function.update regs (r + 2) start) r limit) (r + 1) step) s
    | .error s => .halted .raised s
  | fornprep r d => .running (if continues (regs r) (regs (r + 1)) (regs (r + 2)) then pc + 1 else jumpTo pc d) regs s
  | fornloop r d =>
    let idx := add (regs (r + 2)) (regs (r + 1))
    .running (if continues (regs r) (regs (r + 1)) idx then jumpTo pc d else pc + 1) (Function.update regs (r + 2) idx) s
  | forgprep g env d =>
    match L.prepare g (env.read regs) s with
    | .ok s => .running (jumpTo pc d) regs s
    | .error s => .halted .raised s
  | forgloop g env d =>
    match L.iterate g (env.read regs) s with
    | .ok (b, s) => .running (if b then jumpTo pc d else pc + 1) regs s
    | .error s => .halted .raised s
  | .return => .halted .returned s

def step (code : List (Insn L)) : Conf L → Conf L
  | .running pc regs s =>
    match code[pc]? with
    | some insn => insn.step pc regs s
    | none => .running pc regs s
  | .halted h s => .halted h s

/-! ### The compiler -/

inductive JumpType
  | break
  | continue
  deriving DecidableEq

structure LoopJump where
  type : JumpType
  label : ℕ

structure Builder (L : Language) where
  insns : List (Insn L)
  loopJumps : List LoopJump

namespace Builder

def emitLabel (b : Builder L) : ℕ := b.insns.length

def emit (b : Builder L) (insn : Insn L) : Builder L := { b with insns := b.insns ++ [insn] }

def patchJump (b : Builder L) (label target : ℕ) : Builder L :=
  { b with insns := b.insns.modify label (Insn.patch (distance label target)) }

def patchJumps (b : Builder L) (labels : List ℕ) (target : ℕ) : Builder L :=
  labels.foldl (fun b label => b.patchJump label target) b

def addLoopJump (b : Builder L) (type : JumpType) (label : ℕ) : Builder L :=
  { b with loopJumps := b.loopJumps ++ [⟨type, label⟩] }

/-- The jumps of one type since the first `oldJumps` are patched. -/
def patchType (b : Builder L) (oldJumps : ℕ) (type : JumpType) (target : ℕ) : Builder L :=
  b.patchJumps (((b.loopJumps.drop oldJumps).filter (·.type = type)).map (·.label)) target

def patchLoopJumps (b : Builder L) (oldJumps endLabel contLabel : ℕ) : Builder L :=
  (b.loopJumps.drop oldJumps).foldl (fun b lj =>
    match lj.type with
    | .break => b.patchJump lj.label endLabel
    | .continue => b.patchJump lj.label contLabel) b

def resizeJumps (b : Builder L) (oldJumps : ℕ) : Builder L := { b with loopJumps := b.loopJumps.take oldJumps }

end Builder

section Compiler

-- whether a body is cheap enough for a number of copies
variable (profitable : Stat L → ℕ → Bool)

def isConstant (c : L.Cond) (known : L.Local → Option Number) (b : Bool) : Bool := L.truth c known = some b

/-- All paths end in `return`, `break` or `continue`. -/
def alwaysTerminates (known : L.Local → Option Number) : Stat L → Bool
  | .seq p q => alwaysTerminates known p || alwaysTerminates known q
  | .return => true
  | .break => true
  | .continue => true
  | .ifThen c p => isConstant c known true && alwaysTerminates known p
  | .ifElse c p q =>
    if isConstant c known true then alwaysTerminates known p
    else if isConstant c known false then alwaysTerminates known q
    else alwaysTerminates known p && alwaysTerminates known q
  | _ => false

def isStatBreak : Stat L → Bool
  | .break => true
  | _ => false

def isStatContinue : Stat L → Bool
  | .continue => true
  | _ => false

/-- The code of a condition, and the jumps that are to be patched -/
def compileConditionValue (c : L.Cond) (env : Env L) (onlyTruth : Bool) (b : Builder L) : Builder L × List ℕ :=
  match L.truth c env.known with
  | some v => if v = onlyTruth then (b.emit (.jump 0), [b.emitLabel]) else (b, [])
  | none => (b.emit (.branch c env onlyTruth 0), [b.emitLabel])

/-- A condition whose statement only breaks or continues: its jumps are those of the statement. -/
def compileConditionJump (c : L.Cond) (env : Env L) (type : JumpType) (b : Builder L) : Builder L :=
  let (b, elseJump) := compileConditionValue c env true b
  elseJump.foldl (fun b jump => b.addLoopJump type jump) b

/-- The start, the step and the number of copies of a loop that is unrolled -/
def tryUnroll (e : L.Bounds) (known : L.Local → Option Number) (body : Stat L) : Option (Number × Number × ℕ) :=
  match L.getConstant e known with
  | none => none
  | some (from', to', step) =>
    match getTripCount from' to' step with
    | .error _ => none
    | .ok tripCount =>
      if 0 ≤ tripCount ∧ profitable body tripCount.toNat then some (from', step, tripCount.toNat) else none

/-- The loop of `compileUnrolledFor`; every copy ends where its `continue` statements go. -/
def compileCopies (compileBody : Number → Builder L → Builder L) : List Number → Builder L → Builder L
  | [], b => b
  | v :: vs, b =>
    let iterJumps := b.loopJumps.length
    let b := compileBody v b
    let contLabel := b.emitLabel
    compileCopies compileBody vs (b.patchType iterJumps .continue contLabel)

def compileStat : Stat L → Env L → ℕ → Builder L → Builder L
  | .skip, _, _, b => b
  | .atom a, env, _, b => b.emit (.atom a env)
  | .seq p q, env, regTop, b =>
    let b := compileStat p env regTop b
    if alwaysTerminates env.known p then b else compileStat q env regTop b
  | .ifThen c p, env, regTop, b =>
    if isConstant c env.known false then b
    else if isStatBreak p && !L.areLocalsCaptured c then compileConditionJump c env .break b
    else if isStatContinue p && !L.areLocalsCaptured c then compileConditionJump c env .continue b
    else
      let (b, elseJump) := compileConditionValue c env false b
      let b := compileStat p env regTop b
      let endLabel := b.emitLabel
      b.patchJumps elseJump endLabel
  | .ifElse c p q, env, regTop, b =>
    if isConstant c env.known false then compileStat q env regTop b
    else
      let (b, elseJump) := compileConditionValue c env false b
      let b := compileStat p env regTop b
      if elseJump.length > 0 then
        if alwaysTerminates env.known p then
          let elseLabel := b.emitLabel
          let b := compileStat q env regTop b
          b.patchJumps elseJump elseLabel
        else
          let thenLabel := b.emitLabel
          let b := b.emit (.jump 0)
          let elseLabel := b.emitLabel
          let b := compileStat q env regTop b
          let endLabel := b.emitLabel
          (b.patchJumps elseJump elseLabel).patchJump thenLabel endLabel
      else
        let endLabel := b.emitLabel
        b.patchJumps elseJump endLabel
  | .while c p, env, regTop, b =>
    if isConstant c env.known false then b
    else
      let oldJumps := b.loopJumps.length
      let loopLabel := b.emitLabel
      let (b, elseJump) := compileConditionValue c env false b
      let b := compileStat p env regTop b
      let contLabel := b.emitLabel
      let backLabel := b.emitLabel
      let b := b.emit (.jump 0)
      let endLabel := b.emitLabel
      let b := (b.patchJump backLabel loopLabel).patchJumps elseJump endLabel
      (b.patchLoopJumps oldJumps endLabel contLabel).resizeJumps oldJumps
  | .repeat p c, env, regTop, b =>
    let oldJumps := b.loopJumps.length
    let loopLabel := b.emitLabel
    let b := compileStat p env regTop b
    let contLabel := b.emitLabel
    if isConstant c env.known true then
      let endLabel := b.emitLabel
      (b.patchLoopJumps oldJumps endLabel contLabel).resizeJumps oldJumps
    else
      let (b, skipJump) := compileConditionValue c env true b
      let backLabel := b.emitLabel
      let b := b.emit (.jump 0)
      let endLabel := b.emitLabel
      let b := (b.patchJump backLabel loopLabel).patchJumps skipJump endLabel
      (b.patchLoopJumps oldJumps endLabel contLabel).resizeJumps oldJumps
  | .forIn g p, env, regTop, b =>
    let oldJumps := b.loopJumps.length
    let skipLabel := b.emitLabel
    let b := b.emit (.forgprep g env 0)
    let loopLabel := b.emitLabel
    let b := compileStat p env regTop b
    let contLabel := b.emitLabel
    let backLabel := b.emitLabel
    let b := b.emit (.forgloop g env 0)
    let endLabel := b.emitLabel
    let b := (b.patchJump skipLabel backLabel).patchJump backLabel loopLabel
    (b.patchLoopJumps oldJumps endLabel contLabel).resizeJumps oldJumps
  | .for x e p, env, regTop, b =>
    let oldJumps := b.loopJumps.length
    match tryUnroll profitable e env.known p with
    | some (from', step, tripCount) =>
      let b := compileCopies (fun v => compileStat p (env.set x (.constant v)) regTop) (copyValues from' step tripCount) b
      let endLabel := b.emitLabel
      (b.patchType oldJumps .break endLabel).resizeJumps oldJumps
    | none =>
      let b := b.emit (.bounds e env regTop)
      let forLabel := b.emitLabel
      let b := b.emit (.fornprep regTop 0)
      let loopLabel := b.emitLabel
      let b := compileStat p (env.set x (.register (regTop + 2))) (regTop + 3) b
      let contLabel := b.emitLabel
      let backLabel := b.emitLabel
      let b := b.emit (.fornloop regTop 0)
      let endLabel := b.emitLabel
      let b := (b.patchJump forLabel endLabel).patchJump backLabel loopLabel
      (b.patchLoopJumps oldJumps endLabel contLabel).resizeJumps oldJumps
  | .break, _, _, b => (b.emit (.jump 0)).addLoopJump .break b.emitLabel
  | .continue, _, _, b => (b.emit (.jump 0)).addLoopJump .continue b.emitLabel
  | .return, _, _, b => b.emit .return

attribute [grind =] compileStat

end Compiler

end Luwu.Unroll
