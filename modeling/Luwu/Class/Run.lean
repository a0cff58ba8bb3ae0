import Luwu.Class.Steps

/-!
# Programs with classes

A program is a list of operations, each on the state that the ones before it leave; one that fails changes
nothing.
-/

namespace Luwu

open Function

def ClassOp.step (op : ClassOp) (x : ClassState × ClassBooks) : ClassState × ClassBooks :=
  match op.exec x.1 with
  | .ok out => (out.state, x.2.after op out)
  | .error _ => x

def ClassOp.run : List ClassOp → ClassState × ClassBooks → ClassState × ClassBooks
  | [], x => x
  | op :: ops, x => ClassOp.run ops (op.step x)

/-- Every operation is one that the program can do. -/
def ClassOp.Possible : List ClassOp → ClassState × ClassBooks → Prop
  | [], _ => True
  | op :: ops, x => op.Allowed x.1 x.2 ∧ ClassOp.Possible ops (op.step x)

/-- No initializer from `debug.info` is called, other than by a construction. -/
def ClassOp.Unaided : List ClassOp → ClassState × ClassBooks → Prop
  | [], _ => True
  | op :: ops, x => ¬Reinit (op.step x).1 (op.step x).2 ∧ ClassOp.Unaided ops (op.step x)

/-- Nothing is made yet. -/
def ClassState.start (protos : ℕ → Proto) (mt : TValue → Option GCPtr) : ClassState where
  classes := fun _ => none
  objects := fun _ => none
  closures := fun _ => none
  protos := protos
  tables := fun _ => none
  mt := mt
  threads := fun _ => []
  running := 0

section Run

variable {x : ClassState × ClassBooks} {op : ClassOp} {ops more : List ClassOp} {protos : ℕ → Proto}
  {mt : TValue → Option GCPtr}

theorem start_ok (protos : ℕ → Proto) (mt : TValue → Option GCPtr) :
    ClassInv (.start protos mt) .empty where
  classes := fun c classdef hc => by cases hc
  constructors := fun c classdef hc => by cases hc
  objects := fun p object ho => by cases ho
  tables := fun t h k f ht => by cases ht
  members := fun f m hf => by cases hf
  functions := fun f hf => absurd hf List.not_mem_nil
  frames := fun t ci hci => absurd hci List.not_mem_nil
  building := fun _ => List.nodup_nil
  apart := fun t t' o _ ho => absurd ho List.not_mem_nil
  unbuilt := fun t o ho => absurd ho List.not_mem_nil
  built := fun o ho => absurd ho List.not_mem_nil

theorem Kept.mono {s s' : ClassState} {built built' : List GCPtr} (h : Kept s s' built')
    (hsub : ∀ o ∈ built, o ∈ built') : Kept s s' built :=
  ⟨h.flags, fun o ho => h.consts o (hsub o ho)⟩

/-- One operation keeps the invariant and the const members, and the books only grow. -/
theorem step_ok (h : ClassInv x.1 x.2) (hallowed : op.Allowed x.1 x.2)
    (hun : ¬Reinit (op.step x).1 (op.step x).2) :
    ClassInv (op.step x).1 (op.step x).2 ∧ Kept x.1 (op.step x).1 x.2.built ∧
      ∀ o ∈ x.2.built, o ∈ (op.step x).2.built := by
  unfold ClassOp.step at hun ⊢
  cases hrun : op.exec x.1 with
  | error e => exact ⟨h, Kept.refl _ _, fun o ho => ho⟩
  | ok out =>
    rw [hrun] at hun
    have hstep := exec_ok h hallowed hrun
    have hrecord : (x.2.record op).functions = x.2.functions ∧ (x.2.record op).built = x.2.built ∧
        (x.2.record op).introspected = x.2.introspected := by
      cases op <;> exact ⟨rfl, rfl, rfl⟩
    have hinv : ClassInv out.state (x.2.record op) := by
      apply hstep.inv
      intro hre
      apply hun
      obtain ⟨f, base0, rest, c, hth, hi, hin⟩ := hre
      refine ⟨f, base0, rest, c, hth, hi, List.mem_append_right _ ?_⟩
      rw [← hrecord.2.2]
      exact hin
    have hbook := hinv.book hstep.got (fun o ho => hstep.built o (Option.mem_toList.mp ho))
    have hkept := hstep.kept
    rw [hrecord.1, hrecord.2.1, hrecord.2.2] at hbook
    rw [hrecord.2.1] at hkept
    exact ⟨hbook, hkept, fun o ho => List.mem_append_right _ ho⟩

theorem run_ok (h : ClassInv x.1 x.2) (hall : ClassOp.Possible ops x) (hun : ClassOp.Unaided ops x) :
    ClassInv (ClassOp.run ops x).1 (ClassOp.run ops x).2 ∧
      Kept x.1 (ClassOp.run ops x).1 x.2.built := by
  induction ops generalizing x with
  | nil => exact ⟨h, Kept.refl _ _⟩
  | cons op ops ih =>
    obtain ⟨hinv, hkept, hgrow⟩ := step_ok h hall.1 hun.1
    obtain ⟨hinv', hkept'⟩ := ih hinv hall.2 hun.2
    exact ⟨hinv', hkept.trans (hkept'.mono hgrow)⟩

theorem run_append (ops more : List ClassOp) (x : ClassState × ClassBooks) :
    ClassOp.run (ops ++ more) x = ClassOp.run more (ClassOp.run ops x) := by
  induction ops generalizing x with
  | nil => rfl
  | cons op ops ih => exact ih (op.step x)

theorem possible_append (h : ClassOp.Possible (ops ++ more) x) :
    ClassOp.Possible ops x ∧ ClassOp.Possible more (ClassOp.run ops x) := by
  induction ops generalizing x with
  | nil => exact ⟨trivial, h⟩
  | cons op ops ih => exact ⟨⟨h.1, (ih h.2).1⟩, (ih h.2).2⟩

theorem unaided_append (h : ClassOp.Unaided (ops ++ more) x) :
    ClassOp.Unaided ops x ∧ ClassOp.Unaided more (ClassOp.run ops x) := by
  induction ops generalizing x with
  | nil => exact ⟨trivial, h⟩
  | cons op ops ih => exact ⟨⟨h.1, (ih h.2).1⟩, (ih h.2).2⟩

/-- A class with one const field, which its `__init` sets, and an object of the class; `__init` asks
`debug.info` which function runs. -/
def constants : List ClassOp :=
  [.loadclass 100 200 ⟨[(30, ⟨false, true, false, false⟩)], [(initName, ⟨false, false, false, false⟩)], none⟩,
    .newclassmember 100 initName 300 0, .call (.gc .luaclass 100) [] 400,
    .write .settable (.gc .luaobject 400) (.gc .string 30) (.integer 1) 401, .dbinfo 0 0, .ret, .ret]

/-- The function that `debug.info` gave is called on the constructed object. -/
def again : List ClassOp :=
  [.call (.gc .function 300) [.gc .luaobject 400] 401,
    .write .settable (.gc .luaobject 400) (.gc .string 30) (.integer 2) 401]

def blank : ClassState × ClassBooks := (.start (fun _ => ⟨none, []⟩) (fun _ => none), .empty)

theorem has_of_ne {B : ClassBooks} {v : TValue} (h : ∀ f, v ≠ .gc .function f) : B.Has v :=
  fun f hf => absurd hf (h f)

theorem constants_possible : ClassOp.Possible constants blank := by
  refine ⟨⟨rfl, rfl, by decide, fun vs f h => by cases h⟩, Or.inl rfl, ⟨has_of_ne (by simp), rfl⟩,
    ⟨has_of_ne (by simp), rfl⟩, trivial, trivial, trivial, trivial⟩

/-- A Lua function that was called like any other is on top. -/
def ClassState.called (s : ClassState) : Bool :=
  match s.threads s.running with
  | .lua _ _ none :: _ => true
  | _ => false

theorem not_reinit {s : ClassState} {B : ClassBooks} (h : s.called = false) : ¬Reinit s B := by
  intro hre
  obtain ⟨f, base0, rest, c, hth, _⟩ := hre
  unfold ClassState.called at h
  rw [hth] at h
  cases h

theorem constants_unaided : ClassOp.Unaided constants blank :=
  ⟨not_reinit (by decide), not_reinit (by decide), not_reinit (by decide), not_reinit (by decide),
    not_reinit (by decide), not_reinit (by decide), not_reinit (by decide), trivial⟩

end Run

end Luwu
