import Mathlib.Data.List.Basic
import Mathlib.Tactic.TypeStar

/-!
# Types and their values

The finite closed types that the normalizer takes apart: primitives, singletons and extern classes under
unions, intersections and negations.  A type is a set of run-time values (`Ty.Has`), and `any` has the error
value besides.
-/

namespace Luwu.Normal

/-- `PrimitiveType::Type` -/
inductive PrimitiveType where
  | nilType
  | boolean
  | number
  | integer
  | string
  | thread
  | function
  | table
  | buffer
  | noneType
  deriving DecidableEq

inductive SingletonType where
  | boolean (value : Bool)
  | string (value : String)
  deriving DecidableEq

inductive Ty (Class : Type) where
  | never
  | unknown
  | any
  | error
  | primitive (type : PrimitiveType)
  | singleton (variant : SingletonType)
  | externType (class_ : Class)
  | union (options : List (Ty Class))
  | intersection (parts : List (Ty Class))
  | negation (ty : Ty Class)

/-- A run-time value, or the value of the error type. -/
inductive Value (Obj : Type) where
  | nil
  | none
  | boolean (b : Bool)
  | number (i : ℕ)
  | integer (i : ℕ)
  | string (s : String)
  | thread (i : ℕ)
  | buffer (i : ℕ)
  | function (i : ℕ)
  | table (i : ℕ)
  | object (o : Obj)
  | error

/-- The classes of the objects, which all come from the nominal roots. -/
structure Classes (Class Obj : Type) where
  instanceOf : Obj → Class → Prop
  roots : List Class
  rooted : ∀ o, ∃ r ∈ roots, instanceOf o r

variable {Class Obj : Type}

def PrimitiveType.Has : PrimitiveType → Value Obj → Prop
  | .nilType, .nil => True
  | .noneType, .none => True
  | .boolean, .boolean _ => True
  | .number, .number _ => True
  | .integer, .integer _ => True
  | .string, .string _ => True
  | .thread, .thread _ => True
  | .buffer, .buffer _ => True
  | .function, .function _ => True
  | .table, .table _ => True
  | _, _ => False

def SingletonType.Has : SingletonType → Value Obj → Prop
  | .boolean b, .boolean b' => b = b'
  | .string s, .string s' => s = s'
  | _, _ => False

section Meaning

variable (W : Classes Class Obj)

mutual

/-- The values of a type. -/
def Ty.Has : Ty Class → Value Obj → Prop
  | .never, _ => False
  | .unknown, v => v ≠ .error
  | .any, _ => True
  | .error, v => v = .error
  | .primitive p, v => p.Has v
  | .singleton s, v => s.Has v
  | .externType c, v => ∃ o, v = .object o ∧ W.instanceOf o c
  | .union ts, v => Ty.HasSome ts v
  | .intersection ts, v => Ty.HasAll ts v
  | .negation t, v => v ≠ .error ∧ ¬ t.Has v

def Ty.HasSome : List (Ty Class) → Value Obj → Prop
  | [], _ => False
  | t :: ts, v => t.Has v ∨ Ty.HasSome ts v

def Ty.HasAll : List (Ty Class) → Value Obj → Prop
  | [], _ => True
  | t :: ts, v => t.Has v ∧ Ty.HasAll ts v

end

variable {W} {t : Ty Class} {ts us : List (Ty Class)} {v : Value Obj}

@[simp] theorem has_never : (Ty.never : Ty Class).Has W v ↔ False := Iff.rfl

@[simp] theorem has_unknown : (Ty.unknown : Ty Class).Has W v ↔ v ≠ .error := Iff.rfl

@[simp] theorem has_any : (Ty.any : Ty Class).Has W v ↔ True := Iff.rfl

@[simp] theorem has_error : (Ty.error : Ty Class).Has W v ↔ v = .error := Iff.rfl

@[simp] theorem has_primitive {p : PrimitiveType} : (Ty.primitive p : Ty Class).Has W v ↔ p.Has v := Iff.rfl

@[simp] theorem has_singleton {s : SingletonType} : (Ty.singleton s : Ty Class).Has W v ↔ s.Has v := Iff.rfl

@[simp] theorem has_externType {c : Class} : (Ty.externType c).Has W v ↔ ∃ o, v = .object o ∧ W.instanceOf o c := Iff.rfl

@[simp] theorem has_negation : (Ty.negation t).Has W v ↔ v ≠ .error ∧ ¬ t.Has W v := Iff.rfl

theorem hasSome_iff : Ty.HasSome W ts v ↔ ∃ t ∈ ts, t.Has W v := by
  induction ts with
  | nil => simp [Ty.HasSome]
  | cons t ts ih => simp [Ty.HasSome, ih]

theorem hasAll_iff : Ty.HasAll W ts v ↔ ∀ t ∈ ts, t.Has W v := by
  induction ts with
  | nil => simp [Ty.HasAll]
  | cons t ts ih => simp [Ty.HasAll, ih]

@[simp] theorem has_union : (Ty.union ts).Has W v ↔ ∃ t ∈ ts, t.Has W v := hasSome_iff

@[simp] theorem has_intersection : (Ty.intersection ts).Has W v ↔ ∀ t ∈ ts, t.Has W v := hasAll_iff

theorem hasSome_append : Ty.HasSome W (ts ++ us) v ↔ Ty.HasSome W ts v ∨ Ty.HasSome W us v := by
  simp only [hasSome_iff, List.mem_append, or_and_right, exists_or]

theorem hasAll_append : Ty.HasAll W (ts ++ us) v ↔ Ty.HasAll W ts v ∧ Ty.HasAll W us v := by
  simp only [hasAll_iff, List.mem_append, or_imp, forall_and]

theorem hasSome_perm (hp : ts.Perm us) : Ty.HasSome W ts v ↔ Ty.HasSome W us v := by
  simp only [hasSome_iff, hp.mem_iff]

theorem hasAll_perm (hp : ts.Perm us) : Ty.HasAll W ts v ↔ Ty.HasAll W us v := by
  simp only [hasAll_iff, hp.mem_iff]

end Meaning

end Luwu.Normal

/-!
## Types that the normalizer keeps the values of

What an intersection has left is met with its parts one by one, and some parts are not met with as what they
are: `never` clears nothing but the classes, the negation of an intersection is not implemented, `any` and the
error type are their own negations, and in the new solver a class takes the place of a `table` that has no
class beside it.  At the beginning of an intersection there is nothing to meet with yet.
-/

namespace Luwu.Normal

variable {Class Obj : Type}

mutual

/-- Neither `any` nor the error type is in the type. -/
def Ty.Calm : Ty Class → Prop
  | .any => False
  | .error => False
  | .union ts => Ty.CalmAll ts
  | .intersection ts => Ty.CalmAll ts
  | .negation t => t.Calm
  | _ => True

def Ty.CalmAll : List (Ty Class) → Prop
  | [] => True
  | t :: ts => t.Calm ∧ Ty.CalmAll ts

end

mutual

/-- `unknown`, `any` and intersections of nothing else -/
def Ty.tops : Ty Class → Bool
  | .unknown => true
  | .any => true
  | .intersection ts => Ty.allTops ts
  | _ => false

def Ty.allTops : List (Ty Class) → Bool
  | [] => true
  | t :: ts => t.tops && Ty.allTops ts

end

section Good

variable (W : Classes Class Obj) (oneTableWithExtern : Bool)

/-- In the new solver a class comes after parts that share no `table`, or that share an object. -/
def TableFree (earlier : Value Obj → Prop) : Prop :=
  oneTableWithExtern = true → (∀ i, ¬ earlier (.table i)) ∨ ∃ o, earlier (.object o)

mutual

/-- A type that is normalized by itself, or comes to a union. -/
def Ty.Good : Ty Class → Prop
  | .union ts => Ty.GoodAll ts
  | .intersection ts => Ty.GoodFirst ts
  | .negation t => t.Calm ∧ t.Good
  | _ => True

def Ty.GoodAll : List (Ty Class) → Prop
  | [] => True
  | t :: ts => t.Good ∧ Ty.GoodAll ts

/-- The parts of an intersection when nothing but tops has come before. -/
def Ty.GoodFirst : List (Ty Class) → Prop
  | [] => True
  | t :: ts => if t.tops then Ty.GoodFirst ts else t.Good ∧ Ty.GoodRest (t.Has W) ts

/-- The parts of an intersection after parts that share the values `earlier`. -/
def Ty.GoodRest (earlier : Value Obj → Prop) : List (Ty Class) → Prop
  | [] => True
  | t :: ts => t.GoodPart earlier ∧ Ty.GoodRest (fun v => earlier v ∧ t.Has W v) ts

def Ty.GoodPart (earlier : Value Obj → Prop) : Ty Class → Prop
  | .never => False
  | .union ts => Ty.GoodAll ts
  | .intersection ts => Ty.GoodRest earlier ts
  | .negation t => t.GoodNegation earlier
  | .externType _ => TableFree oneTableWithExtern earlier
  | _ => True

/-- The type of a negation that is a part of an intersection. -/
def Ty.GoodNegation (earlier : Value Obj → Prop) : Ty Class → Prop
  | .any => False
  | .error => False
  | .intersection _ => False
  | .union ts => Ty.CalmAll ts ∧ Ty.GoodAll ts
  | .negation t => t.Calm ∧ t.GoodPart earlier
  | _ => True

end

end Good

section Weaken

variable {W : Classes Class Obj} {one : Bool} {earlier earlier' : Value Obj → Prop} {t : Ty Class}
  {ts : List (Ty Class)} {v : Value Obj}

mutual

theorem has_of_tops : ∀ t : Ty Class, t.tops = true → ∀ v : Value Obj, v ≠ .error → t.Has W v
  | .unknown, _, _, hv => hv
  | .any, _, _, _ => trivial
  | .intersection ts, h, v, hv => hasAll_of_tops ts h v hv

theorem hasAll_of_tops : ∀ ts : List (Ty Class), Ty.allTops ts = true → ∀ v : Value Obj, v ≠ .error →
    Ty.HasAll W ts v
  | [], _, _, _ => trivial
  | t :: ts, h, v, hv => by
    obtain ⟨ht, hts⟩ := Bool.and_eq_true_iff.mp h
    exact ⟨has_of_tops t ht v hv, hasAll_of_tops ts hts v hv⟩

end

theorem TableFree.congr (hsame : ∀ v, v ≠ .error → (earlier v ↔ earlier' v)) (h : TableFree one earlier) :
    TableFree one earlier' := by
  intro hone
  obtain hnone | ⟨o, ho⟩ := h hone
  · left
    intro i hi
    exact hnone i ((hsame (.table i) (by simp)).mpr hi)
  · exact Or.inr ⟨o, (hsame (.object o) (by simp)).mp ho⟩

mutual

theorem GoodPart.congr : ∀ (t : Ty Class) (earlier earlier' : Value Obj → Prop),
    (∀ v, v ≠ .error → (earlier v ↔ earlier' v)) → t.GoodPart W one earlier → t.GoodPart W one earlier'
  | .never, _, _, _, h => h
  | .unknown, _, _, _, h => h
  | .any, _, _, _, h => h
  | .error, _, _, _, h => h
  | .primitive _, _, _, _, h => h
  | .singleton _, _, _, _, h => h
  | .externType _, _, _, hsame, h => TableFree.congr hsame h
  | .union _, _, _, _, h => h
  | .intersection ts, earlier, earlier', hsame, h => GoodRest.congr ts earlier earlier' hsame h
  | .negation t, earlier, earlier', hsame, h => GoodNegation.congr t earlier earlier' hsame h

theorem GoodNegation.congr : ∀ (t : Ty Class) (earlier earlier' : Value Obj → Prop),
    (∀ v, v ≠ .error → (earlier v ↔ earlier' v)) → t.GoodNegation W one earlier → t.GoodNegation W one earlier'
  | .never, _, _, _, h => h
  | .unknown, _, _, _, h => h
  | .any, _, _, _, h => h
  | .error, _, _, _, h => h
  | .primitive _, _, _, _, h => h
  | .singleton _, _, _, _, h => h
  | .externType _, _, _, _, h => h
  | .union _, _, _, _, h => h
  | .intersection _, _, _, _, h => h
  | .negation t, earlier, earlier', hsame, h => ⟨h.1, GoodPart.congr t earlier earlier' hsame h.2⟩

theorem GoodRest.congr : ∀ (ts : List (Ty Class)) (earlier earlier' : Value Obj → Prop),
    (∀ v, v ≠ .error → (earlier v ↔ earlier' v)) → Ty.GoodRest W one earlier ts → Ty.GoodRest W one earlier' ts
  | [], _, _, _, h => h
  | t :: ts, earlier, earlier', hsame, h =>
    ⟨GoodPart.congr t earlier earlier' hsame h.1,
      GoodRest.congr ts _ _ (fun v hv => and_congr_left fun _ => hsame v hv) h.2⟩

end

mutual

/-- After parts that share everything, a part is as good as by itself. -/
theorem GoodPart.good : ∀ (t : Ty Class) (earlier : Value Obj → Prop), (∀ v, v ≠ .error → earlier v) →
    t.GoodPart W one earlier → t.Good W one
  | .never, _, _, h => absurd h id
  | .unknown, _, _, h => h
  | .any, _, _, h => h
  | .error, _, _, h => h
  | .primitive _, _, _, h => h
  | .singleton _, _, _, h => h
  | .externType _, _, _, _ => trivial
  | .union _, _, _, h => h
  | .intersection ts, earlier, hall, h => GoodRest.first ts earlier hall h
  | .negation t, earlier, hall, h => GoodNegation.good t earlier hall h

theorem GoodNegation.good : ∀ (t : Ty Class) (earlier : Value Obj → Prop), (∀ v, v ≠ .error → earlier v) →
    t.GoodNegation W one earlier → t.Calm ∧ t.Good W one
  | .never, _, _, _ => ⟨trivial, trivial⟩
  | .unknown, _, _, _ => ⟨trivial, trivial⟩
  | .any, _, _, h => absurd h id
  | .error, _, _, h => absurd h id
  | .primitive _, _, _, _ => ⟨trivial, trivial⟩
  | .singleton _, _, _, _ => ⟨trivial, trivial⟩
  | .externType _, _, _, _ => ⟨trivial, trivial⟩
  | .union _, _, _, h => h
  | .intersection _, _, _, h => absurd h id
  | .negation t, earlier, hall, h => ⟨h.1, h.1, GoodPart.good t earlier hall h.2⟩

theorem GoodRest.first : ∀ (ts : List (Ty Class)) (earlier : Value Obj → Prop), (∀ v, v ≠ .error → earlier v) →
    Ty.GoodRest W one earlier ts → Ty.GoodFirst W one ts
  | [], _, _, _ => trivial
  | t :: ts, earlier, hall, h => by
    unfold Ty.GoodFirst
    split
    · next htops =>
      exact GoodRest.first ts _ (fun v hv => ⟨hall v hv, has_of_tops t htops v hv⟩) h.2
    · refine ⟨GoodPart.good t earlier hall h.1, GoodRest.congr ts _ _ (fun v hv => ?_) h.2⟩
      exact and_iff_right (hall v hv)

end

end Weaken

end Luwu.Normal
