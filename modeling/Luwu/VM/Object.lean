import Luwu.Lib.Binary

/-!
# Lua values

`TValue` follows `lobject.h`: one constructor per tag of `lua.h`, carrying what the tag makes valid in
the union.  Collectable values are a tag and the address of the object; `deadkey` is the tag
`LUA_TDEADKEY` that the collector writes over the tag of a key whose value is nil, leaving the address
in place.  Numbers and vector components are words of bits, so `-0`, NaN payloads and the comparison
`==` are those of the machine (`LUA_VECTOR_SIZE` is 3 and components are floats, the default build).

Raw equality is `luaO_rawequalObj`.  It is an equivalence away from NaN (`rawequal_refl`,
`rawequal_symm`, `rawequal_trans`); that is what makes a table indexed by it a map.
-/

namespace Luwu

/-- The collectable kinds, in the order of their tags. -/
inductive GCTag
  | string | table | function | userdata | thread | buffer | luaclass | luaobject
deriving DecidableEq, Repr

/-- The address of a heap object (`uintptr_t`). -/
abbrev GCPtr := BitVec 64

/-- A tagged value (`TValue`; as the content of a `TKey` it may also be a dead key). -/
inductive TValue
  | nil
  | boolean (b : Bool)
  | lightuserdata (p : BitVec 64) (tag : BitVec 32)
  | number (n : Double)
  | integer (l : BitVec 64)
  | vector (x y z : Single)
  | symnone
  | gc (tt : GCTag) (p : GCPtr)
  | deadkey (p : GCPtr)
deriving DecidableEq

namespace TValue

/-- `ttisnil` -/
def isNil : TValue → Bool
  | nil => true
  | _ => false

/-- `iscollectable`: the tag is `LUA_TSTRING` or above. -/
def iscollectable : TValue → Bool
  | gc _ _ => true
  | deadkey _ => true
  | _ => false

/-- `gcvalue`, on a collectable value. -/
def gcvalue : TValue → Option GCPtr
  | gc _ p => some p
  | deadkey p => some p
  | _ => none

/-- `ttype(o) == LUA_TDEADKEY` -/
def isDead : TValue → Bool
  | deadkey _ => true
  | _ => false

end TValue

/-- `luaO_rawequalObj`, and `luaO_rawequalKey` on the content of a key. -/
def luaO_rawequalObj : TValue → TValue → Bool
  | .nil, .nil => true
  | .symnone, .symnone => true
  | .number a, .number b => a.eq b
  | .integer a, .integer b => a == b
  | .vector x y z, .vector x' y' z' => x.eq x' && y.eq y' && z.eq z'
  | .boolean a, .boolean b => a == b
  | .lightuserdata p a, .lightuserdata q b => p == q && a == b
  | .gc tt p, .gc tt' q => tt == tt' && p == q
  | .deadkey p, .deadkey q => p == q
  | _, _ => false

/-- `luai_vecisnan` -/
def luai_vecisnan (x y z : Single) : Bool := x.isNaN || y.isNaN || z.isNaN

namespace TValue

/-- A value that can be a key: not nil, not NaN, and not the tag of a dead key. -/
def ValidKey : TValue → Prop
  | nil => False
  | number n => n.isNaN = false
  | vector x y z => luai_vecisnan x y z = false
  | deadkey _ => False
  | _ => True

instance : DecidablePred ValidKey := fun k => by
  cases k <;> unfold ValidKey <;> infer_instance

@[simp] theorem isNil_iff {v : TValue} : v.isNil = true ↔ v = nil := by
  cases v <;> simp [isNil]

theorem isNil_eq_false_iff {v : TValue} : v.isNil = false ↔ v ≠ nil := by
  cases v <;> simp [isNil]

theorem ValidKey.ne_nil {k : TValue} (h : k.ValidKey) : k ≠ nil := by
  rintro rfl
  exact h

theorem ValidKey.not_dead {k : TValue} (h : k.ValidKey) : k.isDead = false := by
  cases k <;> first | rfl | exact h.elim

end TValue

theorem rawequal_refl {k : TValue} (h : k.ValidKey) : luaO_rawequalObj k k = true := by
  cases k with
  | number n => exact Double.eq_refl h
  | vector x y z =>
    have h : luai_vecisnan x y z = false := h
    simp only [luai_vecisnan, Bool.or_eq_false_iff] at h
    simp only [luaO_rawequalObj, Single.eq_refl h.1.1, Single.eq_refl h.1.2, Single.eq_refl h.2,
      Bool.and_self]
  | _ => simp [luaO_rawequalObj]

theorem rawequal_symm {a b : TValue} (h : luaO_rawequalObj a b = true) :
    luaO_rawequalObj b a = true := by
  cases a <;> cases b <;> simp_all only [luaO_rawequalObj, Bool.and_eq_true, beq_iff_eq, and_self,
    Bool.false_eq_true]
  case number.number => exact Double.eq_symm h
  case vector.vector => exact ⟨⟨Single.eq_symm h.1.1, Single.eq_symm h.1.2⟩, Single.eq_symm h.2⟩

theorem rawequal_comm (a b : TValue) : luaO_rawequalObj a b = luaO_rawequalObj b a := by
  rw [Bool.eq_iff_iff]
  exact ⟨rawequal_symm, rawequal_symm⟩

theorem rawequal_trans {a b c : TValue} (hab : luaO_rawequalObj a b = true)
    (hbc : luaO_rawequalObj b c = true) : luaO_rawequalObj a c = true := by
  cases a <;> cases b <;> simp only [luaO_rawequalObj, Bool.false_eq_true] at hab <;>
    cases c <;> simp_all only [luaO_rawequalObj, Bool.and_eq_true, beq_iff_eq, and_self,
      Bool.false_eq_true]
  case number.number.number => exact Double.eq_trans hab hbc
  case vector.vector.vector =>
    exact ⟨⟨Single.eq_trans hab.1.1 hbc.1.1, Single.eq_trans hab.1.2 hbc.1.2⟩,
      Single.eq_trans hab.2 hbc.2⟩

/-- Two keys equal to a third are equal to each other. -/
theorem rawequal_congr {a b c : TValue} (h : luaO_rawequalObj a b = true) :
    luaO_rawequalObj a c = luaO_rawequalObj b c := by
  rw [Bool.eq_iff_iff]
  exact ⟨rawequal_trans (rawequal_symm h), rawequal_trans h⟩

/-- A dead key equals only a dead key, nil only nil. -/
theorem ValidKey.of_rawequal {a b : TValue} (ha : a.ValidKey) (h : luaO_rawequalObj a b = true) :
    b.ValidKey := by
  cases a <;> cases b <;> simp only [luaO_rawequalObj, Bool.false_eq_true] at h <;>
    try trivial
  case number.number => exact Double.not_nan_of_eq (Double.eq_symm h)
  case vector.vector =>
    simp only [Bool.and_eq_true] at h
    simp only [TValue.ValidKey, luai_vecisnan, Bool.or_eq_false_iff]
    exact ⟨⟨Single.not_nan_of_eq (Single.eq_symm h.1.1),
      Single.not_nan_of_eq (Single.eq_symm h.1.2)⟩, Single.not_nan_of_eq (Single.eq_symm h.2)⟩

end Luwu
