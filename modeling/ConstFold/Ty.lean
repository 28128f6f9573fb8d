import ConstFold.Name
import ConstFold.Primitive

/-! Static types. A class type lists its direct supertypes, so that subtyping needs no
class table. -/
namespace ConstFold

inductive Ty where
  | primitive (p : Primitive)
  | boxed (p : Primitive)
  | string
  | null
  | object
  | classType (name : Name) (supertypes : List Ty)

namespace Ty

mutual

/-- Equality of types is decided along their structure. -/
def decEq : (a b : Ty) → Decidable (a = b)
  | .primitive p, .primitive q => if h : p = q then .isTrue (by rw [h]) else .isFalse (by simp [h])
  | .boxed p, .boxed q => if h : p = q then .isTrue (by rw [h]) else .isFalse (by simp [h])
  | .string, .string => .isTrue rfl
  | .null, .null => .isTrue rfl
  | .object, .object => .isTrue rfl
  | .classType n ts, .classType m us =>
    if h : n = m then
      match decEqList ts us with
      | .isTrue hs => .isTrue (by rw [h, hs])
      | .isFalse hs => .isFalse (by simp [hs])
    else .isFalse (by simp [h])
  | .primitive _, .boxed _ | .primitive _, .string | .primitive _, .null
  | .primitive _, .object | .primitive _, .classType _ _ => .isFalse (by simp)
  | .boxed _, .primitive _ | .boxed _, .string | .boxed _, .null
  | .boxed _, .object | .boxed _, .classType _ _ => .isFalse (by simp)
  | .string, .primitive _ | .string, .boxed _ | .string, .null
  | .string, .object | .string, .classType _ _ => .isFalse (by simp)
  | .null, .primitive _ | .null, .boxed _ | .null, .string
  | .null, .object | .null, .classType _ _ => .isFalse (by simp)
  | .object, .primitive _ | .object, .boxed _ | .object, .string
  | .object, .null | .object, .classType _ _ => .isFalse (by simp)
  | .classType _ _, .primitive _ | .classType _ _, .boxed _ | .classType _ _, .string
  | .classType _ _, .null | .classType _ _, .object => .isFalse (by simp)

def decEqList : (ts us : List Ty) → Decidable (ts = us)
  | [], [] => .isTrue rfl
  | [], _ :: _ => .isFalse (by simp)
  | _ :: _, [] => .isFalse (by simp)
  | t :: ts, u :: us =>
    match decEq t u with
    | .isTrue h =>
      match decEqList ts us with
      | .isTrue hs => .isTrue (by rw [h, hs])
      | .isFalse hs => .isFalse (by simp [hs])
    | .isFalse h => .isFalse (by simp [h])

end

instance : DecidableEq Ty := decEq

abbrev boolean : Ty := .primitive .boolean
abbrev int : Ty := .primitive .int

def asPrimitive? : Ty → Option Primitive
  | .primitive p => some p
  | _ => none

/-- The primitive type itself, or the one a wrapper boxes. -/
def unboxed? : Ty → Option Primitive
  | .primitive p | .boxed p => some p
  | _ => none

/-- A wrapper becomes its primitive type; other types stay. -/
def unbox : Ty → Ty
  | .boxed p => .primitive p
  | t => t

/-- A primitive type becomes its wrapper; other types stay. -/
def box : Ty → Ty
  | .primitive p => .boxed p
  | t => t

def isPrimitive : Ty → Bool
  | .primitive _ => true
  | _ => false

def isBoxed : Ty → Bool
  | .boxed _ => true
  | _ => false

/-- Holds of primitive types only, not of wrappers. -/
def isNumeric (t : Ty) : Bool := t.asPrimitive?.any Primitive.isNumeric

/-- Holds of primitive types only, not of wrappers. -/
def isIntegral (t : Ty) : Bool := t.asPrimitive?.any Primitive.isIntegral

/-- Holds of wrappers too. -/
def isFloating (t : Ty) : Bool := t.unboxed?.any Primitive.isFloating

/-- Holds of the wrapper too. -/
def isBoolean (t : Ty) : Bool := t.unboxed? == some .boolean

def render (names : NameTable) : Ty → String
  | .primitive p => p.keyword
  | .boxed p => p.wrapper
  | .string => "String"
  | .null => "null"
  | .object => "Object"
  | .classType name _ => names.display name

/-! ### Subtyping

The null type is below every reference type and `Object` above; a class is
below whatever one of its supertypes is below. -/

mutual

/-- A primitive type is only a subtype of itself. -/
def isSubtype : Ty → Ty → Bool
  | .primitive p, u => u = .primitive p
  | .boxed p, u => u = .boxed p || u = .object
  | .string, u => u = .string || u = .object
  | .null, u => !u.isPrimitive
  | .object, u => u = .object
  | .classType name supertypes, u =>
    u = .classType name supertypes || u = .object ||
      (!u.isPrimitive && anySubtype supertypes u)

/-- Some type of the list is a subtype. -/
def anySubtype : List Ty → Ty → Bool
  | [], _ => false
  | t :: rest, u => t.isSubtype u || anySubtype rest u

end

/-! ### Conversions, and which of them keep every value -/

/-- Place in the order `byte < short < int < long < float < double`. -/
def wideningRank? : Primitive → Option Nat
  | .byte => some 0
  | .short => some 1
  | .int => some 2
  | .long => some 3
  | .float => some 4
  | .double => some 5
  | .boolean | .char => none

/-- Identity or widening between primitive types. -/
def widens (p q : Primitive) : Bool :=
  match p, q with
  | .char, .int | .char, .long | .char, .float | .char, .double => true
  | .char, _ => false
  | p, q =>
    match wideningRank? p, wideningRank? q with
    | some a, some b => a ≤ b
    | _, _ => false

/-- A value of the first type is accepted for the second without a cast: identity, boxing,
unboxing, widening of primitives and of references. -/
def isAssignable (source target : Ty) : Bool :=
  source = target || source.unbox = target.unbox ||
    match source.unboxed?, target.asPrimitive? with
    | some p, some q => widens p q
    | _, _ => !target.isPrimitive && (source.isSubtype target || source.box.isSubtype target)

/-- An assignable conversion that changes no value, so that a later conversion gives the same
result with it and without it. -/
def isLossless (source target : Ty) : Bool :=
  source = target ||
    match source.unboxed?, target.unboxed? with
    | some p, some q =>
      p = q ||
        (source.isAssignable target && target.isPrimitive &&
          match q with
          | .short | .int | .long => p.isIntegral
          | .float => p = .byte || p = .short || p = .char
          | .double => p ≠ .long
          | _ => false)
    | _, _ => false

/-- Converting to `first` and then to `second` is the same as converting to `second`.
Floating-point numbers reach the narrow types through `int`, but clamp differently in
`long`. -/
def narrowingsMerge (source first second : Ty) : Bool :=
  match source.asPrimitive?, first.asPrimitive?, second.asPrimitive? with
  | some c, some n, some m =>
    c.isNumeric && n.isIntegral && m.isIntegral &&
      match n.bitWidth?, m.bitWidth? with
      | some a, some b => b ≤ a && (c.isIntegral || a ≤ 32)
      | _, _ => false
  | _, _, _ => false

end Ty

end ConstFold
