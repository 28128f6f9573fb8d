import ConstFold.Operator
import ConstFold.Value

/-! Typed Java expressions. Casts are not nodes of their own: every node carries the casts
that surround it, innermost first, next to the static type it has before them. -/
namespace ConstFold

/-- Identity of a declared variable. -/
structure VarId where
  index : UInt32
deriving DecidableEq, Repr

/-- A cast around a node. An implicit cast marks a conversion that the language performs by
itself. -/
structure Cast where
  target : Ty
  implicit : Bool
deriving DecidableEq

def Cast.toExplicit (target : Ty) : Cast := ⟨target, false⟩

def Cast.toImplicit (target : Ty) : Cast := ⟨target, true⟩

/-- What is known of a node's type: the type before its casts, and the casts. -/
structure Static where
  ty : Option Ty := none
  casts : List Cast := []
deriving DecidableEq

/-- The type after the casts. -/
def Static.resultTy (s : Static) : Option Ty :=
  match s.casts.getLast? with
  | some cast => some cast.target
  | none => s.ty

inductive Expr where
  | literal (value : Value) (static : Static)
  | unary (op : UnaryOp) (operand : Expr) (static : Static)
  | binary (op : BinaryOp) (lhs rhs : Expr) (static : Static)
  | read (var : VarId) (name : Name) (static : Static)
  | call (name : Name) (args : List Expr) (static : Static)
  | typeRef (type : Ty) (static : Static)

namespace Expr

def static : Expr → Static
  | literal _ s | unary _ _ s | binary _ _ _ s | read _ _ s | call _ _ s | typeRef _ s => s

def withStatic : Expr → Static → Expr
  | literal v _, s => literal v s
  | unary op x _, s => unary op x s
  | binary op l r _, s => binary op l r s
  | read id n _, s => read id n s
  | call n args _, s => call n args s
  | typeRef t _, s => typeRef t s

def ty (e : Expr) : Option Ty := e.static.ty

def casts (e : Expr) : List Cast := e.static.casts

def withTy (e : Expr) (ty : Option Ty) : Expr := e.withStatic ⟨ty, e.casts⟩

def withCasts (e : Expr) (casts : List Cast) : Expr := e.withStatic ⟨e.ty, casts⟩

/-- Surrounds the node with further casts. -/
def addCasts (e : Expr) (casts : List Cast) : Expr := e.withCasts (e.casts ++ casts)

/-- The type of the whole, casts included. -/
def resultTy (e : Expr) : Option Ty := e.static.resultTy

/-- A literal of its natural type. -/
def ofValue (v : Value) : Expr := literal v { ty := some v.naturalTy }

def value? : Expr → Option Value
  | literal v _ => some v
  | _ => none

def isLiteral (e : Expr) : Bool := e.value?.isSome

/-! ### Structural comparison

Literals compare numerically, so that an expression
with a NaN differs from itself, and one with `0.0` equals one with `-0.0`. -/

mutual

def eqv : Expr → Expr → Bool
  | literal v s, literal w t => v.eqv w && s = t
  | unary p x s, unary q y t => p = q && x.eqv y && s = t
  | binary p l r s, binary q m n t => p = q && l.eqv m && r.eqv n && s = t
  | read i n s, read j m t => i = j && n = m && s = t
  | call n xs s, call m ys t => n = m && eqvList xs ys && s = t
  | typeRef a s, typeRef b t => a = b && s = t
  | _, _ => false

def eqvList : List Expr → List Expr → Bool
  | [], [] => true
  | x :: xs, y :: ys => x.eqv y && eqvList xs ys
  | _, _ => false

end

end Expr

/-! ### Purity

An expression can be dropped, repeated or moved if it assigns nothing, calls nothing and cannot
throw. -/

/-- Whether casts applied to a value of type `ty` may throw. A primitive value never does; a
reference may fail to unbox or be of another class. -/
def castsMayThrow : Option Ty → List Cast → Bool
  | _, [] => false
  | ty, cast :: rest =>
    (!cast.implicit &&
      match ty with
      | none => true
      | some t => !t.isPrimitive && !t.isSubtype cast.target) ||
    castsMayThrow (some cast.target) rest

namespace Expr

def hasSideEffects : Expr → Bool
  | call _ _ _ => true
  | unary op x _ => op.isStep || x.hasSideEffects
  | binary _ l r _ => l.hasSideEffects || r.hasSideEffects
  | literal _ _ | read _ _ _ | typeRef _ _ => false

/-- An integral literal other than zero, with no cast pending. -/
def isNonzeroInteger : Expr → Bool
  | literal v s => s.casts.isEmpty && v.integer?.any (· != 0)
  | _ => false

/-- The node's own type and casts may throw. A wrapper type is taken to, since using its
value unboxes it. -/
def ownThrow (s : Static) : Bool := s.ty.any Ty.isBoxed || castsMayThrow s.ty s.casts

mutual

/-- An integral division may throw unless its divisor is a constant other than zero. -/
def mayThrow : Expr → Bool
  | literal _ s => ownThrow s
  | unary _ x s => ownThrow s || x.mayThrow
  | binary op l r s =>
    ownThrow s ||
      ((op = .div || op = .mod) && !s.ty.any Ty.isFloating && !r.isNonzeroInteger) ||
      l.mayThrow || r.mayThrow
  | read _ _ s => ownThrow s
  | call _ args s => ownThrow s || anyMayThrow args
  | typeRef _ s => ownThrow s

def anyMayThrow : List Expr → Bool
  | [] => false
  | e :: rest => e.mayThrow || anyMayThrow rest

end

def isPure (e : Expr) : Bool := !e.hasSideEffects && !e.mayThrow

/-- The operands of a binary node exchanged, with the operator that fits the new order.
Concatenation has none. One operand must be pure, both for `&&` and `||`, so that the order
cannot be observed. -/
def swapOperands? : Expr → Option Expr
  | binary op l r s =>
    op.flipped?.bind fun flipped =>
      let concatenates := op = .plus && (s.ty = none || s.ty = some .string)
      let reorderable :=
        if op = .and || op = .or then l.isPure && r.isPure else l.isPure || r.isPure
      if !concatenates && reorderable then some (binary flipped r l s) else none
  | _ => none

end Expr

end ConstFold
