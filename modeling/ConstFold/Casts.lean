import ConstFold.Expr

/-! Casts: those that can go since the language performs them by itself, and those that can be
carried out on a literal. If the type of the whole would change by a removal, an implicit cast to
it stays at the end. -/
namespace ConstFold

/-- Whether a cast from `current` to `target` can go, given the target of the cast around it.
Boxing starts from the exact primitive type, so a cast before it stays unless that type is
there already. -/
def isRedundant (current target : Ty) (next : Option Ty) : Bool :=
  match next with
  | none => current.isAssignable target
  | some outer =>
    !(outer.isBoxed && current ≠ outer.unbox) &&
      if current.isAssignable target then current.isLossless target
      else current.narrowingsMerge target outer

/-- One pass from the inside out: the casts that stay and the type they lead to. -/
def keepCasts : Ty → List Cast → List Cast × Ty
  | current, [] => ([], current)
  | current, cast :: rest =>
    if isRedundant current cast.target (rest.head?.map Cast.target) then keepCasts current rest
    else
      let (kept, last) := keepCasts cast.target rest
      (cast :: kept, last)

/-- One pass over the casts of a node of type `base`, with the type of the whole restored. -/
def dropRedundantOnce (base : Ty) (casts : List Cast) : List Cast :=
  let whole := (casts.getLast?.map Cast.target).getD base
  let (kept, last) := keepCasts base casts
  if last = whole then kept else kept ++ [Cast.toImplicit whole]

/-- Passes until nothing changes, at most `n` of them. -/
def dropRedundant : Nat → Ty → List Cast → List Cast
  | 0, _, casts => casts
  | n + 1, base, casts =>
    let kept := dropRedundantOnce base casts
    if kept = casts then casts else dropRedundant n base kept

namespace Static

/-- The casts of an untyped node are left alone. -/
def removeRedundantCasts (s : Static) : Static :=
  match s.ty with
  | none => s
  | some base => { s with casts := dropRedundant (s.casts.length + 2) base s.casts }

/-- A cast to `target`, unless that is the type already, without casts it makes redundant. -/
def castTo (s : Static) (target : Ty) : Static :=
  if s.resultTy = some target then s
  else removeRedundantCasts { s with casts := s.casts ++ [Cast.toExplicit target] }

end Static

namespace Expr

def removeRedundantCasts (e : Expr) : Expr := e.withStatic e.static.removeRedundantCasts

def castTo (e : Expr) (target : Ty) : Expr := e.withStatic (e.static.castTo target)

/-! ### Casts on literals -/

/-- Carries out casts from the inside out. The first one that is not defined on the constant
stays, and so do those around it. -/
def castLiteral (v : Value) (ty : Option Ty) : List Cast → Expr
  | [] => literal v ⟨ty, []⟩
  | cast :: rest =>
    match v.castTo cast.target with
    | some w => castLiteral w (some cast.target) rest
    | none => literal v ⟨ty, cast :: rest⟩

/-- Carries out the casts of a literal; other nodes are left alone. -/
def applyCasts : Expr → Expr
  | literal v s => castLiteral v s.ty s.casts
  | e => e

/-- A literal converted to a type and typed by it. If a cast is pending, or the conversion is
not defined on the constant, the cast is added instead. -/
def convertLiteral (target : Ty) (e : Expr) : Expr :=
  match e with
  | literal v ⟨ty, []⟩ =>
    match v.castTo target with
    | some w => literal w ⟨some target, []⟩
    | none => literal v ⟨ty, [Cast.toExplicit target]⟩
  | e => e.addCasts [Cast.toExplicit target]

end Expr

end ConstFold
