import ConstFold.Expr

/-! Passes over expressions and the traversal that runs them. A node is entered before its
operands are visited and left after them. Entering may only surround the operands with other
casts, so the traversal follows the structure of the expression. A pass fails on a constant
expression that has no value. -/
namespace ConstFold

/-- Why a constant expression has no value. -/
inductive Unevaluable where
  | divisionByZero (dividend : Value) (op : BinaryOp) (divisor : Value)
  | nullUnboxed (target : Primitive)
deriving DecidableEq

namespace Unevaluable

/-- The expression in Java source. -/
def expression : Unevaluable → String
  | divisionByZero l op r => l.literal ++ " " ++ op.symbol ++ " " ++ r.literal
  | nullUnboxed p => "(" ++ p.keyword ++ ") null"

def reason : Unevaluable → String
  | divisionByZero _ _ _ => "division by zero"
  | nullUnboxed _ => "null cannot be unboxed"

def message (e : Unevaluable) : String :=
  "constant expression `" ++ e.expression ++ "` cannot be evaluated: " ++ e.reason

end Unevaluable

abbrev Folded := Except Unevaluable Expr

structure Pass where
  /-- The casts that the operand of a unary node is visited with. -/
  enterUnary : UnaryOp → Expr → List Cast := fun _ x => x.casts
  /-- The casts that the operands of a binary node are visited with. -/
  enterBinary : BinaryOp → Expr → Expr → List Cast × List Cast := fun _ l r => (l.casts, r.casts)
  /-- What the pass makes of a single node. -/
  step : Expr → Folded
  /-- What it makes of a node whose operands have been visited. -/
  leave : Expr → Folded := step

namespace Pass

/-- A node with its operands as they will be visited. -/
def enter (pass : Pass) : Expr → Expr
  | .unary op x s => .unary op (x.withCasts (pass.enterUnary op x)) s
  | .binary op l r s =>
    .binary op (l.withCasts (pass.enterBinary op l r).1)
      (r.withCasts (pass.enterBinary op l r).2) s
  | e => e

mutual

/-- Visits a node as if `casts` surrounded it. -/
def visitAs (pass : Pass) (casts : List Cast) : Expr → Folded
  | .unary op x s => do
    let y ← pass.visitAs (pass.enterUnary op x) x
    pass.leave (.unary op y ⟨s.ty, casts⟩)
  | .binary op l r s => do
    let left ← pass.visitAs (pass.enterBinary op l r).1 l
    let right ← pass.visitAs (pass.enterBinary op l r).2 r
    pass.leave (.binary op left right ⟨s.ty, casts⟩)
  | .call name args s => do
    let visited ← pass.visitAll args
    pass.leave (.call name visited ⟨s.ty, casts⟩)
  | .literal v s => pass.leave (.literal v ⟨s.ty, casts⟩)
  | .read id name s => pass.leave (.read id name ⟨s.ty, casts⟩)
  | .typeRef t s => pass.leave (.typeRef t ⟨s.ty, casts⟩)

/-- Visits arguments from left to right. -/
def visitAll (pass : Pass) : List Expr → Except Unevaluable (List Expr)
  | [] => pure []
  | e :: rest => do
    let visited ← pass.visitAs e.static.casts e
    let others ← pass.visitAll rest
    pure (visited :: others)

end

/-- Runs the pass over an expression, operands first. -/
def visit (pass : Pass) (e : Expr) : Folded := pass.visitAs e.casts e

/-- Runs the pass, or keeps the expression if it has no value. -/
def visitOrKeep (pass : Pass) (e : Expr) : Expr :=
  match pass.visit e with
  | .ok visited => visited
  | .error _ => e

/-- Passes run one after another at every node. -/
def chain (passes : List Pass) : Pass where
  enterUnary op x := passes.foldl (fun casts p => p.enterUnary op (x.withCasts casts)) x.casts
  enterBinary op l r :=
    passes.foldl (fun casts p => p.enterBinary op (l.withCasts casts.1) (r.withCasts casts.2))
      (l.casts, r.casts)
  step e := passes.foldlM (fun e p => p.step e) e
  leave e := passes.foldlM (fun e p => p.leave e) e

end Pass

end ConstFold
