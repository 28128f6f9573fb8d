import ConstFold.Proofs.Traversal
import ConstFold.Proofs.TypeSoundness

/-! Expressions that can stand for one another, and passes that only make such replacements. -/
namespace ConstFold

variable {World Thrown : Type} {scope : Scope} {methods : Methods World Thrown}

/-- A replacement for an expression of type `p`: of the same type, with the same effects and the
same value. A variable that is assigned to is replaced by itself only. -/
structure Stands (scope : Scope) (methods : Methods World Thrown) (p : Primitive) (e e' : Expr) :
    Prop where
  typed : e'.exactTy? scope = some p
  agrees : scope.Agrees (e'.eval methods) (e.eval methods)
  isVariable : Expr.exactTy?.isVariable scope e → e' = e

/-- The second expression can stand for the first one wherever that is well-typed. -/
def Refines (scope : Scope) (methods : Methods World Thrown) (e e' : Expr) : Prop :=
  ∀ p, e.exactTy? scope = some p → Stands scope methods p e e'

namespace Refines

variable {e e' e'' x y l l' r r' : Expr} {s : Static}

theorem refl (e : Expr) : Refines scope methods e e :=
  fun _ typed => ⟨typed, .refl _, fun _ => rfl⟩

theorem trans (first : Refines scope methods e e') (second : Refines scope methods e' e'') :
    Refines scope methods e e'' := by
  intro p typed
  have first := first p typed
  have second := second p first.typed
  refine ⟨second.typed, second.agrees.trans first.agrees, fun isVariable => ?_⟩
  have same := first.isVariable isVariable
  exact (second.isVariable (same ▸ isVariable)).trans same

variable (respects : methods.Respects scope)

include respects

theorem unary {op : UnaryOp} (operand : Refines scope methods x y) :
    Refines scope methods (.unary op x s) (.unary op y s) := by
  intro q typed
  obtain ⟨p, t, operandTyped, exact, own, leads, step⟩ := Expr.exactTy?_unary.mp typed
  obtain ⟨typed, agrees, isVariable⟩ := operand p operandTyped
  cases isStep : op.isStep with
  | false =>
    refine ⟨Expr.exactTy?_unary.mpr ⟨p, t, typed, exact, own, leads, by simp [isStep]⟩, ?_,
      fun isVariable => by cases isVariable⟩
    rw [Expr.eval_unary isStep, Expr.eval_unary isStep]
    exact agrees.bind (Expr.keeps_eval respects x p operandTyped) fun _ _ => .refl _
  | true =>
    rw [isVariable (step isStep)]
    exact ⟨‹_›, .refl _, fun _ => rfl⟩

theorem binary {op : BinaryOp} (left : Refines scope methods l l')
    (right : Refines scope methods r r') :
    Refines scope methods (.binary op l r s) (.binary op l' r' s) := by
  intro q typed
  obtain ⟨tl, tr, t, leftTyped, rightTyped, exact, own, leads⟩ := Expr.exactTy?_binary.mp typed
  have left := left tl leftTyped
  have right := right tr rightTyped
  refine ⟨Expr.exactTy?_binary.mpr ⟨tl, tr, t, left.typed, right.typed, exact, own, leads⟩, ?_,
    fun isVariable => by cases isVariable⟩
  rw [Expr.eval_binary, Expr.eval_binary]
  have keepsRight := Expr.keeps_eval respects r tr rightTyped
  refine left.agrees.bind (Expr.keeps_eval respects l tl leftTyped) fun a leftTyped => ?_
  refine Scope.Agrees.bind ?_ (Expr.keeps_evalRight leftTyped keepsRight exact) fun _ _ => .refl _
  rw [Expr.evalRight, Expr.evalRight]
  split
  · exact .refl _
  · exact right.agrees.bind keepsRight fun _ _ => .refl _

theorem all {args args' : List Expr} (each : List.Forall₂ (Refines scope methods) args args')
    (typed : Expr.allExact scope args) :
    Expr.allExact scope args' ∧
      scope.Agrees (Expr.evalAll methods args') (Expr.evalAll methods args) := by
  induction each with
  | nil => exact ⟨typed, .refl _⟩
  | @cons e e' rest rest' first others ih =>
    rw [Expr.allExact, Bool.and_eq_true, Option.isSome_iff_exists] at typed
    obtain ⟨⟨p, typed⟩, othersTyped⟩ := typed
    have first := first p typed
    obtain ⟨othersTyped', othersAgree⟩ := ih othersTyped
    refine ⟨by simp [Expr.allExact, first.typed, othersTyped'], ?_⟩
    rw [Expr.evalAll, Expr.evalAll]
    refine first.agrees.bind (Expr.keeps_eval respects e p typed) fun v _ => ?_
    exact othersAgree.bind (Expr.keeps_evalAll respects rest othersTyped) fun _ _ => .refl _

theorem call {name : Name} {args args' : List Expr}
    (each : List.Forall₂ (Refines scope methods) args args') :
    Refines scope methods (.call name args s) (.call name args' s) := by
  intro q typed
  obtain ⟨argsTyped, p, exact, own, leads⟩ := Expr.exactTy?_call.mp typed
  obtain ⟨argsTyped', agrees⟩ := all respects each argsTyped
  refine ⟨Expr.exactTy?_call.mpr ⟨argsTyped', p, exact, own, leads⟩, ?_,
    fun isVariable => by cases isVariable⟩
  rw [Expr.eval, Expr.eval]
  exact agrees.bind (Expr.keeps_evalAll respects args argsTyped) fun _ _ => .refl _

theorem congruence : Expr.Congruence (Refines scope methods) where
  refl := refl
  trans := trans
  unary := unary respects
  binary := binary respects
  call := call respects

end Refines

/-- What a pass makes of a node can stand for the node. -/
abbrev Pass.Sound (pass : Pass) (scope : Scope) (methods : Methods World Thrown) : Prop :=
  pass.Within (Refines scope methods)

end ConstFold
