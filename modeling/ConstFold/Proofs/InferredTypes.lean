import ConstFold.Pass.Typing
import ConstFold.Proofs.PromotedForm

/-! Types by traversal and types by recursion. The pass infers the type of an operator from operands
that it has typed before; inference by itself descends through operands that have no type. Both give
every operator the same type. -/
namespace ConstFold

namespace Expr

mutual

/-- Each operator without a static type is given the one that is inferred where it stands, if there
is one. Nothing else changes. -/
def withInferredTypes : Expr → Expr
  | unary op x s => unary op x.withInferredTypes ⟨s.ty.or (unary op x s).inferTy?, s.casts⟩
  | binary op l r s =>
    binary op l.withInferredTypes r.withInferredTypes ⟨s.ty.or (binary op l r s).inferTy?, s.casts⟩
  | call name args s => call name (withInferredTypesAll args) s
  | literal v s => literal v s
  | read id name s => read id name s
  | typeRef t s => typeRef t s

def withInferredTypesAll : List Expr → List Expr
  | [] => []
  | e :: rest => e.withInferredTypes :: withInferredTypesAll rest

end

theorem withInferredTypesAll_eq (args : List Expr) :
    withInferredTypesAll args = args.map withInferredTypes := by
  induction args with
  | nil => rfl
  | cons e rest ih => rw [withInferredTypesAll, ih, List.map_cons]

theorem isRead_withInferredTypes (e : Expr) : e.withInferredTypes.isRead = e.isRead := by
  cases e <;> simp only [withInferredTypes, isRead]

/-- As an operand, a node may carry the type that is inferred for it. -/
theorem resultTy_orTy (s : Static) (inferred : Option Ty) :
    (Static.resultTy ⟨s.ty.or inferred, s.casts⟩).or inferred = s.resultTy.or inferred := by
  obtain ⟨ty, casts⟩ := s
  cases casts with
  | nil =>
    rw [Static.resultTy_bare, Static.resultTy_bare, Option.or_assoc, Option.or_self]
  | cons cast rest => rw [Static.resultTy_of_casts rfl, Static.resultTy_of_casts rfl]

/-- If inference agrees on a node, its type as an operand stays. -/
theorem operandTy?_withInferredTypes {e : Expr}
    (inferred : e.withInferredTypes.inferTy? = e.inferTy?) :
    e.withInferredTypes.operandTy? = e.operandTy? := by
  rw [operandTy?, operandTy?, inferred]
  cases e with
  | unary op x s =>
    rw [withInferredTypes]
    exact resultTy_orTy s _
  | binary op l r s =>
    rw [withInferredTypes]
    exact resultTy_orTy s _
  | call =>
    rw [withInferredTypes]
    rfl
  | literal | read | typeRef => rw [withInferredTypes]

section Operators

variable {op : UnaryOp} {op' : BinaryOp} {x l r : Expr} (s : Static) {t : Static}

theorem inferTy?_unary_typed (operand : x.withInferredTypes.inferTy? = x.inferTy?) :
    inferTy? (.unary op x.withInferredTypes t) = inferTy? (.unary op x s) := by
  rw [inferTy?_unary, inferTy?_unary, operandTy?_withInferredTypes operand,
    isRead_withInferredTypes]

theorem inferTy?_binary_typed (left : l.withInferredTypes.inferTy? = l.inferTy?)
    (right : r.withInferredTypes.inferTy? = r.inferTy?) :
    inferTy? (.binary op' l.withInferredTypes r.withInferredTypes t) =
      inferTy? (.binary op' l r s) := by
  cases isPredicate : op'.isPredicate with
  | true => rw [inferTy?_predicate isPredicate, inferTy?_predicate isPredicate]
  | false =>
    rw [inferTy?_binary isPredicate, inferTy?_binary isPredicate, binaryPromotedTy?,
      binaryPromotedTy?, operandTy?_withInferredTypes left, operandTy?_withInferredTypes right]

end Operators

/-- From operands that have been typed the same type is inferred as from the original ones. -/
theorem inferTy?_withInferredTypes (e : Expr) : e.withInferredTypes.inferTy? = e.inferTy? := by
  induction e with
  | unary op x s operand =>
    rw [withInferredTypes]
    exact inferTy?_unary_typed s operand
  | binary op l r s left right =>
    rw [withInferredTypes]
    exact inferTy?_binary_typed s left right
  | literal | read | call | typeRef => simp only [withInferredTypes, inferTy?]

theorem withInferredTypes_idem (e : Expr) :
    e.withInferredTypes.withInferredTypes = e.withInferredTypes := by
  induction e with
  | unary op x s operand =>
    rw [withInferredTypes, withInferredTypes, inferTy?_unary_typed s (inferTy?_withInferredTypes x),
      operand, Option.or_assoc, Option.or_self]
  | binary op l r s left right =>
    rw [withInferredTypes, withInferredTypes,
      inferTy?_binary_typed s (inferTy?_withInferredTypes l) (inferTy?_withInferredTypes r), left,
      right, Option.or_assoc, Option.or_self]
  | call name args s each =>
    rw [withInferredTypes, withInferredTypes, withInferredTypesAll_eq, withInferredTypesAll_eq,
      List.map_map]
    exact congrArg (call name · s) (List.map_congr_left each)
  | literal | read | typeRef => simp only [withInferredTypes]

end Expr

namespace Pass

open ConstFold.Expr

/-- A node that is left keeps its type, or is given the inferred one. -/
theorem inferTypes_leave (e : Expr) : inferTypes.leave e = .ok (e.withTy (e.ty.or e.inferTy?)) := by
  cases e with
  | unary op x s =>
    obtain ⟨ty, casts⟩ := s
    cases ty <;> rfl
  | binary op l r s =>
    obtain ⟨ty, casts⟩ := s
    cases ty <;> rfl
  | literal | read | call | typeRef =>
    rw [inferTy?, Expr.ty, Expr.static, Option.or_self]
    rfl

/-- Typing operands before their operator is inferring the type of every operator by itself. -/
theorem visit_inferTypes (e : Expr) : inferTypes.visit e = .ok e.withInferredTypes := by
  induction e with
  | unary op x s operand =>
    have entered : x.withCasts (inferTypes.enterUnary op x) = x := withCasts_casts x
    rw [visit_unary, entered, operand]
    change inferTypes.leave (.unary op x.withInferredTypes s) = _
    rw [inferTypes_leave, inferTy?_unary_typed s (inferTy?_withInferredTypes x), withInferredTypes]
    rfl
  | binary op l r s left right =>
    have enteredLeft : l.withCasts (inferTypes.enterBinary op l r).1 = l := withCasts_casts l
    have enteredRight : r.withCasts (inferTypes.enterBinary op l r).2 = r := withCasts_casts r
    rw [visit_binary, enteredLeft, enteredRight, left, right]
    change inferTypes.leave (.binary op l.withInferredTypes r.withInferredTypes s) = _
    rw [inferTypes_leave,
      inferTy?_binary_typed s (inferTy?_withInferredTypes l) (inferTy?_withInferredTypes r),
      withInferredTypes]
    rfl
  | call name args s each =>
    have visited : inferTypes.visitAll args = .ok (withInferredTypesAll args) := by
      rw [visitAll_eq_ok, withInferredTypesAll_eq, List.forall₂_map_right_iff, List.forall₂_same]
      exact each
    rw [visit_call, visited, withInferredTypes]
    rfl
  | literal | read | typeRef =>
    rw [visit_leaf _ rfl, withInferredTypes]
    rfl

end Pass

/-- The pass succeeds on every expression. It gives each operator that has no static type the type
that is inferred for it in the original expression, which may be none, and changes nothing else. A
second run changes nothing. -/
theorem inferTypes_agrees_with_inference (e : Expr) :
    Pass.inferTypes.visit e = .ok e.withInferredTypes ∧
      Pass.inferTypes.visit e.withInferredTypes = .ok e.withInferredTypes := by
  refine ⟨Pass.visit_inferTypes e, ?_⟩
  rw [Pass.visit_inferTypes, Expr.withInferredTypes_idem]

end ConstFold
