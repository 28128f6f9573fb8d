import ConstFold.Pipeline
import ConstFold.Proofs.PromotionIdempotence

/-! Expressions to which no pass of the default chain applies any more, double operators apart.
Promoting operands does not make a pass apply again. -/
namespace ConstFold

open ConstFold.Expr ConstFold.Pass

variable {table : DeclTable} {e e' x y l r : Expr} {s : Static}

namespace Expr

/-- No type is inferred for the node, no constant stands for it, no law applies to it, and it has
no value. -/
def IsSettled (table : DeclTable) (e : Expr) : Prop :=
  match e with
  | unary _ _ _ => e.IsInferred ∧ (e.isFoldable → foldedValue? e = .ok none)
  | binary op l r _ =>
    e.IsInferred ∧ (l.isLiteral || r.isLiteral → survivingOperand? op l r = .ok none) ∧
      (e.isFoldable → foldedValue? e = .ok none)
  | read id _ _ => ∀ decl, table.get? id = some decl → decl.constant? true = none
  | literal _ _ | call _ _ _ | typeRef _ _ => True

theorem isFoldable_withCasts (casts : List Cast) : (e.withCasts casts).isFoldable = e.isFoldable := by
  cases e with
  | unary op x s => cases x <;> rfl
  | binary op l r s => cases l <;> cases r <;> rfl
  | literal | read | call | typeRef => rfl

end Expr

namespace Pass

/-- Casts around an operator do not change its value. -/
theorem foldedValue?_withCasts (casts : List Cast) (foldable : e.isFoldable) :
    foldedValue? (e.withCasts casts) = foldedValue? e := by
  rcases foldable_cases foldable with ⟨op, a, sa, s, rfl, -⟩ | ⟨op, a, sa, b, sb, s, rfl⟩
  · simp only [foldedValue?, withCasts, withStatic, visit_promoteOperands_unary, bind_assoc]
    refine congrArg _ (funext fun y => ?_)
    change (promotedValue? (.unary op y s) >>= _) = promotedValue? (.unary op y s) >>= _
    simp only [inferTy?_unary]
    rfl
  · simp only [foldedValue?, withCasts, withStatic, visit_promoteOperands_binary, bind_assoc]
    refine congrArg _ (funext fun left => congrArg _ (funext fun right => ?_))
    change (promotedValue? (.binary op left right s) >>= _) =
      promotedValue? (.binary op left right s) >>= _
    simp only [inferTy?]
    rfl

end Pass

namespace Expr

theorem isSettled_withCasts (casts : List Cast) (settled : e.IsSettled table) :
    (e.withCasts casts).IsSettled table := by
  have inferred (inferred : e.IsInferred) : (e.withCasts casts).IsInferred := by
    rw [IsInferred, ty_withCasts, inferTy?_withCasts]
    exact inferred
  have folded (folded : e.isFoldable → foldedValue? e = .ok none) :
      (e.withCasts casts).isFoldable → foldedValue? (e.withCasts casts) = .ok none := by
    rw [isFoldable_withCasts]
    intro foldable
    rw [foldedValue?_withCasts casts foldable]
    exact folded foldable
  cases e with
  | unary op x s => exact ⟨inferred settled.1, folded settled.2⟩
  | binary op l r s => exact ⟨inferred settled.1, settled.2.1, folded settled.2.2⟩
  | literal | read | call | typeRef => exact settled

theorem settled_withCasts (casts : List Cast) (settled : e.Everywhere (IsSettled table)) :
    (e.withCasts casts).Everywhere (IsSettled table) :=
  settled.withCasts casts (isSettled_withCasts casts)

theorem settled_applyCasts (settled : e.Everywhere (IsSettled table)) :
    e.applyCasts.Everywhere (IsSettled table) := by
  cases e with
  | literal v s =>
    obtain ⟨w, s', literal, -⟩ := castLiteral_eq v s.ty s.casts
    rw [applyCasts, literal]
    exact .literal trivial
  | unary | binary | read | call | typeRef => exact settled

theorem isFoldable_unary {op : UnaryOp} :
    isFoldable (.unary op x s) = (x.isLiteral && !op.isStep) := by
  cases x <;> rfl

theorem isFoldable_binary {op : BinaryOp} :
    isFoldable (.binary op l r s) = (l.isLiteral && r.isLiteral) := by
  cases l <;> first | rfl | cases r <;> rfl

theorem isLiteral_select {select : Bool} {t : Ty} :
    (if select then x.castTo t else x).isLiteral = x.isLiteral := by
  split
  · rw [castTo_eq, isLiteral_withCasts]
  · rfl

theorem isLiteral_promotedOperand (operands : Operands) (op : UnaryOp) :
    (promotedOperand operands op x).isLiteral = x.isLiteral := by
  rw [promotedOperand]
  split
  · exact isLiteral_select
  · rfl

theorem isLiteral_promotedOperands (operands : Operands) (op : BinaryOp) :
    (promotedOperands operands op l r).1.isLiteral = l.isLiteral ∧
      (promotedOperands operands op l r).2.isLiteral = r.isLiteral := by
  rw [promotedOperands]
  split
  · exact ⟨isLiteral_select, isLiteral_select⟩
  · exact ⟨rfl, rfl⟩

end Expr

namespace Pass

/-- Promotion of literals does what promotion of all operands does to them. -/
theorem visit_literal (operands : Operands) (isLiteral : x.isLiteral) :
    (promoteOperands operands).visit x = .ok x.applyCasts := by
  have isLeaf : x.isLeaf := by
    cases x <;> first | rfl | cases isLiteral
  rw [visit_leaf _ isLeaf, leave_promoteOperands]

theorem visit_literals_unary {op : UnaryOp} (isLiteral : x.isLiteral)
    (visited : (promoteOperands .all).visit (promotedOperand .all op x) = .ok y) :
    (promoteOperands .literals).visit (.unary op x s) = .ok (.unary op y s) := by
  have same : promotedOperand .literals op x = promotedOperand .all op x := by
    simp only [promotedOperand, Operands.selects, isLiteral]
  have promoted : (promotedOperand .all op x).isLiteral :=
    (isLiteral_promotedOperand .all op).trans isLiteral
  rw [visit_literal _ promoted] at visited
  rw [visit_promoteOperands_unary, same, visit_literal _ promoted, visited]
  rfl

theorem visit_literals_binary {op : BinaryOp} {left right : Expr} (leftLiteral : l.isLiteral)
    (rightLiteral : r.isLiteral)
    (leftVisited : (promoteOperands .all).visit (promotedOperands .all op l r).1 = .ok left)
    (rightVisited : (promoteOperands .all).visit (promotedOperands .all op l r).2 = .ok right) :
    (promoteOperands .literals).visit (.binary op l r s) = .ok (.binary op left right s) := by
  have same : promotedOperands .literals op l r = promotedOperands .all op l r := by
    simp only [promotedOperands, Operands.selects, leftLiteral, rightLiteral]
  have promotedLeft : (promotedOperands .all op l r).1.isLiteral :=
    (isLiteral_promotedOperands .all op).1.trans leftLiteral
  have promotedRight : (promotedOperands .all op l r).2.isLiteral :=
    (isLiteral_promotedOperands .all op).2.trans rightLiteral
  rw [visit_literal _ promotedLeft] at leftVisited
  rw [visit_literal _ promotedRight] at rightVisited
  rw [visit_promoteOperands_binary, same, visit_literal _ promotedLeft,
    visit_literal _ promotedRight, leftVisited, rightVisited]
  rfl

/-- An operator has the value of its promoted form. -/
theorem foldedValue?_visited (visited : (promoteOperands .literals).visit e = .ok e')
    (ty : e'.ty = e.ty) : foldedValue? e' = foldedValue? e := by
  simp only [foldedValue?, visited, visit_promoteOperands_idem visited, ty]

/-- The type that is inferred for an operator does not change with the promotion of its
operands. -/
theorem inferTy?_visited_unary {op : UnaryOp}
    (visited : (promoteOperands .all).visit (promotedOperand .all op x) = .ok y) :
    inferTy? (.unary op y s) = inferTy? (.unary op x s) := by
  have retypes : Retypes {} (.unary op x {}) (.unary op y {}) :=
    (promotedOperand_retypes .all op).trans (Retypes.congruence.unary (retypes_visit visited))
  have same := retypes.operandTy
  rwa [operandTy?_of_untyped rfl, operandTy?_of_untyped rfl, inferTy?_unary, inferTy?_unary,
    ← inferTy?_unary (s := s), ← inferTy?_unary (s := s)] at same

theorem inferTy?_visited_binary {op : BinaryOp} {left right : Expr}
    (leftVisited : (promoteOperands .all).visit (promotedOperands .all op l r).1 = .ok left)
    (rightVisited : (promoteOperands .all).visit (promotedOperands .all op l r).2 = .ok right) :
    inferTy? (.binary op left right s) = inferTy? (.binary op l r s) := by
  have retypes : Retypes {} (.binary op l r {}) (.binary op left right {}) :=
    (promotedOperands_retypes .all op).trans
      (Retypes.congruence.binary (retypes_visit leftVisited) (retypes_visit rightVisited))
  have same := retypes.operandTy
  rw [operandTy?_of_untyped rfl, operandTy?_of_untyped rfl] at same
  simp only [inferTy?] at same ⊢
  exact same

theorem isLiteral_visited (visited : (promoteOperands .all).visit e = .ok e') :
    e'.isLiteral = e.isLiteral := by
  have retypes : Retypes {} e e' := retypes_visit visited
  exact retypes.isLiteral

/-- Promoting the operands of a settled expression leaves it settled. -/
theorem settled_visit (visited : (promoteOperands .all).visit e = .ok e')
    (settled : e.Everywhere (IsSettled table)) : e'.Everywhere (IsSettled table) := by
  refine promoteOperands_induction (R := fun e e' => e.Everywhere (IsSettled table) →
    e'.Everywhere (IsSettled table)) ?_ ?_ ?_ ?_ visited settled
  · intro e _
    exact settled_applyCasts
  · rintro op x y s operand ih (_ | ⟨node, inside⟩)
    have isLiteral := (isLiteral_visited operand).trans (isLiteral_promotedOperand .all op)
    refine .unary ⟨?_, ?_⟩ (ih (everywhere_promotedOperand isSettled_withCasts inside))
    · intro untyped
      rw [inferTy?_visited_unary operand]
      exact node.1 untyped
    · intro foldable
      rw [isFoldable_unary, isLiteral] at foldable
      have literal := (Bool.and_eq_true_iff.mp foldable).1
      rw [foldedValue?_visited (visit_literals_unary literal operand) rfl]
      exact node.2 (isFoldable_unary.trans foldable)
  · rintro op l r left right s leftVisited rightVisited leftIh rightIh
      (_ | _ | ⟨node, leftInside, rightInside⟩)
    have leftLiteral := (isLiteral_visited leftVisited).trans (isLiteral_promotedOperands .all op).1
    have rightLiteral :=
      (isLiteral_visited rightVisited).trans (isLiteral_promotedOperands .all op).2
    obtain ⟨leftPromoted, rightPromoted⟩ :=
      everywhere_promotedOperands isSettled_withCasts leftInside rightInside
    refine .binary ⟨?_, ?_, ?_⟩ (leftIh leftPromoted) (rightIh rightPromoted)
    · intro untyped
      rw [inferTy?_visited_binary leftVisited rightVisited]
      exact node.1 untyped
    · intro literal
      rw [leftLiteral, rightLiteral] at literal
      -- The same operands are compared with the laws once more.
      have same : survivingOperand? op left right = survivingOperand? op l r := by
        simp only [survivingOperand?, promotedOperands_visited leftVisited rightVisited,
          visit_promoteOperands_idem leftVisited, visit_promoteOperands_idem rightVisited,
          leftVisited, rightVisited]
      exact same.trans (node.2.1 literal)
    · intro foldable
      rw [isFoldable_binary, leftLiteral, rightLiteral] at foldable
      obtain ⟨first, second⟩ := Bool.and_eq_true_iff.mp foldable
      rw [foldedValue?_visited (visit_literals_binary first second leftVisited rightVisited) rfl]
      exact node.2.2 (isFoldable_binary.trans foldable)
  · rintro name args visited s each (_ | _ | _ | _ | ⟨node, inside⟩)
    exact .call trivial (forall_of_forall₂ each (fun _ _ keeps => keeps) inside)

end Pass

end ConstFold
