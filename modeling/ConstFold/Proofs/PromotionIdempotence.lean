import ConstFold.Proofs.Retyping

/-! Promoting operands twice is promoting them once. After a visit nothing is left to promote, since
a promoted operand is of the type it would be promoted to; and where nothing is left to promote, a
visit changes nothing. -/
namespace ConstFold

open ConstFold.Expr

variable {e e' x y l l' r r' : Expr} {s : Static} {t : Ty} {operands : Operands}

theorem Operands.selects_of_isLiteral (same : y.isLiteral = x.isLiteral) :
    operands.selects y = operands.selects x := by
  cases operands with
  | literals => exact same
  | all => rfl

namespace Expr

theorem castTo_of_resultTy (typed : e.resultTy = some t) : e.castTo t = e := by
  have same : e.static.castTo t = e.static := if_pos typed
  rw [castTo, same]
  cases e <;> rfl

theorem resultTy_applyCasts : e.applyCasts.resultTy = e.resultTy := by
  cases e with
  | literal v s =>
    obtain ⟨w, s', literal, same⟩ := castLiteral_eq v s.ty s.casts
    rw [applyCasts, literal]
    exact same
  | unary | binary | read | call | typeRef => rfl

/-- Nothing is left to promote at the node: the operands that are selected have the types that the
operator converts them to, and the next cast on a literal is not defined on its constant. -/
def IsPromoted (operands : Operands) : Expr → Prop
  | literal v s => ∀ cast ∈ s.casts.head?, v.castTo cast.target = none
  | unary op x _ => ∀ target ∈ unaryTarget? op x, operands.selects x → x.resultTy = some target
  | binary op l r _ =>
    ∀ targets ∈ binaryTargets? op l r,
      (operands.selects l → l.resultTy = some targets.1) ∧
        (operands.selects r → r.resultTy = some targets.2)
  | read _ _ _ | call _ _ _ | typeRef _ _ => True

theorem isPromoted_castLiteral (v : Value) (ty : Option Ty) (casts : List Cast) :
    IsPromoted operands (castLiteral v ty casts) := by
  induction casts generalizing v ty with
  | nil =>
    intro cast first
    cases first
  | cons cast rest ih =>
    rw [castLiteral]
    split
    · exact ih _ _
    · rename_i undefined
      intro first head
      cases head
      exact undefined

theorem everywhere_applyCasts (isLeaf : e.isLeaf) :
    e.applyCasts.Everywhere (IsPromoted operands) := by
  cases e with
  | literal v s =>
    have promoted : IsPromoted operands (castLiteral v s.ty s.casts) :=
      isPromoted_castLiteral v s.ty s.casts
    obtain ⟨w, s', literal, -⟩ := castLiteral_eq v s.ty s.casts
    rw [literal] at promoted
    rw [applyCasts, literal]
    exact .literal promoted
  | read => exact .read trivial
  | typeRef => exact .typeRef trivial
  | unary | binary | call => cases isLeaf

theorem applyCasts_of_isPromoted {v : Value} (promoted : IsPromoted operands (.literal v s)) :
    castLiteral v s.ty s.casts = .literal v s := by
  obtain ⟨ty, casts⟩ := s
  cases casts with
  | nil => rfl
  | cons cast rest =>
    have undefined := promoted cast rfl
    simp only [castLiteral, undefined]

theorem castTo_eq_iff : x.castTo t = x ↔ x.resultTy = some t := by
  constructor
  · intro same
    rw [← same]
    exact resultTy_castTo
  · exact castTo_of_resultTy

/-- The operand of a promoted node stays as it is. -/
theorem promotedOperand_eq_iff {op : UnaryOp} :
    promotedOperand operands op x = x ↔ IsPromoted operands (.unary op x s) := by
  rw [promotedOperand, IsPromoted]
  cases unaryTarget? op x with
  | none => simp
  | some target => simp [castTo_eq_iff]

theorem promotedOperands_eq_iff {op : BinaryOp} :
    promotedOperands operands op l r = (l, r) ↔ IsPromoted operands (.binary op l r s) := by
  rw [promotedOperands, IsPromoted]
  cases binaryTargets? op l r with
  | none => simp
  | some targets => simp [castTo_eq_iff]

end Expr

namespace Pass

theorem resultTy_visit_promoteOperands (visited : (promoteOperands operands).visit e = .ok e') :
    e'.resultTy = e.resultTy := by
  refine promoteOperands_induction (R := fun e e' => e'.resultTy = e.resultTy) ?_ ?_ ?_ ?_ visited
  · exact fun e _ => resultTy_applyCasts
  · exact fun op x y s _ _ => rfl
  · exact fun op l r left right s _ _ _ _ => rfl
  · exact fun name args visited s _ => rfl

/-- An operand that has been cast to a type is of that type. -/
theorem select_visited
    (visited : (promoteOperands operands).visit (if operands.selects x then x.castTo t else x) =
      .ok y) : (if operands.selects y then y.castTo t else y) = y := by
  have retypes : Retypes {} _ y := retypes_visit visited
  have typed := resultTy_visit_promoteOperands visited
  cases selects : operands.selects x with
  | true =>
    rw [selects, if_pos rfl] at typed
    rw [castTo_of_resultTy (typed.trans resultTy_castTo), ite_self]
  | false =>
    rw [selects] at retypes
    rw [Operands.selects_of_isLiteral retypes.isLiteral, if_neg Bool.false_ne_true, selects]
    rfl

/-- An operand that has been promoted stays as it is. -/
theorem promotedOperand_visited {op : UnaryOp}
    (visited : (promoteOperands operands).visit (promotedOperand operands op x) = .ok y) :
    promotedOperand operands op y = y := by
  have retypes : Retypes {} _ y := retypes_visit visited
  cases target : unaryTarget? op x with
  | none =>
    simp only [promotedOperand, target] at retypes
    have again : unaryTarget? op y = none := by
      rw [← target, unaryTarget?, unaryTarget?, unaryPromotedTy?, unaryPromotedTy?,
        retypes.operandTy, retypes.isRead]
    rw [promotedOperand, again]
  | some t =>
    simp only [promotedOperand, target] at retypes visited
    obtain ⟨noStep, promoted⟩ := unaryTarget?_eq_some.mp target
    obtain ⟨u, operandTy, promoted⟩ := Option.bind_eq_some_iff.mp promoted
    have again : unaryTarget? op y = some t := by
      refine unaryTarget?_eq_some.mpr ⟨noStep, ?_⟩
      obtain ⟨u', typed, same⟩ := operandTy?_select (u := t) operandTy (operands.selects x)
      rw [unaryPromotedTy?, retypes.operandTy, typed, Option.bind_some]
      rcases same with rfl | rfl
      · rw [UnaryOp.promotedTy?_of_not_isStep noStep _ x.isRead]
        exact promoted
      · exact (UnaryOp.promotedTy?_idem noStep promoted).2 _
    simp only [promotedOperand, again]
    exact select_visited visited

/-- Operands that have been promoted stay as they are. -/
theorem promotedOperands_visited {op : BinaryOp} {left right : Expr}
    (leftVisited : (promoteOperands operands).visit (promotedOperands operands op l r).1 = .ok left)
    (rightVisited : (promoteOperands operands).visit (promotedOperands operands op l r).2 =
      .ok right) : promotedOperands operands op left right = (left, right) := by
  have retypesLeft : Retypes {} _ left := retypes_visit leftVisited
  have retypesRight : Retypes {} _ right := retypes_visit rightVisited
  cases targets : binaryTargets? op l r with
  | none =>
    simp only [promotedOperands, targets] at retypesLeft retypesRight
    have again : binaryTargets? op left right = none := by
      rw [← targets, binaryTargets?_eq, binaryTargets?_eq, retypesLeft.operandTy,
        retypesRight.operandTy]
    rw [promotedOperands, again]
  | some pair =>
    obtain ⟨a, b⟩ := pair
    simp only [promotedOperands, targets] at retypesLeft retypesRight leftVisited rightVisited
    rw [binaryTargets?_eq] at targets
    obtain ⟨tl, leftTy, targets⟩ := Option.bind_eq_some_iff.mp targets
    obtain ⟨tr, rightTy, targets⟩ := Option.bind_eq_some_iff.mp targets
    have again : binaryTargets? op left right = some (a, b) := by
      obtain ⟨tl', leftTy, sameLeft⟩ := operandTy?_select (u := a) leftTy (operands.selects l)
      obtain ⟨tr', rightTy, sameRight⟩ := operandTy?_select (u := b) rightTy (operands.selects r)
      rw [binaryTargets?_eq, retypesLeft.operandTy, retypesRight.operandTy, leftTy, rightTy]
      exact (BinaryOp.targets?_idem targets sameLeft sameRight).1
    simp only [promotedOperands, again]
    rw [select_visited leftVisited, select_visited rightVisited]

/-- After a visit nothing is left to promote. -/
theorem isPromoted_visit (visited : (promoteOperands operands).visit e = .ok e') :
    e'.Everywhere (IsPromoted operands) := by
  refine promoteOperands_induction
    (R := fun _ e' => e'.Everywhere (IsPromoted operands)) ?_ ?_ ?_ ?_ visited
  · intro e isLeaf
    exact everywhere_applyCasts isLeaf
  · intro op x y s operand promoted
    exact .unary (promotedOperand_eq_iff.mp (promotedOperand_visited operand)) promoted
  · intro op l r left right s leftVisited rightVisited leftPromoted rightPromoted
    exact .binary (promotedOperands_eq_iff.mp (promotedOperands_visited leftVisited rightVisited))
      leftPromoted rightPromoted
  · intro name args visited s each
    refine .call trivial ?_
    exact forall_of_forall₂ (P := fun _ => True) each (fun _ _ promoted _ => promoted)
      fun _ _ => trivial

/-- A visit changes nothing where nothing is left to promote. -/
theorem visit_of_isPromoted (promoted : e.Everywhere (IsPromoted operands)) :
    (promoteOperands operands).visit e = .ok e := by
  induction promoted with
  | literal node =>
    rw [visit_leaf _ rfl, leave_promoteOperands, Expr.applyCasts, applyCasts_of_isPromoted node]
  | unary node _ operand =>
    rw [visit_promoteOperands_unary, promotedOperand_eq_iff.mpr node, operand]
    rfl
  | binary node _ _ left right =>
    rw [visit_promoteOperands_binary, promotedOperands_eq_iff.mpr node, left, right]
    rfl
  | call _ _ each =>
    rw [visit_call, visitAll_eq_ok.mpr (List.forall₂_same.mpr each)]
    rfl
  | read | typeRef =>
    rw [visit_leaf _ rfl, leave_promoteOperands]
    rfl

theorem visit_promoteOperands_idem (visited : (promoteOperands operands).visit e = .ok e') :
    (promoteOperands operands).visit e' = .ok e' :=
  visit_of_isPromoted (isPromoted_visit visited)

theorem visit_promoteOperands_total (operands : Operands) (e : Expr) :
    ∃ e', (promoteOperands operands).visit e = .ok e' :=
  visit_total (fun e => ⟨_, leave_promoteOperands e⟩) e

end Pass

/-- Promotion of operands, of literals only or of all, succeeds on every expression and keeps its
type as an operand. Afterwards nothing is left to promote anywhere, and promoting again changes
nothing. -/
theorem promotion_idempotent (operands : Operands) (e : Expr) :
    ∃ e', (Pass.promoteOperands operands).visit e = .ok e' ∧ e'.operandTy? = e.operandTy? ∧
      e'.Everywhere (IsPromoted operands) ∧ (Pass.promoteOperands operands).visit e' = .ok e' := by
  obtain ⟨e', visited⟩ := Pass.visit_promoteOperands_total operands e
  have retypes : Retypes {} e e' := Pass.retypes_visit visited
  exact ⟨e', visited, retypes.operandTy, Pass.isPromoted_visit visited,
    Pass.visit_promoteOperands_idem visited⟩

end ConstFold
