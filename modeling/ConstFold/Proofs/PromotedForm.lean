import ConstFold.Pass.Typing
import ConstFold.Proofs.CastTypes
import ConstFold.Proofs.PromotedTypes

/-! The promoted form of an expression: what the operands of an operator are cast to, and how a
visit that promotes operands unfolds at each node. -/
namespace ConstFold

variable {e e' x y l r : Expr} {s : Static} {t : Ty} {operands : Operands}

namespace Expr

section Statics

variable (e)

@[simp] theorem inferTy?_withCasts (casts : List Cast) : (e.withCasts casts).inferTy? = e.inferTy? := by
  cases e <;> simp only [withCasts, withStatic, inferTy?] <;> rfl

@[simp] theorem isRead_withCasts (casts : List Cast) : (e.withCasts casts).isRead = e.isRead := by
  cases e <;> rfl

@[simp] theorem isLiteral_withCasts (casts : List Cast) :
    (e.withCasts casts).isLiteral = e.isLiteral := by
  cases e <;> rfl

end Statics

theorem operandTy?_of_resultTy (typed : e.resultTy = some t) : e.operandTy? = some t := by
  rw [operandTy?, typed, Option.some_or]

theorem operandTy?_of_untyped (untyped : e.resultTy = none) : e.operandTy? = e.inferTy? := by
  rw [operandTy?, untyped, Option.none_or]

theorem operandTy?_literal {v : Value} : operandTy? (.literal v s) = s.resultTy := by
  rw [operandTy?, inferTy?]
  exact Static.resultTy_or_ty

theorem inferTy?_unary {op : UnaryOp} :
    inferTy? (.unary op x s) = x.operandTy?.bind (op.promotedTy? x.isRead) := by
  rw [inferTy?, operandTy?]

theorem inferTy?_binary {op : BinaryOp} (noPredicate : op.isPredicate = false) :
    inferTy? (.binary op l r s) = binaryPromotedTy? op l r := by
  rw [inferTy?, noPredicate]
  rfl

theorem inferTy?_predicate {op : BinaryOp} (isPredicate : op.isPredicate) :
    inferTy? (.binary op l r s) = some Ty.boolean := by
  rw [inferTy?, if_pos isPredicate]

theorem binaryPromotedTy?_eq (op : BinaryOp) :
    binaryPromotedTy? op l r =
      l.operandTy?.bind fun left => r.operandTy?.bind (op.promotedTy? left) := by
  rw [binaryPromotedTy?]
  cases l.operandTy? <;> cases r.operandTy? <;> rfl

theorem binaryTargets?_eq (op : BinaryOp) :
    binaryTargets? op l r =
      l.operandTy?.bind fun left => r.operandTy?.bind (op.targets? left) := by
  rw [binaryTargets?]
  cases l.operandTy? <;> cases r.operandTy? <;> rfl

theorem unaryTarget?_eq_some {op : UnaryOp} :
    unaryTarget? op x = some t ↔
      op.isStep = false ∧ unaryPromotedTy? op x = some t := by
  rw [unaryTarget?]
  cases noStep : op.isStep with
  | true => simp
  | false =>
    simp only [Bool.false_eq_true, if_false, Option.filter_eq_some_iff, true_and, and_iff_left_iff_imp]
    intro promoted
    obtain ⟨u, -, promoted⟩ := Option.bind_eq_some_iff.mp promoted
    exact (UnaryOp.promotedTy?_idem noStep promoted).1

/-- The operand of `op` as promotion leaves it. -/
def promotedOperand (operands : Operands) (op : UnaryOp) (x : Expr) : Expr :=
  match unaryTarget? op x with
  | some target => if operands.selects x then x.castTo target else x
  | none => x

/-- The operands of `op` as promotion leaves them. -/
def promotedOperands (operands : Operands) (op : BinaryOp) (l r : Expr) : Expr × Expr :=
  match binaryTargets? op l r with
  | some (left, right) =>
    (if operands.selects l then l.castTo left else l,
      if operands.selects r then r.castTo right else r)
  | none => (l, r)

theorem withCasts_promotedCasts (selected : Bool) (x : Expr) (target : Ty) :
    x.withCasts (promotedCasts selected x target) = if selected then x.castTo target else x := by
  rw [promotedCasts]
  split
  · rw [castTo_eq, casts_withCasts]
  · exact withCasts_casts x

theorem operandTy?_castTo : (x.castTo t).operandTy? = some t :=
  operandTy?_of_resultTy resultTy_castTo

theorem operandTy?_select {u : Ty} (typed : x.operandTy? = some t) (select : Bool) :
    ∃ t', (if select then x.castTo u else x).operandTy? = some t' ∧ (t' = t ∨ t' = u) := by
  cases select with
  | true => exact ⟨u, operandTy?_castTo, .inr rfl⟩
  | false => exact ⟨t, typed, .inl rfl⟩

section Blind

variable {P : Expr → Prop} (blind : ∀ {e : Expr} (casts : List Cast), P e → P (e.withCasts casts))

include blind

/-- Promotion keeps what holds everywhere in an operand, if it does not depend on casts. -/
theorem everywhere_select {select : Bool} (everywhere : x.Everywhere P) :
    (if select then x.castTo t else x).Everywhere P := by
  split
  · rw [castTo_eq]
    exact everywhere.withCasts _ (blind _)
  · exact everywhere

theorem everywhere_promotedOperand {operands : Operands} {op : UnaryOp}
    (everywhere : x.Everywhere P) : (promotedOperand operands op x).Everywhere P := by
  rw [promotedOperand]
  split
  · exact everywhere_select blind everywhere
  · exact everywhere

theorem everywhere_promotedOperands {operands : Operands} {op : BinaryOp} (left : l.Everywhere P)
    (right : r.Everywhere P) :
    (promotedOperands operands op l r).1.Everywhere P ∧
      (promotedOperands operands op l r).2.Everywhere P := by
  rw [promotedOperands]
  split
  · exact ⟨everywhere_select blind left, everywhere_select blind right⟩
  · exact ⟨left, right⟩

end Blind

end Expr

namespace Pass

open ConstFold.Expr

theorem enter_promotion_unary (binary unary : Operands) (op : UnaryOp) :
    (promotion binary unary).enter (.unary op x s) = .unary op (promotedOperand unary op x) s := by
  simp only [enter, promotion, promotedOperand]
  cases unaryTarget? op x with
  | none => rw [withCasts_casts]
  | some target => rw [withCasts_promotedCasts]

theorem enter_promotion_binary (binary unary : Operands) (op : BinaryOp) :
    (promotion binary unary).enter (.binary op l r s) =
      .binary op (promotedOperands binary op l r).1 (promotedOperands binary op l r).2 s := by
  simp only [enter, promotion, promotedOperands]
  cases binaryTargets? op l r with
  | none => rw [withCasts_casts, withCasts_casts]
  | some targets => rw [withCasts_promotedCasts, withCasts_promotedCasts]

theorem enter_applyCasts (selects : Value → Bool) (e : Expr) : (applyCasts selects).enter e = e :=
  enter_default rfl rfl e

theorem withCasts_enterUnary (operands : Operands) (op : UnaryOp) :
    x.withCasts ((promoteOperands operands).enterUnary op x) = promotedOperand operands op x := by
  have entered : (promoteOperands operands).enter (.unary op x {}) =
      .unary op (promotedOperand operands op x) {} := by
    rw [promoteOperands, chain_enter, List.foldl_cons, List.foldl_cons, List.foldl_nil,
      enter_applyCasts, enter_promotion_unary]
  rw [enter, Expr.unary.injEq] at entered
  exact entered.2.1

theorem withCasts_enterBinary (operands : Operands) (op : BinaryOp) :
    l.withCasts ((promoteOperands operands).enterBinary op l r).1 =
        (promotedOperands operands op l r).1 ∧
      r.withCasts ((promoteOperands operands).enterBinary op l r).2 =
        (promotedOperands operands op l r).2 := by
  have entered : (promoteOperands operands).enter (.binary op l r {}) =
      .binary op (promotedOperands operands op l r).1 (promotedOperands operands op l r).2 {} := by
    rw [promoteOperands, chain_enter, List.foldl_cons, List.foldl_cons, List.foldl_nil,
      enter_applyCasts, enter_promotion_binary]
  rw [enter, Expr.binary.injEq] at entered
  exact ⟨entered.2.1, entered.2.2.1⟩

/-- A visit that promotes operands keeps the operator, and visits the promoted operand. -/
theorem visit_promoteOperands_unary (operands : Operands) (op : UnaryOp) :
    (promoteOperands operands).visit (.unary op x s) =
      ((promoteOperands operands).visit (promotedOperand operands op x) >>= fun y =>
        .ok (.unary op y s)) := by
  rw [visit_unary, withCasts_enterUnary]
  rfl

theorem visit_promoteOperands_binary (operands : Operands) (op : BinaryOp) :
    (promoteOperands operands).visit (.binary op l r s) =
      ((promoteOperands operands).visit (promotedOperands operands op l r).1 >>= fun left =>
        (promoteOperands operands).visit (promotedOperands operands op l r).2 >>= fun right =>
          .ok (.binary op left right s)) := by
  rw [visit_binary, (withCasts_enterBinary operands op).1, (withCasts_enterBinary operands op).2]
  rfl

/-- A visit that promotes operands keeps type and casts of an operator. -/
theorem static_visit_promoteOperands {operands : Operands}
    (operator : (∃ op x s, e = .unary op x s) ∨ ∃ op l r s, e = .binary op l r s)
    (visited : (promoteOperands operands).visit e = .ok e') : e'.static = e.static := by
  rcases operator with ⟨op, x, s, rfl⟩ | ⟨op, l, r, s, rfl⟩
  · rw [visit_promoteOperands_unary, bind_eq_ok] at visited
    obtain ⟨y, -, same⟩ := visited
    cases same
    rfl
  · simp only [visit_promoteOperands_binary, bind_eq_ok] at visited
    obtain ⟨left, -, right, -, same⟩ := visited
    cases same
    rfl

theorem leave_promoteOperands (e : Expr) : (promoteOperands operands).leave e = .ok e.applyCasts := by
  cases e <;> rfl

/-- Induction along a visit that promotes operands. -/
theorem promoteOperands_induction {R : Expr → Expr → Prop}
    (leaf : ∀ e, e.isLeaf → R e e.applyCasts)
    (unary : ∀ op x y s, (promoteOperands operands).visit (promotedOperand operands op x) = .ok y →
      R (promotedOperand operands op x) y → R (.unary op x s) (.unary op y s))
    (binary : ∀ op l r left right s,
      (promoteOperands operands).visit (promotedOperands operands op l r).1 = .ok left →
      (promoteOperands operands).visit (promotedOperands operands op l r).2 = .ok right →
      R (promotedOperands operands op l r).1 left → R (promotedOperands operands op l r).2 right →
      R (.binary op l r s) (.binary op left right s))
    (call : ∀ name args visited s, List.Forall₂ R args visited →
      R (.call name args s) (.call name visited s))
    (visited : (promoteOperands operands).visit e = .ok e') : R e e' := by
  have relates : (promoteOperands operands).Relates fun e e' =>
      (promoteOperands operands).visit e = .ok e' ∧ R e e' :=
    { leaf := by
        intro e e' isLeaf left
        rw [leave_promoteOperands] at left
        cases left
        exact ⟨(visit_leaf _ isLeaf).trans (leave_promoteOperands e), leaf e isLeaf⟩
      unary := by
        intro op x y s e' operand left
        rw [withCasts_enterUnary] at operand
        cases left
        refine ⟨?_, unary op x y s operand.1 operand.2⟩
        rw [visit_promoteOperands_unary, operand.1]
        rfl
      binary := by
        intro op l r left right s e' leftVisited rightVisited done
        rw [(withCasts_enterBinary operands op).1] at leftVisited
        rw [(withCasts_enterBinary operands op).2] at rightVisited
        cases done
        refine ⟨?_, binary op l r left right s leftVisited.1 rightVisited.1 leftVisited.2
          rightVisited.2⟩
        rw [visit_promoteOperands_binary, leftVisited.1, rightVisited.1]
        rfl
      call := by
        intro name args visited s e' each left
        cases left
        refine ⟨?_, call name args visited s (each.imp fun _ _ => And.right)⟩
        rw [visit_call, visitAll_eq_ok.mpr (each.imp fun _ _ => And.left)]
        rfl }
  exact (relates.visit visited).2

end Pass

end ConstFold
