import ConstFold.Pass.Constant
import ConstFold.Proofs.Soundness.Identity

/-! Soundness of operators on literals that are replaced by their value. -/
namespace ConstFold.Pass

variable {World Thrown : Type} {scope : Scope} {methods : Methods World Thrown}
  {p q t tl tr : Primitive} {s sa sb : Static} {a b va vb : Value}

theorem value_typed (typed : (Expr.literal a sa).exactTy? scope = some p)
    (value : Reference.castAll a sa.casts = some va) : va.primitive? = some p := by
  obtain ⟨b, own, -, -, leads⟩ := Expr.exactTy?_literal.mp typed
  obtain ⟨w, cast, result⟩ := Reference.castAll_exact own leads
  cases value.symm.trans cast
  exact result

theorem exists_value (typed : (Expr.literal a sa).exactTy? scope = some p) :
    ∃ v, Reference.castAll a sa.casts = some v := by
  obtain ⟨b, own, -, -, leads⟩ := Expr.exactTy?_literal.mp typed
  obtain ⟨w, cast, -⟩ := Reference.castAll_exact own leads
  exact ⟨w, cast⟩

/-- A promoted literal is visited by carrying out its casts. -/
theorem visit_promoted_literal (operands : Operands)
    (typed : (Expr.literal a sa).exactTy? scope = some p)
    (value : Reference.castAll a sa.casts = some va) (related : p.casts t) :
    ∃ w, va.convert t = some w ∧ w.primitive? = some t ∧
      (promoteOperands operands).visit ((Expr.literal a sa).castTo (.primitive t)) =
        .ok (.literal w ⟨some (.primitive t), []⟩) := by
  obtain ⟨b, own, exact, base, leads⟩ := Expr.exactTy?_literal.mp typed
  obtain ⟨castLeads, castValue⟩ := Static.castTo_exact (.inr base) exact leads related
  obtain ⟨w, cast, result, literal⟩ := castLiteral_exact own castLeads
  obtain ⟨w', converted, made, -⟩ := Value.convert_exact (value_typed typed value) related
  have same : w' = w := by
    rw [castValue a own, value, Option.bind_some, made] at cast
    exact Option.some.inj cast
  subst same
  refine ⟨w', converted, result, ?_⟩
  rw [Expr.castTo_eq, visit_leaf _ rfl]
  change Except.ok (Expr.castLiteral a sa.ty (sa.castTo (.primitive t)).casts) = _
  rw [base, literal]

theorem ofResult?_exact {u : Value} {casts : List Cast} (typed : u.primitive? = some t)
    (leads : castTy? t casts = some q) :
    ∃ w, Reference.castAll u casts = some w ∧ w.primitive? = some q ∧
      Expr.ofResult? u (.primitive t) casts = some (.literal w ⟨some (.primitive q), []⟩) := by
  obtain ⟨w, cast, result, literal⟩ := castLiteral_exact typed leads
  refine ⟨w, cast, result, ?_⟩
  rw [Expr.ofResult?, Value.castTo_primitive typed, Value.convert_self typed, Option.map_some,
    literal]

theorem exactTy?_constant (scope : Scope) {x : Value} (typed : x.primitive? = some t) (exact : t.isExact) :
    (Expr.literal x ⟨some (.primitive t), []⟩).exactTy? scope = some t :=
  Expr.exactTy?_literal.mpr ⟨t, typed, exact, rfl, rfl⟩

/-- The value of an operator on promoted constants; a division by zero has none. -/
theorem promotedValue?_binary {op : BinaryOp} {x y : Value} (left : x.primitive? = some tl)
    (right : y.primitive? = some tr) (exact : op.exactTy? tl tr = some t)
    (operands : op.exactOperands tl tr = (tl, tr)) :
    (Reference.binary? op x y = some .divisionByZero ∧
      promotedValue? (.binary op (.literal x ⟨some (.primitive tl), []⟩)
        (.literal y ⟨some (.primitive tr), []⟩) s) = .error (.divisionByZero x op y)) ∨
    ∃ u, Reference.binary? op x y = some (.value u) ∧ u.primitive? = some t ∧
      promotedValue? (.binary op (.literal x ⟨some (.primitive tl), []⟩)
        (.literal y ⟨some (.primitive tr), []⟩) s) = .ok (some u) := by
  obtain ⟨leftCasts, rightCasts⟩ := BinaryOp.casts_exactOperands exact
  rw [operands] at leftCasts rightCasts
  have leftTyped := exactTy?_constant Scope.empty left (Primitive.isExact_of_casts leftCasts)
  have rightTyped := exactTy?_constant Scope.empty right (Primitive.isExact_of_casts rightCasts)
  have computedIn := Expr.binaryPromotedTy?_exact leftTyped rightTyped exact
  rw [operands] at computedIn
  have unfolded : promotedValue? (.binary op (.literal x ⟨some (.primitive tl), []⟩)
      (.literal y ⟨some (.primitive tr), []⟩) s) =
      (checkDivisor op (.primitive tl) x y >>= fun _ => .ok (op.apply (.primitive tl) x y)) := by
    simp only [promotedValue?, Expr.constant?, computedIn]
    rfl
  rw [unfolded]
  rcases BinaryOp.apply_exact left right exact operands with
    ⟨division, divides, integral, zero⟩ | ⟨nonzero, u, applied, value, typed⟩
  · have check : checkDivisor op (.primitive tl) x y = .error (.divisionByZero x op y) := by
      rw [checkDivisor, if_pos]
      simpa [Ty.isIntegral, Ty.asPrimitive?, integral, zero] using divides
    exact .inl ⟨division, by rw [check]; rfl⟩
  · have check : checkDivisor op (.primitive tl) x y = .ok () := by
      rw [checkDivisor, if_neg]
      intro zero
      simp only [Bool.and_eq_true, Bool.or_eq_true, decide_eq_true_eq] at zero
      exact nonzero ⟨zero.1.1, zero.2⟩
    exact .inr ⟨u, value, typed, by rw [check, applied]; rfl⟩

theorem foldNode_error {e promoted : Expr} {reason : Unevaluable}
    (visited : (promoteOperands .literals).visit e = .ok promoted)
    (failed : promotedValue? promoted = .error reason) : foldNode e = .error reason := by
  rw [foldNode, visited]
  change (promotedValue? promoted >>= _) = _
  rw [failed]
  rfl

/-- A value in the type of the node takes its place, with the casts of the node carried out. -/
theorem foldNode_value {e promoted : Expr} {u : Value}
    (visited : (promoteOperands .literals).visit e = .ok promoted)
    (value : promotedValue? promoted = .ok (some u)) (typed : u.primitive? = some t)
    (own : e.static.Admits t) (inferred : promoted.inferTy? = some (.primitive t))
    (leads : castTy? t e.casts = some q) :
    ∃ w, Reference.castAll u e.casts = some w ∧ w.primitive? = some q ∧
      foldNode e = .ok (.literal w ⟨some (.primitive q), []⟩) := by
  have nodeTy : e.ty.or promoted.inferTy? = some (.primitive t) := by
    rcases own with untyped | typed
    · rw [Expr.ty, untyped, inferred]
      rfl
    · rw [Expr.ty, typed]
      rfl
  obtain ⟨w, cast, result, literal⟩ := ofResult?_exact typed leads
  refine ⟨w, cast, result, ?_⟩
  rw [foldNode, visited]
  change (promotedValue? promoted >>= _) = _
  rw [value, nodeTy]
  change Except.ok ((Expr.ofResult? u (.primitive t) e.casts).getD e) = _
  rw [literal]
  rfl

/-- Literal operands are promoted to constants without casts, and the operator computes the same
from these. -/
theorem visit_literals {op : BinaryOp} (operands : Operands)
    (left : (Expr.literal a sa).exactTy? scope = some tl)
    (right : (Expr.literal b sb).exactTy? scope = some tr) (exact : op.exactTy? tl tr = some t)
    (leftValue : Reference.castAll a sa.casts = some va)
    (rightValue : Reference.castAll b sb.casts = some vb) :
    ∃ x y tx ty, x.primitive? = some tx ∧ y.primitive? = some ty ∧ op.exactTy? tx ty = some t ∧
      op.exactOperands tx ty = (tx, ty) ∧ Reference.binary? op x y = Reference.binary? op va vb ∧
      (promoteOperands operands).visit (.binary op (.literal a sa) (.literal b sb) s) =
        .ok (.binary op (.literal x ⟨some (.primitive tx), []⟩)
          (.literal y ⟨some (.primitive ty), []⟩) s) := by
  obtain ⟨leftCasts, rightCasts⟩ := BinaryOp.casts_exactOperands exact
  obtain ⟨x, leftMade, xTyped, leftVisited⟩ :=
    visit_promoted_literal operands left leftValue leftCasts
  obtain ⟨y, rightMade, yTyped, rightVisited⟩ :=
    visit_promoted_literal operands right rightValue rightCasts
  obtain ⟨exactBoth, sameBoth⟩ := BinaryOp.exactOperands_both exact
  have promoted := BinaryOp.reference_promoteBoth (value_typed left leftValue)
    (value_typed right rightValue) exact leftMade rightMade
  refine ⟨x, y, _, _, xTyped, yTyped, exactBoth, sameBoth, promoted, ?_⟩
  have selects (v : Value) (s : Static) : operands.selects (.literal v s) = true := by
    cases operands <;> rfl
  rw [visit_promoteOperands operands left right exact]
  simp only [selects, if_true, leftVisited, rightVisited]
  rfl

/-- A division of literals by zero has no value. -/
theorem foldNode_division {op : BinaryOp} (left : (Expr.literal a sa).exactTy? scope = some tl)
    (right : (Expr.literal b sb).exactTy? scope = some tr) (exact : op.exactTy? tl tr = some t)
    (leftValue : Reference.castAll a sa.casts = some va)
    (rightValue : Reference.castAll b sb.casts = some vb)
    (division : Reference.binary? op va vb = some .divisionByZero) :
    ∃ x y, foldNode (.binary op (.literal a sa) (.literal b sb) s) =
      .error (.divisionByZero x op y) := by
  obtain ⟨x, y, tx, ty, xTyped, yTyped, exact, operands, promoted, visited⟩ :=
    visit_literals (s := s) .literals left right exact leftValue rightValue
  rcases promotedValue?_binary (s := s) xTyped yTyped exact operands with
    ⟨-, failed⟩ | ⟨u, value, -, -⟩
  · exact ⟨x, y, foldNode_error visited failed⟩
  · cases (promoted.trans division).symm.trans value

/-- A binary operator on literals is replaced by its value, unless it divides by zero. -/
theorem foldNode_binary {op : BinaryOp}
    (typed : (Expr.binary op (.literal a sa) (.literal b sb) s).exactTy? scope = some q)
    (left : Reference.castAll a sa.casts = some va)
    (right : Reference.castAll b sb.casts = some vb) :
    (Reference.binary? op va vb = some .divisionByZero ∧
      ∃ x y, foldNode (.binary op (.literal a sa) (.literal b sb) s) =
        .error (.divisionByZero x op y)) ∨
    ∃ u w, Reference.binary? op va vb = some (.value u) ∧ Reference.castAll u s.casts = some w ∧
      w.primitive? = some q ∧ foldNode (.binary op (.literal a sa) (.literal b sb) s) =
        .ok (.literal w ⟨some (.primitive q), []⟩) := by
  obtain ⟨tl, tr, t, leftTyped, rightTyped, exact, own, leads⟩ := Expr.exactTy?_binary.mp typed
  obtain ⟨x, y, tx, ty, xTyped, yTyped, exactBoth, operands, promoted, visited⟩ :=
    visit_literals (s := s) .literals leftTyped rightTyped exact left right
  rcases promotedValue?_binary (s := s) xTyped yTyped exactBoth operands with
    ⟨division, -⟩ | ⟨u, value, result, computed⟩
  · have division := promoted.symm.trans division
    exact .inl ⟨division, foldNode_division leftTyped rightTyped exact left right division⟩
  · have exactOf {x : Value} {p q : Primitive} (typed : x.primitive? = some p)
        (related : q.casts p) :=
      Expr.operandTy?_exact _ _
        (exactTy?_constant scope typed (Primitive.isExact_of_casts related))
    obtain ⟨leftCasts, rightCasts⟩ := BinaryOp.casts_exactOperands exactBoth
    rw [operands] at leftCasts rightCasts
    have inferred := Expr.inferTy?_binary_exact (s := s) (exactOf xTyped leftCasts)
      (exactOf yTyped rightCasts) exactBoth
    obtain ⟨w, cast, typed, folded⟩ := foldNode_value visited computed result own inferred leads
    exact .inr ⟨u, w, promoted.symm.trans value, cast, typed, folded⟩

/-- A unary operator on a literal is replaced by its value. -/
theorem foldNode_unary {op : UnaryOp}
    (typed : (Expr.unary op (.literal a sa) s).exactTy? scope = some q)
    (noStep : op.isStep = false) (operand : Reference.castAll a sa.casts = some va) :
    ∃ u w, Reference.unary? op va = some u ∧ Reference.castAll u s.casts = some w ∧
      w.primitive? = some q ∧
        foldNode (.unary op (.literal a sa) s) = .ok (.literal w ⟨some (.primitive q), []⟩) := by
  obtain ⟨p, t, operandTyped, exact, own, leads, -⟩ := Expr.exactTy?_unary.mp typed
  obtain ⟨related, again⟩ := UnaryOp.promoted_exact exact noStep
  obtain ⟨x, made, xTyped, operandVisited⟩ :=
    visit_promoted_literal .literals operandTyped operand related
  have visited : (promoteOperands .literals).visit (.unary op (.literal a sa) s) =
      .ok (.unary op (.literal x ⟨some (.primitive t), []⟩) s) := by
    rw [visit_promoteOperand .literals operandTyped exact noStep]
    simp only [Operands.selects, Expr.isLiteral, Expr.value?, Option.isSome_some, if_true,
      operandVisited]
    rfl
  obtain ⟨u, applied, value, result⟩ := UnaryOp.apply_exact xTyped again noStep
  have computed : promotedValue? (.unary op (.literal x ⟨some (.primitive t), []⟩) s) =
      .ok (some u) := by
    rw [← applied]
    rfl
  have inferred := Expr.inferTy?_unary_exact (s := s) (Expr.operandTy?_exact _ _
    (exactTy?_constant scope xTyped (Primitive.isExact_of_casts related))) again (by simp [noStep])
  obtain ⟨w, cast, typed, folded⟩ := foldNode_value visited computed result own inferred leads
  refine ⟨u, w, ?_, cast, typed, folded⟩
  rw [← UnaryOp.reference_promote (value_typed operandTyped operand) exact noStep made, value]

theorem eval_literal (value : Reference.castAll a sa.casts = some va) :
    (Expr.literal a sa).eval methods = pure va := by
  rw [Expr.eval, value]
  rfl

/-- With a constant on the right, it does not matter that the left operand may decide alone. -/
theorem evalRight_pure {op : BinaryOp} (left : va.primitive? = some tl)
    (right : vb.primitive? = some tr) (exact : op.exactTy? tl tr = some t) :
    Expr.evalRight op va (pure vb : Evaluation World Thrown Value) =
      .ofOutcome (Reference.binary? op va vb) := by
  rw [Expr.evalRight, pure_bind]
  split
  · rename_i decides
    simp only [BinaryOp.decides, Bool.or_eq_true, Bool.and_eq_true, decide_eq_true_eq] at decides
    rcases decides with ⟨rfl, rfl⟩ | ⟨rfl, rfl⟩
    all_goals
      simp only [BinaryOp.exactTy?, Option.ite_none_right_eq_some, Bool.and_eq_true,
        decide_eq_true_eq] at exact
      obtain ⟨b, rfl⟩ := Value.exists_bool (right.trans (congrArg some exact.1.2))
      rfl
  · rfl

theorem sound_evaluateLiterals : evaluateLiterals.Sound scope methods := by
  refine Within.ofLeave Refines.refl rfl rfl fun e e' done => ?_
  change evaluateLiterals.step e = .ok e' at done
  rw [evaluateLiterals_step] at done
  split at done
  · rename_i foldable
    intro q typed
    rcases Expr.foldable_cases foldable with
      ⟨op, a, sa, s, rfl, noStep⟩ | ⟨op, a, sa, b, sb, s, rfl⟩
    · obtain ⟨p, t, operand, exact, -, leads, -⟩ := Expr.exactTy?_unary.mp typed
      obtain ⟨va, operandValue⟩ := exists_value operand
      obtain ⟨u, w, value, cast, result, folded⟩ := foldNode_unary typed noStep operandValue
      cases folded.symm.trans done
      refine ⟨exactTy?_constant scope result (Expr.isExact_of_typed typed), ?_,
        fun isVariable => by cases isVariable⟩
      rw [Expr.eval_unary noStep, eval_literal operandValue, pure_bind, value,
        Evaluation.ofOption_some, pure_bind, cast, eval_literal rfl]
      exact .refl _
    · obtain ⟨tl, tr, t, left, right, exact, -, leads⟩ := Expr.exactTy?_binary.mp typed
      obtain ⟨va, leftValue⟩ := exists_value left
      obtain ⟨vb, rightValue⟩ := exists_value right
      rcases foldNode_binary typed leftValue rightValue with
        ⟨-, x, y, failed⟩ | ⟨u, w, value, cast, result, folded⟩
      · cases failed.symm.trans done
      · cases folded.symm.trans done
        refine ⟨exactTy?_constant scope result (Expr.isExact_of_typed typed), ?_,
          fun isVariable => by cases isVariable⟩
        rw [Expr.eval_binary, eval_literal leftValue, eval_literal rightValue, pure_bind,
          evalRight_pure (value_typed left leftValue) (value_typed right rightValue) exact, value,
          Evaluation.ofOutcome_value, pure_bind, cast, eval_literal rfl]
        exact .refl _
  · cases done
    exact .refl _

end ConstFold.Pass
