import ConstFold.Proofs.MeaningPreservation

/-! Constant expressions over the exact types. Any chain of passes in which operators on literals
are evaluated agrees with the reference: an expression with a value becomes a literal with this
value, and a division by zero is reported. -/
namespace ConstFold

/-- Casts to exact types. -/
def castsAreExact (casts : List Cast) : Bool :=
  casts.all fun cast =>
    match cast.target with
    | .primitive p => p.isExact
    | _ => false

/-- Literals of their natural type, operators that are untyped or have the inferred type, and
casts, all over the exact types. -/
def Expr.isConstant : Expr → Bool
  | literal v s =>
    v.primitive?.any Primitive.isExact && s.ty = some v.naturalTy && castsAreExact s.casts
  | unary op x s =>
    (s.ty = none || s.ty = inferTy? (unary op x s)) && castsAreExact s.casts && x.isConstant
  | binary op l r s =>
    (s.ty = none || s.ty = inferTy? (binary op l r s)) && castsAreExact s.casts &&
      l.isConstant && r.isConstant
  | read _ _ _ | call _ _ _ | typeRef _ _ => false

variable {v w : Value} {p q t : Primitive} {casts : List Cast} {s : Static} {scope : Scope}

/-! What the reference has a value for is well-typed. -/

namespace Reference

theorem casts_of_cast (typed : v.primitive? = some p) (exact : p.isExact) (target : q.isExact)
    (made : cast v q = some w) : p.casts q := by
  rcases p.exact_cases exact with rfl | integral
  · obtain ⟨b, rfl⟩ := Value.exists_bool typed
    by_cases boolean : q = .boolean
    · rw [boolean]
      rfl
    · simp [cast, boolean] at made
  · rcases q.exact_cases target with rfl | integral'
    · obtain ⟨i, number⟩ := Value.exists_integer typed integral
      cases v <;> simp only [Value.integer?, reduceCtorEq] at number
      all_goals cases made
    · simp [Primitive.casts, integral, integral']

theorem castTy?_of_castAll (typed : v.primitive? = some p) (exact : p.isExact)
    (targets : castsAreExact casts) (cast : castAll v casts = some w) :
    ∃ q, castTy? p casts = some q := by
  induction casts generalizing v p with
  | nil => exact ⟨p, rfl⟩
  | cons first rest ih =>
    simp only [castsAreExact, List.all_cons, Bool.and_eq_true] at targets
    obtain ⟨u, made, cast⟩ := Option.bind_eq_some_iff.mp cast
    obtain ⟨firstExact, rest⟩ := targets
    split at firstExact
    · rename_i t target
      rw [target, Ty.unboxed?, Option.bind_some] at made
      have related := casts_of_cast typed exact firstExact made
      obtain ⟨u', -, again, result⟩ := Value.convert_exact typed related
      cases made.symm.trans again
      obtain ⟨q, leads⟩ := ih result firstExact rest cast
      exact ⟨q, castTy?_cons.mpr ⟨t, target, related, leads⟩⟩
    · cases firstExact

theorem noStep_of_unary {op : UnaryOp} (computed : unary? op v = some w) : op.isStep = false := by
  cases op <;> first | rfl | (cases v <;> simp [unary?, integer?] at computed)

theorem exactTy?_of_unary {op : UnaryOp} (typed : v.primitive? = some p) (exact : p.isExact)
    (computed : unary? op v = some w) : ∃ t, op.exactTy? p = some t := by
  cases v <;> simp only [Value.primitive?, Option.some.injEq, reduceCtorEq] at typed
  all_goals subst typed
  all_goals cases op <;> first
    | exact ⟨_, rfl⟩
    | contradiction

theorem exactTy?_of_binary {op : BinaryOp} {outcome : Outcome} (left : v.primitive? = some p)
    (leftExact : p.isExact) (right : w.primitive? = some q) (rightExact : q.isExact)
    (computed : binary? op v w = some outcome) : ∃ t, op.exactTy? p q = some t := by
  rcases p.exact_cases leftExact with rfl | leftIntegral
  · obtain ⟨a, rfl⟩ := Value.exists_bool left
    rcases q.exact_cases rightExact with rfl | rightIntegral
    · obtain ⟨b, rfl⟩ := Value.exists_bool right
      cases op <;> first
        | exact ⟨_, rfl⟩
        | contradiction
    · obtain ⟨j, other⟩ := Value.exists_integer right rightIntegral
      cases w <;> simp [Value.integer?, binary?, shift?, integer?, promoted?, rank?]
        at other computed
  · obtain ⟨i, number⟩ := Value.exists_integer left leftIntegral
    rcases q.exact_cases rightExact with rfl | rightIntegral
    · obtain ⟨b, rfl⟩ := Value.exists_bool right
      cases v <;> simp [Value.integer?, binary?, shift?, integer?, promoted?, rank?]
        at number computed
    · obtain ⟨j, other⟩ := Value.exists_integer right rightIntegral
      have notBoolean : p ≠ .boolean := by rintro rfl; contradiction
      by_cases shift : op.isShift
      · exact ⟨p.promoted, by simp [BinaryOp.exactTy?_shift shift, leftIntegral, rightIntegral]⟩
      · rw [binary?_integral left number right other (by simpa using shift)] at computed
        cases op
        case and | or | instanceOf => simp [onIntegers, comparison?, integral?] at computed
        all_goals simp [BinaryOp.exactTy?, leftIntegral, rightIntegral, notBoolean]

end Reference

namespace Expr

theorem naturalTy_of_primitive? (typed : v.primitive? = some p) : v.naturalTy = .primitive p := by
  cases v <;> simp only [Value.primitive?, Option.some.injEq, reduceCtorEq] at typed
  all_goals
    subst typed
    rfl

/-- The value of an operand, if the whole has one. -/
theorem value_of_unary {op : UnaryOp} {x : Expr}
    (value : Reference.eval? (unary op x s) = some (.value w)) :
    ∃ v u, Reference.eval? x = some (.value v) ∧ Reference.unary? op v = some u ∧
      Reference.castAll u s.casts = some w := by
  rw [Reference.eval?] at value
  split at value
  · rename_i v operand
    obtain ⟨u, computed, cast⟩ := Option.bind_eq_some_iff.mp value
    obtain ⟨w', cast, same⟩ := Option.map_eq_some_iff.mp cast
    cases same
    exact ⟨v, u, operand, computed, cast⟩
  · rename_i stopped
    exact absurd value (stopped w)

theorem value_of_binary {op : BinaryOp} {l r : Expr}
    (value : Reference.eval? (binary op l r s) = some (.value w)) :
    ∃ a b u, Reference.eval? l = some (.value a) ∧ Reference.eval? r = some (.value b) ∧
      Reference.binary? op a b = some (.value u) ∧ Reference.castAll u s.casts = some w := by
  rw [Reference.eval?] at value
  split at value
  · rename_i a left
    split at value
    · rename_i b right
      obtain ⟨outcome, computed, cast⟩ := Option.bind_eq_some_iff.mp value
      cases outcome with
      | value u =>
        obtain ⟨w', cast, same⟩ := Option.map_eq_some_iff.mp cast
        cases same
        exact ⟨a, b, u, left, right, computed, cast⟩
      | divisionByZero => cases cast
    · rename_i stopped
      exact absurd value (stopped w)
  · rename_i stopped
    exact absurd value (stopped w)

/-- A constant expression with a value is well-typed, and its value has its type. -/
theorem exactTy?_of_constant (scope : Scope) : ∀ (e : Expr) (w : Value), e.isConstant →
    Reference.eval? e = some (.value w) → ∃ q, e.exactTy? scope = some q ∧ w.primitive? = some q
  | literal v s, w, constant, value => by
    simp only [isConstant, Bool.and_eq_true, decide_eq_true_eq, Option.any_eq_true] at constant
    obtain ⟨⟨⟨p, own, exact⟩, natural⟩, targets⟩ := constant
    rw [Reference.eval?, Reference.afterCasts] at value
    obtain ⟨w', cast, same⟩ := Option.map_eq_some_iff.mp value
    cases same
    obtain ⟨q, leads⟩ := Reference.castTy?_of_castAll own exact targets cast
    obtain ⟨w', again, result⟩ := Reference.castAll_exact own leads
    cases cast.symm.trans again
    rw [naturalTy_of_primitive? own] at natural
    exact ⟨q, exactTy?_literal.mpr ⟨p, own, exact, natural, leads⟩, result⟩
  | unary op x s, w, constant, value => by
    simp only [isConstant, Bool.and_eq_true, Bool.or_eq_true, decide_eq_true_eq] at constant
    obtain ⟨⟨own, targets⟩, operandConstant⟩ := constant
    obtain ⟨v, u, operandValue, computed, cast⟩ := value_of_unary value
    obtain ⟨p, operand, operandTyped⟩ := exactTy?_of_constant scope x v operandConstant operandValue
    obtain ⟨t, exact⟩ := Reference.exactTy?_of_unary operandTyped (isExact_of_typed operand) computed
    have noStep := Reference.noStep_of_unary computed
    obtain ⟨u', again, resultTyped⟩ := reference_unary_exact operandTyped exact noStep
    cases computed.symm.trans again
    obtain ⟨q, leads⟩ :=
      Reference.castTy?_of_castAll resultTyped (isExact_of_unary exact) targets cast
    obtain ⟨w', again, result⟩ := Reference.castAll_exact resultTyped leads
    cases cast.symm.trans again
    rw [inferTy?_unary_exact (operandTy?_exact x p operand) exact (by simp [noStep])] at own
    exact ⟨q, exactTy?_unary.mpr ⟨p, t, operand, exact, own, leads, by simp [noStep]⟩, result⟩
  | binary op l r s, w, constant, value => by
    simp only [isConstant, Bool.and_eq_true, Bool.or_eq_true, decide_eq_true_eq] at constant
    obtain ⟨⟨⟨own, targets⟩, leftConstant⟩, rightConstant⟩ := constant
    obtain ⟨a, b, u, leftValue, rightValue, computed, cast⟩ := value_of_binary value
    obtain ⟨tl, left, leftTyped⟩ := exactTy?_of_constant scope l a leftConstant leftValue
    obtain ⟨tr, right, rightTyped⟩ := exactTy?_of_constant scope r b rightConstant rightValue
    obtain ⟨t, exact⟩ := Reference.exactTy?_of_binary leftTyped (isExact_of_typed left) rightTyped
      (isExact_of_typed right) computed
    have resultTyped : u.primitive? = some t := by
      rcases reference_binary_exact leftTyped rightTyped exact with zero | ⟨u', again, typed⟩
      · cases computed.symm.trans zero
      · cases computed.symm.trans again
        exact typed
    obtain ⟨q, leads⟩ :=
      Reference.castTy?_of_castAll resultTyped (isExact_of_binary exact) targets cast
    obtain ⟨w', again, result⟩ := Reference.castAll_exact resultTyped leads
    cases cast.symm.trans again
    rw [inferTy?_binary_exact (operandTy?_exact l tl left) (operandTy?_exact r tr right) exact]
      at own
    exact ⟨q, exactTy?_binary.mpr ⟨tl, tr, t, left, right, exact, own, leads⟩, result⟩
  | read _ _ _, _, constant, _ | call _ _ _, _, constant, _ | typeRef _ _, _, constant, _ => by
    cases constant

section Reference

variable {World Thrown : Type} (methods : Methods World Thrown)

/-- The reference evaluates operands that a decision leaves out, but finds the same value. -/
theorem eval_of_value : ∀ (e : Expr) (q : Primitive) (w : Value), e.exactTy? scope = some q →
    Reference.eval? e = some (.value w) → e.eval methods = pure w ∧ w.primitive? = some q
  | literal v s, q, w, typed, value => by
    rw [Reference.eval?, Reference.afterCasts] at value
    obtain ⟨w', cast, same⟩ := Option.map_eq_some_iff.mp value
    cases same
    exact ⟨Pass.eval_literal cast, Pass.value_typed typed cast⟩
  | unary op x s, q, w, typed, value => by
    obtain ⟨p, t, operand, exact, -, leads, -⟩ := exactTy?_unary.mp typed
    obtain ⟨v, u, operandValue, computed, cast⟩ := value_of_unary value
    obtain ⟨evaluates, operandTyped⟩ := eval_of_value x p v operand operandValue
    have noStep := Reference.noStep_of_unary computed
    obtain ⟨u', again, resultTyped⟩ := reference_unary_exact operandTyped exact noStep
    cases computed.symm.trans again
    obtain ⟨w', again, result⟩ := Reference.castAll_exact resultTyped leads
    cases cast.symm.trans again
    refine ⟨?_, result⟩
    rw [eval_unary noStep, evaluates, pure_bind, computed, Evaluation.ofOption_some, pure_bind, cast]
    rfl
  | binary op l r s, q, w, typed, value => by
    obtain ⟨tl, tr, t, left, right, exact, -, leads⟩ := exactTy?_binary.mp typed
    obtain ⟨a, b, u, leftValue, rightValue, computed, cast⟩ := value_of_binary value
    obtain ⟨leftEvaluates, leftTyped⟩ := eval_of_value l tl a left leftValue
    obtain ⟨rightEvaluates, rightTyped⟩ := eval_of_value r tr b right rightValue
    have evaluates : (binary op l r s).eval methods = pure w := by
      rw [eval_binary, leftEvaluates, rightEvaluates, pure_bind,
        Pass.evalRight_pure leftTyped rightTyped exact, computed, Evaluation.ofOutcome_value,
        pure_bind, cast]
      rfl
    refine ⟨evaluates, ?_⟩
    rcases reference_binary_exact leftTyped rightTyped exact with zero | ⟨u', again, resultTyped⟩
    · cases computed.symm.trans zero
    · cases computed.symm.trans again
      obtain ⟨w', again, result⟩ := Reference.castAll_exact resultTyped leads
      cases cast.symm.trans again
      exact result
  | read _ _ _, _, _, _, value | call _ _ _, _, _, _, value | typeRef _ _, _, _, _, value => by
    cases value

theorem eval?_literal {a : Value} {sa : Static} (value : Reference.castAll a sa.casts = some v) :
    Reference.eval? (literal a sa) = some (.value v) := by
  rw [Reference.eval?, Reference.afterCasts, value]
  rfl

/-- On literals and operators on literals the reference is the evaluation. -/
theorem eval_eq_reference {e : Expr} (shape : e.isLiteral ∨ e.isFoldable)
    (typed : e.exactTy? scope = some q) :
    e.eval methods = .ofOutcome (Reference.eval? e) := by
  rcases shape with isLiteral | foldable
  · match e with
    | literal a sa =>
      obtain ⟨v, value⟩ := Pass.exists_value typed
      rw [Pass.eval_literal value, eval?_literal value]
      rfl
  · rcases foldable_cases foldable with ⟨op, a, sa, s, rfl, noStep⟩ | ⟨op, a, sa, b, sb, s, rfl⟩
    · obtain ⟨p, t, operand, exact, -, leads, -⟩ := exactTy?_unary.mp typed
      obtain ⟨v, value⟩ := Pass.exists_value operand
      obtain ⟨u, computed, resultTyped⟩ :=
        reference_unary_exact (Pass.value_typed operand value) exact noStep
      obtain ⟨w, cast, -⟩ := Reference.castAll_exact resultTyped leads
      rw [eval_unary noStep, Pass.eval_literal value, pure_bind, computed,
        Evaluation.ofOption_some, pure_bind, cast, Reference.eval?, eval?_literal value]
      simp only [computed, Option.bind_some, Reference.afterCasts, cast]
      rfl
    · obtain ⟨tl, tr, t, left, right, exact, -, leads⟩ := exactTy?_binary.mp typed
      obtain ⟨va, leftValue⟩ := Pass.exists_value left
      obtain ⟨vb, rightValue⟩ := Pass.exists_value right
      have leftTyped := Pass.value_typed left leftValue
      have rightTyped := Pass.value_typed right rightValue
      rw [eval_binary, Pass.eval_literal leftValue, Pass.eval_literal rightValue, pure_bind,
        Pass.evalRight_pure leftTyped rightTyped exact, Reference.eval?, eval?_literal leftValue,
        eval?_literal rightValue]
      rcases reference_binary_exact leftTyped rightTyped exact with zero | ⟨u, value, resultTyped⟩
      · simp only [zero, Option.bind_some]
        rfl
      · obtain ⟨w, cast, -⟩ := Reference.castAll_exact resultTyped leads
        simp only [value, Option.bind_some, Evaluation.ofOutcome_value, pure_bind,
          Reference.afterCasts, cast]
        rfl

end Reference

end Expr

/-! The passes on operators whose operands are literals. -/

/-- Every call throws. -/
def Methods.throwing : Methods Unit Unit := fun _ _ _ => throw (.thrown ())

theorem Scope.fits_empty (state : State Unit) : Scope.empty.Fits state :=
  ⟨nofun, nofun⟩

theorem Scope.describes_empty (table : DeclTable) (inlineLocals : Bool) :
    Scope.empty.Describes table inlineLocals := fun _ _ _ _ declared => by cases declared

theorem Methods.respects_throwing : Methods.throwing.Respects Scope.empty :=
  fun _ _ _ _ _ => nofun

namespace Pass

variable (table : DeclTable) (inlineLocals : Bool) {a b : Value} {sa sb : Static} {op : BinaryOp}

/-- Literal operands reduce by the law for the constants that they are promoted to. -/
theorem leave_reduceIdentities {x y : Value} {tx ty : Ty}
    (visited : (promoteOperands .all).visit (.binary op (.literal a sa) (.literal b sb) s) =
      .ok (.binary op (.literal x ⟨some tx, []⟩) (.literal y ⟨some ty, []⟩) s)) :
    reduceIdentities.leave (.binary op (.literal a sa) (.literal b sb) s) =
      match survivingSide? op (.literal x ⟨some tx, []⟩) (.literal y ⟨some ty, []⟩) with
      | some .left => .ok (Expr.castLiteral x (some tx) s.casts)
      | some .right => .ok (Expr.castLiteral y (some ty) s.casts)
      | none => .ok (.binary op (.literal a sa) (.literal b sb) s) := by
  change reduceIdentities.step (.binary op (.literal a sa) (.literal b sb) s) = _
  simp only [reduceIdentities, Expr.isLiteral, Expr.value?, Option.isSome_some, Bool.or_self,
    if_true, visited]
  rfl

theorem survivingSide?_constants {x y : Value} {tx ty : Primitive} (left : x.primitive? = some tx)
    (right : y.primitive? = some ty) (exact : op.exactTy? tx ty = some t)
    (operands : op.exactOperands tx ty = (tx, ty)) :
    survivingSide? op (.literal x ⟨some (.primitive tx), []⟩)
        (.literal y ⟨some (.primitive ty), []⟩) =
      (survivor? op (.primitive tx) x .left (.literal y ⟨some (.primitive ty), []⟩)).or
        (survivor? op (.primitive tx) y .right (.literal x ⟨some (.primitive tx), []⟩)) := by
  obtain ⟨leftCasts, rightCasts⟩ := BinaryOp.casts_exactOperands exact
  rw [operands] at leftCasts rightCasts
  have leftTyped := exactTy?_constant Scope.empty left (Primitive.isExact_of_casts leftCasts)
  have rightTyped := exactTy?_constant Scope.empty right (Primitive.isExact_of_casts rightCasts)
  rw [survivingSide?, Expr.binaryPromotedTy?_exact leftTyped rightTyped exact, operands]
  rfl

/-- A law leaves a constant without casts. -/
theorem leave_reduceIdentities_literals
    (typed : (Expr.binary op (.literal a sa) (.literal b sb) s).exactTy? scope = some q) :
    ∃ e', reduceIdentities.leave (.binary op (.literal a sa) (.literal b sb) s) = .ok e' ∧
      (e'.bareValue?.isSome ∨ e' = .binary op (.literal a sa) (.literal b sb) s) := by
  obtain ⟨_, _, t, left, right, exact, -, leads⟩ := Expr.exactTy?_binary.mp typed
  obtain ⟨va, leftValue⟩ := exists_value left
  obtain ⟨vb, rightValue⟩ := exists_value right
  obtain ⟨x, y, tx, ty, xTyped, yTyped, exact, operands, -, visited⟩ :=
    visit_literals (s := s) .all left right exact leftValue rightValue
  rw [leave_reduceIdentities visited, survivingSide?_constants xTyped yTyped exact operands]
  cases law : (survivor? op (.primitive tx) x .left (.literal y ⟨some (.primitive ty), []⟩)).or
      (survivor? op (.primitive tx) y .right (.literal x ⟨some (.primitive tx), []⟩)) with
  | none => exact ⟨_, rfl, .inr rfl⟩
  | some side =>
    have types : tx = t ∧ ty = t := by
      rcases Option.or_eq_some_iff.mp law with law | ⟨-, law⟩
      · exact (survivor?_types law rfl exact operands).2
      · exact (survivor?_types law rfl exact operands).2
    obtain ⟨rfl, rfl⟩ := types
    cases side with
    | left =>
      obtain ⟨w, -, -, literal⟩ := castLiteral_exact xTyped leads
      exact ⟨_, rfl, .inl (by rw [literal]; rfl)⟩
    | right =>
      obtain ⟨w, -, -, literal⟩ := castLiteral_exact yTyped leads
      exact ⟨_, rfl, .inl (by rw [literal]; rfl)⟩

theorem absorption_literals :
    absorption.leave (.binary op (.literal a sa) (.literal b sb) s) =
      .ok (.binary op (.literal a sa) (.literal b sb) s) := by
  change absorption.step (.binary op (.literal a sa) (.literal b sb) s) = _
  simp [absorption, absorb?]

/-- Every pass leaves an operator on literals that has a value as such an operator or as a
constant without casts; one pass always leaves a constant. -/
theorem leave_foldable_shape (kind : PassKind) {e : Expr} (foldable : e.isFoldable)
    (typed : e.exactTy? scope = some q) (value : Reference.eval? e = some (.value v)) :
    ∃ e', (kind.pass table inlineLocals).leave e = .ok e' ∧
      (e'.bareValue?.isSome ∨ (kind ≠ .evaluateLiterals ∧ e'.isFoldable)) := by
  rcases Expr.foldable_cases foldable with
    ⟨op, a, sa, ⟨ty, casts⟩, rfl, noStep⟩ | ⟨op, a, sa, b, sb, ⟨ty, casts⟩, rfl⟩
  · have kept : (Expr.unary op (.literal a sa) ⟨ty, casts⟩).isFoldable := foldable
    cases kind with
    | absorption | applyCasts | promotion | reduceIdentities | cancelDouble | inlineReads =>
      exact ⟨_, rfl, .inr ⟨by simp, kept⟩⟩
    | inferTypes => cases ty <;> exact ⟨_, rfl, .inr ⟨by simp, kept⟩⟩
    | removeRedundantCasts =>
      refine ⟨_, rfl, .inr ⟨by simp, ?_⟩⟩
      split <;> exact kept
    | evaluateLiterals =>
      obtain ⟨p, t, operand, -⟩ := Expr.exactTy?_unary.mp typed
      obtain ⟨va, operandValue⟩ := exists_value operand
      obtain ⟨u, w, -, -, -, folded⟩ := foldNode_unary typed noStep operandValue
      refine ⟨.literal w ⟨some (.primitive q), []⟩, ?_, .inl rfl⟩
      change evaluateLiterals.step (.unary op (.literal a sa) ⟨ty, casts⟩) = _
      simp only [evaluateLiterals, noStep, Bool.false_eq_true, if_false, folded]
  · cases kind with
    | applyCasts | promotion | cancelDouble | inlineReads => exact ⟨_, rfl, .inr ⟨by simp, rfl⟩⟩
    | absorption =>
      exact ⟨_, absorption_literals, .inr ⟨by simp, rfl⟩⟩
    | inferTypes => cases ty <;> exact ⟨_, rfl, .inr ⟨by simp, rfl⟩⟩
    | removeRedundantCasts =>
      refine ⟨_, rfl, .inr ⟨by simp, ?_⟩⟩
      split <;> rfl
    | reduceIdentities =>
      obtain ⟨e', left, bare | same⟩ := leave_reduceIdentities_literals typed
      · exact ⟨e', left, .inl bare⟩
      · exact ⟨e', left, .inr ⟨by simp, same ▸ rfl⟩⟩
    | evaluateLiterals =>
      obtain ⟨tl, tr, t, left, right, -⟩ := Expr.exactTy?_binary.mp typed
      obtain ⟨va, leftValue⟩ := exists_value left
      obtain ⟨vb, rightValue⟩ := exists_value right
      rcases foldNode_binary typed leftValue rightValue with
        ⟨zero, -⟩ | ⟨u, w, -, -, -, folded⟩
      · obtain ⟨va', vb', u, left, right, computed, -⟩ := Expr.value_of_binary value
        cases left.symm.trans (Expr.eval?_literal leftValue)
        cases right.symm.trans (Expr.eval?_literal rightValue)
        cases computed.symm.trans zero
      · exact ⟨_, folded, .inl rfl⟩

/-- A literal stays a literal, and one without casts stays as it is. -/
theorem leave_literal (kind : PassKind) (a : Value) (sa : Static) :
    ∃ w s, (kind.pass table inlineLocals).leave (.literal a sa) = .ok (.literal w s) ∧
      (sa.casts = [] → s.casts = []) := by
  obtain ⟨ty, casts⟩ := sa
  cases kind with
  | absorption | promotion | inferTypes | evaluateLiterals | reduceIdentities | cancelDouble
  | inlineReads => exact ⟨a, ⟨ty, casts⟩, rfl, id⟩
  | applyCasts =>
    cases casts with
    | nil => exact ⟨a, ⟨ty, []⟩, rfl, id⟩
    | cons cast rest =>
      obtain ⟨w, s, literal, -⟩ := Expr.castLiteral_eq a ty (cast :: rest)
      exact ⟨w, s, congrArg Except.ok literal, nofun⟩
  | removeRedundantCasts =>
    cases casts with
    | nil => exact ⟨a, ⟨ty, []⟩, rfl, id⟩
    | cons cast rest => exact ⟨a, _, rfl, nofun⟩

theorem leave_absorption {e e' : Expr} (shape : e.isLiteral ∨ e.isFoldable)
    (left : absorption.leave e = .ok e') : e' = e := by
  rcases shape with isLiteral | foldable
  · match e with
    | .literal a sa =>
      cases left
      rfl
  · rcases Expr.foldable_cases foldable with
      ⟨op, a, sa, s, rfl, -⟩ | ⟨op, a, sa, b, sb, s, rfl⟩
    · cases left
      rfl
    · rw [absorption_literals] at left
      cases left
      rfl

theorem ofOutcome_injective {first second : Option Reference.Outcome} (state : State Unit)
    (same : (Evaluation.ofOutcome first : Evaluation Unit Unit Value) state =
      Evaluation.ofOutcome second state) : first = second := by
  rcases first with _ | ⟨_ | _⟩ <;> rcases second with _ | ⟨_ | _⟩ <;> cases same <;> rfl

/-- Every pass keeps the type and the value of a literal or an operator on literals. -/
theorem leave_value {kind : PassKind} {e e' : Expr} (shape : e.isLiteral ∨ e.isFoldable)
    (shape' : e'.isLiteral ∨ e'.isFoldable) (typed : e.exactTy? Scope.empty = some q)
    (left : (kind.pass table inlineLocals).leave e = .ok e') :
    e'.exactTy? Scope.empty = some q ∧ Reference.eval? e' = Reference.eval? e := by
  by_cases absorbs : kind = .absorption
  · subst absorbs
    rw [leave_absorption shape left]
    exact ⟨typed, rfl⟩
  · have refines := (sound_of_kind (Scope.describes_empty table inlineLocals)
      Methods.respects_throwing absorbs).leave e e' left q typed
    refine ⟨refines.typed, ofOutcome_injective ⟨fun _ => .null, ()⟩ ?_⟩
    rw [← Expr.eval_eq_reference Methods.throwing shape typed, ← Expr.eval_eq_reference Methods.throwing shape' refines.typed]
    exact refines.agrees _ (Scope.fits_empty _)

theorem leave_chain_literal (kinds : List PassKind) {a : Value} {sa : Static}
    (typed : (Expr.literal a sa).exactTy? Scope.empty = some q) :
    ∃ w s, (chain (kinds.map fun kind => kind.pass table inlineLocals)).leave (.literal a sa) =
        .ok (.literal w s) ∧ (sa.casts = [] → s.casts = []) ∧
      (Expr.literal w s).exactTy? Scope.empty = some q ∧
      Reference.eval? (.literal w s) = Reference.eval? (.literal a sa) := by
  simp only [chain_leave]
  induction kinds generalizing a sa with
  | nil => exact ⟨a, sa, rfl, id, typed, rfl⟩
  | cons kind rest ih =>
    obtain ⟨w, s, left, bare⟩ := leave_literal table inlineLocals
      kind a sa
    obtain ⟨typed, value⟩ := leave_value table inlineLocals (.inl rfl) (.inl rfl) typed left
    obtain ⟨w', s', others, bare', typed', value'⟩ := ih typed
    refine ⟨w', s', ?_, bare' ∘ bare, typed', value'.trans value⟩
    rw [List.map_cons, List.foldlM_cons, left]
    exact others

theorem leave_chain_foldable (kinds : List PassKind) (evaluates : .evaluateLiterals ∈ kinds)
    {e : Expr} (foldable : e.isFoldable) (typed : e.exactTy? Scope.empty = some q)
    (value : Reference.eval? e = some (.value v)) :
    ∃ w s, (chain (kinds.map fun kind => kind.pass table inlineLocals)).leave e =
        .ok (.literal w s) ∧ s.casts = [] ∧
      (Expr.literal w s).exactTy? Scope.empty = some q ∧
      Reference.eval? (.literal w s) = some (.value v) := by
  simp only [chain_leave]
  induction kinds generalizing e with
  | nil => cases evaluates
  | cons kind rest ih =>
    obtain ⟨e', left, shape⟩ := leave_foldable_shape table inlineLocals kind foldable typed value
    simp only [List.map_cons, List.foldlM_cons, left]
    rcases shape with bare | ⟨other, foldable'⟩
    · match e' with
      | .literal w ⟨ty, []⟩ =>
        obtain ⟨typed', value'⟩ := leave_value table inlineLocals (.inr foldable) (.inl rfl) typed left
        obtain ⟨w', s', others, bare, typed', value''⟩ :=
          leave_chain_literal table inlineLocals rest typed'
        exact ⟨w', s', others, bare rfl, typed', value''.trans (value'.trans value)⟩
    · obtain ⟨typed', value'⟩ := leave_value table inlineLocals (.inr foldable) (.inr foldable') typed left
      have later : .evaluateLiterals ∈ rest := by
        rcases List.mem_cons.mp evaluates with here | later
        · exact absurd here.symm other
        · exact later
      exact ih later foldable' typed' (value'.trans value)

/-! Whole expressions. -/

/-- The casts of an expression are applied to the outcome it has without them. -/
theorem eval?_withCasts (e : Expr) (casts : List Cast) :
    Reference.eval? (e.withCasts casts) =
      (Reference.eval? (e.withCasts [])).bind (Reference.afterCasts ⟨none, casts⟩) := by
  cases e with
  | literal | read | call | typeRef => rfl
  | unary op x s =>
    simp only [Expr.withCasts, Expr.withStatic, Reference.eval?]
    rcases Reference.eval? x with _ | ⟨v | _⟩
    · rfl
    · cases computed : Reference.unary? op v with
      | none => simp [computed]
      | some w =>
        simp only [computed, Option.bind_some]
        rfl
    · rfl
  | binary op l r s =>
    simp only [Expr.withCasts, Expr.withStatic, Reference.eval?]
    rcases Reference.eval? l with _ | ⟨a | _⟩
    · rfl
    · rcases Reference.eval? r with _ | ⟨b | _⟩
      · rfl
      · rcases computed : Reference.binary? op a b with _ | ⟨u | _⟩ <;> simp [computed] <;> rfl
      · rfl
    · rfl

/-- An expression with a value has one whatever well-typed casts are around it. -/
theorem value_withCasts {e : Expr} (value : Reference.eval? e = some (.value v))
    (typed : (e.withCasts casts).exactTy? Scope.empty = some q) :
    ∃ w, Reference.eval? (e.withCasts casts) = some (.value w) := by
  rw [Expr.exactTy?_withCasts] at typed
  obtain ⟨t, bare, leads⟩ := Option.bind_eq_some_iff.mp typed
  rw [← Expr.withCasts_casts e, eval?_withCasts] at value
  obtain ⟨outcome, bareValue, cast⟩ := Option.bind_eq_some_iff.mp value
  cases outcome with
  | divisionByZero => cases cast
  | value u =>
    have bareTyped := (Expr.eval_of_value Methods.throwing _ t u bare bareValue).2
    obtain ⟨w, cast, -⟩ := Reference.castAll_exact bareTyped leads
    refine ⟨w, ?_⟩
    rw [eval?_withCasts, bareValue, Option.bind_some, Reference.afterCasts, cast]
    rfl

theorem refines_of_value {e e' : Expr} (typed : e.exactTy? Scope.empty = some q)
    (value : Reference.eval? e = some (.value v)) (typed' : e'.exactTy? Scope.empty = some q)
    (value' : Reference.eval? e' = some (.value v)) :
    Refines Scope.empty Methods.throwing e e' := by
  intro p again
  cases typed.symm.trans again
  refine ⟨typed', ?_, fun isVariable => ?_⟩
  · rw [(Expr.eval_of_value Methods.throwing e q v typed value).1, (Expr.eval_of_value Methods.throwing e' q v typed' value').1]
    exact .refl _
  · obtain ⟨id, name, ty, rfl, -⟩ := Expr.exists_variable isVariable
    cases value

/-- A chain enters every node soundly. -/
theorem refines_enter (kinds : List PassKind) (e : Expr) :
    Refines Scope.empty Methods.throwing e
      ((chain (kinds.map fun kind => kind.pass table inlineLocals)).enter e) := by
  refine Within.enter_chain (Refines.congruence Methods.respects_throwing)
    (fun pass member e => ?_) e
  obtain ⟨kind, -, rfl⟩ := List.mem_map.mp member
  by_cases absorbs : kind = .absorption
  · subst absorbs
    rw [PassKind.pass, enter_default rfl rfl]
    exact .refl e
  · exact (sound_of_kind (Scope.describes_empty table inlineLocals) Methods.respects_throwing
      absorbs).enter e

/-- An operator on literals that stands for an expression with a value becomes a constant. -/
theorem leave_operator {kinds : List PassKind} (evaluates : .evaluateLiterals ∈ kinds)
    {e e' : Expr} (typed : e.exactTy? Scope.empty = some q)
    (value : Reference.eval? e = some (.value v))
    (refines : Refines Scope.empty Methods.throwing e e') (foldable : e'.isFoldable) :
    ∃ w s, (chain (kinds.map fun kind => kind.pass table inlineLocals)).leave e' =
        .ok (.literal w s) ∧ s.casts = [] ∧
      (Expr.literal w s).exactTy? Scope.empty = some q ∧
      Reference.eval? (.literal w s) = some (.value v) := by
  have stands := refines q typed
  refine leave_chain_foldable table inlineLocals kinds evaluates foldable stands.typed ?_
  apply ofOutcome_injective ⟨fun _ => .null, ()⟩
  rw [← Expr.eval_eq_reference Methods.throwing (.inr foldable) stands.typed,
    stands.agrees _ (Scope.fits_empty _), (Expr.eval_of_value Methods.throwing e q v typed value).1]
  rfl

/-- An expression with a value becomes a literal with this value. -/
theorem visit_value {kinds : List PassKind} (evaluates : .evaluateLiterals ∈ kinds) :
    ∀ (e : Expr) (casts : List Cast) (q : Primitive) (v : Value),
      (e.withCasts casts).exactTy? Scope.empty = some q →
      Reference.eval? (e.withCasts casts) = some (.value v) →
      ∃ w s, (chain (kinds.map fun kind => kind.pass table inlineLocals)).visit
          (e.withCasts casts) = .ok (.literal w s) ∧
        (Expr.literal w s).exactTy? Scope.empty = some q ∧
        Reference.eval? (.literal w s) = some (.value v) ∧ (e.isLiteral = false → s.casts = [])
  | .literal a sa, casts, q, v, typed, value => by
    obtain ⟨w, s, left, -, typed, same⟩ :=
      leave_chain_literal table inlineLocals kinds typed
    exact ⟨w, s, (visit_leaf _ rfl).trans left, typed, same.trans value, nofun⟩
  | .unary op x sx, casts, q, v, typed, value => by
    obtain ⟨a, u, operandValue, computed, -⟩ := Expr.value_of_unary value
    have entered := refines_enter table inlineLocals kinds
      (.unary op x ⟨sx.ty, casts⟩)
    obtain ⟨p, t, operandTyped, -⟩ := Expr.exactTy?_unary.mp (entered q typed).typed
    obtain ⟨b, operandValue⟩ := value_withCasts operandValue operandTyped
    obtain ⟨w, s, visited, literalTyped, literalValue, -⟩ :=
      visit_value evaluates x _ p b operandTyped operandValue
    have operand := refines_of_value operandTyped operandValue literalTyped literalValue
    obtain ⟨w', s', left, bare, typed', value'⟩ := leave_operator table inlineLocals evaluates typed value
      (entered.trans (Refines.unary Methods.respects_throwing operand))
      (by simp [Expr.isFoldable, Reference.noStep_of_unary computed])
    refine ⟨w', s', ?_, typed', value', fun _ => bare⟩
    exact (visit_unary _ op x ⟨sx.ty, casts⟩).trans (by rw [visited]; exact left)
  | .binary op l r sl, casts, q, v, typed, value => by
    obtain ⟨a, b, u, leftValue, rightValue, -, -⟩ := Expr.value_of_binary value
    have entered := refines_enter table inlineLocals kinds
      (.binary op l r ⟨sl.ty, casts⟩)
    obtain ⟨tl, tr, t, leftTyped, rightTyped, -⟩ :=
      Expr.exactTy?_binary.mp (entered q typed).typed
    obtain ⟨a', leftValue⟩ := value_withCasts leftValue leftTyped
    obtain ⟨b', rightValue⟩ := value_withCasts rightValue rightTyped
    obtain ⟨x, sx, leftVisited, xTyped, xValue, -⟩ :=
      visit_value evaluates l _ tl a' leftTyped leftValue
    obtain ⟨y, sy, rightVisited, yTyped, yValue, -⟩ :=
      visit_value evaluates r _ tr b' rightTyped rightValue
    have operands := entered.trans (Refines.binary Methods.respects_throwing
      (refines_of_value leftTyped leftValue xTyped xValue)
      (refines_of_value rightTyped rightValue yTyped yValue))
    obtain ⟨w', s', left, bare, typed', value'⟩ := leave_operator table inlineLocals evaluates typed value operands rfl
    refine ⟨w', s', ?_, typed', value', fun _ => bare⟩
    exact (visit_binary _ op l r ⟨sl.ty, casts⟩).trans (by rw [leftVisited, rightVisited]; exact left)
  | .read _ _ _, _, _, _, _, value | .call _ _ _, _, _, _, _, value
  | .typeRef _ _, _, _, _, _, value => by cases value

/-! Divisions by zero. The casts of the node do not matter, and may be ill-typed. -/

/-- Literal operands of a division by zero. -/
structure DividesByZero (op : BinaryOp) (l r : Expr) (t : Primitive) : Prop where
  typed : (Expr.binary op l r {}).exactTy? Scope.empty = some t
  division : Reference.eval? (.binary op l r {}) = some .divisionByZero

/-- A pass leaves a division by zero as it is, but for its type and casts, or it fails; the one
that evaluates fails. -/
theorem leave_division (kind : PassKind)
    (divides : DividesByZero op (.literal a sa) (.literal b sb) t) (own : s.Admits t) :
    (∃ reason, (kind.pass table inlineLocals).leave (.binary op (.literal a sa) (.literal b sb) s) =
      .error reason) ∨
    (kind ≠ .evaluateLiterals ∧ ∃ s', s'.Admits t ∧
      (kind.pass table inlineLocals).leave (.binary op (.literal a sa) (.literal b sb) s) =
        .ok (.binary op (.literal a sa) (.literal b sb) s')) := by
  obtain ⟨tl, tr, _, left, right, exact, -, same⟩ := Expr.exactTy?_binary.mp divides.typed
  cases same
  obtain ⟨va, leftValue⟩ := exists_value left
  obtain ⟨vb, rightValue⟩ := exists_value right
  have division : Reference.binary? op va vb = some .divisionByZero := by
    have whole := divides.division
    rw [Reference.eval?, Expr.eval?_literal leftValue, Expr.eval?_literal rightValue] at whole
    obtain ⟨outcome, computed, cast⟩ := Option.bind_eq_some_iff.mp whole
    cases outcome with
    | value u => cases cast
    | divisionByZero => exact computed
  cases kind with
  | applyCasts | promotion | cancelDouble | inlineReads => exact .inr ⟨by simp, s, own, rfl⟩
  | absorption => exact .inr ⟨by simp, s, own, absorption_literals⟩
  | inferTypes =>
    obtain ⟨ty, casts⟩ := s
    cases ty with
    | some ty => exact .inr ⟨by simp, _, own, rfl⟩
    | none =>
      have inferred := Expr.inferTy?_binary_exact (s := ⟨none, casts⟩)
        (Expr.operandTy?_exact _ tl left) (Expr.operandTy?_exact _ tr right) exact
      exact .inr ⟨by simp, ⟨_, casts⟩, .inr inferred, rfl⟩
  | removeRedundantCasts =>
    by_cases bare : s.casts.isEmpty
    · exact .inr ⟨by simp, s, own, congrArg Except.ok (if_pos bare)⟩
    · refine .inr ⟨by simp, s.removeRedundantCasts, ?_, congrArg Except.ok (if_neg bare)⟩
      rwa [Static.Admits, Static.ty_removeRedundantCasts]
  | reduceIdentities =>
    obtain ⟨x, y, tx, ty, xTyped, yTyped, exact, operands, promoted, visited⟩ :=
      visit_literals (s := s) .all left right exact leftValue rightValue
    obtain ⟨divides, zero⟩ :=
      BinaryOp.zero_of_division xTyped yTyped exact (promoted.trans division)
    refine .inr ⟨by simp, s, own, ?_⟩
    have lawless : (survivor? op (.primitive tx) x .left (.literal y ⟨some (.primitive ty), []⟩)).or
        (survivor? op (.primitive tx) y .right (.literal x ⟨some (.primitive tx), []⟩)) = none := by
      have notOne : y.isOne = false := by
        rcases BinaryOp.exactTy?_operands exact with ⟨-, -, rfl⟩ | ⟨-, integral⟩
        · obtain ⟨b, rfl⟩ := Value.exists_bool yTyped
          rfl
        · obtain ⟨j, number⟩ := Value.exists_integer yTyped integral
          rw [← Bool.not_eq_true, Value.isOne_iff number, (Value.isZero_iff number).mp zero]
          decide
      rcases divides with rfl | rfl
      · simp [survivor?, notOne]
      · rfl
    change reduceIdentities.leave _ = _
    rw [leave_reduceIdentities visited, survivingSide?_constants xTyped yTyped exact operands,
      lawless]
  | evaluateLiterals =>
    obtain ⟨x, y, failed⟩ := foldNode_division (s := s) left right exact leftValue rightValue division
    exact .inl ⟨_, failed⟩

theorem leave_chain_division (kinds : List PassKind) (evaluates : .evaluateLiterals ∈ kinds)
    (divides : DividesByZero op (.literal a sa) (.literal b sb) t) (own : s.Admits t) :
    ∃ reason, (chain (kinds.map fun kind => kind.pass table inlineLocals)).leave
      (.binary op (.literal a sa) (.literal b sb) s) = .error reason := by
  simp only [chain_leave]
  induction kinds generalizing s with
  | nil => cases evaluates
  | cons kind rest ih =>
    simp only [List.map_cons, List.foldlM_cons]
    rcases leave_division table inlineLocals kind divides own with
      ⟨reason, failed⟩ | ⟨other, s', own', left⟩
    · rw [failed]
      exact ⟨reason, rfl⟩
    · have later : .evaluateLiterals ∈ rest := by
        rcases List.mem_cons.mp evaluates with here | later
        · exact absurd here.symm other
        · exact later
      rw [left]
      exact ih later own'

theorem division_of_unary {op : UnaryOp} {x : Expr}
    (division : Reference.eval? (.unary op x s) = some .divisionByZero) :
    Reference.eval? x = some .divisionByZero := by
  rw [Reference.eval?] at division
  split at division
  · obtain ⟨u, -, cast⟩ := Option.bind_eq_some_iff.mp division
    obtain ⟨w, -, same⟩ := Option.map_eq_some_iff.mp cast
    cases same
  · exact division

theorem division_of_binary {l r : Expr}
    (division : Reference.eval? (.binary op l r s) = some .divisionByZero) :
    Reference.eval? l = some .divisionByZero ∨ Reference.eval? r = some .divisionByZero ∨
      ∃ a b, Reference.eval? l = some (.value a) ∧ Reference.eval? r = some (.value b) ∧
        Reference.binary? op a b = some .divisionByZero := by
  rw [Reference.eval?] at division
  split at division
  · rename_i a left
    split at division
    · rename_i b right
      obtain ⟨outcome, computed, cast⟩ := Option.bind_eq_some_iff.mp division
      cases outcome with
      | divisionByZero => exact .inr (.inr ⟨a, b, left, right, computed⟩)
      | value u =>
        obtain ⟨w, -, same⟩ := Option.map_eq_some_iff.mp cast
        cases same
    · exact .inr (.inl division)
  · exact .inl division

/-- Operands with values between which the operator divides by zero. -/
theorem visit_binary_division {kinds : List PassKind} (evaluates : .evaluateLiterals ∈ kinds)
    {l r : Expr} (leftConstant : l.isConstant) (rightConstant : r.isConstant)
    (leftValue : Reference.eval? l = some (.value a))
    (rightValue : Reference.eval? r = some (.value b))
    (division : Reference.binary? op a b = some .divisionByZero)
    (own : s.ty = none ∨ s.ty = (Expr.binary op l r s).inferTy?) :
    ∃ reason, (chain (kinds.map fun kind => kind.pass table inlineLocals)).visit
      (.binary op l r s) = .error reason := by
  obtain ⟨tl, left, aTyped⟩ :=
    Expr.exactTy?_of_constant Scope.empty l a leftConstant leftValue
  obtain ⟨tr, right, bTyped⟩ :=
    Expr.exactTy?_of_constant Scope.empty r b rightConstant rightValue
  obtain ⟨t, exact⟩ := Reference.exactTy?_of_binary aTyped (Expr.isExact_of_typed left) bTyped
    (Expr.isExact_of_typed right) division
  rw [Expr.inferTy?_binary_exact (Expr.operandTy?_exact l tl left) (Expr.operandTy?_exact r tr right)
    exact] at own
  -- Without its type and casts the node is well-typed, so it is entered soundly.
  have typed : (Expr.binary op l r {}).exactTy? Scope.empty = some t :=
    Expr.exactTy?_binary.mpr ⟨tl, tr, t, left, right, exact, .inl rfl, rfl⟩
  have entered := refines_enter table inlineLocals kinds
    (.binary op l r {})
  obtain ⟨tl', tr', t', leftTyped, rightTyped, -⟩ :=
    Expr.exactTy?_binary.mp (entered t typed).typed
  obtain ⟨a', leftValue'⟩ := value_withCasts leftValue leftTyped
  obtain ⟨b', rightValue'⟩ := value_withCasts rightValue rightTyped
  obtain ⟨x, sx, leftVisited, xTyped, xValue, -⟩ :=
    visit_value table inlineLocals evaluates l _ tl' a' leftTyped leftValue'
  obtain ⟨y, sy, rightVisited, yTyped, yValue, -⟩ :=
    visit_value table inlineLocals evaluates r _ tr' b' rightTyped rightValue'
  have stands := entered.trans (Refines.binary Methods.respects_throwing
    (refines_of_value leftTyped leftValue' xTyped xValue)
    (refines_of_value rightTyped rightValue' yTyped yValue)) t typed
  have divides : DividesByZero op (.literal x sx) (.literal y sy) t := by
    refine ⟨stands.typed, ofOutcome_injective ⟨fun _ => .null, ()⟩ ?_⟩
    rw [← Expr.eval_eq_reference Methods.throwing (.inr rfl) stands.typed, stands.agrees _ (Scope.fits_empty _),
      Expr.eval_binary, (Expr.eval_of_value Methods.throwing l tl a left leftValue).1,
      (Expr.eval_of_value Methods.throwing r tr b right rightValue).1, pure_bind,
      evalRight_pure aTyped bTyped exact, division]
    rfl
  obtain ⟨reason, failed⟩ := leave_chain_division table inlineLocals
    kinds evaluates divides own
  exact ⟨reason, (visit_binary _ op l r s).trans (by rw [leftVisited, rightVisited]; exact failed)⟩

/-- The visit of an expression that divides by zero fails, whatever casts are around it. -/
theorem visit_division {kinds : List PassKind} (evaluates : .evaluateLiterals ∈ kinds) :
    ∀ (e : Expr) (casts : List Cast), e.isConstant →
      Reference.eval? e = some .divisionByZero →
      ∃ reason, (chain (kinds.map fun kind => kind.pass table inlineLocals)).visit
        (e.withCasts casts) = .error reason
  | .literal a sa, casts, _, division => by
    rw [Reference.eval?] at division
    obtain ⟨w, -, same⟩ := Option.map_eq_some_iff.mp division
    cases same
  | .unary op x s, casts, constant, division => by
    simp only [Expr.isConstant, Bool.and_eq_true] at constant
    obtain ⟨reason, failed⟩ :=
      visit_division evaluates x _ constant.2 (division_of_unary division)
    exact ⟨reason, (visit_unary _ op x ⟨s.ty, casts⟩).trans (by rw [failed]; rfl)⟩
  | .binary op l r s, casts, constant, division => by
    simp only [Expr.isConstant, Bool.and_eq_true, Bool.or_eq_true, decide_eq_true_eq] at constant
    obtain ⟨⟨⟨own, -⟩, leftConstant⟩, rightConstant⟩ := constant
    rcases division_of_binary division with left | right | ⟨a, b, left, right, divides⟩
    · obtain ⟨reason, failed⟩ := visit_division evaluates l _ leftConstant left
      exact ⟨reason, (visit_binary _ op l r ⟨s.ty, casts⟩).trans (by rw [failed]; rfl)⟩
    · obtain ⟨reason, failed⟩ := visit_division evaluates r _ rightConstant right
      refine Exists.imp (fun reason => (visit_binary _ op l r ⟨s.ty, casts⟩).trans) ?_
      cases chain (kinds.map fun kind => kind.pass table inlineLocals) |>.visit
        (l.withCasts ((chain (kinds.map fun kind => kind.pass table inlineLocals)).enterBinary
          op l r).1) with
      | error reason => exact ⟨reason, rfl⟩
      | ok left => exact ⟨reason, by rw [failed]; rfl⟩
    · exact visit_binary_division table inlineLocals evaluates leftConstant rightConstant left right divides own
  | .read _ _ _, _, _, division | .call _ _ _, _, _, division | .typeRef _ _, _, _, division => by
    cases division

end Pass

/-- Every chain of passes in which operators on literals are evaluated, whatever the others are
and in whatever order, agrees with the reference on constant expressions. One with a value
becomes a literal with this value, without casts if it was an operator; of one that divides by
zero it is reported that it has no value. -/
theorem chain_agrees_with_reference (kinds : List PassKind) (evaluates : .evaluateLiterals ∈ kinds)
    (table : DeclTable) (inlineLocals : Bool) (e : Expr) (constant : e.isConstant) :
    (∀ v, Reference.eval? e = some (.value v) →
      ∃ w s, (Pass.chain (kinds.map fun kind => kind.pass table inlineLocals)).visit e =
          .ok (.literal w s) ∧
        Reference.eval? (.literal w s) = some (.value v) ∧ (e.isLiteral = false → s.casts = [])) ∧
    (Reference.eval? e = some .divisionByZero →
      ∃ reason, (Pass.chain (kinds.map fun kind => kind.pass table inlineLocals)).visit e =
        .error reason) := by
  constructor
  · intro v value
    obtain ⟨q, typed, -⟩ := Expr.exactTy?_of_constant Scope.empty e v constant value
    have visits := Pass.visit_value table inlineLocals evaluates e
      e.casts q v
    rw [Expr.withCasts_casts] at visits
    obtain ⟨w, s, visited, -, same, bare⟩ := visits typed value
    exact ⟨w, s, visited, same, bare⟩
  · intro division
    have visits := Pass.visit_division table inlineLocals evaluates e
      e.casts constant division
    rwa [Expr.withCasts_casts] at visits

/-- The expressions `(byte) (-2147483648 / -1 >>> 33 - 'a')` and `!true || 7 % (char) 65536 == 1`. -/
theorem chain_agrees_with_reference_sample :
    let int (i : Int32) : Expr := .literal (.int i) ⟨some .int, []⟩
    let shifted : Expr :=
      .binary .ushr (.binary .div (int (-2147483648)) (int (-1)) {})
        (.binary .minus (int 33) (.literal (.char 97) ⟨some (.primitive .char), []⟩) {})
        ⟨some .int, [.toExplicit (.primitive .byte)]⟩
    let divided : Expr :=
      .binary .or (.unary .not (.literal (.bool true) ⟨some .boolean, []⟩) {})
        (.binary .eq
          (.binary .mod (int 7)
            (.literal (.int 65536) ⟨some .int, [.toExplicit (.primitive .char)]⟩) {}) (int 1) {}) {}
    let chain := Pass.chain (PassKind.all.map fun kind => kind.pass {} true)
    (∃ w ty, chain.visit shifted = .ok (.literal w ⟨ty, []⟩) ∧
      Reference.eval? (.literal w ⟨ty, []⟩) = some (.value (.byte 0))) ∧
    ∃ reason, chain.visit divided = .error reason := by
  intro int shifted divided chain
  constructor
  · obtain ⟨w, ⟨ty, casts⟩, visited, same, bare⟩ :=
      (chain_agrees_with_reference PassKind.all (by decide) {} true shifted (by decide)).1
        (.byte 0) (by decide)
    cases bare rfl
    exact ⟨w, ty, visited, same⟩
  · exact (chain_agrees_with_reference PassKind.all (by decide) {} true divided (by decide)).2
      (by decide)

end ConstFold
