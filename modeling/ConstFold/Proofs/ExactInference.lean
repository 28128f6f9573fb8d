import ConstFold.Pass.Typing
import ConstFold.Proofs.ExactCasts
import ConstFold.Proofs.ExactOperators

/-! The type that is inferred for an expression over the exact types is the type it has, and the
types that operands are promoted to are those that operators compute in. -/
namespace ConstFold

variable {p q t : Primitive}

theorem UnaryOp.promotedTy?_exact {op : UnaryOp} {ofVariable : Bool}
    (exact : op.exactTy? p = some t) (variable_ : op.isStep → ofVariable) :
    op.promotedTy? ofVariable (.primitive p) = some (.primitive t) := by
  cases op <;> simp only [exactTy?, Option.ite_none_right_eq_some, Option.some.injEq] at exact
  case not =>
    obtain ⟨rfl, rfl⟩ := exact
    rfl
  case pos | neg | compl =>
    obtain ⟨integral, rfl⟩ := exact
    cases p <;> first | contradiction | rfl
  all_goals
    obtain ⟨integral, rfl⟩ := exact
    rw [variable_ rfl]
    cases p <;> first | contradiction | rfl

/-- An operator computes in the type of its result. -/
theorem UnaryOp.promoted_exact {op : UnaryOp} (exact : op.exactTy? p = some t)
    (noStep : op.isStep = false) : p.casts t ∧ op.exactTy? t = some t := by
  cases op <;> simp [exactTy?, isStep] at exact noStep
  case not =>
    obtain ⟨rfl, rfl⟩ := exact
    exact ⟨rfl, rfl⟩
  all_goals
    obtain ⟨integral, rfl⟩ := exact
    simp [exactTy?, Primitive.casts, integral, p.isIntegral_promoted, p.promoted_promoted]

namespace Ty

theorem binaryNumeric?_integral (left : p.isIntegral) (right : q.isIntegral) :
    binaryNumeric? (.primitive p) (.primitive q) = some (.primitive (p.wider q)) := by
  cases p <;> first | contradiction | cases q <;> first | contradiction | rfl

theorem shiftOperands?_integral (left : p.isIntegral) (right : q.isIntegral) :
    shiftOperands? (.primitive p) (.primitive q) =
      some (.primitive p.promoted, .primitive q.promoted) := by
  cases p <;> first | contradiction | cases q <;> first | contradiction | rfl

end Ty

namespace BinaryOp

variable {op : BinaryOp}

theorem promotedTy?_exact (exact : op.exactTy? p q = some t) :
    op.promotedTy? (.primitive p) (.primitive q) = some (.primitive (op.exactOperands p q).1) := by
  rcases exactTy?_operands exact with ⟨noShift, rfl, rfl⟩ | ⟨left, right⟩
  · cases op <;> simp [exactTy?, Primitive.isIntegral] at exact <;> rfl
  · have notBoolean : p ≠ .boolean := by rintro rfl; contradiction
    have notFloating {p : Primitive} (integral : p.isIntegral) :
        (Ty.primitive p).isFloating = false ∧ (Ty.primitive p).isBoolean = false ∧
          (Ty.primitive p).isBoxed = false := by
      cases p <;> first | contradiction | exact ⟨rfl, rfl, rfl⟩
    cases op <;> simp [exactTy?, notBoolean] at exact
    all_goals
      simp [promotedTy?, exactOperands, isShift, notBoolean, Ty.equalityOperand?,
        notFloating left, notFloating right, Ty.binaryNumeric?_integral left right,
        Ty.shiftOperands?_integral left right]

theorem exactTy?_eq (exact : op.exactTy? p q = some t) :
    t = if op.isPredicate then .boolean else (op.exactOperands p q).1 := by
  rcases exactTy?_operands exact with ⟨noShift, rfl, rfl⟩ | ⟨left, right⟩
  · cases op <;> simp [exactTy?, Primitive.isIntegral] at exact <;> exact exact.symm
  · have notBoolean : p ≠ .boolean := by rintro rfl; contradiction
    cases op <;> simp [exactTy?, notBoolean, left, right] at exact
    all_goals simp [exactOperands, isPredicate, isShift, notBoolean, exact]

/-- The operands convert to the types that the operator computes in. -/
theorem casts_exactOperands (exact : op.exactTy? p q = some t) :
    p.casts (op.exactOperands p q).1 ∧ q.casts (op.exactOperands p q).2 := by
  rcases exactTy?_operands exact with ⟨noShift, rfl, rfl⟩ | ⟨left, right⟩
  · simp [exactOperands, noShift, Primitive.casts]
  · have notBoolean : p ≠ .boolean := by rintro rfl; contradiction
    rw [exactOperands]
    split
    · simp [Primitive.casts, left, right, Primitive.isIntegral_promoted]
    · simp [Primitive.casts, notBoolean, left, right, Primitive.isIntegral_wider]

/-- The type of an operator other than a shift on two numbers depends on their wider type. -/
theorem exactTy?_congr {p' q' : Primitive} (left : p.isIntegral) (right : q.isIntegral)
    (left' : p'.isIntegral) (right' : q'.isIntegral) (noShift : op.isShift = false)
    (same : p'.wider q' = p.wider q) : op.exactTy? p' q' = op.exactTy? p q := by
  have notBoolean {p : Primitive} (integral : p.isIntegral) : p ≠ .boolean := by
    rintro rfl
    contradiction
  cases op <;> first
    | contradiction
    | simp [exactTy?, left, right, left', right', same, notBoolean left, notBoolean left']

/-- Promoting the left operand changes neither the type of the operator nor the types that it
computes in. -/
theorem exactOperands_left (exact : op.exactTy? p q = some t) :
    op.exactTy? (op.exactOperands p q).1 q = some t ∧
      op.exactOperands (op.exactOperands p q).1 q = op.exactOperands p q := by
  rcases exactTy?_operands exact with ⟨noShift, rfl, rfl⟩ | ⟨left, right⟩
  · simp [exactOperands, noShift, exact]
  · have notBoolean : p ≠ .boolean := by rintro rfl; contradiction
    have wideNotBoolean : p.wider q ≠ .boolean := by rcases p.wider_cases q with h | h <;> simp [h]
    by_cases shift : op.isShift
    · rw [exactTy?_shift shift] at exact ⊢
      simpa [exactOperands, shift, left, right, Primitive.promoted_promoted,
        Primitive.isIntegral_promoted] using exact
    · have noShift : op.isShift = false := by simpa using shift
      simp only [exactOperands, noShift, Bool.false_eq_true, if_false, notBoolean, wideNotBoolean,
        p.wider_wider_left, and_true]
      rw [exactTy?_congr left right (p.isIntegral_wider q) right noShift (p.wider_wider_left q)]
      exact exact

/-- Promoting the right operand changes neither the type of the operator nor the types that it
computes in. -/
theorem exactOperands_right (exact : op.exactTy? p q = some t) :
    op.exactTy? p (op.exactOperands p q).2 = some t ∧
      op.exactOperands p (op.exactOperands p q).2 = op.exactOperands p q := by
  rcases exactTy?_operands exact with ⟨noShift, rfl, rfl⟩ | ⟨left, right⟩
  · simp [exactOperands, noShift, exact]
  · have notBoolean : p ≠ .boolean := by rintro rfl; contradiction
    by_cases shift : op.isShift
    · rw [exactTy?_shift shift] at exact ⊢
      simpa [exactOperands, shift, left, right, Primitive.promoted_promoted,
        Primitive.isIntegral_promoted] using exact
    · have noShift : op.isShift = false := by simpa using shift
      simp only [exactOperands, noShift, Bool.false_eq_true, if_false, notBoolean,
        p.wider_wider_right, and_true]
      rw [exactTy?_congr left right left (p.isIntegral_wider q) noShift (p.wider_wider_right q)]
      exact exact

/-- Promoted operands are promoted already. -/
theorem exactOperands_both (exact : op.exactTy? p q = some t) :
    op.exactTy? (op.exactOperands p q).1 (op.exactOperands p q).2 = some t ∧
      op.exactOperands (op.exactOperands p q).1 (op.exactOperands p q).2 = op.exactOperands p q := by
  obtain ⟨exactLeft, sameLeft⟩ := exactOperands_left exact
  obtain ⟨exactBoth, sameBoth⟩ := exactOperands_right exactLeft
  rw [sameLeft] at exactBoth sameBoth
  exact ⟨exactBoth, sameBoth⟩

/-- Promoting both operands changes no result. -/
theorem reference_promoteBoth {v w v' w' : Value} (left : v.primitive? = some p)
    (right : w.primitive? = some q) (exact : op.exactTy? p q = some t)
    (leftMade : v.convert (op.exactOperands p q).1 = some v')
    (rightMade : w.convert (op.exactOperands p q).2 = some w') :
    Reference.binary? op v' w' = Reference.binary? op v w := by
  obtain ⟨exactLeft, sameLeft⟩ := exactOperands_left exact
  obtain ⟨u, made, -, leftTyped⟩ := Value.convert_exact left (casts_exactOperands exact).1
  cases leftMade.symm.trans made
  rw [reference_promoteRight leftTyped right exactLeft (by rwa [sameLeft]),
    reference_promoteLeft left right exact leftMade]

end BinaryOp

namespace Expr

variable {scope : Scope} {s : Static} {x l r e : Expr}

theorem exactTy?_literal {v : Value} :
    (literal v s).exactTy? scope = some q ↔
      ∃ p, v.primitive? = some p ∧ p.isExact ∧ s.ty = some (.primitive p) ∧
        castTy? p s.casts = some q := by
  simp [exactTy?, exactTy?.ofStatic, Option.bind_eq_some_iff, and_assoc]

theorem exactTy?_read {id : VarId} {name : Name} :
    (read id name s).exactTy? scope = some q ↔
      ∃ p, scope.types id = some p ∧ p.isExact ∧ s.ty = some (.primitive p) ∧
        castTy? p s.casts = some q := by
  simp [exactTy?, exactTy?.ofStatic, Option.bind_eq_some_iff, and_assoc]

theorem exactTy?_call {name : Name} {args : List Expr} :
    (call name args s).exactTy? scope = some q ↔
      allExact scope args ∧ ∃ p, p.isExact ∧ s.ty = some (.primitive p) ∧
        castTy? p s.casts = some q := by
  simp only [exactTy?, exactTy?.ofStatic, Option.ite_none_right_eq_some, Option.bind_eq_some_iff,
    Bool.and_eq_true, decide_eq_true_eq]
  refine and_congr_right fun _ => exists_congr fun p => ⟨fun ⟨_, typed⟩ => ?_, fun typed => ?_⟩
  · exact ⟨typed.1.1, typed.1.2, typed.2⟩
  · exact ⟨⟨.primitive p, typed.2.1, rfl⟩, ⟨typed.1, typed.2.1⟩, typed.2.2⟩

theorem isRead_of_isVariable (isVariable : exactTy?.isVariable scope x) : x.isRead := by
  cases x <;> first | rfl | contradiction

theorem inferTy?_unary_exact {op : UnaryOp} (operand : x.operandTy? = some (.primitive p))
    (exact : op.exactTy? p = some t) (step : op.isStep → x.isRead) :
    (unary op x s).inferTy? = some (.primitive t) := by
  rw [operandTy?] at operand
  rw [inferTy?, operand, Option.bind_some, UnaryOp.promotedTy?_exact exact step]

theorem inferTy?_binary_exact {op : BinaryOp} (left : l.operandTy? = some (.primitive p))
    (right : r.operandTy? = some (.primitive q)) (exact : op.exactTy? p q = some t) :
    (binary op l r s).inferTy? = some (.primitive t) := by
  rw [operandTy?] at left right
  rw [inferTy?, left, right, BinaryOp.exactTy?_eq exact]
  split
  · rfl
  · exact BinaryOp.promotedTy?_exact exact

/-- An operator node that is untyped or has the inferred type has the type of the whole by its
casts, or else by inference. -/
theorem operandTy?_of_own (own : exactTy?.ownTy e.static e.inferTy?)
    (inferred : e.inferTy? = some (.primitive t)) (leads : castTy? t e.casts = some q) :
    e.operandTy? = some (.primitive q) := by
  have admits : e.static.Admits t := by
    simpa [exactTy?.ownTy, inferred, Static.Admits] using own
  rw [operandTy?, resultTy]
  rcases Static.resultTy_exact admits leads with result | ⟨untyped, bare, rfl⟩
  · rw [result]
    rfl
  · rw [Static.resultTy, bare, inferred]
    simp [untyped]

theorem operandTy?_of_typed (typed : e.ty = some (.primitive t))
    (leads : castTy? t e.casts = some q) : e.operandTy? = some (.primitive q) := by
  rw [operandTy?, resultTy]
  rcases Static.resultTy_exact (.inr typed) leads with result | ⟨untyped, -, -⟩
  · rw [result]
    rfl
  · cases typed.symm.trans untyped

/-- The type of an operand is the type it has. -/
theorem operandTy?_exact : ∀ (e : Expr) (q : Primitive), e.exactTy? scope = some q →
    e.operandTy? = some (.primitive q)
  | literal v s, q, typed => by
    obtain ⟨p, -, -, own, leads⟩ := exactTy?_literal.mp typed
    exact operandTy?_of_typed own leads
  | read id name s, q, typed => by
    obtain ⟨p, -, -, own, leads⟩ := exactTy?_read.mp typed
    exact operandTy?_of_typed own leads
  | call name args s, q, typed => by
    obtain ⟨-, p, -, own, leads⟩ := exactTy?_call.mp typed
    exact operandTy?_of_typed own leads
  | unary op x s, q, typed => by
    simp only [exactTy?, Option.ite_none_right_eq_some, Option.bind_eq_some_iff,
      Bool.and_eq_true, Bool.or_eq_true, Bool.not_eq_true'] at typed
    obtain ⟨⟨own, step⟩, t, ⟨p, operand, exact⟩, leads⟩ := typed
    have isRead : op.isStep → x.isRead := fun isStep =>
      isRead_of_isVariable (step.resolve_left (by simp [isStep]))
    exact operandTy?_of_own own
      (inferTy?_unary_exact (operandTy?_exact x p operand) exact isRead) leads
  | binary op l r s, q, typed => by
    simp only [exactTy?, Option.ite_none_right_eq_some, Option.bind_eq_some_iff] at typed
    obtain ⟨own, tl, left, t, ⟨tr, right, exact⟩, leads⟩ := typed
    exact operandTy?_of_own own
      (inferTy?_binary_exact (operandTy?_exact l tl left) (operandTy?_exact r tr right) exact) leads
  | typeRef _ _, q, typed => by cases typed

theorem exactTy?_unary {op : UnaryOp} :
    (unary op x s).exactTy? scope = some q ↔
      ∃ p t, x.exactTy? scope = some p ∧ op.exactTy? p = some t ∧ s.Admits t ∧
        castTy? t s.casts = some q ∧ (op.isStep → exactTy?.isVariable scope x) := by
  simp only [exactTy?, Option.ite_none_right_eq_some, Option.bind_eq_some_iff, Bool.and_eq_true,
    Bool.or_eq_true, Bool.not_eq_true', exactTy?.ownTy, decide_eq_true_eq, Static.Admits]
  constructor
  · rintro ⟨⟨own, step⟩, t, ⟨p, operand, exact⟩, leads⟩
    have step : op.isStep → exactTy?.isVariable scope x := fun isStep =>
      step.resolve_left (by simp [isStep])
    rw [inferTy?_unary_exact (operandTy?_exact x p operand) exact
      fun isStep => isRead_of_isVariable (step isStep)] at own
    exact ⟨p, t, operand, exact, own, leads, step⟩
  · rintro ⟨p, t, operand, exact, own, leads, step⟩
    rw [inferTy?_unary_exact (operandTy?_exact x p operand) exact
      fun isStep => isRead_of_isVariable (step isStep)]
    refine ⟨⟨own, ?_⟩, t, ⟨p, operand, exact⟩, leads⟩
    cases isStep : op.isStep with
    | false => exact .inl rfl
    | true => exact .inr (step isStep)

theorem exactTy?_binary {op : BinaryOp} :
    (binary op l r s).exactTy? scope = some q ↔
      ∃ tl tr t, l.exactTy? scope = some tl ∧ r.exactTy? scope = some tr ∧
        op.exactTy? tl tr = some t ∧ s.Admits t ∧ castTy? t s.casts = some q := by
  simp only [exactTy?, Option.ite_none_right_eq_some, Option.bind_eq_some_iff, exactTy?.ownTy,
    Bool.or_eq_true, decide_eq_true_eq, Static.Admits]
  constructor
  · rintro ⟨own, tl, left, t, ⟨tr, right, exact⟩, leads⟩
    rw [inferTy?_binary_exact (operandTy?_exact l tl left) (operandTy?_exact r tr right) exact]
      at own
    exact ⟨tl, tr, t, left, right, exact, own, leads⟩
  · rintro ⟨tl, tr, t, left, right, exact, own, leads⟩
    rw [inferTy?_binary_exact (operandTy?_exact l tl left) (operandTy?_exact r tr right) exact]
    exact ⟨own, tl, left, t, ⟨tr, right, exact⟩, leads⟩

/-- Without its casts a node has the type that they start from. -/
theorem exactTy?_withCasts (e : Expr) (casts : List Cast) :
    (e.withCasts casts).exactTy? scope =
      ((e.withCasts []).exactTy? scope).bind fun t => castTy? t casts := by
  apply Option.ext
  intro q
  cases e <;> simp only [withCasts, withStatic, Option.bind_eq_some_iff, exactTy?_literal,
    exactTy?_read, exactTy?_call, exactTy?_unary, exactTy?_binary, castTy?, Option.some.injEq]
  case typeRef => simp [exactTy?]
  case literal | read =>
    constructor
    · rintro ⟨p, own, exact, typed, leads⟩
      exact ⟨p, ⟨p, own, exact, typed, rfl⟩, leads⟩
    · rintro ⟨_, ⟨p, own, exact, typed, rfl⟩, leads⟩
      exact ⟨p, own, exact, typed, leads⟩
  case call =>
    constructor
    · rintro ⟨args, p, exact, typed, leads⟩
      exact ⟨p, ⟨args, p, exact, typed, rfl⟩, leads⟩
    · rintro ⟨_, ⟨args, p, exact, typed, rfl⟩, leads⟩
      exact ⟨args, p, exact, typed, leads⟩
  case unary =>
    constructor
    · rintro ⟨p, t, operand, exact, own, leads, step⟩
      exact ⟨t, ⟨p, t, operand, exact, own, rfl, step⟩, leads⟩
    · rintro ⟨_, ⟨p, t, operand, exact, own, rfl, step⟩, leads⟩
      exact ⟨p, t, operand, exact, own, leads, step⟩
  case binary =>
    constructor
    · rintro ⟨tl, tr, t, left, right, exact, own, leads⟩
      exact ⟨t, ⟨tl, tr, t, left, right, exact, own, rfl⟩, leads⟩
    · rintro ⟨_, ⟨tl, tr, t, left, right, exact, own, rfl⟩, leads⟩
      exact ⟨tl, tr, t, left, right, exact, own, leads⟩

theorem exactTy?_addCasts (e : Expr) (casts : List Cast) :
    (e.addCasts casts).exactTy? scope =
      (e.exactTy? scope).bind fun t => castTy? t casts := by
  conv_rhs => rw [← withCasts_casts e, exactTy?_withCasts]
  rw [addCasts, exactTy?_withCasts, Option.bind_assoc]
  simp only [castTy?_append]

theorem isExact_of_unary {op : UnaryOp} (exact : op.exactTy? p = some t) : t.isExact := by
  cases op <;> simp only [UnaryOp.exactTy?, Option.ite_none_right_eq_some, Option.some.injEq] at exact
  case not => exact exact.2 ▸ rfl
  case pos | neg | compl =>
    obtain ⟨-, rfl⟩ := exact
    rcases p.promoted_cases with wide | wide <;> rw [wide] <;> rfl
  all_goals
    obtain ⟨integral, rfl⟩ := exact
    cases p <;> first | contradiction | rfl

theorem isExact_of_binary {op : BinaryOp} (exact : op.exactTy? p q = some t) : t.isExact := by
  rw [BinaryOp.exactTy?_eq exact]
  split
  · rfl
  · exact Primitive.isExact_of_casts (BinaryOp.casts_exactOperands exact).1

/-- A well-typed node has an exact type before its casts, and the casts lead from it to the type
of the whole. -/
theorem exists_bareTy (typed : e.exactTy? scope = some q) :
    ∃ t, (e.withCasts []).exactTy? scope = some t ∧ t.isExact ∧ e.static.Admits t ∧
      castTy? t e.casts = some q := by
  have bare := typed
  rw [← withCasts_casts e, exactTy?_withCasts, Option.bind_eq_some_iff] at bare
  obtain ⟨t, bare, leads⟩ := bare
  suffices exact : t.isExact ∧ e.static.Admits t from ⟨t, bare, exact.1, exact.2, leads⟩
  cases e <;> simp only [withCasts, withStatic, exactTy?_literal, exactTy?_read, exactTy?_call,
    exactTy?_unary, exactTy?_binary, castTy?, Option.some.injEq] at bare
  case literal | read =>
    obtain ⟨t, -, exact, typed, rfl⟩ := bare
    exact ⟨exact, .inr typed⟩
  case call =>
    obtain ⟨-, t, exact, typed, rfl⟩ := bare
    exact ⟨exact, .inr typed⟩
  case unary =>
    obtain ⟨p, t, -, exact, own, rfl, -⟩ := bare
    exact ⟨isExact_of_unary exact, own⟩
  case binary =>
    obtain ⟨tl, tr, t, -, -, exact, own, rfl⟩ := bare
    exact ⟨isExact_of_binary exact, own⟩
  case typeRef => cases bare

theorem isExact_of_typed (typed : e.exactTy? scope = some q) : q.isExact := by
  obtain ⟨t, -, exact, -, leads⟩ := exists_bareTy typed
  exact Primitive.isExact_of_casts (casts_of_castTy? exact leads)

theorem exactTy?_castTo (typed : e.exactTy? scope = some q) (related : q.casts t) :
    (e.castTo (.primitive t)).exactTy? scope = some t := by
  obtain ⟨b, bare, exact, admits, leads⟩ := exists_bareTy typed
  rw [castTo_eq, exactTy?_withCasts, bare]
  exact (Static.castTo_exact admits exact leads related).1

/-! The types that operands are promoted to. -/

theorem unaryTarget?_of_operandTy? {op : UnaryOp} (operand : x.operandTy? = some (.primitive p))
    (exact : op.exactTy? p = some t) (noStep : op.isStep = false) :
    unaryTarget? op x = some (.primitive t) := by
  have step : op.isStep → x.isRead := by simp [noStep]
  rw [unaryTarget?, noStep, if_neg Bool.false_ne_true, unaryPromotedTy?, operand, Option.bind_some,
    UnaryOp.promotedTy?_exact exact step]
  rfl

theorem unaryTarget?_exact {op : UnaryOp} (operand : x.exactTy? scope = some p)
    (exact : op.exactTy? p = some t) (noStep : op.isStep = false) :
    unaryTarget? op x = some (.primitive t) :=
  unaryTarget?_of_operandTy? (operandTy?_exact x p operand) exact noStep

theorem binaryPromotedTy?_exact {op : BinaryOp} (left : l.exactTy? scope = some p)
    (right : r.exactTy? scope = some q) (exact : op.exactTy? p q = some t) :
    binaryPromotedTy? op l r = some (.primitive (op.exactOperands p q).1) := by
  rw [binaryPromotedTy?, operandTy?_exact l p left, operandTy?_exact r q right]
  exact BinaryOp.promotedTy?_exact exact

theorem binaryTargets?_of_operandTy? {op : BinaryOp} (left : l.operandTy? = some (.primitive p))
    (right : r.operandTy? = some (.primitive q)) (exact : op.exactTy? p q = some t) :
    binaryTargets? op l r =
      some (.primitive (op.exactOperands p q).1, .primitive (op.exactOperands p q).2) := by
  rw [binaryTargets?, left, right]
  simp only [BinaryOp.promotedTy?_exact exact]
  rcases BinaryOp.exactTy?_operands exact with ⟨noShift, rfl, rfl⟩ | ⟨integral, other⟩
  · simp [noShift, BinaryOp.exactOperands, Ty.isPrimitive]
  · have notBoolean : p ≠ .boolean := by rintro rfl; contradiction
    by_cases shift : op.isShift
    · simp [shift, BinaryOp.exactOperands, Ty.shiftOperands?_integral integral other]
    · simp [shift, BinaryOp.exactOperands, notBoolean, Ty.isPrimitive]

theorem binaryTargets?_exact {op : BinaryOp} (left : l.exactTy? scope = some p)
    (right : r.exactTy? scope = some q) (exact : op.exactTy? p q = some t) :
    binaryTargets? op l r =
      some (.primitive (op.exactOperands p q).1, .primitive (op.exactOperands p q).2) :=
  binaryTargets?_of_operandTy? (operandTy?_exact l p left) (operandTy?_exact r q right) exact

end Expr

end ConstFold
