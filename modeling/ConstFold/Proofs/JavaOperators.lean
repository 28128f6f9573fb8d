import ConstFold.Proofs.ExactOperators
import ConstFold.Proofs.JavaEvaluation
import ConstFold.Proofs.PromotedTypes

/-! Casts and operators on the constants of all primitive types: between numeric types every cast
is defined, and an operator has a value of its type unless it divides an integer by zero. -/
namespace ConstFold

variable {op : BinaryOp} {v w : Value} {p q t : Primitive} {i j : Int}

namespace Reference

theorem exists_cast (typed : v.primitive? = some p) (related : p = q ∨ p.isNumeric ∧ q.isNumeric) :
    ∃ w, cast v q = some w ∧ w.primitive? = some q := by
  cases v <;> simp only [Value.primitive?, Option.some.injEq, reduceCtorEq] at typed
  all_goals
    subst typed
    cases q <;> first
      | exact ⟨_, rfl, rfl⟩
      | (exfalso; simp [Primitive.isNumeric] at related)

/-- Two numbers are combined in the type that they are promoted to. -/
theorem binary?_numeric (left : v.primitive? = some p) (right : w.primitive? = some q)
    (numeric : Ty.binaryNumeric? (.primitive p) (.primitive q) = some (.primitive t))
    (noShift : op.isShift = false) : binary? op v w = numeric? op t v w := by
  have promoted : promoted? v w = some t := by
    cases v <;> simp only [Value.primitive?, Option.some.injEq, reduceCtorEq] at left
    all_goals cases w <;> simp only [Value.primitive?, Option.some.injEq, reduceCtorEq] at right
    all_goals
      subst left right
      cases numeric
    all_goals rfl
  have notBoolean : p ≠ .boolean := by
    rintro rfl
    cases numeric
  suffices combined : binary? op v w = (promoted? v w).bind fun ty => numeric? op ty v w by
    rw [combined, promoted, Option.bind_some]
  cases v with
  | bool => exact absurd (Option.some.inj left).symm notBoolean
  | _ => simp [binary?, noShift]

/-- An operator on two floating-point numbers of one format. -/
def onReals {f : Format} (op : BinaryOp) (make : Binary f → Value) (a b : Binary f) :
    Option Outcome :=
  match comparison? op (a.compare? b) with
  | some holds => some (.value (.bool holds))
  | none => (floating? op a b).map fun c => .value (make c)

/-- Numbers that are combined in a floating-point type are first converted to it. -/
theorem numeric?_floating (op : BinaryOp) (left : v.primitive? = some p) (right : w.primitive? = some q)
    (numeric : p.isNumeric ∧ q.isNumeric) (floating : t = .float ∨ t = .double) :
    ∃ (f : Format) (make : Binary f → Value) (a b : Binary f),
      (∀ c, (make c).primitive? = some t) ∧ numeric? op t v w = onReals op make a b := by
  have target : t.isNumeric := by rcases floating with rfl | rfl <;> rfl
  obtain ⟨x, leftCast, leftKind⟩ := exists_cast left (.inr ⟨numeric.1, target⟩)
  obtain ⟨y, rightCast, rightKind⟩ := exists_cast right (.inr ⟨numeric.2, target⟩)
  rcases floating with rfl | rfl
  · simp only [numeric?, leftCast, rightCast]
    cases x <;> cases leftKind
    cases y <;> cases rightKind
    exact ⟨_, .float, _, _, fun _ => rfl, rfl⟩
  · simp only [numeric?, leftCast, rightCast]
    cases x <;> cases leftKind
    cases y <;> cases rightKind
    exact ⟨_, .double, _, _, fun _ => rfl, rfl⟩

end Reference

namespace Java

/-- The operator divides an integer by zero. -/
def DividesByZero (op : BinaryOp) (type : Ty) (divisor : Value) : Prop :=
  (op = .div ∨ op = .mod) ∧ type.isFloating = false ∧ divisor.integer? = some 0

/-- The outcome is a value of the type, unless the operator divides an integer by zero. -/
def IsOutcome (op : BinaryOp) (type : Ty) (divisor : Value) (outcome : Option Reference.Outcome) :
    Prop :=
  (∃ x, outcome = some (.value x) ∧ isConstantOf x type) ∨
    (outcome = some .divisionByZero ∧ DividesByZero op type divisor)

variable {type : Ty}

theorem isOutcome_boolean {a b : Bool} (typed : binaryTy? op .boolean .boolean = some type) :
    IsOutcome op type w (Reference.binary? op (.bool a) (.bool b)) := by
  cases op <;> cases typed
  all_goals exact .inl ⟨_, rfl, rfl⟩

/-- On two numbers an operator compares, or computes in the type that they are promoted to. -/
theorem binaryTy?_numbers
    (numeric : Ty.binaryNumeric? (.primitive p) (.primitive q) = some (.primitive t))
    (noShift : op.isShift = false)
    (typed : binaryTy? op (.primitive p) (.primitive q) = some type) :
    (type = .boolean ∧ ∀ order, ∃ b, Reference.comparison? op order = some b) ∨
      (type = .primitive t ∧ (∀ order, Reference.comparison? op order = none) ∧
        (∀ i j, ∃ n, Reference.integral? op i j = some n) ∧
        (t.isFloating →
          ∀ (f : Format) (a b : Binary f), ∃ c, Reference.floating? op a b = some c)) := by
  have notBoolean := (Ty.isBoolean_binaryNumeric? numeric).2.2.1
  cases op with
  | eq | ne | lt | le | gt | ge =>
    simp [binaryTy?, isComparable, numeric] at typed
    exact .inl ⟨typed.symm, fun order => ⟨_, rfl⟩⟩
  | plus | minus | mul | div | mod =>
    simp [binaryTy?, numeric] at typed
    exact .inr ⟨typed.symm, fun _ => rfl, fun _ _ => ⟨_, rfl⟩, fun _ _ _ _ => ⟨_, rfl⟩⟩
  | bitAnd | bitOr | bitXor =>
    simp only [binaryTy?, notBoolean, numeric, Bool.false_and, Bool.false_eq_true, if_false,
      Option.filter_some, Option.ite_none_right_eq_some, Option.some.injEq] at typed
    obtain ⟨integral, rfl⟩ := typed
    refine .inr ⟨rfl, fun _ => rfl, fun _ _ => ⟨_, rfl⟩, fun floating => ?_⟩
    cases t <;> contradiction
  | and | or => simp [binaryTy?, notBoolean] at typed
  | shl | shr | ushr => cases noShift
  | instanceOf => cases typed

theorem promoted_cases
    (numeric : Ty.binaryNumeric? (.primitive p) (.primitive q) = some (.primitive t)) :
    (p.isIntegral ∧ q.isIntegral ∧ (t = .int ∨ t = .long)) ∨
      ((p.isNumeric ∧ q.isNumeric) ∧ (t = .float ∨ t = .double)) := by
  cases p <;> cases q <;> cases numeric
  all_goals simp [Primitive.isIntegral, Primitive.isNumeric]

theorem isOutcome_integral (number : v.integer? = some i) (other : w.integer? = some j)
    (computed : t = .int ∨ t = .long)
    (numeric : Ty.binaryNumeric? (.primitive p) (.primitive q) = some (.primitive t))
    (noShift : op.isShift = false)
    (typed : binaryTy? op (.primitive p) (.primitive q) = some type) :
    IsOutcome op type w (Reference.numeric? op t v w) := by
  rw [Reference.numeric?_integral number other computed, Reference.onIntegers]
  rcases binaryTy?_numbers numeric noShift typed with
    ⟨rfl, compares⟩ | ⟨rfl, notCompares, computes, -⟩
  · obtain ⟨b, holds⟩ := compares (some (compare i j))
    rw [holds]
    exact .inl ⟨.bool b, rfl, rfl⟩
  · have integral : t.isIntegral ∧ (Ty.primitive t).isFloating = false := by
      rcases computed with rfl | rfl <;> exact ⟨rfl, rfl⟩
    rw [notCompares]
    by_cases zero : ((op = .div || op = .mod) && j = 0) = true
    · simp only [Bool.and_eq_true, Bool.or_eq_true, decide_eq_true_eq] at zero
      obtain ⟨divides, rfl⟩ := zero
      exact .inr ⟨by simp [divides], divides, integral.2, other⟩
    · obtain ⟨n, computed⟩ := computes i j
      obtain ⟨x, made, kind⟩ := Value.exists_ofInteger integral.1 n
      refine .inl ⟨x, ?_, by simp [isConstantOf, kind]⟩
      simp [zero, computed, made]

theorem isOutcome_onReals {f : Format} {make : Binary f → Value} (a b : Binary f)
    (kind : ∀ c, (make c).primitive? = some t) (floating : t.isFloating)
    (numeric : Ty.binaryNumeric? (.primitive p) (.primitive q) = some (.primitive t))
    (noShift : op.isShift = false)
    (typed : binaryTy? op (.primitive p) (.primitive q) = some type) :
    IsOutcome op type w (Reference.onReals op make a b) := by
  rw [Reference.onReals]
  rcases binaryTy?_numbers numeric noShift typed with
    ⟨rfl, compares⟩ | ⟨rfl, notCompares, -, computes⟩
  · obtain ⟨b, holds⟩ := compares (a.compare? b)
    rw [holds]
    exact .inl ⟨.bool b, rfl, rfl⟩
  · obtain ⟨c, computed⟩ := computes floating f a b
    rw [notCompares, computed]
    exact .inl ⟨make c, rfl, by simp [isConstantOf, kind]⟩

theorem isOutcome_numeric (left : v.primitive? = some p) (right : w.primitive? = some q)
    (numeric : Ty.binaryNumeric? (.primitive p) (.primitive q) = some (.primitive t))
    (noShift : op.isShift = false)
    (typed : binaryTy? op (.primitive p) (.primitive q) = some type) :
    IsOutcome op type w (Reference.binary? op v w) := by
  rw [Reference.binary?_numeric left right numeric noShift]
  rcases promoted_cases numeric with ⟨leftKind, rightKind, computed⟩ | ⟨kinds, computed⟩
  · obtain ⟨i, number⟩ := Value.exists_integer left leftKind
    obtain ⟨j, other⟩ := Value.exists_integer right rightKind
    exact isOutcome_integral number other computed numeric noShift typed
  · have floating : t.isFloating := by rcases computed with rfl | rfl <;> rfl
    obtain ⟨f, make, a, b, kind, combined⟩ := Reference.numeric?_floating op left right kinds computed
    rw [combined]
    exact isOutcome_onReals a b kind floating numeric noShift typed

theorem isOutcome_shift (left : v.primitive? = some p) (right : w.primitive? = some q)
    (shift : op.isShift) (typed : binaryTy? op (.primitive p) (.primitive q) = some type) :
    IsOutcome op type w (Reference.binary? op v w) := by
  have operands : (Ty.shiftOperands? (.primitive p) (.primitive q)).map Prod.fst = some type := by
    cases op <;> first | contradiction | exact typed
  obtain ⟨leftKind, rightKind, rfl⟩ : p.isIntegral ∧ q.isIntegral ∧ type = .primitive p.promoted := by
    cases p <;> cases q <;> cases operands
    all_goals exact ⟨rfl, rfl, rfl⟩
  obtain ⟨i, number⟩ := Value.exists_integer left leftKind
  obtain ⟨j, other⟩ := Value.exists_integer right rightKind
  rw [Reference.binary?_shift left number other shift]
  obtain ⟨x, made, kind⟩ := Value.exists_ofInteger p.isIntegral_promoted
    (Reference.shifted op i p.computedBits (j.emod p.computedBits).toNat)
  exact .inl ⟨x, by rw [made]; rfl, by simp [isConstantOf, kind]⟩

/-- An operator on constants of primitive types, if it is defined on the types. -/
theorem isOutcome_primitive (left : v.primitive? = some p) (right : w.primitive? = some q)
    (typed : binaryTy? op (.primitive p) (.primitive q) = some type) :
    IsOutcome op type w (Reference.binary? op v w) := by
  by_cases shift : op.isShift
  · exact isOutcome_shift left right shift typed
  cases numeric : Ty.binaryNumeric? (.primitive p) (.primitive q) with
  | some promoted =>
    obtain ⟨_, _, -, -, rfl⟩ := Ty.binaryNumeric?_eq_some numeric
    exact isOutcome_numeric left right numeric (by simpa using shift) typed
  | none =>
    have logical : (Ty.primitive p).isBoolean ∧ (Ty.primitive q).isBoolean := by
      cases op <;> simp [binaryTy?, isComparable, numeric, Ty.isPrimitive] at typed shift
      all_goals first | exact typed.1 | cases shift
    obtain ⟨rfl, rfl⟩ : p = .boolean ∧ q = .boolean := by
      simpa [Ty.isBoolean, Ty.unboxed?] using logical
    obtain ⟨a, rfl⟩ := Value.exists_bool left
    obtain ⟨b, rfl⟩ := Value.exists_bool right
    exact isOutcome_boolean typed

variable {left right : Ty}

theorem unaryTy?_primitive {op : UnaryOp} {operand : Ty} (noStep : op.isStep = false)
    (typed : unaryTy? op operand = some type) : type.isPrimitive := by
  cases op with
  | not =>
    simp only [unaryTy?, Option.ite_none_right_eq_some, Option.some.injEq] at typed
    rw [← typed.2]
    rfl
  | pos | neg => exact (Ty.unaryNumeric?_idem typed).1
  | compl => exact (Ty.unaryNumeric?_idem (Option.filter_eq_some_iff.mp typed).1).1
  | preInc | preDec | postInc | postDec => cases noStep

theorem binaryTy?_primitive (typed : binaryTy? op left right = some type) :
    type.isPrimitive ∨ type = .string := by
  cases op with
  | and | or | eq | ne =>
    simp only [binaryTy?, Option.ite_none_right_eq_some, Option.some.injEq] at typed
    rw [← typed.2]
    exact .inl rfl
  | lt | le | gt | ge =>
    obtain ⟨-, -, rfl⟩ := Option.map_eq_some_iff.mp typed
    exact .inl rfl
  | minus | mul | div | mod => exact .inl (Ty.isBoolean_binaryNumeric? typed).1
  | plus =>
    simp only [binaryTy?] at typed
    split at typed
    · exact .inr (Option.some.inj typed).symm
    · exact .inl (Ty.isBoolean_binaryNumeric? typed).1
  | bitAnd | bitOr | bitXor =>
    simp only [binaryTy?] at typed
    split at typed
    · rw [← Option.some.inj typed]
      exact .inl rfl
    · exact .inl (Ty.isBoolean_binaryNumeric? (Option.filter_eq_some_iff.mp typed).1).1
  | shl | shr | ushr =>
    obtain ⟨_, shift, rfl⟩ := Option.map_eq_some_iff.mp typed
    exact .inl (Ty.unaryNumeric?_idem (Ty.shiftOperands?_eq_some shift).1.1).1
  | instanceOf => cases typed

theorem declarable_of_primitive (kind : type.isPrimitive ∨ type = .string) :
    isDeclarable type ∧ type.isBoxed = false := by
  rcases kind with primitive | rfl
  · cases type with
    | primitive => exact ⟨rfl, rfl⟩
    | boxed | string | null | object | classType => cases primitive
  · exact ⟨rfl, rfl⟩

theorem exists_unboxed_of_numeric (numeric : left.unaryNumeric? = some type) :
    ∃ p, left.unboxed? = some p := by
  obtain ⟨p, numeric, -⟩ := Option.map_eq_some_iff.mp numeric
  exact ⟨p, (Ty.unboxed?_of_numeric? numeric).1⟩

/-- A wrapper counts as the type that it boxes. -/
theorem binaryTy?_unboxed (leftUnboxed : left.unboxed? = some p)
    (rightUnboxed : right.unboxed? = some q)
    (computes : unboxesOperands op (some left) (some right)) :
    binaryTy? op left right = binaryTy? op (.primitive p) (.primitive q) := by
  have numeric {t : Ty} {p : Primitive} (unboxed : t.unboxed? = some p) :
      t.numeric? = (Ty.primitive p).numeric? ∧ t.isBoolean = (Ty.primitive p).isBoolean ∧
        t ≠ .string := by
    refine ⟨by rw [Ty.numeric?, unboxed]; rfl, by rw [Ty.isBoolean, unboxed]; rfl, ?_⟩
    rintro rfl
    cases unboxed
  obtain ⟨leftNumeric, leftBoolean, leftText⟩ := numeric leftUnboxed
  obtain ⟨rightNumeric, rightBoolean, rightText⟩ := numeric rightUnboxed
  have binary : Ty.binaryNumeric? left right = Ty.binaryNumeric? (.primitive p) (.primitive q) := by
    rw [Ty.binaryNumeric?, leftNumeric, rightNumeric, Ty.binaryNumeric?]
  have shift : Ty.shiftOperands? left right = Ty.shiftOperands? (.primitive p) (.primitive q) := by
    rw [Ty.shiftOperands?, Ty.unaryNumeric?, Ty.unaryNumeric?, leftNumeric, rightNumeric]
    rfl
  cases op <;> simp only [binaryTy?, isComparable, leftBoolean, rightBoolean, binary, shift]
  case eq | ne =>
    simp only [unboxesOperands, Option.any_some, Bool.or_eq_true] at computes
    have known (p : Primitive) : (Ty.primitive p).isPrimitive = true := rfl
    rcases computes with primitive | primitive <;> simp [primitive, known]
  case plus => simp [leftText, rightText]

theorem exists_unboxed (typed : binaryTy? op left right = some type)
    (computes : unboxesOperands op (some left) (some right)) :
    ∃ p q, left.unboxed? = some p ∧ right.unboxed? = some q := by
  have boolean (logical : left.isBoolean ∧ right.isBoolean) :
      ∃ p q, left.unboxed? = some p ∧ right.unboxed? = some q :=
    ⟨.boolean, .boolean, by simpa [Ty.isBoolean] using logical⟩
  have numbers {t : Ty} (numeric : Ty.binaryNumeric? left right = some t) :
      ∃ p q, left.unboxed? = some p ∧ right.unboxed? = some q := by
    obtain ⟨p, q, isLeft, isRight, -⟩ := Ty.binaryNumeric?_eq_some numeric
    exact ⟨p, q, (Ty.unboxed?_of_numeric? isLeft).1, (Ty.unboxed?_of_numeric? isRight).1⟩
  cases op with
  | and | or =>
    simp only [binaryTy?, Option.ite_none_right_eq_some, Bool.and_eq_true] at typed
    exact boolean typed.1
  | eq | ne =>
    simp only [unboxesOperands, Option.any_some, Bool.or_eq_true] at computes
    simp only [binaryTy?, isComparable, Option.ite_none_right_eq_some, Bool.or_eq_true,
      Bool.and_eq_true, Bool.not_eq_true'] at typed
    obtain ⟨(⟨noLeft, noRight⟩ | logical) | numeric, -⟩ := typed
    · simp [noLeft, noRight] at computes
    · exact boolean logical
    · exact numbers (Option.get_mem numeric)
  | lt | le | gt | ge =>
    obtain ⟨t, numeric, -⟩ := Option.map_eq_some_iff.mp typed
    exact numbers numeric
  | plus =>
    simp only [unboxesOperands, ne_eq, Option.some.injEq, decide_not, Bool.and_eq_true,
      Bool.not_eq_true', decide_eq_false_iff_not] at computes
    simp only [binaryTy?, computes, decide_false, Bool.or_self, Bool.false_eq_true, if_false] at typed
    exact numbers typed
  | minus | mul | div | mod => exact numbers typed
  | bitAnd | bitOr | bitXor =>
    simp only [binaryTy?] at typed
    split at typed
    · rename_i logical
      exact boolean (by simpa using logical)
    · exact numbers (Option.filter_eq_some_iff.mp typed).1
  | shl | shr | ushr =>
    obtain ⟨_, shift, -⟩ := Option.map_eq_some_iff.mp typed
    obtain ⟨⟨isLeft, -⟩, isRight, -⟩ := Ty.shiftOperands?_eq_some shift
    obtain ⟨p, isLeft⟩ := exists_unboxed_of_numeric isLeft
    obtain ⟨q, isRight⟩ := exists_unboxed_of_numeric isRight
    exact ⟨p, q, isLeft, isRight⟩
  | instanceOf => cases typed

theorem isOutcome_binary (typed : binaryTy? op left right = some type)
    (computes : unboxesOperands op (some left) (some right)) (leftKind : v.primitive? = left.unboxed?)
    (rightKind : w.primitive? = right.unboxed?) :
    IsOutcome op type w (Reference.binary? op v w) := by
  obtain ⟨p, q, leftUnboxed, rightUnboxed⟩ := exists_unboxed typed computes
  rw [binaryTy?_unboxed leftUnboxed rightUnboxed computes] at typed
  exact isOutcome_primitive (leftKind.trans leftUnboxed) (rightKind.trans rightUnboxed) typed

/-- An operator that assigns nothing unboxes its operand and has a value of its type. -/
theorem exists_unary {op : UnaryOp} {operand : Ty} (typed : unaryTy? op operand = some type)
    (noStep : op.isStep = false) :
    ∃ p, operand.unboxed? = some p ∧ ∀ v : Value, v.primitive? = some p →
      ∃ x, Reference.unary? op v = some x ∧ isConstantOf x type := by
  obtain ⟨p, unboxed⟩ : ∃ p, operand.unboxed? = some p := by
    cases op with
    | not =>
      simp only [unaryTy?, Option.ite_none_right_eq_some] at typed
      exact ⟨.boolean, by simpa [Ty.isBoolean] using typed.1⟩
    | pos | neg => exact exists_unboxed_of_numeric typed
    | compl => exact exists_unboxed_of_numeric (Option.filter_eq_some_iff.mp typed).1
    | preInc | preDec | postInc | postDec => cases noStep
  refine ⟨p, unboxed, fun v kind => ?_⟩
  have primitive : unaryTy? op (.primitive p) = some type := by
    rw [← typed]
    cases op <;> simp only [unaryTy?, Ty.unaryNumeric?, Ty.numeric?, Ty.isBoolean, unboxed] <;>
      first | rfl | cases noStep
  cases op <;> cases noStep
  all_goals cases v <;> cases kind <;> cases primitive
  all_goals exact ⟨_, rfl, rfl⟩

end Java

end ConstFold
