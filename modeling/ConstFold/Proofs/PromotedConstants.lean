import ConstFold.Proofs.RealOperators
import ConstFold.Proofs.Soundness.Constant

/-! Operators on constants of all primitive types. Promotion of the operands changes no outcome, an
operator on promoted constants has the value that the reference finds or divides by zero, and a law
leaves the operand that is the value. -/
namespace ConstFold

variable {op : BinaryOp} {v w v' w' x y : Value} {p q t tx ty : Primitive} {type : Ty}

namespace Java

theorem binaryTy?_exact (left : p.isExact) (right : q.isExact) :
    binaryTy? op (.primitive p) (.primitive q) = (op.exactTy? p q).map .primitive := by
  cases p <;> cases left <;> cases q <;> cases right <;> cases op <;> rfl

/-- An operator is defined on the types that it promotes its operands to. -/
theorem binaryTy?_of_promoted
    (computed : op.promotedTy? (.primitive p) (.primitive q) = some (.primitive t)) :
    binaryTy? op (.primitive p) (.primitive q) =
      some (.primitive (if op.isPredicate then .boolean else t)) := by
  cases op with
  | and | or =>
    simp only [BinaryOp.promotedTy?, Option.ite_none_right_eq_some] at computed
    exact if_pos computed.1
  | eq | ne =>
    have comparable : isComparable (.primitive p) (.primitive q) := by
      rcases Ty.equalityOperand?_primitive computed rfl with ⟨-, left, right⟩ | numeric
      · simp [isComparable, left, right]
      · simp [isComparable, numeric]
    exact if_pos comparable
  | lt | le | gt | ge => exact congrArg (Option.map fun _ => Ty.boolean) computed
  | minus | mul | div | mod => exact computed
  | plus =>
    simp only [BinaryOp.promotedTy?] at computed
    split at computed
    · rename_i numeric
      simpa [binaryTy?, numeric, BinaryOp.isPredicate] using computed
    · cases computed
  | bitAnd | bitOr | bitXor =>
    simp only [BinaryOp.promotedTy?] at computed
    split_ifs at computed with floating logical
    · simpa [binaryTy?, logical, BinaryOp.isPredicate] using computed
    · have integral : (Ty.primitive t).isIntegral := by
        have numbers := promoted_cases computed
        have same := Ty.isFloating_binaryNumeric? computed
        rw [Bool.not_eq_true] at floating
        rw [floating] at same
        rcases numbers with ⟨-, -, rfl | rfl⟩ | ⟨-, rfl | rfl⟩ <;> first | rfl | cases same
      simp only [binaryTy?, logical, computed, Option.filter_some, integral, if_true]
      rfl
  | shl | shr | ushr => exact computed
  | instanceOf => cases computed

end Java

/-- The constant on the side. -/
def Side.constant (x y : Value) : Side → Value
  | left => x
  | right => y

namespace BinaryOp

/-- The operator is defined on operands of the types `p` and `q`, promotes them to `tx` and `ty`,
computes in `tx` and has a result of type `t`. -/
structure Promotes (op : BinaryOp) (p q tx ty t : Primitive) : Prop where
  typed : Java.binaryTy? op (.primitive p) (.primitive q) = some (.primitive t)
  targets : op.targets? (.primitive p) (.primitive q) = some (.primitive tx, .primitive ty)
  computed : op.promotedTy? (.primitive p) (.primitive q) = some (.primitive tx)
  result : t = if op.isPredicate then .boolean else tx

theorem targets?_exact (exact : op.exactTy? p q = some t) :
    op.targets? (.primitive p) (.primitive q) =
      some (.primitive (op.exactOperands p q).1, .primitive (op.exactOperands p q).2) := by
  have known := Expr.binaryTargets?_of_operandTy? (l := .literal .null ⟨some (.primitive p), []⟩)
    (r := .literal .null ⟨some (.primitive q), []⟩) rfl rfl exact
  rwa [Expr.binaryTargets?_eq] at known

theorem promotedTy?_real (typed : Java.binaryTy? op (.primitive p) (.primitive q) = some type)
    (noShift : op.isShift = false)
    (numeric : Ty.binaryNumeric? (.primitive p) (.primitive q) = some (.primitive t))
    (floating : t = .float ∨ t = .double) :
    op.promotedTy? (.primitive p) (.primitive q) = some (.primitive t) ∧
      type = .primitive (if op.isPredicate then .boolean else t) := by
  obtain ⟨-, -, noLeft, noRight⟩ := Ty.isBoolean_binaryNumeric? numeric
  cases op with
  | and | or => simp [Java.binaryTy?, noLeft] at typed
  | eq | ne =>
    simp only [Java.binaryTy?, Option.ite_none_right_eq_some, Option.some.injEq] at typed
    exact ⟨by simp [promotedTy?, Ty.equalityOperand?, numeric, Ty.isBoxed], typed.2.symm⟩
  | lt | le | gt | ge =>
    simp only [Java.binaryTy?, numeric, Option.map_some, Option.some.injEq] at typed
    exact ⟨numeric, typed.symm⟩
  | minus | mul | div | mod =>
    simp only [Java.binaryTy?, numeric, Option.some.injEq] at typed
    exact ⟨numeric, typed.symm⟩
  | plus =>
    simp [Java.binaryTy?, numeric] at typed
    exact ⟨by simp [promotedTy?, numeric], typed.symm⟩
  | bitAnd | bitOr | bitXor =>
    simp only [Java.binaryTy?, noLeft, numeric, Bool.false_and, Bool.false_eq_true, if_false,
      Option.filter_some, Option.ite_none_right_eq_some] at typed
    rcases floating with rfl | rfl <;> cases typed.1
  | shl | shr | ushr => cases noShift
  | instanceOf => cases typed

/-- Every operator that is defined on primitive types promotes its operands. -/
theorem exists_promotes (typed : Java.binaryTy? op (.primitive p) (.primitive q) = some type) :
    ∃ tx ty t, type = .primitive t ∧ op.Promotes p q tx ty t := by
  rcases Java.exact_or_real typed with ⟨left, right⟩ | ⟨noShift, -, t, numeric, floating⟩
  · have known := typed
    rw [Java.binaryTy?_exact left right, Option.map_eq_some_iff] at known
    obtain ⟨t, exact, rfl⟩ := known
    exact ⟨_, _, t, rfl, typed, targets?_exact exact, promotedTy?_exact exact, exactTy?_eq exact⟩
  · obtain ⟨computed, rfl⟩ := promotedTy?_real typed noShift numeric floating
    refine ⟨t, t, _, rfl, typed, ?_, computed, rfl⟩
    exact (targets?_eq_some noShift).mpr ⟨⟨computed, rfl⟩, rfl⟩

namespace Promotes

variable (promotes : op.Promotes p q tx ty t)

include promotes

/-- The operands have exact types, or are promoted to `float` or `double`. -/
theorem cases :
    (p.isExact ∧ q.isExact ∧ op.exactTy? p q = some t ∧ op.exactOperands p q = (tx, ty)) ∨
      (op.isShift = false ∧ (p.isNumeric ∧ q.isNumeric) ∧ tx = ty ∧ (tx = .float ∨ tx = .double) ∧
        Ty.binaryNumeric? (.primitive p) (.primitive q) = some (.primitive tx)) := by
  rcases Java.exact_or_real promotes.typed with ⟨left, right⟩ | ⟨noShift, numbers, u, numeric, floating⟩
  · have known := promotes.typed
    rw [Java.binaryTy?_exact left right, Option.map_eq_some_iff] at known
    obtain ⟨u, exact, same⟩ := known
    cases same
    have operands := promotes.targets
    rw [targets?_exact exact] at operands
    simp only [Option.some.injEq, Prod.mk.injEq, Ty.primitive.injEq] at operands
    exact .inl ⟨left, right, exact, Prod.ext operands.1 operands.2⟩
  · obtain ⟨computed, -⟩ := promotedTy?_real promotes.typed noShift numeric floating
    cases promotes.computed.symm.trans computed
    obtain ⟨-, same⟩ := (targets?_eq_some noShift).mp promotes.targets
    cases same
    exact .inr ⟨noShift, numbers, rfl, floating, numeric⟩

/-- Promoted operands are promoted to the types that they have. -/
theorem again : op.Promotes tx ty tx ty t := by
  obtain ⟨targets, same⟩ := targets?_idem promotes.targets (.inr rfl) (.inr rfl)
  have computed := same.trans promotes.computed
  refine ⟨?_, targets, computed, promotes.result⟩
  rw [Java.binaryTy?_of_promoted computed, ← promotes.result]

/-- Operands are told apart no further than outcomes are. -/
theorem binary?_congr (left : v.primitive? = some p) (right : w.primitive? = some q)
    (alikeLeft : v.Same v') (alikeRight : w.Same w') :
    Option.Rel Reference.Outcome.Same (Reference.binary? op v w) (Reference.binary? op v' w') := by
  rcases promotes.cases with ⟨leftExact, rightExact, -⟩ | ⟨noShift, numbers, -, floating, numeric⟩
  · rw [alikeLeft.eq left leftExact, alikeRight.eq right rightExact]
    exact rel_refl .refl _
  · rw [Reference.binary?_numeric left right numeric noShift,
      Reference.binary?_numeric (alikeLeft.primitive.symm.trans left)
        (alikeRight.primitive.symm.trans right) numeric noShift]
    exact Reference.numeric?_congr floating left right numbers (Reference.cast_congr alikeLeft tx)
      (Reference.cast_congr alikeRight tx)

/-- Promotion of the operands changes no outcome. -/
theorem binary?_promoted {x' y' : Value} (left : v.primitive? = some p)
    (right : w.primitive? = some q) (madeX : v.convert tx = some x') (alikeX : x.Same x')
    (madeY : w.convert ty = some y') (alikeY : y.Same y') :
    Option.Rel Reference.Outcome.Same (Reference.binary? op x y) (Reference.binary? op v w) := by
  have typedX := alikeX.primitive.trans (Value.primitive?_of_convert madeX)
  have typedY := alikeY.primitive.trans (Value.primitive?_of_convert madeY)
  rcases promotes.cases with ⟨-, -, exact, operands⟩ | ⟨noShift, numbers, rfl, floating, numeric⟩
  · have casts := casts_exactOperands exact
    have same := reference_promoteBoth left right exact (by rwa [operands]) (by rwa [operands])
    rw [operands] at casts
    rw [alikeX.eq typedX (Primitive.isExact_of_casts casts.1),
      alikeY.eq typedY (Primitive.isExact_of_casts casts.2), same]
    exact rel_refl .refl _
  · -- Both sides convert to the type of the operation, of which promotion is one half.
    have related {v x x' : Value} (typed : x.primitive? = some tx) (made : v.convert tx = some x')
        (alike : x.Same x') :
        Option.Rel Value.Same (Reference.cast x tx) (Reference.cast v tx) := by
      have own := Reference.cast_same x tx
      rw [Value.convert_self typed] at own
      have other := Value.rel_same_symm (Reference.cast_same v tx)
      rw [made] at other
      exact Value.rel_same_trans own (Value.rel_same_trans (.some alike) other)
    have target : tx.isNumeric := by rcases floating with rfl | rfl <;> rfl
    rw [Reference.binary?_numeric left right numeric noShift,
      Reference.binary?_numeric typedX typedY (Ty.binaryNumeric?_idem numeric).2.2 noShift]
    exact Reference.numeric?_congr floating typedX typedY ⟨target, target⟩
      (related typedX madeX alikeX) (related typedY madeY alikeY)

/-- Operands are promoted by conversions that are defined. -/
theorem related :
    (p = tx ∨ p.isNumeric ∧ tx.isNumeric) ∧ (q = ty ∨ q.isNumeric ∧ ty.isNumeric) := by
  have ofCasts {p q : Primitive} (casts : p.casts q) : p = q ∨ p.isNumeric ∧ q.isNumeric := by
    cases p <;> cases q <;> first | exact .inl rfl | exact .inr ⟨rfl, rfl⟩ | cases casts
  rcases promotes.cases with ⟨-, -, exact, operands⟩ | ⟨-, numbers, rfl, floating, -⟩
  · have casts := casts_exactOperands exact
    rw [operands] at casts
    exact ⟨ofCasts casts.1, ofCasts casts.2⟩
  · have target := (Primitive.exists_format floating).1
    exact ⟨.inr ⟨numbers.1, target⟩, .inr ⟨numbers.2, target⟩⟩

/-- The outcome of a typed operator is a value of its type, unless it divides integers. -/
theorem outcome (left : v.primitive? = some p) (right : w.primitive? = some q) :
    (∃ u, Reference.binary? op v w = some (.value u) ∧ u.primitive? = some t) ∨
      (Reference.binary? op v w = some .divisionByZero ∧ ¬(tx = .float ∨ tx = .double)) := by
  rcases Java.isOutcome_primitive left right promotes.typed with
    ⟨u, value, typed⟩ | ⟨division, divides, notFloating, -⟩
  · exact .inl ⟨u, value, by simpa [Java.isConstantOf] using typed⟩
  · refine .inr ⟨division, fun floating => ?_⟩
    have same : t = tx := by
      rcases divides with rfl | rfl <;> exact promotes.result
    rw [same] at notFloating
    rcases floating with rfl | rfl <;> cases notFloating

/-- The value of an operator that its left operand decides is that operand. -/
theorem decided (known : op.decides v) (right : w.primitive? = some q) :
    Reference.binary? op v w = some (.value v) := by
  have boolean (lazy : op = .and ∨ op = .or) : ∃ b, w = .bool b := by
    have typed := promotes.typed
    have isBoolean : (Ty.primitive q).isBoolean := by
      rcases lazy with rfl | rfl
      all_goals
        simp only [Java.binaryTy?, Option.ite_none_right_eq_some, Bool.and_eq_true] at typed
        exact typed.1.2
    obtain rfl : q = .boolean := by simpa [Ty.isBoolean, Ty.unboxed?] using isBoolean
    exact Value.exists_bool right
  simp only [decides, Bool.or_eq_true, Bool.and_eq_true, decide_eq_true_eq] at known
  rcases known with ⟨rfl, rfl⟩ | ⟨rfl, rfl⟩
  · obtain ⟨b, rfl⟩ := boolean (.inl rfl)
    rfl
  · obtain ⟨b, rfl⟩ := boolean (.inr rfl)
    rfl

end Promotes

end BinaryOp

namespace UnaryOp

variable {op : UnaryOp}

/-- The operator is defined on operands of the type `p`, and promotes them to `t`, in which it
computes. -/
structure Promotes (op : UnaryOp) (p t : Primitive) : Prop where
  typed : Java.unaryTy? op (.primitive p) = some (.primitive t)
  noStep : op.isStep = false

namespace Promotes

/-- The operand has an exact type, or it is a `float` or `double` that stays or is negated. -/
theorem cases (promotes : op.Promotes p t) :
    (p.isExact ∧ op.exactTy? p = some t) ∨
      ((p = .float ∨ p = .double) ∧ t = p ∧ (op = .pos ∨ op = .neg)) := by
  obtain ⟨typed, noStep⟩ := promotes
  cases op <;> cases noStep
  all_goals cases p <;> cases typed
  all_goals first | exact .inl ⟨rfl, rfl⟩ | exact .inr ⟨by simp, rfl, by simp⟩

variable (promotes : op.Promotes p t)

include promotes

theorem computed (ofVariable : Bool) : op.promotedTy? ofVariable (.primitive p) = some (.primitive t) := by
  obtain ⟨typed, noStep⟩ := promotes
  cases op <;> cases noStep
  all_goals cases p <;> cases typed
  all_goals rfl

theorem related : p = t ∨ p.isNumeric ∧ t.isNumeric := by
  obtain ⟨typed, noStep⟩ := promotes
  cases op <;> cases noStep
  all_goals cases p <;> cases typed
  all_goals first | exact .inl rfl | exact .inr ⟨rfl, rfl⟩

theorem unary?_congr (typed : v.primitive? = some p) (alike : v.Same w) :
    Option.Rel Value.Same (Reference.unary? op v) (Reference.unary? op w) := by
  rcases promotes.cases with ⟨exact, -⟩ | ⟨floating, -, signed⟩
  · rw [alike.eq typed exact]
    exact rel_refl Value.same_refl _
  · rcases floating with rfl | rfl
    · obtain ⟨a, rfl⟩ := Primitive.float_isFormat.exists_make typed
      obtain ⟨b, rfl⟩ := Primitive.float_isFormat.exists_make (alike.primitive.symm.trans typed)
      rcases signed with rfl | rfl
      · exact .some alike
      · exact .some (Value.same_float.mpr (Value.same_float.mp alike).neg)
    · obtain ⟨a, rfl⟩ := Primitive.double_isFormat.exists_make typed
      obtain ⟨b, rfl⟩ := Primitive.double_isFormat.exists_make (alike.primitive.symm.trans typed)
      rcases signed with rfl | rfl
      · exact .some alike
      · exact .some (Value.same_double.mpr (Value.same_double.mp alike).neg)

/-- An operator on a promoted constant computes what the reference does on the operand. -/
theorem apply {x' : Value} (typed : v.primitive? = some p) (made : v.convert t = some x')
    (alike : x.Same x') :
    ∃ u w, op.apply x = some u ∧ Reference.unary? op v = some w ∧ u.Same w ∧
      w.primitive? = some t := by
  have kind := Value.primitive?_of_convert made
  rcases promotes.cases with ⟨-, exact⟩ | ⟨floating, rfl, signed⟩
  · obtain ⟨related, again⟩ := promoted_exact exact promotes.noStep
    obtain rfl := alike.eq (alike.primitive.trans kind) (Primitive.isExact_of_casts related)
    obtain ⟨u, applied, value, result⟩ := apply_exact kind again promotes.noStep
    rw [reference_promote typed exact promotes.noStep made] at value
    exact ⟨u, u, applied, value, Value.same_refl u, result⟩
  · rw [Value.convert_self typed] at made
    cases made
    have computed := promotes.unary?_congr (alike.primitive.trans typed) alike
    obtain ⟨u, applied, value⟩ : ∃ u, op.apply x = some u ∧ Reference.unary? op x = some u := by
      have kind := alike.primitive.trans typed
      rcases floating with rfl | rfl
      · obtain ⟨a, rfl⟩ := Primitive.float_isFormat.exists_make kind
        rcases signed with rfl | rfl <;> exact ⟨_, rfl, rfl⟩
      · obtain ⟨a, rfl⟩ := Primitive.double_isFormat.exists_make kind
        rcases signed with rfl | rfl <;> exact ⟨_, rfl, rfl⟩
    obtain ⟨operand, unboxed, total⟩ := Java.exists_unary promotes.typed promotes.noStep
    cases unboxed
    obtain ⟨w, made, constant⟩ := total v typed
    rw [value, made] at computed
    cases computed with
    | some same => exact ⟨u, w, applied, made, same, by simpa [Java.isConstantOf] using constant⟩

end Promotes

end UnaryOp

theorem Ty.isIntegral_real (floating : t = .float ∨ t = .double) :
    (Ty.primitive t).isIntegral = false := by
  rcases floating with rfl | rfl <;> rfl

namespace Pass

variable {s : Static}

/-- The value of an operator on promoted constants; a division by zero has none. -/
theorem promotedValue?_promoted (promotes : op.Promotes tx ty tx ty t)
    (left : x.primitive? = some tx) (right : y.primitive? = some ty) :
    (Reference.binary? op x y = some .divisionByZero ∧
      promotedValue? (.binary op (.literal x ⟨some (.primitive tx), []⟩)
        (.literal y ⟨some (.primitive ty), []⟩) s) = .error (.divisionByZero x op y)) ∨
    ∃ u w, Reference.binary? op x y = some (.value w) ∧ u.Same w ∧
      promotedValue? (.binary op (.literal x ⟨some (.primitive tx), []⟩)
        (.literal y ⟨some (.primitive ty), []⟩) s) = .ok (some u) := by
  rcases promotes.cases with ⟨-, -, exact, operands⟩ | ⟨noShift, -, rfl, floating, -⟩
  · rcases promotedValue?_binary (s := s) left right exact operands with
      division | ⟨u, value, -, computed⟩
    · exact .inl division
    · exact .inr ⟨u, u, value, Value.same_refl u, computed⟩
  · right
    have unfolded : promotedValue? (.binary op (.literal x ⟨some (.primitive tx), []⟩)
        (.literal y ⟨some (.primitive tx), []⟩) s) = .ok (op.apply (.primitive tx) x y) := by
      have computedIn : Expr.binaryPromotedTy? op (.literal x ⟨some (.primitive tx), []⟩)
          (.literal y ⟨some (.primitive tx), []⟩) = some (.primitive tx) := promotes.computed
      have check : checkDivisor op (.primitive tx) x y = .ok () := by
        rw [checkDivisor, if_neg]
        simp [Ty.isIntegral_real floating]
      simp only [promotedValue?, Expr.constant?, computedIn]
      change (checkDivisor op (.primitive tx) x y >>= fun _ => .ok (op.apply (.primitive tx) x y)) = _
      rw [check]
      rfl
    have applied := BinaryOp.apply_real floating left right noShift
    rcases promotes.outcome left right with ⟨w, value, -⟩ | ⟨-, notFloating⟩
    · rw [value] at applied
      rw [unfolded]
      cases computed : op.apply (.primitive tx) x y with
      | none => simp [computed] at applied
      | some u =>
        rw [computed] at applied
        cases applied with
        | some same =>
          cases same with
          | value same => exact ⟨u, w, value, same.symm, rfl⟩
    · exact (notFloating floating).elim

/-! Laws. -/

theorem binary?_arithmetic {f : Format} {make : Binary f → Value} {a b c : Binary f}
    (format : t.IsFormat f make) (floating : t = .float ∨ t = .double)
    (left : (make a).primitive? = some t) (right : (make b).primitive? = some t)
    (noComparison : ∀ order, Reference.comparison? op order = none)
    (noShift : op.isShift = false) (computed : Reference.floating? op a b = some c) :
    Option.Rel Reference.Outcome.Same (Reference.binary? op (make a) (make b))
      (some (.value (make c))) := by
  have same := Reference.binary?_format format floating left right rfl rfl noShift
  rwa [Reference.onReals, noComparison, computed] at same

/-- The laws of `&&`, `||` and `==` are for truth values. -/
theorem survivor?_logical_real {side : Side} {other : Expr} (floating : t = .float ∨ t = .double)
    (typed : v.primitive? = some t) (logical : op = .and ∨ op = .or ∨ op = .eq) :
    survivor? op type v side other = none := by
  have noTruth (b : Bool) : v ≠ .bool b := by
    rintro rfl
    rcases floating with rfl | rfl <;> cases typed
  rcases logical with rfl | rfl | rfl <;> simp [survivor?, noTruth]

/-- A law for a literal on the left: `1` times a number. -/
theorem survivor?_left_real {survives : Side} {other : Expr} (floating : t = .float ∨ t = .double)
    (left : x.primitive? = some t) (right : y.primitive? = some t)
    (law : survivor? op (.primitive t) x .left other = some survives) :
    survives = .right ∧ op.isPredicate = false ∧
      Option.Rel Reference.Outcome.Same (Reference.binary? op x y) (some (.value y)) := by
  have notIntegral := Ty.isIntegral_real floating
  obtain ⟨-, f, make, format⟩ := Primitive.exists_format floating
  obtain ⟨a, rfl⟩ := format.exists_make left
  obtain ⟨b, rfl⟩ := format.exists_make right
  cases op with
  | mul =>
    simp [survivor?, notIntegral, Side.other, format.isOne] at law
    refine ⟨law.2.symm, rfl, ?_⟩
    have same := (Binary.mul_unit format.usual b law.1).2
    exact binary?_arithmetic format floating left right (fun _ => rfl) rfl (congrArg some same)
  | and | or | eq =>
    rw [survivor?_logical_real floating left (by simp)] at law
    cases law
  | bitOr | bitXor | bitAnd | ne | lt | gt | le | ge | shl | shr | ushr | mod | instanceOf | plus
  | minus | div => simp [survivor?, notIntegral] at law

/-- A law for a literal on the right: a number times or divided by `1`, or less `0.0`. -/
theorem survivor?_right_real {survives : Side} {other : Expr} (floating : t = .float ∨ t = .double)
    (left : x.primitive? = some t) (right : y.primitive? = some t)
    (law : survivor? op (.primitive t) y .right other = some survives) :
    survives = .left ∧ op.isPredicate = false ∧
      Option.Rel Reference.Outcome.Same (Reference.binary? op x y) (some (.value x)) := by
  have notIntegral := Ty.isIntegral_real floating
  obtain ⟨-, f, make, format⟩ := Primitive.exists_format floating
  obtain ⟨a, rfl⟩ := format.exists_make left
  obtain ⟨b, rfl⟩ := format.exists_make right
  cases op with
  | mul =>
    simp [survivor?, notIntegral, Side.other, format.isOne] at law
    refine ⟨law.2.symm, rfl, ?_⟩
    have same := (Binary.mul_unit format.usual a law.1).1
    exact binary?_arithmetic format floating left right (fun _ => rfl) rfl (congrArg some same)
  | div =>
    simp [survivor?, Side.other, format.isOne] at law
    refine ⟨law.2.symm, rfl, ?_⟩
    have same := Binary.div_unit format.usual a law.1
    exact binary?_arithmetic format floating left right (fun _ => rfl) rfl (congrArg some same)
  | minus =>
    simp [survivor?, notIntegral, Side.other, format.isPositiveZero] at law
    refine ⟨law.2.symm, rfl, ?_⟩
    have same := Binary.sub_positiveZero format.usual a law.1
    exact binary?_arithmetic format floating left right (fun _ => rfl) rfl (congrArg some same)
  | and | or | eq =>
    rw [survivor?_logical_real floating right (by simp)] at law
    cases law
  | bitOr | bitXor | bitAnd | ne | lt | gt | le | ge | shl | shr | ushr | mod | instanceOf | plus =>
    simp [survivor?, notIntegral] at law

/-- The operand that a law leaves is the value. -/
theorem survivingSide?_value {side : Side} (promotes : op.Promotes tx ty tx ty t)
    (left : x.primitive? = some tx) (right : y.primitive? = some ty)
    (law : survivingSide? op (.literal x ⟨some (.primitive tx), []⟩)
      (.literal y ⟨some (.primitive ty), []⟩) = some side) :
    tx = t ∧ ty = t ∧ Option.Rel Reference.Outcome.Same (Reference.binary? op x y)
      (some (.value (side.constant x y))) := by
  have computedIn : Expr.binaryPromotedTy? op (.literal x ⟨some (.primitive tx), []⟩)
      (.literal y ⟨some (.primitive ty), []⟩) = some (.primitive tx) := promotes.computed
  rw [survivingSide?, computedIn] at law
  have laws := Option.or_eq_some_iff.mp law
  rcases promotes.cases with ⟨-, -, exact, operands⟩ | ⟨-, -, rfl, floating, -⟩
  · rcases laws with law | ⟨-, law⟩
    · obtain ⟨-, rfl, rfl⟩ := survivor?_types law rfl exact operands
      have value := survivor?_left left right exact law
      refine ⟨rfl, rfl, ?_⟩
      cases side with
      | right =>
        rw [value.2]
        exact .some (.refl _)
      | left =>
        rcases value with decides | ⟨-, value⟩
        · rw [promotes.decided decides right]
          exact .some (.refl _)
        · rw [value]
          exact .some (.refl _)
    · obtain ⟨-, rfl, rfl⟩ := survivor?_types law rfl exact operands
      have value := survivor?_right left right exact law
      refine ⟨rfl, rfl, ?_⟩
      cases side with
      | left =>
        rw [value]
        exact .some (.refl _)
      | right =>
        rw [value.2.2]
        exact .some (.refl _)
  · rcases laws with law | ⟨-, law⟩
    · obtain ⟨rfl, noPredicate, value⟩ := survivor?_left_real floating left right law
      have same : t = tx := by simpa [noPredicate] using promotes.result
      exact ⟨same.symm, same.symm, value⟩
    · obtain ⟨rfl, noPredicate, value⟩ := survivor?_right_real floating left right law
      have same : t = tx := by simpa [noPredicate] using promotes.result
      exact ⟨same.symm, same.symm, value⟩

end Pass

end ConstFold
