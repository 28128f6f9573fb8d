import ConstFold.Proofs.CastRemoval
import ConstFold.Proofs.ConstantFolding
import ConstFold.Proofs.Idempotence
import ConstFold.Proofs.PromotedConstants

/-! Constant expressions over all primitive types. The default passes evaluate every operand of an
expression, also one that `&&` or `||` leaves out. So they find the value of an expression exactly if
each operand in it has a value, and report a division by zero otherwise. -/
namespace ConstFold

variable {v w u : Value} {p q t : Primitive} {casts : List Cast} {s : Static}

/-! Casts. -/

/-- The type that casts between primitive types lead to. -/
def primitiveTy? : Primitive → List Cast → Option Primitive
  | p, [] => some p
  | p, cast :: rest =>
    match cast.target with
    | .primitive q => if p = q || (p.isNumeric && q.isNumeric) then primitiveTy? q rest else none
    | _ => none

theorem primitiveTy?_cons {cast : Cast} :
    primitiveTy? p (cast :: casts) = some t ↔
      ∃ q, cast.target = .primitive q ∧ (p = q ∨ p.isNumeric ∧ q.isNumeric) ∧
        primitiveTy? q casts = some t := by
  rw [primitiveTy?]
  cases cast.target <;> simp

theorem castsTo_of_primitiveTy? (leads : primitiveTy? p casts = some t) :
    castsTo (.primitive p) casts = .primitive t := by
  induction casts generalizing p with
  | nil =>
    cases leads
    rfl
  | cons cast rest ih =>
    obtain ⟨q, target, -, leads⟩ := primitiveTy?_cons.mp leads
    rw [castsTo_cons, target]
    exact ih leads

theorem exists_of_rel {α : Type} {R : α → α → Prop} {x : Option α} {b : α}
    (related : Option.Rel R x (some b)) : ∃ a, x = some a ∧ R a b := by
  cases related with
  | some related => exact ⟨_, rfl, related⟩

/-- A conversion that is carried out on a constant and that of the reference agree. -/
theorem exists_convert (alike : v.Same w) (typed : w.primitive? = some p)
    (related : p = q ∨ p.isNumeric ∧ q.isNumeric) :
    ∃ x y, v.convert q = some x ∧ Reference.cast w q = some y ∧ x.Same y ∧
      y.primitive? = some q := by
  obtain ⟨y, made, kind⟩ := Reference.exists_cast typed related
  have agree := Value.rel_same_trans (alike.convert q)
    (Value.rel_same_symm (Reference.cast_same w q))
  rw [made] at agree
  obtain ⟨x, converted, same⟩ := exists_of_rel agree
  exact ⟨x, y, converted, made, same, kind⟩

/-- Casts that are carried out on a constant and those of the reference lead to the same one. -/
theorem exists_castThrough (alike : v.Same w) (typed : w.primitive? = some p)
    (leads : primitiveTy? p casts = some t) :
    ∃ x y, v.castThrough casts = some x ∧ Reference.castAll w casts = some y ∧ x.Same y ∧
      y.primitive? = some t := by
  induction casts generalizing v w p with
  | nil =>
    cases leads
    exact ⟨v, w, rfl, rfl, alike, typed⟩
  | cons cast rest ih =>
    obtain ⟨q, target, related, leads⟩ := primitiveTy?_cons.mp leads
    obtain ⟨x, y, converted, made, same, kind⟩ := exists_convert alike typed related
    obtain ⟨x', y', through, all, same, kind⟩ := ih same kind leads
    refine ⟨x', y', ?_, ?_, same, kind⟩
    · rw [Value.castThrough, target, Value.castTo_primitive (alike.primitive.trans typed), converted]
      exact through
    · rw [Reference.castAll, target]
      simp only [Ty.unboxed?, Option.bind_some, made]
      exact all

/-- A constant with casts becomes a constant of the type that they lead to. -/
theorem exists_castLiteral (alike : v.Same w) (typed : w.primitive? = some p)
    (leads : primitiveTy? p casts = some t) :
    ∃ x y, Expr.castLiteral v (some (.primitive p)) casts = .literal x ⟨some (.primitive t), []⟩ ∧
      Reference.castAll w casts = some y ∧ x.Same y ∧ y.primitive? = some t := by
  obtain ⟨x, y, through, all, same, kind⟩ := exists_castThrough alike typed leads
  refine ⟨x, y, ?_, all, same, kind⟩
  rw [Expr.castLiteral_done _ through, Static.resultTy_of_typed rfl, castsTo_of_primitiveTy? leads]

/-! Types. -/

namespace Expr

/-- The type of an operator node, given that of the operator: the node is untyped or has this type,
and its casts are between primitive types. -/
def nodePrimitive? (operator : Option Ty) (s : Static) : Option Primitive :=
  ((operator.bind Ty.asPrimitive?).filter fun t => s.ty.all (· = .primitive t)).bind fun t =>
    primitiveTy? t s.casts

/-- The type of a well-typed expression of literals, operators and casts, all of primitive types. -/
def constantTy? : Expr → Option Primitive
  | literal v s =>
    (v.primitive?.filter fun p => s.ty = some (.primitive p)).bind fun p => primitiveTy? p s.casts
  | unary op x s =>
    (constantTy? x).bind fun p =>
      if op.isStep then none else nodePrimitive? (Java.unaryTy? op (.primitive p)) s
  | binary op l r s =>
    (constantTy? l).bind fun p => (constantTy? r).bind fun q =>
      nodePrimitive? (Java.binaryTy? op (.primitive p) (.primitive q)) s
  | read _ _ _ | call _ _ _ | typeRef _ _ => none

theorem nodePrimitive?_eq_some {operator : Option Ty} :
    nodePrimitive? operator s = some q ↔
      ∃ t, operator = some (.primitive t) ∧ s.Admits t ∧ primitiveTy? t s.casts = some q := by
  have own (t : Primitive) : s.ty.all (· = .primitive t) ↔ s.Admits t := by
    rw [Static.Admits]
    cases s.ty <;> simp
  have primitive (t : Primitive) :
      operator.bind Ty.asPrimitive? = some t ↔ operator = some (.primitive t) := by
    rcases operator with _ | (_ | _ | _ | _ | _ | _) <;> simp [Ty.asPrimitive?]
  simp only [nodePrimitive?, Option.bind_eq_some_iff, Option.filter_eq_some_iff, own, primitive,
    and_assoc]

theorem constantTy?_literal :
    (literal v s).constantTy? = some q ↔
      ∃ p, v.primitive? = some p ∧ s.ty = some (.primitive p) ∧ primitiveTy? p s.casts = some q := by
  simp only [constantTy?, Option.bind_eq_some_iff, Option.filter_eq_some_iff, decide_eq_true_eq,
    and_assoc]

theorem constantTy?_unary {op : UnaryOp} {x : Expr} :
    (unary op x s).constantTy? = some q ↔
      ∃ p t, x.constantTy? = some p ∧ op.Promotes p t ∧ s.Admits t ∧
        primitiveTy? t s.casts = some q := by
  simp only [constantTy?, Option.bind_eq_some_iff]
  constructor
  · rintro ⟨p, operand, typed⟩
    rw [Option.ite_none_left_eq_some, Bool.not_eq_true] at typed
    obtain ⟨noStep, typed⟩ := typed
    obtain ⟨t, typed, own, leads⟩ := nodePrimitive?_eq_some.mp typed
    exact ⟨p, t, operand, ⟨typed, noStep⟩, own, leads⟩
  · rintro ⟨p, t, operand, promotes, own, leads⟩
    refine ⟨p, operand, ?_⟩
    rw [promotes.noStep]
    exact nodePrimitive?_eq_some.mpr ⟨t, promotes.typed, own, leads⟩

theorem constantTy?_binary {op : BinaryOp} {l r : Expr} :
    (binary op l r s).constantTy? = some q ↔
      ∃ p p' tx ty t, l.constantTy? = some p ∧ r.constantTy? = some p' ∧ op.Promotes p p' tx ty t ∧
        s.Admits t ∧ primitiveTy? t s.casts = some q := by
  simp only [constantTy?, Option.bind_eq_some_iff]
  constructor
  · rintro ⟨p, left, p', right, typed⟩
    obtain ⟨t, typed, own, leads⟩ := nodePrimitive?_eq_some.mp typed
    obtain ⟨tx, ty, _, same, promotes⟩ := BinaryOp.exists_promotes typed
    cases same
    exact ⟨p, p', tx, ty, t, left, right, promotes, own, leads⟩
  · rintro ⟨p, p', tx, ty, t, left, right, promotes, own, leads⟩
    exact ⟨p, left, p', right, nodePrimitive?_eq_some.mpr ⟨t, promotes.typed, own, leads⟩⟩

end Expr

/-! Operators on literals. -/

namespace Pass

variable {a b : Value} {sa sb : Static} {p' tx ty : Primitive}

theorem resultTy_constant (typed : (Expr.literal a sa).constantTy? = some p) :
    sa.resultTy = some (.primitive p) := by
  obtain ⟨base, -, own, leads⟩ := Expr.constantTy?_literal.mp typed
  rw [Static.resultTy_of_typed own, castsTo_of_primitiveTy? leads]

theorem exists_constant (typed : (Expr.literal a sa).constantTy? = some p) :
    ∃ v, Reference.castAll a sa.casts = some v ∧ v.primitive? = some p := by
  obtain ⟨base, kind, -, leads⟩ := Expr.constantTy?_literal.mp typed
  obtain ⟨-, v, -, all, -, result⟩ := exists_castThrough (Value.same_refl a) kind leads
  exact ⟨v, all, result⟩

theorem typed_constant (typed : (Expr.literal a sa).constantTy? = some p)
    (value : Reference.castAll a sa.casts = some v) : v.primitive? = some p := by
  obtain ⟨w, again, result⟩ := exists_constant typed
  cases value.symm.trans again
  exact result

/-- The casts of a promoted literal lead to the promoted value. -/
theorem castThrough_promoted (typed : (Expr.literal a sa).constantTy? = some p)
    (value : Reference.castAll a sa.casts = some v) (related : p = t ∨ p.isNumeric ∧ t.isNumeric) :
    ∃ x x', a.castThrough (sa.castTo (.primitive t)).casts = some x ∧ v.convert t = some x' ∧
      x.Same x' := by
  obtain ⟨base, kind, own, leads⟩ := Expr.constantTy?_literal.mp typed
  obtain ⟨y, _, through, all, same, result⟩ := exists_castThrough (Value.same_refl a) kind leads
  cases value.symm.trans all
  have whole := resultTy_constant typed
  by_cases already : p = t
  · subst already
    rw [Static.castTo, if_pos whole]
    exact ⟨y, v, through, Value.convert_self result, same⟩
  · have other : sa.resultTy ≠ some (.primitive t) := by simpa [whole] using already
    -- One more cast, after which casts that are redundant by now are left out.
    let further : Expr :=
      .literal a { sa with casts := sa.casts ++ [Cast.toExplicit (.primitive t)] }
    obtain ⟨x', _, made, -⟩ := exists_convert (Value.same_refl v) result related
    have agree := same.convert t
    rw [made] at agree
    obtain ⟨z, converted, alike⟩ := exists_of_rel agree
    have reached : a.castThrough further.casts = some z := by
      change a.castThrough (sa.casts ++ [Cast.toExplicit (.primitive t)]) = _
      rw [Value.castThrough_append, through, Option.bind_some, Value.castThrough, Cast.toExplicit,
        Value.castTo_primitive (same.primitive.trans result), converted]
      rfl
    have kept := Expr.removeRedundantCasts_alike (e := further) (v := a) own kind
    rw [reached] at kept
    obtain ⟨x, removed, kept⟩ := exists_of_rel kept
    have target : castsTo (.primitive base) further.removeRedundantCasts.casts = .primitive t := by
      rw [Expr.castsTo_removeRedundantCasts (e := further) own]
      exact castsTo_append
    have xTyped : x.IsOf (castsTo (.primitive base) further.removeRedundantCasts.casts) :=
      Value.isOf_castThrough kind removed
    rw [target] at xTyped
    have sameKind := xTyped.trans (Value.primitive?_of_convert converted).symm
    refine ⟨x, x', ?_, made, (kept.same sameKind).trans alike⟩
    rw [Static.castTo, if_neg other]
    exact removed

/-- A promoted literal is visited by carrying out its casts. -/
theorem visit_promoted_constant (typed : (Expr.literal a sa).constantTy? = some p)
    (value : Reference.castAll a sa.casts = some v) (related : p = t ∨ p.isNumeric ∧ t.isNumeric) :
    ∃ x x', v.convert t = some x' ∧ x.Same x' ∧ ∀ operands,
      (promoteOperands operands).visit ((Expr.literal a sa).castTo (.primitive t)) =
        .ok (.literal x ⟨some (.primitive t), []⟩) := by
  obtain ⟨x, x', reached, converted, same⟩ := castThrough_promoted typed value related
  refine ⟨x, x', converted, same, fun operands => ?_⟩
  rw [Expr.castTo_eq, visit_leaf _ rfl, leave_promoteOperands]
  change Except.ok (Expr.castLiteral a sa.ty (sa.castTo (.primitive t)).casts) = _
  rw [Expr.castLiteral_done _ reached, ← Static.ty_castTo (s := sa) (t := .primitive t)]
  exact congrArg (fun type => Except.ok (Expr.literal x ⟨type, []⟩)) Static.resultTy_castTo

theorem selects_literal (operands : Operands) : operands.selects (.literal a sa) = true := by
  cases operands <;> rfl

/-- Literal operands are promoted to constants without casts. -/
theorem visit_constants {op : BinaryOp} (left : (Expr.literal a sa).constantTy? = some p)
    (right : (Expr.literal b sb).constantTy? = some p') (promotes : op.Promotes p p' tx ty t)
    (leftValue : Reference.castAll a sa.casts = some v)
    (rightValue : Reference.castAll b sb.casts = some w) :
    ∃ x y, x.primitive? = some tx ∧ y.primitive? = some ty ∧
      Option.Rel Reference.Outcome.Same (Reference.binary? op x y) (Reference.binary? op v w) ∧
      ∀ operands s, (promoteOperands operands).visit (.binary op (.literal a sa) (.literal b sb) s) =
        .ok (.binary op (.literal x ⟨some (.primitive tx), []⟩)
          (.literal y ⟨some (.primitive ty), []⟩) s) := by
  obtain ⟨x, x', leftMade, leftSame, leftVisited⟩ :=
    visit_promoted_constant left leftValue promotes.related.1
  obtain ⟨y, y', rightMade, rightSame, rightVisited⟩ :=
    visit_promoted_constant right rightValue promotes.related.2
  have leftTyped := typed_constant left leftValue
  have rightTyped := typed_constant right rightValue
  refine ⟨x, y, leftSame.primitive.trans (Value.primitive?_of_convert leftMade),
    rightSame.primitive.trans (Value.primitive?_of_convert rightMade),
    promotes.binary?_promoted leftTyped rightTyped leftMade leftSame rightMade rightSame,
    fun operands s => ?_⟩
  have targets : Expr.binaryTargets? op (.literal a sa) (.literal b sb) =
      some (.primitive tx, .primitive ty) := by
    rw [Expr.binaryTargets?_eq, Expr.operandTy?_literal, Expr.operandTy?_literal,
      resultTy_constant left, resultTy_constant right]
    exact promotes.targets
  rw [visit_promoteOperands_binary, Expr.promotedOperands, targets]
  simp only [selects_literal, if_true, leftVisited, rightVisited]
  rfl

theorem visit_constant_operand {op : UnaryOp} (operand : (Expr.literal a sa).constantTy? = some p)
    (promotes : op.Promotes p t) (value : Reference.castAll a sa.casts = some v) :
    ∃ x x', v.convert t = some x' ∧ x.Same x' ∧ ∀ operands s,
      (promoteOperands operands).visit (.unary op (.literal a sa) s) =
        .ok (.unary op (.literal x ⟨some (.primitive t), []⟩) s) := by
  obtain ⟨x, x', made, same, visited⟩ := visit_promoted_constant operand value promotes.related
  refine ⟨x, x', made, same, fun operands s => ?_⟩
  have target : Expr.unaryTarget? op (.literal a sa) = some (.primitive t) := by
    refine Expr.unaryTarget?_eq_some.mpr ⟨promotes.noStep, ?_⟩
    rw [Expr.unaryPromotedTy?, Expr.operandTy?_literal, resultTy_constant operand]
    exact promotes.computed _
  rw [visit_promoteOperands_unary, Expr.promotedOperand, target]
  simp only [selects_literal, if_true, visited]
  rfl

/-- The value of an operator node takes its place, in the type of the node. -/
theorem foldNode_typed {e promoted : Expr}
    (visited : (promoteOperands .literals).visit e = .ok promoted)
    (value : promotedValue? promoted = .ok (some u)) (typed : u.primitive? = some t)
    (own : e.ty = some (.primitive t)) :
    foldNode e = .ok (Expr.castLiteral u (some (.primitive t)) e.casts) := by
  have made : Expr.ofResult? u (.primitive t) e.casts =
      some (Expr.castLiteral u (some (.primitive t)) e.casts) := by
    rw [Expr.ofResult?, Value.castTo_primitive typed, Value.convert_self typed]
    rfl
  rw [foldNode, visited]
  change (promotedValue? promoted >>= _) = _
  rw [value, own]
  change Except.ok ((Expr.ofResult? u (.primitive t) e.casts).getD e) = _
  rw [made]
  rfl

theorem leave_standard_eq (table : DeclTable) (e : Expr) :
    (chain (standardPipeline table)).leave e =
      (inferTypes.step e >>= (inlineReads table true).step >>= cancelDouble.step >>=
        reduceIdentities.step >>= evaluateLiterals.step) := by
  rw [chain_leave]
  change List.foldlM _ e
    [inferTypes, inlineReads table true, cancelDouble, reduceIdentities, evaluateLiterals] = _
  simp only [List.foldlM_cons, List.foldlM_nil, bind_pure, bind_assoc]
  rfl

section Node

variable (table : DeclTable) {op : BinaryOp} {x y : Value}

/-- An operator that is untyped or has the inferred type has this type once types are inferred. -/
theorem inferTypes_operator {e : Expr} (inferred : e.inferTy? = some (.primitive t))
    (operator : (∃ op x s, e = .unary op x s) ∨ ∃ op l r s, e = .binary op l r s)
    (own : e.static.Admits t) : inferTypes.step e = .ok (e.withTy (some (.primitive t))) := by
  rcases operator with ⟨op, x, ⟨_ | _, casts⟩, rfl⟩ | ⟨op, l, r, ⟨_ | _, casts⟩, rfl⟩
  · exact congrArg (fun type => Except.ok (Expr.withTy _ type)) inferred
  · rcases own with own | own <;> cases own
    rfl
  · exact congrArg (fun type => Except.ok (Expr.withTy _ type)) inferred
  · rcases own with own | own <;> cases own
    rfl

theorem leave_typed_unary {op : UnaryOp} (own : s.Admits t)
    (operand : (Expr.literal a sa).constantTy? = some p) (promotes : op.Promotes p t) :
    (chain (standardPipeline table)).leave (.unary op (.literal a sa) s) =
      foldNode (.unary op (.literal a sa) ⟨some (.primitive t), s.casts⟩) := by
  have inferred : Expr.inferTy? (.unary op (.literal a sa) s) = some (.primitive t) := by
    rw [Expr.inferTy?_unary, Expr.operandTy?_literal, resultTy_constant operand]
    exact promotes.computed _
  rw [leave_standard_eq, inferTypes_operator inferred (.inl ⟨op, _, s, rfl⟩) own]
  change (if op.isStep then _ else _) = _
  rw [promotes.noStep]
  rfl

theorem leave_typed_binary (own : s.Admits t) (left : (Expr.literal a sa).constantTy? = some p)
    (right : (Expr.literal b sb).constantTy? = some p') (promotes : op.Promotes p p' tx ty t) :
    (chain (standardPipeline table)).leave (.binary op (.literal a sa) (.literal b sb) s) =
      (reduceIdentities.step
        (.binary op (.literal a sa) (.literal b sb) ⟨some (.primitive t), s.casts⟩) >>=
          evaluateLiterals.step) := by
  have inferred : Expr.inferTy? (.binary op (.literal a sa) (.literal b sb) s) =
      some (.primitive t) := by
    have result := promotes.result
    cases predicate : op.isPredicate with
    | true =>
      rw [predicate] at result
      rw [Expr.inferTy?_predicate predicate, result]
      rfl
    | false =>
      rw [predicate] at result
      rw [Expr.inferTy?_binary predicate, Expr.binaryPromotedTy?_eq, Expr.operandTy?_literal,
        Expr.operandTy?_literal, resultTy_constant left, resultTy_constant right, result]
      exact promotes.computed
  rw [leave_standard_eq, inferTypes_operator inferred (.inr ⟨op, _, _, s, rfl⟩) own]
  rfl

section Promoted

variable (promotes : op.Promotes tx ty tx ty t) (xTyped : x.primitive? = some tx)
  (yTyped : y.primitive? = some ty)
  (visited : ∀ operands s, (promoteOperands operands).visit
    (.binary op (.literal a sa) (.literal b sb) s) =
      .ok (.binary op (.literal x ⟨some (.primitive tx), []⟩)
        (.literal y ⟨some (.primitive ty), []⟩) s))

include visited

/-- Without an identity law the operator is carried out. -/
theorem reduced_lawless (lawless : survivingSide? op (.literal x ⟨some (.primitive tx), []⟩)
      (.literal y ⟨some (.primitive ty), []⟩) = none) :
    (reduceIdentities.step (.binary op (.literal a sa) (.literal b sb) s) >>=
      evaluateLiterals.step) = foldNode (.binary op (.literal a sa) (.literal b sb) s) := by
  have reduced : reduceIdentities.step (.binary op (.literal a sa) (.literal b sb) s) =
      .ok (.binary op (.literal a sa) (.literal b sb) s) :=
    (leave_reduceIdentities (visited .all s)).trans (by rw [lawless])
  rw [reduced]
  rfl

include promotes xTyped yTyped

/-- With an identity law one of the operands remains. -/
theorem reduced_lawful {side : Side}
    (law : survivingSide? op (.literal x ⟨some (.primitive tx), []⟩)
      (.literal y ⟨some (.primitive ty), []⟩) = some side) :
    Option.Rel Reference.Outcome.Same (Reference.binary? op x y)
        (some (.value (side.constant x y))) ∧
      (reduceIdentities.step (.binary op (.literal a sa) (.literal b sb) s) >>=
        evaluateLiterals.step) =
          .ok (Expr.castLiteral (side.constant x y) (some (.primitive t)) s.casts) := by
  obtain ⟨leftTy, rightTy, same⟩ := survivingSide?_value promotes xTyped yTyped law
  refine ⟨same, ?_⟩
  have reduced : reduceIdentities.step (.binary op (.literal a sa) (.literal b sb) s) =
      .ok (Expr.castLiteral (side.constant x y) (some (.primitive t)) s.casts) := by
    refine (leave_reduceIdentities (visited .all s)).trans ?_
    rw [law, leftTy, rightTy]
    cases side <;> rfl
  obtain ⟨k, sk, literal, -⟩ :=
    Expr.castLiteral_eq (side.constant x y) (some (.primitive t)) s.casts
  rw [reduced, literal]
  rfl

/-- Constants that have a value together are replaced by it. -/
theorem reduced_value {m : Value} (own : s.ty = some (.primitive t))
    (value : Reference.binary? op x y = some (.value m)) :
    ∃ k, k.Same m ∧
      (reduceIdentities.step (.binary op (.literal a sa) (.literal b sb) s) >>=
        evaluateLiterals.step) = .ok (Expr.castLiteral k (some (.primitive t)) s.casts) := by
  cases law : survivingSide? op (.literal x ⟨some (.primitive tx), []⟩)
      (.literal y ⟨some (.primitive ty), []⟩) with
  | some side =>
    obtain ⟨same, reduced⟩ := reduced_lawful promotes xTyped yTyped visited law
    rw [value] at same
    cases same with
    | some same =>
      cases same with
      | value same => exact ⟨_, same.symm, reduced⟩
  | none =>
    rcases promotedValue?_promoted promotes xTyped yTyped with
      ⟨division, -⟩ | ⟨k, _, again, same, found⟩
    · cases value.symm.trans division
    · cases value.symm.trans again
      have typed : m.primitive? = some t := by
        rcases promotes.outcome xTyped yTyped with ⟨_, again, typed⟩ | ⟨division, -⟩
        · cases value.symm.trans again
          exact typed
        · cases value.symm.trans division
      rw [reduced_lawless visited law]
      exact ⟨k, same, foldNode_typed (visited .literals s) found (same.primitive.trans typed) own⟩

theorem reduced_division (division : Reference.binary? op x y = some .divisionByZero) :
    (reduceIdentities.step (.binary op (.literal a sa) (.literal b sb) s) >>=
      evaluateLiterals.step) = .error (.divisionByZero x op y) := by
  cases law : survivingSide? op (.literal x ⟨some (.primitive tx), []⟩)
      (.literal y ⟨some (.primitive ty), []⟩) with
  | some side =>
    obtain ⟨same, -⟩ := reduced_lawful (s := s) promotes xTyped yTyped visited law
    rw [division] at same
    cases same with
    | some same => cases same
  | none =>
    rw [reduced_lawless visited law]
    rcases promotedValue?_promoted promotes xTyped yTyped with ⟨-, failed⟩ | ⟨_, _, value, -⟩
    · exact foldNode_error (visited .literals s) failed
    · cases division.symm.trans value

end Promoted

end Node

end Pass

/-! Whole expressions. -/

namespace Expr

/-- A literal of the type `p` that has the value `v` after its casts. -/
def IsLiteralOf (e : Expr) (p : Primitive) (v : Value) : Prop :=
  ∃ a s u, e = literal a s ∧ e.constantTy? = some p ∧
    Reference.castAll a s.casts = some u ∧ u.Same v

theorem isLiteralOf_castLiteral (alike : v.Same w) (typed : w.primitive? = some p)
    (leads : primitiveTy? p casts = some t) :
    ∃ u, Reference.castAll w casts = some u ∧ u.primitive? = some t ∧
      (castLiteral v (some (.primitive p)) casts).IsLiteralOf t u := by
  obtain ⟨x, u, literal, all, same, kind⟩ := exists_castLiteral alike typed leads
  rw [literal]
  refine ⟨u, all, kind, x, _, x, rfl, ?_, rfl, same⟩
  exact constantTy?_literal.mpr ⟨t, same.primitive.trans kind, rfl, rfl⟩

end Expr

namespace Pass

variable (table : DeclTable)

/-- An operator is replaced by its value on the value of its operand. -/
theorem leave_unary {op : UnaryOp} {e : Expr} (operand : e.IsLiteralOf p v)
    (promotes : op.Promotes p t) (own : s.Admits t) :
    ∃ u k, Reference.unary? op v = some u ∧ u.primitive? = some t ∧ k.Same u ∧
      (chain (standardPipeline table)).leave (.unary op e s) =
        .ok (Expr.castLiteral k (some (.primitive t)) s.casts) := by
  obtain ⟨a, sa, v', rfl, typed, value, alike⟩ := operand
  have kind := typed_constant typed value
  obtain ⟨x, x', made, same, visited⟩ := visit_constant_operand typed promotes value
  obtain ⟨k, u', applied, computed, result, resultKind⟩ := promotes.apply kind made same
  have agree := Value.rel_same_symm (promotes.unary?_congr kind alike)
  rw [computed] at agree
  obtain ⟨u, computed, agree⟩ := exists_of_rel agree
  refine ⟨u, k, computed, agree.primitive.trans resultKind, result.trans agree.symm, ?_⟩
  rw [leave_typed_unary table own typed promotes]
  refine foldNode_typed (visited .literals _) ?_ (result.primitive.trans resultKind) rfl
  change Except.ok ((some x).bind op.apply) = _
  rw [Option.bind_some, applied]

/-- An operator is replaced by its value on the values of its operands, or a division by zero is
reported. -/
theorem leave_binary {op : BinaryOp} {l r : Expr} {p' tx ty : Primitive} (left : l.IsLiteralOf p v)
    (right : r.IsLiteralOf p' w) (promotes : op.Promotes p p' tx ty t) (own : s.Admits t) :
    (∃ u k, Reference.binary? op v w = some (.value u) ∧ u.primitive? = some t ∧ k.Same u ∧
      (chain (standardPipeline table)).leave (.binary op l r s) =
        .ok (Expr.castLiteral k (some (.primitive t)) s.casts)) ∨
    (Reference.binary? op v w = some .divisionByZero ∧ ∃ x y,
      Reference.binary? op x y = some .divisionByZero ∧
        (chain (standardPipeline table)).leave (.binary op l r s) =
          .error (.divisionByZero x op y)) := by
  obtain ⟨a, sa, v', rfl, leftTyped, leftValue, leftAlike⟩ := left
  obtain ⟨b, sb, w', rfl, rightTyped, rightValue, rightAlike⟩ := right
  have leftKind := typed_constant leftTyped leftValue
  have rightKind := typed_constant rightTyped rightValue
  obtain ⟨x, y, xTyped, yTyped, promoted, visited⟩ :=
    visit_constants leftTyped rightTyped promotes leftValue rightValue
  have agree : Option.Rel Reference.Outcome.Same (Reference.binary? op x y)
      (Reference.binary? op v w) :=
    rel_trans (R := Reference.Outcome.Same) (fun _ _ _ => .trans) promoted
      (promotes.binary?_congr leftKind rightKind leftAlike rightAlike)
  rw [leave_typed_binary table own leftTyped rightTyped promotes]
  rcases promotes.outcome (leftAlike.primitive.symm.trans leftKind)
    (rightAlike.primitive.symm.trans rightKind) with ⟨u, computed, typed⟩ | ⟨division, -⟩
  · rw [computed] at agree
    obtain ⟨_, value, same⟩ := exists_of_rel agree
    cases same with
    | value same =>
      obtain ⟨k, result, reduced⟩ := reduced_value (s := ⟨some (.primitive t), s.casts⟩)
        promotes.again xTyped yTyped visited rfl value
      exact .inl ⟨u, k, computed, typed, result.trans same, reduced⟩
  · rw [division] at agree
    obtain ⟨_, failed, same⟩ := exists_of_rel agree
    cases same with
    | divisionByZero =>
      exact .inr ⟨division, x, y, failed,
        reduced_division promotes.again xTyped yTyped visited failed⟩

/-- A visit finds the value that an expression has if all operands are evaluated. Without one it
reports an operation that divides by zero. -/
theorem visit_constant : ∀ (e : Expr) (p : Primitive), e.constantTy? = some p →
    (∃ v e', Reference.eval? e = some (.value v) ∧ v.primitive? = some p ∧
      (chain (standardPipeline table)).visit e = .ok e' ∧ e'.IsLiteralOf p v) ∨
    (Reference.eval? e = some .divisionByZero ∧ ∃ x op y,
      Reference.binary? op x y = some .divisionByZero ∧
        (chain (standardPipeline table)).visit e = .error (.divisionByZero x op y))
  | .literal a s, p, typed => by
    obtain ⟨v, value, kind⟩ := exists_constant typed
    refine .inl ⟨v, .literal a s, Expr.eval?_literal value, kind, ?_, a, s, v, rfl, typed, value,
      Value.same_refl v⟩
    rw [visit_leaf _ rfl, leave_standard_eq]
    rfl
  | .unary op x s, q, typed => by
    obtain ⟨p, t, operand, promotes, own, leads⟩ := Expr.constantTy?_unary.mp typed
    rw [visit_unary, standard_enterUnary, Reference.eval?]
    rcases visit_constant x p operand with
      ⟨v, x', value, -, visited, literal⟩ | ⟨division, y, other, z, divides, visited⟩
    · obtain ⟨u, k, computed, kind, same, left⟩ := leave_unary table literal promotes own
      obtain ⟨w, cast, result, folded⟩ := Expr.isLiteralOf_castLiteral same kind leads
      refine .inl ⟨w, _, ?_, result, ?_, folded⟩
      · simp only [value, computed, Option.bind_some, Reference.afterCasts, cast]
        rfl
      · rw [visited]
        exact left
    · rw [division, visited]
      exact .inr ⟨rfl, y, other, z, divides, rfl⟩
  | .binary op l r s, q, typed => by
    obtain ⟨p, p', tx, ty, t, leftTyped, rightTyped, promotes, own, leads⟩ :=
      Expr.constantTy?_binary.mp typed
    rw [visit_binary, (standard_enterBinary op).1, (standard_enterBinary op).2, Reference.eval?]
    rcases visit_constant l p leftTyped with
      ⟨v, l', value, -, visited, left⟩ | ⟨division, y, other, z, divides, visited⟩
    · rw [value, visited]
      rcases visit_constant r p' rightTyped with
        ⟨w, r', value, -, visited, right⟩ | ⟨division, y, other, z, divides, visited⟩
      · rw [value, visited]
        rcases leave_binary table left right promotes own with
          ⟨u, k, computed, kind, same, done⟩ | ⟨division, y, z, divides, failed⟩
        · obtain ⟨w, cast, result, folded⟩ := Expr.isLiteralOf_castLiteral same kind leads
          refine .inl ⟨w, _, ?_, result, done, folded⟩
          simp only [computed, Option.bind_some, Reference.afterCasts, cast]
          rfl
        · refine .inr ⟨?_, y, op, z, divides, failed⟩
          simp only [division, Option.bind_some]
          rfl
      · rw [division, visited]
        exact .inr ⟨rfl, y, other, z, divides, rfl⟩
    · rw [division, visited]
      exact .inr ⟨rfl, y, other, z, divides, rfl⟩

end Pass

end ConstFold
