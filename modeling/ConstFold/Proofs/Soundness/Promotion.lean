import ConstFold.Pass.Identity
import ConstFold.Pass.Typing
import ConstFold.Proofs.Refinement
import ConstFold.Proofs.Retyping

/-! Soundness of the passes that work on types and casts: types that are inferred, casts that are
carried out, removed or added as promotion, and double operators. -/
namespace ConstFold

variable {World Thrown : Type} {scope : Scope} {methods : Methods World Thrown}
  {e x l r : Expr} {s : Static} {p q t : Primitive}

namespace Refines

/-- Operator nodes may be given the inferred type. -/
theorem withInferredTy (untyped : e.ty = none)
    (operator : (∃ op x s, e = .unary op x s) ∨ ∃ op l r s, e = .binary op l r s) :
    Refines scope methods e (e.withTy e.inferTy?) := by
  intro q typed
  rcases operator with ⟨op, x, s, rfl⟩ | ⟨op, l, r, s, rfl⟩
  · obtain ⟨p, t, operand, exact, -, leads, step⟩ := Expr.exactTy?_unary.mp typed
    have inferred := Expr.inferTy?_unary_exact (s := s) (Expr.operandTy?_exact x p operand) exact
      fun isStep => Expr.isRead_of_isVariable (step isStep)
    rw [inferred]
    refine ⟨Expr.exactTy?_unary.mpr ⟨p, t, operand, exact, .inr rfl, leads, step⟩, ?_, ?_⟩
    · unfold Expr.eval
      exact .refl _
    · intro isVariable
      cases isVariable
  · obtain ⟨tl, tr, t, left, right, exact, -, leads⟩ := Expr.exactTy?_binary.mp typed
    have inferred := Expr.inferTy?_binary_exact (s := s) (Expr.operandTy?_exact l tl left)
      (Expr.operandTy?_exact r tr right) exact
    rw [inferred]
    refine ⟨Expr.exactTy?_binary.mpr ⟨tl, tr, t, left, right, exact, .inr rfl, leads⟩, ?_, ?_⟩
    · rw [Expr.withTy, Expr.withStatic, Expr.eval_binary, Expr.eval_binary]
      exact .refl _
    · intro isVariable
      cases isVariable

/-- The casts of a literal may be carried out. -/
theorem castLiteral {v : Value} :
    Refines scope methods (.literal v s) (Expr.castLiteral v s.ty s.casts) := by
  intro q typed
  obtain ⟨p, own, exact, typed, leads⟩ := Expr.exactTy?_literal.mp typed
  obtain ⟨w, cast, result, literal⟩ := castLiteral_exact own leads
  have related := casts_of_castTy? exact leads
  rw [typed, literal]
  refine ⟨Expr.exactTy?_literal.mpr ⟨q, result, Primitive.isExact_of_casts related, rfl, rfl⟩, ?_,
    fun isVariable => by cases isVariable⟩
  rw [Expr.eval, Expr.eval, cast]
  exact .refl _

theorem applyCasts (e : Expr) : Refines scope methods e e.applyCasts := by
  cases e with
  | literal v s => exact castLiteral
  | unary | binary | read | call | typeRef => exact .refl _

variable (respects : methods.Respects scope)

include respects

theorem removeRedundantCasts (e : Expr) : Refines scope methods e e.removeRedundantCasts := by
  intro q typed
  obtain ⟨b, bare, exact, admits, leads⟩ := Expr.exists_bareTy typed
  have removed := Static.removeRedundantCasts_exact admits exact leads
  rw [Expr.removeRedundantCasts_eq]
  refine ⟨?_, ?_, fun isVariable => ?_⟩
  · rw [Expr.exactTy?_withCasts, bare, Option.bind_some, removed.leads]
    exact leads
  · have recast := Expr.agrees_recast (f := some) respects bare e.casts
      e.static.removeRedundantCasts.casts fun v typed =>
        (removed.value v typed).trans (Option.bind_fun_some _).symm
    rw [Expr.withCasts_casts] at recast
    simpa using recast
  · obtain ⟨id, name, ty, rfl, -⟩ := Expr.exists_variable isVariable
    cases ty with
    | none => rfl
    | some base => simp [Expr.static, Static.removeRedundantCasts, dropRedundant,
        dropRedundantOnce, keepCasts, Expr.withCasts, Expr.withStatic, Expr.ty]

/-- The operand of an operator may be promoted. -/
theorem promoteUnary {op : UnaryOp} (operand : x.exactTy? scope = some p)
    (exact : op.exactTy? p = some t) (noStep : op.isStep = false) :
    Refines scope methods (.unary op x s) (.unary op (x.castTo (.primitive t)) s) := by
  intro q typed
  obtain ⟨p', t', operand', exact', own, leads, step⟩ := Expr.exactTy?_unary.mp typed
  cases operand.symm.trans operand'
  cases exact.symm.trans exact'
  obtain ⟨related, again⟩ := UnaryOp.promoted_exact exact noStep
  refine ⟨Expr.exactTy?_unary.mpr ⟨t, t, Expr.exactTy?_castTo operand related, again, own, leads,
    by simp [noStep]⟩, ?_, fun isVariable => by cases isVariable⟩
  rw [Expr.eval_unary noStep, Expr.eval_unary noStep]
  refine Expr.agrees_castTo_bind respects operand related fun v w typed made _ => ?_
  rw [UnaryOp.reference_promote typed exact noStep made]
  exact .refl _

omit respects in
theorem not_decides {op : BinaryOp} {v : Value} (typed : v.primitive? = some p)
    (integral : p.isIntegral) : op.decides v = false := by
  cases v <;> simp_all [BinaryOp.decides, Value.primitive?]
  subst typed
  contradiction

/-- The left operand of an operator may be promoted. -/
theorem promoteLeft {op : BinaryOp} (left : l.exactTy? scope = some p)
    (right : r.exactTy? scope = some q) (exact : op.exactTy? p q = some t) :
    Refines scope methods (.binary op l r s)
      (.binary op (l.castTo (.primitive (op.exactOperands p q).1)) r s) := by
  intro whole typed
  obtain ⟨p', q', t', left', right', exact', own, leads⟩ := Expr.exactTy?_binary.mp typed
  cases left.symm.trans left'
  cases right.symm.trans right'
  cases exact.symm.trans exact'
  have related := (BinaryOp.casts_exactOperands exact).1
  refine ⟨Expr.exactTy?_binary.mpr ⟨_, q, t, Expr.exactTy?_castTo left related, right,
    (BinaryOp.exactOperands_left exact).1, own, leads⟩, ?_, fun isVariable => by cases isVariable⟩
  rw [Expr.eval_binary, Expr.eval_binary]
  refine Expr.agrees_castTo_bind respects left related fun v w leftTyped made wideTyped => ?_
  have keeps := Expr.keeps_eval respects r q right
  refine Scope.Agrees.bind ?_ (Expr.keeps_evalRight leftTyped keeps exact) fun _ _ => .refl _
  rcases BinaryOp.exactTy?_operands exact with ⟨noShift, rfl, rfl⟩ | ⟨integral, -⟩
  · rw [BinaryOp.exactOperands, noShift, if_neg Bool.false_ne_true, if_pos rfl,
      Value.convert_self leftTyped] at made
    cases made
    exact .refl _
  · have wide : (op.exactOperands p q).1.isIntegral := by
      simp only [Primitive.casts, Bool.or_eq_true, Bool.and_eq_true, decide_eq_true_eq] at related
      rcases related with ⟨rfl, -⟩ | related
      · contradiction
      · exact related.2
    rw [Expr.evalRight, Expr.evalRight, not_decides leftTyped integral, not_decides wideTyped wide]
    refine Scope.Agrees.bind (.refl _) keeps fun b rightTyped => ?_
    rw [BinaryOp.reference_promoteLeft leftTyped rightTyped exact made]
    exact .refl _

/-- The right operand of an operator may be promoted. -/
theorem promoteRight {op : BinaryOp} (left : l.exactTy? scope = some p)
    (right : r.exactTy? scope = some q) (exact : op.exactTy? p q = some t) :
    Refines scope methods (.binary op l r s)
      (.binary op l (r.castTo (.primitive (op.exactOperands p q).2)) s) := by
  intro whole typed
  obtain ⟨p', q', t', left', right', exact', own, leads⟩ := Expr.exactTy?_binary.mp typed
  cases left.symm.trans left'
  cases right.symm.trans right'
  cases exact.symm.trans exact'
  have related := (BinaryOp.casts_exactOperands exact).2
  refine ⟨Expr.exactTy?_binary.mpr ⟨p, _, t, left, Expr.exactTy?_castTo right related,
    (BinaryOp.exactOperands_right exact).1, own, leads⟩, ?_, fun isVariable => by cases isVariable⟩
  rw [Expr.eval_binary, Expr.eval_binary]
  refine Scope.Agrees.bind (.refl _) (Expr.keeps_eval respects l p left) fun a leftTyped => ?_
  have keeps := Expr.keeps_eval respects r q right
  refine Scope.Agrees.bind ?_ (Expr.keeps_evalRight leftTyped keeps exact) fun _ _ => .refl _
  rw [Expr.evalRight, Expr.evalRight]
  split
  · exact .refl _
  · refine Expr.agrees_castTo_bind respects right related fun v w rightTyped made _ => ?_
    rw [BinaryOp.reference_promoteRight leftTyped rightTyped exact made]
    exact .refl _

/-- Of a double operator the operand remains, promoted. -/
theorem cancelDouble {op : UnaryOp} {inner : Static} (double : op = .neg ∨ op = .not)
    (bare : inner.casts = []) (operand : x.exactTy? scope = some p)
    (exact : op.exactTy? p = some t) :
    Refines scope methods (.unary op (.unary op x inner) s)
      ((x.castTo (.primitive t)).addCasts s.casts) := by
  intro q typed
  have noStep : op.isStep = false := by rcases double with rfl | rfl <;> rfl
  obtain ⟨related, again⟩ := UnaryOp.promoted_exact exact noStep
  obtain ⟨p', t', innerTyped, exact', -, leads, -⟩ := Expr.exactTy?_unary.mp typed
  obtain ⟨p'', t'', operand', exact'', -, innerLeads, -⟩ := Expr.exactTy?_unary.mp innerTyped
  cases operand.symm.trans operand'
  cases exact.symm.trans exact''
  rw [bare] at innerLeads
  cases innerLeads
  cases again.symm.trans exact'
  refine ⟨?_, ?_, fun isVariable => by cases isVariable⟩
  · rw [Expr.exactTy?_addCasts, Expr.exactTy?_castTo operand related]
    exact leads
  · rw [Expr.eval_addCasts, Expr.eval_unary noStep, Expr.eval_unary noStep, bare, bind_assoc]
    refine Expr.agrees_castTo_bind respects operand related fun v w typed made _ => ?_
    have twice := UnaryOp.reference_twice typed exact double
    obtain ⟨u, once, -⟩ := Expr.reference_unary_exact typed exact noStep
    rw [made, once, Option.bind_some] at twice
    simp only [once, Reference.castAll, Evaluation.ofOption_some, pure_bind, twice]
    exact .refl _

end Refines

namespace Pass

theorem sound_inferTypes : inferTypes.Sound scope methods := by
  refine Within.ofLeave Refines.refl rfl rfl fun e e' left => ?_
  rcases inferTypes_ok left with ⟨rfl, -⟩ | ⟨untyped, operator, rfl⟩
  · exact .refl _
  · exact Refines.withInferredTy untyped operator

theorem sound_applyCasts (selects : Value → Bool) : (applyCasts selects).Sound scope methods := by
  refine Within.ofLeave Refines.refl rfl rfl fun e e' left => ?_
  change (applyCasts selects).step e = .ok e' at left
  simp only [applyCasts] at left
  split at left
  · cases left
    split
    · exact Refines.castLiteral
    · exact .refl _
  · cases left
    exact .refl e

variable (respects : methods.Respects scope)

include respects

theorem sound_removeRedundantCasts : removeRedundantCasts.Sound scope methods := by
  refine Within.ofLeave Refines.refl rfl rfl fun e e' left => ?_
  cases left
  split
  · exact .refl e
  · exact Refines.removeRedundantCasts respects e

omit respects in
theorem promotedOperand_exact {op : UnaryOp} (operands : Operands)
    (operand : x.exactTy? scope = some p) (exact : op.exactTy? p = some t)
    (noStep : op.isStep = false) :
    Expr.promotedOperand operands op x =
      if operands.selects x then x.castTo (.primitive t) else x := by
  simp only [Expr.promotedOperand, Expr.unaryTarget?_exact operand exact noStep]

theorem sound_cancelDouble : cancelDouble.Sound scope methods := by
  refine Within.ofLeave Refines.refl rfl rfl fun e e' left => ?_
  rcases cancelDouble_ok left with ⟨rfl, -⟩ | ⟨op, x, inner, s, negation, bare, rfl, rfl⟩
  · exact .refl _
  · intro q typed
    obtain ⟨_, _, innerTyped, -⟩ := Expr.exactTy?_unary.mp typed
    obtain ⟨p, t, operand, exact, -⟩ := Expr.exactTy?_unary.mp innerTyped
    have noStep : op.isStep = false := by
      rcases negation with rfl | rfl <;> rfl
    rw [promotedOperand_exact .all operand exact noStep]
    exact Refines.cancelDouble respects negation bare operand exact q typed

omit respects in
theorem promotedOperands_exact {op : BinaryOp} {tl tr : Primitive} (operands : Operands)
    (left : l.exactTy? scope = some tl) (right : r.exactTy? scope = some tr)
    (exact : op.exactTy? tl tr = some t) :
    Expr.promotedOperands operands op l r =
      (if operands.selects l then l.castTo (.primitive (op.exactOperands tl tr).1) else l,
        if operands.selects r then r.castTo (.primitive (op.exactOperands tl tr).2) else r) := by
  simp only [Expr.promotedOperands, Expr.binaryTargets?_exact left right exact]

theorem sound_promotion (binary unary : Operands) : (promotion binary unary).Sound scope methods where
  enter e := by
    cases e with
    | literal | read | call | typeRef => exact .refl _
    | unary op x s =>
      intro q typed
      obtain ⟨p, t, operand, exact, -, -, step⟩ := Expr.exactTy?_unary.mp typed
      cases isStep : op.isStep with
      | true =>
        rw [enter_promotion_unary, Expr.promotedOperand, Expr.unaryTarget?, if_pos isStep]
        exact Refines.refl _ q typed
      | false =>
        rw [enter_promotion_unary, promotedOperand_exact unary operand exact isStep]
        split
        · exact Refines.promoteUnary respects operand exact isStep q typed
        · exact Refines.refl _ q typed
    | binary op l r s =>
      intro q typed
      obtain ⟨tl, tr, t, left, right, exact, -, -⟩ := Expr.exactTy?_binary.mp typed
      rw [enter_promotion_binary, promotedOperands_exact binary left right exact]
      -- The left operand first; the right one has the same target afterwards.
      have promotedLeft := Refines.promoteLeft (s := s) respects left right exact
      have leftTyped := Expr.exactTy?_castTo left (BinaryOp.casts_exactOperands exact).1
      obtain ⟨exactLeft, sameLeft⟩ := BinaryOp.exactOperands_left exact
      split
      · split
        · have promotedRight := Refines.promoteRight (s := s) respects leftTyped right exactLeft
          rw [sameLeft] at promotedRight
          exact promotedLeft.trans promotedRight q typed
        · exact promotedLeft q typed
      · split
        · exact Refines.promoteRight respects left right exact q typed
        · exact Refines.refl _ q typed
  leave e e' left := by
    cases left
    exact .refl e

theorem sound_promoteOperands (operands : Operands) :
    (promoteOperands operands).Sound scope methods := by
  apply Within.chain (Refines.congruence respects)
  intro pass member
  simp only [List.mem_cons, List.not_mem_nil, or_false] at member
  rcases member with rfl | rfl
  · exact sound_promotion respects operands operands
  · exact sound_applyCasts _

omit respects

/-- A visit that promotes operands keeps the operator, and visits the promoted operands. -/
theorem visit_promoteOperands {op : BinaryOp} {tl tr : Primitive} (operands : Operands)
    (left : l.exactTy? scope = some tl)
    (right : r.exactTy? scope = some tr) (exact : op.exactTy? tl tr = some t) :
    (promoteOperands operands).visit (.binary op l r s) =
      ((promoteOperands operands).visit
        (if operands.selects l then l.castTo (.primitive (op.exactOperands tl tr).1) else l) >>=
          fun l' => (promoteOperands operands).visit
            (if operands.selects r then r.castTo (.primitive (op.exactOperands tl tr).2) else r) >>=
              fun r' => .ok (.binary op l' r' s)) := by
  rw [visit_promoteOperands_binary, promotedOperands_exact operands left right exact]

theorem visit_promoteOperand {op : UnaryOp} (operands : Operands)
    (operand : x.exactTy? scope = some p) (exact : op.exactTy? p = some t)
    (noStep : op.isStep = false) :
    (promoteOperands operands).visit (.unary op x s) =
      ((promoteOperands operands).visit
        (if operands.selects x then x.castTo (.primitive t) else x) >>=
          fun y => .ok (.unary op y s)) := by
  rw [visit_promoteOperands_unary, promotedOperand_exact operands operand exact noStep]

end Pass

end ConstFold
