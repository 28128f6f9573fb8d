import ConstFold.Proofs.ExactNodes
import ConstFold.Proofs.Idempotence
import ConstFold.Proofs.MeaningPreservation
import ConstFold.Proofs.Reassignment

/-! Folding leaves no operator on constants. The passes keep exact types, and an operator on
literals of exact types has a value, so that it would have been replaced. -/
namespace ConstFold

open ConstFold.Expr

variable {table : DeclTable} {e e' x y l r : Expr} {s : Static} {p q t : Primitive}

namespace Pass

theorem exact_promotedOperand (operands : Operands) {op : UnaryOp}
    (inside : x.Everywhere (IsExact table)) (has : x.MayHave p) (exact : op.exactTy? p = some t)
    (step : op.isStep → x.isRead ∨ x.isLiteral) :
    (promotedOperand operands op x).Everywhere (IsExact table) ∧
      (op.isStep →
        (promotedOperand operands op x).isRead ∨ (promotedOperand operands op x).isLiteral) ∧
      ∃ p', (promotedOperand operands op x).MayHave p' ∧ op.exactTy? p' = some t := by
  rw [promotedOperand]
  split
  · rename_i target promotes
    obtain ⟨noStep, promoted⟩ := unaryTarget?_eq_some.mp promotes
    obtain ⟨u, known, -⟩ := Option.bind_eq_some_iff.mp promoted
    split
    · rcases has with has | ⟨lost, -⟩
      · cases promotes.symm.trans (unaryTarget?_of_operandTy? has exact noStep)
        obtain ⟨related, again⟩ := UnaryOp.promoted_exact exact noStep
        refine ⟨exact_castTo inside has related, ?_, t, .inl operandTy?_castTo, again⟩
        simp [noStep]
      · rw [operandTy?_of_isLost lost] at known
        cases known
    · exact ⟨inside, step, p, has, exact⟩
  · exact ⟨inside, step, p, has, exact⟩

theorem exact_promotedOperands (operands : Operands) {op : BinaryOp}
    (insideLeft : l.Everywhere (IsExact table)) (insideRight : r.Everywhere (IsExact table))
    (left : l.MayHave p) (right : r.MayHave q) (exact : op.exactTy? p q = some t) :
    (promotedOperands operands op l r).1.Everywhere (IsExact table) ∧
      (promotedOperands operands op l r).2.Everywhere (IsExact table) ∧
      ∃ p' q', (promotedOperands operands op l r).1.MayHave p' ∧
        (promotedOperands operands op l r).2.MayHave q' ∧ op.exactTy? p' q' = some t := by
  rw [promotedOperands]
  split
  · rename_i a b promotes
    have known := promotes
    rw [binaryTargets?_eq] at known
    obtain ⟨u, leftKnown, known⟩ := Option.bind_eq_some_iff.mp known
    obtain ⟨w, rightKnown, -⟩ := Option.bind_eq_some_iff.mp known
    -- A lost operand would have no type to promote it from.
    have left : l.operandTy? = some (.primitive p) := by
      rcases left with left | ⟨lost, -⟩
      · exact left
      · rw [operandTy?_of_isLost lost] at leftKnown
        cases leftKnown
    have right : r.operandTy? = some (.primitive q) := by
      rcases right with right | ⟨lost, -⟩
      · exact right
      · rw [operandTy?_of_isLost lost] at rightKnown
        cases rightKnown
    cases promotes.symm.trans (binaryTargets?_of_operandTy? left right exact)
    obtain ⟨leftCasts, rightCasts⟩ := BinaryOp.casts_exactOperands exact
    have castLeft := exact_castTo insideLeft left leftCasts
    have castRight := exact_castTo insideRight right rightCasts
    cases operands.selects l with
    | true =>
      cases operands.selects r with
      | true =>
        exact ⟨castLeft, castRight, _, _, .inl operandTy?_castTo, .inl operandTy?_castTo,
          (BinaryOp.exactOperands_both exact).1⟩
      | false =>
        exact ⟨castLeft, insideRight, _, _, .inl operandTy?_castTo, .inl right,
          (BinaryOp.exactOperands_left exact).1⟩
    | false =>
      cases operands.selects r with
      | true =>
        exact ⟨insideLeft, castRight, _, _, .inl left, .inl operandTy?_castTo,
          (BinaryOp.exactOperands_right exact).1⟩
      | false => exact ⟨insideLeft, insideRight, p, q, .inl left, .inl right, exact⟩
  · exact ⟨insideLeft, insideRight, p, q, left, right, exact⟩

theorem exact_promotion (binary unary : Operands) :
    (promotion binary unary).Within (PreservesExact table) where
  enter e := by
    refine .ofRetypes ((retypes_promotion binary unary).enter e) ?_
    intro exact
    cases exact with
    | unary node inside =>
      obtain ⟨b, q, ⟨p, has, exact, admits, step⟩, leads⟩ := node
      obtain ⟨promoted, steps, p', may, again⟩ :=
        exact_promotedOperand unary inside has exact step
      rw [enter_promotion_unary]
      exact .unary ⟨b, q, ⟨p', may, again, admits, steps⟩, leads⟩ promoted
    | binary node insideLeft insideRight =>
      obtain ⟨b, q, ⟨pl, pr, left, right, exact, admits⟩, leads⟩ := node
      obtain ⟨promotedLeft, promotedRight, pl', pr', left', right', again⟩ :=
        exact_promotedOperands binary insideLeft insideRight left right exact
      rw [enter_promotion_binary]
      exact .binary ⟨b, q, ⟨pl', pr', left', right', again, admits⟩, leads⟩ promotedLeft promotedRight
    | literal node => exact .literal node
    | read node => exact .read node
    | call node inside => exact .call node inside
    | typeRef node => exact .typeRef node
  leave e e' left := by
    cases left
    exact PreservesExact.congruence.refl e

theorem exact_applyCasts_literal {v : Value} (node : (Expr.literal v s).IsExact table) :
    (castLiteral v s.ty s.casts).Everywhere (IsExact table) := by
  obtain ⟨b, q, ⟨own, exact, typed⟩, leads⟩ := node
  rw [Expr.casts, static] at leads
  obtain ⟨w, -, result, literal⟩ := castLiteral_exact own leads
  rw [typed, literal]
  have exact := Primitive.isExact_of_casts (casts_of_castTy? exact leads)
  exact .literal ⟨q, q, ⟨result, exact, rfl⟩, rfl⟩

theorem exact_applyCasts (e : Expr) (exact : e.Everywhere (IsExact table)) :
    e.applyCasts.Everywhere (IsExact table) := by
  cases exact with
  | literal node => exact exact_applyCasts_literal node
  | unary node inside => exact .unary node inside
  | binary node left right => exact .binary node left right
  | read node => exact .read node
  | call node inside => exact .call node inside
  | typeRef node => exact .typeRef node

theorem exact_promoteOperands (operands : Operands) :
    (promoteOperands operands).Within (PreservesExact table) := by
  apply Within.chain PreservesExact.congruence
  intro pass member
  simp only [List.mem_cons, List.not_mem_nil, or_false] at member
  rcases member with rfl | rfl
  · exact exact_promotion operands operands
  · refine Within.ofLeave PreservesExact.congruence.refl rfl rfl fun e e' left => ?_
    refine .ofRetypes ((retypes_applyCasts _).leave e e' left) fun exact => ?_
    have applied : e' = e.applyCasts := by
      cases e <;> cases left <;> rfl
    rw [applied]
    exact exact_applyCasts e exact

theorem exact_inferTypes : inferTypes.Within (PreservesExact table) := by
  refine Within.ofLeave PreservesExact.congruence.refl rfl rfl fun e e' left => ?_
  refine .ofRetypes (retypes_inferTypes.leave e e' left) fun exact => ?_
  rcases inferTypes_ok left with ⟨rfl, -⟩ | ⟨untyped, operator, rfl⟩
  · exact exact
  -- The inferred type is the one that the node has, or none.
  have admits {b : Primitive} (base : e.HasBase table b) :
      Static.Admits ⟨e.inferTy?, e.casts⟩ b := by
    rcases base.inferTy? with inferred | ⟨untypable, -⟩
    · exact .inr inferred
    · exact .inl (inferTy?_of_isUntypable e untypable)
  cases exact with
  | unary node inside =>
    obtain ⟨b, q, base, leads⟩ := node
    obtain ⟨p, has, exact, -, step⟩ := id base
    exact .unary ⟨b, q, ⟨p, has, exact, admits base, step⟩, leads⟩ inside
  | binary node insideLeft insideRight =>
    obtain ⟨b, q, base, leads⟩ := node
    obtain ⟨pl, pr, left, right, exact, -⟩ := id base
    exact .binary ⟨b, q, ⟨pl, pr, left, right, exact, admits base⟩, leads⟩ insideLeft insideRight
  | literal | read | call | typeRef => rcases operator with ⟨_, _, _, ⟨⟩⟩ | ⟨_, _, _, _, ⟨⟩⟩

/-- Inlined constants have the declared types. -/
theorem exact_inlineReads
    (initialized : ∀ id decl, table.get? id = some decl → (decl.constant? true).isSome →
      decl.initial?.isSome) :
    (inlineReads table true).Within (PreservesExact table) := by
  refine Within.ofLeave PreservesExact.congruence.refl rfl rfl fun e e' left => ?_
  intro exact
  have keeps := (preserves_inlineReads true).leave e e' left
    (exact.mono fun _ => IsExact.isConsistent)
  rcases inlineReads_ok left with ⟨rfl, -⟩ | ⟨id, name, s, decl, constant, rfl, resolved, found, rfl⟩
  · exact PreservesExact.congruence.refl _ exact
  obtain ⟨b, q, base, leads⟩ := exact.here
  obtain ⟨v, initial⟩ := Option.isSome_iff_exists.mp
    (initialized id decl resolved (by rw [found]; rfl))
  obtain ⟨rfl, own⟩ := Declaration.constant?_exact found initial (base.1 decl resolved)
  have after : ((Expr.literal v ⟨some (.primitive b), []⟩).addCasts s.casts).HasBase table b :=
    ⟨own, base.2.1, rfl⟩
  exact .intro (.literal ⟨b, q, after, leads⟩) keeps (base.mayHave leads) (after.mayHave leads)

/-- The operand of a double operator computes in the type of the whole, unless it is lost. -/
theorem mayHave_double {op : UnaryOp} {inner : Static} (noStep : op.isStep = false)
    (bare : inner.casts = []) (outer : (Expr.unary op (.unary op x inner) s).HasBase table t)
    (node : (Expr.unary op x inner).IsExact table) : (promotedOperand .all op x).MayHave t := by
  obtain ⟨c, q, base, leads⟩ := node
  obtain ⟨p, has, exact, -, -⟩ := outer
  obtain ⟨p', has', exact', -, -⟩ := id base
  have same : c = q := by
    rw [Expr.casts, static, bare] at leads
    exact Option.some.inj leads
  subst same
  rcases has' with known | ⟨lost, integral⟩
  · have target := unaryTarget?_of_operandTy? known exact' noStep
    have inferred := inferTy?_unary_exact (s := inner) known exact' (by simp [noStep])
    have computed : c = t := by
      rcases has with own | ⟨lost, -⟩
      · cases (base.mayHave leads).unique own
        exact Option.some.inj ((UnaryOp.promoted_exact exact' noStep).2.symm.trans exact)
      · rw [inferTy?_of_isUntypable _ (isLost_iff.mp lost).2] at inferred
        cases inferred
    rw [promotedOperand, target, ← computed]
    exact .inl operandTy?_castTo
  · have integral : p.isIntegral := by
      rcases has with own | ⟨-, integral⟩
      · cases (base.mayHave leads).unique own
        exact UnaryOp.isIntegral_exactTy? exact' integral
      · exact integral
    rw [promotedOperand, unaryTarget?, noStep, unaryPromotedTy?, operandTy?_of_isLost lost]
    exact .inr ⟨lost, UnaryOp.isIntegral_exactTy? exact integral⟩

theorem exact_cancelDouble : cancelDouble.Within (PreservesExact table) := by
  refine Within.ofLeave PreservesExact.congruence.refl rfl rfl fun e e' left => ?_
  intro exact
  have keeps := preserves_cancelDouble.leave e e' left (exact.mono fun _ => IsExact.isConsistent)
  rcases cancelDouble_ok left with ⟨rfl, -⟩ | ⟨op, x, inner, s, negation, bare, rfl, rfl⟩
  · exact PreservesExact.congruence.refl _ exact
  have noStep : op.isStep = false := by
    rcases negation with rfl | rfl <;> rfl
  cases exact with
  | unary node inside =>
    cases inside with
    | unary innerNode inside =>
      obtain ⟨b, q, base, leads⟩ := node
      obtain ⟨c, -, ⟨p, has, exact, -, step⟩, -⟩ := id innerNode
      have promoted := (exact_promotedOperand .all inside has exact step).1
      obtain ⟨after, mayHave⟩ :=
        exact_addCasts promoted (mayHave_double noStep bare base innerNode) leads
      exact .intro after keeps (base.mayHave leads) mayHave

theorem exact_reduceIdentities : reduceIdentities.Within (PreservesExact table) := by
  refine Within.ofLeave PreservesExact.congruence.refl rfl rfl fun e e' done => ?_
  intro exact
  rcases reduceIdentities_ok done with ⟨rfl, -⟩ | ⟨op, l, r, s, y, rfl, survives, rfl⟩
  · exact PreservesExact.congruence.refl _ exact
  have keeps := preserves_survivor (s := s) survives (exact.mono fun _ => IsExact.isConsistent)
  obtain ⟨left, right, side, leftVisited, rightVisited, law, rfl⟩ :=
    survivingOperand?_eq_some survives
  have retypesLeft : Retypes table _ left := retypes_visit leftVisited
  have retypesRight : Retypes table _ right := retypes_visit rightVisited
  obtain ⟨t, leftTyped, rightTyped, inferred⟩ :=
    promoted_of_survives (s := s) retypesLeft.operandTy retypesRight.operandTy law
  cases exact with
  | binary node insideLeft insideRight =>
    obtain ⟨b, q, base, leads⟩ := node
    obtain ⟨pl, pr, hasLeft, hasRight, exact, -⟩ := id base
    obtain ⟨promotedLeft, promotedRight, -⟩ :=
      exact_promotedOperands .all insideLeft insideRight hasLeft hasRight exact
    have visit {x y : Expr} (visited : (promoteOperands .all).visit x = .ok y)
        (inside : x.Everywhere (IsExact table)) : y.Everywhere (IsExact table) :=
      ((exact_promoteOperands .all).visit PreservesExact.congruence visited inside).exact
    have computed : t = .primitive b := by
      rcases base.inferTy? with same | ⟨untypable, -⟩
      · exact Option.some.inj (inferred.symm.trans same)
      · rw [inferTy?_of_isUntypable _ untypable] at inferred
        cases inferred
    subst computed
    have survivor : (side.operand left right).Everywhere (IsExact table) ∧
        (side.operand left right).MayHave b := by
      cases side with
      | left => exact ⟨visit leftVisited promotedLeft, .inl leftTyped⟩
      | right => exact ⟨visit rightVisited promotedRight, .inl rightTyped⟩
    obtain ⟨after, mayHave⟩ := exact_addCasts survivor.1 survivor.2 leads
    have applied : PreservesExact table ((side.operand left right).addCasts s.casts) _ :=
      .ofRetypes (.applyCasts _) (exact_applyCasts _)
    have survives : KeepsExact table (.binary op l r s) _ :=
      .intro after keeps (base.mayHave leads) mayHave
    exact PreservesExact.congruence.trans (fun _ => survives) applied
      (.binary ⟨b, q, base, leads⟩ insideLeft insideRight)

/-- An operator on literals of exact types is well-typed. -/
theorem exactTy?_of_foldable (foldable : e.isFoldable) (exact : e.Everywhere (IsExact table)) :
    ∃ b q, e.HasBase table b ∧ castTy? b e.casts = some q ∧ e.exactTy? Scope.empty = some q := by
  obtain ⟨b, q, base, leads⟩ := exact.here
  refine ⟨b, q, base, leads, ?_⟩
  have known {v : Value} {s : Static} {p : Primitive} (node : (Expr.literal v s).IsExact table)
      (has : (Expr.literal v s).MayHave p) : (Expr.literal v s).exactTy? Scope.empty = some p := by
    rcases has with known | ⟨lost, -⟩
    · exact node.literal known
    · exact absurd (isLost_iff.mp lost).2 not_isUntypable_literal
  rcases foldable_cases foldable with ⟨op, a, sa, s, rfl, noStep⟩ | ⟨op, a, sa, c, sc, s, rfl⟩
  · obtain ⟨p, has, exactTy, admits, -⟩ := base
    cases exact with
    | unary _ inside =>
      exact exactTy?_unary.mpr ⟨p, b, known inside.here has, exactTy, admits, leads,
        fun isStep => by rw [noStep] at isStep; cases isStep⟩
  · obtain ⟨pl, pr, left, right, exactTy, admits⟩ := base
    cases exact with
    | binary _ insideLeft insideRight =>
      exact exactTy?_binary.mpr ⟨pl, pr, b, known insideLeft.here left,
        known insideRight.here right, exactTy, admits, leads⟩

/-- A well-typed operator on literals is replaced by a constant, or divides by zero. -/
theorem foldNode_exact {scope : Scope} (foldable : e.isFoldable) (typed : e.exactTy? scope = some q) :
    (∃ reason, foldNode e = .error reason) ∨
      ∃ w, w.primitive? = some q ∧ foldNode e = .ok (.literal w ⟨some (.primitive q), []⟩) := by
  rcases foldable_cases foldable with ⟨op, a, sa, s, rfl, noStep⟩ | ⟨op, a, sa, c, sc, s, rfl⟩
  · obtain ⟨p, t, operand, -⟩ := exactTy?_unary.mp typed
    obtain ⟨v, value⟩ := exists_value operand
    obtain ⟨-, w, -, -, result, folded⟩ := foldNode_unary typed noStep value
    exact .inr ⟨w, result, folded⟩
  · obtain ⟨pl, pr, t, left, right, -⟩ := exactTy?_binary.mp typed
    obtain ⟨vl, leftValue⟩ := exists_value left
    obtain ⟨vr, rightValue⟩ := exists_value right
    rcases foldNode_binary typed leftValue rightValue with
      ⟨-, x, y, failed⟩ | ⟨-, w, -, -, result, folded⟩
    · exact .inl ⟨_, failed⟩
    · exact .inr ⟨w, result, folded⟩

theorem exact_evaluateLiterals : evaluateLiterals.Within (PreservesExact table) := by
  refine Within.ofLeave PreservesExact.congruence.refl rfl rfl fun e e' left => ?_
  intro exact
  have keeps := preserves_evaluateLiterals.leave e e' left
    (exact.mono fun _ => IsExact.isConsistent)
  change evaluateLiterals.step e = .ok e' at left
  rw [evaluateLiterals_step] at left
  split at left
  · rename_i foldable
    obtain ⟨b, q, base, leads, typed⟩ := exactTy?_of_foldable foldable exact
    rcases foldNode_exact foldable typed with ⟨reason, failed⟩ | ⟨w, result, folded⟩
    · cases failed.symm.trans left
    · cases folded.symm.trans left
      have after : (Expr.literal w ⟨some (.primitive q), []⟩).HasBase table q :=
        ⟨result, isExact_of_typed typed, rfl⟩
      exact .intro (.literal ⟨q, q, after, rfl⟩) keeps (base.mayHave leads) (after.mayHave rfl)
  · cases left
    exact PreservesExact.congruence.refl _ exact

end Pass

/-- Folding keeps exact types. -/
theorem fold_exact
    (initialized : ∀ id decl, table.get? id = some decl → (decl.constant? true).isSome →
      decl.initial?.isSome)
    (exact : e.Everywhere (IsExact table)) (folded : fold table e = .ok e') :
    e'.Everywhere (IsExact table) := by
  have passes : standardPipeline table =
      [Pass.inferTypes, Pass.inlineReads table true, Pass.cancelDouble, Pass.reduceIdentities,
        Pass.evaluateLiterals] := rfl
  have within : (Pass.chain (standardPipeline table)).Within (PreservesExact table) := by
    apply Pass.Within.chain PreservesExact.congruence
    intro pass member
    simp only [passes, List.mem_cons, List.not_mem_nil, or_false] at member
    rcases member with rfl | rfl | rfl | rfl | rfl
    · exact Pass.exact_inferTypes
    · exact Pass.exact_inlineReads initialized
    · exact Pass.exact_cancelDouble
    · exact Pass.exact_reduceIdentities
    · exact Pass.exact_evaluateLiterals
  exact (within.visit PreservesExact.congruence folded exact).exact

/-- An operator on literals of exact types is not settled. -/
theorem not_foldable_of_settled (settled : e.IsSettled table)
    (exact : e.Everywhere (IsExact table)) : e.isFoldable = false := by
  cases foldable : e.isFoldable with
  | false => rfl
  | true =>
    have declined : Pass.foldNode e = .ok e := by
      have nothing : Pass.foldedValue? e = .ok none := by
        rcases foldable_cases foldable with ⟨op, a, sa, s, rfl, -⟩ | ⟨op, a, sa, c, sc, s, rfl⟩
        · exact settled.2 foldable
        · exact settled.2.2 foldable
      rw [Pass.foldNode_eq, nothing]
      rfl
    obtain ⟨b, q, -, -, typed⟩ := Pass.exactTy?_of_foldable foldable exact
    rcases Pass.foldNode_exact foldable typed with ⟨reason, failed⟩ | ⟨w, -, folded⟩
    · cases failed.symm.trans declined
    · cases folded.symm.trans declined
      cases foldable

theorem not_foldable_everywhere (settled : e.Everywhere (IsSettled table))
    (exact : e.Everywhere (IsExact table)) : e.Everywhere fun x => x.isFoldable = false := by
  induction settled with
  | literal => exact .literal rfl
  | unary node _ ih =>
    have here := not_foldable_of_settled node exact
    cases exact with
    | unary _ operand => exact .unary here (ih operand)
  | binary node _ _ leftIh rightIh =>
    have here := not_foldable_of_settled node exact
    cases exact with
    | binary _ left right => exact .binary here (leftIh left) (rightIh right)
  | read => exact .read rfl
  | call _ _ ih =>
    cases exact with
    | call _ args => exact .call rfl fun x member => ih x member (args x member)
  | typeRef => exact .typeRef rfl

/-- Variables have their declared types, and literal initializers convert to these. -/
structure DeclTable.Declares (table : DeclTable) (types : VarId → Option Primitive) : Prop where
  ty : ∀ id decl p, table.get? id = some decl → types id = some p → decl.ty = .primitive p
  initial : ∀ id decl, table.get? id = some decl → decl.startsAsLiteral → decl.initial?.isSome

section Typed

variable {types : VarId → Option Primitive}

-- Any variable may be incremented here, also one that is inlined later.
mutual

theorem Expr.exact_of_typed (declares : table.Declares types) : ∀ (e : Expr) (q : Primitive),
    e.exactTy? ⟨types, fun _ => none⟩ = some q → e.Everywhere (IsExact table)
  | .literal v s, q, typed => by
    obtain ⟨p, own, exact, base, leads⟩ := exactTy?_literal.mp typed
    exact .literal ⟨p, q, ⟨own, exact, base⟩, leads⟩
  | .read id name s, q, typed => by
    obtain ⟨p, known, exact, base, leads⟩ := exactTy?_read.mp typed
    exact .read ⟨p, q, ⟨fun decl found => declares.ty id decl p found known, exact, base⟩, leads⟩
  | .call name args s, q, typed => by
    obtain ⟨each, p, exact, base, leads⟩ := exactTy?_call.mp typed
    exact .call ⟨p, q, ⟨exact, base⟩, leads⟩ (Expr.exact_of_allExact declares args each)
  | .unary op x s, q, typed => by
    obtain ⟨p, t, operand, exact, admits, leads, step⟩ := exactTy?_unary.mp typed
    refine .unary ⟨t, q, ⟨p, .inl (operandTy?_exact x p operand), exact, admits, ?_⟩, leads⟩
      (Expr.exact_of_typed declares x p operand)
    exact fun isStep => .inl (isRead_of_isVariable (step isStep))
  | .binary op l r s, q, typed => by
    obtain ⟨pl, pr, t, left, right, exact, admits, leads⟩ := exactTy?_binary.mp typed
    exact .binary ⟨t, q, ⟨pl, pr, .inl (operandTy?_exact l pl left),
      .inl (operandTy?_exact r pr right), exact, admits⟩, leads⟩
      (Expr.exact_of_typed declares l pl left) (Expr.exact_of_typed declares r pr right)
  | .typeRef t s, q, typed => by cases typed

theorem Expr.exact_of_allExact (declares : table.Declares types) : ∀ args : List Expr,
    allExact ⟨types, fun _ => none⟩ args → ∀ x ∈ args, x.Everywhere (IsExact table)
  | [], _ => nofun
  | e :: rest, typed => by
    rw [allExact, Bool.and_eq_true, Option.isSome_iff_exists] at typed
    obtain ⟨⟨q, first⟩, others⟩ := typed
    rw [List.forall_mem_cons]
    exact ⟨Expr.exact_of_typed declares e q first, Expr.exact_of_allExact declares rest others⟩

end

/-- Folding a well-typed expression over the exact types leaves no operator on constants: in the
result, the operand of a unary operator is no literal unless it is incremented or decremented, and
the operands of a binary operator are not both literals. -/
theorem fold_leaves_no_constant_operator (declares : table.Declares types)
    (typed : e.exactTy? ⟨types, fun _ => none⟩ = some p) (folded : fold table e = .ok e') :
    e'.Everywhere fun x => x.isFoldable = false := by
  have initialized (id : VarId) (decl : Declaration) (found : table.get? id = some decl)
      (inlined : (decl.constant? true).isSome) : decl.initial?.isSome :=
    declares.initial id decl found ((decl.constant?_isSome_iff true).mp inlined).2.1
  exact not_foldable_everywhere (fold_settles folded)
    (fold_exact initialized (Expr.exact_of_typed declares e p typed) folded)

end Typed

namespace OperatorSample

/-- A local variable `k` that starts as `(byte) 3`, and a parameter `n` of type `int`. -/
def declarations : DeclTable :=
  ⟨[{ name := .ofIndex 0, ty := .primitive .byte, kind := .localVar,
      initializer := some (.literal (.int 3) ⟨some .int, [Cast.toExplicit (.primitive .byte)]⟩) },
    { name := .ofIndex 1, ty := .int, kind := .parameter }]⟩

def types (id : VarId) : Option Primitive :=
  if id.index = 0 then some .byte else if id.index = 1 then some .int else none

/-- The expression `-(-k++) + f((n + k * 2) * (k - 2), k > 2)`, where `f` returns a `long`. -/
def expr : Expr :=
  let k : Expr := .read ⟨0⟩ (.ofIndex 0) ⟨some (.primitive .byte), []⟩
  let n : Expr := .read ⟨1⟩ (.ofIndex 1) ⟨some .int, []⟩
  let two : Expr := .literal (.int 2) ⟨some .int, []⟩
  .binary .plus (.unary .neg (.unary .neg (.unary .postInc k {}) {}) {})
    (.call (.ofIndex 2)
      [.binary .mul (.binary .plus n (.binary .mul k two {}) {}) (.binary .minus k two {}) {},
        .binary .gt k two {}] ⟨some (.primitive .long), []⟩) {}

theorem declares : declarations.Declares types := by
  constructor
  · rintro ⟨index⟩ decl p found typed
    simp only [types] at typed
    split at typed
    · rename_i zero
      subst zero
      cases found
      cases typed
      rfl
    · obtain ⟨rfl, same⟩ := Option.ite_none_right_eq_some.mp typed
      cases found
      cases same
      rfl
  · intro id decl found literal
    have member : decl ∈ declarations.decls := List.mem_of_getElem? found
    simp only [declarations, List.mem_cons, List.not_mem_nil, or_false] at member
    rcases member with rfl | rfl
    · decide
    · cases literal

end OperatorSample

theorem fold_leaves_no_constant_operator_sample :
    ∃ e', fold OperatorSample.declarations OperatorSample.expr = .ok e' ∧
      e' ≠ OperatorSample.expr ∧ e'.Everywhere fun x => x.isFoldable = false := by
  have typed : OperatorSample.expr.exactTy? ⟨OperatorSample.types, fun _ => none⟩ = some .long := by
    decide
  refine ⟨_, rfl, ?_, fold_leaves_no_constant_operator OperatorSample.declares typed rfl⟩
  intro same
  cases same

end ConstFold
