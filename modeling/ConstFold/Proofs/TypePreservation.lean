import ConstFold.Pipeline
import ConstFold.Proofs.Retyping

/-! Folding keeps the type of an expression. A type is lost only where a variable that is
incremented has been replaced by its constant, and what is lost is never inferred anew. -/
namespace ConstFold

variable {table : DeclTable} {e e' x y l l' r r' : Expr} {s : Static} {t : Ty}

namespace Expr

theorem isLost_read (isRead : e.isRead) : e.isLost = false := by
  cases e with
  | read id name s => exact Bool.and_false _
  | literal | unary | binary | call | typeRef => cases isRead

/-- The second expression is as consistent as the first, and has its type or none for good. -/
structure KeepsType (table : DeclTable) (e e' : Expr) : Prop where
  consistent : e'.Everywhere (IsConsistent table)
  operandTy : ∀ t, e.operandTy? = some t → e'.operandTy? = some t ∨ e'.isLost
  lost : e.isLost → e'.isLost
  isRead : e.isRead → e'.isRead ∨ e'.isLiteral
  isLiteral : e.isLiteral → e'.isLiteral

/-- Nothing is said of expressions that are not consistent. -/
def PreservesType (table : DeclTable) (e e' : Expr) : Prop :=
  e.Everywhere (IsConsistent table) → KeepsType table e e'

namespace PreservesType

theorem ofRetypes (retypes : Retypes table e e') : PreservesType table e e' := by
  intro consistent
  refine ⟨retypes.consistent consistent, ?_, retypes.lost, ?_, ?_⟩
  · intro t typed
    exact .inl (retypes.operandTy.trans typed)
  · intro isRead
    exact .inl (retypes.isRead.trans isRead)
  · intro isLiteral
    exact retypes.isLiteral.trans isLiteral

theorem refl (e : Expr) : PreservesType table e e := ofRetypes (.refl e)

theorem trans {e'' : Expr} (first : PreservesType table e e')
    (second : PreservesType table e' e'') : PreservesType table e e'' := by
  intro consistent
  have before := first consistent
  have after := second before.consistent
  refine ⟨after.consistent, ?_, after.lost ∘ before.lost, ?_, after.isLiteral ∘ before.isLiteral⟩
  · intro t typed
    rcases before.operandTy t typed with typed | lost
    · exact after.operandTy t typed
    · exact .inr (after.lost lost)
  · intro isRead
    rcases before.isRead isRead with isRead | isLiteral
    · exact after.isRead isRead
    · exact .inr (after.isLiteral isLiteral)

/-- An operator with other operands keeps its type if the type that is inferred stays or is
lost. -/
theorem operandTy_of_inferred (static : e'.static = e.static)
    (inferred : ∀ t, e.inferTy? = some t → e'.inferTy? = some t ∨ e'.isUntypable) :
    ∀ t, e.operandTy? = some t → e'.operandTy? = some t ∨ e'.isLost := by
  intro t typed
  have same : e'.resultTy = e.resultTy := by rw [resultTy, static, resultTy]
  cases known : e.resultTy with
  | some u =>
    rw [operandTy?_of_resultTy known] at typed
    exact .inl (operandTy?_of_resultTy (same.trans (known.trans typed)))
  | none =>
    rw [operandTy?_of_untyped known] at typed
    rw [operandTy?_of_untyped (same.trans known), isLost_iff]
    exact (inferred t typed).imp id fun untypable => ⟨same.trans known, untypable⟩

theorem unary {op : UnaryOp} (operand : PreservesType table x y) :
    PreservesType table (.unary op x s) (.unary op y s) := by
  rintro (_ | ⟨node, inside⟩)
  have kept := operand inside
  have untypable : isUntypable (.unary op x s) → isUntypable (.unary op y s) := by
    cases isStep : op.isStep with
    | true =>
      rw [isUntypable_step isStep, isUntypable_step isStep]
      exact kept.isLiteral
    | false =>
      rw [isUntypable_unary isStep, isUntypable_unary isStep]
      exact kept.lost
  have inferred : ∀ t, inferTy? (.unary op x s) = some t →
      inferTy? (.unary op y s) = some t ∨ isUntypable (.unary op y s) := by
    intro t typed
    rw [inferTy?_unary] at typed ⊢
    obtain ⟨u, operandTy, promoted⟩ := Option.bind_eq_some_iff.mp typed
    cases isStep : op.isStep with
    | true =>
      rw [isUntypable_step isStep]
      -- Only a read is incremented, and it stays one or becomes a literal.
      have isRead : x.isRead := by
        cases isRead : x.isRead with
        | true => rfl
        | false =>
          rw [isRead, UnaryOp.promotedTy?_step isStep] at promoted
          cases promoted
      rcases kept.isRead isRead with stays | isLiteral
      · rcases kept.operandTy u operandTy with operandTy | lost
        · rw [operandTy, stays, ← isRead]
          exact .inl promoted
        · rw [isLost_read stays] at lost
          cases lost
      · exact .inr isLiteral
    | false =>
      rw [isUntypable_unary isStep]
      rcases kept.operandTy u operandTy with operandTy | lost
      · rw [operandTy, Option.bind_some, UnaryOp.promotedTy?_of_not_isStep isStep _ x.isRead]
        exact .inl promoted
      · exact .inr lost
  refine ⟨.unary ?_ kept.consistent, operandTy_of_inferred rfl inferred, ?_, ?_, ?_⟩
  · intro t typed
    exact (node t typed).elim (inferred t) (.inr ∘ untypable)
  · rw [isLost_iff, isLost_iff]
    exact fun lost => ⟨lost.1, untypable lost.2⟩
  · intro isRead
    cases isRead
  · intro isLiteral
    cases isLiteral

theorem binary {op : BinaryOp} (left : PreservesType table l l') (right : PreservesType table r r') :
    PreservesType table (.binary op l r s) (.binary op l' r' s) := by
  rintro (_ | _ | ⟨node, insideLeft, insideRight⟩)
  have keptLeft := left insideLeft
  have keptRight := right insideRight
  have untypable : isUntypable (.binary op l r s) → isUntypable (.binary op l' r' s) := by
    rw [isUntypable_binary, isUntypable_binary, Bool.and_eq_true, Bool.and_eq_true,
      Bool.or_eq_true, Bool.or_eq_true]
    exact fun untypable => ⟨untypable.1, untypable.2.imp keptLeft.lost keptRight.lost⟩
  have inferred : ∀ t, inferTy? (.binary op l r s) = some t →
      inferTy? (.binary op l' r' s) = some t ∨ isUntypable (.binary op l' r' s) := by
    intro t typed
    cases isPredicate : op.isPredicate with
    | true =>
      rw [inferTy?_predicate isPredicate] at typed ⊢
      exact .inl typed
    | false =>
      rw [inferTy?_binary isPredicate, binaryPromotedTy?_eq] at typed ⊢
      rw [isUntypable_binary, isPredicate, Bool.not_false, Bool.true_and, Bool.or_eq_true]
      obtain ⟨tl, leftTy, typed⟩ := Option.bind_eq_some_iff.mp typed
      obtain ⟨tr, rightTy, promoted⟩ := Option.bind_eq_some_iff.mp typed
      rcases keptLeft.operandTy tl leftTy with leftTy | lost
      · rcases keptRight.operandTy tr rightTy with rightTy | lost
        · rw [leftTy, rightTy]
          exact .inl promoted
        · exact .inr (.inr lost)
      · exact .inr (.inl lost)
  refine ⟨.binary ?_ keptLeft.consistent keptRight.consistent,
    operandTy_of_inferred rfl inferred, ?_, ?_, ?_⟩
  · intro t typed
    exact (node t typed).elim (inferred t) (.inr ∘ untypable)
  · rw [isLost_iff, isLost_iff]
    exact fun lost => ⟨lost.1, untypable lost.2⟩
  · intro isRead
    cases isRead
  · intro isLiteral
    cases isLiteral

theorem congruence : Congruence (PreservesType table) where
  refl := refl
  trans := trans
  unary := unary
  binary := binary
  call {name args args' s} related := by
    rintro (_ | _ | _ | _ | ⟨_, each⟩)
    refine ⟨?_, ?_, ?_, ?_, ?_⟩
    · exact .call trivial
        (forall_of_forall₂ related (fun _ _ preserves inside => (preserves inside).consistent) each)
    · intro t typed
      simp only [operandTy?, inferTy?] at typed ⊢
      exact .inl typed
    · intro lost
      simp [isLost, isUntypable] at lost
    · intro isRead
      cases isRead
    · intro isLiteral
      cases isLiteral

end PreservesType

/-- An operator gives way to an expression of its type, which takes over its casts. -/
theorem KeepsType.ofReplacement (consistent : y.Everywhere (IsConsistent table))
    (typed : e.casts = [] → ∀ t, e.operandTy? = some t → y.operandTy? = some t ∨ y.isLost)
    (lost : e.isLost → y.isLost) (notRead : e.isRead = false) (notLiteral : e.isLiteral = false) :
    KeepsType table e (y.addCasts e.casts) := by
  refine ⟨consistent_withCasts _ consistent, ?_, ?_, ?_, ?_⟩
  · intro t known
    cases casts : e.casts with
    | nil =>
      rw [addCasts_nil]
      exact typed casts t known
    | cons cast rest =>
      have whole : e.resultTy = some (castsTo cast.target rest) := Static.resultTy_of_casts casts
      have after : (y.addCasts (cast :: rest)).resultTy = some (castsTo cast.target rest) := by
        rw [resultTy_addCasts, Static.resultTy_of_casts rfl]
      rw [operandTy?_of_resultTy whole] at known
      exact .inl ((operandTy?_of_resultTy after).trans known)
  · intro isLost
    have bare : e.casts = [] := by
      cases casts : e.casts with
      | nil => rfl
      | cons cast rest =>
        have typed := Static.resultTy_of_casts casts
        rw [← resultTy, (isLost_iff.mp isLost).1] at typed
        cases typed
    rw [bare, addCasts_nil]
    exact lost isLost
  · intro isRead
    rw [notRead] at isRead
    cases isRead
  · intro isLiteral
    rw [notLiteral] at isLiteral
    cases isLiteral

/-- The type of a consistent operator without casts is the one that is inferred, unless its
operands have lost theirs. -/
theorem inferTy?_of_operandTy? (typed : e.operandTy? = some t) (bare : e.casts = [])
    (node : ∀ t, e.ty = some t → e.inferTy? = some t ∨ e.isUntypable) :
    e.inferTy? = some t ∨ e.isUntypable := by
  have whole := resultTy_of_bare bare
  cases known : e.ty with
  | some u =>
    rw [operandTy?_of_resultTy (whole.trans known)] at typed
    exact node t (known.trans typed)
  | none =>
    rw [operandTy?_of_untyped (whole.trans known)] at typed
    exact .inl typed

/-- The operand that remains of a double operator has the type of the whole. -/
theorem PreservesType.cancelDouble {op : UnaryOp} {inner : Static} (noStep : op.isStep = false)
    (bare : inner.casts = []) :
    PreservesType table (.unary op (.unary op x inner) s)
      ((promotedOperand .all op x).addCasts s.casts) := by
  rintro (_ | ⟨node, _ | ⟨innerNode, inside⟩⟩)
  have untouched (lost : x.isLost) : (promotedOperand .all op x).isLost := by
    rw [promotedOperand, unaryTarget?, noStep, unaryPromotedTy?, operandTy?_of_isLost lost]
    exact lost
  have ofInner (untypable : isUntypable (.unary op x inner)) :
      (promotedOperand .all op x).isLost := by
    rw [isUntypable_unary noStep] at untypable
    exact untouched untypable
  have ofOuter (untypable : isUntypable (.unary op (.unary op x inner) s)) :
      (promotedOperand .all op x).isLost := by
    rw [isUntypable_unary noStep, isLost_iff] at untypable
    exact ofInner untypable.2
  refine KeepsType.ofReplacement ?_ ?_ ?_ rfl rfl
  · rw [promotedOperand]
    split
    · rw [castTo_eq]
      exact consistent_withCasts _ inside
    · exact inside
  · intro bareOuter t typed
    rcases inferTy?_of_operandTy? typed bareOuter node with inferred | untypable
    · rw [inferTy?_unary] at inferred
      obtain ⟨u, innerTyped, promoted⟩ := Option.bind_eq_some_iff.mp inferred
      rcases inferTy?_of_operandTy? innerTyped bare innerNode with inferred | untypable
      · have target : unaryTarget? op x = some u := by
          rw [inferTy?_unary] at inferred
          exact unaryTarget?_eq_some.mpr ⟨noStep, inferred⟩
        rw [inferTy?_unary] at inferred
        obtain ⟨v, -, again⟩ := Option.bind_eq_some_iff.mp inferred
        -- The inner operator computes in its own type, and so the outer one does too.
        rw [(UnaryOp.promotedTy?_idem noStep again).2] at promoted
        rw [promotedOperand, target]
        exact .inl (operandTy?_castTo.trans promoted)
      · exact .inr (ofInner untypable)
    · exact .inr (ofOuter untypable)
  · intro lost
    exact ofOuter (isLost_iff.mp lost).2

end Expr

open ConstFold.Expr

/-- The operand of a law survives only in a primitive type, and that of a predicate is
`boolean`. -/
theorem Pass.survivor?_ty {op : BinaryOp} {left right : Ty} {v : Value} {side kept : Side}
    {other : Expr} (survives : survivor? op t v side other = some kept)
    (promoted : op.promotedTy? left right = some t) :
    op.isShift = false ∧ t.isPrimitive ∧ (op.isPredicate → t = Ty.boolean) := by
  have ofIntegral (integral : t.isIntegral) : t.isPrimitive := by
    cases t <;> first | rfl | cases integral
  cases op with
  | and | or =>
    obtain ⟨-, same⟩ := Option.ite_none_right_eq_some.mp promoted
    cases same
    exact ⟨rfl, rfl, fun _ => rfl⟩
  | eq =>
    cases v with
    | bool b =>
      obtain ⟨law, -⟩ := Option.ite_none_right_eq_some.mp survives
      rw [Bool.and_eq_true, decide_eq_true_iff] at law
      obtain ⟨-, rfl⟩ := law
      exact ⟨rfl, rfl, fun _ => rfl⟩
    | _ => cases survives
  | mul | div | minus =>
    exact ⟨rfl, (Ty.isBoolean_binaryNumeric? promoted).1, fun impossible => by cases impossible⟩
  | plus =>
    obtain ⟨law, -⟩ := Option.ite_none_right_eq_some.mp survives
    rw [Bool.and_eq_true] at law
    exact ⟨rfl, ofIntegral law.1, fun impossible => by cases impossible⟩
  | _ => cases survives

/-- A law applies to operands whose types are known. -/
theorem Pass.survivingSide?_eq_some {op : BinaryOp} {side : Side}
    (survives : survivingSide? op l r = some side) :
    ∃ t left right, l.operandTy? = some left ∧ r.operandTy? = some right ∧
      op.promotedTy? left right = some t ∧ op.isShift = false ∧ t.isPrimitive ∧
        (op.isPredicate → t = Ty.boolean) := by
  obtain ⟨t, promoted, survives⟩ := Option.bind_eq_some_iff.mp survives
  rw [binaryPromotedTy?_eq] at promoted
  obtain ⟨left, leftTyped, promoted⟩ := Option.bind_eq_some_iff.mp promoted
  obtain ⟨right, rightTyped, promoted⟩ := Option.bind_eq_some_iff.mp promoted
  refine ⟨t, left, right, leftTyped, rightTyped, promoted, ?_⟩
  rcases Option.or_eq_some_iff.mp survives with survives | ⟨-, survives⟩
  · obtain ⟨v, -, survives⟩ := Option.bind_eq_some_iff.mp survives
    exact survivor?_ty survives promoted
  · obtain ⟨v, -, survives⟩ := Option.bind_eq_some_iff.mp survives
    exact survivor?_ty survives promoted

/-- The operands of the promoted form of an operator to which a law applies have the type in which
the operator computes, and so has the operator itself. -/
theorem Pass.promoted_of_survives {op : BinaryOp} {left right : Expr} {side : Side}
    (retypesLeft : left.operandTy? = (promotedOperands .all op l r).1.operandTy?)
    (retypesRight : right.operandTy? = (promotedOperands .all op l r).2.operandTy?)
    (survives : survivingSide? op left right = some side) :
    ∃ t, left.operandTy? = some t ∧ right.operandTy? = some t ∧
      inferTy? (.binary op l r s) = some t := by
  obtain ⟨t, tl, tr, leftTyped, rightTyped, promoted, noShift, isPrimitive, predicate⟩ :=
    survivingSide?_eq_some survives
  rw [leftTyped] at retypesLeft
  rw [rightTyped] at retypesRight
  cases targets : binaryTargets? op l r with
  | none =>
    -- Operands that are not promoted have no common primitive type.
    simp only [promotedOperands, targets] at retypesLeft retypesRight
    rw [binaryTargets?_eq, ← retypesLeft, ← retypesRight, Option.bind_some, Option.bind_some,
      (BinaryOp.targets?_eq_some noShift).mpr ⟨⟨promoted, isPrimitive⟩, rfl⟩] at targets
    cases targets
  | some pair =>
    obtain ⟨a, b⟩ := pair
    simp only [promotedOperands, targets, Operands.selects, if_true, operandTy?_castTo,
      Option.some.injEq] at retypesLeft retypesRight
    subst retypesLeft retypesRight
    rw [binaryTargets?_eq] at targets
    obtain ⟨ul, leftOperand, targets⟩ := Option.bind_eq_some_iff.mp targets
    obtain ⟨ur, rightOperand, targets⟩ := Option.bind_eq_some_iff.mp targets
    obtain ⟨⟨before, beforePrimitive⟩, rfl⟩ := (BinaryOp.targets?_eq_some noShift).mp targets
    rw [(BinaryOp.promotedTy?_idem noShift before beforePrimitive).2.2] at promoted
    cases promoted
    refine ⟨_, leftTyped, rightTyped, ?_⟩
    cases isPredicate : op.isPredicate with
    | true => rw [inferTy?_predicate isPredicate, predicate isPredicate]
    | false =>
      rw [inferTy?_binary isPredicate, binaryPromotedTy?_eq, leftOperand, rightOperand]
      exact before

namespace Pass

/-- The operand that remains by a law has the type of the whole. -/
theorem preserves_survivor {op : BinaryOp} (survives : survivingOperand? op l r = .ok (some y)) :
    PreservesType table (.binary op l r s) (y.addCasts s.casts) := by
  obtain ⟨left, right, side, leftVisited, rightVisited, law, rfl⟩ :=
    survivingOperand?_eq_some survives
  have retypesLeft : Retypes table _ left := retypes_visit leftVisited
  have retypesRight : Retypes table _ right := retypes_visit rightVisited
  obtain ⟨t, leftTyped, rightTyped, inferred⟩ :=
    promoted_of_survives (s := s) retypesLeft.operandTy retypesRight.operandTy law
  have typable : (Expr.binary op l r s).isUntypable = false := by
    cases untypable : (Expr.binary op l r s).isUntypable with
    | false => rfl
    | true =>
      rw [inferTy?_of_isUntypable _ untypable] at inferred
      cases inferred
  intro consistent
  refine KeepsType.ofReplacement ?_ ?_ ?_ rfl rfl
  · cases (promotedOperands_retypes .all op).consistent consistent with
    | binary _ insideLeft insideRight =>
      cases side with
      | left => exact retypesLeft.consistent insideLeft
      | right => exact retypesRight.consistent insideRight
  · intro bare u known
    have typed : (side.operand left right).operandTy? = some t := by
      cases side <;> assumption
    rcases inferTy?_of_operandTy? known bare consistent.here with same | untypable
    · exact .inl (typed.trans (inferred.symm.trans same))
    · rw [typable] at untypable
      cases untypable
  · intro lost
    rw [isLost_iff, typable] at lost
    cases lost.2

theorem preserves_reduceIdentities : reduceIdentities.Within (PreservesType table) := by
  refine Within.ofLeave PreservesType.refl rfl rfl fun e e' left => ?_
  rcases reduceIdentities_ok left with ⟨rfl, -⟩ | ⟨op, l, r, s, y, rfl, survives, rfl⟩
  · exact .refl _
  · exact (preserves_survivor survives).trans (.ofRetypes (.applyCasts _))

/-- The literal that takes the place of an operator has its type. -/
theorem operandTy?_of_folded {w : Value} (folded : foldedValue? e = .ok (some (w, t)))
    (operator : (∃ op x s, e = .unary op x s) ∨ ∃ op l r s, e = .binary op l r s)
    (bare : e.casts = []) {u : Ty} (known : e.operandTy? = some u) : t = u := by
  obtain ⟨promoted, visited, typed⟩ := foldedValue?_ty folded
  have whole := resultTy_of_bare bare
  cases own : e.ty with
  | some v =>
    rw [operandTy?_of_resultTy (whole.trans own)] at known
    rw [own, Option.some_or] at typed
    exact Option.some.inj (typed.symm.trans known)
  | none =>
    have retypes : Retypes {} e promoted := retypes_visit visited
    have untyped : promoted.resultTy = none := by
      rw [resultTy, static_visit_promoteOperands operator visited]
      exact whole.trans own
    rw [own, Option.none_or, ← operandTy?_of_untyped untyped, retypes.operandTy] at typed
    exact Option.some.inj (typed.symm.trans known)

theorem preserves_evaluateLiterals : evaluateLiterals.Within (PreservesType table) := by
  refine Within.ofLeave PreservesType.refl rfl rfl fun e e' left => ?_
  rcases evaluateLiterals_ok left with ⟨rfl, -⟩ | ⟨foldable, w, t, folded, rfl⟩
  · exact .refl _
  have operator : (∃ op x s, e = .unary op x s) ∨ ∃ op l r s, e = .binary op l r s := by
    rcases foldable_cases foldable with ⟨op, a, sa, s, rfl, -⟩ | ⟨op, a, sa, b, sb, s, rfl⟩
    · exact .inl ⟨op, _, s, rfl⟩
    · exact .inr ⟨op, _, _, s, rfl⟩
  have typable : e.isUntypable = false := by
    rcases foldable_cases foldable with ⟨op, a, sa, s, rfl, noStep⟩ | ⟨op, a, sa, b, sb, s, rfl⟩
    · simp [isUntypable, noStep]
    · simp [isUntypable]
  have applied : PreservesType table (.literal w ⟨some t, e.casts⟩)
      (Expr.castLiteral w (some t) e.casts) := .ofRetypes .castLiteral
  refine PreservesType.trans ?_ applied
  intro _
  refine KeepsType.ofReplacement (y := .literal w ⟨some t, []⟩) (.literal trivial) ?_ ?_ ?_ ?_
  · intro bare u known
    rw [operandTy?_literal]
    exact .inl (congrArg some (operandTy?_of_folded folded operator bare known))
  · intro lost
    rw [isLost_iff, typable] at lost
    cases lost.2
  · rcases operator with ⟨op, x, s, rfl⟩ | ⟨op, l, r, s, rfl⟩ <;> rfl
  · rcases operator with ⟨op, x, s, rfl⟩ | ⟨op, l, r, s, rfl⟩ <;> rfl

theorem preserves_cancelDouble : cancelDouble.Within (PreservesType table) := by
  refine Within.ofLeave PreservesType.refl rfl rfl fun e e' left => ?_
  rcases cancelDouble_ok left with ⟨rfl, -⟩ | ⟨op, x, t, s, negation, bare, rfl, rfl⟩
  · exact .refl _
  · have noStep : op.isStep = false := by
      rcases negation with rfl | rfl <;> rfl
    exact PreservesType.cancelDouble noStep bare

theorem preserves_inlineReads (inlineLocals : Bool) :
    (inlineReads table inlineLocals).Within (PreservesType table) := by
  refine Within.ofLeave PreservesType.refl rfl rfl fun e e' left => ?_
  rcases inlineReads_ok left with ⟨rfl, -⟩ | ⟨id, name, s, decl, constant, rfl, resolved, found, rfl⟩
  · exact .refl _
  obtain ⟨v, s', rfl, declared⟩ := Declaration.constant?_eq_some found
  rintro (_ | _ | _ | ⟨node⟩)
  have typed : s.ty = some decl.ty := node decl resolved
  have before : (Expr.read id name s).resultTy = some (castsTo decl.ty s.casts) :=
    Static.resultTy_of_typed typed
  have after : ((Expr.literal v s').addCasts s.casts).resultTy =
      some (castsTo decl.ty s.casts) := by
    rw [resultTy_addCasts]
    exact Static.resultTy_of_typed declared
  refine ⟨.literal trivial, ?_, ?_, fun _ => .inr rfl, ?_⟩
  · intro t known
    rw [operandTy?_of_resultTy before] at known
    exact .inl ((operandTy?_of_resultTy after).trans known)
  · intro lost
    rw [isLost_read rfl] at lost
    cases lost
  · intro isLiteral
    cases isLiteral

/-- Every pass but absorption preserves types. -/
theorem preserves_pass {kind : PassKind} (noAbsorption : kind ≠ .absorption) (inlineLocals : Bool) :
    (kind.pass table inlineLocals).Within (PreservesType table) := by
  have ofRetypes {pass : Pass} (retypes : pass.Within (Retypes table)) :
      pass.Within (PreservesType table) :=
    ⟨fun e => .ofRetypes (retypes.enter e), fun e e' left => .ofRetypes (retypes.leave e e' left)⟩
  cases kind with
  | absorption => contradiction
  | applyCasts => exact ofRetypes (retypes_applyCasts _)
  | promotion => exact ofRetypes (retypes_promotion _ _)
  | inferTypes => exact ofRetypes retypes_inferTypes
  | evaluateLiterals => exact preserves_evaluateLiterals
  | reduceIdentities => exact preserves_reduceIdentities
  | cancelDouble => exact preserves_cancelDouble
  | inlineReads => exact preserves_inlineReads inlineLocals
  | removeRedundantCasts => exact ofRetypes retypes_removeRedundantCasts

end Pass

/-- A read has its declared type, and an operator none or the one that is inferred from its
operands. -/
def Expr.IsWellTyped (table : DeclTable) (e : Expr) : Prop :=
  match e with
  | unary _ _ _ | binary _ _ _ _ => e.ty = none ∨ e.ty = e.inferTy?
  | read id _ s => ∀ decl, table.get? id = some decl → s.ty = some decl.ty
  | literal _ _ | call _ _ _ | typeRef _ _ => True

theorem Expr.IsWellTyped.isConsistent (typed : e.IsWellTyped table) : e.IsConsistent table := by
  have operator (typed : e.ty = none ∨ e.ty = e.inferTy?) :
      ∀ t, e.ty = some t → e.inferTy? = some t ∨ e.isUntypable := by
    intro t known
    rcases typed with untyped | inferred
    · rw [untyped] at known
      cases known
    · exact .inl (inferred.symm.trans known)
  cases e with
  | unary | binary => exact operator typed
  | literal | read | call | typeRef => exact typed

/-- Folding keeps the type of an expression: it has no other one afterwards. It has none only if
an incremented variable in it has been replaced. -/
theorem chain_preserves_type (kinds : List PassKind) (lawful : .absorption ∉ kinds)
    (table : DeclTable) (inlineLocals : Bool) {e e' : Expr} {t : Ty}
    (wellTyped : e.Everywhere (IsWellTyped table)) (typed : e.resultTy = some t)
    (visited : (Pass.chain (kinds.map fun kind => kind.pass table inlineLocals)).visit e = .ok e') :
    (∀ t', e'.resultTy = some t' → t' = t) ∧ (e'.operandTy? = some t ∨ e'.isLost) := by
  have within : (Pass.chain (kinds.map fun kind => kind.pass table inlineLocals)).Within
      (PreservesType table) := by
    apply Pass.Within.chain PreservesType.congruence
    intro pass member
    obtain ⟨kind, listed, rfl⟩ := List.mem_map.mp member
    apply Pass.preserves_pass
    intro same
    exact lawful (same ▸ listed)
  have consistent := wellTyped.mono fun _ => IsWellTyped.isConsistent
  have kept := within.visit PreservesType.congruence visited consistent
  have outcome := kept.operandTy t (operandTy?_of_resultTy typed)
  refine ⟨?_, outcome⟩
  intro t' after
  rcases outcome with same | lost
  · rw [operandTy?_of_resultTy after] at same
    exact Option.some.inj same
  · rw [(isLost_iff.mp lost).1] at after
    cases after

namespace BoxedSample

/-- A constant `k` of type `Integer`, and a parameter `n` of type `int`. -/
def declarations : DeclTable :=
  ⟨[{ name := .ofIndex 0, ty := .boxed .int, kind := .field true, isFinal := true,
      initializer := some (.literal (.int 5) ⟨some .int, []⟩) },
    { name := .ofIndex 1, ty := .int, kind := .parameter }]⟩

/-- The expression `k * 1L + -(-(Integer) n)`, where only the sum and the outer negation have a
type. -/
def expr : Expr :=
  .binary .plus
    (.binary .mul (.read ⟨0⟩ (.ofIndex 0) ⟨some (.boxed .int), []⟩)
      (.literal (.long 1) ⟨some (.primitive .long), []⟩) {})
    (.unary .neg (.unary .neg (.read ⟨1⟩ (.ofIndex 1) ⟨some .int, [Cast.toExplicit (.boxed .int)]⟩) {})
      ⟨some .int, []⟩) ⟨some (.primitive .long), []⟩

theorem wellTyped : expr.Everywhere (IsWellTyped declarations) := by
  refine .binary (.inr rfl) (.binary (.inl rfl) (.read ?_) (.literal trivial))
    (.unary (.inr rfl) (.unary (.inl rfl) (.read ?_)))
  · intro decl declared
    cases declared
    rfl
  · intro decl declared
    cases declared
    rfl

end BoxedSample

theorem chain_preserves_type_boxed :
    ∃ e', (Pass.chain (PassKind.standard.map fun kind => kind.pass BoxedSample.declarations true)).visit
        BoxedSample.expr = .ok e' ∧ e' ≠ BoxedSample.expr ∧
      ∀ t, e'.resultTy = some t → t = .primitive .long := by
  refine ⟨_, rfl, ?_, ?_⟩
  · intro same
    cases same
  · exact (chain_preserves_type PassKind.standard (by decide) BoxedSample.declarations true
      BoxedSample.wellTyped rfl rfl).1

end ConstFold
