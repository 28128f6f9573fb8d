import ConstFold.Declaration
import ConstFold.Proofs.Steps

/-! Passes that change no operator: those that infer types, promote operands, and carry out or
remove casts. The type of every operand stays what it is. -/
namespace ConstFold

variable {e e' x y l l' r r' : Expr} {s : Static} {t : Ty}

namespace Expr

/-- The operands rule out that a type is inferred, now and after further passes: a literal is
incremented, or an operand without a type is itself of this kind. -/
def isUntypable : Expr → Bool
  | unary op x _ => if op.isStep then x.isLiteral else x.resultTy.isNone && x.isUntypable
  | binary op l r _ =>
    !op.isPredicate &&
      (l.resultTy.isNone && l.isUntypable || r.resultTy.isNone && r.isUntypable)
  | _ => false

/-- The expression has no type and will have none. -/
def isLost (e : Expr) : Bool := e.resultTy.isNone && e.isUntypable

theorem isLost_iff : e.isLost ↔ e.resultTy = none ∧ e.isUntypable := by
  rw [isLost, Bool.and_eq_true, Option.isNone_iff_eq_none]

@[simp] theorem isUntypable_withCasts (casts : List Cast) :
    (e.withCasts casts).isUntypable = e.isUntypable := by
  cases e <;> simp only [withCasts, withStatic, isUntypable]

theorem isUntypable_step {op : UnaryOp} (isStep : op.isStep) :
    isUntypable (.unary op x s) = x.isLiteral := by
  rw [isUntypable, if_pos isStep]

theorem isUntypable_unary {op : UnaryOp} (noStep : op.isStep = false) :
    isUntypable (.unary op x s) = x.isLost := by
  rw [isUntypable, noStep]
  rfl

theorem isUntypable_binary {op : BinaryOp} :
    isUntypable (.binary op l r s) = (!op.isPredicate && (l.isLost || r.isLost)) := by
  rw [isUntypable]
  rfl

theorem not_isUntypable_literal {v : Value} : ¬isUntypable (.literal v s) := by
  simp [isUntypable]

theorem isRead_of_isLiteral (isLiteral : e.isLiteral) : e.isRead = false := by
  cases e <;> first | rfl | cases isLiteral

theorem inferTy?_of_isUntypable : ∀ e : Expr, e.isUntypable → e.inferTy? = none
  | .unary op x s, untypable => by
    rw [inferTy?_unary]
    cases isStep : op.isStep with
    | true =>
      rw [isUntypable_step isStep] at untypable
      rw [isRead_of_isLiteral untypable, Option.bind_eq_none_iff]
      intro t _
      exact UnaryOp.promotedTy?_step isStep
    | false =>
      rw [isUntypable_unary isStep, isLost_iff] at untypable
      rw [operandTy?_of_untyped untypable.1, inferTy?_of_isUntypable x untypable.2, Option.bind_none]
  | .binary op l r s, untypable => by
    rw [isUntypable_binary, Bool.and_eq_true, Bool.not_eq_true', Bool.or_eq_true, isLost_iff,
      isLost_iff] at untypable
    obtain ⟨noPredicate, ⟨untyped, left⟩ | ⟨untyped, right⟩⟩ := untypable
    · rw [inferTy?_binary noPredicate, binaryPromotedTy?_eq, operandTy?_of_untyped untyped,
        inferTy?_of_isUntypable l left, Option.bind_none]
    · rw [inferTy?_binary noPredicate, binaryPromotedTy?_eq, operandTy?_of_untyped untyped,
        inferTy?_of_isUntypable r right]
      cases l.operandTy? <;> rfl

theorem operandTy?_of_isLost (lost : e.isLost) : e.operandTy? = none := by
  obtain ⟨untyped, untypable⟩ := isLost_iff.mp lost
  rw [operandTy?_of_untyped untyped, inferTy?_of_isUntypable e untypable]

theorem not_isLost_of_operandTy? (typed : e.operandTy? = some t) : e.isLost = false := by
  cases lost : e.isLost with
  | false => rfl
  | true => rw [operandTy?_of_isLost lost] at typed; cases typed

/-- A read has its declared type. An operator has no type, the one that is inferred, or one that
was inferred before its operands lost theirs. -/
def IsConsistent (table : DeclTable) (e : Expr) : Prop :=
  match e with
  | unary _ _ _ | binary _ _ _ _ => ∀ t, e.ty = some t → e.inferTy? = some t ∨ e.isUntypable
  | read id _ s => ∀ decl, table.get? id = some decl → s.ty = some decl.ty
  | literal _ _ | call _ _ _ | typeRef _ _ => True

theorem isConsistent_withCasts {table : DeclTable} {e : Expr} (casts : List Cast)
    (node : e.IsConsistent table) : (e.withCasts casts).IsConsistent table := by
  have operator (node : ∀ t, e.ty = some t → e.inferTy? = some t ∨ e.isUntypable) :
      ∀ t, (e.withCasts casts).ty = some t →
        (e.withCasts casts).inferTy? = some t ∨ (e.withCasts casts).isUntypable := by
    rwa [ty_withCasts, inferTy?_withCasts, isUntypable_withCasts]
  cases e with
  | unary | binary => exact operator node
  | literal | read | call | typeRef => exact node

theorem consistent_withCasts {table : DeclTable} (casts : List Cast)
    (consistent : e.Everywhere (IsConsistent table)) :
    (e.withCasts casts).Everywhere (IsConsistent table) :=
  consistent.withCasts casts (isConsistent_withCasts casts)

/-- The second expression has the types of the first, and the same hold on them. -/
structure Retypes (table : DeclTable) (e e' : Expr) : Prop where
  operandTy : e'.operandTy? = e.operandTy?
  isRead : e'.isRead = e.isRead
  isLiteral : e'.isLiteral = e.isLiteral
  lost : e.isLost → e'.isLost
  consistent : e.Everywhere (IsConsistent table) → e'.Everywhere (IsConsistent table)

namespace Retypes

variable {table : DeclTable}

theorem refl (e : Expr) : Retypes table e e := ⟨rfl, rfl, rfl, id, id⟩

theorem trans {e'' : Expr} (first : Retypes table e e') (second : Retypes table e' e'') :
    Retypes table e e'' where
  operandTy := second.operandTy.trans first.operandTy
  isRead := second.isRead.trans first.isRead
  isLiteral := second.isLiteral.trans first.isLiteral
  lost := second.lost ∘ first.lost
  consistent := second.consistent ∘ first.consistent

/-- An operator with operands from which the same type is inferred. -/
theorem ofOperand {op : UnaryOp} (inferred : inferTy? (.unary op y s) = inferTy? (.unary op x s))
    (untypable : isUntypable (.unary op x s) → isUntypable (.unary op y s))
    (operand : x.Everywhere (IsConsistent table) → y.Everywhere (IsConsistent table)) :
    Retypes table (.unary op x s) (.unary op y s) where
  operandTy := by rw [operandTy?, operandTy?, inferred]; rfl
  isRead := rfl
  isLiteral := rfl
  lost := by
    rw [isLost_iff, isLost_iff]
    exact fun lost => ⟨lost.1, untypable lost.2⟩
  consistent := by
    rintro (_ | ⟨node, inside⟩)
    refine .unary ?_ (operand inside)
    intro t typed
    exact (node t typed).imp inferred.trans untypable

theorem ofOperands {op : BinaryOp}
    (inferred : inferTy? (.binary op l' r' s) = inferTy? (.binary op l r s))
    (untypable : isUntypable (.binary op l r s) → isUntypable (.binary op l' r' s))
    (left : l.Everywhere (IsConsistent table) → l'.Everywhere (IsConsistent table))
    (right : r.Everywhere (IsConsistent table) → r'.Everywhere (IsConsistent table)) :
    Retypes table (.binary op l r s) (.binary op l' r' s) where
  operandTy := by rw [operandTy?, operandTy?, inferred]; rfl
  isRead := rfl
  isLiteral := rfl
  lost := by
    rw [isLost_iff, isLost_iff]
    exact fun lost => ⟨lost.1, untypable lost.2⟩
  consistent := by
    rintro (_ | _ | ⟨node, insideLeft, insideRight⟩)
    refine .binary ?_ (left insideLeft) (right insideRight)
    intro t typed
    exact (node t typed).imp inferred.trans untypable

theorem congruence : Congruence (Retypes table) where
  refl := refl
  trans := trans
  unary {op x y s} operand := by
    refine ofOperand ?_ ?_ operand.consistent
    · rw [inferTy?_unary, inferTy?_unary, operand.operandTy, operand.isRead]
    · intro untypable
      cases isStep : op.isStep with
      | true =>
        rw [isUntypable_step isStep] at untypable ⊢
        exact operand.isLiteral.trans untypable
      | false =>
        rw [isUntypable_unary isStep] at untypable ⊢
        exact operand.lost untypable
  binary {op l l' r r' s} left right := by
    refine ofOperands ?_ ?_ left.consistent right.consistent
    · rw [inferTy?, inferTy?]
      change (if _ then _ else binaryPromotedTy? op l' r') = if _ then _ else binaryPromotedTy? op l r
      rw [binaryPromotedTy?, binaryPromotedTy?, left.operandTy, right.operandTy]
    · rw [isUntypable_binary, isUntypable_binary, Bool.and_eq_true, Bool.and_eq_true,
        Bool.or_eq_true, Bool.or_eq_true]
      exact fun untypable => ⟨untypable.1, untypable.2.imp left.lost right.lost⟩
  call related :=
    { operandTy := by simp only [operandTy?, inferTy?]; rfl
      isRead := rfl
      isLiteral := rfl
      lost := fun lost => by simp [isLost, isUntypable] at lost
      consistent := by
        rintro (_ | _ | _ | _ | ⟨_, args⟩)
        exact .call trivial (forall_of_forall₂ related (fun _ _ => Retypes.consistent) args) }

/-- Casts around the whole that lead to the same type. -/
theorem withCasts {casts : List Cast} (same : Static.resultTy ⟨e.ty, casts⟩ = e.resultTy) :
    Retypes table e (e.withCasts casts) where
  operandTy := by rw [operandTy?, operandTy?, resultTy_withCasts, same, inferTy?_withCasts]
  isRead := isRead_withCasts e casts
  isLiteral := isLiteral_withCasts e casts
  lost := by rw [isLost, isLost, resultTy_withCasts, same, isUntypable_withCasts]; exact id
  consistent := consistent_withCasts casts

/-- A literal in the place of a literal of the same type. -/
theorem literal {v w : Value} {s' : Static} (same : s'.resultTy = s.resultTy) :
    Retypes table (.literal v s) (.literal w s') where
  operandTy := by rw [operandTy?_literal, operandTy?_literal, same]
  isRead := rfl
  isLiteral := rfl
  lost := fun lost => absurd (isLost_iff.mp lost).2 not_isUntypable_literal
  consistent := fun _ => .literal trivial

/-- An operator without a type may be given the inferred one. -/
theorem withInferredTy (untyped : e.ty = none)
    (operator : (∃ op x s, e = .unary op x s) ∨ ∃ op l r s, e = .binary op l r s) :
    Retypes table e (e.withTy e.inferTy?) := by
  have inferred : (e.withTy e.inferTy?).inferTy? = e.inferTy? := by
    rcases operator with ⟨op, x, s, rfl⟩ | ⟨op, l, r, s, rfl⟩
    · simp only [withTy, withStatic, inferTy?_unary]
    · simp only [withTy, withStatic, inferTy?]
  have resultTy : (e.withTy e.inferTy?).resultTy = Static.resultTy ⟨e.inferTy?, e.casts⟩ := by
    rw [withTy, Expr.resultTy, static_withStatic]
  have former : e.resultTy = Static.resultTy ⟨none, e.casts⟩ := by
    rw [← untyped]
    rfl
  refine ⟨?_, ?_, ?_, ?_, ?_⟩
  · rw [operandTy?, operandTy?, inferred, resultTy, former]
    cases e.casts with
    | nil =>
      rw [Static.resultTy_bare, Static.resultTy_bare, Option.none_or]
      cases e.inferTy? <;> rfl
    | cons cast rest => rw [Static.resultTy_of_casts rfl, Static.resultTy_of_casts rfl]
  · rcases operator with ⟨op, x, s, rfl⟩ | ⟨op, l, r, s, rfl⟩ <;> rfl
  · rcases operator with ⟨op, x, s, rfl⟩ | ⟨op, l, r, s, rfl⟩ <;> rfl
  · intro lost
    -- Nothing is inferred for a lost operator, so it stays as it is.
    have nothing := inferTy?_of_isUntypable e (isLost_iff.mp lost).2
    have same : e.withTy none = e := by
      rcases operator with ⟨op, x, s, rfl⟩ | ⟨op, l, r, s, rfl⟩
      all_goals
        obtain ⟨ty, casts⟩ := s
        cases untyped
        rfl
    rwa [nothing, same]
  · intro consistent
    rcases operator with ⟨op, x, s, rfl⟩ | ⟨op, l, r, s, rfl⟩
    · cases consistent with
      | unary _ operand => exact .unary (fun t typed => .inl (inferred.trans typed)) operand
    · cases consistent with
      | binary _ left right => exact .binary (fun t typed => .inl (inferred.trans typed)) left right

/-- The casts of a literal may be carried out. -/
theorem castLiteral {v : Value} : Retypes table (.literal v s) (Expr.castLiteral v s.ty s.casts) := by
  obtain ⟨w, s', literal_, same⟩ := castLiteral_eq v s.ty s.casts
  rw [literal_]
  exact .literal same

theorem applyCasts (e : Expr) : Retypes table e e.applyCasts := by
  cases e with
  | literal v s => exact castLiteral
  | unary | binary | read | call | typeRef => exact refl _

end Retypes

theorem promotedOperand_retypes {table : DeclTable} (operands : Operands) (op : UnaryOp) :
    Retypes table (.unary op x s) (.unary op (promotedOperand operands op x) s) := by
  rw [promotedOperand]
  split
  · rename_i target promotes
    obtain ⟨noStep, promoted⟩ := unaryTarget?_eq_some.mp promotes
    split
    · apply Retypes.ofOperand
      · obtain ⟨u, typed, promoted⟩ := Option.bind_eq_some_iff.mp promoted
        rw [inferTy?_unary, inferTy?_unary, operandTy?_castTo, typed, Option.bind_some,
          Option.bind_some, promoted, (UnaryOp.promotedTy?_idem noStep promoted).2]
      · obtain ⟨u, typed, -⟩ := Option.bind_eq_some_iff.mp promoted
        rw [isUntypable_unary noStep, not_isLost_of_operandTy? typed]
        exact fun lost => absurd lost Bool.false_ne_true
      · rw [castTo_eq]
        exact consistent_withCasts _
    · exact .refl _
  · exact .refl _

theorem promotedOperands_retypes {table : DeclTable} (operands : Operands) (op : BinaryOp) :
    Retypes table (.binary op l r s)
      (.binary op (promotedOperands operands op l r).1 (promotedOperands operands op l r).2 s) := by
  rw [promotedOperands]
  split
  · rename_i a b promotes
    rw [binaryTargets?_eq] at promotes
    obtain ⟨left, leftTyped, promotes⟩ := Option.bind_eq_some_iff.mp promotes
    obtain ⟨right, rightTyped, targets⟩ := Option.bind_eq_some_iff.mp promotes
    refine Retypes.ofOperands ?_ ?_ (everywhere_select isConsistent_withCasts)
      (everywhere_select isConsistent_withCasts)
    · obtain ⟨left', leftTyped', sameLeft⟩ := operandTy?_select (u := a) leftTyped (operands.selects l)
      obtain ⟨right', rightTyped', sameRight⟩ :=
        operandTy?_select (u := b) rightTyped (operands.selects r)
      cases isPredicate : op.isPredicate with
      | true => rw [inferTy?_predicate isPredicate, inferTy?_predicate isPredicate]
      | false =>
        rw [inferTy?_binary isPredicate, inferTy?_binary isPredicate, binaryPromotedTy?_eq,
          binaryPromotedTy?_eq, leftTyped, rightTyped, leftTyped', rightTyped']
        exact (BinaryOp.targets?_idem targets sameLeft sameRight).2
    · rw [isUntypable_binary, not_isLost_of_operandTy? leftTyped,
        not_isLost_of_operandTy? rightTyped, Bool.or_self, Bool.and_false]
      exact fun lost => absurd lost Bool.false_ne_true
  · exact .refl _

end Expr

namespace Pass

open ConstFold.Expr

section Retyping

variable {table : DeclTable}

theorem retypes_promotion (binary unary : Operands) :
    (promotion binary unary).Within (Retypes table) where
  enter e := by
    cases e with
    | unary op x s =>
      rw [enter_promotion_unary]
      exact promotedOperand_retypes unary op
    | binary op l r s =>
      rw [enter_promotion_binary]
      exact promotedOperands_retypes binary op
    | literal | read | call | typeRef => exact .refl _
  leave e e' left := by
    cases left
    exact .refl e

theorem retypes_applyCasts (selects : Value → Bool) :
    (applyCasts selects).Within (Retypes table) := by
  refine Within.ofLeave Retypes.refl rfl rfl fun e e' left => ?_
  cases e with
  | literal v s =>
    cases left
    split
    · exact .castLiteral
    · exact .refl _
  | unary | binary | read | call | typeRef =>
    cases left
    exact .refl _

theorem retypes_inferTypes : inferTypes.Within (Retypes table) := by
  refine Within.ofLeave Retypes.refl rfl rfl fun e e' left => ?_
  rcases inferTypes_ok left with ⟨rfl, -⟩ | ⟨untyped, operator, rfl⟩
  · exact .refl _
  · exact .withInferredTy untyped operator

theorem retypes_removeRedundantCasts : removeRedundantCasts.Within (Retypes table) := by
  refine Within.ofLeave Retypes.refl rfl rfl fun e e' left => ?_
  simp only [removeRedundantCasts] at left
  split at left
  · cases left
    exact .refl _
  · cases left
    rw [removeRedundantCasts_eq]
    apply Retypes.withCasts
    rw [← resultTy_withCasts, ← removeRedundantCasts_eq, Expr.removeRedundantCasts, resultTy,
      static_withStatic, Static.resultTy_removeRedundantCasts]
    rfl

theorem retypes_promoteOperands (operands : Operands) :
    (promoteOperands operands).Within (Retypes table) := by
  apply Within.chain Retypes.congruence
  intro pass member
  simp only [List.mem_cons, List.not_mem_nil, or_false] at member
  rcases member with rfl | rfl
  · exact retypes_promotion operands operands
  · exact retypes_applyCasts _

theorem retypes_visit {operands : Operands} (visited : (promoteOperands operands).visit e = .ok e') :
    Retypes table e e' :=
  (retypes_promoteOperands operands).visit Retypes.congruence visited

end Retyping

end Pass

end ConstFold
