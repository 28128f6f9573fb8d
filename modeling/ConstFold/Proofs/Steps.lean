import ConstFold.Pass.Constant
import ConstFold.Pass.Identity
import ConstFold.Pass.Typing
import ConstFold.Proofs.PromotedForm

/-! What each pass makes of a node: the node stays as it is and the pass does not apply to it, or
the pass applies and something takes its place. -/
namespace ConstFold

open ConstFold.Expr

variable {e e' l r : Expr} {s : Static}

/-- The operand on the side. -/
def Side.operand (l r : Expr) : Side → Expr
  | left => l
  | right => r

/-- An operator other than a step with literals for operands. -/
def Expr.isFoldable : Expr → Bool
  | unary op (literal _ _) _ => !op.isStep
  | binary _ (literal _ _) (literal _ _) _ => true
  | _ => false

theorem Expr.foldable_cases (foldable : e.isFoldable) :
    (∃ op a sa s, e = unary op (literal a sa) s ∧ op.isStep = false) ∨
      ∃ op a sa b sb s, e = binary op (literal a sa) (literal b sb) s := by
  match e with
  | unary op (literal a sa) s => exact .inl ⟨op, a, sa, s, rfl, by simpa [isFoldable] using foldable⟩
  | binary op (literal a sa) (literal b sb) s => exact .inr ⟨op, a, sa, b, sb, s, rfl⟩

/-- The constant of a variable has its declared type. -/
theorem Declaration.constant?_eq_some {decl : Declaration} {inlineLocals : Bool} {constant : Expr}
    (found : decl.constant? inlineLocals = some constant) :
    ∃ v s, constant = .literal v s ∧ s.resultTy = some decl.ty := by
  rw [constant?] at found
  obtain ⟨-, found⟩ := Option.ite_none_right_eq_some.mp found
  obtain ⟨init, initialized, rfl⟩ := Option.map_eq_some_iff.mp found
  obtain ⟨-, isLiteral⟩ := Option.filter_eq_some_iff.mp initialized
  cases init with
  | literal v s =>
    obtain ⟨w, s', literal, -⟩ := castLiteral_eq v s.ty s.casts
    rw [applyCasts, literal]
    exact convertLiteral_eq w s' decl.ty
  | unary | binary | read | call | typeRef => cases isLiteral

namespace Expr

/-- The type of the operator is known, or cannot be inferred. -/
def IsInferred (e : Expr) : Prop := e.ty = none → e.inferTy? = none

/-- Two negations in a row, with no casts in between. -/
def isDouble : Expr → Bool
  | unary op (unary inner _ t) _ => (op = .neg || op = .not) && op = inner && t.casts.isEmpty
  | _ => false

end Expr

namespace Pass

/-- Inference keeps the node, or gives an untyped operator the type that is inferred. -/
theorem inferTypes_ok (inferred : inferTypes.step e = .ok e') :
    (e' = e ∧ e.IsInferred) ∨
      e.ty = none ∧ ((∃ op x s, e = .unary op x s) ∨ ∃ op l r s, e = .binary op l r s) ∧
        e' = e.withTy e.inferTy? := by
  cases e with
  | unary op x s =>
    obtain ⟨_ | t, casts⟩ := s
    · cases inferred
      exact .inr ⟨rfl, .inl ⟨op, x, _, rfl⟩, rfl⟩
    · cases inferred
      exact .inl ⟨rfl, nofun⟩
  | binary op l r s =>
    obtain ⟨_ | t, casts⟩ := s
    · cases inferred
      exact .inr ⟨rfl, .inr ⟨op, l, r, _, rfl⟩, rfl⟩
    · cases inferred
      exact .inl ⟨rfl, nofun⟩
  | literal | read | call | typeRef =>
    cases inferred
    refine .inl ⟨rfl, fun untyped => ?_⟩
    rw [inferTy?]
    exact untyped

/-- A read stays if no constant stands for it. -/
theorem inlineReads_ok {table : DeclTable} {inlineLocals : Bool}
    (inlined : (inlineReads table inlineLocals).step e = .ok e') :
    (e' = e ∧ ∀ decl, table.resolve? e = some decl → decl.constant? inlineLocals = none) ∨
      ∃ id name s decl constant, e = .read id name s ∧ table.get? id = some decl ∧
        decl.constant? inlineLocals = some constant ∧ e' = constant.addCasts s.casts := by
  simp only [inlineReads] at inlined
  split at inlined
  · rename_i constant found
    cases inlined
    obtain ⟨decl, resolved, known⟩ := Option.bind_eq_some_iff.mp found
    cases e with
    | read id name s => exact .inr ⟨id, name, s, decl, constant, rfl, resolved, known, rfl⟩
    | literal | unary | binary | call | typeRef => cases resolved
  · rename_i missing
    cases inlined
    exact .inl ⟨rfl, fun decl resolved => Option.bind_eq_none_iff.mp missing decl resolved⟩

/-- A double operator gives way to its promoted operand. -/
theorem cancelDouble_ok (cancelled : cancelDouble.step e = .ok e') :
    (e' = e ∧ e.isDouble = false) ∨
      ∃ op x t s, (op = .neg ∨ op = .not) ∧ t.casts = [] ∧ e = .unary op (.unary op x t) s ∧
        e' = (promotedOperand .all op x).addCasts s.casts := by
  simp only [cancelDouble] at cancelled
  split at cancelled
  · rename_i op inner x t s
    split at cancelled
    · rename_i double
      simp only [Bool.and_eq_true, Bool.or_eq_true, decide_eq_true_eq, List.isEmpty_iff] at double
      obtain ⟨⟨negation, rfl⟩, bare⟩ := double
      cases cancelled
      exact .inr ⟨op, x, t, s, negation, bare, rfl, rfl⟩
    · rename_i single
      cases cancelled
      exact .inl ⟨rfl, by simpa [isDouble] using single⟩
  · rename_i single
    cases cancelled
    refine .inl ⟨rfl, ?_⟩
    unfold isDouble
    split
    · exact absurd rfl (single _ _ _ _ _)
    · rfl

/-- The promoted operand that an identity law keeps. -/
def survivingOperand? (op : BinaryOp) (l r : Expr) : Except Unevaluable (Option Expr) := do
  let left ← (promoteOperands .all).visit (promotedOperands .all op l r).1
  let right ← (promoteOperands .all).visit (promotedOperands .all op l r).2
  pure ((survivingSide? op left right).map (Side.operand left right))

theorem reduceIdentities_binary (op : BinaryOp) :
    reduceIdentities.step (.binary op l r s) =
      if l.isLiteral || r.isLiteral then
        survivingOperand? op l r >>= fun
          | some y => .ok (y.addCasts s.casts).applyCasts
          | none => .ok (.binary op l r s)
      else .ok (.binary op l r s) := by
  simp only [reduceIdentities, visit_promoteOperands_binary, survivingOperand?, bind_assoc]
  split
  · refine congrArg _ (funext fun left => congrArg _ (funext fun right => ?_))
    dsimp only [bind, Except.bind, pure, Except.pure]
    cases survivingSide? op left right with
    | none => rfl
    | some side => cases side <;> rfl
  · rfl

/-- The constant that an operator on literals is replaced by, and its type. -/
def foldedValue? (e : Expr) : Except Unevaluable (Option (Value × Ty)) := do
  let promoted ← (promoteOperands .literals).visit e
  let value ← promotedValue? promoted
  pure (value.bind fun v => (e.ty.or promoted.inferTy?).bind fun t => (v.castTo t).map (·, t))

theorem foldNode_eq (e : Expr) :
    foldNode e = foldedValue? e >>= fun
      | some (w, t) => .ok (castLiteral w (some t) e.casts)
      | none => .ok e := by
  simp only [foldNode, foldedValue?, bind_assoc]
  refine congrArg _ (funext fun promoted => congrArg _ (funext fun value => ?_))
  cases value with
  | none => rfl
  | some v =>
    cases e.ty.or promoted.inferTy? with
    | none => rfl
    | some t =>
      change Except.ok ((ofResult? v t e.casts).getD e) = _
      cases cast : v.castTo t with
      | none => simp [ofResult?, cast]
      | some w => simp [ofResult?, cast]

theorem evaluateLiterals_step (e : Expr) :
    evaluateLiterals.step e = if e.isFoldable then foldNode e else .ok e := by
  simp only [evaluateLiterals]
  split
  · rfl
  · rename_i op v t s
    cases isStep : op.isStep <;> simp [isFoldable, isStep]
  · rename_i noBinary noUnary
    rw [if_neg]
    intro foldable
    unfold isFoldable at foldable
    split at foldable
    · exact noUnary _ _ _ _ rfl
    · exact noBinary _ _ _ _ _ _ rfl
    · cases foldable

/-- An operand that survives is one of the promoted operands. -/
theorem survivingOperand?_eq_some {op : BinaryOp} {y : Expr}
    (survives : survivingOperand? op l r = .ok (some y)) :
    ∃ left right side, (promoteOperands .all).visit (promotedOperands .all op l r).1 = .ok left ∧
      (promoteOperands .all).visit (promotedOperands .all op l r).2 = .ok right ∧
        survivingSide? op left right = some side ∧ y = side.operand left right := by
  simp only [survivingOperand?, bind_eq_ok] at survives
  obtain ⟨left, leftVisited, right, rightVisited, same⟩ := survives
  obtain ⟨side, survives, rfl⟩ := Option.map_eq_some_iff.mp (Except.ok.inj same)
  exact ⟨left, right, side, leftVisited, rightVisited, survives, rfl⟩

/-- A law keeps the node, or puts an operand in its place. -/
theorem reduceIdentities_ok (reduced : reduceIdentities.step e = .ok e') :
    (e' = e ∧ ∀ op l r s, e = .binary op l r s → l.isLiteral || r.isLiteral →
      survivingOperand? op l r = .ok none) ∨
      ∃ op l r s y, e = .binary op l r s ∧ survivingOperand? op l r = .ok (some y) ∧
        e' = (y.addCasts s.casts).applyCasts := by
  cases e with
  | binary op l r s =>
    rw [reduceIdentities_binary] at reduced
    split at reduced
    · obtain ⟨survivor, survives, reduced⟩ := bind_eq_ok.mp reduced
      cases survivor with
      | none =>
        cases reduced
        refine .inl ⟨rfl, ?_⟩
        rintro _ _ _ _ ⟨⟩ -
        exact survives
      | some y =>
        cases reduced
        exact .inr ⟨op, l, r, s, y, rfl, survives, rfl⟩
    · rename_i noLiteral
      cases reduced
      refine .inl ⟨rfl, ?_⟩
      rintro _ _ _ _ ⟨⟩ literal
      exact absurd literal noLiteral
  | literal | unary | read | call | typeRef =>
    cases reduced
    exact .inl ⟨rfl, nofun⟩

/-- Evaluation keeps the node, or puts a literal in its place. -/
theorem evaluateLiterals_ok (evaluated : evaluateLiterals.step e = .ok e') :
    (e' = e ∧ (e.isFoldable → foldedValue? e = .ok none)) ∨
      e.isFoldable ∧
        ∃ w t, foldedValue? e = .ok (some (w, t)) ∧ e' = castLiteral w (some t) e.casts := by
  rw [evaluateLiterals_step] at evaluated
  split at evaluated
  · rename_i foldable
    rw [foldNode_eq] at evaluated
    obtain ⟨value, folded, evaluated⟩ := bind_eq_ok.mp evaluated
    cases value with
    | none =>
      cases evaluated
      exact .inl ⟨rfl, fun _ => folded⟩
    | some pair =>
      cases evaluated
      exact .inr ⟨foldable, pair.1, pair.2, folded, rfl⟩
  · rename_i notFoldable
    cases evaluated
    exact .inl ⟨rfl, fun foldable => absurd foldable notFoldable⟩

/-- The constant has the type of the node, or the one that its promoted form infers. -/
theorem foldedValue?_ty {w : Value} {t : Ty} (folded : foldedValue? e = .ok (some (w, t))) :
    ∃ promoted, (promoteOperands .literals).visit e = .ok promoted ∧
      e.ty.or promoted.inferTy? = some t := by
  simp only [foldedValue?, bind_eq_ok] at folded
  obtain ⟨promoted, visited, value, -, same⟩ := folded
  obtain ⟨v, -, same⟩ := Option.bind_eq_some_iff.mp (Except.ok.inj same)
  obtain ⟨t, typed, same⟩ := Option.bind_eq_some_iff.mp same
  obtain ⟨w, -, same⟩ := Option.map_eq_some_iff.mp same
  cases same
  exact ⟨promoted, visited, typed⟩

end Pass

end ConstFold
