import ConstFold.Proofs.CastRemoval
import ConstFold.Proofs.Settled

/-! Operators on literals of reference types. Such operands are not promoted, so the operator computes
from the constants that the casts of its operands lead to. A comparison with a wrapper has no value;
two objects are compared by the constants in them. -/
namespace ConstFold

open ConstFold.Expr ConstFold.Pass

variable {op : BinaryOp} {v w x y : Value} {sl sr s : Static} {t tl tr : Ty}

namespace Value

theorem ne_null (constant : v.primitive?.isSome) : v ≠ .null := by
  rintro rfl
  cases constant

theorem isSome_castTo (constant : v.primitive?.isSome) (made : v.castTo t = some w) :
    w.primitive?.isSome := by
  rw [primitive?_castTo (ne_null constant) made, Option.isSome_or, constant, Bool.or_true]

theorem isSome_castThrough {casts : List Cast} (constant : v.primitive?.isSome)
    (made : v.castThrough casts = some w) : w.primitive?.isSome := by
  induction casts generalizing v with
  | nil =>
    cases made
    exact constant
  | cons cast rest ih =>
    obtain ⟨u, first, made⟩ := Option.bind_eq_some_iff.mp made
    exact ih (isSome_castTo constant first) made

end Value

/-- A cast that waits leaves the constant unknown; only `null` can fail to be unboxed. -/
theorem constant?_of_pending {ty : Option Ty} {cast : Cast} {rest : List Cast} (notNull : v ≠ .null) :
    (literal v ⟨ty, cast :: rest⟩).constant? = .ok none := by
  rw [Expr.constant?]
  · nofun
  · rintro p ty implicit rest ⟨⟩
    contradiction

/-- A constant of a primitive type is known once its casts are carried out. -/
theorem constant?_castLiteral (constant : v.primitive?.isSome) (ty : Option Ty) (casts : List Cast) :
    (castLiteral v ty casts).constant? = .ok (v.castThrough casts) := by
  induction casts generalizing v ty with
  | nil => rfl
  | cons cast rest ih =>
    rw [castLiteral, Value.castThrough]
    cases made : v.castTo cast.target with
    | none => exact constant?_of_pending (Value.ne_null constant)
    | some u => exact ih (Value.isSome_castTo constant made) _

namespace Pass

section Unpromoted

variable (leftTy : sl.resultTy = some tl) (rightTy : sr.resultTy = some tr)

include leftTy rightTy

theorem binaryPromotedTy?_castLiteral :
    binaryPromotedTy? op (castLiteral v sl.ty sl.casts) (castLiteral w sr.ty sr.casts) =
      op.promotedTy? tl tr := by
  obtain ⟨v', sl', left, leftSame⟩ := castLiteral_eq v sl.ty sl.casts
  obtain ⟨w', sr', right, rightSame⟩ := castLiteral_eq w sr.ty sr.casts
  rw [binaryPromotedTy?, left, right, operandTy?_literal, operandTy?_literal, leftSame, rightSame, leftTy,
    rightTy]

variable (noShift : op.isShift = false) (unpromoted : (op.promotedTy? tl tr).filter Ty.isPrimitive = none)

include noShift unpromoted

theorem promotedOperands_unpromoted (operands : Operands) :
    promotedOperands operands op (.literal v sl) (.literal w sr) = (.literal v sl, .literal w sr) := by
  have targets : binaryTargets? op (.literal v sl) (.literal w sr) = none := by
    rw [binaryTargets?, operandTy?_literal, operandTy?_literal, leftTy, rightTy]
    simp only [noShift, unpromoted]
    rfl
  rw [promotedOperands, targets]

/-- The casts of operands that are not promoted are carried out all the same. -/
theorem visit_unpromoted (operands : Operands) :
    (promoteOperands operands).visit (.binary op (.literal v sl) (.literal w sr) s) =
      .ok (.binary op (castLiteral v sl.ty sl.casts) (castLiteral w sr.ty sr.casts) s) := by
  rw [visit_promoteOperands_binary, promotedOperands_unpromoted leftTy rightTy noShift unpromoted,
    visit_literal _ rfl, visit_literal _ rfl]
  rfl

theorem foldedValue?_unpromoted :
    foldedValue? (.binary op (.literal v sl) (.literal w sr) s) =
      (promotedValue? (.binary op (castLiteral v sl.ty sl.casts) (castLiteral w sr.ty sr.casts) s)).map
        fun value => value.bind fun u =>
          (s.ty.or (inferTy? (.binary op (castLiteral v sl.ty sl.casts) (castLiteral w sr.ty sr.casts)
            s))).bind fun t => (u.castTo t).map (·, t) := by
  rw [foldedValue?, visit_unpromoted leftTy rightTy noShift unpromoted]
  rfl

theorem foldedValue?_of_constants (left : (castLiteral v sl.ty sl.casts).constant? = .ok (some x))
    (right : (castLiteral w sr.ty sr.casts).constant? = .ok (some y))
    (promoted : op.promotedTy? tl tr = some t) (divides : checkDivisor op t x y = .ok ()) :
    foldedValue? (.binary op (.literal v sl) (.literal w sr) s) =
      .ok ((op.apply t x y).bind fun u =>
        (s.ty.or (inferTy? (.binary op (castLiteral v sl.ty sl.casts) (castLiteral w sr.ty sr.casts)
          s))).bind fun t => (u.castTo t).map (·, t)) := by
  rw [foldedValue?_unpromoted leftTy rightTy noShift unpromoted, promotedValue?, left, right,
    binaryPromotedTy?_castLiteral leftTy rightTy, promoted]
  dsimp only [bind, Except.bind]
  rw [divides]
  rfl

/-- Without a constant on each side, or without a type to compute in, there is no value. -/
theorem foldedValue?_of_pending {a b : Option Value}
    (left : (castLiteral v sl.ty sl.casts).constant? = .ok a)
    (right : (castLiteral w sr.ty sr.casts).constant? = .ok b)
    (pending : a = none ∨ b = none ∨ op.promotedTy? tl tr = none) :
    foldedValue? (.binary op (.literal v sl) (.literal w sr) s) = .ok none := by
  rw [foldedValue?_unpromoted leftTy rightTy noShift unpromoted, promotedValue?, left, right,
    binaryPromotedTy?_castLiteral leftTy rightTy]
  dsimp only [bind, Except.bind]
  rcases pending with rfl | rfl | undefined
  · rfl
  · cases a <;> rfl
  · rw [undefined]
    cases a <;> cases b <;> rfl

end Unpromoted

end Pass

/-! Comparisons. -/

namespace Ty

/-- A type in which a constant of a primitive type is an object: a wrapper or `Object`. -/
def holdsBoxes (t : Ty) : Bool := t.isBoxed || t = .object

theorem holdsBoxes_cases (boxes : t.holdsBoxes) : (∃ p, t = .boxed p) ∨ t = .object := by
  cases t <;> simp_all [holdsBoxes, isBoxed]

/-- A comparison of such types that is not one of references compares two objects. -/
theorem equalityOperand?_holdsBoxes (left : tl.holdsBoxes) (right : tr.holdsBoxes) :
    equalityOperand? tl tr = if tl = .object ∧ tr = .object then some .object else none := by
  rcases holdsBoxes_cases left with ⟨p, rfl⟩ | rfl <;> rcases holdsBoxes_cases right with ⟨q, rfl⟩ | rfl
  · rfl
  · cases p <;> rfl
  · cases q <;> rfl
  · rfl

/-- A type that a truth value can have. -/
def holdsBoolean (t : Ty) : Bool := t.isBoolean || t = .object

end Ty

theorem Value.castTo_bool (b : Bool) (t : Ty) :
    (Value.bool b).castTo t = if t.holdsBoolean then some (.bool b) else none := by
  cases t with
  | primitive p | boxed p => cases p <;> rfl
  | string | null | object | classType => rfl

theorem BinaryOp.apply_objects (equality : op = .eq ∨ op = .ne) (left : x.primitive?.isSome)
    (right : y.primitive?.isSome) :
    op.apply .object x y = some (.bool (decide (op = .eq) == x.eqv y)) := by
  have compared : Value.equals .object x y = some (x.eqv y) := by
    rw [Value.equals]
    · rfl
    · exact Value.ne_null left
    · exact Value.ne_null right
  rcases equality with rfl | rfl
  · rw [BinaryOp.apply, compared]
    cases x.eqv y <;> rfl
  · rw [BinaryOp.apply, compared]
    cases x.eqv y <;> rfl

/-- The operands are objects that hold `x` and `y` once their casts are carried out, and a truth value
can take the place of the node. -/
def ComparesObjects (v w : Value) (sl sr s : Static) (x y : Value) : Prop :=
  sl.resultTy = some .object ∧ sr.resultTy = some .object ∧ v.castThrough sl.casts = some x ∧
    w.castThrough sr.casts = some y ∧ (s.ty.getD Ty.boolean).holdsBoolean

theorem BinaryOp.promotedTy?_holdsBoxes (equality : op = .eq ∨ op = .ne) (left : tl.holdsBoxes)
    (right : tr.holdsBoxes) :
    op.promotedTy? tl tr = if tl = .object ∧ tr = .object then some .object else none := by
  rw [← Ty.equalityOperand?_holdsBoxes left right]
  rcases equality with rfl | rfl <;> rfl

namespace Pass

/-- What a comparison of boxed constants is replaced by. -/
theorem foldedValue?_comparison (equality : op = .eq ∨ op = .ne) (left : v.primitive?.isSome)
    (right : w.primitive?.isSome) (leftTy : sl.resultTy = some tl) (rightTy : sr.resultTy = some tr)
    (leftBoxes : tl.holdsBoxes) (rightBoxes : tr.holdsBoxes) :
    (∃ x y, ComparesObjects v w sl sr s x y ∧
        foldedValue? (.binary op (.literal v sl) (.literal w sr) s) =
          .ok (some (.bool (decide (op = .eq) == x.eqv y), s.ty.getD Ty.boolean))) ∨
      (¬∃ x y, ComparesObjects v w sl sr s x y) ∧
        foldedValue? (.binary op (.literal v sl) (.literal w sr) s) = .ok none := by
  have promoted := BinaryOp.promotedTy?_holdsBoxes equality leftBoxes rightBoxes
  have noShift : op.isShift = false := by
    rcases equality with rfl | rfl <;> rfl
  have unpromoted : (op.promotedTy? tl tr).filter Ty.isPrimitive = none := by
    rw [promoted]
    split <;> rfl
  have isPredicate : op.isPredicate := by
    rcases equality with rfl | rfl <;> rfl
  have leftKnown := constant?_castLiteral left sl.ty sl.casts
  have rightKnown := constant?_castLiteral right sr.ty sr.casts
  have pending {a b : Option Value} (first : v.castThrough sl.casts = a) (second : w.castThrough sr.casts = b)
      (pending : a = none ∨ b = none ∨ op.promotedTy? tl tr = none) :
      foldedValue? (.binary op (.literal v sl) (.literal w sr) s) = .ok none :=
    foldedValue?_of_pending leftTy rightTy noShift unpromoted (first ▸ leftKnown) (second ▸ rightKnown)
      pending
  by_cases objects : tl = .object ∧ tr = .object
  · rw [if_pos objects] at promoted
    obtain ⟨rfl, rfl⟩ := objects
    cases first : v.castThrough sl.casts with
    | none =>
      refine .inr ⟨?_, pending first rfl (.inl rfl)⟩
      rintro ⟨x, y, -, -, known, -⟩
      cases first.symm.trans known
    | some x =>
      cases second : w.castThrough sr.casts with
      | none =>
        refine .inr ⟨?_, pending rfl second (.inr (.inl rfl))⟩
        rintro ⟨x, y, -, -, -, known, -⟩
        cases second.symm.trans known
      | some y =>
        rw [first] at leftKnown
        rw [second] at rightKnown
        have divides : checkDivisor op .object x y = .ok () := by
          rcases equality with rfl | rfl <;> rfl
        have nodeTy : s.ty.or (some Ty.boolean) = some (s.ty.getD Ty.boolean) := by
          cases s.ty <;> rfl
        rw [foldedValue?_of_constants leftTy rightTy noShift unpromoted leftKnown rightKnown promoted
          divides, inferTy?_predicate isPredicate, nodeTy,
          BinaryOp.apply_objects equality (Value.isSome_castThrough left first)
            (Value.isSome_castThrough right second), Option.bind_some, Option.bind_some,
          Value.castTo_bool]
        by_cases holds : (s.ty.getD Ty.boolean).holdsBoolean
        · rw [if_pos holds]
          exact .inl ⟨x, y, ⟨leftTy, rightTy, first, second, holds⟩, rfl⟩
        · rw [if_neg holds]
          refine .inr ⟨?_, rfl⟩
          rintro ⟨x, y, -, -, -, -, other⟩
          exact holds other
  · rw [if_neg objects] at promoted
    refine .inr ⟨?_, pending rfl rfl (.inr (.inr promoted))⟩
    rintro ⟨x, y, leftObject, rightObject, -⟩
    exact objects ⟨Option.some.inj (leftTy.symm.trans leftObject),
      Option.some.inj (rightTy.symm.trans rightObject)⟩

end Pass

/-- A comparison of boxed constants stays, unless both of its operands are of type `Object` and their
casts can be carried out. Then the constants are compared, whatever objects they are in. -/
theorem boxed_comparison_stays_iff (equality : op = .eq ∨ op = .ne) (left : v.primitive?.isSome)
    (right : w.primitive?.isSome) (leftBoxes : sl.resultTy.any Ty.holdsBoxes)
    (rightBoxes : sr.resultTy.any Ty.holdsBoxes) :
    (evaluateLiterals.step (.binary op (.literal v sl) (.literal w sr) s) =
        .ok (.binary op (.literal v sl) (.literal w sr) s) ↔
      ¬∃ x y, ComparesObjects v w sl sr s x y) ∧
    ∀ x y, ComparesObjects v w sl sr s x y →
      evaluateLiterals.step (.binary op (.literal v sl) (.literal w sr) s) =
        .ok (castLiteral (.bool (decide (op = .eq) == x.eqv y)) (some (s.ty.getD Ty.boolean))
          s.casts) := by
  obtain ⟨tl, leftTy, leftBoxes⟩ := (Option.any_eq_true _ _).mp leftBoxes
  obtain ⟨tr, rightTy, rightBoxes⟩ := (Option.any_eq_true _ _).mp rightBoxes
  have step : evaluateLiterals.step (.binary op (.literal v sl) (.literal w sr) s) =
      foldNode (.binary op (.literal v sl) (.literal w sr) s) := rfl
  rw [step, foldNode_eq]
  rcases foldedValue?_comparison (s := s) equality left right leftTy rightTy leftBoxes rightBoxes with
    ⟨x, y, compares, folded⟩ | ⟨stays, folded⟩
  · rw [folded]
    constructor
    · refine iff_of_false ?_ (not_not_intro ⟨x, y, compares⟩)
      intro same
      obtain ⟨u, su, literal, -⟩ := castLiteral_eq (.bool (decide (op = .eq) == x.eqv y))
        (some (s.ty.getD Ty.boolean)) s.casts
      cases literal.symm.trans (Except.ok.inj same)
    · rintro x' y' ⟨-, -, first, second, -⟩
      cases compares.2.2.1.symm.trans first
      cases compares.2.2.2.1.symm.trans second
      rfl
  · rw [folded]
    exact ⟨iff_of_true rfl stays, fun x y compares => absurd ⟨x, y, compares⟩ stays⟩

namespace ComparisonSample

/-- The constant 1000 with casts. -/
def thousand (casts : List Cast) : Expr := .literal (.int 1000) ⟨some .int, casts⟩

def comparison (l r : Expr) : Expr := .binary .eq l r ⟨some .boolean, []⟩

end ComparisonSample

open ComparisonSample

/-- The expression `(Object) 1000 == (Object) 1000` compares two objects and is replaced by `true`. -/
theorem objects_compared_by_value :
    evaluateLiterals.step (comparison (thousand [.toExplicit .object]) (thousand [.toExplicit .object])) =
      .ok (.literal (.bool true) ⟨some Ty.boolean, []⟩) := rfl

/-- The expression `(Integer) 1000 == (Object) (long) 1000` stays. -/
theorem boxed_comparison_stays_iff_wrapper :
    evaluateLiterals.step (comparison (thousand [.toExplicit (.boxed .int)])
        (thousand [.toExplicit (.primitive .long), .toExplicit .object])) =
      .ok (comparison (thousand [.toExplicit (.boxed .int)])
        (thousand [.toExplicit (.primitive .long), .toExplicit .object])) := by
  refine (boxed_comparison_stays_iff (.inl rfl) rfl rfl rfl rfl).1.mpr ?_
  rintro ⟨x, y, isObject, -⟩
  cases isObject

end ConstFold
