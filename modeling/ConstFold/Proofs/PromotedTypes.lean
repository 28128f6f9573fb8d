import ConstFold.Pass.Typing
import Mathlib.Tactic.Common

/-! Promotion of types is idempotent: operands that have been promoted, both or only one of them,
are promoted to the same type again. -/
namespace ConstFold

variable {left right t u : Ty} {p q : Primitive}

namespace Ty

theorem unboxed?_of_numeric? (numeric : t.numeric? = some p) :
    t.unboxed? = some p ∧ p.isNumeric := by
  rwa [numeric?, Option.filter_eq_some_iff] at numeric

theorem numeric?_primitive (numeric : p.isNumeric) : numeric? (.primitive p) = some p := by
  rw [numeric?, unboxed?, Option.filter_some, if_pos numeric]

theorem unaryNumeric?_idem (promoted : t.unaryNumeric? = some u) :
    u.isPrimitive ∧ u.unaryNumeric? = some u := by
  obtain ⟨p, numeric, same⟩ := Option.map_eq_some_iff.mp promoted
  have isNumeric := (unboxed?_of_numeric? numeric).2
  subst same
  cases p <;> first | contradiction | exact ⟨rfl, rfl⟩

/-- The type in which numbers are combined. -/
def widest (p q : Primitive) : Primitive :=
  if p = .double || q = .double then .double
  else if p = .float || q = .float then .float
  else if p = .long || q = .long then .long
  else .int

theorem binaryNumeric?_eq (first : left.numeric? = some p) (second : right.numeric? = some q) :
    binaryNumeric? left right = some (.primitive (widest p q)) := by
  rw [binaryNumeric?, first, second, widest]
  simp only
  split_ifs <;> rfl

theorem binaryNumeric?_eq_some (promoted : binaryNumeric? left right = some t) :
    ∃ p q, left.numeric? = some p ∧ right.numeric? = some q ∧ t = .primitive (widest p q) := by
  have unfolded := promoted
  rw [binaryNumeric?] at unfolded
  split at unfolded
  · rename_i p q first second
    refine ⟨p, q, first, second, ?_⟩
    rw [binaryNumeric?_eq first second] at promoted
    exact (Option.some.inj promoted).symm
  · cases unfolded

theorem widest_facts (p q : Primitive) :
    (widest p q).isNumeric ∧ widest (widest p q) q = widest p q ∧
      widest p (widest p q) = widest p q ∧ widest (widest p q) (widest p q) = widest p q ∧
      (widest p q).isFloating = (p.isFloating || q.isFloating) := by
  cases p <;> cases q <;> decide

/-- Replacing operands by their promoted type promotes to the same type. -/
theorem binaryNumeric?_idem (promoted : binaryNumeric? left right = some t) :
    binaryNumeric? t right = some t ∧ binaryNumeric? left t = some t ∧
      binaryNumeric? t t = some t := by
  obtain ⟨p, q, first, second, rfl⟩ := binaryNumeric?_eq_some promoted
  obtain ⟨numeric, sameLeft, sameRight, sameBoth, -⟩ := widest_facts p q
  have third := numeric?_primitive numeric
  rw [binaryNumeric?_eq third second, binaryNumeric?_eq first third,
    binaryNumeric?_eq third third, sameLeft, sameRight, sameBoth]
  exact ⟨rfl, rfl, rfl⟩

theorem isFloating_binaryNumeric? (promoted : binaryNumeric? left right = some t) :
    t.isFloating = (left.isFloating || right.isFloating) := by
  obtain ⟨p, q, first, second, rfl⟩ := binaryNumeric?_eq_some promoted
  rw [isFloating, isFloating, isFloating, (unboxed?_of_numeric? first).1,
    (unboxed?_of_numeric? second).1]
  exact (widest_facts p q).2.2.2.2

theorem isBoolean_binaryNumeric? (promoted : binaryNumeric? left right = some t) :
    t.isPrimitive ∧ t.isBoolean = false ∧ left.isBoolean = false ∧ right.isBoolean = false := by
  obtain ⟨p, q, first, second, rfl⟩ := binaryNumeric?_eq_some promoted
  have notBoolean {t : Ty} {p : Primitive} (numeric : t.numeric? = some p) :
      t.isBoolean = false := by
    obtain ⟨unboxed, numeric⟩ := unboxed?_of_numeric? numeric
    rw [isBoolean, unboxed]
    cases p <;> first | contradiction | rfl
  exact ⟨rfl, notBoolean (numeric?_primitive (widest_facts p q).1), notBoolean first,
    notBoolean second⟩

/-- References compare in one of their own types. -/
theorem equalityOperand?_primitive (promoted : equalityOperand? left right = some t)
    (isPrimitive : t.isPrimitive) :
    (t = boolean ∧ left.isBoolean ∧ right.isBoolean) ∨ binaryNumeric? left right = some t := by
  cases numeric : binaryNumeric? left right with
  | some u =>
    simp only [equalityOperand?, numeric] at promoted
    split_ifs at promoted
    exact .inr promoted
  | none =>
    simp only [equalityOperand?, numeric] at promoted
    split_ifs at promoted with boxed booleans primitives
    · rw [Bool.and_eq_true] at booleans
      exact .inl ⟨(Option.some.inj promoted).symm, booleans⟩
    all_goals
      cases promoted
      simp [isPrimitive] at primitives

theorem shiftOperands?_eq_some {pair : Ty × Ty} (promoted : shiftOperands? left right = some pair) :
    (left.unaryNumeric? = some pair.1 ∧ pair.1.isIntegral) ∧
      right.unaryNumeric? = some pair.2 ∧ pair.2.isIntegral := by
  rw [shiftOperands?] at promoted
  split at promoted
  · rename_i a b first second
    cases promoted
    exact ⟨Option.filter_eq_some_iff.mp first, Option.filter_eq_some_iff.mp second⟩
  · cases promoted

theorem shiftOperands?_eq {a b : Ty} (first : left.unaryNumeric? = some a) (integral : a.isIntegral)
    (second : right.unaryNumeric? = some b) (distance : b.isIntegral) :
    shiftOperands? left right = some (a, b) := by
  rw [shiftOperands?, first, second, Option.filter_some, Option.filter_some, if_pos integral,
    if_pos distance]

end Ty

theorem Ty.isIntegral_unaryNumeric? (integral : t.unbox.isIntegral)
    (promoted : t.unaryNumeric? = some u) : u.unbox.isIntegral := by
  obtain ⟨p, numeric, same⟩ := Option.map_eq_some_iff.mp promoted
  have unboxed := (unboxed?_of_numeric? numeric).1
  have integral : p.isIntegral := by
    cases t <;> cases unboxed <;> exact integral
  subst same
  cases p <;> first | contradiction | rfl

/-- An operand that has been promoted is promoted to its own type. -/
theorem UnaryOp.promotedTy?_idem {op : UnaryOp} {ofVariable : Bool} (noStep : op.isStep = false)
    (promoted : op.promotedTy? ofVariable t = some u) :
    u.isPrimitive ∧ ∀ ofVariable, op.promotedTy? ofVariable u = some u := by
  cases op with
  | pos | neg =>
    obtain ⟨isPrimitive, again⟩ := Ty.unaryNumeric?_idem promoted
    exact ⟨isPrimitive, fun _ => again⟩
  | not =>
    obtain ⟨-, same⟩ := Option.ite_none_right_eq_some.mp promoted
    cases same
    exact ⟨rfl, fun _ => rfl⟩
  | compl =>
    obtain ⟨integral, promoted⟩ := Option.ite_none_right_eq_some.mp promoted
    obtain ⟨isPrimitive, again⟩ := Ty.unaryNumeric?_idem promoted
    refine ⟨isPrimitive, fun _ => ?_⟩
    rw [promotedTy?, if_pos (Ty.isIntegral_unaryNumeric? integral promoted), again]
  | preInc | preDec | postInc | postDec => cases noStep

/-- Only increments and decrements look at whether the operand is a variable. -/
theorem UnaryOp.promotedTy?_of_not_isStep {op : UnaryOp} (noStep : op.isStep = false)
    (first second : Bool) : op.promotedTy? first t = op.promotedTy? second t := by
  cases op with
  | pos | neg | not | compl => rfl
  | preInc | preDec | postInc | postDec => cases noStep

/-- Only variables are incremented and decremented. -/
theorem UnaryOp.promotedTy?_step {op : UnaryOp} (isStep : op.isStep) :
    op.promotedTy? false t = none := by
  cases op <;> first | rfl | cases isStep

namespace BinaryOp

variable {op : BinaryOp}

/-- A primitive type in which an operator computes comes from two booleans or two numbers. -/
theorem promotedTy?_primitive (noShift : op.isShift = false)
    (promoted : op.promotedTy? left right = some t) (isPrimitive : t.isPrimitive) :
    (t = Ty.boolean ∧ left.isBoolean ∧ right.isBoolean) ∨
      Ty.binaryNumeric? left right = some t := by
  cases op with
  | shl | shr | ushr => cases noShift
  | instanceOf => cases promoted
  | lt | le | gt | ge | mul | div | mod | minus => exact .inr promoted
  | and | or =>
    obtain ⟨booleans, same⟩ := Option.ite_none_right_eq_some.mp promoted
    rw [Bool.and_eq_true] at booleans
    exact .inl ⟨(Option.some.inj same).symm, booleans⟩
  | plus =>
    rw [promotedTy?] at promoted
    split at promoted
    · rename_i u numeric
      exact .inr (numeric.trans promoted)
    · obtain ⟨-, same⟩ := Option.ite_none_right_eq_some.mp promoted
      cases same
      cases isPrimitive
  | bitAnd | bitOr | bitXor =>
    simp only [promotedTy?] at promoted
    split_ifs at promoted with floating booleans
    · rw [Bool.and_eq_true] at booleans
      exact .inl ⟨(Option.some.inj promoted).symm, booleans⟩
    · exact .inr promoted
  | eq | ne => exact Ty.equalityOperand?_primitive promoted isPrimitive

/-- Booleans, not both of them boxed, are combined as booleans by an operator that accepts some
booleans. -/
theorem promotedTy?_booleans {left' right' : Ty}
    (promoted : op.promotedTy? left right = some Ty.boolean) (first : left'.isBoolean)
    (second : right'.isBoolean) (bare : (left'.isBoxed && right'.isBoxed) = false)
    (noShift : op.isShift = false) : op.promotedTy? left' right' = some Ty.boolean := by
  have numbers : Ty.binaryNumeric? left' right' = none := by
    cases numeric : Ty.binaryNumeric? left' right' with
    | none => rfl
    | some t => simp [(Ty.isBoolean_binaryNumeric? numeric).2.2.1] at first
  have noFloat : (left'.isFloating || right'.isFloating) = false := by
    simp only [Ty.isBoolean, beq_iff_eq] at first second
    rw [Ty.isFloating, Ty.isFloating, first, second]
    rfl
  cases op with
  | shl | shr | ushr => cases noShift
  | instanceOf => cases promoted
  | and | or => simp [promotedTy?, first, second]
  | eq | ne => simp [promotedTy?, Ty.equalityOperand?, bare, numbers, first, second]
  | bitAnd | bitOr | bitXor => simp only [promotedTy?, noFloat, first, second]; rfl
  | lt | le | gt | ge | mul | div | mod | minus =>
    have absurd := (Ty.isBoolean_binaryNumeric? promoted).2.1
    cases absurd
  | plus =>
    rw [promotedTy?] at promoted
    split at promoted
    · rename_i u numeric
      cases promoted
      have absurd := (Ty.isBoolean_binaryNumeric? numeric).2.1
      cases absurd
    · obtain ⟨-, same⟩ := Option.ite_none_right_eq_some.mp promoted
      cases same

/-- Numbers, not both of them boxed, are combined in their common type by an operator that
computes in that type. -/
theorem promotedTy?_numbers {left' right' : Ty} (promoted : op.promotedTy? left right = some t)
    (source : Ty.binaryNumeric? left right = some t)
    (numeric : Ty.binaryNumeric? left' right' = some t)
    (bare : (left'.isBoxed && right'.isBoxed) = false) (noShift : op.isShift = false) :
    op.promotedTy? left' right' = some t := by
  obtain ⟨-, notBoolean, first, second⟩ := Ty.isBoolean_binaryNumeric? numeric
  cases op with
  | shl | shr | ushr => cases noShift
  | instanceOf => cases promoted
  | and | or =>
    obtain ⟨-, same⟩ := Option.ite_none_right_eq_some.mp promoted
    cases same
    cases notBoolean
  | lt | le | gt | ge | mul | div | mod | minus => exact numeric
  | plus => simp only [promotedTy?, numeric]
  | eq | ne => simp [promotedTy?, Ty.equalityOperand?, bare, numeric]
  | bitAnd | bitOr | bitXor =>
    have floating : (left'.isFloating || right'.isFloating) = (left.isFloating || right.isFloating) :=
      (Ty.isFloating_binaryNumeric? numeric).symm.trans (Ty.isFloating_binaryNumeric? source)
    simp only [promotedTy?] at promoted ⊢
    rw [floating]
    split_ifs at promoted ⊢ with isFloating booleans
    all_goals simp_all

/-- Replacing operands by the primitive type that they are promoted to leads to the same type. -/
theorem promotedTy?_idem (noShift : op.isShift = false)
    (promoted : op.promotedTy? left right = some t) (isPrimitive : t.isPrimitive) :
    op.promotedTy? t right = some t ∧ op.promotedTy? left t = some t ∧
      op.promotedTy? t t = some t := by
  have notBoxed : t.isBoxed = false := by
    cases t <;> first | rfl | cases isPrimitive
  rcases promotedTy?_primitive noShift promoted isPrimitive with ⟨rfl, first, second⟩ | numeric
  · refine ⟨promotedTy?_booleans promoted rfl second rfl noShift,
      promotedTy?_booleans promoted first rfl (Bool.and_false _) noShift,
      promotedTy?_booleans promoted rfl rfl rfl noShift⟩
  · obtain ⟨sameLeft, sameRight, sameBoth⟩ := Ty.binaryNumeric?_idem numeric
    refine ⟨promotedTy?_numbers promoted numeric sameLeft ?_ noShift,
      promotedTy?_numbers promoted numeric sameRight ?_ noShift,
      promotedTy?_numbers promoted numeric sameBoth ?_ noShift⟩
    all_goals simp [notBoxed]

/-- The types that the operands of `op` are promoted to, if they are primitive. -/
def targets? (op : BinaryOp) (left right : Ty) : Option (Ty × Ty) :=
  if op.isShift then Ty.shiftOperands? left right
  else ((op.promotedTy? left right).filter Ty.isPrimitive).map fun t => (t, t)

theorem targets?_shift (isShift : op.isShift) :
    op.targets? left right = Ty.shiftOperands? left right := if_pos isShift

/-- Operators other than shifts promote both operands to the type in which they compute. -/
theorem targets?_eq_some {a b : Ty} (noShift : op.isShift = false) :
    op.targets? left right = some (a, b) ↔
      (op.promotedTy? left right = some a ∧ a.isPrimitive) ∧ b = a := by
  rw [targets?, noShift]
  simp only [Bool.false_eq_true, if_false, Option.map_eq_some_iff, Option.filter_eq_some_iff,
    Prod.mk.injEq]
  constructor
  · rintro ⟨t, promoted, rfl, rfl⟩
    exact ⟨promoted, rfl⟩
  · rintro ⟨promoted, rfl⟩
    exact ⟨b, promoted, rfl, rfl⟩

/-- A shift computes in the type of its left operand. -/
theorem promotedTy?_shift (isShift : op.isShift) :
    op.promotedTy? left right = (Ty.shiftOperands? left right).map Prod.fst := by
  cases op <;> first | rfl | cases isShift

/-- Promoted operands, both or only one of them, have the same targets, and the operator computes
in the same type on them. -/
theorem targets?_idem {left' right' a b : Ty} (targets : op.targets? left right = some (a, b))
    (first : left' = left ∨ left' = a) (second : right' = right ∨ right' = b) :
    op.targets? left' right' = some (a, b) ∧
      op.promotedTy? left' right' = op.promotedTy? left right := by
  cases isShift : op.isShift with
  | true =>
    rw [targets?_shift isShift] at targets
    obtain ⟨⟨leftNumeric, leftIntegral⟩, rightNumeric, rightIntegral⟩ :=
      Ty.shiftOperands?_eq_some targets
    have numericLeft : left'.unaryNumeric? = some a := by
      rcases first with rfl | rfl
      · exact leftNumeric
      · exact (Ty.unaryNumeric?_idem leftNumeric).2
    have numericRight : right'.unaryNumeric? = some b := by
      rcases second with rfl | rfl
      · exact rightNumeric
      · exact (Ty.unaryNumeric?_idem rightNumeric).2
    have again := Ty.shiftOperands?_eq numericLeft leftIntegral numericRight rightIntegral
    rw [targets?_shift isShift, promotedTy?_shift isShift, promotedTy?_shift isShift, targets, again]
    exact ⟨rfl, rfl⟩
  | false =>
    obtain ⟨⟨promoted, isPrimitive⟩, rfl⟩ := (targets?_eq_some isShift).mp targets
    obtain ⟨sameLeft, sameRight, sameBoth⟩ := promotedTy?_idem isShift promoted isPrimitive
    have again : op.promotedTy? left' right' = some b := by
      rcases first with rfl | rfl <;> rcases second with rfl | rfl <;> assumption
    exact ⟨(targets?_eq_some isShift).mpr ⟨⟨again, isPrimitive⟩, rfl⟩, again.trans promoted.symm⟩

end BinaryOp

end ConstFold
