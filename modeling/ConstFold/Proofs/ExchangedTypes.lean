import ConstFold.Proofs.PromotedForm
import ConstFold.Proofs.Soundness.Exchange
import ConstFold.Proofs.Subtyping

/-! Types of exchanged operands. An exchange can be undone, and the operator that fits the new order
computes in the type that the other one computes in. References compare in the wider of two related
types, so the order of the operands does not matter there as long as subtyping is antisymmetric. -/
namespace ConstFold

variable {op flipped : BinaryOp} {left right t : Ty}

namespace Ty

theorem binaryNumeric?_comm (left right : Ty) :
    binaryNumeric? right left = binaryNumeric? left right := by
  rw [binaryNumeric?, binaryNumeric?]
  cases left.numeric? with
  | none => cases right.numeric? <;> rfl
  | some p =>
    cases right.numeric? with
    | none => rfl
    | some q => simp only [Bool.or_comm]

/-- The wider of two reference types, tried in the order in which they stand. -/
def widerReference? (left right : Ty) : Option Ty :=
  if left = .null then some right
  else if right = .null || right.isSubtype left then some left
  else if left.isSubtype right then some right
  else none

theorem widerReference?_comm (leftProper : left.isProper) (rightProper : right.isProper) :
    widerReference? right left = widerReference? left right := by
  by_cases leftNull : left = .null
  · by_cases rightNull : right = .null
    · rw [leftNull, rightNull]
    · simp [widerReference?, leftNull, rightNull]
  by_cases rightNull : right = .null
  · simp [widerReference?, leftNull, rightNull]
  -- Only if both are subtypes of each other does the order count.
  by_cases each : left.isSubtype right ∧ right.isSubtype left
  · rw [isSubtype_antisymm leftProper rightProper each.1 each.2]
  · simp only [widerReference?, leftNull, rightNull]
    cases above : right.isSubtype left <;> cases below : left.isSubtype right <;> simp_all

theorem equalityOperand?_comm (leftProper : left.isProper) (rightProper : right.isProper) :
    equalityOperand? right left = equalityOperand? left right := by
  have wider := widerReference?_comm (isProper_unbox leftProper) (isProper_unbox rightProper)
  rw [widerReference?, widerReference?] at wider
  simp only [equalityOperand?, binaryNumeric?_comm left right, Bool.and_comm right.isBoxed,
    Bool.and_comm right.isBoolean, Bool.or_comm right.unbox.isPrimitive, wider]

end Ty

namespace BinaryOp

/-- The operator that takes the place of another computes in the same type from exchanged
operands. -/
theorem promotedTy?_flipped (flips : op.flipped? = some flipped) (leftProper : left.isProper)
    (rightProper : right.isProper) :
    flipped.promotedTy? right left = op.promotedTy? left right := by
  have numbers := Ty.binaryNumeric?_comm left right
  cases op <;> cases flips
  case eq | ne => exact Ty.equalityOperand?_comm leftProper rightProper
  case lt | gt | le | ge | mul => exact numbers
  case and | or => simp only [promotedTy?, Bool.and_comm]
  case plus => simp only [promotedTy?, numbers, Bool.or_comm]
  case bitAnd | bitOr | bitXor => simp only [promotedTy?, numbers, Bool.and_comm, Bool.or_comm]

-- Classes that list the null type are subtypes of each other, and the first operand decides.
example :
    eq.promotedTy? (.classType (.ofIndex 0) [.null]) (.classType (.ofIndex 1) [.null]) ≠
      eq.promotedTy? (.classType (.ofIndex 1) [.null]) (.classType (.ofIndex 0) [.null]) := by
  decide

theorem isPredicate_flipped (flips : op.flipped? = some flipped) :
    flipped.isPredicate = op.isPredicate := by
  cases op <;> cases flips <;> rfl

/-- Only comparisons change when their operands are exchanged. -/
theorem flipped_eq_iff (flips : op.flipped? = some flipped) :
    (flipped = .plus ↔ op = .plus) ∧ (flipped = .and ∨ flipped = .or ↔ op = .and ∨ op = .or) := by
  cases op <;> cases flips <;> decide

/-- Operators that are no predicates compute in primitive types, or concatenate. -/
theorem isProper_promotedTy? (noPredicate : op.isPredicate = false)
    (promoted : op.promotedTy? left right = some t) : t.isProper := by
  have numbers {t : Ty} (numeric : Ty.binaryNumeric? left right = some t) : t.isProper :=
    Ty.isProper_of_isPrimitive (Ty.isBoolean_binaryNumeric? numeric).1
  cases op with
  | or | and | eq | ne | lt | gt | le | ge | instanceOf => cases noPredicate
  | minus | mul | div | mod => exact numbers promoted
  | shl | shr | ushr =>
    obtain ⟨pair, shifted, same⟩ := Option.map_eq_some_iff.mp promoted
    have numeric := (Ty.shiftOperands?_eq_some shifted).1.1
    rw [← same]
    exact Ty.isProper_of_isPrimitive (Ty.unaryNumeric?_idem numeric).1
  | plus =>
    simp only [promotedTy?] at promoted
    split at promoted
    · rename_i numeric
      exact numbers (numeric.trans promoted)
    · obtain ⟨-, same⟩ := Option.ite_none_right_eq_some.mp promoted
      cases same
      rfl
  | bitOr | bitXor | bitAnd =>
    simp only [promotedTy?] at promoted
    split_ifs at promoted
    · cases promoted
      rfl
    · exact numbers promoted

end BinaryOp

/-- An operand is promoted to a primitive type, or stays of its own. -/
theorem UnaryOp.isProper_promotedTy? {op : UnaryOp} {ofVariable : Bool} {u : Ty}
    (proper : t.isProper) (promoted : op.promotedTy? ofVariable t = some u) : u.isProper := by
  cases isStep : op.isStep with
  | false => exact Ty.isProper_of_isPrimitive (promotedTy?_idem isStep promoted).1
  | true =>
    cases op with
    | pos | neg | not | compl => cases isStep
    | preInc | preDec | postInc | postDec =>
      obtain ⟨-, same⟩ := Option.ite_none_right_eq_some.mp promoted
      cases same
      exact proper

/-- The static type and the targets of the casts. -/
def Static.types (s : Static) : List Ty := s.ty.toList ++ s.casts.map Cast.target

theorem Static.mem_types_of_resultTy {s : Static} (typed : s.resultTy = some t) : t ∈ s.types := by
  rw [types, List.mem_append]
  rw [resultTy] at typed
  split at typed
  · rename_i cast last
    cases typed
    exact .inr (List.mem_map_of_mem (List.mem_of_getLast? last))
  · exact .inl (Option.mem_toList.mpr typed)

namespace Expr

variable {e e' l r : Expr} {s : Static}

/-- The types that a node mentions. -/
def mentionedTypes : Expr → List Ty
  | typeRef t s => t :: s.types
  | literal _ s | unary _ _ s | binary _ _ _ s | read _ _ s | call _ _ s => s.types

/-- No class that occurs in a type of the expression, at any depth, lists the null type among its
supertypes. -/
def HasProperTypes (e : Expr) : Prop := e.Everywhere fun node => node.mentionedTypes.all Ty.isProper

theorem isProper_static (node : e.mentionedTypes.all Ty.isProper) (mentioned : t ∈ e.static.types) :
    t.isProper := by
  rw [List.all_eq_true] at node
  cases e with
  | typeRef u s => exact node t (List.mem_cons_of_mem u mentioned)
  | literal | unary | binary | read | call => exact node t mentioned

theorem isProper_operandTy? (node : e.mentionedTypes.all Ty.isProper)
    (inferred : ∀ t, e.inferTy? = some t → t.isProper) (typed : e.operandTy? = some t) :
    t.isProper := by
  rw [operandTy?] at typed
  rcases Option.or_eq_some_iff.mp typed with own | ⟨-, found⟩
  · exact isProper_static node (Static.mem_types_of_resultTy own)
  · exact inferred t found

theorem HasProperTypes.inferTy? (proper : e.HasProperTypes) :
    ∀ t, e.inferTy? = some t → t.isProper := by
  induction proper with
  | unary _ operand inferred =>
    intro t found
    rw [inferTy?_unary] at found
    obtain ⟨u, typed, promoted⟩ := Option.bind_eq_some_iff.mp found
    exact UnaryOp.isProper_promotedTy? (isProper_operandTy? operand.here inferred typed) promoted
  | @binary op l r s =>
    intro t found
    cases isPredicate : op.isPredicate with
    | true =>
      rw [inferTy?_predicate isPredicate] at found
      cases found
      rfl
    | false =>
      rw [inferTy?_binary isPredicate, binaryPromotedTy?_eq] at found
      obtain ⟨left, -, found⟩ := Option.bind_eq_some_iff.mp found
      obtain ⟨right, -, promoted⟩ := Option.bind_eq_some_iff.mp found
      exact BinaryOp.isProper_promotedTy? isPredicate promoted
  | literal node | read node | call node | typeRef node =>
    intro t found
    rw [Expr.inferTy?] at found
    exact isProper_static node (List.mem_append_left _ (Option.mem_toList.mpr found))

theorem HasProperTypes.operandTy? (proper : e.HasProperTypes) (typed : e.operandTy? = some t) :
    t.isProper :=
  isProper_operandTy? proper.here proper.inferTy? typed

/-- An exchange can be undone. -/
theorem swapOperands?_swapped (swapped : (binary op l r s).swapOperands? = some e') :
    e'.swapOperands? = some (binary op l r s) := by
  obtain ⟨flipped, flips, rfl, adds, isPure, lazy⟩ := swapOperands?_iff.mp swapped
  obtain ⟨isPlus, isLazy⟩ := BinaryOp.flipped_eq_iff flips
  refine swapOperands?_iff.mpr ⟨op, BinaryOp.flipped?_flipped flips, rfl, ?_, isPure.symm, ?_⟩
  · intro concatenates
    exact adds (isPlus.mp concatenates)
  · intro flippedLazy
    exact (lazy (isLazy.mp flippedLazy)).symm

theorem binaryPromotedTy?_flipped (flips : op.flipped? = some flipped) (left : l.HasProperTypes)
    (right : r.HasProperTypes) : binaryPromotedTy? flipped r l = binaryPromotedTy? op l r := by
  rw [binaryPromotedTy?, binaryPromotedTy?]
  cases leftTy : l.operandTy? with
  | none => cases r.operandTy? <;> rfl
  | some tl =>
    cases rightTy : r.operandTy? with
    | none => rfl
    | some tr =>
      exact BinaryOp.promotedTy?_flipped flips (left.operandTy? leftTy) (right.operandTy? rightTy)

end Expr

open ConstFold.Expr

/-- An exchange of operands can be undone, and keeps the type that is inferred. The operator of the
result computes in the same type as the original one, on the operands of the expression and on any
others, where no class lists the null type among its supertypes. -/
theorem exchange_typed_involution {e e' : Expr} (proper : e.HasProperTypes)
    (swapped : e.swapOperands? = some e') :
    e'.swapOperands? = some e ∧ e'.inferTy? = e.inferTy? ∧
      ∃ op flipped l r s, e = .binary op l r s ∧ e' = .binary flipped r l s ∧
        op.flipped? = some flipped ∧ binaryPromotedTy? flipped r l = binaryPromotedTy? op l r ∧
          ∀ left right : Ty, left.isProper → right.isProper →
            flipped.promotedTy? right left = op.promotedTy? left right := by
  cases proper with
  | @binary op l r s _ left right =>
    obtain ⟨flipped, flips, rfl, -⟩ := swapOperands?_iff.mp swapped
    have computed := binaryPromotedTy?_flipped flips left right
    refine ⟨swapOperands?_swapped swapped, ?_, op, flipped, l, r, s, rfl, rfl, flips, computed, ?_⟩
    · have predicates := BinaryOp.isPredicate_flipped flips
      cases isPredicate : op.isPredicate with
      | true =>
        rw [inferTy?_predicate isPredicate, inferTy?_predicate (predicates.trans isPredicate)]
      | false =>
        rw [inferTy?_binary isPredicate, inferTy?_binary (predicates.trans isPredicate), computed]
    · intro left right leftProper rightProper
      exact BinaryOp.promotedTy?_flipped flips leftProper rightProper
  | literal | unary | read | call | typeRef => cases swapped

namespace ExchangedSample

def animal : Ty := .classType (.ofIndex 0) [.object]

def dog : Ty := .classType (.ofIndex 1) [animal, .string]

/-- The comparison of a variable of the class `dog` with one of its superclass. -/
def comparison : Expr :=
  .binary .eq (.read ⟨0⟩ (.ofIndex 2) ⟨some dog, []⟩) (.read ⟨1⟩ (.ofIndex 3) ⟨some animal, []⟩) {}

end ExchangedSample

theorem exchange_typed_involution_classes :
    ∃ e', ExchangedSample.comparison.swapOperands? = some e' ∧
      e'.swapOperands? = some ExchangedSample.comparison ∧
      e'.inferTy? = ExchangedSample.comparison.inferTy? := by
  have proper : ExchangedSample.comparison.HasProperTypes :=
    .binary (by decide) (.read (by decide)) (.read (by decide))
  obtain ⟨back, inferred, -⟩ := exchange_typed_involution proper rfl
  exact ⟨_, rfl, back, inferred⟩

end ConstFold
