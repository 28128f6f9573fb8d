import ConstFold.Expr
import ConstFold.Proofs.Idempotence
import ConstFold.Proofs.RealOperators

/-! Structural comparison of expressions. Literals compare numerically, so expressions that compare
as equal are the same tree but for the signs of their floating-point zeros; and they are the same
tree altogether exactly if these signs agree. -/
namespace ConstFold

namespace Binary

variable {f : Format} {x y : Binary f}

/-- Zeros of different sign. -/
def AreOppositeZeros (x y : Binary f) : Prop :=
  x.code = 0 ∧ y.code = 0 ∧ x.negative ≠ y.negative

theorem code_eq_zero_of_magnitude (zero : f.magnitude x.code = 0) : x.code = 0 := by
  apply f.magnitude_strictMono.injective
  rw [zero]
  simp [Format.magnitude]

theorem eq_of_code (sign : x.negative = y.negative) (code : x.code = y.code) : x = y := by
  rw [← ofCode_code x, ← ofCode_code y, sign, code]

/-- Finite numbers of the same value are the same, unless they are zeros. -/
theorem eq_or_zeros_of_value {s t : Bool} {m n : Nat} {d e : Int} (left : x.decode = .finite s m d)
    (right : y.decode = .finite t n e)
    (value : ((if s then -1 else 1) * (m * 2 ^ d) : ℚ) = (if t then -1 else 1) * (n * 2 ^ e)) :
    x = y ∨ (x.code = 0 ∧ y.code = 0) := by
  obtain ⟨-, leftSign, leftValue⟩ := magnitude_of_decode left
  obtain ⟨-, rightSign, rightValue⟩ := magnitude_of_decode right
  rw [← leftValue, ← rightValue] at value
  have leftNonneg := f.magnitude_nonneg x.code
  have rightNonneg := f.magnitude_nonneg y.code
  by_cases sign : s = t
  · subst sign
    have magnitudes : f.magnitude x.code = f.magnitude y.code := by
      cases s <;> simpa using value
    exact .inl (eq_of_code (leftSign.trans rightSign.symm)
      (f.magnitude_strictMono.injective magnitudes))
  · -- Opposite numbers are equal only if both are zero.
    obtain rfl : t = !s := Bool.eq_not_of_ne (Ne.symm sign)
    have opposite : f.magnitude x.code + f.magnitude y.code = 0 := by
      cases s <;> simp at value <;> linarith
    exact .inr ⟨code_eq_zero_of_magnitude (by linarith), code_eq_zero_of_magnitude (by linarith)⟩

/-- Numbers that compare as equal are no NaN, and they are the same or both zero. -/
theorem eq_or_zeros_of_numEq (equal : x.numEq y) :
    x.isNaN = false ∧ (x = y ∨ (x.code = 0 ∧ y.code = 0)) := by
  rw [numEq, beq_iff_eq, compare?] at equal
  cases left : x.decode with
  | nan => simp [left] at equal
  | infinite s =>
    refine ⟨isNaN_of_decode (by simp [left]), ?_⟩
    cases right : y.decode with
    | nan => simp [left, right] at equal
    | infinite t =>
      have signs : s = t := by cases s <;> cases t <;> simp [left, right] at equal ⊢
      rw [eq_infinity left, eq_infinity right, signs]
      exact .inl rfl
    | finite t n e => cases s <;> simp [left, right] at equal
  | finite s m d =>
    refine ⟨isNaN_of_decode (by simp [left]), ?_⟩
    cases right : y.decode with
    | nan => simp [left, right] at equal
    | infinite t => cases t <;> simp [left, right] at equal
    | finite t n e =>
      simp only [left, right, Option.some.injEq, compare_eq_iff_eq] at equal
      have lowLeft : (if d < e then d else e) ≤ d := by split <;> omega
      have lowRight : (if d < e then d else e) ≤ e := by split <;> omega
      apply eq_or_zeros_of_value left right
      rw [← units_value s m lowLeft, equal, units_value t n lowRight]

theorem not_areOppositeZeros_self (x : Binary f) : ¬AreOppositeZeros x x := by
  rintro ⟨-, -, sign⟩
  exact sign rfl

/-- Numbers that compare as equal are the same, unless they are zeros of different sign. -/
theorem same_iff_of_numEq (equal : x.numEq y) : x.Same y ↔ ¬AreOppositeZeros x y := by
  obtain ⟨number, form⟩ := eq_or_zeros_of_numEq equal
  constructor
  · rintro (rfl | ⟨nan, -⟩)
    · exact not_areOppositeZeros_self x
    · rw [number] at nan
      cases nan
  · intro distinct
    rcases form with same | ⟨left, right⟩
    · exact .inl same
    · have sign : x.negative = y.negative := by
        by_contra sign
        exact distinct ⟨left, right, sign⟩
      exact .inl (eq_of_code sign (left.trans right.symm))

end Binary

namespace Value

variable {v w : Value}

/-- Floating-point zeros of one type that differ in sign. -/
def AreOppositeZeros : Value → Value → Prop
  | float x, float y => x.AreOppositeZeros y
  | double x, double y => x.AreOppositeZeros y
  | _, _ => False

theorem not_areOppositeZeros_self (v : Value) : ¬v.AreOppositeZeros v := by
  cases v with
  | float x => exact Binary.not_areOppositeZeros_self x
  | double x => exact Binary.not_areOppositeZeros_self x
  | _ => exact id

theorem same_iff_of_eqv (equal : v.eqv w) : v.Same w ↔ ¬v.AreOppositeZeros w := by
  fun_cases eqv v w with
  | case1 x y =>
    simpa [Same, same, Binary.Same, AreOppositeZeros] using Binary.same_iff_of_numEq equal
  | case2 x y =>
    simpa [Same, same, Binary.Same, AreOppositeZeros] using Binary.same_iff_of_numEq equal
  | case3 | case4 | case5 | case6 => simp_all [eqv]
  | case7 =>
    have alike : v = w := by simp_all [eqv]
    subst alike
    exact iff_of_true (same_refl v) (not_areOppositeZeros_self v)

end Value

namespace Expr

/-- The same nodes with the same types and casts, and with constants that are related. -/
@[mk_iff] inductive SameTree (R : Value → Value → Prop) : Expr → Expr → Prop where
  | literal {v w s} (related : R v w) : SameTree R (literal v s) (literal w s)
  | unary {op x y s} (operand : SameTree R x y) : SameTree R (unary op x s) (unary op y s)
  | binary {op l l' r r' s} (left : SameTree R l l') (right : SameTree R r r') :
    SameTree R (binary op l r s) (binary op l' r' s)
  | read {id name s} : SameTree R (read id name s) (read id name s)
  | call {name args args' s} (each : List.Forall₂ (SameTree R) args args') :
    SameTree R (call name args s) (call name args' s)
  | typeRef {t s} : SameTree R (typeRef t s) (typeRef t s)

variable {R S : Value → Value → Prop} {a b : Expr}

section Arguments

variable {P Q : Expr → Expr → Prop} {xs ys : List Expr}

theorem forall₂_of_eqvList (equal : eqvList xs ys) (each : ∀ x ∈ xs, ∀ {y}, x.eqv y → P x y) :
    List.Forall₂ P xs ys := by
  induction xs generalizing ys with
  | nil =>
    cases ys with
    | nil => exact .nil
    | cons => cases equal
  | cons x xs ih =>
    obtain ⟨first, others⟩ := List.forall_mem_cons.mp @each
    cases ys with
    | nil => cases equal
    | cons y ys =>
      rw [eqvList, Bool.and_eq_true] at equal
      exact .cons (first equal.1) (ih equal.2 @others)

theorem sameAll_iff (related : List.Forall₂ P xs ys)
    (each : ∀ x ∈ xs, ∀ {y}, P x y → (x.same y ↔ Q x y)) :
    sameAll xs ys ↔ List.Forall₂ Q xs ys := by
  induction related with
  | nil => simp only [sameAll, List.Forall₂.nil]
  | cons related _ ih =>
    obtain ⟨first, others⟩ := List.forall_mem_cons.mp @each
    rw [sameAll, Bool.and_eq_true, first related, ih @others, List.forall₂_cons]

end Arguments

/-- Expressions that compare as equal differ in constants only, and these compare as equal. -/
theorem sameTree_of_eqv (equal : a.eqv b) (constants : ∀ v w, v.eqv w → R v w) :
    a.SameTree R b := by
  -- Nodes of different kinds do not compare as equal, which leaves one case for each kind.
  induction a generalizing b <;> cases b <;>
    simp only [eqv, Bool.and_eq_true, decide_eq_true_eq, Bool.false_eq_true] at equal
  case literal.literal =>
    obtain ⟨same, rfl⟩ := equal
    exact .literal (constants _ _ same)
  case unary.unary ih _ _ _ =>
    obtain ⟨⟨rfl, operand⟩, rfl⟩ := equal
    exact .unary (ih operand)
  case binary.binary ihl ihr _ _ _ _ =>
    obtain ⟨⟨⟨rfl, left⟩, right⟩, rfl⟩ := equal
    exact .binary (ihl left) (ihr right)
  case read.read =>
    obtain ⟨⟨rfl, rfl⟩, rfl⟩ := equal
    exact .read
  case call.call ih _ _ _ =>
    obtain ⟨⟨rfl, each⟩, rfl⟩ := equal
    exact .call (forall₂_of_eqvList each ih)
  case typeRef.typeRef =>
    obtain ⟨rfl, rfl⟩ := equal
    exact .typeRef

/-- Where trees differ in constants only, the constants decide whether they are the same. -/
theorem SameTree.same_iff (related : a.SameTree R b)
    (constants : ∀ v w, R v w → (v.Same w ↔ S v w)) : a.same b ↔ a.SameTree S b := by
  induction a generalizing b with
  | literal v s =>
    cases related with
    | literal related =>
      rw [sameTree_iff]
      simp [same, constants _ _ related]
  | unary op x s ih =>
    cases related with
    | unary operand =>
      rw [sameTree_iff]
      simp [same, ih operand]
  | binary op l r s ihl ihr =>
    cases related with
    | binary left right =>
      rw [sameTree_iff]
      simp [same, ihl left, ihr right]
  | call name args s ih =>
    cases related with
    | call each =>
      rw [sameTree_iff]
      simp [same, sameAll_iff each ih]
  | read id name s =>
    cases related
    exact iff_of_true (same_refl _) .read
  | typeRef t s =>
    cases related
    exact iff_of_true (same_refl _) .typeRef

/-- Expressions that compare as equal are the same tree but for the signs of zeros. -/
theorem sameTree_but_zeros (equal : a.eqv b) :
    a.SameTree (fun v w => v.Same w ∨ v.AreOppositeZeros w) b := by
  refine sameTree_of_eqv equal fun v w equal => ?_
  rw [Value.same_iff_of_eqv equal]
  exact em' _

/-- Expressions that compare as equal are the same tree exactly if no zeros of different sign
correspond. -/
theorem same_iff_of_eqv (equal : a.eqv b) :
    a.same b ↔ a.SameTree (fun v w => ¬v.AreOppositeZeros w) b :=
  (sameTree_of_eqv equal fun _ _ => id).same_iff fun _ _ => Value.same_iff_of_eqv

end Expr

end ConstFold
