import ConstFold.Proofs.Soundness.Absorption
import ConstFold.Proofs.StructuralEquality

/-! The operands that absorption takes to be the same. Each rewriting is an instance of a law in
which an operand occurs twice. The occurrences are the same tree but for the signs of floating-point
zeros; where these differ, the value of the expression can change. -/
namespace ConstFold

namespace Expr

/-- The operator joins `x` and `y`, in either order. -/
def Joins (op : BinaryOp) (s : Static) (x y e : Expr) : Prop :=
  e = binary op x y s ∨ e = binary op y x s

/-- The laws by which `e` turns into `e'`. The last two expressions are the occurrences of the
operand that is repeated, in the order in which they are compared. -/
inductive AbsorptionLaw : Expr → Expr → Expr → Expr → Prop where
  /-- Of `a && (b || c)` or `a || (b && c)`, `a` is left. -/
  | repeated {op innerOp s ty a b c inner e} (outer : Joins op s a inner e)
      (dual : op.IsDual innerOp) (found : Joins innerOp ⟨ty, []⟩ b c inner) :
      AbsorptionLaw e (a.addCasts s.casts) a b
  /-- Of `a || (!b && c)`, `a || c` is left. -/
  | negatedInner {s t ty a b c inner e} (outer : Joins .or s a inner e)
      (found : Joins .and ⟨ty, []⟩ (unary .not b ⟨t, []⟩) c inner) :
      AbsorptionLaw e (binary .or a c s) b a
  /-- Of `!a || (b && c)`, `!a || c` is left. -/
  | negatedOuter {s t ty a b c inner e} (outer : Joins .or s (unary .not a ⟨t, []⟩) inner e)
      (found : Joins .and ⟨ty, []⟩ b c inner) :
      AbsorptionLaw e (binary .or (unary .not a ⟨t, []⟩) c s) a b

variable {op : BinaryOp} {s : Static} {ty : Option Ty} {outer inner operand rest e : Expr}

theorem law_of_areOpposite (whole : Joins .or s outer inner e)
    (found : Joins .and ⟨ty, []⟩ operand rest inner) (opposite : outer.areOpposite operand) :
    ∃ a b, AbsorptionLaw e (binary .or outer rest s) a b ∧ a.eqv b := by
  simp only [areOpposite, Bool.and_eq_true, Bool.or_eq_true, Option.any_eq_true] at opposite
  obtain ⟨-, ⟨x, negated, same⟩ | ⟨x, negated, same⟩⟩ := opposite
  · obtain ⟨t, rfl⟩ := negated?_eq_some negated
    exact ⟨x, outer, .negatedInner whole found, same⟩
  · obtain ⟨t, rfl⟩ := negated?_eq_some negated
    exact ⟨x, operand, .negatedOuter whole found, same⟩

/-- What is found is an instance of a law. -/
theorem law_of_absorb? {swapped : Bool} {found : Absorbed} (whole : Joins op s outer inner e)
    (absorbs : absorb? op outer inner swapped = some found) :
    ∃ a b, AbsorptionLaw e (Pass.absorbed outer found s) a b ∧ a.eqv b := by
  obtain ⟨innerOp, l, r, ty, rfl, dual, cases⟩ := absorb?_cases absorbs
  rcases cases with ⟨rfl, same, -⟩ | ⟨rfl, -, same, -⟩ | ⟨rfl, rfl, opposite⟩ |
    ⟨rfl, rfl, -, opposite⟩
  · exact ⟨outer, l, .repeated whole dual (.inl rfl), (Bool.and_eq_true_iff.mp same).1⟩
  · exact ⟨outer, r, .repeated whole dual (.inr rfl), (Bool.and_eq_true_iff.mp same).1⟩
  · rw [dual.inner_eq_and rfl] at whole
    exact law_of_areOpposite whole (.inl rfl) opposite
  · rw [dual.inner_eq_and rfl] at whole
    exact law_of_areOpposite whole (.inr rfl) opposite

end Expr

open ConstFold.Expr

theorem Pass.law_of_absorption {e e' : Expr} (done : absorption.step e = .ok e')
    (rewritten : e' ≠ e) : ∃ a b, AbsorptionLaw e e' a b ∧ a.eqv b := by
  cases e with
  | binary op l r s =>
    rcases absorption_ok done with same | ⟨found, absorbs, rfl⟩ | ⟨found, absorbs, rfl⟩
    · exact absurd same rewritten
    · exact law_of_absorb? (.inl rfl) absorbs
    · exact law_of_absorb? (.inr rfl) absorbs
  | literal | unary | read | call | typeRef =>
    cases done
    exact absurd rfl rewritten

/-- Whatever absorption rewrites, it rewrites by a law for two occurrences of an operand that are
the same tree but for the signs of zeros. They are the same altogether exactly if no zeros of
different sign correspond. -/
theorem absorption_identifies_up_to_zeros {e e' : Expr} (done : Pass.absorption.step e = .ok e')
    (rewritten : e' ≠ e) :
    ∃ a b, AbsorptionLaw e e' a b ∧
      a.SameTree (fun v w => v.Same w ∨ v.AreOppositeZeros w) b ∧
      (a.same b ↔ a.SameTree (fun v w => ¬v.AreOppositeZeros w) b) := by
  obtain ⟨a, b, law, equal⟩ := Pass.law_of_absorption done rewritten
  exact ⟨a, b, law, sameTree_but_zeros equal, same_iff_of_eqv equal⟩

namespace SignedZeroSample

def number (x : Binary64) : Expr := .literal (.double x) ⟨some (.primitive .double), []⟩

def zero (negative : Bool) : Expr := number (.zero Format.double negative)

/-- The expression `1.0 / 0.0 > 0.0`, or `1.0 / -0.0 > 0.0`. -/
def isPositive (negative : Bool) : Expr :=
  .binary .gt
    (.binary .div (number (.ofInt Format.double 1)) (zero negative)
      ⟨some (.primitive .double), []⟩)
    (zero false) ⟨some .boolean, []⟩

def falsehood : Expr := .literal (.bool false) ⟨some .boolean, []⟩

/-- The operand with the other zero, and a constant. -/
def inner (op : BinaryOp) : Expr :=
  .binary op (isPositive true) falsehood ⟨some .boolean, []⟩

/-- The expression `1.0 / 0.0 > 0.0 && (1.0 / -0.0 > 0.0 || false)`. -/
def expr : Expr := .binary .and (isPositive false) (inner .or) ⟨some .boolean, []⟩

/-- The expression `!(1.0 / 0.0 > 0.0)`. -/
def negated : Expr := .unary .not (isPositive false) ⟨some .boolean, []⟩

end SignedZeroSample

open SignedZeroSample

/-- Of `1.0 / 0.0 > 0.0 && (1.0 / -0.0 > 0.0 || false)`, which is false, `1.0 / 0.0 > 0.0` is left,
which is true: no law gives this for occurrences that are the same. -/
theorem signed_zeros_identified :
    Pass.absorption.step expr = .ok (isPositive false) ∧
      (¬∃ a b, AbsorptionLaw expr (isPositive false) a b ∧ a.same b) ∧
      Reference.eval? expr = some (.value (.bool false)) ∧
      Reference.eval? (isPositive false) = some (.value (.bool true)) := by
  refine ⟨rfl, ?_, rfl, rfl⟩
  rintro ⟨a, b, law, same⟩
  generalize result : isPositive false = e' at law
  cases law with
  | repeated outer dual found =>
    rcases outer with outer | outer
    · cases outer
      rcases found with found | found
      · cases found
        cases same
      · cases found
        cases same
    · cases outer
      rcases found with found | found <;> cases found <;> simp [BinaryOp.IsDual] at dual
  | negatedInner => cases result
  | negatedOuter => cases result

/-- Of `!(1.0 / 0.0 > 0.0) || (1.0 / -0.0 > 0.0 && false)` the negated operand and the constant are
left. -/
theorem absorption_identifies_up_to_zeros_negated :
    ∃ e' a b, Pass.absorption.step (.binary .or negated (inner .and) ⟨some .boolean, []⟩) = .ok e' ∧
      AbsorptionLaw (.binary .or negated (inner .and) ⟨some .boolean, []⟩) e' a b ∧
      a.SameTree (fun v w => v.Same w ∨ v.AreOppositeZeros w) b := by
  have done : Pass.absorption.step (.binary .or negated (inner .and) ⟨some .boolean, []⟩) =
      .ok (.binary .or negated falsehood ⟨some .boolean, []⟩) := rfl
  obtain ⟨a, b, law, alike, -⟩ := absorption_identifies_up_to_zeros done (by rintro ⟨⟩)
  exact ⟨_, a, b, done, law, alike⟩

end ConstFold
