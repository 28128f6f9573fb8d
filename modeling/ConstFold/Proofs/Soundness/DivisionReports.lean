import ConstFold.Proofs.StrictFolding

/-! When a constant expression is reported to have no value. An evaluation leaves out the right
operand of `&&` or `||` if the left one decides. The passes evaluate both operands, so a division by
zero is reported also from an operand that is left out. -/
namespace ConstFold

variable {World Thrown α β : Type}

theorem Evaluation.exists_of_bind {x : Evaluation World Thrown α}
    {f : α → Evaluation World Thrown β} {state after : State World} {b : β}
    (ended : (x >>= f) state = .ok b after) :
    ∃ a next, x state = .ok a next ∧ f a next = .ok b after := by
  rw [bind_run] at ended
  cases first : x state with
  | ok a next =>
    rw [first] at ended
    exact ⟨a, next, rfl, ended⟩
  | error stop final =>
    rw [first] at ended
    cases ended

/-- With a constant on the right, it does not matter that the left operand may decide alone. -/
theorem BinaryOp.Promotes.evalRight_pure {op : BinaryOp} {p q tx ty t : Primitive} {v w : Value}
    (promotes : op.Promotes p q tx ty t) (right : w.primitive? = some q) :
    Expr.evalRight op v (pure w : Evaluation World Thrown Value) =
      .ofOutcome (Reference.binary? op v w) := by
  rw [Expr.evalRight, pure_bind]
  split
  · rename_i known
    rw [promotes.decided known right]
    rfl
  · rfl

namespace Expr

variable (methods : Methods World Thrown) (state : State World)

/-- The evaluation ends with a value. -/
def HasValue (e : Expr) : Prop := ∃ v after, e.eval methods state = .ok v after

/-- An operand that `&&` or `||` leaves out has a value nevertheless. -/
def LeavesOutValues : Expr → Prop
  | binary op l r _ =>
    ∀ v after, l.eval methods state = .ok v after → op.decides v → r.HasValue methods after
  | _ => True

theorem typed_of_value {e : Expr} {p : Primitive} {v : Value} (typed : e.constantTy? = some p)
    (value : Reference.eval? e = some (.value v)) : v.primitive? = some p := by
  rcases Pass.visit_constant {} e p typed with ⟨w, _, again, kind, -⟩ | ⟨division, -⟩
  · cases value.symm.trans again
    exact kind
  · cases value.symm.trans division

/-- A value that is found with all operands is the value of the expression. Each operand has one
then, also if it is left out. -/
theorem eval_of_strict : ∀ (e : Expr) (p : Primitive) (v : Value), e.constantTy? = some p →
    Reference.eval? e = some (.value v) →
      e.eval methods = pure v ∧ e.Everywhere (LeavesOutValues methods state)
  | literal a s, p, v, typed, value => by
    obtain ⟨w, cast, -⟩ := Pass.exists_constant typed
    cases (eval?_literal cast).symm.trans value
    exact ⟨Pass.eval_literal cast, .literal trivial⟩
  | unary op x s, q, w, typed, value => by
    obtain ⟨p, t, operand, promotes, -⟩ := constantTy?_unary.mp typed
    obtain ⟨v, u, operandValue, computed, cast⟩ := value_of_unary value
    obtain ⟨evaluates, everywhere⟩ := eval_of_strict x p v operand operandValue
    refine ⟨?_, .unary trivial everywhere⟩
    rw [eval_unary promotes.noStep, evaluates, pure_bind, computed, Evaluation.ofOption_some,
      pure_bind, cast]
    rfl
  | binary op l r s, q, w, typed, value => by
    obtain ⟨p, p', tx, ty, t, left, right, promotes, -⟩ := constantTy?_binary.mp typed
    obtain ⟨a, b, u, leftValue, rightValue, computed, cast⟩ := value_of_binary value
    obtain ⟨leftEvaluates, leftEverywhere⟩ := eval_of_strict l p a left leftValue
    obtain ⟨rightEvaluates, rightEverywhere⟩ := eval_of_strict r p' b right rightValue
    constructor
    · rw [eval_binary, leftEvaluates, pure_bind, rightEvaluates,
        promotes.evalRight_pure (typed_of_value right rightValue), computed,
        Evaluation.ofOutcome_value, pure_bind, cast]
      rfl
    · refine .binary (fun _ after _ _ => ⟨b, after, ?_⟩) leftEverywhere rightEverywhere
      rw [rightEvaluates]
      rfl
  | read _ _ _, _, _, typed, _ | call _ _ _, _, _, typed, _ | typeRef _ _, _, _, typed, _ => by
    cases typed

/-- A division by zero somewhere stops the evaluation, unless it is left out. -/
theorem not_hasValue_of_division : ∀ (e : Expr) (p : Primitive), e.constantTy? = some p →
    Reference.eval? e = some .divisionByZero → e.Everywhere (LeavesOutValues methods state) →
      ¬e.HasValue methods state
  | literal a s, p, typed, division, _ => by
    obtain ⟨w, cast, -⟩ := Pass.exists_constant typed
    cases (eval?_literal cast).symm.trans division
  | unary op x s, q, typed, division, everywhere => by
    obtain ⟨p, t, operand, promotes, -⟩ := constantTy?_unary.mp typed
    cases everywhere with
    | unary _ inside =>
      have valueless :=
        not_hasValue_of_division x p operand (Pass.division_of_unary division) inside
      rintro ⟨v, after, ended⟩
      rw [eval_unary promotes.noStep] at ended
      obtain ⟨a, next, ended, -⟩ := Evaluation.exists_of_bind ended
      exact valueless ⟨a, next, ended⟩
  | binary op l r s, q, typed, division, everywhere => by
    obtain ⟨p, p', tx, ty, t, left, right, promotes, -⟩ := constantTy?_binary.mp typed
    cases everywhere with
    | binary here leftInside rightInside =>
      rintro ⟨v, after, ended⟩
      rw [eval_binary] at ended
      rcases Pass.visit_constant {} l p left with ⟨a, -, leftValue, -⟩ | ⟨leftDivision, -⟩
      · obtain ⟨leftEvaluates, -⟩ := eval_of_strict methods state l p a left leftValue
        rw [leftEvaluates, pure_bind] at ended
        obtain ⟨u, next, ended, -⟩ := Evaluation.exists_of_bind ended
        rcases Pass.division_of_binary division with
          leftDivision | rightDivision | ⟨a', b, again, rightValue, divides⟩
        · cases leftValue.symm.trans leftDivision
        · -- The right operand has no value, so it would have to be evaluated or left out.
          refine not_hasValue_of_division r p' right rightDivision rightInside ?_
          rw [evalRight] at ended
          split at ended
          · exact here a state (by rw [leftEvaluates]; rfl) ‹_›
          · obtain ⟨b, next, ended, -⟩ := Evaluation.exists_of_bind ended
            exact ⟨b, next, ended⟩
        · cases leftValue.symm.trans again
          obtain ⟨rightEvaluates, -⟩ := eval_of_strict methods state r p' b right rightValue
          rw [rightEvaluates, promotes.evalRight_pure (typed_of_value right rightValue), divides]
            at ended
          cases ended
      · obtain ⟨a, next, ended, -⟩ := Evaluation.exists_of_bind ended
        exact not_hasValue_of_division l p left leftDivision leftInside ⟨a, next, ended⟩
  | read _ _ _, _, typed, _, _ | call _ _ _, _, typed, _, _ | typeRef _ _, _, typed, _, _ => by
    cases typed

end Expr

/-- A well-typed constant expression with a value is folded to a literal of this value, if each
operand that `&&` or `||` leaves out has a value too. In every other case a division of constants by
zero is reported. -/
theorem fold_value_or_report (table : DeclTable) (methods : Methods World Thrown)
    (state : State World) {e : Expr} {p : Primitive} (typed : e.constantTy? = some p) :
    (∀ v after, e.eval methods state = .ok v after →
      e.Everywhere (Expr.LeavesOutValues methods state) →
        ∃ e', fold table e = .ok e' ∧ e'.IsLiteralOf p v) ∧
    (¬(e.HasValue methods state ∧ e.Everywhere (Expr.LeavesOutValues methods state)) →
      ∃ x op y, Reference.binary? op x y = some .divisionByZero ∧
        fold table e = .error (.divisionByZero x op y)) := by
  rcases Pass.visit_constant table e p typed with
    ⟨w, e', strict, -, folded, literal⟩ | ⟨division, x, op, y, divides, failed⟩
  · obtain ⟨evaluates, everywhere⟩ := Expr.eval_of_strict methods state e p w typed strict
    constructor
    · intro v after ended _
      rw [evaluates] at ended
      cases ended
      exact ⟨e', folded, literal⟩
    · intro valueless
      refine absurd ⟨⟨w, state, ?_⟩, everywhere⟩ valueless
      rw [evaluates]
      rfl
  · constructor
    · intro v after ended everywhere
      exact absurd ⟨v, after, ended⟩
        (Expr.not_hasValue_of_division methods state e p typed division everywhere)
    · exact fun _ => ⟨x, op, y, divides, failed⟩

namespace DivisionSample

def int (n : Int32) : Expr := .literal (.int n) ⟨some .int, []⟩

/-- The expression `false && 1 / 0 > 0`. -/
def guarded : Expr :=
  .binary .and (.literal (.bool false) ⟨some .boolean, []⟩)
    (.binary .gt (.binary .div (int 1) (int 0) {}) (int 0) {}) {}

/-- The expression `(int) (7 / (float) 2) == 3 || 7 % 2 == 0`. -/
def decided : Expr :=
  .binary .or
    (.binary .eq
      (.binary .div (int 7) (.literal (.int 2) ⟨some .int, [Cast.toExplicit (.primitive .float)]⟩)
        ⟨none, [Cast.toExplicit .int]⟩)
      (int 3) {})
    (.binary .eq (.binary .mod (int 7) (int 2) {}) (int 0) {}) {}

end DivisionSample

open DivisionSample in
/-- In `false && 1 / 0 > 0` the division is left out, but reported. -/
theorem fold_reports_left_out_division :
    guarded.constantTy? = some .boolean ∧
      (∀ (World Thrown : Type) (methods : Methods World Thrown) (state : State World),
        guarded.eval methods state = .ok (.bool false) state) ∧
      ∀ table, fold table guarded = .error (.divisionByZero (.int 1) .div (.int 0)) :=
  ⟨by decide, fun _ _ _ _ => rfl, fun _ => rfl⟩

open DivisionSample in
/-- The left operand of `||` decides, and the right one has a value. The right operand of `&&` has
none. -/
theorem fold_value_or_report_sample :
    (∃ e', fold {} decided = .ok e' ∧ e'.IsLiteralOf .boolean (.bool true)) ∧
      ∃ x op y, Reference.binary? op x y = some .divisionByZero ∧
        fold {} guarded = .error (.divisionByZero x op y) := by
  let state : State Unit := ⟨fun _ => .null, ()⟩
  have decidedTyped : decided.constantTy? = some .boolean := by decide
  have guardedTyped : guarded.constantTy? = some .boolean := by decide
  have leftOut : decided.Everywhere (Expr.LeavesOutValues Methods.throwing state) :=
    (Expr.eval_of_strict Methods.throwing state decided .boolean (.bool true) decidedTyped rfl).2
  constructor
  · exact (fold_value_or_report {} Methods.throwing state decidedTyped).1 (.bool true) state rfl
      leftOut
  · refine (fold_value_or_report {} Methods.throwing state guardedTyped).2 ?_
    rintro ⟨-, everywhere⟩
    obtain ⟨v, after, ended⟩ := everywhere.here (.bool false) state rfl rfl
    cases ended

end ConstFold
