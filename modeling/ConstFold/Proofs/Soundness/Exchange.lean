import ConstFold.Expr
import ConstFold.Proofs.Interference
import ConstFold.Proofs.MeaningPreservation

/-! Exchange of operands. The operator that takes the place of another computes the same from
exchanged operands, and an operand is moved past another one only if one of them is pure. The
exceptions and the final store are then the same as before; the value is the same if neither
operand changes a variable of the other. -/
namespace ConstFold

variable {World Thrown : Type} {scope : Scope} {methods : Methods World Thrown}
  {op flipped : BinaryOp} {v w : Value} {p q t tl tr : Primitive}

namespace BinaryOp

theorem flipped?_flipped (flips : op.flipped? = some flipped) : flipped.flipped? = some op := by
  cases op <;> cases flips <;> rfl

theorem exactTy?_flipped (flips : op.flipped? = some flipped) (exact : op.exactTy? p q = some t) :
    flipped.exactTy? q p = some t := by
  have wider : q.wider p = p.wider q := by rw [Primitive.wider, Primitive.wider, Bool.or_comm]
  rw [← exact]
  cases op <;> cases flips <;> simp only [exactTy?, wider, Bool.and_comm]

theorem noShift_of_flips (flips : op.flipped? = some flipped) : op.isShift = false := by
  cases op <;> cases flips <;> rfl

theorem bitwise_comm (f : BitVec 128 → BitVec 128 → BitVec 128) (comm : ∀ x y, f x y = f y x)
    (i j : Int) : Reference.bitwise f i j = Reference.bitwise f j i := by
  rw [Reference.bitwise, Reference.bitwise, comm]

theorem onIntegers_flipped (flips : op.flipped? = some flipped) (i j : Int) :
    Reference.onIntegers flipped t j i = Reference.onIntegers op t i j := by
  have order : compare j i = (compare i j).swap := (Int.compare_swap i j).symm
  cases op <;> cases flips
  case plus => simp [Reference.onIntegers, Reference.comparison?, Reference.integral?, Int.add_comm]
  case mul => simp [Reference.onIntegers, Reference.comparison?, Reference.integral?, Int.mul_comm]
  case bitAnd | bitOr | bitXor =>
    simp only [Reference.onIntegers, Reference.comparison?, Reference.integral?]
    rw [bitwise_comm _ (by simp [BitVec.and_comm, BitVec.or_comm, BitVec.xor_comm])]
    rfl
  all_goals
    simp only [Reference.onIntegers, Reference.comparison?, Reference.integral?, order]
    cases compare i j <;> rfl

/-- The operator for exchanged operands has the same value. -/
theorem reference_flipped (flips : op.flipped? = some flipped) (left : v.primitive? = some p)
    (right : w.primitive? = some q) (exact : op.exactTy? p q = some t) :
    Reference.binary? flipped w v = Reference.binary? op v w := by
  rcases exactTy?_operands exact with ⟨-, rfl, rfl⟩ | ⟨integral, other⟩
  · obtain ⟨a, rfl⟩ := Value.exists_bool left
    obtain ⟨b, rfl⟩ := Value.exists_bool right
    cases op <;> cases flips <;> cases a <;> cases b <;> rfl
  · obtain ⟨i, number⟩ := Value.exists_integer left integral
    obtain ⟨j, number'⟩ := Value.exists_integer right other
    have wider : q.wider p = p.wider q := by rw [Primitive.wider, Primitive.wider, Bool.or_comm]
    rw [Reference.binary?_integral left number right number' (noShift_of_flips flips),
      Reference.binary?_integral right number' left number
        (noShift_of_flips (flipped?_flipped flips)), wider, onIntegers_flipped flips]

/-- An operator that can be exchanged does not divide. -/
theorem exists_value_of_flips (flips : op.flipped? = some flipped) (left : v.primitive? = some p)
    (right : w.primitive? = some q) (exact : op.exactTy? p q = some t) :
    ∃ u, Reference.binary? op v w = some (.value u) ∧ u.primitive? = some t := by
  rcases Expr.reference_binary_exact left right exact with zero | value
  · obtain ⟨divides, -⟩ := zero_of_division left right exact zero
    rcases divides with rfl | rfl <;> cases flips
  · exact value

end BinaryOp

namespace Expr

variable {l r e' : Expr} {s : Static} {a b : Value} {state middle final : State World}

/-- What is left to do once both operands have a value. -/
def combine (op : BinaryOp) (s : Static) (a b : Value) : Evaluation World Thrown Value :=
  .ofOutcome (Reference.binary? op a b) >>= fun v => .ofOption (Reference.castAll v s.casts)

/-- Both operands have a value. If the left one decides, the other must change nothing. -/
theorem eval_of_values (left : l.eval methods state = .ok a middle)
    (right : r.eval methods middle = .ok b final) (leftTyped : a.primitive? = some tl)
    (rightTyped : b.primitive? = some tr) (exact : op.exactTy? tl tr = some t)
    (decided : op.decides a → final = middle) :
    (binary op l r s).eval methods state = combine op s a b final := by
  have combined : Expr.evalRight op a (r.eval methods) middle =
      (.ofOutcome (Reference.binary? op a b) : Evaluation World Thrown Value) final := by
    cases decides : op.decides a with
    | true =>
      have undecided : evalRight op a (pure b) =
          (.ofOutcome (Reference.binary? op a b) : Evaluation World Thrown Value) :=
        Pass.evalRight_pure leftTyped rightTyped exact
      rw [evalRight, if_pos decides] at undecided ⊢
      rw [decided decides, undecided]
    | false =>
      rw [evalRight, if_neg (by simp [decides]), Evaluation.bind_run, right]
  rw [eval_binary, Evaluation.bind_run, left]
  show (evalRight op a (r.eval methods) >>= fun v => .ofOption (Reference.castAll v s.casts)) middle = _
  rw [Evaluation.bind_run, combined, combine, Evaluation.bind_run]

/-- An operand that may throw is moved to the front of a pure one. -/
theorem exchange_pure_left (respects : methods.Respects scope) (flips : op.flipped? = some flipped)
    (leftTyped : l.exactTy? scope = some tl) (rightTyped : r.exactTy? scope = some tr)
    (exact : op.exactTy? tl tr = some t) (leads : castTy? t s.casts = some p) (isPure : l.isPure)
    (lazy : op = .and ∨ op = .or → r.isPure) (fits : scope.Fits state) :
    Evaluation.EndAlike ((binary flipped r l s).eval methods state)
        ((binary op l r s).eval methods state) ∧
      (r.disturbs scope l = false →
        (binary flipped r l s).eval methods state = (binary op l r s).eval methods state) := by
  have decidedBy {v : Value} (decides : op.decides v) : r.isPure := by
    refine lazy ?_
    simp only [BinaryOp.decides, Bool.or_eq_true, Bool.and_eq_true, decide_eq_true_eq] at decides
    exact decides.imp And.left And.left
  obtain ⟨a, before, aTyped⟩ := exists_value_of_isPure methods isPure leftTyped fits
  have kept := keeps_eval respects r tr rightTyped state fits
  cases ended : r.eval methods state with
  | error stop final =>
    have undecided : op.decides a = false := by
      refine Bool.eq_false_iff.mpr fun decides => ?_
      obtain ⟨b, run, -⟩ := exists_value_of_isPure methods (decidedBy decides) rightTyped fits
      cases run.symm.trans ended
    have swapped : (binary flipped r l s).eval methods state = .error stop final := by
      rw [eval_binary, Evaluation.bind_run, ended]
    have original : (binary op l r s).eval methods state = .error stop final := by
      rw [eval_binary, Evaluation.bind_run, before]
      show (evalRight op a (r.eval methods) >>= _) state = _
      rw [evalRight, if_neg (by simp [undecided]), bind_assoc, Evaluation.bind_run, ended]
    rw [swapped, original]
    exact ⟨.refl _, fun _ => rfl⟩
  | ok b final =>
    rw [ended] at kept
    obtain ⟨bTyped, finalFits⟩ := kept
    obtain ⟨a', after, aTyped'⟩ := exists_value_of_isPure methods isPure leftTyped finalFits
    have original : (binary op l r s).eval methods state = combine op s a b final := by
      refine eval_of_values before ended aTyped bTyped exact fun decides => ?_
      obtain ⟨b, run, -⟩ := exists_value_of_isPure methods (decidedBy decides) rightTyped fits
      cases run.symm.trans ended
      rfl
    have swapped : (binary flipped r l s).eval methods state = combine op s a' b final := by
      rw [eval_of_values ended after bTyped aTyped' (BinaryOp.exactTy?_flipped flips exact)
        fun _ => rfl, combine, BinaryOp.reference_flipped flips aTyped' bTyped exact, combine]
    have combined {x : Value} (typed : x.primitive? = some tl) :
        ∃ w, (combine op s x b : Evaluation World Thrown Value) final = .ok w final := by
      obtain ⟨u, value, uTyped⟩ := BinaryOp.exists_value_of_flips flips typed bTyped exact
      obtain ⟨w, cast, -⟩ := Reference.castAll_exact uTyped leads
      exact ⟨w, by rw [combine, value, Evaluation.ofOutcome_value, pure_bind, cast]; rfl⟩
    rw [swapped, original]
    constructor
    · obtain ⟨w, one⟩ := combined aTyped
      obtain ⟨w', other⟩ := combined aTyped'
      rw [one, other]
      exact rfl
    · intro undisturbed
      have again := eval_after respects rightTyped (isPure_iff.mp isPure).1 undisturbed fits before ended
      cases again.symm.trans after
      rfl

/-- Operands are exchanged where an operator fits the new order, nothing is concatenated, and the
order cannot be observed. -/
theorem swapOperands?_iff :
    (binary op l r s).swapOperands? = some e' ↔
      ∃ flipped, op.flipped? = some flipped ∧ e' = binary flipped r l s ∧
        (op = .plus → s.ty ≠ none ∧ s.ty ≠ some .string) ∧ (l.isPure ∨ r.isPure) ∧
          (op = .and ∨ op = .or → l.isPure ∧ r.isPure) := by
  constructor
  · intro swapped
    obtain ⟨flipped, flips, guarded⟩ := Option.bind_eq_some_iff.mp swapped
    simp only [Option.ite_none_right_eq_some, Option.some.injEq, Bool.and_eq_true,
      Bool.or_eq_true, Bool.not_eq_true', Bool.and_eq_false_iff, Bool.or_eq_false_iff,
      decide_eq_true_eq, decide_eq_false_iff_not] at guarded
    obtain ⟨⟨adds, reorderable⟩, rfl⟩ := guarded
    refine ⟨flipped, flips, rfl, fun isPlus => adds.resolve_left fun other => other isPlus, ?_, ?_⟩
    · split at reorderable
      · exact .inl (Bool.and_eq_true_iff.mp reorderable).1
      · exact Bool.or_eq_true_iff.mp reorderable
    · intro lazy
      rw [if_pos lazy] at reorderable
      exact Bool.and_eq_true_iff.mp reorderable
  · rintro ⟨flipped, flips, rfl, adds, isPure, lazy⟩
    refine Option.bind_eq_some_iff.mpr ⟨flipped, flips, if_pos ?_⟩
    rw [Bool.and_eq_true]
    constructor
    · by_cases isPlus : op = .plus
      · simp [isPlus, adds isPlus]
      · simp [isPlus]
    · by_cases isLazy : op = .and ∨ op = .or
      · simp [isLazy, lazy isLazy]
      · simpa [isLazy] using isPure

theorem swapOperands?_eq_some (swapped : (binary op l r s).swapOperands? = some e') :
    ∃ flipped, op.flipped? = some flipped ∧ e' = binary flipped r l s ∧ (l.isPure ∨ r.isPure) ∧
      (op = .and ∨ op = .or → l.isPure ∧ r.isPure) := by
  obtain ⟨flipped, flips, same, -, guarded⟩ := swapOperands?_iff.mp swapped
  exact ⟨flipped, flips, same, guarded⟩

end Expr

/-- An exchange of the operands of a well-typed binary expression keeps its type. From every store
that fits the scope both expressions are stopped by the same exception or both have a value, and
they leave the same store. The value is the same if neither operand may change a variable that
occurs in the other. -/
theorem exchange_keeps_effects (scope : Scope) (methods : Methods World Thrown)
    (respects : methods.Respects scope) {l r e' : Expr} {s : Static}
    (typed : (Expr.binary op l r s).exactTy? scope = some p)
    (swapped : (Expr.binary op l r s).swapOperands? = some e') :
    e'.exactTy? scope = some p ∧
      ∀ state, scope.Fits state →
        Evaluation.EndAlike (e'.eval methods state) ((Expr.binary op l r s).eval methods state) ∧
          (l.disturbs scope r = false → r.disturbs scope l = false →
            e'.eval methods state = (Expr.binary op l r s).eval methods state) := by
  obtain ⟨tl, tr, t, left, right, exact, admits, leads⟩ := Expr.exactTy?_binary.mp typed
  obtain ⟨flipped, flips, rfl, isPure, lazy⟩ := Expr.swapOperands?_eq_some swapped
  have flippedExact := BinaryOp.exactTy?_flipped flips exact
  refine ⟨Expr.exactTy?_binary.mpr ⟨tr, tl, t, right, left, flippedExact, admits, leads⟩, ?_⟩
  intro state fits
  cases isPure with
  | inl isPure =>
    obtain ⟨alike, same⟩ := Expr.exchange_pure_left respects flips left right exact leads isPure
      (fun isLazy => (lazy isLazy).2) fits
    exact ⟨alike, fun _ => same⟩
  | inr isPure =>
    -- Seen from the result, the pure operand stands on the left.
    have back := BinaryOp.flipped?_flipped flips
    have lazy (isLazy : flipped = .and ∨ flipped = .or) : l.isPure := by
      refine (lazy ?_).1
      rcases isLazy with rfl | rfl <;> cases back
      · exact .inl rfl
      · exact .inr rfl
    obtain ⟨alike, same⟩ :=
      Expr.exchange_pure_left respects back right left flippedExact leads isPure lazy fits
    exact ⟨alike.symm, fun undisturbed _ => (same undisturbed).symm⟩

namespace ExchangeSample

def n : Expr := .read ⟨1⟩ (.ofIndex 1) ⟨some .int, []⟩

/-- The expression `n + n++`. -/
def sum : Expr := .binary .plus n (.unary .postInc n {}) ⟨some .int, []⟩

/-- The operands of `K < f(n++)`. -/
def limit : Expr := .read ⟨0⟩ (.ofIndex 0) ⟨some .int, []⟩

def called : Expr := .call (.ofIndex 2) [.unary .postInc n {}] ⟨some (.primitive .byte), []⟩

end ExchangeSample

/-- With `n` being 3, `n + n++` is 6 and `n++ + n` is 7. -/
theorem exchange_changes_value :
    ∃ e', ExchangeSample.sum.swapOperands? = some e' ∧
      ExchangeSample.sum.exactTy? Sample.scope = some .int ∧
      Sample.methods.Respects Sample.scope ∧ Sample.scope.Fits Sample.state ∧
      e'.eval Sample.methods Sample.state ≠ ExchangeSample.sum.eval Sample.methods Sample.state := by
  refine ⟨_, rfl, by decide, Sample.respects, Sample.fits, fun same => ?_⟩
  injection same with value
  revert value
  decide

theorem exchange_keeps_effects_sample :
    ∃ e', (Expr.binary .lt ExchangeSample.limit ExchangeSample.called {}).swapOperands? = some e' ∧
      e'.eval Sample.methods Sample.state =
        (Expr.binary .lt ExchangeSample.limit ExchangeSample.called {}).eval Sample.methods
          Sample.state := by
  have typed : (Expr.binary .lt ExchangeSample.limit ExchangeSample.called {}).exactTy?
      Sample.scope = some .boolean := by decide
  refine ⟨_, rfl, ?_⟩
  exact ((exchange_keeps_effects Sample.scope Sample.methods Sample.respects typed rfl).2
    Sample.state Sample.fits).2 (by decide) (by decide)

end ConstFold
