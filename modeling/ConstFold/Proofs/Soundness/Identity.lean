import ConstFold.Pass.Identity
import ConstFold.Proofs.Soundness.Promotion

/-! Soundness of the identity laws. On promoted operands the value of the operator is that of the
operand that remains, and an operand is dropped only if its evaluation changes nothing. -/
namespace ConstFold

variable {World Thrown : Type} {scope : Scope} {methods : Methods World Thrown}
  {op : BinaryOp} {v w : Value} {p q t tl tr : Primitive} {i j : Int}

/-! Values. -/

namespace BinaryOp

/-- Promoted operands other than those of a shift are both of one type, `boolean` or a type in
which numbers are computed. -/
theorem promoted_operands (noShift : op.isShift = false)
    (operands : op.exactOperands tl tr = (tl, tr)) :
    tr = tl ∧ (tl = .boolean ∨ tl.wider tr = tl) := by
  rw [exactOperands, noShift, if_neg Bool.false_ne_true] at operands
  split at operands
  · rename_i boolean
    exact ⟨(Prod.mk.inj operands).2.symm.trans boolean.symm, .inl boolean⟩
  · exact ⟨(Prod.mk.inj operands).2.symm.trans (Prod.mk.inj operands).1,
      .inr (Prod.mk.inj operands).1⟩

/-- An operator on promoted numbers that computes the number of one of its operands has that
operand as its value. -/
theorem reference_of_integral (left : v.primitive? = some t) (right : w.primitive? = some t)
    (number : v.integer? = some i) (other : w.integer? = some j) (wide : t.wider t = t)
    (noShift : op.isShift = false) (noOrder : ∀ order, Reference.comparison? op order = none)
    (nonzero : ¬((op = .div ∨ op = .mod) ∧ j = 0)) {u : Value} {k : Int}
    (typed : u.primitive? = some t) (same : u.integer? = some k)
    (computes : Reference.integral? op i j = some k) :
    Reference.binary? op v w = some (.value u) := by
  rw [Reference.binary?_integral left number right other noShift, wide, Reference.onIntegers,
    noOrder, if_neg (by simpa using nonzero), computes, Option.bind_some,
    Value.ofInteger?_of_integer typed same]
  rfl

theorem zero_of_division (left : v.primitive? = some p) (right : w.primitive? = some q)
    (exact : op.exactTy? p q = some t)
    (division : Reference.binary? op v w = some .divisionByZero) :
    (op = .div ∨ op = .mod) ∧ w.isZero := by
  rcases exactTy?_operands exact with ⟨-, rfl, rfl⟩ | ⟨integral, distance⟩
  · obtain ⟨a, rfl⟩ := Value.exists_bool left
    obtain ⟨b, rfl⟩ := Value.exists_bool right
    simp [Reference.binary?] at division
  · obtain ⟨i, number⟩ := Value.exists_integer left integral
    obtain ⟨j, other⟩ := Value.exists_integer right distance
    by_cases shift : op.isShift
    · simp [Reference.binary?_shift left number other shift] at division
    · rw [Reference.binary?_integral left number right other (by simpa using shift),
        Reference.onIntegers] at division
      split at division
      · cases division
      · split at division
        · rename_i zero
          simp only [Bool.and_eq_true, Bool.or_eq_true, decide_eq_true_eq] at zero
          exact ⟨zero.1, (Value.isZero_iff other).mpr zero.2⟩
        · obtain ⟨n, -, made⟩ := Option.bind_eq_some_iff.mp division
          obtain ⟨u, -, wrong⟩ := Option.map_eq_some_iff.mp made
          cases wrong

end BinaryOp

namespace Pass

/-- The operators that laws are about have the type of their promoted operands. -/
theorem survivor?_types {ty : Ty} {side survives : Side} {other : Expr}
    (law : survivor? op ty v side other = some survives) (typed : ty = .primitive tl)
    (exact : op.exactTy? tl tr = some t) (operands : op.exactOperands tl tr = (tl, tr)) :
    op.isShift = false ∧ tl = t ∧ tr = t := by
  have noShift : op.isShift = false := by
    cases op <;> first | rfl | simp [survivor?] at law
  obtain ⟨same, -⟩ := BinaryOp.promoted_operands noShift operands
  have result := BinaryOp.exactTy?_eq exact
  rw [operands] at result
  suffices op.isPredicate = true → tl = .boolean by
    split at result
    · rename_i predicate
      exact ⟨noShift, (this predicate).trans result.symm, same.trans ((this predicate).trans result.symm)⟩
    · exact ⟨noShift, result.symm, same.trans result.symm⟩
  intro predicate
  cases op <;> simp [BinaryOp.isPredicate] at predicate
  case and | or =>
    simp only [BinaryOp.exactTy?, Option.ite_none_right_eq_some, Bool.and_eq_true,
      decide_eq_true_eq] at exact
    exact exact.1.1
  case eq =>
    cases v <;> simp [survivor?] at law
    simpa [typed] using law.1.2
  all_goals simp [survivor?] at law

/-- The arithmetic operators that laws are about, on promoted numbers. -/
theorem reference_arithmetic (arithmetic : op = .plus ∨ op = .minus ∨ op = .mul ∨ op = .div)
    (left : v.primitive? = some t) (right : w.primitive? = some t)
    (exact : op.exactTy? t t = some t) :
    ∃ i j, v.integer? = some i ∧ w.integer? = some j ∧
      ∀ u k, u.primitive? = some t → u.integer? = some k → ¬(op = .div ∧ j = 0) →
        Reference.integral? op i j = some k → Reference.binary? op v w = some (.value u) := by
  have numbers : t.isIntegral ∧ t.wider t = t := by
    rcases arithmetic with rfl | rfl | rfl | rfl
    all_goals simpa [BinaryOp.exactTy?] using exact
  obtain ⟨i, number⟩ := Value.exists_integer left numbers.1
  obtain ⟨j, other⟩ := Value.exists_integer right numbers.1
  refine ⟨i, j, number, other, fun u k typed same nonzero computes => ?_⟩
  have noOrder : op.isShift = false ∧ (∀ order, Reference.comparison? op order = none) ∧ op ≠ .mod := by
    rcases arithmetic with rfl | rfl | rfl | rfl
    all_goals exact ⟨rfl, fun _ => rfl, by decide⟩
  refine BinaryOp.reference_of_integral left right number other numbers.2 noOrder.1 noOrder.2.1
    ?_ typed same computes
  rintro ⟨division | remainder, zero⟩
  · exact nonzero ⟨division, zero⟩
  · exact noOrder.2.2 remainder

theorem exact_boolean (logical : op = .and ∨ op = .or) (exact : op.exactTy? t t = some t) :
    t = .boolean := by
  rcases logical with rfl | rfl
  all_goals
    simp only [BinaryOp.exactTy?, Bool.and_self, decide_eq_true_eq, Option.ite_none_right_eq_some,
      Option.some.injEq] at exact
    exact exact.1

/-- A law for a literal on the left. -/
theorem survivor?_left {survives : Side} {other : Expr} (left : v.primitive? = some t)
    (right : w.primitive? = some t) (exact : op.exactTy? t t = some t)
    (law : survivor? op (.primitive t) v .left other = some survives) :
    match survives with
    | .right => op.decides v = false ∧ Reference.binary? op v w = some (.value w)
    | .left => op.decides v ∨ (other.isPure ∧ Reference.binary? op v w = some (.value v)) := by
  cases op with
  | and =>
    obtain rfl := exact_boolean (.inl rfl) exact
    obtain ⟨a, rfl⟩ := Value.exists_bool left
    obtain ⟨b, rfl⟩ := Value.exists_bool right
    cases a <;> simp [survivor?, Side.other] at law <;> subst law
    · exact .inl rfl
    · exact ⟨rfl, by cases b <;> rfl⟩
  | or =>
    obtain rfl := exact_boolean (.inr rfl) exact
    obtain ⟨a, rfl⟩ := Value.exists_bool left
    obtain ⟨b, rfl⟩ := Value.exists_bool right
    cases a <;> simp [survivor?, Side.other] at law <;> subst law
    · exact ⟨rfl, by cases b <;> rfl⟩
    · exact .inl rfl
  | eq =>
    cases v <;> simp [survivor?, Side.other] at law
    rename_i a
    obtain ⟨⟨rfl, rfl⟩, rfl⟩ := law
    obtain ⟨b, rfl⟩ := Value.exists_bool right
    exact ⟨rfl, by cases b <;> rfl⟩
  | plus =>
    obtain ⟨i, j, number, other, computes⟩ := reference_arithmetic (.inl rfl) left right exact
    simp [survivor?, Side.other] at law
    obtain ⟨⟨-, zero⟩, rfl⟩ := law
    refine ⟨rfl, computes w j right other (by simp) ?_⟩
    simp [Reference.integral?, (Value.isZero_iff number).mp zero]
  | mul =>
    obtain ⟨i, j, number, other, computes⟩ :=
      reference_arithmetic (.inr (.inr (.inl rfl))) left right exact
    simp only [survivor?, Side.other] at law
    split at law
    · rename_i one
      cases law
      refine ⟨rfl, computes w j right other (by simp) ?_⟩
      simp [Reference.integral?, (Value.isOne_iff number).mp one]
    · split at law
      · rename_i zero
        cases law
        simp only [Bool.and_eq_true] at zero
        refine .inr ⟨zero.2, computes v i left number (by simp) ?_⟩
        simp [Reference.integral?, (Value.isZero_iff number).mp zero.1.2]
      · cases law
  | bitOr | bitXor | bitAnd | ne | lt | gt | le | ge | shl | shr | ushr | minus | div | mod
  | instanceOf => simp [survivor?] at law

/-- A law for a literal on the right. -/
theorem survivor?_right {survives : Side} {other : Expr} (left : v.primitive? = some t)
    (right : w.primitive? = some t) (exact : op.exactTy? t t = some t)
    (law : survivor? op (.primitive t) w .right other = some survives) :
    match survives with
    | .left => Reference.binary? op v w = some (.value v)
    | .right => other.isPure ∧ (op.decides v → v = w) ∧
        Reference.binary? op v w = some (.value w) := by
  cases op with
  | and =>
    obtain rfl := exact_boolean (.inl rfl) exact
    obtain ⟨a, rfl⟩ := Value.exists_bool left
    obtain ⟨b, rfl⟩ := Value.exists_bool right
    cases b <;> simp [survivor?, Side.other] at law
    · obtain ⟨isPure, rfl⟩ := law
      exact ⟨isPure, by simp [BinaryOp.decides], by cases a <;> rfl⟩
    · subst law
      cases a <;> rfl
  | or =>
    obtain rfl := exact_boolean (.inr rfl) exact
    obtain ⟨a, rfl⟩ := Value.exists_bool left
    obtain ⟨b, rfl⟩ := Value.exists_bool right
    cases b <;> simp [survivor?, Side.other] at law
    · subst law
      cases a <;> rfl
    · obtain ⟨isPure, rfl⟩ := law
      exact ⟨isPure, by simp [BinaryOp.decides], by cases a <;> rfl⟩
  | eq =>
    cases w <;> simp [survivor?, Side.other] at law
    rename_i b
    obtain ⟨⟨rfl, rfl⟩, rfl⟩ := law
    obtain ⟨a, rfl⟩ := Value.exists_bool left
    cases a <;> rfl
  | plus =>
    obtain ⟨i, j, number, other, computes⟩ := reference_arithmetic (.inl rfl) left right exact
    simp [survivor?, Side.other] at law
    obtain ⟨⟨-, zero⟩, rfl⟩ := law
    refine computes v i left number (by simp) ?_
    simp [Reference.integral?, (Value.isZero_iff other).mp zero]
  | minus =>
    obtain ⟨i, j, number, other, computes⟩ :=
      reference_arithmetic (.inr (.inl rfl)) left right exact
    have integral : (Ty.primitive t).isIntegral := Value.integral_of_integer left number
    simp [survivor?, Side.other, integral] at law
    obtain ⟨zero, rfl⟩ := law
    refine computes v i left number (by simp) ?_
    simp [Reference.integral?, (Value.isZero_iff other).mp zero]
  | mul =>
    obtain ⟨i, j, number, other, computes⟩ :=
      reference_arithmetic (.inr (.inr (.inl rfl))) left right exact
    simp only [survivor?, Side.other] at law
    split at law
    · rename_i one
      cases law
      refine computes v i left number (by simp) ?_
      simp [Reference.integral?, (Value.isOne_iff other).mp one]
    · split at law
      · rename_i zero
        cases law
        simp only [Bool.and_eq_true] at zero
        refine ⟨zero.2, by simp [BinaryOp.decides], computes w j right other (by simp) ?_⟩
        simp [Reference.integral?, (Value.isZero_iff other).mp zero.1.2]
      · cases law
  | div =>
    obtain ⟨i, j, number, other, computes⟩ :=
      reference_arithmetic (.inr (.inr (.inr rfl))) left right exact
    simp [survivor?, Side.other] at law
    obtain ⟨one, rfl⟩ := law
    have one := (Value.isOne_iff other).mp one
    refine computes v i left number (by simp [one]) ?_
    simp [Reference.integral?, one]
  | bitOr | bitXor | bitAnd | ne | lt | gt | le | ge | shl | shr | ushr | mod | instanceOf =>
    simp [survivor?] at law

end Pass

/-! Evaluations that change nothing. -/

namespace Scope

/-- From a store that fits, the computation gives a result in `P` and changes nothing. -/
def Quiet {α : Type} (scope : Scope) (P : α → Prop) (x : Evaluation World Thrown α) : Prop :=
  ∀ state, scope.Fits state → ∃ a, x state = .ok a state ∧ P a

variable {α β : Type} {P : α → Prop} {Q : β → Prop} {x : Evaluation World Thrown α}
  {f : α → Evaluation World Thrown β}

theorem Quiet.pure {a : α} (holds : P a) : scope.Quiet P (Pure.pure a : Evaluation World Thrown α) :=
  fun _ _ => ⟨a, rfl, holds⟩

theorem Quiet.bind (first : scope.Quiet P x) (next : ∀ a, P a → scope.Quiet Q (f a)) :
    scope.Quiet Q (x >>= f) := by
  intro state fits
  obtain ⟨a, run, holds⟩ := first state fits
  obtain ⟨b, rest, result⟩ := next a holds state fits
  exact ⟨b, by rw [Evaluation.bind_run, run]; exact rest, result⟩

/-- A computation that changes nothing may be left out if its result does not matter. -/
theorem Quiet.skip (quiet : scope.Quiet P x) {y : Evaluation World Thrown β}
    (next : ∀ a, P a → scope.Agrees (f a) y) : scope.Agrees (x >>= f) y := by
  intro state fits
  obtain ⟨a, run, holds⟩ := quiet state fits
  rw [Evaluation.bind_run, run]
  exact next a holds state fits

end Scope

namespace Expr

theorem quiet_castAll {casts : List Cast} (typed : v.primitive? = some p)
    (leads : castTy? p casts = some q) :
    scope.Quiet (fun w => w.primitive? = some q)
      (.ofOption (Reference.castAll v casts) : Evaluation World Thrown Value) := by
  obtain ⟨w, cast, result⟩ := Reference.castAll_exact typed leads
  rw [cast]
  exact .pure result

theorem exists_nonzero {r : Expr} (nonzero : r.isNonzeroInteger) :
    ∃ v ty, r = literal v ⟨ty, []⟩ ∧ v.isZero = false := by
  cases r <;> simp only [isNonzeroInteger, Bool.false_eq_true] at nonzero
  rename_i v s
  obtain ⟨ty, casts⟩ := s
  simp only [List.isEmpty_iff, Bool.and_eq_true, Option.any_eq_true] at nonzero
  obtain ⟨rfl, i, number, nonzero⟩ := nonzero
  refine ⟨v, ty, rfl, ?_⟩
  rw [← Bool.not_eq_true, Value.isZero_iff number]
  simpa using nonzero

/-- A pure expression has a value in every store, and its evaluation changes nothing. -/
theorem quiet_eval : ∀ (e : Expr) (q : Primitive), e.exactTy? scope = some q →
    e.hasSideEffects = false → e.mayThrow = false →
    scope.Quiet (fun v => v.primitive? = some q) (e.eval methods)
  | literal v s, q, typed, _, _ => by
    obtain ⟨p, own, -, -, leads⟩ := exactTy?_literal.mp typed
    rw [eval]
    exact quiet_castAll own leads
  | read id name s, q, typed, _, _ => by
    obtain ⟨p, declared, -, -, leads⟩ := exactTy?_read.mp typed
    rw [eval]
    exact fun state fits => quiet_castAll (fits.typed id p declared) leads state fits
  | unary op x s, q, typed, effects, throws => by
    obtain ⟨p, t, operand, exact, -, leads, -⟩ := exactTy?_unary.mp typed
    simp only [hasSideEffects, mayThrow, Bool.or_eq_false_iff] at effects throws
    rw [eval_unary effects.1]
    refine (quiet_eval x p operand effects.2 throws.2).bind fun v typed => ?_
    obtain ⟨w, computed, result⟩ := reference_unary_exact typed exact effects.1
    rw [computed]
    exact quiet_castAll result leads
  | binary op l r s, q, typed, effects, throws => by
    obtain ⟨tl, tr, t, left, right, exact, own, leads⟩ := exactTy?_binary.mp typed
    simp only [hasSideEffects, mayThrow, Bool.or_eq_false_iff] at effects throws
    obtain ⟨⟨⟨-, division⟩, leftThrows⟩, rightThrows⟩ := throws
    have notFloating : s.ty.any Ty.isFloating = false := by
      have exact := isExact_of_binary exact
      rcases own with untyped | typed
      · simp [untyped]
      · rw [typed]
        cases t <;> first | rfl | contradiction
    have nonzero : (op = .div ∨ op = .mod) → r.isNonzeroInteger := by
      simpa [notFloating] using division
    have rightQuiet : scope.Quiet (fun b => b.primitive? = some tr ∧
        ((op = .div ∨ op = .mod) → b.isZero = false)) (r.eval methods) := by
      by_cases divides : op = .div ∨ op = .mod
      · obtain ⟨v, ty, rfl, notZero⟩ := exists_nonzero (nonzero divides)
        obtain ⟨_, own, -, -, same⟩ := exactTy?_literal.mp right
        cases same
        exact .pure ⟨own, fun _ => notZero⟩
      · exact fun state fits => by
          obtain ⟨b, run, typed⟩ := quiet_eval r tr right effects.2 rightThrows state fits
          exact ⟨b, run, typed, fun divide => (divides divide).elim⟩
    rw [eval_binary]
    refine (quiet_eval l tl left effects.1 leftThrows).bind fun a leftTyped => ?_
    refine Scope.Quiet.bind (P := fun v => v.primitive? = some t) ?_ fun v typed =>
      quiet_castAll typed leads
    rw [evalRight]
    split
    · rename_i decides
      exact .pure (boolean_of_decides decides exact)
    · refine rightQuiet.bind fun b typed => ?_
      obtain ⟨rightTyped, nonzero⟩ := typed
      rcases reference_binary_exact leftTyped rightTyped exact with zero | ⟨u, value, typed⟩
      · obtain ⟨divides, isZero⟩ := BinaryOp.zero_of_division leftTyped rightTyped exact zero
        cases (nonzero divides).symm.trans isZero
      · rw [value]
        exact .pure typed
  | call _ _ _, _, _, effects, _ => by cases effects
  | typeRef _ _, _, typed, _, _ => by cases typed

end Expr

namespace Refines

variable {l r : Expr} {s : Static} (respects : methods.Respects scope)

theorem exists_bareValue (methods : Methods World Thrown) {e : Expr} (bare : e.bareValue? = some v)
    (typed : e.exactTy? scope = some t) :
    v.primitive? = some t ∧ e.eval methods = pure v := by
  match e with
  | .literal u ⟨ty, []⟩ =>
    cases bare
    obtain ⟨p, own, -, -, same⟩ := Expr.exactTy?_literal.mp typed
    cases same
    exact ⟨own, by rw [Expr.eval]; rfl⟩

include respects

/-- An operator with a literal on the left reduces by a law. -/
theorem survivor_left {survives : Side} (bare : l.bareValue? = some v)
    (left : l.exactTy? scope = some t) (right : r.exactTy? scope = some t)
    (exact : op.exactTy? t t = some t)
    (law : Pass.survivor? op (.primitive t) v .left r = some survives) :
    scope.Agrees ((survives.operand l r).eval methods)
      (l.eval methods >>= fun a => Expr.evalRight op a (r.eval methods)) := by
  obtain ⟨own, constant⟩ := exists_bareValue methods bare left
  have same (w : Value) (typed : w.primitive? = some t) :=
    Pass.survivor?_left own typed exact law
  have keeps := Expr.keeps_eval respects r t right
  rw [constant, pure_bind, Expr.evalRight]
  cases survives with
  | right =>
    rw [(same v own).1, if_neg Bool.false_ne_true]
    suffices scope.Agrees (r.eval methods >>= pure)
        (r.eval methods >>= fun b => .ofOutcome (Reference.binary? op v b)) by
      rwa [bind_pure] at this
    refine Scope.Agrees.bind (.refl _) keeps fun b typed => ?_
    rw [(same b typed).2]
    exact .refl _
  | left =>
    simp only [Side.operand, constant]
    split
    · exact .refl _
    · rename_i undecided
      have isPure : r.isPure := ((same v own).resolve_left undecided).1
      simp only [Expr.isPure, Bool.and_eq_true, Bool.not_eq_true'] at isPure
      refine (Scope.Quiet.skip (Expr.quiet_eval r t right isPure.1 isPure.2) fun b typed => ?_).symm
      rw [((same b typed).resolve_left undecided).2]
      exact .refl _

/-- An operator with a literal on the right reduces by a law. -/
theorem survivor_right {survives : Side} (bare : r.bareValue? = some w)
    (left : l.exactTy? scope = some t) (right : r.exactTy? scope = some t)
    (exact : op.exactTy? t t = some t)
    (law : Pass.survivor? op (.primitive t) w .right l = some survives) :
    scope.Agrees ((survives.operand l r).eval methods)
      (l.eval methods >>= fun a => Expr.evalRight op a (r.eval methods)) := by
  obtain ⟨own, constant⟩ := exists_bareValue methods bare right
  have same (v : Value) (typed : v.primitive? = some t) :=
    Pass.survivor?_right typed own exact law
  have keeps := Expr.keeps_eval respects l t left
  simp only [constant, Expr.evalRight, pure_bind]
  cases survives with
  | left =>
    suffices scope.Agrees (l.eval methods >>= pure)
        (l.eval methods >>= fun a => if op.decides a then pure a
          else .ofOutcome (Reference.binary? op a w)) by
      rwa [bind_pure] at this
    refine Scope.Agrees.bind (.refl _) keeps fun a typed => ?_
    rw [same a typed]
    split <;> exact .refl _
  | right =>
    have isPure : l.isPure := (same w own).1
    simp only [Expr.isPure, Bool.and_eq_true, Bool.not_eq_true'] at isPure
    simp only [Side.operand, constant]
    refine (Scope.Quiet.skip (Expr.quiet_eval l t left isPure.1 isPure.2) fun a typed => ?_).symm
    obtain ⟨-, decided, value⟩ := same a typed
    split
    · rename_i decides
      rw [decided decides]
      exact .refl _
    · rw [value]
      exact .refl _

/-- Of promoted operands the one remains that the laws say. -/
theorem survivingSide {survives : Side} (left : l.exactTy? scope = some tl)
    (right : r.exactTy? scope = some tr) (operands : op.exactOperands tl tr = (tl, tr))
    (law : Pass.survivingSide? op l r = some survives) :
    Refines scope methods (.binary op l r s)
      ((survives.operand l r).addCasts s.casts) := by
  intro q typed
  obtain ⟨tl', tr', t, left', right', exact, -, leads⟩ := Expr.exactTy?_binary.mp typed
  cases left.symm.trans left'
  cases right.symm.trans right'
  simp only [Pass.survivingSide?, Expr.binaryPromotedTy?_exact left right exact, operands,
    Option.bind_some, Option.or_eq_some_iff, Option.bind_eq_some_iff] at law
  suffices tl = t ∧ tr = t ∧
      scope.Agrees ((survives.operand l r).eval methods)
        (l.eval methods >>= fun a => Expr.evalRight op a (r.eval methods)) by
    obtain ⟨rfl, rfl, agrees⟩ := this
    refine ⟨?_, ?_, fun isVariable => by cases isVariable⟩
    · have remains : (survives.operand l r).exactTy? scope = some tr := by
        cases survives <;> assumption
      rw [Expr.exactTy?_addCasts, remains]
      exact leads
    · rw [Expr.eval_addCasts, Expr.eval_binary, ← bind_assoc]
      have keeps := (Expr.keeps_eval respects l _ left).bind fun a leftTyped =>
        Expr.keeps_evalRight leftTyped (Expr.keeps_eval respects r _ right) exact
      exact agrees.bind keeps fun _ _ => .refl _
  rcases law with ⟨v, bare, law⟩ | ⟨-, w, bare, law⟩
  · obtain ⟨-, rfl, rfl⟩ := Pass.survivor?_types law rfl exact operands
    exact ⟨rfl, rfl, survivor_left respects bare left right exact law⟩
  · obtain ⟨-, rfl, rfl⟩ := Pass.survivor?_types law rfl exact operands
    exact ⟨rfl, rfl, survivor_right respects bare left right exact law⟩

end Refines

namespace Pass

theorem sound_reduceIdentities (respects : methods.Respects scope) :
    reduceIdentities.Sound scope methods := by
  refine Within.ofLeave Refines.refl rfl rfl fun e e' done => ?_
  rcases reduceIdentities_ok done with ⟨rfl, -⟩ | ⟨op, l, r, s, y, rfl, survives, rfl⟩
  · exact .refl _
  obtain ⟨l', r', side, leftVisited, rightVisited, law, rfl⟩ := survivingOperand?_eq_some survives
  intro q typed
  obtain ⟨tl, tr, t, left, right, exact, -, -⟩ := Expr.exactTy?_binary.mp typed
  have sound := sound_promoteOperands respects .all
  have visited : (promoteOperands .all).visit (.binary op l r s) = .ok (.binary op l' r' s) := by
    rw [visit_promoteOperands_binary, leftVisited, rightVisited]
    rfl
  have refines := sound.visit (Refines.congruence respects) visited
  rw [promotedOperands_exact .all left right exact] at leftVisited rightVisited
  obtain ⟨leftCasts, rightCasts⟩ := BinaryOp.casts_exactOperands exact
  have leftTyped := (sound.visit (Refines.congruence respects) leftVisited _
    (Expr.exactTy?_castTo left leftCasts)).typed
  have rightTyped := (sound.visit (Refines.congruence respects) rightVisited _
    (Expr.exactTy?_castTo right rightCasts)).typed
  have sameBoth := (BinaryOp.exactOperands_both exact).2
  have reduced := Refines.survivingSide (s := s) respects leftTyped rightTyped sameBoth law
  exact (refines.trans reduced).trans (.applyCasts _) q typed

end Pass

end ConstFold
