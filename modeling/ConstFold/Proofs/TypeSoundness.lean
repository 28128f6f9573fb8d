import ConstFold.Proofs.ExactInference

/-! Evaluation of well-typed expressions. From a store that fits the scope an evaluation ends
with a value of the type of the expression and a store that fits again, or it throws; it is
never stuck. -/
namespace ConstFold

variable {World Thrown α β : Type}

namespace Scope

/-- The variables hold values of their types, and those that keep one value hold that value. -/
structure Fits (scope : Scope) (state : State World) : Prop where
  typed : ∀ id p, scope.types id = some p → (state.vars id).primitive? = some p
  constant : ∀ id v, scope.constants id = some v → state.vars id = v

variable (scope : Scope)

/-- From a store that fits, the computation ends with a result in `P` and a store that fits, or
it throws. -/
def Keeps (P : α → Prop) (x : Evaluation World Thrown α) : Prop :=
  ∀ state, scope.Fits state →
    match x state with
    | .ok a final => P a ∧ scope.Fits final
    | .error stop _ => stop ≠ .stuck

/-- The computations end in the same way from every store that fits. -/
def Agrees (x y : Evaluation World Thrown α) : Prop := ∀ state, scope.Fits state → x state = y state

end Scope

namespace Evaluation

theorem bind_run (x : Evaluation World Thrown α) (f : α → Evaluation World Thrown β)
    (state : State World) :
    (x >>= f) state =
      match x state with
      | .ok a next => f a next
      | .error stop final => .error stop final := by
  show EStateM.bind x f state = _
  rw [EStateM.bind]
  cases x state <;> rfl

@[simp] theorem ofOption_some (a : α) :
    (ofOption (some a) : Evaluation World Thrown α) = pure a := rfl

@[simp] theorem ofOutcome_value (v : Value) :
    (ofOutcome (some (.value v)) : Evaluation World Thrown Value) = pure v := rfl

theorem ofOption_bind (a : Option α) (f : α → Option β) :
    (ofOption (a.bind f) : Evaluation World Thrown β) = ofOption a >>= fun a => ofOption (f a) := by
  cases a <;> rfl

end Evaluation

namespace Scope

variable {scope : Scope} {P : α → Prop} {Q : β → Prop} {x y z : Evaluation World Thrown α}
  {f g : α → Evaluation World Thrown β}

theorem Keeps.pure {a : α} (holds : P a) : scope.Keeps P (Pure.pure a : Evaluation World Thrown α) :=
  fun _ fits => ⟨holds, fits⟩

theorem Keeps.bind (first : scope.Keeps P x) (next : ∀ a, P a → scope.Keeps Q (f a)) :
    scope.Keeps Q (x >>= f) := by
  intro state fits
  have first := first state fits
  rw [Evaluation.bind_run]
  cases result : x state with
  | ok a middle =>
    rw [result] at first
    exact next a first.1 middle first.2
  | error stop final =>
    rw [result] at first
    exact first

theorem Keeps.throw {stop : Abrupt Thrown} (proper : stop ≠ .stuck) :
    scope.Keeps P (MonadExcept.throw stop : Evaluation World Thrown α) := fun _ _ => proper

theorem Agrees.refl (x : Evaluation World Thrown α) : scope.Agrees x x := fun _ _ => rfl

theorem Agrees.symm (same : scope.Agrees x y) : scope.Agrees y x :=
  fun state fits => (same state fits).symm

theorem Agrees.trans (first : scope.Agrees x y) (second : scope.Agrees y z) : scope.Agrees x z :=
  fun state fits => (first state fits).trans (second state fits)

/-- Computations that agree can be followed by computations that agree on the results. -/
theorem Agrees.bind (first : scope.Agrees x y) (keeps : scope.Keeps P y)
    (next : ∀ a, P a → scope.Agrees (f a) (g a)) : scope.Agrees (x >>= f) (y >>= g) := by
  intro state fits
  have kept := keeps state fits
  rw [Evaluation.bind_run, Evaluation.bind_run, first state fits]
  cases result : y state with
  | ok a middle =>
    rw [result] at kept
    exact next a kept.1 middle kept.2
  | error stop final => rfl

end Scope

/-- Methods return values of the type of the call, and leave a store that fits. -/
def Methods.Respects (methods : Methods World Thrown) (scope : Scope) : Prop :=
  ∀ name p args, scope.Keeps (fun v => v.primitive? = some p) (methods name (some (.primitive p)) args)

namespace Expr

variable {scope : Scope} {methods : Methods World Thrown} {e : Expr} {p q t : Primitive}

theorem eval_unary {op : UnaryOp} {x : Expr} {s : Static} (noStep : op.isStep = false) :
    (unary op x s).eval methods =
      x.eval methods >>= fun v => .ofOption (Reference.unary? op v) >>= fun w =>
        .ofOption (Reference.castAll w s.casts) := by
  simp only [eval, noStep, Bool.false_eq_true, if_false]

theorem eval_step {op : UnaryOp} {id : VarId} {name : Name} {ty : Option Ty} {s : Static}
    (step : op.isStep) :
    (unary op (read id name ⟨ty, []⟩) s).eval methods =
      evalStep op id >>= fun w => .ofOption (Reference.castAll w s.casts) := by
  simp only [eval, step, if_true]

/-- The value of a binary operator, from that of its left operand. -/
def evalRight (op : BinaryOp) (a : Value) (right : Evaluation World Thrown Value) :
    Evaluation World Thrown Value :=
  if op.decides a then pure a else right >>= fun b => .ofOutcome (Reference.binary? op a b)

theorem eval_binary {op : BinaryOp} {l r : Expr} {s : Static} :
    (binary op l r s).eval methods =
      l.eval methods >>= fun a => evalRight op a (r.eval methods) >>= fun v =>
        .ofOption (Reference.castAll v s.casts) := by
  rw [eval]
  congr 1
  funext a
  rw [evalRight]
  split
  · simp only [pure_bind]
  · simp only [bind_assoc]

/-- The casts of a node are applied to the value it has without them. -/
theorem eval_withCasts (e : Expr) (casts : List Cast) :
    (e.withCasts casts).eval methods =
      (e.withCasts []).eval methods >>= fun v => .ofOption (Reference.castAll v casts) := by
  cases e with
  | literal | read | call =>
    simp only [withCasts, withStatic, eval, Reference.castAll, Evaluation.ofOption_some,
      bind_assoc, pure_bind]
  | typeRef => rfl
  | unary op x s =>
    cases step : op.isStep with
    | false =>
      simp only [withCasts, withStatic, eval_unary step, Reference.castAll,
        Evaluation.ofOption_some, bind_assoc, pure_bind]
    | true =>
      simp only [withCasts, withStatic, eval, step, if_true]
      split
      · simp only [Reference.castAll, Evaluation.ofOption_some, bind_assoc, pure_bind]
      · rfl
  | binary op l r s =>
    simp only [withCasts, withStatic, eval_binary, Reference.castAll, Evaluation.ofOption_some,
      bind_assoc, pure_bind]

theorem eval_addCasts (e : Expr) (casts : List Cast) :
    (e.addCasts casts).eval methods =
      e.eval methods >>= fun v => .ofOption (Reference.castAll v casts) := by
  conv_rhs => rw [← withCasts_casts e, eval_withCasts]
  rw [addCasts, eval_withCasts, bind_assoc]
  simp only [Reference.castAll_append, Evaluation.ofOption_bind]

theorem keeps_castAll {v : Value} {casts : List Cast} (typed : v.primitive? = some p)
    (leads : castTy? p casts = some q) :
    scope.Keeps (fun w => w.primitive? = some q)
      (.ofOption (Reference.castAll v casts) : Evaluation World Thrown Value) := by
  obtain ⟨w, cast, result⟩ := Reference.castAll_exact typed leads
  rw [cast]
  exact .pure result

theorem stepped_exact {op : UnaryOp} {v : Value} (typed : v.primitive? = some p)
    (integral : p.isIntegral) (step : op.isStep) :
    ∃ w, op.stepped? v = some w ∧ w.primitive? = some p := by
  obtain ⟨i, number⟩ := Value.exists_integer typed integral
  obtain ⟨_, reference⟩ := Value.reference_integer number
  cases op <;> first
    | contradiction
    | (simp only [UnaryOp.stepped?, typed, reference, Option.bind_some, Value.reference_ofInteger]
       exact Value.exists_ofInteger integral _)

theorem evalStep_run (op : UnaryOp) (id : VarId) (state : State World) :
    (evalStep op id : Evaluation World Thrown Value) state =
      match op.stepped? (state.vars id) with
      | some new => .ok (if op.followsOperand then state.vars id else new)
          { state with vars := Function.update state.vars id new }
      | none => .error .stuck state := by
  show ((Evaluation.ofOption (op.stepped? (state.vars id)) >>= fun new => do
    set { state with vars := Function.update state.vars id new }
    pure (if op.followsOperand then state.vars id else new)) :
      Evaluation World Thrown Value) state = _
  cases op.stepped? (state.vars id) <;> rfl

/-- An assignment keeps a store that fits, if the variable may change. -/
theorem keeps_evalStep {op : UnaryOp} {id : VarId} (declared : scope.types id = some p)
    (changes : scope.constants id = none) (integral : p.isIntegral) (step : op.isStep) :
    scope.Keeps (fun w => w.primitive? = some p)
      (evalStep op id : Evaluation World Thrown Value) := by
  intro state fits
  have old := fits.typed id p declared
  obtain ⟨new, stepped, typed⟩ := stepped_exact old integral step
  rw [evalStep_run, stepped]
  refine ⟨by split <;> assumption, ⟨fun other q otherTy => ?_, fun other v constant => ?_⟩⟩
  · by_cases same : other = id
    · subst same
      rw [declared] at otherTy
      simpa [← Option.some.inj otherTy] using typed
    · simpa [same] using fits.typed other q otherTy
  · have different : other ≠ id := by
      rintro rfl
      cases changes.symm.trans constant
    simpa [different] using fits.constant other v constant

theorem exists_variable {x : Expr} (isVariable : exactTy?.isVariable scope x) :
    ∃ id name ty, x = read id name ⟨ty, []⟩ ∧ scope.constants id = none := by
  match x with
  | read id name ⟨ty, []⟩ => exact ⟨id, name, ty, rfl, by simpa [exactTy?.isVariable] using isVariable⟩

theorem integral_of_step {op : UnaryOp} (exact : op.exactTy? p = some t) (step : op.isStep) :
    p.isIntegral ∧ t = p := by
  cases op <;> first
    | contradiction
    | (simp only [UnaryOp.exactTy?, Option.ite_none_right_eq_some, Option.some.injEq] at exact
       exact ⟨exact.1, exact.2.symm⟩)

theorem reference_unary_exact {op : UnaryOp} {v : Value} (typed : v.primitive? = some p)
    (exact : op.exactTy? p = some t) (noStep : op.isStep = false) :
    ∃ w, Reference.unary? op v = some w ∧ w.primitive? = some t := by
  obtain ⟨casts, promoted⟩ : p.casts t ∧ op.exactTy? t = some t :=
    UnaryOp.promoted_exact exact noStep
  obtain ⟨u, made, -, result⟩ := Value.convert_exact typed casts
  obtain ⟨w, -, computed, last⟩ := UnaryOp.apply_exact result promoted noStep
  exact ⟨w, (UnaryOp.reference_promote typed exact noStep made).symm.trans computed, last⟩

/-- On values of exact types an operator has a value of its type, or divides by zero. -/
theorem reference_binary_exact {op : BinaryOp} {v w : Value} (left : v.primitive? = some p)
    (right : w.primitive? = some q) (exact : op.exactTy? p q = some t) :
    Reference.binary? op v w = some .divisionByZero ∨
      ∃ u, Reference.binary? op v w = some (.value u) ∧ u.primitive? = some t := by
  obtain ⟨leftCasts, rightCasts⟩ := BinaryOp.casts_exactOperands exact
  obtain ⟨v', leftMade, -, leftTyped⟩ := Value.convert_exact left leftCasts
  obtain ⟨w', rightMade, -, rightTyped⟩ := Value.convert_exact right rightCasts
  obtain ⟨exactBoth, sameBoth⟩ := BinaryOp.exactOperands_both exact
  have promoted := BinaryOp.reference_promoteBoth left right exact leftMade rightMade
  rcases BinaryOp.apply_exact leftTyped rightTyped exactBoth sameBoth with
    ⟨zero, -⟩ | ⟨-, u, -, value, typed⟩
  · exact .inl (promoted.symm.trans zero)
  · exact .inr ⟨u, promoted.symm.trans value, typed⟩

theorem keeps_ofOutcome {op : BinaryOp} {v w : Value} (left : v.primitive? = some p)
    (right : w.primitive? = some q) (exact : op.exactTy? p q = some t) :
    scope.Keeps (fun u => u.primitive? = some t)
      (.ofOutcome (Reference.binary? op v w) : Evaluation World Thrown Value) := by
  rcases reference_binary_exact left right exact with zero | ⟨u, value, typed⟩
  · rw [zero]
    exact .throw (by simp)
  · rw [value]
    exact .pure typed

/-- A value that decides has the type of the operator. -/
theorem boolean_of_decides {op : BinaryOp} {v : Value} (decides : op.decides v)
    (exact : op.exactTy? p q = some t) : v.primitive? = some t := by
  simp only [BinaryOp.decides, Bool.or_eq_true, Bool.and_eq_true, decide_eq_true_eq] at decides
  rcases decides with ⟨rfl, rfl⟩ | ⟨rfl, rfl⟩
  all_goals
    simp only [BinaryOp.exactTy?, Option.ite_none_right_eq_some, Option.some.injEq] at exact
    exact congrArg some exact.2

theorem keeps_evalRight {op : BinaryOp} {a : Value} {right : Evaluation World Thrown Value}
    (left : a.primitive? = some p) (keeps : scope.Keeps (fun b => b.primitive? = some q) right)
    (exact : op.exactTy? p q = some t) :
    scope.Keeps (fun u => u.primitive? = some t) (evalRight op a right) := by
  rw [evalRight]
  split
  · rename_i decides
    exact .pure (boolean_of_decides decides exact)
  · exact keeps.bind fun b typed => keeps_ofOutcome left typed exact

section Soundness

-- The recursion follows the expression: operands before operators, arguments before calls.
mutual

theorem keeps_eval (respects : methods.Respects scope) : ∀ (e : Expr) (q : Primitive),
    e.exactTy? scope = some q → scope.Keeps (fun v => v.primitive? = some q) (e.eval methods)
  | literal v s, q, typed => by
    obtain ⟨p, own, -, -, leads⟩ := exactTy?_literal.mp typed
    rw [eval]
    exact keeps_castAll own leads
  | read id name s, q, typed => by
    obtain ⟨p, declared, -, -, leads⟩ := exactTy?_read.mp typed
    rw [eval]
    exact fun state fits => keeps_castAll (fits.typed id p declared) leads state fits
  | call name args s, q, typed => by
    obtain ⟨operands, p, -, own, leads⟩ := exactTy?_call.mp typed
    rw [eval, own]
    refine (keeps_evalAll respects args operands).bind fun values _ => ?_
    exact (respects name p values).bind fun v typed => keeps_castAll typed leads
  | unary op x s, q, typed => by
    obtain ⟨p, t, operand, exact, -, leads, step⟩ := exactTy?_unary.mp typed
    cases isStep : op.isStep with
    | false =>
      rw [eval_unary isStep]
      refine (keeps_eval respects x p operand).bind fun v typed => ?_
      obtain ⟨w, computed, result⟩ := reference_unary_exact typed exact isStep
      rw [computed]
      exact keeps_castAll result leads
    | true =>
      obtain ⟨id, name, ty, rfl, changes⟩ := exists_variable (step isStep)
      obtain ⟨integral, rfl⟩ := integral_of_step exact isStep
      obtain ⟨p, declared, -, -, same⟩ := exactTy?_read.mp operand
      cases same
      rw [eval_step isStep]
      exact (keeps_evalStep declared changes integral isStep).bind fun v typed =>
        keeps_castAll typed leads
  | binary op l r s, q, typed => by
    obtain ⟨tl, tr, t, left, right, exact, -, leads⟩ := exactTy?_binary.mp typed
    rw [eval_binary]
    refine (keeps_eval respects l tl left).bind fun a leftTyped => ?_
    refine (keeps_evalRight leftTyped (keeps_eval respects r tr right) exact).bind fun v typed => ?_
    exact keeps_castAll typed leads
  | typeRef _ _, q, typed => by cases typed

theorem keeps_evalAll (respects : methods.Respects scope) : ∀ args : List Expr,
    allExact scope args → scope.Keeps (fun _ => True) (evalAll methods args)
  | [], _ => by
    rw [evalAll]
    exact .pure trivial
  | e :: rest, typed => by
    rw [allExact, Bool.and_eq_true, Option.isSome_iff_exists] at typed
    obtain ⟨⟨p, first⟩, others⟩ := typed
    rw [evalAll]
    refine (keeps_eval respects e p first).bind fun v _ => ?_
    exact (keeps_evalAll respects rest others).bind fun values _ => .pure trivial

end

end Soundness

/-- Casts that do the same to values of the type before them do the same to the node. -/
theorem agrees_recast (respects : methods.Respects scope)
    (bare : (e.withCasts []).exactTy? scope = some t) (casts further : List Cast)
    {f : Value → Option Value} (same : ∀ v, v.primitive? = some t →
      Reference.castAll v further = (Reference.castAll v casts).bind f) :
    scope.Agrees ((e.withCasts further).eval methods)
      ((e.withCasts casts).eval methods >>= fun v => .ofOption (f v)) := by
  rw [eval_withCasts e further, eval_withCasts e casts, bind_assoc]
  refine Scope.Agrees.bind (.refl _) (keeps_eval respects _ t bare) fun v typed => ?_
  rw [same v typed, Evaluation.ofOption_bind]
  exact .refl _

/-- A cast to `t` and what follows, in place of an expression and what follows it. -/
theorem agrees_castTo_bind (respects : methods.Respects scope) (typed : e.exactTy? scope = some q)
    (related : q.casts t) {f g : Value → Evaluation World Thrown Value}
    (next : ∀ v w, v.primitive? = some q → v.convert t = some w → w.primitive? = some t →
      scope.Agrees (f w) (g v)) :
    scope.Agrees ((e.castTo (.primitive t)).eval methods >>= f) (e.eval methods >>= g) := by
  obtain ⟨b, bare, exact, admits, leads⟩ := exists_bareTy typed
  have recast := agrees_recast respects bare e.casts _
    (Static.castTo_exact admits exact leads related).2
  rw [← castTo_eq, withCasts_casts] at recast
  have keeps := keeps_eval respects e q typed
  have cast : scope.Keeps (fun w => w.primitive? = some t)
      (e.eval methods >>= fun v => .ofOption (Reference.cast v t)) :=
    keeps.bind fun v typed => by
      obtain ⟨w, -, made, result⟩ := Value.convert_exact typed related
      rw [made]
      exact .pure result
  refine (recast.bind cast fun _ _ => .refl _).trans ?_
  rw [bind_assoc]
  refine Scope.Agrees.bind (.refl _) keeps fun v typed => ?_
  obtain ⟨w, converted, made, result⟩ := Value.convert_exact typed related
  rw [made, Evaluation.ofOption_some, pure_bind]
  exact next v w typed converted result

end Expr

end ConstFold
