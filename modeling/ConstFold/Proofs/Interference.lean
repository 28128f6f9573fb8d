import ConstFold.Proofs.Soundness.Identity

/-! Which variables the evaluation of an expression may change, and which ones its value hangs on.
An expression without side effects has the same value before and after the evaluation of another
one that changes none of the variables it reads. -/
namespace ConstFold

namespace Expr

mutual

/-- The variables that occur, assigned ones included. -/
def occurring : Expr → List VarId
  | read id _ _ => [id]
  | unary _ x _ => x.occurring
  | binary _ l r _ => l.occurring ++ r.occurring
  | call _ args _ => occurringInAll args
  | literal _ _ | typeRef _ _ => []

def occurringInAll : List Expr → List VarId
  | [] => []
  | e :: rest => e.occurring ++ occurringInAll rest

end

/-- Evaluation may change the variable: it is assigned, or it keeps no value and some method is
called. -/
def mayChange (scope : Scope) (id : VarId) : Expr → Bool
  | call _ _ _ => scope.constants id = none
  | unary op x _ => (op.isStep && x.occurring.contains id) || x.mayChange scope id
  | binary _ l r _ => l.mayChange scope id || r.mayChange scope id
  | literal _ _ | read _ _ _ | typeRef _ _ => false

/-- Evaluation may change a variable that occurs in the other expression. -/
def disturbs (scope : Scope) (e other : Expr) : Bool :=
  other.occurring.any fun id => e.mayChange scope id

theorem mayChange_of_noEffects {scope : Scope} {id : VarId} : ∀ e : Expr,
    e.hasSideEffects = false → e.mayChange scope id = false
  | literal _ _, _ | read _ _ _, _ | typeRef _ _, _ => rfl
  | call _ _ _, noEffects => by cases noEffects
  | unary op x s, noEffects => by
    simp only [hasSideEffects, Bool.or_eq_false_iff] at noEffects
    simp [mayChange, noEffects.1, mayChange_of_noEffects x noEffects.2]
  | binary op l r s, noEffects => by
    simp only [hasSideEffects, Bool.or_eq_false_iff] at noEffects
    simp [mayChange, mayChange_of_noEffects l noEffects.1, mayChange_of_noEffects r noEffects.2]

theorem isPure_iff {e : Expr} :
    e.isPure = true ↔ e.hasSideEffects = false ∧ e.mayThrow = false := by
  simp [isPure]

theorem not_disturbs_of_noEffects {scope : Scope} {e other : Expr}
    (noEffects : e.hasSideEffects = false) : e.disturbs scope other = false := by
  simp [disturbs, mayChange_of_noEffects e noEffects]

end Expr

variable {World Thrown α β : Type} {scope : Scope} {id : VarId}

/-! What is left as it was. -/

namespace Scope

/-- From a store that fits, the computation ends with the variable as it was, or it throws. -/
def Spares (scope : Scope) (id : VarId) (x : Evaluation World Thrown α) : Prop :=
  ∀ state, scope.Fits state → ∀ a final, x state = .ok a final → final.vars id = state.vars id

variable {P : α → Prop} {x : Evaluation World Thrown α} {f : α → Evaluation World Thrown β}

theorem spares_pure (a : α) : scope.Spares id (pure a : Evaluation World Thrown α) := by
  intro state fits b final ended
  cases ended
  rfl

theorem spares_throw (stop : Abrupt Thrown) :
    scope.Spares id (throw stop : Evaluation World Thrown α) := nofun

theorem spares_ofOption (a : Option α) :
    scope.Spares id (.ofOption a : Evaluation World Thrown α) := by
  cases a with
  | some a => exact spares_pure a
  | none => exact spares_throw .stuck

theorem spares_ofOutcome (outcome : Option Reference.Outcome) :
    scope.Spares id (.ofOutcome outcome : Evaluation World Thrown Value) := by
  match outcome with
  | some (.value v) => exact spares_pure v
  | some .divisionByZero => exact spares_throw .divisionByZero
  | none => exact spares_throw .stuck

theorem Spares.bind (first : scope.Spares id x) (keeps : scope.Keeps P x)
    (next : ∀ a, P a → scope.Spares id (f a)) : scope.Spares id (x >>= f) := by
  intro state fits b final ended
  have kept := keeps state fits
  rw [Evaluation.bind_run] at ended
  cases run : x state with
  | ok a middle =>
    rw [run] at kept ended
    rw [next a kept.1 middle kept.2 b final ended, first state fits a middle run]
  | error stop middle =>
    rw [run] at ended
    cases ended

/-- A variable that keeps one value is spared by whatever leaves a store that fits. -/
theorem Keeps.spares (keeps : scope.Keeps P x) {v : Value} (constant : scope.constants id = some v) :
    scope.Spares id x := by
  intro state fits a final ended
  have kept := keeps state fits
  rw [ended] at kept
  rw [kept.2.constant id v constant, fits.constant id v constant]

end Scope

namespace Expr

variable {methods : Methods World Thrown}

theorem spares_evalStep {op : UnaryOp} {other : VarId} (different : id ≠ other) :
    scope.Spares id (evalStep op other : Evaluation World Thrown Value) := by
  intro state fits a final ended
  rw [evalStep_run] at ended
  cases stepped : op.stepped? (state.vars other) with
  | some new =>
    rw [stepped] at ended
    cases ended
    exact Function.update_of_ne different new state.vars
  | none =>
    rw [stepped] at ended
    cases ended

/-- What may not change is as it was after the evaluation. -/
theorem spares_eval (respects : methods.Respects scope) : ∀ (e : Expr) (q : Primitive),
    e.exactTy? scope = some q → e.mayChange scope id = false → scope.Spares id (e.eval methods)
  | literal v s, q, typed, _ => by
    rw [eval]
    exact Scope.spares_ofOption _
  | read other name s, q, typed, _ => by
    rw [eval]
    exact fun state fits => Scope.spares_ofOption _ state fits
  | call name args s, q, typed, spared => by
    obtain ⟨v, constant⟩ : ∃ v, scope.constants id = some v := by
      simpa [mayChange, Option.ne_none_iff_exists'] using spared
    exact (keeps_eval respects _ q typed).spares constant
  | unary op x s, q, typed, spared => by
    obtain ⟨p, t, operand, exact, -, leads, step⟩ := exactTy?_unary.mp typed
    simp only [mayChange, Bool.or_eq_false_iff] at spared
    cases isStep : op.isStep with
    | false =>
      rw [eval_unary isStep]
      refine (spares_eval respects x p operand spared.2).bind
        (keeps_eval respects x p operand) fun v operandTyped => ?_
      obtain ⟨w, computed, -⟩ := reference_unary_exact operandTyped exact isStep
      rw [computed]
      exact Scope.spares_ofOption _
    | true =>
      obtain ⟨other, name, ty, rfl, changes⟩ := exists_variable (step isStep)
      obtain ⟨integral, rfl⟩ := integral_of_step exact isStep
      obtain ⟨p, declared, -, -, same⟩ := exactTy?_read.mp operand
      cases same
      have different : id ≠ other := by
        simpa [isStep, occurring] using spared.1
      rw [eval_step isStep]
      exact (spares_evalStep different).bind (keeps_evalStep declared changes integral isStep)
        fun _ _ => Scope.spares_ofOption _
  | binary op l r s, q, typed, spared => by
    obtain ⟨tl, tr, t, left, right, exact, -, leads⟩ := exactTy?_binary.mp typed
    simp only [mayChange, Bool.or_eq_false_iff] at spared
    have keepsRight := keeps_eval respects r tr right
    rw [eval_binary]
    refine (spares_eval respects l tl left spared.1).bind (keeps_eval respects l tl left)
      fun a leftTyped => ?_
    refine Scope.Spares.bind ?_ (keeps_evalRight leftTyped keepsRight exact)
      fun _ _ => Scope.spares_ofOption _
    rw [evalRight]
    split
    · exact Scope.spares_pure a
    · exact (spares_eval respects r tr right spared.2).bind keepsRight
        fun _ _ => Scope.spares_ofOutcome _
  | typeRef _ _, _, typed, _ => by cases typed

end Expr

/-! What a value hangs on. -/

namespace Evaluation

/-- The computation ends in the same way in both stores and changes neither. -/
def Ignores (x : Evaluation World Thrown α) (state state' : State World) : Prop :=
  (∃ a, x state = .ok a state ∧ x state' = .ok a state') ∨
    ∃ stop, x state = .error stop state ∧ x state' = .error stop state'

variable {state state' : State World} {x : Evaluation World Thrown α}
  {f : α → Evaluation World Thrown β}

theorem ignores_ofOption (a : Option α) :
    Ignores (.ofOption a : Evaluation World Thrown α) state state' := by
  cases a with
  | some a => exact .inl ⟨a, rfl, rfl⟩
  | none => exact .inr ⟨.stuck, rfl, rfl⟩

theorem ignores_ofOutcome (outcome : Option Reference.Outcome) :
    Ignores (.ofOutcome outcome : Evaluation World Thrown Value) state state' := by
  match outcome with
  | some (.value v) => exact .inl ⟨v, rfl, rfl⟩
  | some .divisionByZero => exact .inr ⟨.divisionByZero, rfl, rfl⟩
  | none => exact .inr ⟨.stuck, rfl, rfl⟩

theorem Ignores.bind (first : Ignores x state state') (next : ∀ a, Ignores (f a) state state') :
    Ignores (x >>= f) state state' := by
  rcases first with ⟨a, left, right⟩ | ⟨stop, left, right⟩
  · simpa only [Ignores, bind_run, left, right] using next a
  · exact .inr ⟨stop, by rw [bind_run, left], by rw [bind_run, right]⟩

end Evaluation

namespace Expr

variable {methods : Methods World Thrown} {state state' : State World}

theorem exists_value_of_isPure (methods : Methods World Thrown) {e : Expr} {q : Primitive}
    (isPure : e.isPure) (typed : e.exactTy? scope = some q) (fits : scope.Fits state) :
    ∃ v, e.eval methods state = .ok v state ∧ v.primitive? = some q :=
  have quiet := isPure_iff.mp isPure
  quiet_eval e q typed quiet.1 quiet.2 state fits

/-- Without side effects nothing but the variables that occur matters. -/
theorem ignores_eval : ∀ e : Expr, e.hasSideEffects = false →
    (∀ id ∈ e.occurring, state.vars id = state'.vars id) →
    Evaluation.Ignores (e.eval methods) state state'
  | literal v s, _, _ => by
    rw [eval]
    exact Evaluation.ignores_ofOption _
  | read id name s, _, same => by
    have run (state : State World) : (read id name s).eval methods state =
        Evaluation.ofOption (Reference.castAll (state.vars id) s.casts) state := by
      rw [eval]
      rfl
    rw [Evaluation.Ignores, run, run, ← same id (List.mem_singleton.mpr rfl)]
    exact Evaluation.ignores_ofOption _
  | unary op x s, noEffects, same => by
    simp only [hasSideEffects, Bool.or_eq_false_iff] at noEffects
    rw [eval_unary noEffects.1]
    exact (ignores_eval x noEffects.2 same).bind fun _ =>
      (Evaluation.ignores_ofOption _).bind fun _ => Evaluation.ignores_ofOption _
  | binary op l r s, noEffects, same => by
    simp only [hasSideEffects, Bool.or_eq_false_iff] at noEffects
    simp only [occurring, List.mem_append] at same
    have right := ignores_eval r noEffects.2 fun id member => same id (.inr member)
    rw [eval_binary]
    refine (ignores_eval l noEffects.1 fun id member => same id (.inl member)).bind fun a => ?_
    refine Evaluation.Ignores.bind ?_ fun _ => Evaluation.ignores_ofOption _
    rw [evalRight]
    split
    · exact .inl ⟨a, rfl, rfl⟩
    · exact right.bind fun _ => Evaluation.ignores_ofOutcome _
  | call _ _ _, noEffects, _ => by cases noEffects
  | typeRef _ _, _, _ => .inr ⟨.stuck, rfl, rfl⟩

/-- An expression without side effects keeps its value while another one is evaluated that does not
disturb it. -/
theorem eval_after (respects : methods.Respects scope) {e other : Expr} {q : Primitive} {v w : Value}
    {final : State World} (typed : other.exactTy? scope = some q)
    (noEffects : e.hasSideEffects = false) (undisturbed : other.disturbs scope e = false)
    (fits : scope.Fits state) (before : e.eval methods state = .ok v state)
    (ended : other.eval methods state = .ok w final) : e.eval methods final = .ok v final := by
  have same (id : VarId) (occurs : id ∈ e.occurring) : state.vars id = final.vars id := by
    simp only [disturbs, List.any_eq_false, Bool.not_eq_true] at undisturbed
    exact (spares_eval respects other q typed (undisturbed id occurs) state fits w final ended).symm
  have ignores : Evaluation.Ignores (e.eval methods) state final := ignores_eval e noEffects same
  rcases ignores with ⟨a, left, right⟩ | ⟨stop, left, -⟩
  · cases before.symm.trans left
    exact right
  · cases before.symm.trans left

end Expr

namespace Evaluation

/-- The ends of two computations that have the same effects: the same store and, if there is no
result, the same exception. -/
def EndAlike : EStateM.Result (Abrupt Thrown) (State World) α →
    EStateM.Result (Abrupt Thrown) (State World) α → Prop
  | .ok _ final, .ok _ final' => final = final'
  | .error stop final, .error stop' final' => stop = stop' ∧ final = final'
  | _, _ => False

variable {x y : EStateM.Result (Abrupt Thrown) (State World) α}

theorem EndAlike.refl (x : EStateM.Result (Abrupt Thrown) (State World) α) : EndAlike x x := by
  cases x with
  | ok a final => exact rfl
  | error stop final => exact ⟨rfl, rfl⟩

theorem EndAlike.symm (alike : EndAlike x y) : EndAlike y x := by
  cases x with
  | ok a final =>
    cases y with
    | ok b final' => exact Eq.symm alike
    | error => cases alike
  | error stop final =>
    cases y with
    | ok => cases alike
    | error stop' final' => exact ⟨alike.1.symm, alike.2.symm⟩

end Evaluation

end ConstFold
