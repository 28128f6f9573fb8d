import ConstFold.Proofs.TypeSoundness

/-! The calls that an evaluation makes, in order. Methods that note their calls beside the world do
the same as those that do not, so the notes are those of the evaluation itself. -/
namespace ConstFold

variable {World Thrown α β : Type}

structure Call where
  name : Name
  args : List Value

namespace State

def withLog (state : State World) (log : List Call) : State (World × List Call) :=
  ⟨state.vars, (state.world, log)⟩

def withoutLog (state : State (World × List Call)) : State World :=
  ⟨state.vars, state.world.1⟩

end State

/-- Methods that note each call with the values it is given, also if it throws. -/
def Methods.logged (methods : Methods World Thrown) : Methods (World × List Call) Thrown :=
  fun name ty args state =>
    let log := state.world.2 ++ [⟨name, args⟩]
    match methods name ty args state.withoutLog with
    | .ok v final => .ok v (final.withLog log)
    | .error stop final => .error stop (final.withLog log)

/-- The calls made from the store, up to an exception if there is one. -/
def Expr.calls (methods : Methods World Thrown) (e : Expr) (state : State World) : List Call :=
  match e.eval methods.logged (state.withLog []) with
  | .ok _ final | .error _ final => final.world.2

theorem Scope.Fits.withLog {scope : Scope} {state : State World} (fits : scope.Fits state)
    (log : List Call) : scope.Fits (state.withLog log) :=
  ⟨fits.typed, fits.constant⟩

theorem Methods.Respects.logged {methods : Methods World Thrown} {scope : Scope}
    (respects : methods.Respects scope) : methods.logged.Respects scope := by
  intro name p args state fits
  have kept := respects name p args state.withoutLog ⟨fits.typed, fits.constant⟩
  rw [Methods.logged]
  cases run : methods name (some (.primitive p)) args state.withoutLog with
  | ok v final =>
    rw [run] at kept
    exact ⟨kept.1, kept.2.withLog _⟩
  | error stop final =>
    rw [run] at kept
    exact kept

namespace Evaluation

def erase : EStateM.Result (Abrupt Thrown) (State (World × List Call)) α →
    EStateM.Result (Abrupt Thrown) (State World) α
  | .ok a final => .ok a final.withoutLog
  | .error stop final => .error stop final.withoutLog

/-- Without its notes, the one computation ends as the other does. -/
def Erases (x : Evaluation (World × List Call) Thrown α) (y : Evaluation World Thrown α) : Prop :=
  ∀ state, erase (x state) = y state.withoutLog

theorem erases_pure (a : α) :
    Erases (pure a : Evaluation (World × List Call) Thrown α) (pure a) := fun _ => rfl

theorem erases_throw (stop : Abrupt Thrown) :
    Erases (throw stop : Evaluation (World × List Call) Thrown α) (throw stop) := fun _ => rfl

theorem erases_ofOption (a : Option α) :
    Erases (.ofOption a : Evaluation (World × List Call) Thrown α) (.ofOption a) := by
  cases a with
  | some a => exact erases_pure a
  | none => exact erases_throw .stuck

theorem erases_ofOutcome (outcome : Option Reference.Outcome) :
    Erases (.ofOutcome outcome : Evaluation (World × List Call) Thrown Value)
      (.ofOutcome outcome) := by
  match outcome with
  | some (.value v) => exact erases_pure v
  | some .divisionByZero => exact erases_throw .divisionByZero
  | none => exact erases_throw .stuck

theorem Erases.bind {x : Evaluation (World × List Call) Thrown α} {y : Evaluation World Thrown α}
    {f : α → Evaluation (World × List Call) Thrown β} {g : α → Evaluation World Thrown β}
    (first : Erases x y) (next : ∀ a, Erases (f a) (g a)) : Erases (x >>= f) (y >>= g) := by
  intro state
  have ends := first state
  rw [bind_run, bind_run, ← ends]
  cases x state with
  | ok a final => exact next a final
  | error stop final => rfl

end Evaluation

namespace Expr

open Evaluation

variable {methods : Methods World Thrown}

theorem erases_logged (name : Name) (ty : Option Ty) (args : List Value) :
    Erases (methods.logged name ty args) (methods name ty args) := by
  intro state
  rw [Methods.logged]
  cases methods name ty args state.withoutLog <;> rfl

theorem erases_evalStep (op : UnaryOp) (id : VarId) :
    Erases (evalStep op id : Evaluation (World × List Call) Thrown Value) (evalStep op id) := by
  intro state
  have same : state.withoutLog.vars id = state.vars id := rfl
  rw [evalStep_run, evalStep_run, same]
  cases op.stepped? (state.vars id) <;> rfl

mutual

theorem erases_eval : ∀ e : Expr, Erases (e.eval methods.logged) (e.eval methods)
  | literal v s => by
    rw [eval, eval]
    exact erases_ofOption _
  | read id name s => by
    rw [eval, eval]
    exact fun state => erases_ofOption (Reference.castAll (state.vars id) s.casts) state
  | call name args s => by
    rw [eval, eval]
    exact (erases_evalAll args).bind fun values =>
      (erases_logged name s.ty values).bind fun _ => erases_ofOption _
  | unary op x s => by
    cases isStep : op.isStep with
    | false =>
      rw [eval_unary isStep, eval_unary isStep]
      exact (erases_eval x).bind fun _ => (erases_ofOption _).bind fun _ => erases_ofOption _
    | true =>
      by_cases assigned : ∃ id name ty, x = read id name ⟨ty, []⟩
      · obtain ⟨id, name, ty, rfl⟩ := assigned
        rw [eval_step isStep, eval_step isStep]
        exact (erases_evalStep op id).bind fun _ => erases_ofOption _
      · rw [eval, eval, if_pos isStep, if_pos isStep]
        · exact (erases_throw .stuck).bind fun _ => erases_ofOption _
        all_goals exact fun id name ty same => assigned ⟨id, name, ty, same⟩
  | binary op l r s => by
    rw [eval_binary, eval_binary]
    refine (erases_eval l).bind fun a => Erases.bind ?_ fun _ => erases_ofOption _
    rw [evalRight, evalRight]
    split
    · exact erases_pure a
    · exact (erases_eval r).bind fun _ => erases_ofOutcome _
  | typeRef _ _ => fun _ => rfl

theorem erases_evalAll : ∀ args : List Expr, Erases (evalAll methods.logged args) (evalAll methods args)
  | [] => erases_pure []
  | e :: rest =>
    (erases_eval e).bind fun v => (erases_evalAll rest).bind fun values => erases_pure (v :: values)

end

/-- Expressions that end in the same way with the calls noted do so without, and make the same
calls. -/
theorem eval_and_calls_of_logged {e e' : Expr} {state : State World}
    (same : e.eval methods.logged (state.withLog []) = e'.eval methods.logged (state.withLog [])) :
    e.eval methods state = e'.eval methods state ∧ e.calls methods state = e'.calls methods state := by
  constructor
  · have erased := congrArg erase same
    rw [erases_eval e, erases_eval e'] at erased
    exact erased
  · rw [calls, calls, same]

end Expr

end ConstFold
