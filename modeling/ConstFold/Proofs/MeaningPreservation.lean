import ConstFold.Pipeline
import ConstFold.Proofs.ConstantCasts
import ConstFold.Proofs.Soundness.Constant

/-! Passes other than absorption preserve the meaning of expressions over the exact types, in
any order and number: the same value or the same exception, and the same final store. -/
namespace ConstFold

/-- The value of a literal initializer, converted to the declared type. -/
def Declaration.initial? (decl : Declaration) : Option Value :=
  match decl.initializer with
  | some (.literal v s) => (v.castThrough s.casts).bind fun w => w.castTo decl.ty
  | _ => none

/-- Variables have their declared types, and those that may be inlined keep their initial
values. -/
def Scope.Describes (scope : Scope) (table : DeclTable) (inlineLocals : Bool) : Prop :=
  ∀ id decl p, table.get? id = some decl → scope.types id = some p →
    decl.ty = .primitive p ∧
      ((decl.constant? inlineLocals).isSome →
        ∃ v, decl.initial? = some v ∧ scope.constants id = some v)

/-- An inlined constant is a literal of the declared type. -/
theorem Declaration.constant?_exact {decl : Declaration} {inlineLocals : Bool} {constant : Expr}
    {v : Value} {p : Primitive} (inlines : decl.constant? inlineLocals = some constant)
    (initial : decl.initial? = some v) (declared : decl.ty = .primitive p) :
    constant = .literal v ⟨some (.primitive p), []⟩ ∧ v.primitive? = some p := by
  rw [Declaration.initial?] at initial
  split at initial
  · rename_i u s initializer
    obtain ⟨w, value, made⟩ := Option.bind_eq_some_iff.mp initial
    obtain ⟨ty, literal⟩ := castLiteral_of_castThrough s.ty value
    rw [declared] at made
    have converted : w.convert p = some v := by
      cases w <;> first | exact made | cases made
    rw [Declaration.constant?] at inlines
    split at inlines
    · simp only [initializer, Option.filter_some, Expr.isLiteral, Expr.value?, Option.isSome_some,
        if_true, Option.map_some, Option.some.injEq, Expr.applyCasts, literal,
        Expr.convertLiteral, declared, made] at inlines
      exact ⟨inlines.symm, Value.primitive?_of_convert converted⟩
    · cases inlines
  · cases initial

section Chain

variable {World Thrown : Type} {scope : Scope} {methods : Methods World Thrown}

namespace Pass

theorem sound_inlineReads {table : DeclTable} {inlineLocals : Bool}
    (describes : scope.Describes table inlineLocals) :
    (inlineReads table inlineLocals).Sound scope methods := by
  refine Within.ofLeave Refines.refl rfl rfl fun e e' done => ?_
  rcases inlineReads_ok done with ⟨rfl, -⟩ | ⟨id, name, s, decl, constant, rfl, resolved, inlines, rfl⟩
  · exact .refl _
  intro q typed
  obtain ⟨p, declared, exact, own, leads⟩ := Expr.exactTy?_read.mp typed
  obtain ⟨declTy, keeps⟩ := describes id decl p resolved declared
  obtain ⟨v, initial, kept⟩ := keeps (by simp [inlines])
  obtain ⟨rfl, valueTyped⟩ := Declaration.constant?_exact inlines initial declTy
  refine ⟨?_, fun state fits => ?_, fun isVariable => ?_⟩
  · rw [Expr.exactTy?_addCasts, exactTy?_constant scope valueTyped exact]
    exact leads
  · rw [Expr.eval_addCasts, eval_literal rfl, pure_bind, Expr.eval, ← fits.constant id v kept]
    rfl
  · obtain ⟨_, _, _, same, changes⟩ := Expr.exists_variable isVariable
    cases same
    cases kept.symm.trans changes

/-- Every pass but absorption is sound. -/
theorem sound_of_kind {table : DeclTable} {inlineLocals : Bool} {kind : PassKind}
    (describes : scope.Describes table inlineLocals) (respects : methods.Respects scope)
    (lawful : kind ≠ .absorption) : (kind.pass table inlineLocals).Sound scope methods := by
  cases kind with
  | absorption => exact absurd rfl lawful
  | applyCasts => exact sound_applyCasts _
  | promotion => exact sound_promotion respects .literals .literals
  | inferTypes => exact sound_inferTypes
  | evaluateLiterals => exact sound_evaluateLiterals
  | reduceIdentities => exact sound_reduceIdentities respects
  | cancelDouble => exact sound_cancelDouble respects
  | inlineReads => exact sound_inlineReads describes
  | removeRedundantCasts => exact sound_removeRedundantCasts respects

end Pass

/-- Whatever list of passes without absorption is run over a well-typed expression, the result
has the same type, and from every store that fits the scope it is evaluated to the same value or
stopped by the same exception, with the same final store; neither is ever stuck. -/
theorem chain_preserves_meaning (kinds : List PassKind) (lawful : .absorption ∉ kinds)
    (table : DeclTable) (inlineLocals : Bool) (scope : Scope)
    (describes : scope.Describes table inlineLocals) (methods : Methods World Thrown)
    (respects : methods.Respects scope) {e e' : Expr} {p : Primitive}
    (typed : e.exactTy? scope = some p)
    (visited : (Pass.chain (kinds.map fun kind => kind.pass table inlineLocals)).visit e = .ok e') :
    e'.exactTy? scope = some p ∧
      ∀ state, scope.Fits state →
        e'.eval methods state = e.eval methods state ∧
          ∀ final, e.eval methods state ≠ .error .stuck final := by
  have sound : (Pass.chain (kinds.map fun kind => kind.pass table inlineLocals)).Sound
      scope methods := by
    apply Pass.Within.chain (Refines.congruence respects)
    intro pass member
    obtain ⟨kind, listed, rfl⟩ := List.mem_map.mp member
    refine Pass.sound_of_kind describes respects ?_
    rintro rfl
    exact lawful listed
  have refines := sound.visit (Refines.congruence respects) visited p typed
  refine ⟨refines.typed, fun state fits => ⟨refines.agrees state fits, fun final stuck => ?_⟩⟩
  have keeps := Expr.keeps_eval respects e p typed state fits
  rw [stuck] at keeps
  exact keeps rfl

end Chain

/-! A constant, a parameter that is incremented, and a method that changes the world. -/

namespace Sample

def table : DeclTable :=
  ⟨[{ name := .ofIndex 0, ty := .int, kind := .field true, isFinal := true,
      initializer := some (.literal (.long 5) ⟨some (.primitive .long), []⟩) },
    { name := .ofIndex 1, ty := .int, kind := .parameter }]⟩

def scope : Scope where
  types id := if id.index = 0 ∨ id.index = 1 then some .int else none
  constants id := if id.index = 0 then some (.int 5) else none

def methods : Methods Nat Unit := fun _ ty args =>
  match ty with
  | some (.primitive .byte) => do
    modify fun state => { state with world := state.world + args.length + 1 }
    pure (.byte 7)
  | _ => throw (.thrown ())

def state : State Nat := ⟨fun id => if id.index = 0 then .int 5 else .int 3, 0⟩

/-- The expression `K * 2 + (n++ - (f(n) & -1))`, untyped. -/
def expr : Expr :=
  let n : Expr := .read ⟨1⟩ (.ofIndex 1) ⟨some .int, []⟩
  .binary .plus
    (.binary .mul (.read ⟨0⟩ (.ofIndex 0) ⟨some .int, []⟩) (.literal (.int 2) ⟨some .int, []⟩) {})
    (.binary .minus (.unary .postInc n {})
      (.binary .bitAnd (.call (.ofIndex 2) [n] ⟨some (.primitive .byte), []⟩)
        (.unary .neg (.literal (.int 1) ⟨some .int, []⟩) {}) {}) {}) {}

def kinds : List PassKind :=
  [.inlineReads, .promotion, .reduceIdentities, .evaluateLiterals, .cancelDouble, .inferTypes,
    .inlineReads, .removeRedundantCasts]

theorem describes : scope.Describes table false := by
  rintro ⟨index⟩ decl p found declared
  simp only [scope, Option.ite_none_right_eq_some, Option.some.injEq] at declared
  obtain ⟨rfl | rfl, rfl⟩ := declared
  · cases found
    exact ⟨rfl, fun _ => ⟨.int 5, by decide, by decide⟩⟩
  · cases found
    exact ⟨rfl, fun inlines => by cases inlines⟩

theorem respects : methods.Respects scope := by
  intro name p args state fits
  cases p with
  | byte => exact ⟨rfl, fits.typed, fits.constant⟩
  | boolean | short | char | int | long | float | double => exact nofun

theorem fits : scope.Fits state := by
  constructor
  · rintro ⟨index⟩ p declared
    simp only [scope, Option.ite_none_right_eq_some, Option.some.injEq] at declared
    obtain ⟨-, rfl⟩ := declared
    simp only [state]
    split <;> rfl
  · rintro ⟨index⟩ v constant
    simp only [scope, Option.ite_none_right_eq_some, Option.some.injEq] at constant
    obtain ⟨rfl, rfl⟩ := constant
    rfl

end Sample

theorem chain_preserves_meaning_sample :
    ∃ e', (Pass.chain (Sample.kinds.map fun kind => kind.pass Sample.table false)).visit
        Sample.expr = .ok e' ∧ e' ≠ Sample.expr ∧
      e'.eval Sample.methods Sample.state = Sample.expr.eval Sample.methods Sample.state := by
  have typed : Sample.expr.exactTy? Sample.scope = some .int := by decide
  refine ⟨_, rfl, ?_, ?_⟩
  · intro same
    cases same
  · exact ((chain_preserves_meaning Sample.kinds (by decide) Sample.table false Sample.scope
      Sample.describes Sample.methods Sample.respects typed rfl).2 Sample.state Sample.fits).1

end ConstFold
