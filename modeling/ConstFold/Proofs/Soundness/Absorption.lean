import ConstFold.Pass.Absorption
import ConstFold.Proofs.CallHistory
import ConstFold.Proofs.Interference
import ConstFold.Proofs.MeaningPreservation

/-! Absorption laws under short-circuit evaluation. Where only the repeated operand is left, nothing
that the other operands do is lost. Where a negated operand goes, it is no longer evaluated after
the operand beside it: the exceptions and the final store stay the same, and the value does unless
that operand changes a variable of the repeated one. -/
namespace ConstFold

/-! Equality of expressions. -/

theorem Value.eq_of_eqv {v w : Value} {p : Primitive} (typed : v.primitive? = some p)
    (exact : p.isExact) (same : v.eqv w) : v = w := by
  cases v <;> cases typed <;> cases exact <;> cases w <;> simp_all [Value.eqv]

namespace Expr

variable {scope : Scope}

mutual

/-- Numerical comparison of literals tells exact constants apart. -/
theorem eq_of_eqv : ∀ (e e' : Expr) (q : Primitive), e.exactTy? scope = some q → e.eqv e' → e = e'
  | literal v s, e', q, typed, same => by
    obtain ⟨p, own, exact, -, -⟩ := exactTy?_literal.mp typed
    cases e' <;> simp only [eqv, Bool.and_eq_true, decide_eq_true_eq, Bool.false_eq_true] at same
    rw [Value.eq_of_eqv own exact same.1, same.2]
  | read id name s, e', q, typed, same => by
    cases e' <;> simp only [eqv, Bool.and_eq_true, decide_eq_true_eq, Bool.false_eq_true] at same
    rw [same.1.1, same.1.2, same.2]
  | unary op x s, e', q, typed, same => by
    obtain ⟨p, t, operand, -⟩ := exactTy?_unary.mp typed
    cases e' <;> simp only [eqv, Bool.and_eq_true, decide_eq_true_eq, Bool.false_eq_true] at same
    rw [same.1.1, eq_of_eqv x _ p operand same.1.2, same.2]
  | binary op l r s, e', q, typed, same => by
    obtain ⟨tl, tr, t, left, right, -⟩ := exactTy?_binary.mp typed
    cases e' <;> simp only [eqv, Bool.and_eq_true, decide_eq_true_eq, Bool.false_eq_true] at same
    rw [same.1.1.1, eq_of_eqv l _ tl left same.1.1.2, eq_of_eqv r _ tr right same.1.2, same.2]
  | call name args s, e', q, typed, same => by
    obtain ⟨each, -⟩ := exactTy?_call.mp typed
    cases e' <;> simp only [eqv, Bool.and_eq_true, decide_eq_true_eq, Bool.false_eq_true] at same
    rw [same.1.1, eq_of_eqvList args _ each same.1.2, same.2]
  | typeRef _ _, _, _, typed, _ => by cases typed

theorem eq_of_eqvList : ∀ args args' : List Expr, allExact scope args → eqvList args args' →
    args = args'
  | [], args', _, same => by
    cases args' with
    | nil => rfl
    | cons => cases same
  | e :: rest, args', typed, same => by
    rw [allExact, Bool.and_eq_true, Option.isSome_iff_exists] at typed
    obtain ⟨⟨q, first⟩, others⟩ := typed
    cases args' with
    | nil => cases same
    | cons e' rest' =>
      rw [eqvList, Bool.and_eq_true] at same
      rw [eq_of_eqv e e' q first same.1, eq_of_eqvList rest rest' others same.2]

end

end Expr

/-! What the pass finds. -/

/-- One of the operators is `&&`, and the other is `||`. -/
def BinaryOp.IsDual (op inner : BinaryOp) : Prop :=
  (op = .and ∧ inner = .or) ∨ (op = .or ∧ inner = .and)

theorem absorb?_cases {op : BinaryOp} {outer inner : Expr} {swapped : Bool} {found : Absorbed}
    (absorbs : absorb? op outer inner swapped = some found) :
    ∃ innerOp l r ty, inner = .binary innerOp l r ⟨ty, []⟩ ∧ op.IsDual innerOp ∧
      ((found = .whole ∧ outer.isSamePure l ∧ (swapped = false ∨ r.isPure)) ∨
        (found = .whole ∧ swapped = false ∧ outer.isSamePure r ∧ l.isPure) ∨
        (found = .orElse r ∧ op = .or ∧ outer.areOpposite l) ∨
        (found = .orElse l ∧ op = .or ∧ swapped = false ∧ outer.areOpposite r)) := by
  match inner with
  | .binary innerOp l r ⟨ty, []⟩ =>
    rw [absorb?, Option.ite_none_right_eq_some] at absorbs
    obtain ⟨dual, absorbs⟩ := absorbs
    refine ⟨innerOp, l, r, ty, rfl, by simpa [BinaryOp.IsDual] using dual, ?_⟩
    split at absorbs
    · cases absorbs
      simp_all
    split at absorbs
    · cases absorbs
      simp_all
    split at absorbs
    · cases absorbs
    have isOr : op = .or := by
      simp only [Bool.or_eq_true, Bool.and_eq_true, decide_eq_true_eq] at dual
      rcases dual with ⟨isAnd, -⟩ | ⟨isOr, -⟩
      · contradiction
      · exact isOr
    split at absorbs
    · cases absorbs
      simp_all
    split at absorbs
    · cases absorbs
      simp_all
    · cases absorbs

namespace Pass

/-- The pass leaves a node as it is, or finds the repeated operand on one of the sides. -/
theorem absorption_ok {op : BinaryOp} {l r e' : Expr} {s : Static}
    (done : absorption.step (.binary op l r s) = .ok e') :
    e' = .binary op l r s ∨
      (∃ found, absorb? op l r false = some found ∧ e' = absorbed l found s) ∨
      ∃ found, absorb? op r l true = some found ∧ e' = absorbed r found s := by
  simp only [absorption] at done
  split at done
  · split at done
    · rename_i found absorbs
      cases done
      exact .inr (.inl ⟨found, absorbs, rfl⟩)
    · split at done
      · rename_i found absorbs
        cases done
        exact .inr (.inr ⟨found, absorbs, rfl⟩)
      · cases done
        exact .inl rfl
  · cases done
    exact .inl rfl

end Pass

/-! Short-circuit evaluation. -/

namespace BinaryOp

variable {op inner : BinaryOp}

/-- The truth value of the left operand that decides. -/
def decisive (op : BinaryOp) : Bool := op = .or

theorem decides_bool (lazy : op = .and ∨ op = .or) (a : Bool) :
    op.decides (.bool a) = decide (a = op.decisive) := by
  rcases lazy with rfl | rfl <;> cases a <;> rfl

theorem IsDual.lazy (dual : op.IsDual inner) : op = .and ∨ op = .or :=
  dual.imp And.left And.left

theorem IsDual.inner_lazy (dual : op.IsDual inner) : inner = .and ∨ inner = .or :=
  (dual.imp And.right And.right).symm

theorem IsDual.inner_eq_and (dual : op.IsDual inner) (isOr : op = .or) : inner = .and := by
  rcases dual with ⟨rfl, -⟩ | ⟨-, isAnd⟩
  · cases isOr
  · exact isAnd

theorem IsDual.decisive (dual : op.IsDual inner) : inner.decisive = !op.decisive := by
  rcases dual with ⟨rfl, rfl⟩ | ⟨rfl, rfl⟩ <;> rfl

end BinaryOp

variable {World Thrown : Type} {scope : Scope} {methods : Methods World Thrown}

/-- From every store that fits, the computations end alike, and in the same way under the
condition. -/
def Scope.AgreesIf {α : Type} (scope : Scope) (condition : Prop) (x y : Evaluation World Thrown α) :
    Prop :=
  ∀ state, scope.Fits state →
    Evaluation.EndAlike (x state) (y state) ∧ (condition → x state = y state)

namespace Scope

variable {α : Type} {x y : Evaluation World Thrown α} {condition condition' : Prop}

theorem Agrees.agreesIf (agrees : scope.Agrees x y) : scope.AgreesIf condition x y := by
  intro state fits
  rw [agrees state fits]
  exact ⟨.refl _, fun _ => rfl⟩

theorem AgreesIf.mono (agrees : scope.AgreesIf condition x y) (implies : condition' → condition) :
    scope.AgreesIf condition' x y :=
  fun state fits => (agrees state fits).imp_right fun same holds => same (implies holds)

end Scope

namespace Expr

variable {op inner : BinaryOp} {a b c n l r : Expr} {s : Static} {ty ty' : Option Ty} {p : Primitive}
  {x : Bool} {state middle : State World}

theorem exactTy?_lazy (lazy : op = .and ∨ op = .or) :
    (binary op l r s).exactTy? scope = some p ↔
      l.exactTy? scope = some .boolean ∧ r.exactTy? scope = some .boolean ∧ s.Admits .boolean ∧
        castTy? .boolean s.casts = some p := by
  have own (tl tr t : Primitive) :
      op.exactTy? tl tr = some t ↔ (tl = .boolean ∧ tr = .boolean) ∧ .boolean = t := by
    rcases lazy with rfl | rfl <;> simp [BinaryOp.exactTy?]
  rw [exactTy?_binary]
  constructor
  · rintro ⟨tl, tr, t, left, right, exact, admits, leads⟩
    obtain ⟨⟨rfl, rfl⟩, rfl⟩ := (own tl tr t).mp exact
    exact ⟨left, right, admits, leads⟩
  · rintro ⟨left, right, admits, leads⟩
    exact ⟨_, _, _, left, right, (own _ _ _).mpr ⟨⟨rfl, rfl⟩, rfl⟩, admits, leads⟩

theorem exists_bool_of_isPure (methods : Methods World Thrown) (isPure : a.isPure)
    (typed : a.exactTy? scope = some .boolean) (fits : scope.Fits state) :
    ∃ x : Bool, a.eval methods state = .ok (.bool x) state := by
  obtain ⟨v, run, own⟩ := exists_value_of_isPure methods isPure typed fits
  obtain ⟨x, rfl⟩ := Value.exists_bool own
  exact ⟨x, run⟩

/-- The left operand decides, or the value is that of the right one. -/
theorem eval_lazy (respects : methods.Respects scope) (lazy : op = .and ∨ op = .or)
    (rightTyped : r.exactTy? scope = some .boolean)
    (left : l.eval methods state = .ok (.bool x) middle) (fits : scope.Fits middle) :
    (binary op l r ⟨ty, []⟩).eval methods state =
      if x = op.decisive then .ok (.bool x) middle else r.eval methods middle := by
  have uncast : (binary op l r ⟨ty, []⟩).eval methods =
      l.eval methods >>= fun v => evalRight op v (r.eval methods) := by
    rw [eval_binary]
    congr 1
    funext v
    exact bind_pure _
  rw [uncast, Evaluation.bind_run, left]
  show evalRight op (.bool x) (r.eval methods) middle = _
  rw [evalRight, BinaryOp.decides_bool lazy]
  by_cases decided : x = op.decisive
  · rw [if_pos (decide_eq_true decided), if_pos decided]
    rfl
  · rw [if_neg (by simpa using decided), if_neg decided, Evaluation.bind_run]
    have kept := keeps_eval respects r .boolean rightTyped middle fits
    cases run : r.eval methods middle with
    | error stop final => rfl
    | ok v final =>
      rw [run] at kept
      obtain ⟨y, rfl⟩ := Value.exists_bool kept.1
      rw [Bool.eq_not_of_ne decided]
      rcases lazy with rfl | rfl <;> cases y <;> rfl

/-! The repeated operand alone. -/

section Whole

variable (respects : methods.Respects scope) (dual : op.IsDual inner) (aPure : a.isPure)
  (aTyped : a.exactTy? scope = some .boolean)
include respects dual aPure aTyped

/-- `a || a && b` -/
theorem absorb_first (typed : (binary inner a b ⟨ty', []⟩).exactTy? scope = some .boolean) :
    scope.Agrees (a.eval methods) ((binary op a (binary inner a b ⟨ty', []⟩) ⟨ty, []⟩).eval methods) := by
  intro state fits
  obtain ⟨-, bTyped, -⟩ := (exactTy?_lazy dual.inner_lazy).mp typed
  obtain ⟨x, run⟩ := exists_bool_of_isPure methods aPure aTyped fits
  rw [eval_lazy respects dual.lazy typed run fits, eval_lazy respects dual.inner_lazy bTyped run fits,
    dual.decisive, run]
  cases x <;> cases op.decisive <;> rfl

/-- `a || b && a` -/
theorem absorb_second (typed : (binary inner b a ⟨ty', []⟩).exactTy? scope = some .boolean)
    (bPure : b.isPure) :
    scope.Agrees (a.eval methods) ((binary op a (binary inner b a ⟨ty', []⟩) ⟨ty, []⟩).eval methods) := by
  intro state fits
  obtain ⟨bTyped, -⟩ := (exactTy?_lazy dual.inner_lazy).mp typed
  obtain ⟨x, run⟩ := exists_bool_of_isPure methods aPure aTyped fits
  obtain ⟨y, run'⟩ := exists_bool_of_isPure methods bPure bTyped fits
  rw [eval_lazy respects dual.lazy typed run fits, eval_lazy respects dual.inner_lazy aTyped run' fits,
    dual.decisive, run]
  cases x <;> cases y <;> cases op.decisive <;> rfl

/-- `a && b || a` -/
theorem absorb_last (typed : (binary inner a b ⟨ty', []⟩).exactTy? scope = some .boolean)
    (bPure : b.isPure) :
    scope.Agrees (a.eval methods) ((binary op (binary inner a b ⟨ty', []⟩) a ⟨ty, []⟩).eval methods) := by
  intro state fits
  obtain ⟨-, bTyped, -⟩ := (exactTy?_lazy dual.inner_lazy).mp typed
  obtain ⟨x, run⟩ := exists_bool_of_isPure methods aPure aTyped fits
  obtain ⟨y, run'⟩ := exists_bool_of_isPure methods bPure bTyped fits
  have first : (binary inner a b ⟨ty', []⟩).eval methods state =
      .ok (.bool (if x = inner.decisive then x else y)) state := by
    rw [eval_lazy respects dual.inner_lazy bTyped run fits, run']
    split <;> rfl
  rw [eval_lazy respects dual.lazy aTyped first fits, dual.decisive, run]
  cases x <;> cases y <;> cases op.decisive <;> rfl

end Whole

/-! An operand and its negation. -/

theorem eval_not (run : a.eval methods state = .ok (.bool x) middle) :
    (unary .not a ⟨ty, []⟩).eval methods state = .ok (.bool !x) middle := by
  rw [eval_unary rfl, Evaluation.bind_run, run]
  rfl

theorem negated?_eq_some {e operand : Expr} (negated : e.negated? = some operand) :
    ∃ ty, e = unary .not operand ⟨ty, []⟩ := by
  match e with
  | unary .not x ⟨ty, []⟩ =>
    cases negated
    exact ⟨ty, rfl⟩

theorem boolean_of_not (typed : (unary .not a ⟨ty, []⟩).exactTy? scope = some p) :
    a.exactTy? scope = some .boolean := by
  obtain ⟨q, t, operand, exact, -⟩ := exactTy?_unary.mp typed
  simp only [UnaryOp.exactTy?, Option.ite_none_right_eq_some] at exact
  rw [operand, exact.1]

theorem isPure_of_not (isPure : (unary .not a ⟨ty, []⟩).isPure) : a.isPure := by
  rw [isPure_iff] at isPure ⊢
  simp only [hasSideEffects, mayThrow, Bool.or_eq_false_iff] at isPure
  exact ⟨isPure.1.2, isPure.2.2⟩

theorem areOpposite_cases (opposite : a.areOpposite n) (aTyped : a.exactTy? scope = some .boolean)
    (nTyped : n.exactTy? scope = some .boolean) :
    a.isPure ∧ ((∃ ty, n = unary .not a ⟨ty, []⟩) ∨ ∃ ty, a = unary .not n ⟨ty, []⟩) := by
  simp only [areOpposite, Bool.and_eq_true, Bool.or_eq_true, Option.any_eq_true] at opposite
  obtain ⟨isPure, ⟨operand, negated, same⟩ | ⟨operand, negated, same⟩⟩ := opposite
  · obtain ⟨ty, rfl⟩ := negated?_eq_some negated
    cases eq_of_eqv operand a .boolean (boolean_of_not nTyped) same
    exact ⟨isPure, .inl ⟨ty, rfl⟩⟩
  · obtain ⟨ty, rfl⟩ := negated?_eq_some negated
    cases eq_of_eqv operand n .boolean (boolean_of_not aTyped) same
    exact ⟨isPure, .inr ⟨ty, rfl⟩⟩

theorem noEffects_of_areOpposite (opposite : a.areOpposite n)
    (aTyped : a.exactTy? scope = some .boolean) (nTyped : n.exactTy? scope = some .boolean) :
    n.hasSideEffects = false := by
  obtain ⟨isPure, ⟨ty, rfl⟩ | ⟨ty, rfl⟩⟩ := areOpposite_cases opposite aTyped nTyped
  · exact Bool.or_eq_false_iff.mpr ⟨rfl, (isPure_iff.mp isPure).1⟩
  · exact (isPure_iff.mp (isPure_of_not isPure)).1

theorem eval_opposite (opposite : a.areOpposite n) (aTyped : a.exactTy? scope = some .boolean)
    (nTyped : n.exactTy? scope = some .boolean) (fits : scope.Fits state)
    (run : a.eval methods state = .ok (.bool x) state) :
    n.eval methods state = .ok (.bool !x) state := by
  obtain ⟨isPure, ⟨ty, rfl⟩ | ⟨ty, rfl⟩⟩ := areOpposite_cases opposite aTyped nTyped
  · exact eval_not run
  · obtain ⟨y, run'⟩ := exists_bool_of_isPure methods (isPure_of_not isPure) nTyped fits
    cases (eval_not run').symm.trans run
    rw [run', Bool.not_not]

theorem eval_left_error {stop : Abrupt Thrown} (left : l.eval methods state = .error stop middle) :
    (binary op l r s).eval methods state = .error stop middle := by
  rw [eval_binary, Evaluation.bind_run, left]

/-! The repeated operand or another one. -/

/-- An expression that evaluates `c` and then `a` once more, where `a` has been false: it ends as
`c` does, and with the value of `c` if `a` is still false. -/
theorem endAlike_of_again (respects : methods.Respects scope) (aPure : a.isPure)
    (aTyped : a.exactTy? scope = some .boolean) (cTyped : c.exactTy? scope = some .boolean)
    (fits : scope.Fits state) (run : a.eval methods state = .ok (.bool false) state) {e : Expr}
    (value : Bool → Bool → Bool)
    (errors : ∀ stop final, c.eval methods state = .error stop final →
      e.eval methods state = .error stop final)
    (ends : ∀ x y final, scope.Fits final → c.eval methods state = .ok (.bool y) final →
      a.eval methods final = .ok (.bool x) final →
      e.eval methods state = .ok (.bool (value x y)) final)
    (still : ∀ y, value false y = y) :
    Evaluation.EndAlike (c.eval methods state) (e.eval methods state) ∧
      (c.disturbs scope a = false → c.eval methods state = e.eval methods state) := by
  have kept := keeps_eval respects c .boolean cTyped state fits
  cases ended : c.eval methods state with
  | error stop final =>
    rw [errors stop final ended]
    exact ⟨.refl _, fun _ => rfl⟩
  | ok v final =>
    rw [ended] at kept
    obtain ⟨y, rfl⟩ := Value.exists_bool kept.1
    obtain ⟨x, again⟩ := exists_bool_of_isPure methods aPure aTyped kept.2
    rw [ends x y final kept.2 ended again]
    refine ⟨rfl, fun undisturbed => ?_⟩
    cases again.symm.trans
      (eval_after respects cTyped (isPure_iff.mp aPure).1 undisturbed fits run ended)
    rw [still]

section OrElse

variable (respects : methods.Respects scope) (opposite : a.areOpposite n)
  (aTyped : a.exactTy? scope = some .boolean)
include respects opposite aTyped

/-- `a || !a && c` -/
theorem orElse_first (typed : (binary .and n c ⟨ty', []⟩).exactTy? scope = some .boolean) :
    scope.Agrees ((binary .or a c ⟨ty, []⟩).eval methods)
      ((binary .or a (binary .and n c ⟨ty', []⟩) ⟨ty, []⟩).eval methods) := by
  intro state fits
  obtain ⟨nTyped, cTyped, -⟩ := (exactTy?_lazy (.inl rfl)).mp typed
  have aPure := (areOpposite_cases opposite aTyped nTyped).1
  obtain ⟨x, run⟩ := exists_bool_of_isPure methods aPure aTyped fits
  have run' := eval_opposite opposite aTyped nTyped fits run
  rw [eval_lazy respects (.inr rfl) cTyped run fits, eval_lazy respects (.inr rfl) typed run fits,
    eval_lazy respects (.inl rfl) cTyped run' fits]
  cases x <;> rfl

/-- `a || c && !a` -/
theorem orElse_second (typed : (binary .and c n ⟨ty', []⟩).exactTy? scope = some .boolean) :
    scope.AgreesIf (c.disturbs scope a = false) ((binary .or a c ⟨ty, []⟩).eval methods)
      ((binary .or a (binary .and c n ⟨ty', []⟩) ⟨ty, []⟩).eval methods) := by
  intro state fits
  obtain ⟨cTyped, nTyped, -⟩ := (exactTy?_lazy (.inl rfl)).mp typed
  have aPure := (areOpposite_cases opposite aTyped nTyped).1
  obtain ⟨x, run⟩ := exists_bool_of_isPure methods aPure aTyped fits
  rw [eval_lazy respects (.inr rfl) cTyped run fits, eval_lazy respects (.inr rfl) typed run fits]
  cases x with
  | true => exact ⟨.refl _, fun _ => rfl⟩
  | false =>
    refine endAlike_of_again respects aPure aTyped cTyped fits run (fun x y => y && !x)
      (fun _ _ => eval_left_error) (fun x y final finalFits ended again => ?_) Bool.and_true
    rw [eval_lazy respects (.inl rfl) nTyped ended finalFits,
      eval_opposite opposite aTyped nTyped finalFits again]
    cases y <;> rfl

/-- `!a && c || a` -/
theorem orElse_last (typed : (binary .and n c ⟨ty', []⟩).exactTy? scope = some .boolean) :
    scope.AgreesIf (c.disturbs scope a = false) ((binary .or a c ⟨ty, []⟩).eval methods)
      ((binary .or (binary .and n c ⟨ty', []⟩) a ⟨ty, []⟩).eval methods) := by
  intro state fits
  obtain ⟨nTyped, cTyped, -⟩ := (exactTy?_lazy (.inl rfl)).mp typed
  have aPure := (areOpposite_cases opposite aTyped nTyped).1
  obtain ⟨x, run⟩ := exists_bool_of_isPure methods aPure aTyped fits
  have first : (binary .and n c ⟨ty', []⟩).eval methods state = _ :=
    eval_lazy respects (.inl rfl) cTyped (eval_opposite opposite aTyped nTyped fits run) fits
  rw [eval_lazy respects (.inr rfl) cTyped run fits]
  cases x with
  | true =>
    rw [eval_lazy respects (.inr rfl) aTyped first fits, run]
    exact ⟨.refl _, fun _ => rfl⟩
  | false =>
    refine endAlike_of_again respects aPure aTyped cTyped fits run (fun x y => y || x)
      (fun _ _ ended => eval_left_error (first.trans ended))
      (fun x y final finalFits ended again => ?_) Bool.or_false
    rw [eval_lazy respects (.inr rfl) aTyped (first.trans ended) finalFits, again]
    cases y <;> rfl

end OrElse

theorem agrees_addCasts {e e' : Expr} (agrees : scope.Agrees (e'.eval methods) (e.eval methods))
    (casts : List Cast) :
    scope.Agrees ((e'.addCasts casts).eval methods) ((e.addCasts casts).eval methods) := by
  intro state fits
  rw [eval_addCasts, eval_addCasts, Evaluation.bind_run, Evaluation.bind_run, agrees state fits]

/-- No casts make an expression one that it is an operand of. -/
theorem addCasts_ne_binary {e : Expr} {casts : List Cast} : e.addCasts casts ≠ binary op e r s := by
  intro same
  cases e <;> cases same

/-- Casts that lead somewhere make no difference to how expressions of one type end. -/
theorem agreesIf_addCasts (respects : methods.Respects scope) {e e' : Expr} {casts : List Cast}
    {condition : Prop} {t : Primitive} (typed : e.exactTy? scope = some t)
    (typed' : e'.exactTy? scope = some t) (leads : castTy? t casts = some p)
    (agrees : scope.AgreesIf condition (e'.eval methods) (e.eval methods)) :
    scope.AgreesIf condition ((e'.addCasts casts).eval methods) ((e.addCasts casts).eval methods) := by
  intro state fits
  have kept := keeps_eval respects e t typed state fits
  have kept' := keeps_eval respects e' t typed' state fits
  obtain ⟨alike, same⟩ := agrees state fits
  rw [eval_addCasts, eval_addCasts, Evaluation.bind_run, Evaluation.bind_run]
  refine ⟨?_, fun holds => by rw [same holds]⟩
  cases run' : e'.eval methods state with
  | error stop' final' =>
    cases run : e.eval methods state with
    | error stop final =>
      rw [run, run'] at alike
      exact alike
    | ok v final =>
      rw [run, run'] at alike
      cases alike
  | ok v' final' =>
    cases run : e.eval methods state with
    | error stop final =>
      rw [run, run'] at alike
      cases alike
    | ok v final =>
      rw [run] at alike kept
      rw [run'] at alike kept'
      obtain ⟨w, cast, -⟩ := Reference.castAll_exact kept.1 leads
      obtain ⟨w', cast', -⟩ := Reference.castAll_exact kept'.1 leads
      simp only [cast, cast']
      exact alike

end Expr

/-! The pass. -/

theorem lazy_of_absorb? {op : BinaryOp} {outer inner : Expr} {swapped : Bool} {found : Absorbed}
    (absorbs : absorb? op outer inner swapped = some found) : op = .and ∨ op = .or := by
  obtain ⟨innerOp, _, _, _, _, dual, _⟩ := absorb?_cases absorbs
  exact dual.lazy

namespace Pass

variable {op : BinaryOp} {l r outer inner e' : Expr} {s : Static} {p : Primitive} {found : Absorbed}

open ConstFold.Expr

/-- What is found where the repeated operand is evaluated first. -/
theorem absorb?_left (respects : methods.Respects scope) (ty : Option Ty)
    (outerTyped : outer.exactTy? scope = some .boolean)
    (innerTyped : inner.exactTy? scope = some .boolean)
    (absorbs : absorb? op outer inner false = some found) :
    (found = .whole ∧
        scope.Agrees (outer.eval methods) ((binary op outer inner ⟨ty, []⟩).eval methods)) ∨
      ∃ rest, found = .orElse rest ∧ op = .or ∧ (∃ x y t, inner = binary .and x y t) ∧
        rest.exactTy? scope = some .boolean ∧
        scope.AgreesIf (rest.disturbs scope outer = false ∨ ∃ n t, inner = binary .and n rest t)
          ((binary .or outer rest ⟨ty, []⟩).eval methods)
          ((binary op outer inner ⟨ty, []⟩).eval methods) := by
  obtain ⟨innerOp, l, r, ty', rfl, dual, found⟩ := absorb?_cases absorbs
  obtain ⟨lTyped, rTyped, -⟩ := (exactTy?_lazy dual.inner_lazy).mp innerTyped
  rcases found with ⟨rfl, same, -⟩ | ⟨rfl, -, same, lPure⟩ | ⟨rfl, isOr, opposite⟩ |
    ⟨rfl, isOr, -, opposite⟩
  · obtain ⟨same, isPure⟩ := Bool.and_eq_true_iff.mp same
    cases eq_of_eqv outer l .boolean outerTyped same
    exact .inl ⟨rfl, absorb_first respects dual isPure outerTyped innerTyped⟩
  · obtain ⟨same, isPure⟩ := Bool.and_eq_true_iff.mp same
    cases eq_of_eqv outer r .boolean outerTyped same
    exact .inl ⟨rfl, absorb_second respects dual isPure outerTyped innerTyped lPure⟩
  · cases dual.inner_eq_and isOr
    subst isOr
    exact .inr ⟨r, rfl, rfl, ⟨l, r, _, rfl⟩, rTyped,
      (orElse_first respects opposite outerTyped innerTyped).agreesIf⟩
  · cases dual.inner_eq_and isOr
    subst isOr
    refine .inr ⟨l, rfl, rfl, ⟨l, r, _, rfl⟩, lTyped, ?_⟩
    refine (orElse_second respects opposite outerTyped innerTyped).mono fun condition => ?_
    rcases condition with undisturbed | ⟨n, t, same⟩
    · exact undisturbed
    · cases same
      exact not_disturbs_of_noEffects (noEffects_of_areOpposite opposite outerTyped rTyped)

/-- What is found where the repeated operand is evaluated last. -/
theorem absorb?_right (respects : methods.Respects scope) (ty : Option Ty)
    (outerTyped : outer.exactTy? scope = some .boolean)
    (innerTyped : inner.exactTy? scope = some .boolean)
    (absorbs : absorb? op outer inner true = some found) :
    (found = .whole ∧
        scope.Agrees (outer.eval methods) ((binary op inner outer ⟨ty, []⟩).eval methods)) ∨
      ∃ rest, found = .orElse rest ∧ op = .or ∧ (∃ x t, inner = binary .and x rest t) ∧
        outer.isPure ∧ rest.exactTy? scope = some .boolean ∧
        scope.AgreesIf (rest.disturbs scope outer = false)
          ((binary .or outer rest ⟨ty, []⟩).eval methods)
          ((binary op inner outer ⟨ty, []⟩).eval methods) := by
  obtain ⟨innerOp, l, r, ty', rfl, dual, found⟩ := absorb?_cases absorbs
  obtain ⟨lTyped, rTyped, -⟩ := (exactTy?_lazy dual.inner_lazy).mp innerTyped
  rcases found with ⟨rfl, same, order⟩ | ⟨-, order, -⟩ | ⟨rfl, isOr, opposite⟩ | ⟨-, -, order, -⟩
  · obtain ⟨same, isPure⟩ := Bool.and_eq_true_iff.mp same
    cases eq_of_eqv outer l .boolean outerTyped same
    have rPure : r.isPure := order.resolve_left nofun
    exact .inl ⟨rfl, absorb_last respects dual isPure outerTyped innerTyped rPure⟩
  · cases order
  · cases dual.inner_eq_and isOr
    subst isOr
    have isPure := (areOpposite_cases opposite outerTyped lTyped).1
    exact .inr ⟨r, rfl, rfl, ⟨l, _, rfl⟩, isPure, rTyped,
      orElse_last respects opposite outerTyped innerTyped⟩
  · cases order

section Casts

variable (typed : (binary op l r s).exactTy? scope = some p) (lazy : op = .and ∨ op = .or)
  (outerTyped : outer.exactTy? scope = some .boolean)
include typed lazy outerTyped

theorem agrees_whole
    (agrees : scope.Agrees (outer.eval methods) ((binary op l r ⟨s.ty, []⟩).eval methods)) :
    (absorbed outer .whole s).exactTy? scope = some p ∧
      scope.Agrees ((absorbed outer .whole s).eval methods) ((binary op l r s).eval methods) := by
  obtain ⟨-, -, -, leads⟩ := (exactTy?_lazy lazy).mp typed
  refine ⟨?_, agrees_addCasts agrees s.casts⟩
  rw [absorbed, exactTy?_addCasts, outerTyped]
  exact leads

theorem agreesIf_orElse (respects : methods.Respects scope) {rest : Expr} {condition : Prop}
    (restTyped : rest.exactTy? scope = some .boolean)
    (agrees : scope.AgreesIf condition ((binary .or outer rest ⟨s.ty, []⟩).eval methods)
      ((binary op l r ⟨s.ty, []⟩).eval methods)) :
    (absorbed outer (.orElse rest) s).exactTy? scope = some p ∧
      scope.AgreesIf condition ((absorbed outer (.orElse rest) s).eval methods)
        ((binary op l r s).eval methods) := by
  obtain ⟨lTyped, rTyped, admits, leads⟩ := (exactTy?_lazy lazy).mp typed
  have original : (binary op l r ⟨s.ty, []⟩).exactTy? scope = some .boolean :=
    (exactTy?_lazy lazy).mpr ⟨lTyped, rTyped, admits, rfl⟩
  have result : (binary .or outer rest ⟨s.ty, []⟩).exactTy? scope = some .boolean :=
    (exactTy?_lazy (.inr rfl)).mpr ⟨outerTyped, restTyped, admits, rfl⟩
  exact ⟨(exactTy?_lazy (.inr rfl)).mpr ⟨outerTyped, restTyped, admits, leads⟩,
    agreesIf_addCasts respects original result leads agrees⟩

end Casts

/-- A rewritten expression keeps its type. It agrees with the original, or it is the repeated operand
or another one. -/
theorem absorption_agrees (respects : methods.Respects scope)
    (typed : (binary op l r s).exactTy? scope = some p)
    (done : absorption.step (binary op l r s) = .ok e') :
    e'.exactTy? scope = some p ∧
      (scope.Agrees (e'.eval methods) ((binary op l r s).eval methods) ∨
        ∃ outer rest, e' = binary .or outer rest s ∧
          ((outer = l ∧ ∃ x y t, r = binary .and x y t) ∨ (outer = r ∧ ∃ x y t, l = binary .and x y t)) ∧
          scope.AgreesIf
            (rest.disturbs scope outer = false ∨ outer = l ∧ ∃ n t, r = binary .and n rest t)
            (e'.eval methods) ((binary op l r s).eval methods)) := by
  rcases absorption_ok done with rfl | ⟨found, absorbs, rfl⟩ | ⟨found, absorbs, rfl⟩
  · exact ⟨typed, .inl fun _ _ => rfl⟩
  · have lazy := lazy_of_absorb? absorbs
    obtain ⟨lTyped, rTyped, -⟩ := (exactTy?_lazy lazy).mp typed
    rcases absorb?_left respects s.ty lTyped rTyped absorbs with
      ⟨rfl, agrees⟩ | ⟨rest, rfl, -, inner, restTyped, agrees⟩
    · exact (agrees_whole typed lazy lTyped agrees).imp_right .inl
    · obtain ⟨result, agrees⟩ := agreesIf_orElse typed lazy lTyped respects restTyped agrees
      refine ⟨result, .inr ⟨l, rest, rfl, .inl ⟨rfl, inner⟩, agrees.mono fun condition => ?_⟩⟩
      exact condition.imp_right And.right
  · have lazy := lazy_of_absorb? absorbs
    obtain ⟨lTyped, rTyped, -⟩ := (exactTy?_lazy lazy).mp typed
    rcases absorb?_right respects s.ty rTyped lTyped absorbs with
      ⟨rfl, agrees⟩ | ⟨rest, rfl, -, ⟨x, t, inner⟩, isPure, restTyped, agrees⟩
    · exact (agrees_whole typed lazy rTyped agrees).imp_right .inl
    · obtain ⟨result, agrees⟩ := agreesIf_orElse typed lazy rTyped respects restTyped agrees
      refine ⟨result, .inr ⟨r, rest, rfl, .inr ⟨rfl, x, rest, t, inner⟩, agrees.mono ?_⟩⟩
      rintro (undisturbed | ⟨same, -⟩)
      · exact undisturbed
      · -- What is left is part of the repeated operand, which is pure.
        rw [same, inner] at isPure
        exact not_disturbs_of_noEffects (Bool.or_eq_false_iff.mp (isPure_iff.mp isPure).1).2

end Pass

/-- An expression that absorption turns into `a || c` keeps its type. From every store that fits the
scope the result and the original are stopped by the same exception or both have a value, and they
leave the same store. They have the same value if `c` may change no variable that occurs in `a`, and
whatever `c` does if the original is `a || n && c`. -/
theorem absorption_keeps_effects (scope : Scope) (methods : Methods World Thrown)
    (respects : methods.Respects scope) {l r a c : Expr} {s : Static} {p : Primitive}
    (typed : (Expr.binary .or l r s).exactTy? scope = some p)
    (rewritten : Pass.absorption.step (.binary .or l r s) = .ok (.binary .or a c s)) :
    (Expr.binary .or a c s).exactTy? scope = some p ∧
      ∀ state, scope.Fits state →
        Evaluation.EndAlike ((Expr.binary .or a c s).eval methods state)
            ((Expr.binary .or l r s).eval methods state) ∧
          ((c.disturbs scope a = false ∨ a = l ∧ ∃ n t, r = .binary .and n c t) →
            (Expr.binary .or a c s).eval methods state =
              (Expr.binary .or l r s).eval methods state) := by
  obtain ⟨result, agrees | ⟨outer, rest, same, -, agrees⟩⟩ :=
    Pass.absorption_agrees respects typed rewritten
  · exact ⟨result, agrees.agreesIf⟩
  · cases same
    exact ⟨result, agrees⟩

namespace AbsorptionSample

def limit : Expr := .read ⟨0⟩ (.ofIndex 0) ⟨some .int, []⟩

def n : Expr := .read ⟨1⟩ (.ofIndex 1) ⟨some .int, []⟩

def exceeds (e : Expr) (bound : Int32) : Expr :=
  .binary .gt e (.literal (.int bound) ⟨some .int, []⟩) ⟨some .boolean, []⟩

def not (e : Expr) : Expr := .unary .not e ⟨some .boolean, []⟩

def or (l r : Expr) : Expr := .binary .or l r ⟨some .boolean, []⟩

def and (l r : Expr) : Expr := .binary .and l r ⟨some .boolean, []⟩

/-- The call `f(n++)`. -/
def called : Expr :=
  .call (.ofIndex 2) [.unary .postInc n ⟨some .int, []⟩] ⟨some (.primitive .byte), []⟩

/-- The expression `++n > 3`. -/
def increased : Expr := exceeds (.unary .preInc n ⟨some .int, []⟩) 3

end AbsorptionSample

open AbsorptionSample in
/-- With `n` being 3, `n > 3 || ++n > 3 && !(n > 3)` is false and `n > 3 || ++n > 3` is true. -/
theorem absorption_changes_value :
    ∃ e', Pass.absorption.step (or (exceeds n 3) (and increased (not (exceeds n 3)))) = .ok e' ∧
      (or (exceeds n 3) (and increased (not (exceeds n 3)))).exactTy? Sample.scope = some .boolean ∧
      e'.eval Sample.methods Sample.state ≠
        (or (exceeds n 3) (and increased (not (exceeds n 3)))).eval Sample.methods Sample.state := by
  refine ⟨_, rfl, by decide, fun same => ?_⟩
  injection same with value
  revert value
  decide

open AbsorptionSample in
/-- The expression `K > 7 || f(n++) > 3 && !(K > 7)`. -/
theorem absorption_keeps_effects_sample :
    ∃ e', Pass.absorption.step
        (or (exceeds limit 7) (and (exceeds called 3) (not (exceeds limit 7)))) = .ok e' ∧
      e'.eval Sample.methods Sample.state =
        (or (exceeds limit 7) (and (exceeds called 3) (not (exceeds limit 7)))).eval Sample.methods
          Sample.state := by
  have typed : (or (exceeds limit 7) (and (exceeds called 3) (not (exceeds limit 7)))).exactTy?
      Sample.scope = some .boolean := by decide
  refine ⟨or (exceeds limit 7) (exceeds called 3), rfl, ?_⟩
  exact ((absorption_keeps_effects Sample.scope Sample.methods Sample.respects typed rfl).2
    Sample.state Sample.fits).2 (.inl (by decide))

/-- An expression that absorption turns into one of its operands keeps its type. From every store
that fits the scope the result makes the same calls as the original, leaves the same store, and has
the same value or is stopped by the same exception. -/
theorem absorption_to_operand_agrees (scope : Scope) (methods : Methods World Thrown)
    (respects : methods.Respects scope) {op : BinaryOp} {l r e' : Expr} {s : Static} {p : Primitive}
    (typed : (Expr.binary op l r s).exactTy? scope = some p)
    (rewritten : Pass.absorption.step (.binary op l r s) = .ok e')
    (alone : e' = l.addCasts s.casts ∨ e' = r.addCasts s.casts) :
    e'.exactTy? scope = some p ∧
      ∀ state, scope.Fits state →
        e'.eval methods state = (Expr.binary op l r s).eval methods state ∧
          e'.calls methods state = (Expr.binary op l r s).calls methods state := by
  obtain ⟨result, agrees | ⟨outer, rest, rfl, sides, -⟩⟩ :=
    Pass.absorption_agrees respects.logged typed rewritten
  · exact ⟨result, fun state fits => Expr.eval_and_calls_of_logged (agrees _ (fits.withLog []))⟩
  · exfalso
    rcases sides with ⟨rfl, x, y, t, rfl⟩ | ⟨rfl, x, y, t, rfl⟩ <;> rcases alone with same | same
    · exact Expr.addCasts_ne_binary same.symm
    · cases same
    · cases same
    · exact Expr.addCasts_ne_binary same.symm

open AbsorptionSample in
/-- The expression `n > 3 || n > 3 && f(n++) > 3`. -/
theorem absorption_to_operand_agrees_sample :
    Pass.absorption.step (or (exceeds n 3) (and (exceeds n 3) (exceeds called 3))) =
        .ok (exceeds n 3) ∧
      (exceeds n 3).eval Sample.methods Sample.state =
        (or (exceeds n 3) (and (exceeds n 3) (exceeds called 3))).eval Sample.methods Sample.state ∧
      (exceeds n 3).calls Sample.methods Sample.state =
        (or (exceeds n 3) (and (exceeds n 3) (exceeds called 3))).calls Sample.methods
          Sample.state := by
  have typed : (or (exceeds n 3) (and (exceeds n 3) (exceeds called 3))).exactTy? Sample.scope =
      some .boolean := by decide
  refine ⟨rfl, ?_⟩
  exact (absorption_to_operand_agrees Sample.scope Sample.methods Sample.respects typed rfl
    (.inl rfl)).2 Sample.state Sample.fits

end ConstFold
