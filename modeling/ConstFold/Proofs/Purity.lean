import ConstFold.Proofs.JavaCasts

/-! Evaluation of pure expressions. A well-typed expression without side effects that is not taken
to throw leaves the store as it is, and has a value of its type unless it unboxes a `null` that is
written in it. -/
namespace ConstFold.Java

variable {Obj World Thrown α β : Type} {store : Store Obj World} {types : VarId → Option Ty}

/-! Computations that change no store. -/

theorem bind_ok {run : Run Obj World Thrown α} {f : α → Run Obj World Thrown β} {a : α}
    (ended : run store = .ok a store) : (run >>= f) store = f a store := by
  show EStateM.bind run f store = _
  rw [EStateM.bind, ended]

theorem bind_error {run : Run Obj World Thrown α} {f : α → Run Obj World Thrown β}
    {stop : Exception Thrown} (ended : run store = .error stop store) :
    (run >>= f) store = .error stop store := by
  show EStateM.bind run f store = _
  rw [EStateM.bind, ended]

/-- The computation ends with a result in `P`, or for want of an object if `fails`; it leaves the
store as it is. -/
def Ends (store : Store Obj World) (P : α → Prop) (fails : Prop) (run : Run Obj World Thrown α) :
    Prop :=
  (∃ a, run store = .ok a store ∧ P a) ∨ (run store = .error .nullPointer store ∧ fails)

namespace Ends

variable {P P' : α → Prop} {Q : β → Prop} {fails fails' : Prop} {run : Run Obj World Thrown α}
  {f : α → Run Obj World Thrown β}

theorem pure {a : α} (holds : P a) : Ends store P fails (Pure.pure a : Run Obj World Thrown α) :=
  .inl ⟨a, rfl, holds⟩

theorem mono (ends : Ends store P fails run) (weaker : ∀ a, P a → P' a) (implied : fails → fails') :
    Ends store P' fails' run := by
  rcases ends with ⟨a, ended, holds⟩ | ⟨ended, stops⟩
  · exact .inl ⟨a, ended, weaker a holds⟩
  · exact .inr ⟨ended, implied stops⟩

theorem bind (first : Ends store P fails run) (next : ∀ a, P a → Ends store Q fails (f a)) :
    Ends store Q fails (run >>= f) := by
  rcases first with ⟨a, ended, holds⟩ | ⟨ended, stops⟩
  · rw [Ends, bind_ok ended]
    exact next a holds
  · exact .inr ⟨bind_error ended, stops⟩

end Ends

/-! Expressions. -/

variable {t u left right : Ty} {x y : Item Obj} {v w : Value} {p : Primitive}

/-- Variables hold values of their types. -/
def Store.Fits (store : Store Obj World) (types : VarId → Option Ty) : Prop :=
  ∀ id t, types id = some t → (store.vars id).isOf t

/-- A `null` that casts make one of a wrapper type. -/
def isBoxedNull : Expr → Bool
  | .literal .null s => s.resultTy.any Ty.isBoxed
  | _ => false

/-- An operator or a cast unboxes a `null` that is its operand. -/
def unboxesNull (types : VarId → Option Ty) : Expr → Bool
  | .literal v s => v = .null && unboxes s.casts
  | .unary _ x _ => unboxesNull types x || isBoxedNull x
  | .binary op l r _ =>
    unboxesNull types l || unboxesNull types r ||
      (unboxesOperands op (ty? types l) (ty? types r) && (isBoxedNull l || isBoxedNull r))
  | .read _ _ _ | .call _ _ _ | .typeRef _ _ => false

/-- No operator leaves out its right operand. -/
def isStrict : Expr → Bool
  | .unary _ x _ => isStrict x
  | .binary op l r _ => op ≠ .and && op ≠ .or && isStrict l && isStrict r
  | .literal _ _ | .read _ _ _ | .call _ _ _ | .typeRef _ _ => true

variable {e : Expr} {s : Static} {fails : Prop} {platform : Platform Obj World Thrown}

/-- What is known of the value of a pure expression: it is of the type, it is a `null` of a wrapper
type only if one is written there, and a literal other than zero stays so. -/
structure Result (e : Expr) (t : Ty) (x : Item Obj) : Prop where
  typed : x.isOf t
  null : t.isBoxed → x.isNull → isBoxedNull e
  nonzero : e.isNonzeroInteger → ∀ v, x = .constant v → v.integer? ≠ some 0

theorem ends_unbox (result : Result e t x) (unboxed : t.unboxed? = some p) :
    Ends store (fun v => x = .constant v ∧ v.primitive? = some p) (isBoxedNull e)
      (unbox x : Run Obj World Thrown Value) := by
  cases null : x.isNull with
  | true =>
    obtain rfl : x = .constant .null := by
      cases x <;> simp_all [Item.isNull]
    have boxed : t.isBoxed := by
      cases t <;> cases unboxed
      · cases result.typed
      · rfl
    exact .inr ⟨rfl, result.null boxed null⟩
  | false =>
    obtain ⟨v, rfl, kind⟩ := exists_constant result.typed unboxed null
    refine .inl ⟨v, ?_, rfl, kind⟩
    cases v <;> first | rfl | cases kind

theorem ends_castAll (declarable : isDeclarable t) (leads : castsTy? t s.casts = some u)
    (own : s.ty.all (· = t)) (quiet : Expr.ownThrow s = false) (typed : x.isOf t)
    (guarded : t.isBoxed → x.isNull = false) (other : e.isNonzeroInteger = false) :
    Ends store (Result e u) fails (castAll t s.casts x : Run Obj World Thrown (Item Obj)) := by
  simp only [Expr.ownThrow, Bool.or_eq_false_iff] at quiet
  obtain ⟨y, made, typed, guarded⟩ :=
    exists_castAll World Thrown declarable leads own quiet.2 typed guarded
  rw [made]
  exact .pure ⟨typed, fun boxed null => by simp [guarded boxed] at null, by simp [other]⟩

theorem eval_read {id : VarId} {name : Name} (node : nodeTy? types (.read id name s) = some t) :
    eval types platform (.read id name s) store = castAll t s.casts (store.vars id) store := by
  rw [eval, node]
  rfl

theorem eval_unary {op : UnaryOp} {operand : Expr} (noStep : op.isStep = false)
    (node : nodeTy? types (.unary op operand s) = some t) :
    eval types platform (.unary op operand s) =
      eval types platform operand >>= fun y => unbox y >>= fun v =>
        ofOption ((Reference.unary? op v).map .constant) >>= castAll t s.casts := by
  rw [eval, node]
  simp only [noStep, Bool.false_eq_true, if_false, bind_assoc]
  rfl

variable {op : BinaryOp} {l r : Expr}

theorem eval_instanceOf (node : nodeTy? types (.binary .instanceOf l r s) = some t) :
    eval types platform (.binary .instanceOf l r s) =
      eval types platform l >>= fun x => testClass x (testedTy? r) >>= castAll t s.casts := by
  rw [eval, node]
  rfl

theorem eval_lazy (lazy : op = .and ∨ op = .or)
    (node : nodeTy? types (.binary op l r s) = some t) :
    eval types platform (.binary op l r s) =
      eval types platform l >>= fun x =>
        evalLazy op x (eval types platform r) >>= castAll t s.casts := by
  rw [eval, node]
  rcases lazy with rfl | rfl <;> rfl

theorem eval_strict (strict : op ≠ .and ∧ op ≠ .or) (noTest : op ≠ .instanceOf)
    (node : nodeTy? types (.binary op l r s) = some t) :
    eval types platform (.binary op l r s) =
      eval types platform l >>= fun x => eval types platform r >>= fun y =>
        platform.combine op (ty? types l) (ty? types r) x y >>= castAll t s.casts := by
  rw [eval, node]
  simp only [strict, noTest, bind_assoc, if_false, decide_false, Bool.or_false, Bool.false_eq_true]
  rfl

/-! Types of operators. -/

theorem nodeTy?_read {id : VarId} {name : Name} : nodeTy? types (.read id name s) = some t ↔
    s.ty = some t ∧ isDeclarable t ∧ types id = some t := by
  simp [nodeTy?, Option.filter_eq_some_iff]

theorem nodeTy?_unary {op : UnaryOp} (noStep : op.isStep = false) :
    nodeTy? types (.unary op e s) = some t ↔
      (∃ operand, ty? types e = some operand ∧ unaryTy? op operand = some t) ∧ s.ty.all (· = t) := by
  simp only [nodeTy?, noStep, Bool.false_and, Bool.false_eq_true, if_false]
  rw [Option.filter_eq_some_iff, ← ty?, Option.bind_eq_some_iff]

theorem nodeTy?_instanceOf : nodeTy? types (.binary .instanceOf l r s) = some t ↔
    (∃ left, ty? types l = some left ∧ isTest left r ∧ .boolean = t) ∧ s.ty.all (· = t) := by
  simp only [nodeTy?, if_true]
  rw [Option.filter_eq_some_iff, ← ty?, Option.bind_eq_some_iff]
  simp only [Option.ite_none_right_eq_some, Option.some.injEq]

theorem nodeTy?_binary (noTest : op ≠ .instanceOf) : nodeTy? types (.binary op l r s) = some t ↔
    (∃ left, ty? types l = some left ∧ ∃ right, ty? types r = some right ∧
      binaryTy? op left right = some t) ∧ s.ty.all (· = t) := by
  simp only [nodeTy?, noTest, if_false]
  rw [Option.filter_eq_some_iff, ← ty?, ← ty?, Option.bind_eq_some_iff]
  simp only [Option.bind_eq_some_iff]

/-! Operators. -/

/-- A division that is not taken to throw is in a floating-point type, or by a number that is not
zero. -/
theorem not_dividesByZero (quiet : Expr.mayThrow (.binary op l r s) = false)
    (own : s.ty.all (· = t)) (result : Result r right (.constant v : Item Obj)) : ¬DividesByZero op t v := by
  rintro ⟨divides, notFloating, zero⟩
  have safe : s.ty.any Ty.isFloating ∨ r.isNonzeroInteger := by
    cases floating : s.ty.any Ty.isFloating with
    | true => exact .inl rfl
    | false => rcases divides with rfl | rfl <;> simp_all [Expr.mayThrow]
  rcases safe with floating | nonzero
  · obtain ⟨t', known, floating⟩ := (Option.any_eq_true _ _).mp floating
    rw [known] at own
    simp_all
  · exact result.nonzero nonzero v rfl zero

theorem ends_ofOutcome (outcome : IsOutcome op t w (Reference.binary? op v w))
    (noZero : ¬DividesByZero op t w) :
    Ends store (fun z => z.isOf t) fails
      (ofOutcome (Reference.binary? op v w) : Run Obj World Thrown (Item Obj)) := by
  rcases outcome with ⟨z, value, typed⟩ | ⟨-, zero⟩
  · rw [value]
    exact .pure typed
  · exact absurd zero noZero

theorem exists_onReferences (platform : Platform Obj World Thrown) (x y : Item Obj)
    (references : unboxesOperands op (some left) (some right) = false)
    (typed : binaryTy? op left right = some t) :
    ∃ z, platform.onReferences op x y = pure z ∧ z.isOf t := by
  cases op with
  | eq | ne =>
    simp only [binaryTy?, Option.ite_none_right_eq_some, Option.some.injEq] at typed
    rw [← typed.2]
    exact ⟨_, rfl, rfl⟩
  | plus =>
    have text : left = .string ∨ right = .string := by
      simpa [unboxesOperands, ← Decidable.or_iff_not_imp_left] using references
    simp only [binaryTy?, Bool.or_eq_true, decide_eq_true_eq, text, if_true,
      Option.some.injEq] at typed
    rw [← typed]
    exact ⟨_, rfl, rfl⟩
  | instanceOf => cases typed
  | _ => cases references

/-- Two operands that are evaluated combine to a value, unless one is a `null` to unbox. -/
theorem ends_combine (leftResult : Result l left x) (rightResult : Result r right y)
    (typed : binaryTy? op left right = some t)
    (noZero : ∀ v, y = .constant v → ¬DividesByZero op t v) :
    Ends store (fun z => z.isOf t)
      (unboxesOperands op (some left) (some right) ∧ (isBoxedNull l ∨ isBoxedNull r))
      (platform.combine op (some left) (some right) x y) := by
  rw [Platform.combine]
  split
  · rename_i computes
    obtain ⟨p, q, leftUnboxed, rightUnboxed⟩ := exists_unboxed typed computes
    refine ((ends_unbox leftResult leftUnboxed).mono (fun _ => id)
      fun null => ⟨computes, .inl null⟩).bind ?_
    rintro v ⟨-, leftKind⟩
    refine ((ends_unbox rightResult rightUnboxed).mono (fun _ => id)
      fun null => ⟨computes, .inr null⟩).bind ?_
    rintro w ⟨isRight, rightKind⟩
    exact ends_ofOutcome (isOutcome_binary typed computes (leftKind.trans leftUnboxed.symm)
      (rightKind.trans rightUnboxed.symm)) (noZero w isRight)
  · rename_i references
    rcases exists_onReferences platform x y (by simpa using references) typed with ⟨z, made, typed⟩
    rw [made]
    exact .pure typed

theorem ends_evalLazy (lazy : op = .and ∨ op = .or) (leftResult : Result l left x)
    {rhs : Run Obj World Thrown (Item Obj)} (rightEnds : Ends store (Result r right) fails rhs)
    (typed : binaryTy? op left right = some t) :
    Ends store (fun z => z.isOf t) (fails ∨ isBoxedNull l ∨ isBoxedNull r) (evalLazy op x rhs) := by
  have computes : unboxesOperands op (some left) (some right) := by
    rcases lazy with rfl | rfl <;> rfl
  have noZero (w : Value) : ¬DividesByZero op t w := by
    rintro ⟨divides, -⟩
    rcases lazy with rfl | rfl <;> simp at divides
  obtain ⟨leftBoolean, rightBoolean, rfl⟩ :
      left.unboxed? = some .boolean ∧ right.unboxed? = some .boolean ∧ t = .boolean := by
    rcases lazy with rfl | rfl <;> simp_all [binaryTy?, Ty.isBoolean]
  rw [evalLazy]
  refine ((ends_unbox leftResult leftBoolean).mono (fun _ => id)
    fun null => .inr (.inl null)).bind ?_
  rintro v ⟨-, leftKind⟩
  split
  · exact .pure (isOf_of_primitive? leftKind).1
  · have operand : Ends store (fun w => w.primitive? = some .boolean)
        (fails ∨ isBoxedNull l ∨ isBoxedNull r) (rhs >>= unbox) := by
      refine (rightEnds.mono (fun _ => id) .inl).bind fun y rightResult => ?_
      exact (ends_unbox rightResult rightBoolean).mono (fun _ => And.right)
        fun null => .inr (.inr null)
    refine operand.bind fun w rightKind => ?_
    exact ends_ofOutcome (isOutcome_binary typed computes (leftKind.trans leftBoolean.symm)
      (rightKind.trans rightBoolean.symm)) (noZero w)

/-! Literals. -/

theorem eval_null (typed : ty? types (.literal .null s) = some u) :
    eval types platform (.literal .null s) =
      if unboxes s.casts then throw .nullPointer else pure (.constant .null) := by
  obtain ⟨t, node, leads⟩ := Option.bind_eq_some_iff.mp typed
  rw [eval_literal node]
  exact castAll_null (reference_of_null (nodeTy?_literal.mp node).2.2) leads

theorem ends_null (typed : ty? types (.literal .null s) = some u) :
    Ends store (Result (.literal .null s) u) (unboxesNull types (.literal .null s))
      (eval types platform (.literal .null s)) := by
  rw [eval_null typed]
  obtain ⟨t, node, leads⟩ := Option.bind_eq_some_iff.mp typed
  obtain ⟨own, -, constant⟩ := nodeTy?_literal.mp node
  split
  · rename_i unboxes
    exact .inr ⟨rfl, by simp [unboxesNull, unboxes]⟩
  · rename_i keeps
    have result : s.resultTy = some u := by
      rw [Static.resultTy_of_typed own, ← castsTo_of_castsTy? leads]
      rfl
    refine .pure ⟨isOf_null ?_, fun boxed _ => ?_, fun nonzero => ?_⟩
    · rw [← castsTo_of_castsTy? leads]
      exact reference_castsTo (reference_of_null constant) (Bool.eq_false_iff.mpr keeps)
    · simpa [isBoxedNull, result] using boxed
    · simp [Expr.isNonzeroInteger, Value.integer?] at nonzero

theorem ends_constant (notNull : v ≠ .null) (node : nodeTy? types (.literal v s) = some t)
    (leads : castsTy? t s.casts = some u) (quiet : Expr.ownThrow s = false) :
    Ends store (Result (.literal v s) u) fails (eval types platform (.literal v s)) := by
  obtain ⟨own, declarable, typed⟩ := nodeTy?_literal.mp node
  simp only [Expr.ownThrow, Bool.or_eq_false_iff] at quiet
  have declarable : isDeclarable t := by
    rcases declarable with declarable | rfl
    · exact declarable
    · cases v <;> contradiction
  have guarded : (Item.constant v : Item Obj).isNull = false := by simp [Item.isNull, notNull]
  obtain ⟨y, made, typed, guarded⟩ := exists_castAll World Thrown declarable leads (by simp [own])
    quiet.2 (x := .constant v) typed fun _ => guarded
  rw [eval_literal node, made]
  refine .pure ⟨typed, fun boxed null => by simp [guarded boxed] at null, ?_⟩
  intro nonzero w isConstant
  simp only [Expr.isNonzeroInteger, Bool.and_eq_true, List.isEmpty_iff] at nonzero
  rw [nonzero.1] at made
  have same : y = .constant v := by
    injection congrFun made store with same
    exact same.symm
  cases same.symm.trans isConstant
  intro zero
  simp [zero] at nonzero

/-! Evaluation. -/

theorem exists_typeRef (test : isTest left r) : ∃ t s, r = .typeRef t s := by
  cases r <;> first | exact ⟨_, _, rfl⟩ | simp [isTest, testedTy?] at test

theorem ends_instanceOf (node : nodeTy? types (.binary .instanceOf l r s) = some t)
    (leads : castsTy? t s.casts = some u)
    (quiet : Expr.mayThrow (.binary .instanceOf l r s) = false)
    (leftEnds : ∀ left, ty? types l = some left →
      Ends store (Result l left) fails (eval types platform l)) :
    Ends store (Result (.binary .instanceOf l r s) u) fails
      (eval types platform (.binary .instanceOf l r s)) := by
  obtain ⟨⟨left, leftTyped, test, rfl⟩, own⟩ := nodeTy?_instanceOf.mp node
  obtain ⟨tested, s', rfl⟩ := exists_typeRef test
  simp only [Expr.mayThrow, Bool.or_eq_false_iff] at quiet
  rw [eval_instanceOf node]
  refine (leftEnds left leftTyped).bind fun x _ => ?_
  exact ends_castAll rfl leads own quiet.1.1.1 rfl (fun boxed => nomatch boxed) rfl

theorem ends_binary (noTest : op ≠ .instanceOf) (node : nodeTy? types (.binary op l r s) = some t)
    (leads : castsTy? t s.casts = some u) (quiet : Expr.mayThrow (.binary op l r s) = false)
    (leftEnds : ∀ left, ty? types l = some left →
      Ends store (Result l left) (unboxesNull types (.binary op l r s)) (eval types platform l))
    (rightEnds : ∀ right, ty? types r = some right →
      Ends store (Result r right) (unboxesNull types (.binary op l r s)) (eval types platform r)) :
    Ends store (Result (.binary op l r s) u) (unboxesNull types (.binary op l r s))
      (eval types platform (.binary op l r s)) := by
  obtain ⟨⟨left, leftTyped, right, rightTyped, opTyped⟩, own⟩ := (nodeTy?_binary noTest).mp node
  obtain ⟨declarable, notBoxed⟩ := declarable_of_primitive (binaryTy?_primitive opTyped)
  have finish (z : Item Obj) (typed : z.isOf t) : Ends store (Result (.binary op l r s) u)
      (unboxesNull types (.binary op l r s))
      (castAll t s.casts z : Run Obj World Thrown (Item Obj)) := by
    simp only [Expr.mayThrow, Bool.or_eq_false_iff] at quiet
    exact ends_castAll declarable leads own quiet.1.1.1 typed (by simp [notBoxed]) rfl
  by_cases lazy : op = .and ∨ op = .or
  · rw [eval_lazy lazy node]
    refine (leftEnds left leftTyped).bind fun x leftResult => ?_
    refine ((ends_evalLazy lazy leftResult (rightEnds right rightTyped) opTyped).mono
      (fun _ => id) ?_).bind finish
    rintro (null | null)
    · exact null
    · rcases lazy with rfl | rfl <;> simp [unboxesNull, unboxesOperands, null]
  · rw [eval_strict (not_or.mp lazy) noTest node, leftTyped, rightTyped]
    refine (leftEnds left leftTyped).bind fun x leftResult => ?_
    refine (rightEnds right rightTyped).bind fun y rightResult => ?_
    refine ((ends_combine leftResult rightResult opTyped ?_).mono (fun _ => id) ?_).bind finish
    · rintro v rfl
      exact not_dividesByZero quiet own rightResult
    · intro null
      simp [unboxesNull, leftTyped, rightTyped, null]

/-- The invariant of evaluation, by induction on the expression. -/
theorem ends_eval (fits : store.Fits types) (platform : Platform Obj World Thrown) :
    ∀ (e : Expr) (t : Ty), ty? types e = some t → e.hasSideEffects = false → e.mayThrow = false →
      Ends store (Result e t) (unboxesNull types e) (eval types platform e)
  | .literal v s, u, typed, _, quiet => by
    by_cases null : v = .null
    · subst null
      exact ends_null typed
    · obtain ⟨t, node, leads⟩ := Option.bind_eq_some_iff.mp typed
      exact ends_constant null node leads quiet
  | .read id name s, u, typed, _, quiet => by
    obtain ⟨t, node, leads⟩ := Option.bind_eq_some_iff.mp typed
    obtain ⟨own, declarable, declared⟩ := nodeTy?_read.mp node
    rw [Ends, eval_read node]
    refine ends_castAll declarable leads (by simp [own]) quiet (fits id t declared) ?_ rfl
    intro boxed
    simp [Expr.mayThrow, Expr.ownThrow, own, boxed] at quiet
  | .unary op x s, u, typed, noEffects, quiet => by
    obtain ⟨t, node, leads⟩ := Option.bind_eq_some_iff.mp typed
    simp only [Expr.hasSideEffects, Bool.or_eq_false_iff] at noEffects
    simp only [Expr.mayThrow, Bool.or_eq_false_iff] at quiet
    obtain ⟨⟨operand, operandTyped, opTyped⟩, own⟩ := (nodeTy?_unary noEffects.1).mp node
    obtain ⟨p, unboxed, computes⟩ := exists_unary opTyped noEffects.1
    obtain ⟨declarable, notBoxed⟩ :=
      declarable_of_primitive (.inl (unaryTy?_primitive noEffects.1 opTyped))
    rw [eval_unary noEffects.1 node]
    refine ((ends_eval fits platform x operand operandTyped noEffects.2 quiet.2).mono (fun _ => id)
      fun null => by simp [unboxesNull, null]).bind fun y result => ?_
    refine ((ends_unbox result unboxed).mono (fun _ => id)
      fun null => by simp [unboxesNull, null]).bind ?_
    rintro v ⟨-, kind⟩
    obtain ⟨z, computed, typed⟩ := computes v kind
    rw [computed]
    exact ends_castAll declarable leads own quiet.1 typed (by simp [notBoxed]) rfl
  | .binary op l r s, u, typed, noEffects, quiet => by
    obtain ⟨t, node, leads⟩ := Option.bind_eq_some_iff.mp typed
    simp only [Expr.hasSideEffects, Bool.or_eq_false_iff] at noEffects
    have parts := quiet
    simp only [Expr.mayThrow, Bool.or_eq_false_iff] at parts
    obtain ⟨⟨-, leftQuiet⟩, rightQuiet⟩ := parts
    have leftEnds (left : Ty) (typed : ty? types l = some left) :
        Ends store (Result l left) (unboxesNull types (.binary op l r s)) (eval types platform l) :=
      (ends_eval fits platform l left typed noEffects.1 leftQuiet).mono (fun _ => id)
        fun null => by simp [unboxesNull, null]
    have rightEnds (right : Ty) (typed : ty? types r = some right) :
        Ends store (Result r right) (unboxesNull types (.binary op l r s)) (eval types platform r) :=
      (ends_eval fits platform r right typed noEffects.2 rightQuiet).mono (fun _ => id)
        fun null => by simp [unboxesNull, null]
    by_cases test : op = .instanceOf
    · subst test
      exact ends_instanceOf node leads quiet leftEnds
    · exact ends_binary test node leads quiet leftEnds rightEnds
  | .call _ _ _, _, _, noEffects, _ => by cases noEffects
  | .typeRef _ _, _, typed, _, _ => by cases typed

/-! Failures. -/

theorem null_of_isBoxedNull (null : isBoxedNull e) (typed : ty? types e = some t)
    (ended : eval types platform e store = .ok x store) : x = .constant .null := by
  match e with
  | .literal .null s =>
    rw [eval_null typed] at ended
    split at ended
    · cases ended
    · injection ended with same
      exact same.symm

theorem fails_combine (leftResult : Result l left x) (typed : binaryTy? op left right = some t)
    (computes : unboxesOperands op (some left) (some right))
    (null : x = .constant .null ∨ y = .constant .null) :
    platform.combine op (some left) (some right) x y store = .error .nullPointer store := by
  obtain ⟨p, q, leftUnboxed, -⟩ := exists_unboxed typed computes
  rw [Platform.combine, if_pos computes]
  have leftEnds : Ends store _ _ (unbox x : Run Obj World Thrown Value) :=
    ends_unbox leftResult leftUnboxed
  rcases leftEnds with ⟨v, ended, isLeft, kind⟩ | ⟨ended, -⟩
  · obtain rfl : y = .constant .null := by
      refine null.resolve_left fun same => ?_
      cases isLeft.symm.trans same
      cases kind
    rw [bind_ok ended]
    rfl
  · exact bind_error ended

/-- If either operand fails, or an operand to unbox is `null`, so does the operator. -/
theorem fails_binary {fails' : Prop} (eager : op ≠ .and ∧ op ≠ .or) (noTest : op ≠ .instanceOf)
    (node : nodeTy? types (.binary op l r s) = some t)
    (leftEnds : ∀ left, ty? types l = some left →
      Ends store (Result l left) fails (eval types platform l))
    (rightEnds : ∀ right, ty? types r = some right →
      Ends store (Result r right) fails' (eval types platform r))
    (null : eval types platform l store = .error .nullPointer store ∨
      eval types platform r store = .error .nullPointer store ∨
      unboxesOperands op (ty? types l) (ty? types r) ∧ (isBoxedNull l ∨ isBoxedNull r)) :
    eval types platform (.binary op l r s) store = .error .nullPointer store := by
  obtain ⟨⟨left, leftTyped, right, rightTyped, opTyped⟩, -⟩ := (nodeTy?_binary noTest).mp node
  rw [eval_strict eager noTest node]
  rcases leftEnds left leftTyped with ⟨x, leftEnded, leftResult⟩ | ⟨ended, -⟩
  · rw [bind_ok leftEnded]
    rcases rightEnds right rightTyped with ⟨y, rightEnded, -⟩ | ⟨ended, -⟩
    · rw [bind_ok rightEnded]
      rcases null with ended | ended | ⟨computes, null⟩
      · cases leftEnded.symm.trans ended
      · cases rightEnded.symm.trans ended
      · rw [leftTyped, rightTyped] at computes ⊢
        refine bind_error (fails_combine leftResult opTyped computes ?_)
        exact null.imp (null_of_isBoxedNull · leftTyped leftEnded)
          (null_of_isBoxedNull · rightTyped rightEnded)
    · exact bind_error ended
  · exact bind_error ended

/-- Where every operand is evaluated, a `null` to unbox is reached. -/
theorem fails_eval (fits : store.Fits types) (platform : Platform Obj World Thrown) :
    ∀ (e : Expr) (t : Ty), ty? types e = some t → e.hasSideEffects = false → e.mayThrow = false →
      isStrict e → unboxesNull types e → eval types platform e store = .error .nullPointer store
  | .literal v s, u, typed, _, _, _, null => by
    simp only [unboxesNull, Bool.and_eq_true, decide_eq_true_eq] at null
    obtain ⟨rfl, unboxed⟩ := null
    rw [eval_null typed, if_pos unboxed]
    rfl
  | .unary op x s, u, typed, noEffects, quiet, strict, null => by
    obtain ⟨t, node, leads⟩ := Option.bind_eq_some_iff.mp typed
    simp only [Expr.hasSideEffects, Bool.or_eq_false_iff] at noEffects
    simp only [Expr.mayThrow, Bool.or_eq_false_iff] at quiet
    simp only [unboxesNull, Bool.or_eq_true] at null
    obtain ⟨⟨operand, operandTyped, -⟩, -⟩ := (nodeTy?_unary noEffects.1).mp node
    rw [eval_unary noEffects.1 node]
    rcases ends_eval fits platform x operand operandTyped noEffects.2 quiet.2 with
      ⟨y, ended, -⟩ | ⟨ended, -⟩
    · rcases null with inner | null
      · refine bind_error ?_
        exact fails_eval fits platform x operand operandTyped noEffects.2 quiet.2 strict inner
      · cases null_of_isBoxedNull null operandTyped ended
        rw [bind_ok ended]
        rfl
    · exact bind_error ended
  | .binary op l r s, u, typed, noEffects, quiet, strict, null => by
    obtain ⟨t, node, leads⟩ := Option.bind_eq_some_iff.mp typed
    simp only [Expr.hasSideEffects, Bool.or_eq_false_iff] at noEffects
    simp only [Expr.mayThrow, Bool.or_eq_false_iff] at quiet
    obtain ⟨⟨-, leftQuiet⟩, rightQuiet⟩ := quiet
    simp only [isStrict, Bool.and_eq_true, decide_eq_true_eq] at strict
    obtain ⟨⟨eager, leftStrict⟩, rightStrict⟩ := strict
    simp only [unboxesNull, Bool.or_eq_true, Bool.and_eq_true, or_assoc] at null
    have leftFails (left : Ty) (typed : ty? types l = some left) (null : unboxesNull types l) :=
      fails_eval fits platform l left typed noEffects.1 leftQuiet leftStrict null
    have rightFails (right : Ty) (typed : ty? types r = some right) (null : unboxesNull types r) :=
      fails_eval fits platform r right typed noEffects.2 rightQuiet rightStrict null
    by_cases test : op = .instanceOf
    · subst test
      obtain ⟨⟨left, leftTyped, test, -⟩, -⟩ := nodeTy?_instanceOf.mp node
      obtain ⟨tested, s', rfl⟩ := exists_typeRef test
      have inner : unboxesNull types l := by simpa [unboxesNull, unboxesOperands] using null
      rw [eval_instanceOf node]
      exact bind_error (leftFails left leftTyped inner)
    · obtain ⟨⟨left, leftTyped, right, rightTyped, -⟩, -⟩ := (nodeTy?_binary test).mp node
      refine fails_binary eager test node
        (fun left typed => ends_eval fits platform l left typed noEffects.1 leftQuiet)
        (fun right typed => ends_eval fits platform r right typed noEffects.2 rightQuiet) ?_
      exact null.imp (leftFails left leftTyped) (Or.imp_left (rightFails right rightTyped))
  | .call _ _ _, _, _, noEffects, _, _, _ => by cases noEffects
  | .read _ _ _, _, _, _, _, _, null | .typeRef _ _, _, _, _, _, _, null => by cases null

/-- A pure expression leaves the store as it is, and has a value of its type or fails on `null`. It
fails only if it unboxes a `null` that is written in it; if no operator leaves out an operand, it
then fails in every store. -/
theorem pure_evaluates_or_unboxes_null {e : Expr} (typed : ty? types e = some t) (isPure : e.isPure)
    (fits : store.Fits types) (platform : Platform Obj World Thrown) :
    ((∃ x, eval types platform e store = .ok x store ∧ x.isOf t) ∨
      (eval types platform e store = .error .nullPointer store ∧ unboxesNull types e)) ∧
    (isStrict e → unboxesNull types e →
      eval types platform e store = .error .nullPointer store) := by
  simp only [Expr.isPure, Bool.and_eq_true, Bool.not_eq_true'] at isPure
  obtain ⟨noEffects, quiet⟩ := isPure
  exact ⟨(ends_eval fits platform e t typed noEffects quiet).mono (fun _ => Result.typed) id,
    fails_eval fits platform e t typed noEffects quiet⟩

namespace PuritySample

def scope (id : VarId) : Option Ty :=
  if id.index = 0 then some .object else if id.index = 1 then some .string else some .int

/-- An object of an unknown class, a `String` that is `null`, and a number. -/
def memory : Store Unit Unit where
  vars id :=
    if id.index = 0 then .object ()
    else if id.index = 1 then .constant .null
    else .constant (.int 7)
  world := ()

def boxedNull : Expr := .literal .null ⟨some .null, [Cast.toExplicit (.boxed .int)]⟩

/-- The expression `o instanceof String || s + (Integer) null != null & n / 2 > 0`. -/
def safe : Expr :=
  let object := Expr.read ⟨0⟩ (.ofIndex 0) ⟨some .object, []⟩
  let text := Expr.read ⟨1⟩ (.ofIndex 1) ⟨some .string, []⟩
  let number := Expr.read ⟨2⟩ (.ofIndex 2) ⟨some .int, []⟩
  .binary .or
    (.binary .instanceOf object (.typeRef .string {}) {})
    (.binary .bitAnd
      (.binary .ne (.binary .plus text boxedNull ⟨some .string, []⟩) (Expr.ofValue .null) {})
      (.binary .gt (.binary .div number (Expr.ofValue (.int 2)) {}) (Expr.ofValue (.int 0)) {}) {}) {}

/-- The expression `-(Integer) null`. -/
def negatedNull : Expr := .unary .neg boxedNull ⟨some .int, []⟩

end PuritySample

/-- An operand that casts make one of a wrapper type is taken for pure, and so is the operator that
unboxes it. -/
theorem pure_unboxing_throws :
    ty? PuritySample.scope PuritySample.negatedNull = some .int ∧
      PuritySample.negatedNull.isPure ∧
      ∀ platform : Platform Unit Unit Unit,
        eval PuritySample.scope platform PuritySample.negatedNull PuritySample.memory =
          .error .nullPointer PuritySample.memory := by
  exact ⟨by decide, by decide, fun _ => rfl⟩

theorem pure_evaluates_or_unboxes_null_sample :
    PuritySample.safe.isPure ∧ unboxesNull PuritySample.scope PuritySample.safe = false ∧
      ∀ platform : Platform Unit Unit Unit, ∃ x,
        eval PuritySample.scope platform PuritySample.safe PuritySample.memory =
          .ok x PuritySample.memory ∧ x.isOf .boolean := by
  have fits : PuritySample.memory.Fits PuritySample.scope := by
    intro id t declared
    simp only [PuritySample.scope, PuritySample.memory] at declared ⊢
    split at declared
    · simp_all [Item.isOf]
    · split at declared <;> cases declared
      all_goals
        simp_all
        rfl
  have keeps : unboxesNull PuritySample.scope PuritySample.safe = false := by decide
  refine ⟨by decide, keeps, fun platform => ?_⟩
  have typed : ty? PuritySample.scope PuritySample.safe = some .boolean := by decide
  have ends := (pure_evaluates_or_unboxes_null typed (by decide) fits platform).1
  simpa [keeps] using ends

end ConstFold.Java
