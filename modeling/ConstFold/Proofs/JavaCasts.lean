import ConstFold.Expr
import ConstFold.Proofs.ConstantCasts
import ConstFold.Proofs.JavaOperators

/-! Casts that are not taken to throw. From a value of its source type such a cast has a value of
its target type, unless it unboxes a `null`. -/
namespace ConstFold.Java

variable {Obj World Thrown : Type}
variable {t u : Ty} {x : Item Obj} {v w : Value} {cast : Cast} {casts : List Cast}
  {p q : Primitive}

theorem declarable_of_allows (allowed : allows t cast) : isDeclarable cast.target := by
  rw [allows, Bool.and_eq_true] at allowed
  exact allowed.1

theorem isNumeric_of_widens (widens : Ty.widens p q) : p.isNumeric ∧ q.isNumeric := by
  cases p <;> cases q <;> first | exact ⟨rfl, rfl⟩ | cases widens

/-- A cast that is allowed and does not throw widens, boxes, unboxes or, on a number, converts. -/
theorem quiet_cases (declarable : isDeclarable t) (allowed : allows t cast)
    (quiet : cast.implicit = false → t.isPrimitive = false → t.isSubtype cast.target) :
    (∃ p q, t.unboxed? = some p ∧ cast.target = .primitive q ∧
        (p = q ∨ p.isNumeric ∧ q.isNumeric)) ∨
      (∃ p, t.unboxed? = some p ∧ cast.target = .boxed p) ∨ cast.target = .object ∨
      (t = .string ∧ cast.target = .string) := by
  obtain ⟨target, implicit⟩ := cast
  simp only [allows, Bool.and_eq_true, Bool.or_eq_true, Bool.not_eq_true',
    decide_eq_true_eq] at allowed
  obtain ⟨targetDeclarable, allowed⟩ := allowed
  cases t <;> cases target <;>
    simp [Ty.isAssignable, Ty.unbox, Ty.box, Ty.unboxed?, Ty.asPrimitive?, Ty.isNumeric,
      Ty.isSubtype, Ty.isPrimitive, isDeclarable] at declarable targetDeclarable allowed quiet ⊢
  case primitive.primitive =>
    exact allowed.elim (Or.imp_right isNumeric_of_widens) fun written => .inr written.2
  case boxed.primitive => exact allowed.imp_right isNumeric_of_widens
  case primitive.boxed | boxed.boxed => exact allowed.elim Eq.symm id
  -- A cast of an object to another type may throw.
  all_goals cases quiet.symm.trans allowed

theorem exists_constant (typed : x.isOf t) (unboxes : t.unboxed? = some p)
    (notNull : x.isNull = false) : ∃ v, x = .constant v ∧ v.primitive? = some p := by
  cases x with
  | constant v =>
    refine ⟨v, rfl, ?_⟩
    cases t <;> cases unboxes
    · simpa [Item.isOf, isConstantOf] using typed
    · cases v <;> simp_all [Item.isOf, isConstantOf, Item.isNull, Value.naturalTy, Value.primitive?,
        Ty.box, Ty.isSubtype]
  | object =>
    cases t <;> simp [Item.isOf, Ty.unboxed?] at typed unboxes

theorem isOf_of_primitive? (kind : v.primitive? = some p) :
    (Item.constant v : Item Obj).isOf (.primitive p) ∧
      (Item.constant v : Item Obj).isOf (.boxed p) := by
  cases v <;> cases kind <;> exact ⟨rfl, rfl⟩

theorem isOf_object (x : Item Obj) : x.isOf .object := by
  cases x with
  | constant v => cases v <;> rfl
  | object => rfl

theorem castTo_reference (reference : t.isPrimitive = false) (source : Ty) (typed : x.isOf t) :
    (castTo source x t : Run Obj World Thrown (Item Obj)) = pure x := by
  cases t with
  | primitive => cases reference
  | boxed | string | null | object | classType => simp [castTo, checkClass, typed]

theorem castTo_primitive (unboxed : t.unboxed? = some p) (notNull : v ≠ .null)
    (made : Reference.cast v q = some w) :
    (castTo t (.constant v) (.primitive q) : Run Obj World Thrown (Item Obj)) =
      pure (.constant w) := by
  cases v <;> first
    | contradiction
    | simp [castTo, unboxed, unbox, made, ofOption]

variable (World Thrown) in
/-- A cast that does not throw has a value of its type. Unless it is made of a `null` of a wrapper
type, it is no such `null`. -/
theorem exists_castTo (declarable : isDeclarable t) (allowed : allows t cast)
    (quiet : cast.implicit = false → t.isPrimitive = false → t.isSubtype cast.target)
    (typed : x.isOf t) (guarded : t.isBoxed → x.isNull = false) :
    ∃ y, (castTo t x cast.target : Run Obj World Thrown (Item Obj)) = pure y ∧
      y.isOf cast.target ∧ (cast.target.isBoxed → y.isNull = false) := by
  have notNull {p : Primitive} (unboxed : t.unboxed? = some p) : x.isNull = false := by
    cases t <;> cases unboxed
    · cases x with
      | constant v => cases v <;> first | rfl | cases typed
      | object => rfl
    · exact guarded rfl
  rcases quiet_cases declarable allowed quiet with
    ⟨p, q, unboxed, target, related⟩ | ⟨p, unboxed, target⟩ | target | ⟨rfl, target⟩
  · obtain ⟨v, rfl, kind⟩ := exists_constant typed unboxed (notNull unboxed)
    obtain ⟨w, made, result⟩ := Reference.exists_cast kind related
    rw [target]
    refine ⟨_, castTo_primitive unboxed ?_ made, (isOf_of_primitive? result).1,
      fun boxed => nomatch boxed⟩
    rintro rfl
    cases kind
  · obtain ⟨v, rfl, kind⟩ := exists_constant typed unboxed (notNull unboxed)
    rw [target]
    exact ⟨_, castTo_reference rfl t (isOf_of_primitive? kind).2, (isOf_of_primitive? kind).2,
      fun _ => notNull unboxed⟩
  · rw [target]
    exact ⟨x, castTo_reference rfl t (isOf_object x), isOf_object x, fun boxed => nomatch boxed⟩
  · rw [target]
    exact ⟨x, castTo_reference rfl .string typed, typed, fun boxed => nomatch boxed⟩

variable (World Thrown) in
theorem exists_castAll {ty : Option Ty} (declarable : isDeclarable t)
    (leads : castsTy? t casts = some u) (own : ty.all (· = t))
    (quiet : castsMayThrow ty casts = false) (typed : x.isOf t) (guarded : t.isBoxed → x.isNull = false) :
    ∃ y, (castAll t casts x : Run Obj World Thrown (Item Obj)) = pure y ∧
      y.isOf u ∧ (u.isBoxed → y.isNull = false) := by
  induction casts generalizing t x ty with
  | nil =>
    cases leads
    exact ⟨x, rfl, typed, guarded⟩
  | cons cast rest ih =>
    simp only [castsTy?, Option.ite_none_right_eq_some] at leads
    obtain ⟨allowed, leads⟩ := leads
    simp only [castsMayThrow, Bool.or_eq_false_iff] at quiet
    obtain ⟨quietFirst, quiet⟩ := quiet
    have first : cast.implicit = false → t.isPrimitive = false → t.isSubtype cast.target := by
      intro written reference
      cases ty with
      | none => simp [written] at quietFirst
      | some =>
        simp only [Option.all_some, decide_eq_true_eq] at own
        subst own
        simpa [written, reference] using quietFirst
    obtain ⟨y, made, typed, guarded⟩ :=
      exists_castTo World Thrown declarable allowed first typed guarded
    simp only [castAll, made, pure_bind]
    exact ih (declarable_of_allows allowed) leads (by simp) quiet typed guarded

/-- Casts of `null` fail at the first primitive type. -/
theorem castAll_null (reference : t.isPrimitive = false) (leads : castsTy? t casts = some u) :
    (castAll t casts (.constant .null) : Run Obj World Thrown (Item Obj)) =
      if unboxes casts then throw .nullPointer else pure (.constant .null) := by
  induction casts generalizing t with
  | nil => rfl
  | cons cast rest ih =>
    simp only [castsTy?, Option.ite_none_right_eq_some] at leads
    rw [castAll, unboxes, List.any_cons, ← unboxes]
    cases target : cast.target with
    | primitive p =>
      have stops : (castTo t (.constant .null) (.primitive p) : Run Obj World Thrown (Item Obj)) =
          throw .nullPointer := by
        rw [castTo]
        split <;> rfl
      rw [stops]
      rfl
    | boxed | string | object =>
      rw [target] at leads
      rw [castTo_reference rfl t rfl, pure_bind, ih rfl leads.2]
      rfl
    | null | classType =>
      have declarable := declarable_of_allows leads.1
      rw [target] at declarable
      cases declarable

/-! Types that casts lead to. -/

theorem castsTo_of_castsTy? (leads : castsTy? t casts = some u) : castsTo t casts = u := by
  induction casts generalizing t with
  | nil => exact Option.some.inj leads
  | cons cast rest ih =>
    simp only [castsTy?, Option.ite_none_right_eq_some] at leads
    rw [castsTo_cons]
    exact ih leads.2

theorem reference_castsTo (reference : t.isPrimitive = false) (keeps : unboxes casts = false) :
    (castsTo t casts).isPrimitive = false := by
  induction casts generalizing t with
  | nil => exact reference
  | cons cast rest ih =>
    rw [unboxes, List.any_cons, Bool.or_eq_false_iff] at keeps
    rw [castsTo_cons]
    exact ih keeps.1 keeps.2

theorem isOf_null (reference : t.isPrimitive = false) :
    (Item.constant .null : Item Obj).isOf t := by
  cases t with
  | primitive => cases reference
  | boxed | string | null | object | classType => rfl

theorem reference_of_null (typed : isConstantOf .null t) : t.isPrimitive = false := by
  cases t with
  | primitive => cases typed
  | boxed | string | null | object | classType => rfl

end ConstFold.Java
