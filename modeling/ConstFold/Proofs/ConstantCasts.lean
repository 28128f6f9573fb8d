import ConstFold.Proofs.CastTypes

/-! Casts carried out on constants. A list of casts is a function on constants that need not be
defined; a literal is done with its casts exactly if it is. -/
namespace ConstFold

variable {v w : Value} {p : Primitive} {t base : Ty} {casts further : List Cast}

/-- The casts unbox somewhere. -/
def unboxes (casts : List Cast) : Bool := casts.any fun cast => cast.target.isPrimitive

namespace Value

theorem same_refl (v : Value) : v.same v := by
  cases v <;> simp [Value.same]

theorem primitive?_of_convert (made : v.convert p = some w) : w.primitive? = some p := by
  have ofInteger {i : Int} {p : Primitive} {w : Value} (made : ofInteger? i p = some w) :
      w.primitive? = some p := by
    cases p <;> simp only [ofInteger?, Option.some.injEq, reduceCtorEq] at made
    all_goals
      subst made
      rfl
  have ofReal {x : Binary64} {p : Primitive} {w : Value} (made : ofReal? x p = some w) :
      w.primitive? = some p := by
    cases p <;> simp only [ofReal?, Option.some.injEq, reduceCtorEq] at made
    all_goals first
      | exact ofInteger made
      | (subst made; rfl)
  cases v <;> cases p
  all_goals simp only [convert, integer?, Option.map_some, Option.map_none, Option.bind_some,
    Option.bind_none, reduceCtorEq, Option.some.injEq] at made
  all_goals first
    | exact ofInteger made
    | exact ofReal made
    | (subst made; rfl)

/-- Casts carried out on a constant from the inside out. -/
def castThrough (v : Value) : List Cast → Option Value
  | [] => some v
  | cast :: rest => (v.castTo cast.target).bind fun w => w.castThrough rest

theorem castThrough_append :
    v.castThrough (casts ++ further) = (v.castThrough casts).bind fun w => w.castThrough further := by
  induction casts generalizing v with
  | nil => rfl
  | cons cast rest ih =>
    rw [List.cons_append, castThrough, castThrough]
    cases v.castTo cast.target with
    | none => rfl
    | some w => exact ih

/-- A constant other than `null` that a value of the type can be. -/
def IsOf (v : Value) : Ty → Prop
  | .primitive p | .boxed p => v.primitive? = some p
  | .string => ∃ s, v = .string s
  | .object => v ≠ .null
  | .null | .classType _ _ => False

theorem IsOf.ne_null (typed : v.IsOf t) : v ≠ .null := by
  rintro rfl
  cases t <;> simp_all [IsOf, primitive?]

theorem IsOf.unboxed (typed : v.IsOf t) (unboxes : t.unboxed? = some p) : v.primitive? = some p := by
  cases t <;> simp_all [IsOf, Ty.unboxed?]

theorem castTo_of_unboxed (notNull : v ≠ .null) (unboxes : t.unboxed? = some p) :
    v.castTo t = v.convert p := by
  cases t <;> simp only [Ty.unboxed?, Option.some.injEq, reduceCtorEq] at unboxes
  all_goals subst unboxes
  all_goals cases v <;> first | contradiction | rfl

theorem castTo_object (v : Value) : v.castTo .object = some v := by cases v <;> rfl

theorem isOf_castTo (notNull : v ≠ .null) (made : v.castTo t = some w) : w.IsOf t := by
  cases t with
  | primitive p | boxed p =>
    rw [castTo_of_unboxed notNull rfl] at made
    exact primitive?_of_convert made
  | string | null | object | classType =>
    cases v <;> simp only [castTo, Option.some.injEq, reduceCtorEq] at made
    all_goals first
      | contradiction
      | (subst made; simp [IsOf])

theorem isOf_castThrough (typed : v.IsOf base) (made : v.castThrough casts = some w) :
    w.IsOf (castsTo base casts) := by
  induction casts generalizing v base with
  | nil =>
    cases made
    exact typed
  | cons cast rest ih =>
    obtain ⟨u, first, made⟩ := Option.bind_eq_some_iff.mp made
    rw [castsTo_cons]
    exact ih (isOf_castTo typed.ne_null first) made

end Value

theorem castLiteral_of_castThrough (ty : Option Ty) (value : v.castThrough casts = some w) :
    ∃ ty', Expr.castLiteral v ty casts = .literal w ⟨ty', []⟩ := by
  induction casts generalizing v ty with
  | nil =>
    cases value
    exact ⟨ty, rfl⟩
  | cons cast rest ih =>
    obtain ⟨u, made, value⟩ := Option.bind_eq_some_iff.mp value
    rw [Expr.castLiteral, made]
    exact ih _ value

/-- A literal whose casts are not all defined keeps one. -/
theorem castLiteral_of_pending (ty : Option Ty) (pending : v.castThrough casts = none) :
    ∃ w s, Expr.castLiteral v ty casts = .literal w s ∧ s.casts ≠ [] := by
  induction casts generalizing v ty with
  | nil => cases pending
  | cons cast rest ih =>
    rw [Value.castThrough] at pending
    rw [Expr.castLiteral]
    cases made : v.castTo cast.target with
    | none => exact ⟨v, _, rfl, List.cons_ne_nil _ _⟩
    | some w =>
      rw [made] at pending
      exact ih _ pending

end ConstFold
