import ConstFold.Proofs.CastMinimality
import ConstFold.Proofs.LosslessConversions

/-! What removing redundant casts does to the constants that the casts are applied to. The
number or truth value stays the same, and so does whether the casts are defined; but if the
casts end in a reference type, a constant may come to be boxed in the type that it had before a
lossless conversion, and a `null` may not be unboxed any more. -/
namespace ConstFold

variable {v w : Value} {p q c : Primitive} {base current t outer : Ty} {casts : List Cast}

/-- Only casts between primitive types merge. -/
theorem Ty.exists_of_merge (merge : current.narrowingsMerge t outer) :
    ∃ c p q, current = .primitive c ∧ t = .primitive p ∧ outer = .primitive q := by
  cases current <;> cases t <;> cases outer
  all_goals first
    | exact ⟨_, _, _, rfl, rfl, rfl⟩
    | simp [narrowingsMerge, asPrimitive?] at merge

namespace Value

theorem convert_clamped (floating : c.isFloating) (typed : v.primitive? = some c) :
    ∃ i, ∀ p, p.isIntegral → p ≠ .long → v.convert p = ofInteger? i p := by
  cases v with
  | float x =>
    refine ⟨clampInt x.widen, fun p integral narrow => ?_⟩
    cases p <;> first | contradiction | rfl
  | double x =>
    refine ⟨clampInt x, fun p integral narrow => ?_⟩
    cases p <;> first | contradiction | rfl
  | null | string => cases typed
  | bool | char | byte | short | int | long =>
    cases typed
    cases floating

/-- Of two narrowings that merge the second does not need the first. -/
theorem convert_of_merge (typed : v.primitive? = some c)
    (merge : (Ty.primitive c).narrowingsMerge (.primitive p) (.primitive q)) :
    ∃ w, v.convert p = some w ∧ w.convert q = v.convert q := by
  have divides := modulus_dvd merge
  simp only [Ty.narrowingsMerge, Ty.asPrimitive?, Bool.and_eq_true] at merge
  obtain ⟨⟨⟨numeric, first⟩, second⟩, bits⟩ := merge
  by_cases integral : c.isIntegral
  · obtain ⟨i, number⟩ := exists_integer typed integral
    obtain ⟨w, made, -⟩ := exists_ofInteger first i
    rw [← convert_integral number first] at made
    exact ⟨w, made, convert_of_dvd made number first second divides⟩
  · have floating : c.isFloating := by revert numeric integral; cases c <;> decide
    have narrow : p ≠ .long ∧ q ≠ .long := by
      revert numeric integral first second bits
      cases c <;> cases p <;> cases q <;> decide
    obtain ⟨i, clamped⟩ := convert_clamped floating typed
    obtain ⟨w, made, -⟩ := exists_ofInteger first i
    refine ⟨w, (clamped p first narrow.1).trans made, ?_⟩
    rw [clamped q second narrow.2, convert_of_ofInteger made first second divides]

theorem isOf_of_unboxed (typed : v.primitive? = some p) (unboxes : t.unboxed? = some p) :
    v.IsOf t := by
  cases t <;> simp_all [IsOf, Ty.unboxed?]

theorem IsOf.castTo_self (typed : v.IsOf t) : v.castTo t = some v := by
  cases t with
  | primitive p | boxed p =>
    rw [castTo_of_unboxed typed.ne_null rfl]
    exact convert_self typed
  | object => exact castTo_object v
  | string =>
    obtain ⟨s, rfl⟩ := typed
    rfl
  | null | classType => cases typed

/-- A redundant cast that another one follows is defined, and the other one does not depend on
it. -/
theorem castTo_of_isRedundant (typed : v.IsOf current)
    (redundant : isRedundant current t (some outer)) :
    ∃ w, v.castTo t = some w ∧ Option.Rel Alike (v.castTo outer) (w.castTo outer) := by
  simp only [isRedundant, Bool.and_eq_true] at redundant
  obtain ⟨-, redundant⟩ := redundant
  split at redundant
  · rcases Ty.isLossless_cases redundant with rfl | ⟨p, q, source, target, keeps⟩
    · exact ⟨v, typed.castTo_self, rel_refl .refl _⟩
    · have own := typed.unboxed source
      rw [castTo_of_unboxed typed.ne_null target]
      rcases keeps with rfl | within
      · exact ⟨v, convert_self own, rel_refl .refl _⟩
      · obtain ⟨w, made, alike⟩ := convert_within own within
        exact ⟨w, made, alike.castTo outer⟩
  · obtain ⟨c, p, q, rfl, rfl, rfl⟩ := Ty.exists_of_merge redundant
    obtain ⟨w, made, merged⟩ := convert_of_merge typed redundant
    have notNull : w ≠ .null := (isOf_castTo (t := .primitive p) typed.ne_null (by
      rw [castTo_of_unboxed typed.ne_null rfl, made])).ne_null
    refine ⟨w, (castTo_of_unboxed typed.ne_null rfl).trans made, ?_⟩
    rw [castTo_of_unboxed typed.ne_null rfl, castTo_of_unboxed notNull rfl, merged]
    exact rel_refl .refl _

/-- The casts that one pass keeps, followed by a cast to the type of the whole, do to constants
what all casts do. -/
theorem keepCasts_alike (typed : v.IsOf current) (casts : List Cast) :
    Option.Rel Alike
      ((v.castThrough (keepCasts current casts).1).bind fun w => w.castTo (castsTo current casts))
      (v.castThrough casts) := by
  induction casts generalizing v current with
  | nil =>
    simp only [keepCasts, castThrough, Option.bind_some, castsTo_nil, typed.castTo_self]
    exact .some (.refl v)
  | cons cast rest ih =>
    rw [keepCasts, castsTo_cons]
    split
    · rename_i redundant
      cases rest with
      | nil =>
        simp only [keepCasts, castThrough, castsTo_nil, Option.bind_some, Option.bind_fun_some]
        exact rel_refl .refl _
      | cons next others =>
        have kept := ih typed
        obtain ⟨w, made, follows⟩ := castTo_of_isRedundant typed redundant
        rw [castsTo_of_ne_nil (List.cons_ne_nil next others)] at kept
        refine rel_trans (R := Alike) (fun _ _ _ => .trans) kept ?_
        rw [castThrough, castThrough, made, Option.bind_some, castThrough]
        exact rel_bind follows fun alike => alike.castThrough others
    · simp only [castThrough]
      cases made : v.castTo cast.target with
      | none => exact .none
      | some w => exact ih (isOf_castTo typed.ne_null made)

theorem dropRedundantOnce_alike (typed : v.IsOf base) (casts : List Cast) :
    Option.Rel Alike (v.castThrough (dropRedundantOnce base casts)) (v.castThrough casts) := by
  have kept := keepCasts_alike typed casts
  have last := keepCasts_last base casts
  simp only [dropRedundantOnce]
  rw [← castsTo]
  split
  · rename_i whole
    have same : ((v.castThrough (keepCasts base casts).1).bind fun w =>
        w.castTo (castsTo base casts)) = v.castThrough (keepCasts base casts).1 := by
      cases made : v.castThrough (keepCasts base casts).1 with
      | none => rfl
      | some w =>
        have own := isOf_castThrough typed made
        rw [← last, whole] at own
        exact own.castTo_self
    rwa [same] at kept
  · rw [castThrough_append]
    simpa only [castThrough, Cast.toImplicit, Option.bind_fun_some] using kept

theorem dropRedundant_alike (n : Nat) (typed : v.IsOf base) (casts : List Cast) :
    Option.Rel Alike (v.castThrough (dropRedundant n base casts)) (v.castThrough casts) := by
  induction n generalizing casts with
  | zero => exact rel_refl .refl _
  | succ n ih =>
    rw [dropRedundant]
    split
    · exact rel_refl .refl _
    · exact rel_trans (R := Alike) (fun _ _ _ => .trans) (ih _) (dropRedundantOnce_alike typed casts)

end Value

namespace Expr

variable {e : Expr}

theorem casts_removeRedundantCasts :
    e.removeRedundantCasts.casts = e.static.removeRedundantCasts.casts := by
  rw [casts, removeRedundantCasts, static_withStatic]

/-- Removal keeps whether casts are defined on a constant, and what number they lead to. -/
theorem removeRedundantCasts_alike (typed : e.ty = some base) (own : v.IsOf base) :
    Option.Rel Value.Alike (v.castThrough e.removeRedundantCasts.casts) (v.castThrough e.casts) := by
  rw [casts_removeRedundantCasts, Static.removeRedundantCasts_of_typed typed]
  exact Value.dropRedundant_alike _ own _

theorem castsTo_removeRedundantCasts (typed : e.ty = some base) :
    castsTo base e.removeRedundantCasts.casts = castsTo base e.casts := by
  rw [casts_removeRedundantCasts, Static.removeRedundantCasts_of_typed typed]
  exact castsTo_dropRedundant _

end Expr

/-- `boolean`, an integral type, or a wrapper of one. -/
def Ty.isExact (t : Ty) : Bool := t.unboxed?.any Primitive.isExact

theorem Ty.isExact_castsTo (exact : base.isExact) (targets : ∀ cast ∈ casts, cast.target.isExact) :
    (castsTo base casts).isExact := by
  induction casts generalizing base with
  | nil => exact exact
  | cons cast rest ih =>
    rw [castsTo_cons]
    exact ih (targets cast List.mem_cons_self) fun other member =>
      targets other (List.mem_cons_of_mem cast member)

/-- Between integral types, `boolean` and their wrappers, the casts that are left lead every
constant to the same value, or are undefined on it like those before. -/
theorem removeRedundantCasts_exact_value {e : Expr} (typed : e.ty = some base) (exact : base.isExact)
    (targets : ∀ cast ∈ e.casts, cast.target.isExact) (own : v.primitive? = base.unboxed?) :
    v.castThrough e.removeRedundantCasts.casts = v.castThrough e.casts := by
  obtain ⟨p, unboxes, -⟩ := (Option.any_eq_true _ _).mp exact
  obtain ⟨q, whole, exactWhole⟩ := (Option.any_eq_true _ _).mp (Ty.isExact_castsTo exact targets)
  have isOf : v.IsOf base := Value.isOf_of_unboxed (own.trans unboxes) unboxes
  refine eq_of_rel (rel_of_rel (e.removeRedundantCasts_alike typed isOf) ?_)
  intro w' w kept all alike
  have leftKind : w'.primitive? = some q := by
    apply (Value.isOf_castThrough isOf kept).unboxed
    rw [e.castsTo_removeRedundantCasts typed, whole]
  have rightKind : w.primitive? = some q := (Value.isOf_castThrough isOf all).unboxed whole
  exact (alike.same (leftKind.trans rightKind.symm)).eq leftKind exactWhole

namespace CastSample

/-- The expression `(byte) (short) (Integer) (int) x`, where `x` is of type `long`. -/
def narrowings : Expr :=
  .read ⟨0⟩ (.ofIndex 0) ⟨some (.primitive .long),
    [Cast.toExplicit .int, Cast.toExplicit (.boxed .int), Cast.toExplicit (.primitive .short),
      Cast.toExplicit (.primitive .byte)]⟩

end CastSample

theorem removeRedundantCasts_exact_value_sample :
    CastSample.narrowings.removeRedundantCasts.casts = [Cast.toExplicit (.primitive .byte)] ∧
      (Value.long 70200).castThrough CastSample.narrowings.removeRedundantCasts.casts =
        some (.byte 56) := by
  refine ⟨by decide, ?_⟩
  rw [removeRedundantCasts_exact_value rfl rfl (by decide) rfl]
  decide

/-! Reference types. -/

/-- The primitive type that a constant of type `kind` has after casts. A cast to a reference type
boxes the constant in the type that it has. -/
def boxedAs (kind : Option Primitive) : List Cast → Option Primitive
  | [] => kind
  | cast :: rest => boxedAs (cast.target.unboxed?.or kind) rest

namespace Value

/-- A constant that a literal of a primitive type, a wrapper or `String` can hold. -/
def Inhabits (v : Value) : Ty → Prop
  | .primitive p => v.primitive? = some p
  | .boxed p => v = .null ∨ v.primitive? = some p
  | .string => v = .null ∨ ∃ s, v = .string s
  | .null | .object | .classType _ _ => False

theorem Inhabits.isOf (inhabits : v.Inhabits base) (notNull : v ≠ .null) : v.IsOf base := by
  cases base with
  | primitive => exact inhabits
  | boxed | string => exact inhabits.resolve_left notNull
  | null | object | classType => cases inhabits

theorem castThrough_null (casts : List Cast) :
    Value.null.castThrough casts = if unboxes casts then none else some .null := by
  induction casts with
  | nil => rfl
  | cons cast rest ih =>
    rw [castThrough, unboxes, List.any_cons, ← unboxes]
    cases cast.target with
    | primitive p => rfl
    | boxed | string | null | object | classType => exact ih

theorem primitive?_castTo (notNull : v ≠ .null) (made : v.castTo t = some w) :
    w.primitive? = t.unboxed?.or v.primitive? := by
  cases unboxed : t.unboxed? with
  | some p =>
    rw [castTo_of_unboxed notNull unboxed] at made
    exact primitive?_of_convert made
  | none =>
    cases t <;> cases v <;> simp_all [Value.castTo, Ty.unboxed?]

theorem primitive?_castThrough (typed : v.IsOf base) (made : v.castThrough casts = some w) :
    w.primitive? = boxedAs v.primitive? casts := by
  induction casts generalizing v base with
  | nil =>
    cases made
    rfl
  | cons cast rest ih =>
    obtain ⟨u, first, made⟩ := Option.bind_eq_some_iff.mp made
    rw [boxedAs, ← primitive?_castTo typed.ne_null first]
    exact ih (isOf_castTo typed.ne_null first) made

end Value

namespace Expr

/-- Both literals are done with their casts and are the same constant of the same type, or both
have a cast pending. -/
def SameObject : Expr → Expr → Prop
  | literal v ⟨t, []⟩, literal w ⟨u, []⟩ => v.Same w ∧ t = u
  | literal _ ⟨_, _ :: _⟩, literal _ ⟨_, _ :: _⟩ => True
  | _, _ => False

theorem castLiteral_done (ty : Option Ty) (value : v.castThrough casts = some w) :
    castLiteral v ty casts = literal w ⟨Static.resultTy ⟨ty, casts⟩, []⟩ := by
  obtain ⟨ty', done⟩ := castLiteral_of_castThrough ty value
  obtain ⟨w', s, again, result⟩ := castLiteral_eq v ty casts
  cases done.symm.trans again
  rw [done, ← result, Static.resultTy_bare]

theorem castLiteral_pending (ty : Option Ty) (pending : v.castThrough casts = none) :
    ∃ w t cast rest, castLiteral v ty casts = literal w ⟨t, cast :: rest⟩ := by
  obtain ⟨w, ⟨t, left⟩, literal, nonempty⟩ := castLiteral_of_pending ty pending
  obtain ⟨cast, rest, rfl⟩ := List.exists_cons_of_ne_nil nonempty
  exact ⟨w, t, cast, rest, literal⟩

/-- Literals of one result type become the same object exactly if the casts lead to the same
constant or are undefined on both. -/
theorem sameObject_iff {x y : Option Ty} {further : List Cast}
    (types : Static.resultTy ⟨x, casts⟩ = Static.resultTy ⟨y, further⟩) :
    (castLiteral v x casts).SameObject (castLiteral w y further) ↔
      Option.Rel Value.Same (v.castThrough casts) (w.castThrough further) := by
  cases left : v.castThrough casts with
  | none =>
    obtain ⟨_, _, _, _, leftPending⟩ := castLiteral_pending x left
    rw [leftPending]
    cases right : w.castThrough further with
    | none =>
      obtain ⟨_, _, _, _, rightPending⟩ := castLiteral_pending y right
      rw [rightPending]
      exact ⟨fun _ => .none, fun _ => trivial⟩
    | some w' =>
      rw [castLiteral_done y right]
      exact ⟨False.elim, fun related => nomatch related⟩
  | some v' =>
    rw [castLiteral_done x left]
    cases right : w.castThrough further with
    | none =>
      obtain ⟨_, _, _, _, rightPending⟩ := castLiteral_pending y right
      rw [rightPending]
      exact ⟨False.elim, fun related => nomatch related⟩
    | some w' =>
      rw [castLiteral_done y right, types]
      constructor
      · rintro ⟨same, -⟩
        exact .some same
      · intro related
        cases related with
        | some same => exact ⟨same, rfl⟩

end Expr

/-- Casts that are alike on a constant make the same object of it exactly if they box it in the
same type. -/
theorem rel_same_iff {further : List Cast} (own : v.IsOf base)
    (related : Option.Rel Value.Alike (v.castThrough further) (v.castThrough casts)) :
    Option.Rel Value.Same (v.castThrough further) (v.castThrough casts) ↔
      v.castThrough casts = none ∨ boxedAs v.primitive? further = boxedAs v.primitive? casts := by
  constructor
  · intro same
    cases all : v.castThrough casts with
    | none => exact .inl rfl
    | some w =>
      cases left : v.castThrough further with
      | none =>
        rw [left, all] at same
        cases same
      | some w' =>
        rw [left, all] at same
        cases same with
        | some same =>
          rw [← Value.primitive?_castThrough own left, ← Value.primitive?_castThrough own all]
          exact .inr same.primitive
  · rintro (pending | kinds)
    · rw [pending] at related ⊢
      cases left : v.castThrough further with
      | none => exact .none
      | some w' =>
        rw [left] at related
        cases related
    · refine rel_of_rel related fun w' w left all alike => alike.same ?_
      rw [Value.primitive?_castThrough own left, kinds, ← Value.primitive?_castThrough own all]

theorem rel_same_null_iff (casts further : List Cast) :
    Option.Rel Value.Same (Value.null.castThrough further) (Value.null.castThrough casts) ↔
      unboxes further = unboxes casts := by
  rw [Value.castThrough_null, Value.castThrough_null]
  constructor
  · intro same
    cases left : unboxes further <;> cases right : unboxes casts <;> rw [left, right] at same
    all_goals first | rfl | cases same
  · intro same
    rw [same]
    exact rel_refl Value.same_refl _

/-- Casts on a literal and those that removal leaves lead a constant to the same number. They
make the same object exactly if removal keeps the primitive type that is boxed in the end, or,
for `null`, if it keeps some cast that unboxes. -/
theorem removal_keeps_object_iff (inhabits : v.Inhabits base) (casts : List Cast) :
    let e := Expr.literal v ⟨some base, casts⟩
    let kept := e.removeRedundantCasts.casts
    (v ≠ .null → Option.Rel Value.Alike (v.castThrough kept) (v.castThrough casts)) ∧
    (e.removeRedundantCasts.applyCasts.SameObject e.applyCasts ↔
      if v = .null then unboxes kept = unboxes casts
      else v.castThrough casts = none ∨ boxedAs v.primitive? kept = boxedAs v.primitive? casts) := by
  intro e kept
  have related (notNull : v ≠ .null) := e.removeRedundantCasts_alike rfl (inhabits.isOf notNull)
  have types : Static.resultTy ⟨some base, kept⟩ = Static.resultTy ⟨some base, casts⟩ :=
    Static.resultTy_removeRedundantCasts (s := ⟨some base, casts⟩)
  refine ⟨related, (Expr.sameObject_iff types).trans ?_⟩
  split
  · rename_i null
    rw [null]
    exact rel_same_null_iff casts kept
  · rename_i notNull
    exact rel_same_iff (inhabits.isOf notNull) (related notNull)

namespace CastSample

/-- The expression `(Object) (long) 5`. -/
def boxedNumber : Expr :=
  .literal (.int 5) ⟨some .int, [Cast.toExplicit (.primitive .long), Cast.toExplicit .object]⟩

/-- The expression `(Object) (int) (Integer) null`. -/
def unboxedNull : Expr :=
  .literal .null ⟨some (.boxed .int), [Cast.toExplicit .int, Cast.toExplicit .object]⟩

end CastSample

/-- Without its cast to `long` a number is boxed as an `Integer`, and without its cast to `int` a
`null` is not unboxed. -/
theorem object_not_kept :
    CastSample.boxedNumber.applyCasts = .literal (.long 5) ⟨some .object, []⟩ ∧
      CastSample.boxedNumber.removeRedundantCasts.applyCasts = .literal (.int 5) ⟨some .object, []⟩ ∧
      ¬CastSample.boxedNumber.removeRedundantCasts.applyCasts.SameObject
        CastSample.boxedNumber.applyCasts ∧
      ¬CastSample.unboxedNull.removeRedundantCasts.applyCasts.SameObject
        CastSample.unboxedNull.applyCasts := by
  refine ⟨rfl, rfl, ?_, ?_⟩
  · rintro ⟨same, -⟩
    cases same
  · exact id

theorem removal_keeps_object_iff_narrowed :
    let e := Expr.literal (.int 70000)
      ⟨some .int, [Cast.toExplicit (.primitive .long), Cast.toExplicit (.primitive .short),
        Cast.toExplicit .object]⟩
    e.removeRedundantCasts.casts =
        [Cast.toExplicit (.primitive .short), Cast.toImplicit .object] ∧
      e.removeRedundantCasts.applyCasts.SameObject e.applyCasts := by
  have inhabits : (Value.int 70000).Inhabits .int := rfl
  refine ⟨by decide, (removal_keeps_object_iff inhabits _).2.mpr ?_⟩
  rw [if_neg (by simp)]
  exact .inr (by decide)

end ConstFold
