import ConstFold.Casts
import ConstFold.Proofs.Traversal

/-! Casts and the type of the whole. Removing redundant casts keeps it, a cast sets it, and
neither touches the type that a node has before its casts. -/
namespace ConstFold

variable {base t : Ty} {casts : List Cast}

/-- The type that casts lead to from `base`. -/
def castsTo (base : Ty) (casts : List Cast) : Ty := (casts.getLast?.map Cast.target).getD base

@[simp] theorem castsTo_nil : castsTo base [] = base := rfl

@[simp] theorem castsTo_cons {cast : Cast} :
    castsTo base (cast :: casts) = castsTo cast.target casts := by
  cases casts with
  | nil => rfl
  | cons next rest =>
    rw [castsTo, castsTo, List.getLast?_cons_cons]
    rfl

@[simp] theorem castsTo_append {further : List Cast} :
    castsTo base (casts ++ further) = castsTo (castsTo base casts) further := by
  induction casts generalizing base with
  | nil => rfl
  | cons cast rest ih => rw [List.cons_append, castsTo_cons, castsTo_cons, ih]

theorem keepCasts_last (current : Ty) (casts : List Cast) :
    (keepCasts current casts).2 = castsTo current (keepCasts current casts).1 := by
  induction casts generalizing current with
  | nil => rfl
  | cons cast rest ih =>
    rw [keepCasts]
    split
    · exact ih current
    · exact (ih cast.target).trans castsTo_cons.symm

theorem castsTo_dropRedundantOnce :
    castsTo base (dropRedundantOnce base casts) = castsTo base casts := by
  simp only [dropRedundantOnce]
  split
  · rename_i same
    exact (keepCasts_last base casts).symm.trans same
  · rw [castsTo_append]
    rfl

theorem castsTo_dropRedundant (n : Nat) :
    castsTo base (dropRedundant n base casts) = castsTo base casts := by
  induction n generalizing casts with
  | zero => rfl
  | succ n ih =>
    rw [dropRedundant]
    split
    · rfl
    · rw [ih, castsTo_dropRedundantOnce]

namespace Static

variable {s : Static}

theorem resultTy_of_typed (typed : s.ty = some base) : s.resultTy = some (castsTo base s.casts) := by
  rw [resultTy, castsTo]
  cases s.casts.getLast? with
  | none => exact typed
  | some cast => rfl

theorem resultTy_of_casts {cast : Cast} {rest : List Cast} (casts : s.casts = cast :: rest) :
    s.resultTy = some (castsTo cast.target rest) := by
  rw [resultTy, casts, castsTo, List.getLast?_cons]
  cases rest.getLast? <;> rfl

@[simp] theorem resultTy_bare {ty : Option Ty} : resultTy ⟨ty, []⟩ = ty := rfl

theorem resultTy_append {ty : Option Ty} {further : List Cast} :
    resultTy ⟨ty, casts ++ further⟩ = resultTy ⟨resultTy ⟨ty, casts⟩, further⟩ := by
  cases further with
  | nil => rw [List.append_nil, resultTy_bare]
  | cons cast rest => simp [resultTy, List.getLast?_cons]

@[simp] theorem ty_removeRedundantCasts : s.removeRedundantCasts.ty = s.ty := by
  rw [removeRedundantCasts]
  split
  · rfl
  · rfl

@[simp] theorem resultTy_removeRedundantCasts : s.removeRedundantCasts.resultTy = s.resultTy := by
  cases typed : s.ty with
  | none => rw [removeRedundantCasts, typed]
  | some base =>
    rw [resultTy_of_typed typed, resultTy_of_typed (ty_removeRedundantCasts.trans typed),
      removeRedundantCasts, typed, castsTo_dropRedundant]

@[simp] theorem ty_castTo : (s.castTo t).ty = s.ty := by
  rw [castTo]
  split
  · rfl
  · exact ty_removeRedundantCasts

@[simp] theorem resultTy_castTo : (s.castTo t).resultTy = some t := by
  rw [castTo]
  split
  · assumption
  · rw [resultTy_removeRedundantCasts]
    simp [resultTy, Cast.toExplicit]

theorem resultTy_or_ty : s.resultTy.or s.ty = s.resultTy := by
  obtain ⟨ty, casts⟩ := s
  cases casts with
  | nil => cases ty <;> rfl
  | cons cast rest => rw [resultTy_of_casts rfl, Option.some_or]

end Static

namespace Expr

variable {e : Expr}

@[simp] theorem static_withStatic (s : Static) : (e.withStatic s).static = s := by
  cases e <;> rfl

theorem withStatic_of_ty {s : Static} (same : s.ty = e.ty) : e.withStatic s = e.withCasts s.casts := by
  rw [withCasts, ← same]

theorem removeRedundantCasts_eq :
    e.removeRedundantCasts = e.withCasts e.static.removeRedundantCasts.casts :=
  withStatic_of_ty Static.ty_removeRedundantCasts

theorem castTo_eq : e.castTo t = e.withCasts (e.static.castTo t).casts :=
  withStatic_of_ty Static.ty_castTo

@[simp] theorem resultTy_castTo : (e.castTo t).resultTy = some t := by
  rw [castTo, resultTy, static_withStatic, Static.resultTy_castTo]

theorem resultTy_withCasts (e : Expr) (casts : List Cast) :
    (e.withCasts casts).resultTy = Static.resultTy ⟨e.ty, casts⟩ := by
  cases e <;> rfl

theorem resultTy_of_bare (bare : e.casts = []) : e.resultTy = e.ty := by
  rw [← withCasts_casts e, resultTy_withCasts, bare, Static.resultTy_bare, ty_withCasts]

theorem addCasts_eq {casts : List Cast} : e.addCasts casts = e.withCasts (e.casts ++ casts) := rfl

theorem resultTy_addCasts {casts : List Cast} :
    (e.addCasts casts).resultTy = Static.resultTy ⟨e.resultTy, casts⟩ := by
  rw [addCasts_eq, resultTy_withCasts, Static.resultTy_append]
  rfl

@[simp] theorem addCasts_nil : e.addCasts [] = e := by
  rw [addCasts_eq, List.append_nil, withCasts_casts]

/-- Carrying out casts on a literal gives a literal of the same type. -/
theorem castLiteral_eq (v : Value) (ty : Option Ty) (casts : List Cast) :
    ∃ w s, castLiteral v ty casts = .literal w s ∧ s.resultTy = Static.resultTy ⟨ty, casts⟩ := by
  induction casts generalizing v ty with
  | nil => exact ⟨v, ⟨ty, []⟩, rfl, rfl⟩
  | cons cast rest ih =>
    rw [castLiteral]
    split
    · rename_i w _
      obtain ⟨w, s, literal, same⟩ := ih w (some cast.target)
      exact ⟨w, s, literal,
        same.trans ((Static.resultTy_of_typed rfl).trans (Static.resultTy_of_casts rfl).symm)⟩
    · exact ⟨v, _, rfl, rfl⟩

/-- Converting a literal gives a literal of the target type. -/
theorem convertLiteral_eq (v : Value) (s : Static) (target : Ty) :
    ∃ w s', convertLiteral target (.literal v s) = .literal w s' ∧ s'.resultTy = some target := by
  obtain ⟨ty, _ | ⟨cast, rest⟩⟩ := s
  · rw [convertLiteral]
    split
    · rename_i w _
      exact ⟨w, ⟨some target, []⟩, rfl, rfl⟩
    · exact ⟨v, ⟨ty, [Cast.toExplicit target]⟩, rfl, rfl⟩
  · refine ⟨v, ⟨ty, cast :: rest ++ [Cast.toExplicit target]⟩, rfl, ?_⟩
    rw [Static.resultTy_append]
    rfl

end Expr

end ConstFold
