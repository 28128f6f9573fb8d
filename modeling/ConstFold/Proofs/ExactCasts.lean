import ConstFold.Proofs.CastTypes
import ConstFold.Proofs.ExactValues

/-! Casts between the exact types. Removing redundant casts keeps the type that they lead to and
the value of every constant that they are applied to. -/
namespace ConstFold

variable {p q t c : Primitive} {v w : Value} {casts further : List Cast}

namespace Primitive

theorem exact_cases (p : Primitive) (exact : p.isExact) : p = .boolean ∨ p.isIntegral := by
  cases p <;> first | contradiction | exact .inl rfl | exact .inr rfl

theorem casts_self (exact : p.isExact) : p.casts p := by cases p <;> first | contradiction | rfl

theorem casts_trans (first : p.casts q) (second : q.casts t) : p.casts t := by
  simp only [casts, Bool.or_eq_true, Bool.and_eq_true, decide_eq_true_eq] at first second ⊢
  rcases first with ⟨left, middle⟩ | ⟨left, middle⟩
  · rcases second with ⟨-, right⟩ | ⟨right, -⟩
    · exact .inl ⟨left, right⟩
    · subst middle
      contradiction
  · rcases second with ⟨right, -⟩ | ⟨-, right⟩
    · subst right
      contradiction
    · exact .inr ⟨left, right⟩

theorem isExact_of_casts (related : p.casts q) : q.isExact := by
  cases q <;> simp [casts, isExact, isIntegral] at related ⊢

end Primitive

theorem castTy?_cons {cast : Cast} :
    castTy? p (cast :: casts) = some q ↔
      ∃ t, cast.target = .primitive t ∧ p.casts t ∧ castTy? t casts = some q := by
  rw [castTy?]
  cases cast.target <;> simp

theorem castTy?_append :
    castTy? p (casts ++ further) = (castTy? p casts).bind fun t => castTy? t further := by
  induction casts generalizing p with
  | nil => rfl
  | cons cast rest ih =>
    rw [List.cons_append, castTy?, castTy?]
    cases cast.target with
    | primitive t =>
      by_cases related : p.casts t
      · simp only [related, if_true, ih]
      · simp [related]
    | boxed | string | null | object | classType => rfl

/-- Casts stay within the exact types of one kind. -/
theorem casts_of_castTy? (exact : p.isExact) (leads : castTy? p casts = some q) : p.casts q := by
  induction casts generalizing p with
  | nil =>
    cases leads
    exact Primitive.casts_self exact
  | cons cast rest ih =>
    obtain ⟨t, -, related, leads⟩ := castTy?_cons.mp leads
    exact Primitive.casts_trans related (ih (Primitive.isExact_of_casts related) leads)

theorem castsTo_exact (leads : castTy? p casts = some q) :
    castsTo (.primitive p) casts = .primitive q := by
  induction casts generalizing p with
  | nil =>
    cases leads
    rfl
  | cons cast rest ih =>
    obtain ⟨t, target, -, leads⟩ := castTy?_cons.mp leads
    rw [castsTo_cons, target, ih leads]

namespace Reference

theorem castAll_append :
    castAll v (casts ++ further) = (castAll v casts).bind fun w => castAll w further := by
  induction casts generalizing v with
  | nil => rfl
  | cons cast rest ih =>
    rw [List.cons_append, castAll, castAll]
    cases cast.target.unboxed?.bind (Reference.cast v) with
    | none => rfl
    | some w => exact ih

theorem cast_eq_convert (typed : v.primitive? = some p) (related : p.casts q) :
    Reference.cast v q = v.convert q := by
  obtain ⟨w, made, same, -⟩ := Value.convert_exact typed related
  rw [made, same]

theorem cast_self (typed : v.primitive? = some p) (exact : p.isExact) :
    Reference.cast v p = some v := by
  rw [cast_eq_convert typed (Primitive.casts_self exact), Value.convert_self typed]

/-- Casts between exact types are defined on every constant. -/
theorem castAll_exact (typed : v.primitive? = some p) (leads : castTy? p casts = some q) :
    ∃ w, castAll v casts = some w ∧ w.primitive? = some q := by
  induction casts generalizing p v with
  | nil =>
    cases leads
    exact ⟨v, rfl, typed⟩
  | cons cast rest ih =>
    obtain ⟨t, target, related, leads⟩ := castTy?_cons.mp leads
    obtain ⟨w, -, made, result⟩ := Value.convert_exact typed related
    obtain ⟨u, rest, last⟩ := ih result leads
    refine ⟨u, ?_, last⟩
    rw [castAll, target, Ty.unboxed?, Option.bind_some, made, Option.bind_some, rest]

end Reference

/-! Removal of redundant casts. -/

theorem lossless_integral (source : p.isIntegral) (target : q.isIntegral)
    (assignable : (Ty.primitive p).isAssignable (.primitive q))
    (lossless : (Ty.primitive p).isLossless (.primitive q)) :
    p = q ∨ q = .long ∨ (q = .int ∧ p ≠ .long) ∨ (q = .short ∧ p = .byte) := by
  revert source target assignable lossless
  cases p <;> cases q <;> decide

theorem modulus_dvd (merge : (Ty.primitive c).narrowingsMerge (.primitive p) (.primitive q)) :
    q.modulus ∣ p.modulus := by
  simp only [Ty.narrowingsMerge, Ty.asPrimitive?, Bool.and_eq_true] at merge
  obtain ⟨⟨⟨-, first⟩, second⟩, bits⟩ := merge
  revert first second bits
  cases p <;> cases q <;> simp [Primitive.isIntegral, Primitive.bitWidth?, Primitive.modulus]

/-- A cast that another one follows can go if it is redundant. -/
theorem cast_of_isRedundant (typed : v.primitive? = some c) (first : c.casts p)
    (second : p.casts q)
    (redundant : isRedundant (.primitive c) (.primitive p) (some (.primitive q)))
    (made : Reference.cast v p = some w) : Reference.cast w q = Reference.cast v q := by
  obtain ⟨w', converted, same, result⟩ := Value.convert_exact typed first
  obtain rfl : w' = w := Option.some.inj (same.symm.trans made)
  rw [Reference.cast_eq_convert result second,
    Reference.cast_eq_convert typed (Primitive.casts_trans first second)]
  simp only [Primitive.casts, Bool.or_eq_true, Bool.and_eq_true, decide_eq_true_eq] at first second
  rcases first with ⟨rfl, rfl⟩ | ⟨source, integral⟩
  · rw [Value.convert_self typed] at converted
    cases converted
    rfl
  · obtain ⟨i, number⟩ := Value.exists_integer typed source
    have narrow : q.isIntegral := by
      rcases second with ⟨rfl, -⟩ | second
      · contradiction
      · exact second.2
    simp only [isRedundant, Ty.isBoxed, Bool.false_and, Bool.not_false, Bool.true_and] at redundant
    split at redundant
    · rename_i assignable
      exact Value.convert_of_holds converted number integral narrow
        ((Value.holds_of_integer typed number).mono
          (lossless_integral source integral assignable redundant))
    · exact Value.convert_of_dvd converted number integral narrow (modulus_dvd redundant)

/-- The casts that one pass keeps lead to a type from which the last cast is still possible, and
that cast restores the value. -/
theorem keepCasts_exact (exact : c.isExact) (leads : castTy? c casts = some q) :
    ∃ last, (keepCasts (.primitive c) casts).2 = .primitive last ∧
      castTy? c (keepCasts (.primitive c) casts).1 = some last ∧ last.casts q ∧
      ∀ v, v.primitive? = some c →
        (Reference.castAll v (keepCasts (.primitive c) casts).1).bind (Reference.cast · q) =
          Reference.castAll v casts := by
  induction casts generalizing c with
  | nil =>
    cases leads
    exact ⟨q, rfl, rfl, Primitive.casts_self exact, fun v typed => Reference.cast_self typed exact⟩
  | cons cast rest ih =>
    obtain ⟨t, target, related, leads⟩ := castTy?_cons.mp leads
    have exactTarget := Primitive.isExact_of_casts related
    rw [keepCasts, target]
    split
    · rename_i redundant
      cases rest with
      | nil =>
        cases leads
        refine ⟨c, rfl, rfl, related, fun v typed => ?_⟩
        obtain ⟨w, -, made, -⟩ := Value.convert_exact typed related
        simp [keepCasts, Reference.castAll, target, Ty.unboxed?, made]
      | cons next others =>
        obtain ⟨u, outer, further, leads⟩ := castTy?_cons.mp leads
        have skips : castTy? c (next :: others) = some q :=
          castTy?_cons.mpr ⟨u, outer, Primitive.casts_trans related further, leads⟩
        obtain ⟨last, lastTy, keptTy, final, restores⟩ := ih exact skips
        refine ⟨last, lastTy, keptTy, final, fun v typed => ?_⟩
        obtain ⟨w, -, made, -⟩ := Value.convert_exact typed related
        simp only [List.head?_cons, Option.map_some, outer] at redundant
        have skipped := cast_of_isRedundant typed related further redundant made
        rw [restores v typed]
        simp only [Reference.castAll, target, outer, Ty.unboxed?, Option.bind_some, made, skipped]
    · obtain ⟨last, lastTy, keptTy, final, restores⟩ := ih exactTarget leads
      refine ⟨last, lastTy, castTy?_cons.mpr ⟨t, target, related, keptTy⟩, final, fun v typed => ?_⟩
      obtain ⟨w, -, made, result⟩ := Value.convert_exact typed related
      simp only [Reference.castAll, target, Ty.unboxed?, Option.bind_some, made]
      exact restores w result

/-- The casts in `further` do to constants of type `p` what those in `casts` do. -/
structure SameCasts (p : Primitive) (casts further : List Cast) : Prop where
  leads : castTy? p further = castTy? p casts
  value : ∀ v, v.primitive? = some p → Reference.castAll v further = Reference.castAll v casts

theorem dropRedundantOnce_exact (exact : p.isExact) (leads : castTy? p casts = some q) :
    SameCasts p casts (dropRedundantOnce (.primitive p) casts) := by
  obtain ⟨last, lastTy, keptTy, final, restores⟩ := keepCasts_exact exact leads
  have whole := castsTo_exact leads
  simp only [castsTo] at whole
  simp only [dropRedundantOnce, whole, lastTy]
  split
  · rename_i same
    cases same
    refine ⟨keptTy.trans leads.symm, fun v typed => ?_⟩
    obtain ⟨w, kept, result⟩ := Reference.castAll_exact typed keptTy
    rw [← restores v typed, kept, Option.bind_some,
      Reference.cast_self result (Primitive.isExact_of_casts (casts_of_castTy? exact leads))]
  · refine ⟨?_, fun v typed => ?_⟩
    · rw [castTy?_append, keptTy, leads]
      simp [Cast.toImplicit, castTy?, final]
    · rw [Reference.castAll_append, ← restores v typed]
      simp [Cast.toImplicit, Reference.castAll, Ty.unboxed?]

theorem dropRedundant_exact (n : Nat) (exact : p.isExact) (leads : castTy? p casts = some q) :
    SameCasts p casts (dropRedundant n (.primitive p) casts) := by
  induction n generalizing casts with
  | zero => exact ⟨rfl, fun _ _ => rfl⟩
  | succ n ih =>
    have once := dropRedundantOnce_exact exact leads
    rw [dropRedundant]
    split
    · exact ⟨rfl, fun _ _ => rfl⟩
    · have more := ih (once.leads.trans leads)
      exact ⟨more.leads.trans once.leads,
        fun v typed => (more.value v typed).trans (once.value v typed)⟩

namespace Static

/-- The node is untyped or has the type `p` before its casts. -/
def Admits (s : Static) (p : Primitive) : Prop := s.ty = none ∨ s.ty = some (.primitive p)

variable {s : Static}

theorem resultTy_exact (admits : s.Admits p) (leads : castTy? p s.casts = some q) :
    s.resultTy = some (.primitive q) ∨ (s.ty = none ∧ s.casts = [] ∧ p = q) := by
  rcases admits with untyped | typed
  · cases casts : s.casts with
    | nil =>
      rw [casts] at leads
      exact .inr ⟨untyped, rfl, Option.some.inj leads⟩
    | cons cast rest =>
      rw [casts] at leads
      exact .inl ((resultTy_of_casts casts).trans
        (congrArg some (castsTo_cons.symm.trans (castsTo_exact leads))))
  · exact .inl ((resultTy_of_typed typed).trans (congrArg some (castsTo_exact leads)))

theorem removeRedundantCasts_exact (admits : s.Admits p) (exact : p.isExact)
    (leads : castTy? p s.casts = some q) : SameCasts p s.casts s.removeRedundantCasts.casts := by
  rcases admits with untyped | typed
  · rw [removeRedundantCasts, untyped]
    exact ⟨rfl, fun _ _ => rfl⟩
  · rw [removeRedundantCasts, typed]
    exact dropRedundant_exact _ exact leads

theorem castTo_exact (admits : s.Admits p) (exact : p.isExact)
    (leads : castTy? p s.casts = some q) (related : q.casts t) :
    castTy? p (s.castTo (.primitive t)).casts = some t ∧
    ∀ v, v.primitive? = some p → Reference.castAll v (s.castTo (.primitive t)).casts =
      (Reference.castAll v s.casts).bind (Reference.cast · t) := by
  rw [castTo]
  split
  · rename_i result
    have same : q = t := by
      rcases resultTy_exact admits leads with there | ⟨untyped, bare, -⟩
      · simpa using there.symm.trans result
      · simp [resultTy, bare, untyped] at result
    subst same
    refine ⟨leads, fun v typed => ?_⟩
    obtain ⟨w, cast, result⟩ := Reference.castAll_exact typed leads
    rw [cast, Option.bind_some, Reference.cast_self result (Primitive.isExact_of_casts related)]
  · have appended : castTy? p (s.casts ++ [Cast.toExplicit (.primitive t)]) = some t := by
      simp [castTy?_append, leads, castTy?, Cast.toExplicit, related]
    have removed := removeRedundantCasts_exact
      (s := { s with casts := s.casts ++ [Cast.toExplicit (.primitive t)] }) admits exact appended
    refine ⟨removed.leads.trans appended, fun v typed => (removed.value v typed).trans ?_⟩
    rw [Reference.castAll_append]
    simp [Reference.castAll, Cast.toExplicit, Ty.unboxed?]

end Static

theorem Value.castTo_primitive (typed : v.primitive? = some p) :
    v.castTo (.primitive t) = v.convert t := by
  cases v <;> first | contradiction | rfl

/-- Casts of a literal between exact types are all carried out. -/
theorem castLiteral_exact (typed : v.primitive? = some p) (leads : castTy? p casts = some q) :
    ∃ w, Reference.castAll v casts = some w ∧ w.primitive? = some q ∧
      Expr.castLiteral v (some (.primitive p)) casts = .literal w ⟨some (.primitive q), []⟩ := by
  induction casts generalizing p v with
  | nil =>
    cases leads
    exact ⟨v, rfl, typed, rfl⟩
  | cons cast rest ih =>
    obtain ⟨t, target, related, leads⟩ := castTy?_cons.mp leads
    obtain ⟨w, converted, made, result⟩ := Value.convert_exact typed related
    obtain ⟨u, rest, last, literal⟩ := ih result leads
    refine ⟨u, ?_, last, ?_⟩
    · rw [Reference.castAll, target, Ty.unboxed?, Option.bind_some, made, Option.bind_some, rest]
    · rw [Expr.castLiteral, target, Value.castTo_primitive typed, converted]
      exact literal

end ConstFold
