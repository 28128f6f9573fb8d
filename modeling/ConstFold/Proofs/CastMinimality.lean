import ConstFold.Proofs.CastTypes

/-! Removing redundant casts is done when it stops. A pass drops casts or marks the last one as
implicit; after a pass that only marks, the next one changes nothing, so a node with `n` casts
has reached a fixed point after `n + 1` passes at most. -/
namespace ConstFold

variable {base current : Ty} {casts : List Cast}

/-- Only whether there is another cast, and its target, count for the cast before it. -/
theorem head?_append_singleton (casts : List Cast) {cast cast' : Cast}
    (same : cast'.target = cast.target) :
    (casts ++ [cast']).head?.map Cast.target = (casts ++ [cast]).head?.map Cast.target := by
  cases casts with
  | nil => exact congrArg some same
  | cons => rfl

theorem castsTo_of_ne_nil (nonempty : casts ≠ []) : castsTo base casts = castsTo current casts := by
  cases casts with
  | nil => contradiction
  | cons cast rest => rw [castsTo_cons, castsTo_cons]

theorem keepCasts_sublist (current : Ty) (casts : List Cast) :
    (keepCasts current casts).1.Sublist casts := by
  induction casts generalizing current with
  | nil => exact .refl _
  | cons cast rest ih =>
    rw [keepCasts]
    split
    · exact (ih current).cons cast
    · exact (ih cast.target).cons_cons cast

/-- If the kept casts lead elsewhere, the last cast is not among them. -/
theorem length_keepCasts_lt (elsewhere : (keepCasts current casts).2 ≠ castsTo current casts) :
    (keepCasts current casts).1.length < casts.length := by
  induction casts generalizing current with
  | nil => contradiction
  | cons cast rest ih =>
    rw [keepCasts] at elsewhere ⊢
    split
    · exact Nat.lt_succ_of_le (keepCasts_sublist current rest).length_le
    · rename_i needed
      rw [if_neg needed, castsTo_cons] at elsewhere
      exact Nat.succ_lt_succ (ih elsewhere)

theorem length_dropRedundantOnce_le : (dropRedundantOnce base casts).length ≤ casts.length := by
  simp only [dropRedundantOnce]
  split
  · exact (keepCasts_sublist base casts).length_le
  · rename_i elsewhere
    rw [List.length_append]
    exact length_keepCasts_lt elsewhere

/-- A pass that drops only the last cast decides in the same way whether that cast is explicit or
implicit. -/
theorem keepCasts_of_dropsLast (elsewhere : (keepCasts current casts).2 ≠ castsTo current casts)
    (length : (keepCasts current casts).1.length + 1 = casts.length) :
    ∃ cast, casts = (keepCasts current casts).1 ++ [cast] ∧
      ∀ cast', cast'.target = cast.target →
        keepCasts current ((keepCasts current casts).1 ++ [cast']) = keepCasts current casts := by
  induction casts generalizing current with
  | nil => contradiction
  | cons cast rest ih =>
    rw [keepCasts] at elsewhere length ⊢
    split
    · rename_i redundant
      rw [if_pos redundant] at elsewhere length
      cases rest with
      | nil =>
        refine ⟨cast, rfl, fun cast' same => ?_⟩
        rw [← same] at redundant
        simp only [keepCasts, List.nil_append]
        exact if_pos redundant
      | cons next others =>
        -- The last cast is dropped further on, so two casts are gone.
        rw [castsTo_cons, castsTo_of_ne_nil (List.cons_ne_nil _ _)] at elsewhere
        have shorter := length_keepCasts_lt elsewhere
        rw [List.length_cons] at length
        omega
    · rename_i needed
      rw [if_neg needed, castsTo_cons] at elsewhere
      rw [if_neg needed, List.length_cons, List.length_cons, Nat.succ_inj] at length
      obtain ⟨last, split, again⟩ := ih elsewhere length
      refine ⟨last, congrArg (cast :: ·) split, fun cast' same => ?_⟩
      rw [split, ← head?_append_singleton _ same] at needed
      simp only [List.cons_append]
      rw [keepCasts, if_neg needed, again cast' same]

/-- After a pass that drops nothing on balance, the next one changes nothing. -/
theorem dropRedundantOnce_of_length
    (length : (dropRedundantOnce base casts).length = casts.length) :
    dropRedundantOnce base (dropRedundantOnce base casts) = dropRedundantOnce base casts := by
  by_cases whole : (keepCasts base casts).2 = castsTo base casts
  · have once : dropRedundantOnce base casts = (keepCasts base casts).1 := if_pos whole
    rw [once] at length ⊢
    rw [(keepCasts_sublist base casts).eq_of_length length]
    exact once.trans ((keepCasts_sublist base casts).eq_of_length length)
  · have once : dropRedundantOnce base casts =
        (keepCasts base casts).1 ++ [Cast.toImplicit (castsTo base casts)] := if_neg whole
    rw [once, List.length_append] at length
    obtain ⟨cast, split, again⟩ := keepCasts_of_dropsLast whole length
    have target : (Cast.toImplicit (castsTo base casts)).target = cast.target := by
      rw [split, castsTo_append]
      rfl
    have twice := again _ target
    have leads : castsTo base (dropRedundantOnce base casts) = castsTo base casts :=
      castsTo_dropRedundantOnce
    rw [once] at leads ⊢
    rw [dropRedundantOnce]
    simp only [twice]
    rw [← castsTo, leads]
    exact if_neg whole

theorem dropRedundant_of_fixed (n : Nat) (fixed : dropRedundantOnce base casts = casts) :
    dropRedundant n base casts = casts := by
  cases n with
  | zero => rfl
  | succ n => exact if_pos fixed

theorem length_dropRedundant_le (n : Nat) : (dropRedundant n base casts).length ≤ casts.length := by
  induction n generalizing casts with
  | zero => exact Nat.le_refl _
  | succ n ih =>
    rw [dropRedundant]
    split
    · exact Nat.le_refl _
    · exact Nat.le_trans ih length_dropRedundantOnce_le

/-- One pass more than there are casts is enough. -/
theorem dropRedundantOnce_dropRedundant (n : Nat) (enough : casts.length < n) :
    dropRedundantOnce base (dropRedundant n base casts) = dropRedundant n base casts := by
  induction n generalizing casts with
  | zero => contradiction
  | succ n ih =>
    rw [dropRedundant]
    split
    · assumption
    · have shrinks : (dropRedundantOnce base casts).length ≤ casts.length :=
        length_dropRedundantOnce_le
      rcases Nat.lt_or_eq_of_le shrinks with shorter | same
      · exact ih (by omega)
      · have fixed := dropRedundantOnce_of_length same
        rw [dropRedundant_of_fixed n fixed]
        exact fixed

namespace Static

variable {s : Static}

theorem removeRedundantCasts_of_untyped (untyped : s.ty = none) : s.removeRedundantCasts = s := by
  simp only [removeRedundantCasts, untyped]

theorem removeRedundantCasts_of_typed (typed : s.ty = some base) :
    s.removeRedundantCasts = ⟨some base, dropRedundant (s.casts.length + 2) base s.casts⟩ := by
  simp only [removeRedundantCasts, typed]

theorem length_removeRedundantCasts_le : s.removeRedundantCasts.casts.length ≤ s.casts.length := by
  cases typed : s.ty with
  | none => exact Nat.le_of_eq (by rw [removeRedundantCasts_of_untyped typed])
  | some base =>
    rw [removeRedundantCasts_of_typed typed]
    exact length_dropRedundant_le _

theorem dropRedundantOnce_removeRedundantCasts (typed : s.ty = some base) :
    dropRedundantOnce base s.removeRedundantCasts.casts = s.removeRedundantCasts.casts := by
  rw [removeRedundantCasts_of_typed typed]
  exact dropRedundantOnce_dropRedundant _ (by omega)

theorem removeRedundantCasts_removeRedundantCasts :
    s.removeRedundantCasts.removeRedundantCasts = s.removeRedundantCasts := by
  cases typed : s.ty with
  | none => rw [removeRedundantCasts_of_untyped typed, removeRedundantCasts_of_untyped typed]
  | some base =>
    have fixed := dropRedundantOnce_removeRedundantCasts typed
    rw [removeRedundantCasts_of_typed typed] at fixed ⊢
    rw [removeRedundantCasts_of_typed rfl, dropRedundant_of_fixed _ fixed]

end Static

/-- Removing redundant casts gives the same node with no more casts and of the same types. It
ends in a fixed point: neither a further pass nor a second removal changes anything. -/
theorem removeRedundantCasts_minimal (e : Expr) :
    e.removeRedundantCasts = e.withCasts e.removeRedundantCasts.casts ∧
      e.removeRedundantCasts.casts.length ≤ e.casts.length ∧
      e.removeRedundantCasts.ty = e.ty ∧
      e.removeRedundantCasts.resultTy = e.resultTy ∧
      (∀ base, e.ty = some base →
        dropRedundantOnce base e.removeRedundantCasts.casts = e.removeRedundantCasts.casts) ∧
      e.removeRedundantCasts.removeRedundantCasts = e.removeRedundantCasts := by
  have static : e.removeRedundantCasts.static = e.static.removeRedundantCasts :=
    Expr.static_withStatic _
  refine ⟨?_, ?_, ?_, ?_, fun base typed => ?_, ?_⟩
  · rw [Expr.casts, static]
    exact Expr.removeRedundantCasts_eq
  · rw [Expr.casts, static]
    exact Static.length_removeRedundantCasts_le
  · rw [Expr.ty, static]
    exact Static.ty_removeRedundantCasts
  · rw [Expr.resultTy, static]
    exact Static.resultTy_removeRedundantCasts
  · rw [Expr.casts, static]
    exact Static.dropRedundantOnce_removeRedundantCasts typed
  · rw [Expr.removeRedundantCasts, static, Static.removeRedundantCasts_removeRedundantCasts, ← static]
    cases e <;> rfl

/-- The first pass over `(short) (int) (char) x`, where `x` is of type `byte`, enables the second. -/
theorem removeRedundantCasts_minimal_sample :
    let char := Cast.toExplicit (.primitive .char)
    let short := Cast.toExplicit (.primitive .short)
    let e := Expr.read ⟨0⟩ (.ofIndex 0)
      ⟨some (.primitive .byte), [char, Cast.toExplicit .int, short]⟩
    dropRedundantOnce (.primitive .byte) e.casts = [char, short] ∧
      dropRedundantOnce (.primitive .byte) [char, short] = e.removeRedundantCasts.casts ∧
      e.removeRedundantCasts.casts = [Cast.toImplicit (.primitive .short)] ∧
      dropRedundantOnce (.primitive .byte) e.removeRedundantCasts.casts =
        e.removeRedundantCasts.casts := by
  refine ⟨by decide, by decide, by decide, ?_⟩
  exact (removeRedundantCasts_minimal _).2.2.2.2.1 _ rfl

end ConstFold
