import ConstFold.Proofs.ConstantCasts
import ConstFold.Proofs.ExactCasts
import ConstFold.Proofs.ExactRounding

/-! Conversions that keep every value. After a lossless conversion a constant is of another
primitive type, but no further conversion tells it from the one before: integers and
single-precision numbers are exact in the wider types. -/
namespace ConstFold

variable {α β γ : Type} {R : α → α → Prop} {v w u : Value} {p q r c : Primitive} {t : Ty}
  {casts : List Cast}

theorem rel_refl (reflexive : ∀ a, R a a) (x : Option α) : Option.Rel R x x := by
  cases x with
  | none => exact .none
  | some a => exact .some (reflexive a)

theorem rel_trans (transitive : ∀ a b c, R a b → R b c → R a c) {x y z : Option α}
    (first : Option.Rel R x y) (second : Option.Rel R y z) : Option.Rel R x z := by
  cases first with
  | none => exact second
  | some first =>
    cases second with
    | some second => exact .some (transitive _ _ _ first second)

theorem rel_of_rel {S : α → α → Prop} {x y : Option α} (related : Option.Rel R x y)
    (weaker : ∀ a b, x = some a → y = some b → R a b → S a b) : Option.Rel S x y := by
  cases related with
  | none => exact .none
  | some related => exact .some (weaker _ _ rfl rfl related)

theorem eq_of_rel {x y : Option α} (related : Option.Rel Eq x y) : x = y := by
  cases related with
  | none => rfl
  | some same => rw [same]

theorem rel_bind {S : β → β → Prop} {x y : Option α} {f g : α → Option β}
    (related : Option.Rel R x y) (next : ∀ {a b}, R a b → Option.Rel S (f a) (g b)) :
    Option.Rel S (x.bind f) (y.bind g) := by
  cases related with
  | none => exact .none
  | some related => exact next related

namespace Value

/-- The same constant, so far as NaN patterns are not told apart. -/
abbrev Same (v w : Value) : Prop := v.same w

theorem same_iff :
    v.Same w ↔ v = w ∨ (∃ x y, v = .float x ∧ w = .float y ∧ x.isNaN = true ∧ y.isNaN = true) ∨
      ∃ x y, v = .double x ∧ w = .double y ∧ x.isNaN = true ∧ y.isNaN = true := by
  cases v <;> cases w <;> simp [Same, same]

theorem Same.trans (first : v.Same w) (second : w.Same u) : v.Same u := by
  rw [same_iff] at *
  rcases first with rfl | ⟨x, y, rfl, rfl, left, right⟩ | ⟨x, y, rfl, rfl, left, right⟩
  · exact second
  · rcases second with rfl | ⟨_, z, same, rfl, -, last⟩ | ⟨_, _, same, -⟩
    · exact .inr (.inl ⟨x, y, rfl, rfl, left, right⟩)
    · exact .inr (.inl ⟨x, z, rfl, rfl, left, last⟩)
    · cases same
  · rcases second with rfl | ⟨_, _, same, -⟩ | ⟨_, z, same, rfl, -, last⟩
    · exact .inr (.inr ⟨x, y, rfl, rfl, left, right⟩)
    · cases same
    · exact .inr (.inr ⟨x, z, rfl, rfl, left, last⟩)

theorem Same.primitive (alike : v.Same w) : v.primitive? = w.primitive? := by
  rw [same_iff] at alike
  rcases alike with rfl | ⟨x, y, rfl, rfl, -⟩ | ⟨x, y, rfl, rfl, -⟩ <;> rfl

/-- Outside the floating-point types there is only one pattern for a constant. -/
theorem Same.eq (alike : v.Same w) (typed : v.primitive? = some p) (exact : p.isExact) : v = w := by
  rw [same_iff] at alike
  rcases alike with same | ⟨x, y, rfl, rfl, -⟩ | ⟨x, y, rfl, rfl, -⟩
  · exact same
  all_goals
    cases typed
    contradiction

theorem toIntClamped_nan {f : Format} {x : Binary f} (nan : x.isNaN = true) (low high : Int) :
    x.toIntClamped low high = 0 := by
  rw [Binary.toIntClamped, Binary.isNaN_iff.mp nan]

theorem widen_nan {x : Binary32} (nan : x.isNaN = true) : x.widen.isNaN = true := by
  rw [Binary.widen, Binary.toFormat, Binary.isNaN_iff.mp nan]
  cases x.negative <;> decide

theorem narrow_nan {x : Binary64} (nan : x.isNaN = true) : x.narrow.isNaN = true := by
  rw [Binary.narrow, Binary.toFormat, Binary.isNaN_iff.mp nan]
  cases x.negative <;> decide

/-- All NaNs are converted alike. -/
theorem ofReal?_nan {x y : Binary64} (left : x.isNaN = true) (right : y.isNaN = true) (p : Primitive) :
    Option.Rel Same (ofReal? x p) (ofReal? y p) := by
  have same : clampInt x = clampInt y ∧ clampLong x = clampLong y := by
    simp only [clampInt, clampLong, toIntClamped_nan left, toIntClamped_nan right, and_self]
  cases p with
  | float =>
    exact .some (same_iff.mpr (.inr (.inl ⟨_, _, rfl, rfl, narrow_nan left, narrow_nan right⟩)))
  | double => exact .some (same_iff.mpr (.inr (.inr ⟨_, _, rfl, rfl, left, right⟩)))
  | boolean | byte | short | char | int | long =>
    simp only [ofReal?, same]
    exact rel_refl same_refl _

theorem convert_float (x : Binary32) (other : p ≠ .float) :
    (Value.float x).convert p = ofReal? x.widen p := by
  cases p <;> first | contradiction | rfl

/-- Conversions do not tell patterns of one constant apart. -/
theorem Same.convert (alike : v.Same w) (p : Primitive) :
    Option.Rel Same (v.convert p) (w.convert p) := by
  rw [same_iff] at alike
  rcases alike with rfl | ⟨x, y, rfl, rfl, left, right⟩ | ⟨x, y, rfl, rfl, left, right⟩
  · exact rel_refl same_refl _
  · by_cases float : p = .float
    · subst float
      exact .some (same_iff.mpr (.inr (.inl ⟨x, y, rfl, rfl, left, right⟩)))
    · rw [convert_float x float, convert_float y float]
      exact ofReal?_nan (widen_nan left) (widen_nan right) p
  · exact ofReal?_nan left right p

/-- Constants that are equal, or that are numbers or truth values which no conversion tells
apart. -/
inductive Alike : Value → Value → Prop where
  | refl (v : Value) : Alike v v
  | convert {v w : Value} (left : v.primitive?.isSome) (right : w.primitive?.isSome)
      (same : ∀ p, Option.Rel Same (v.convert p) (w.convert p)) : Alike v w

theorem Alike.ofSame (alike : v.Same w) (typed : v.primitive?.isSome) : Alike v w :=
  .convert typed (alike.primitive ▸ typed) alike.convert

theorem Alike.trans (first : Alike v w) (second : Alike w u) : Alike v u := by
  cases first with
  | refl => exact second
  | convert left middle first =>
    cases second with
    | refl => exact .convert left middle first
    | convert _ right second =>
      exact .convert left right fun p =>
        rel_trans (R := Same) (fun _ _ _ => Same.trans) (first p) (second p)

/-- Constants of one primitive type that are alike are the same. -/
theorem Alike.same (alike : Alike v w) (kind : v.primitive? = w.primitive?) : v.Same w := by
  cases alike with
  | refl => exact same_refl v
  | convert left _ same =>
    obtain ⟨p, typed⟩ := Option.isSome_iff_exists.mp left
    have own := same p
    rw [convert_self typed, convert_self (kind ▸ typed)] at own
    cases own with
    | some own => exact own

/-- A number or truth value is no string and no object of a class. -/
theorem castTo_none (typed : v.primitive?.isSome) (reference : t.unboxed? = none)
    (noObject : t ≠ .object) : v.castTo t = none := by
  cases t <;> cases v <;> simp_all [Value.castTo, primitive?, Ty.unboxed?]

/-- Casts keep constants alike. -/
theorem Alike.castTo (alike : Alike v w) (t : Ty) : Option.Rel Alike (v.castTo t) (w.castTo t) := by
  cases alike with
  | refl => exact rel_refl .refl _
  | convert left right same =>
    have leftNull : v ≠ .null := by rintro rfl; contradiction
    have rightNull : w ≠ .null := by rintro rfl; contradiction
    cases t with
    | primitive p | boxed p =>
      rw [castTo_of_unboxed leftNull rfl, castTo_of_unboxed rightNull rfl]
      refine rel_of_rel (same p) fun a b made _ alike => .ofSame alike ?_
      rw [primitive?_of_convert made]
      rfl
    | object =>
      rw [castTo_object, castTo_object]
      exact .some (.convert left right same)
    | string | null | classType =>
      rw [castTo_none left rfl (by simp), castTo_none right rfl (by simp)]
      exact .none

theorem Alike.castThrough (alike : Alike v w) (casts : List Cast) :
    Option.Rel Alike (v.castThrough casts) (w.castThrough casts) := by
  induction casts generalizing v w with
  | nil => exact .some alike
  | cons cast rest ih => exact rel_bind (alike.castTo cast.target) ih

/-- The conversions of an integral constant depend on its number only. -/
theorem convert_number {i : Int} (number : v.integer? = some i) (p : Primitive) :
    v.convert p =
      match p with
      | .boolean => none
      | .float => some (.float (Binary.ofInt Format.single i))
      | .double => some (.double (Binary.ofInt Format.double i))
      | p => ofInteger? i p := by
  cases v <;> simp only [integer?, Option.some.injEq, reduceCtorEq] at number
  all_goals
    subst number
    cases p <;> rfl

theorem primitive?_of_integer {i : Int} (number : v.integer? = some i) : v.primitive?.isSome := by
  cases v <;> first | contradiction | rfl

theorem Alike.ofNumber {i : Int} (left : v.integer? = some i) (right : w.integer? = some i) :
    Alike v w := by
  refine .convert (primitive?_of_integer left) (primitive?_of_integer right) fun p => ?_
  rw [convert_number left, convert_number right]
  exact rel_refl same_refl _

/-- A number of type `int` is exact in double precision, and so are its conversions from there. -/
theorem ofReal?_ofInt {i : Int} (number : v.integer? = some i) (range : Primitive.int.Holds i)
    (p : Primitive) : ofReal? (Binary.ofInt Format.double i) p = v.convert p := by
  obtain ⟨above, below⟩ := range
  have fits : Binary.Fits Format.double i.natAbs 0 := Binary.fits_double_iff.mpr (by omega)
  have int : clampInt (Binary.ofInt Format.double i) = i :=
    Binary.toIntClamped_ofInt fits (by omega) (by omega)
  have long : clampLong (Binary.ofInt Format.double i) = i :=
    Binary.toIntClamped_ofInt fits (by omega) (by omega)
  have single : (Binary.ofInt Format.double i).narrow = Binary.ofInt Format.single i :=
    Binary.toFormat_ofInt fits
  rw [convert_number number]
  cases p <;> simp only [ofReal?, int, long, single]

theorem Alike.ofDouble {i : Int} (number : v.integer? = some i) (range : Primitive.int.Holds i) :
    Alike v (.double (Binary.ofInt Format.double i)) := by
  refine .convert (primitive?_of_integer number) rfl fun p => ?_
  have same : (Value.double (Binary.ofInt Format.double i)).convert p = v.convert p :=
    ofReal?_ofInt number range p
  rw [same]
  exact rel_refl same_refl _

theorem Alike.ofSingle {i : Int} (number : v.integer? = some i) (small : i.natAbs < 16777216) :
    Alike v (.float (Binary.ofInt Format.single i)) := by
  refine .convert (primitive?_of_integer number) rfl fun p => ?_
  have wide : (Binary.ofInt Format.single i).widen = Binary.ofInt Format.double i :=
    Binary.toFormat_ofInt (Binary.fits_single_iff.mpr (by omega))
  have same : (Value.float (Binary.ofInt Format.single i)).convert p = v.convert p := by
    by_cases float : p = .float
    · subst float
      exact (convert_number number .float).symm
    · rw [convert_float _ float, wide, ofReal?_ofInt number ⟨by omega, by omega⟩]
  rw [same]
  exact rel_refl same_refl _

theorem Alike.ofWiden (x : Binary32) : Alike (.float x) (.double x.widen) := by
  refine .convert rfl rfl fun p => ?_
  by_cases float : p = .float
  · subst float
    refine .some (same_iff.mpr ?_)
    rcases Binary.narrow_widen x with same | ⟨nan, narrow⟩
    · exact .inl (congrArg Value.float same.symm)
    · exact .inr (.inl ⟨_, _, rfl, rfl, nan, narrow⟩)
  · rw [convert_float x float]
    exact rel_refl same_refl _

end Value

/-- Every number of the first type is one of the second. -/
def Primitive.within (p q : Primitive) : Bool :=
  match q with
  | .short => p = .byte
  | .int | .float => p = .byte || p = .short || p = .char
  | .long => p = .byte || p = .short || p = .char || p = .int
  | .double => p = .byte || p = .short || p = .char || p = .int || p = .float
  | .boolean | .byte | .char => false

/-- A lossless conversion is the identity on values, or it embeds a type in a wider one. -/
theorem Ty.isLossless_cases {current : Ty} (lossless : current.isLossless t) :
    current = t ∨ ∃ p q, current.unboxed? = some p ∧ t.unboxed? = some q ∧ (p = q ∨ p.within q) := by
  by_cases same : current = t
  · exact .inl same
  right
  simp only [isLossless, same, decide_false, Bool.false_or] at lossless
  split at lossless
  · rename_i p q source target
    refine ⟨p, q, source, target, ?_⟩
    by_cases equal : p = q
    · exact .inl equal
    right
    simp only [equal, decide_false, Bool.false_or, Bool.and_eq_true] at lossless
    obtain ⟨⟨assignable, primitive⟩, exact⟩ := lossless
    cases t <;> simp only [isPrimitive, Bool.false_eq_true] at primitive
    cases target
    cases current <;> cases source
    all_goals
      revert assignable exact equal
      cases p <;> cases q <;> decide
  · contradiction

/-- Embedding a constant in a wider type gives one that is alike. -/
theorem Value.convert_within (typed : v.primitive? = some p) (within : p.within q) :
    ∃ w, v.convert q = some w ∧ Alike v w := by
  by_cases float : p = .float
  · subst float
    have wide : q = .double := by revert within; cases q <;> decide
    subst wide
    cases v <;> cases typed
    exact ⟨_, rfl, .ofWiden _⟩
  have integral : p.isIntegral := by revert within float; cases p <;> cases q <;> decide
  obtain ⟨i, number⟩ := exists_integer typed integral
  have holds := holds_of_integer typed number
  by_cases exact : q.isIntegral
  · obtain ⟨w, made, -⟩ := exists_ofInteger exact i
    rw [← convert_integral number exact] at made
    have wide : p = q ∨ q = .long ∨ (q = .int ∧ p ≠ .long) ∨ (q = .short ∧ p = .byte) := by
      revert within exact
      cases p <;> cases q <;> decide
    exact ⟨w, made, .ofNumber number (integer_of_convert made number exact (holds.mono wide)).2⟩
  · have narrow : p ≠ .long := by rintro rfl; revert within exact; cases q <;> decide
    have range : Primitive.int.Holds i := holds.mono (.inr (.inr (.inl ⟨rfl, narrow⟩)))
    cases q with
    | float =>
      have small : i.natAbs < 16777216 := by
        cases p <;> first | contradiction | (simp only [Primitive.Holds] at holds; omega)
      exact ⟨_, convert_number number .float, .ofSingle number small⟩
    | double => exact ⟨_, convert_number number .double, .ofDouble number range⟩
    | boolean | byte | char => cases within
    | short | int | long => exact absurd rfl exact

end ConstFold
