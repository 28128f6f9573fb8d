import ConstFold.Pass.Identity
import ConstFold.Proofs.JavaOperators
import ConstFold.Proofs.SinglePrecision

/-! Operators and conversions on floating-point constants, NaN patterns not told apart. Operators
on promoted constants compute what the reference does, although `float` is computed in double
precision. What the reference computes depends on neither the patterns of its operands nor whether
they have been promoted, and the laws for `1` and `0.0` hold. -/
namespace ConstFold

variable {op : BinaryOp} {f : Format}

namespace Format

/-- The format has fractions and a one. -/
structure IsUsual (f : Format) : Prop where
  exponents : 3 ≤ Nat.pow 2 f.exponentBits
  fractions : 0 < f.fractionBits
  one : Binary.Fits f 1 0

theorem single_isUsual : single.IsUsual :=
  ⟨by decide, by decide, Binary.fits_single_iff.mpr (by decide)⟩

theorem double_isUsual : double.IsUsual :=
  ⟨by decide, by decide, Binary.fits_double_iff.mpr (by decide)⟩

end Format

namespace Binary

variable {x y z x' y' : Binary f} {s : Bool} {m n : Nat} {d e : Int}

/-! NaNs. -/

theorem isNaN_passNaN (nan : x.isNaN = true ∨ y.isNaN = true) (result : Binary f) :
    (passNaN x y result).isNaN = true := by
  rw [passNaN]
  split
  · assumption
  · rename_i number
    have other := nan.resolve_left number
    rwa [if_pos other]

theorem Same.symm (same : Same x y) : Same y x :=
  same.imp Eq.symm And.symm

theorem Same.neg (same : Same x y) : Same x.neg y.neg := by
  rcases same with rfl | ⟨left, right⟩
  · exact .refl _
  · exact .nan ((isNaN_neg x).trans left) ((isNaN_neg y).trans right)

/-- Numbers of which none is a NaN are equal. -/
theorem eq_or_nan (left : Same x x') (right : Same y y') :
    (x = x' ∧ y = y') ∨
      ((x.isNaN = true ∨ y.isNaN = true) ∧ (x'.isNaN = true ∨ y'.isNaN = true)) := by
  rcases left with rfl | ⟨left, left'⟩
  · rcases right with rfl | ⟨right, right'⟩
    · exact .inl ⟨rfl, rfl⟩
    · exact .inr ⟨.inr right, .inr right'⟩
  · exact .inr ⟨.inl left, .inl left'⟩

theorem Same.floating (op : BinaryOp) (left : Same x x') (right : Same y y') :
    Option.Rel Same (Reference.floating? op x y) (Reference.floating? op x' y') := by
  rcases eq_or_nan left right with ⟨rfl, rfl⟩ | ⟨nan, nan'⟩
  · exact rel_refl .refl _
  · cases op with
    | plus | minus | mul | div | mod => exact .some (.nan (isNaN_passNaN nan _) (isNaN_passNaN nan' _))
    | or | and | bitOr | bitXor | bitAnd | eq | ne | lt | gt | le | ge | shl | shr | ushr
    | instanceOf => exact .none

theorem Same.compare (left : Same x x') (right : Same y y') : x.compare? y = x'.compare? y' := by
  rcases eq_or_nan left right with ⟨rfl, rfl⟩ | ⟨nan, nan'⟩
  · rfl
  · rw [compare?_nan nan, compare?_nan nan']

theorem compare?_swap (x y : Binary f) : y.compare? x = (x.compare? y).map Ordering.swap := by
  rw [compare?, compare?]
  cases x.decode with
  | nan => cases y.decode <;> rfl
  | infinite s => cases y.decode <;> cases s <;> first | rfl | (rename_i t; cases t <;> rfl)
  | finite s m d =>
    cases y.decode with
    | nan => rfl
    | infinite t => cases t <;> rfl
    | finite t n e =>
      have least : (if e < d then e else d) = if d < e then d else e := by
        split <;> split <;> omega
      simp only [least, Option.map_some]
      exact congrArg some Std.OrientedCmp.eq_swap

/-! Laws. -/

/-- The number in units, in units of one. -/
theorem units_value (s : Bool) (m : Nat) {l : Int} (below : l ≤ e) :
    (units s m e l : ℚ) * 2 ^ l = (if s then -1 else 1) * (m * 2 ^ e) := by
  have exponent : e = ((e - l).toNat : Int) + l := by omega
  have magnitude : ((m <<< (e - l).toNat : Nat) : ℚ) * 2 ^ l = m * 2 ^ e := by
    rw [cast_shiftLeft, mul_assoc, ← zpow_add₀ two_ne_zero, ← exponent]
  cases s with
  | false => simp only [units, Bool.false_eq_true, if_false, Int.cast_natCast, one_mul, magnitude]
  | true => simp only [units, if_true, Int.cast_neg, Int.cast_natCast, neg_mul, one_mul, magnitude]

theorem exists_one (usual : f.IsUsual) (one : y.numEq (ofInt f 1) = true) :
    ∃ n e, y.decode = .finite false n e ∧ n ≠ 0 ∧ (n * 2 ^ e : ℚ) = 1 := by
  rw [numEq, beq_iff_eq, compare?] at one
  obtain ⟨k, unit⟩ := decode_ofScaled usual.one false
  have same : ofInt f 1 = ofScaled f false 1 0 := rfl
  rw [same, unit] at one
  cases decoded : y.decode with
  | nan => simp [decoded] at one
  | infinite t => cases t <;> simp [decoded] at one
  | finite t n e =>
    simp only [decoded, Option.some.injEq, compare_eq_iff_eq] at one
    have value : ((if t then -1 else 1) * (n * 2 ^ e) : ℚ) = 1 := by
      have left : (if e < 0 - (k : Int) then e else 0 - k) ≤ e := by split <;> omega
      have right : (if e < 0 - (k : Int) then e else 0 - k) ≤ 0 - k := by split <;> omega
      rw [← units_value t n left, one, units_value false (1 <<< k) right, shiftLeft_value]
      norm_num
    have nonneg : (0 : ℚ) ≤ n * 2 ^ e := by positivity
    cases t with
    | true =>
      simp only [if_true] at value
      linarith
    | false =>
      simp only [Bool.false_eq_true, if_false, one_mul] at value
      refine ⟨n, e, rfl, ?_, value⟩
      rintro rfl
      simp at value

/-- An operator that gives back `x` if that is a number, with another number on the right, also gives it
back if it is NaN. -/
theorem passNaN_number (number : y.isNaN = false) {result : Binary f}
    (same : x.isNaN = false → result = x) : passNaN x y result = x := by
  rw [passNaN, number]
  cases kind : x.isNaN with
  | true => rfl
  | false => exact same kind

/-- The order of the factors matters only if both are NaN. -/
theorem mul_comm_number (number : y.isNaN = false) (x : Binary f) : y.mul x = x.mul y := by
  rw [mul, mul, passNaN, passNaN, number]
  cases x.isNaN with
  | true => rfl
  | false =>
    cases x.decode <;> cases y.decode <;>
      simp [Bool.bne_eq_xor, Bool.xor_comm, Nat.mul_comm, Int.add_comm]

theorem mul_unit (usual : f.IsUsual) (x : Binary f) (one : y.numEq (ofInt f 1) = true) :
    x.mul y = x ∧ y.mul x = x := by
  obtain ⟨n, e, unit, nonzero, value⟩ := exists_one usual one
  have number : y.isNaN = false := isNaN_of_decode (by simp [unit])
  have right : x.mul y = x := by
    rw [mul, unit]
    refine passNaN_number number fun kind => ?_
    cases decoded : x.decode with
    | nan => simp [isNaN_iff.mpr decoded] at kind
    | infinite s => simp [nonzero, eq_infinity decoded]
    | finite s m d =>
      obtain ⟨-, own⟩ := ofScaled_decode usual.exponents decoded
      have product : ((m * n : Nat) * 2 ^ (d + e) : ℚ) = m * 2 ^ d := by
        push_cast
        rw [zpow_add₀ two_ne_zero, mul_mul_mul_comm, value, mul_one]
      simpa [own] using ofScaled_congr usual.fractions s product
  exact ⟨right, (mul_comm_number number x).trans right⟩

theorem div_unit (usual : f.IsUsual) (x : Binary f) (one : y.numEq (ofInt f 1) = true) :
    x.div y = x := by
  obtain ⟨n, e, unit, nonzero, value⟩ := exists_one usual one
  have number : y.isNaN = false := isNaN_of_decode (by simp [unit])
  rw [div, unit]
  refine passNaN_number number fun kind => ?_
  cases decoded : x.decode with
  | nan => simp [isNaN_iff.mpr decoded] at kind
  | infinite s => simp [eq_infinity decoded]
  | finite s m d =>
    obtain ⟨-, own⟩ := ofScaled_decode usual.exponents decoded
    have quotient : roundCode f (scaled m n (e - d)).1 (scaled m n (e - d)).2 =
        roundCode f (m <<< d.toNat) (1 <<< (-d).toNat) := by
      refine roundCode_congr usual.fractions (scaled_ne_zero nonzero m _)
        (shiftLeft_ne_zero Nat.one_ne_zero _) ?_
      rw [quotient_value, scaled_value, zpow_sub₀ two_ne_zero, div_mul_div_comm, value, div_one]
    simp only [nonzero, if_false, Bool.bne_false]
    rw [ofQuotient, quotient]
    exact own

theorem natAbs_units (s : Bool) (m : Nat) (e l : Int) : (units s m e l).natAbs = m <<< (e - l).toNat := by
  cases s with
  | false => exact Int.natAbs_natCast _
  | true => exact (Int.natAbs_neg _).trans (Int.natAbs_natCast _)

theorem units_sign (s : Bool) (m : Nat) (e l : Int) :
    (if units s m e l = 0 then s else decide (units s m e l < 0)) = s := by
  have size := natAbs_units s m e l
  split
  · rfl
  · cases s with
    | false =>
      rw [decide_eq_false_iff_not, units]
      exact not_lt.mpr (Int.natCast_nonneg _)
    | true =>
      rename_i nonzero
      rw [decide_eq_true_eq]
      simp only [units, if_true] at nonzero ⊢
      omega

/-- Positive zero taken away is negative zero added, which also keeps a negative zero. -/
theorem sub_positiveZero (usual : f.IsUsual) (x : Binary f) (positive : y.bits = 0) :
    x.sub y = x := by
  have place : 0 < f.signPlace := Nat.two_pow_pos _
  have finite : 0 < f.infinityCode := infinityCode_pos (by exact_mod_cast usual.exponents)
  have own : y = zero f false := by
    cases y
    simp only at positive
    simp [positive, zero, ofCode]
  have negated : y.neg.decode = .finite true 0 f.leastExponent := by
    rw [own, zero, neg_ofCode false place, Bool.not_false, decode_ofCode true finite,
      if_pos (hidden_pos f)]
  have number : y.isNaN = false := by
    rw [← isNaN_neg]
    exact isNaN_of_decode (by simp [negated])
  rw [sub, add, negated]
  refine passNaN_number number fun _ => ?_
  refine passNaN_number ((isNaN_neg y).trans number) fun kind => ?_
  cases decoded : x.decode with
  | nan => simp [isNaN_iff.mpr decoded] at kind
  | infinite s => rfl
  | finite s m d =>
    obtain ⟨-, same⟩ := ofScaled_decode usual.exponents decoded
    generalize lower : (if d < f.leastExponent then d else f.leastExponent) = least
    obtain ⟨k, rfl⟩ : ∃ k : Nat, least = d - k :=
      ⟨(d - least).toNat, by split at lower <;> omega⟩
    have zero : units true 0 f.leastExponent (d - k) = 0 := by simp [units]
    have shift : (d - (d - k)).toNat = k := by omega
    simp only [lower, zero, add_zero, Bool.and_true, units_sign, natAbs_units, shift]
    rw [ofScaled_shiftLeft, same]

end Binary

/-! Constants. -/

variable {v w v' w' : Value} {p q t : Primitive}

namespace Value

theorem same_float {x y : Binary32} : (Value.float x).Same (.float y) ↔ Binary.Same x y := by
  simp [Same, same, Binary.Same]

theorem same_double {x y : Binary64} : (Value.double x).Same (.double y) ↔ Binary.Same x y := by
  simp [Same, same, Binary.Same]

theorem Same.symm (alike : v.Same w) : w.Same v := by
  rw [same_iff] at *
  rcases alike with rfl | ⟨x, y, rfl, rfl, left, right⟩ | ⟨x, y, rfl, rfl, left, right⟩
  · exact .inl rfl
  · exact .inr (.inl ⟨y, x, rfl, rfl, right, left⟩)
  · exact .inr (.inr ⟨y, x, rfl, rfl, right, left⟩)

theorem rel_same_symm {x y : Option Value} (related : Option.Rel Same x y) : Option.Rel Same y x := by
  cases related with
  | none => exact .none
  | some alike => exact .some alike.symm

theorem rel_same_trans {x y z : Option Value} (first : Option.Rel Same x y)
    (second : Option.Rel Same y z) : Option.Rel Same x z :=
  rel_trans (R := Same) (fun _ _ _ => Same.trans) first second

end Value

namespace Reference

/-- The reference converts as the passes do, but takes `float` through double precision. -/
theorem cast_same (v : Value) (p : Primitive) : Option.Rel Value.Same (cast v p) (v.convert p) := by
  have ofReal (x : Binary64) : cast.ofReal p x = Value.ofReal? x p := by
    cases p <;> simp only [cast.ofReal, Value.ofReal?, Value.reference_ofInteger]
    rfl
  have reflexive {x y : Option Value} (same : x = y) : Option.Rel Value.Same x y :=
    same ▸ rel_refl Value.same_refl x
  cases v with
  | null | string => cases p <;> exact .none
  | bool b => cases p <;> first | exact .none | exact .some (Value.same_refl _)
  | float x =>
    by_cases float : p = .float
    · subst float
      exact .some (Value.same_float.mpr (Binary.same_narrow_widen x))
    · rw [Value.convert_float x float]
      exact reflexive (ofReal x.widen)
  | double x => exact reflexive (ofReal x)
  | char | byte | short | int | long =>
    apply reflexive
    cases p <;> simp only [cast, integer?, Value.reference_ofInteger] <;> rfl

theorem cast_congr (alike : v.Same w) (p : Primitive) :
    Option.Rel Value.Same (cast v p) (cast w p) :=
  Value.rel_same_trans (cast_same v p)
    (Value.rel_same_trans (alike.convert p) (Value.rel_same_symm (cast_same w p)))

/-- The same outcome, so far as NaN patterns are not told apart. -/
inductive Outcome.Same : Outcome → Outcome → Prop where
  | value {v w : Value} (same : v.Same w) : Outcome.Same (.value v) (.value w)
  | divisionByZero : Outcome.Same .divisionByZero .divisionByZero

namespace Outcome.Same

theorem refl (outcome : Outcome) : Outcome.Same outcome outcome := by
  cases outcome with
  | value v => exact .value (Value.same_refl v)
  | divisionByZero => exact .divisionByZero

theorem trans {a b c : Outcome} (first : Outcome.Same a b) (second : Outcome.Same b c) :
    Outcome.Same a c := by
  cases first with
  | value first =>
    cases second with
    | value second => exact .value (first.trans second)
  | divisionByZero => exact second

end Outcome.Same

/-! Operators of the reference. -/

theorem onReals_congr {make : Binary f → Value} {a b a' b' : Binary f}
    (keeps : ∀ {x y}, Binary.Same x y → (make x).Same (make y)) (left : Binary.Same a a')
    (right : Binary.Same b b') :
    Option.Rel Outcome.Same (onReals op make a b) (onReals op make a' b') := by
  rw [onReals, onReals, left.compare right]
  cases comparison? op (a'.compare? b') with
  | some holds => exact .some (.refl _)
  | none =>
    have computed := left.floating op right
    generalize floating? op a b = x, floating? op a' b' = y at computed
    cases computed with
    | none => exact .none
    | some same => exact .some (.value (keeps same))

end Reference

/-- The constants of the type are the numbers of a format, and the reference computes with these. -/
structure Primitive.IsFormat (t : Primitive) (f : Format) (make : Binary f → Value) : Prop where
  usual : f.IsUsual
  exists_make : ∀ {x : Value}, x.primitive? = some t → ∃ a, x = make a
  same : ∀ {a b}, (make a).Same (make b) ↔ Binary.Same a b
  numeric : ∀ {op v w a b}, Reference.cast v t = some (make a) → Reference.cast w t = some (make b) →
    Reference.numeric? op t v w = Reference.onReals op make a b
  isOne : ∀ a, (make a).isOne = a.numEq (Binary.ofInt f 1)
  isPositiveZero : ∀ a, (make a).isPositiveZero = decide (a.bits = 0)

namespace Primitive

theorem float_isFormat : float.IsFormat Format.single Value.float where
  usual := Format.single_isUsual
  exists_make {x} typed := by
    cases x <;> cases typed
    exact ⟨_, rfl⟩
  same := Value.same_float
  numeric left right := by
    simp only [Reference.numeric?, left, right]
    rfl
  isOne _ := rfl
  isPositiveZero _ := rfl

theorem double_isFormat : double.IsFormat Format.double Value.double where
  usual := Format.double_isUsual
  exists_make {x} typed := by
    cases x <;> cases typed
    exact ⟨_, rfl⟩
  same := Value.same_double
  numeric left right := by
    simp only [Reference.numeric?, left, right]
    rfl
  isOne _ := rfl
  isPositiveZero _ := rfl

theorem exists_format (floating : t = .float ∨ t = .double) :
    t.isNumeric ∧ ∃ (f : Format) (make : Binary f → Value), t.IsFormat f make := by
  rcases floating with rfl | rfl
  · exact ⟨rfl, _, _, float_isFormat⟩
  · exact ⟨rfl, _, _, double_isFormat⟩

end Primitive

namespace Reference

/-- Constants that are converted alike are converted to numbers of the format. -/
theorem exists_numbers {make : Binary f → Value} (format : t.IsFormat f make) (target : t.isNumeric)
    (typed : v.primitive? = some p) (numeric : p.isNumeric)
    (related : Option.Rel Value.Same (cast v t) (cast v' t)) :
    ∃ a a', cast v t = some (make a) ∧ cast v' t = some (make a') ∧ Binary.Same a a' := by
  obtain ⟨x, made, kind⟩ := exists_cast typed (.inr ⟨numeric, target⟩)
  obtain ⟨a, rfl⟩ := format.exists_make kind
  rw [made] at related
  cases made' : cast v' t with
  | none => simp [made'] at related
  | some y =>
    rw [made'] at related
    cases related with
    | some alike =>
      obtain ⟨a', rfl⟩ := format.exists_make (alike.primitive.symm.trans kind)
      exact ⟨a, a', made, rfl, format.same.mp alike⟩

/-- The numbers that are combined are the operands converted to the type of the operation. -/
theorem numeric?_congr (floating : t = .float ∨ t = .double) (leftTyped : v.primitive? = some p)
    (rightTyped : w.primitive? = some q) (numeric : p.isNumeric ∧ q.isNumeric)
    (left : Option.Rel Value.Same (cast v t) (cast v' t))
    (right : Option.Rel Value.Same (cast w t) (cast w' t)) :
    Option.Rel Outcome.Same (numeric? op t v w) (numeric? op t v' w') := by
  obtain ⟨target, f, make, format⟩ := Primitive.exists_format floating
  obtain ⟨a, a', made, made', same⟩ := exists_numbers format target leftTyped numeric.1 left
  obtain ⟨b, b', other, other', alike⟩ := exists_numbers format target rightTyped numeric.2 right
  rw [format.numeric made other, format.numeric made' other']
  exact onReals_congr format.same.mpr same alike

/-- Two numbers of a format are combined as they are. -/
theorem binary?_format {make : Binary f → Value} {x y : Value} {a b : Binary f}
    (format : t.IsFormat f make) (floating : t = .float ∨ t = .double)
    (left : x.primitive? = some t) (right : y.primitive? = some t) (isLeft : x = make a)
    (isRight : y = make b) (noShift : op.isShift = false) :
    Option.Rel Outcome.Same (binary? op x y) (onReals op make a b) := by
  have numeric : Ty.binaryNumeric? (.primitive t) (.primitive t) = some (.primitive t) := by
    rcases floating with rfl | rfl <;> rfl
  have target := (Primitive.exists_format floating).1
  -- A conversion to the type that a constant has makes no difference.
  have own {x : Value} {a : Binary f} (typed : x.primitive? = some t) (is : x = make a) :
      ∃ a', cast x t = some (make a') ∧ Binary.Same a' a := by
    have related := cast_same x t
    rw [Value.convert_self typed] at related
    cases made : cast x t with
    | none => simp [made] at related
    | some y =>
      rw [made] at related
      cases related with
      | some alike =>
        obtain ⟨a', rfl⟩ := format.exists_make (alike.primitive.trans typed)
        exact ⟨a', rfl, format.same.mp (is ▸ alike)⟩
  obtain ⟨a', made, sameLeft⟩ := own left isLeft
  obtain ⟨b', other, sameRight⟩ := own right isRight
  rw [binary?_numeric left right numeric noShift, format.numeric made other]
  exact onReals_congr format.same.mpr sameLeft sameRight

end Reference

namespace Java

/-- A typed operator has exact operands, or combines its operands in `float` or `double`. -/
theorem exact_or_real {type : Ty} (typed : binaryTy? op (.primitive p) (.primitive q) = some type) :
    (p.isExact ∧ q.isExact) ∨
      (op.isShift = false ∧ (p.isNumeric ∧ q.isNumeric) ∧
        ∃ t, Ty.binaryNumeric? (.primitive p) (.primitive q) = some (.primitive t) ∧
          (t = .float ∨ t = .double)) := by
  have exact {p : Primitive} (integral : p.isIntegral) : p.isExact := by
    cases p <;> first | rfl | cases integral
  by_cases shift : op.isShift
  · have operands : (Ty.shiftOperands? (.primitive p) (.primitive q)).map Prod.fst = some type := by
      cases op <;> first | contradiction | exact typed
    left
    cases p <;> cases q <;> first | exact ⟨rfl, rfl⟩ | cases operands
  cases numeric : Ty.binaryNumeric? (.primitive p) (.primitive q) with
  | some promoted =>
    obtain ⟨_, _, -, -, rfl⟩ := Ty.binaryNumeric?_eq_some numeric
    rcases promoted_cases numeric with ⟨left, right, -⟩ | ⟨numbers, floating⟩
    · exact .inl ⟨exact left, exact right⟩
    · exact .inr ⟨by simpa using shift, numbers, _, rfl, floating⟩
  | none =>
    have logical : (Ty.primitive p).isBoolean ∧ (Ty.primitive q).isBoolean := by
      cases op <;> simp [binaryTy?, isComparable, numeric, Ty.isPrimitive] at typed shift
      all_goals first | exact typed.1 | cases shift
    obtain ⟨rfl, rfl⟩ : p = .boolean ∧ q = .boolean := by
      simpa [Ty.isBoolean, Ty.unboxed?] using logical
    exact .inl ⟨rfl, rfl⟩

end Java

/-! Operators on promoted constants. -/

namespace Binary

/-- Arithmetic in double precision, rounded to single precision, is that in single precision. -/
theorem narrow_floating (op : BinaryOp) (a b : Binary32) :
    Option.Rel Same ((Reference.floating? op a.widen b.widen).map narrow)
      (Reference.floating? op a b) := by
  cases op with
  | plus => exact .some (narrow_add a b)
  | minus => exact .some (narrow_sub a b)
  | mul => exact .some (narrow_mul a b)
  | div => exact .some (narrow_div a b)
  | mod => exact .some (narrow_rem a b)
  | or | and | bitOr | bitXor | bitAnd | eq | ne | lt | gt | le | ge | shl | shr | ushr
  | instanceOf => exact .none

end Binary

namespace BinaryOp

variable {x y : Value} {a b : Binary64}

theorem apply_comparison_real {holds : Bool} (floating : t = .float ∨ t = .double)
    (left : x.real? = some a) (right : y.real? = some b)
    (compared : Reference.comparison? op (a.compare? b) = some holds) :
    op.apply (.primitive t) x y = some (.bool holds) := by
  have type : (Ty.primitive t).isIntegral = false ∧ (Ty.primitive t).isFloating = true := by
    rcases floating with rfl | rfl <;> exact ⟨rfl, rfl⟩
  have equal : Value.equals (.primitive t) x y = some (a.numEq b) := by
    rw [Value.equals]
    · simp only [type, left, right, Bool.false_eq_true, if_false, if_true]
    · rintro rfl
      cases left
    · rintro rfl
      cases right
  have swap := Binary.compare?_swap a b
  cases op <;> cases compared
  all_goals
    simp only [apply, equal, Value.relational, type, left, right, Bool.false_eq_true, if_false,
      if_true, Option.map_some, Binary.numLe, Binary.numLt, Binary.numEq, swap]
  case ne | gt | ge => rcases a.compare? b with _ | (_ | _ | _) <;> rfl

theorem apply_arithmetic_real (floating : t = .float ∨ t = .double) (left : x.real? = some a)
    (right : y.real? = some b) (noShift : op.isShift = false)
    (noComparison : ∀ order, Reference.comparison? op order = none) :
    op.apply (.primitive t) x y =
      (Reference.floating? op a b).bind fun c => (Value.double c).convert t := by
  have computed (op : BinaryOp) : Value.arithmetic op t x y =
      (Value.floatingArithmetic op a b).bind fun c => (Value.double c).convert t := by
    rcases floating with rfl | rfl <;> simp only [Value.arithmetic, left, right] <;> rfl
  have noTruth : x.bool? = none := by cases x <;> first | rfl | cases left
  cases op with
  | and | or => simp only [apply, noTruth, Option.bind_none, Reference.floating?]
  | eq | ne | lt | le | gt | ge => cases noComparison none
  | shl | shr | ushr => cases noShift
  | instanceOf => rfl
  | plus | minus | mul | div | mod | bitAnd | bitOr | bitXor => exact computed _

theorem comparison?_total (op : BinaryOp) :
    (∀ order, Reference.comparison? op order = none) ∨
      ∀ order, ∃ holds, Reference.comparison? op order = some holds := by
  cases op <;> first | exact .inl fun _ => rfl | exact .inr fun _ => ⟨_, rfl⟩

/-- Operators on `float` and `double` constants compute what the reference does. -/
theorem apply_real (floating : t = .float ∨ t = .double) (left : x.primitive? = some t)
    (right : y.primitive? = some t) (noShift : op.isShift = false) :
    Option.Rel Reference.Outcome.Same (Reference.binary? op x y)
      ((op.apply (.primitive t) x y).map .value) := by
  rcases floating with rfl | rfl
  · obtain ⟨a, rfl⟩ := Primitive.float_isFormat.exists_make left
    obtain ⟨b, rfl⟩ := Primitive.float_isFormat.exists_make right
    refine rel_trans (R := Reference.Outcome.Same) (fun _ _ _ => .trans)
      (Reference.binary?_format Primitive.float_isFormat (.inl rfl) left right rfl rfl noShift) ?_
    rw [Reference.onReals]
    rcases comparison?_total op with none | total
    · rw [apply_arithmetic_real (.inl rfl) rfl rfl noShift none, none]
      have computed := Binary.narrow_floating op a b
      generalize Reference.floating? op a.widen b.widen = c, Reference.floating? op a b = c' at computed ⊢
      cases c with
      | none =>
        cases computed
        exact .none
      | some c =>
        cases computed with
        | some same => exact .some (.value (Value.same_float.mpr same.symm))
    · obtain ⟨holds, compared⟩ := total (a.compare? b)
      rw [apply_comparison_real (.inl rfl) rfl rfl
        ((congrArg _ (Binary.compare?_widen a b)).trans compared), compared]
      exact .some (.refl _)
  · obtain ⟨a, rfl⟩ := Primitive.double_isFormat.exists_make left
    obtain ⟨b, rfl⟩ := Primitive.double_isFormat.exists_make right
    refine rel_trans (R := Reference.Outcome.Same) (fun _ _ _ => .trans)
      (Reference.binary?_format Primitive.double_isFormat (.inr rfl) left right rfl rfl noShift) ?_
    rw [Reference.onReals]
    rcases comparison?_total op with none | total
    · rw [apply_arithmetic_real (.inr rfl) rfl rfl noShift none, none]
      cases Reference.floating? op a b with
      | none => exact .none
      | some c => exact .some (.refl _)
    · obtain ⟨holds, compared⟩ := total (a.compare? b)
      rw [apply_comparison_real (.inr rfl) rfl rfl compared, compared]
      exact .some (.refl _)

end BinaryOp

end ConstFold
