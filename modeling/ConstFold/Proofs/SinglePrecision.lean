import ConstFold.Proofs.DoubleRounding
import ConstFold.Proofs.LosslessConversions

/-! Arithmetic and comparison of single-precision numbers in double precision. After it has been
rounded to single precision, the result is the one that single precision has, apart from the pattern
of a NaN. -/
namespace ConstFold.Binary

variable {f : Format} {s t : Bool} {m n : Nat} {d e : Int} {x y : Binary32}

/-- The same number, so far as NaN patterns are not told apart. -/
def Same (x y : Binary f) : Prop := x = y ∨ (x.isNaN = true ∧ y.isNaN = true)

theorem Same.refl (x : Binary f) : Same x x := .inl rfl

theorem Same.nan {x y : Binary f} (left : x.isNaN = true) (right : y.isNaN = true) : Same x y :=
  .inr ⟨left, right⟩

/-! Widening. -/

theorem isNaN_of_decode {x : Binary f} (decoded : x.decode ≠ .nan) : x.isNaN = false := by
  rw [← Bool.not_eq_true]
  exact fun nan => decoded (isNaN_iff.mp nan)

theorem widen_infinite (decoded : x.decode = .infinite s) : x.widen.decode = .infinite s := by
  rw [widen, toFormat, decoded]
  exact decode_infinity s

/-- A finite number is widened to the same number, with a longer significand. -/
theorem widen_finite (decoded : x.decode = .finite s m e) :
    Fits Format.single m e ∧ ∃ k : Nat, x.widen.decode = .finite s (m <<< k) (e - k) := by
  obtain ⟨fits, -⟩ := ofScaled_decode (by decide) decoded
  refine ⟨fits, ?_⟩
  rw [widen, toFormat_finite decoded]
  exact decode_ofScaled fits.double s

/-- How a number other than NaN and its widened form are decoded. -/
inductive Widens : Datum → Datum → Prop where
  | infinite (s : Bool) : Widens (.infinite s) (.infinite s)
  | finite (s : Bool) {m : Nat} {e : Int} (fits : Fits Format.single m e) (k : Nat) :
    Widens (.finite s m e) (.finite s (m <<< k) (e - k))

theorem decode_widen (number : x.isNaN = false) : Widens x.decode x.widen.decode := by
  cases decoded : x.decode with
  | nan => simp [isNaN_iff.mpr decoded] at number
  | infinite s =>
    rw [widen_infinite decoded]
    exact .infinite s
  | finite s m e =>
    obtain ⟨fits, k, wide⟩ := widen_finite decoded
    rw [wide]
    exact .finite s fits k

theorem isNaN_widen (x : Binary32) : x.widen.isNaN = x.isNaN := by
  cases kind : x.isNaN with
  | true => exact Value.widen_nan kind
  | false =>
    have widened := decode_widen kind
    refine isNaN_of_decode fun nan => ?_
    rw [nan] at widened
    generalize x.decode = a at widened
    cases widened

theorem same_narrow_widen (x : Binary32) : Same x.widen.narrow x :=
  (narrow_widen x).imp_right And.symm

theorem narrow_infinity (s : Bool) : (infinity Format.double s).narrow = infinity Format.single s := by
  rw [narrow, toFormat, decode_infinity]

theorem narrow_ofScaled (fits : Fits Format.double m e) (s : Bool) :
    (ofScaled Format.double s m e).narrow = ofScaled Format.single s m e :=
  toFormat_ofScaled fits s

theorem narrow_zero (s : Bool) : (zero Format.double s).narrow = zero Format.single s := by
  have fits : Fits Format.double 0 0 := fits_double_iff.mpr (by decide)
  exact narrow_ofScaled fits s

theorem same_narrow_invalid : Same (invalid Format.double).narrow (invalid Format.single) :=
  .nan (by decide) (by decide)

/-- A NaN operand is passed on in either precision. -/
theorem same_passNaN {wide : Binary64} {own : Binary32}
    (same : x.isNaN = false → y.isNaN = false → Same wide.narrow own) :
    Same (passNaN x.widen y.widen wide).narrow (passNaN x y own) := by
  rw [passNaN, passNaN, isNaN_widen, isNaN_widen]
  cases left : x.isNaN with
  | true => exact .nan (Value.narrow_nan (Value.widen_nan left)) left
  | false =>
    cases right : y.isNaN with
    | true => exact .nan (Value.narrow_nan (Value.widen_nan right)) right
    | false => exact same left right

/-! Sums. -/

theorem units_shiftLeft (s : Bool) (m k : Nat) {l : Int} (below : l ≤ e - k) :
    units s (m <<< k) (e - k) l = units s m e l := by
  have shift : k + (e - k - l).toNat = (e - l).toNat := by omega
  simp only [units, ← Nat.shiftLeft_add, shift]

theorem units_lower (s : Bool) (m j : Nat) {l : Int} (below : l ≤ e) :
    units s m e (l - j) = units s m e l * (Nat.pow 2 j : Nat) := by
  have shift : (e - (l - j)).toNat = (e - l).toNat + j := by omega
  have cast : ((m <<< (e - l).toNat <<< j : Nat) : Int) =
      (m <<< (e - l).toNat : Nat) * (Nat.pow 2 j : Nat) := by
    rw [Nat.shiftLeft_eq _ j]
    exact Int.natCast_mul _ _
  simp only [units, shift, Nat.shiftLeft_add, cast]
  split
  · exact (Int.neg_mul _ _).symm
  · rfl

/-- Both numbers in units of the finer of their last places. -/
theorem exists_units (s t : Bool) (m n : Nat) (d e : Int) (k l : Nat) :
    ∃ j : Nat, (if d - k < e - l then d - k else e - l) = (if d < e then d else e) - j ∧
      units s (m <<< k) (d - k) (if d - k < e - l then d - k else e - l) =
        units s m d (if d < e then d else e) * (Nat.pow 2 j : Nat) ∧
      units t (n <<< l) (e - l) (if d - k < e - l then d - k else e - l) =
        units t n e (if d < e then d else e) * (Nat.pow 2 j : Nat) := by
  generalize fine : (if d - k < e - l then d - k else e - l) = low
  generalize coarse : (if d < e then d else e) = least
  have lowLeft : low ≤ d - k := by split at fine <;> omega
  have lowRight : low ≤ e - l := by split at fine <;> omega
  have leastLeft : least ≤ d := by split at coarse <;> omega
  have leastRight : least ≤ e := by split at coarse <;> omega
  have order : low ≤ least := by split at coarse <;> omega
  have place : low = least - ((least - low).toNat : Nat) := by omega
  refine ⟨(least - low).toNat, place, ?_, ?_⟩
  · rw [units_shiftLeft s m k lowLeft]
    conv_lhs => rw [place]
    exact units_lower s m _ leastLeft
  · rw [units_shiftLeft t n l lowRight]
    conv_lhs => rw [place]
    exact units_lower t n _ leastRight

/-- The rounded sum of two finite numbers. -/
def roundedSum (f : Format) (s t : Bool) (m n : Nat) (d e : Int) : Binary f :=
  let least := if d < e then d else e
  let sum := units s m d least + units t n e least
  ofScaled f (if sum = 0 then s && t else sum < 0) sum.natAbs least

theorem roundedSum_shiftLeft (k l : Nat) :
    roundedSum f s t (m <<< k) (n <<< l) (d - k) (e - l) = roundedSum f s t m n d e := by
  obtain ⟨j, place, left, right⟩ := exists_units s t m n d e k l
  have positive : (0 : Int) < (Nat.pow 2 j : Nat) := by exact_mod_cast Nat.two_pow_pos j
  simp only [roundedSum]
  rw [left, right, place, ← Int.add_mul]
  generalize units s m d _ + units t n e _ = sum
  have size : (sum * (Nat.pow 2 j : Nat)).natAbs = sum.natAbs <<< j := by
    rw [Int.natAbs_mul, Int.natAbs_natCast, Nat.shiftLeft_eq]
    rfl
  have none : sum * (Nat.pow 2 j : Nat) = 0 ↔ sum = 0 := by
    rw [Int.mul_eq_zero]
    exact or_iff_left positive.ne'
  have negative : sum * (Nat.pow 2 j : Nat) < 0 ↔ sum < 0 := by
    rw [← Int.not_le, ← Int.not_le, Int.mul_nonneg_iff_of_pos_right positive]
  simp only [size, none, negative, ofScaled_shiftLeft]

theorem narrow_roundedSum (left : Fits Format.single m d) (right : Fits Format.single n e) :
    (roundedSum Format.double s t m n d e).narrow = roundedSum Format.single s t m n d e := by
  rw [fits_single_iff] at left right
  rw [roundedSum, roundedSum]
  generalize sign : (if _ = (0 : Int) then s && t else _) = negative
  generalize total : units s m d _ + units t n e _ = sum
  rcases Nat.lt_or_ge sum.natAbs 9007199254740992 with small | large
  · refine narrow_ofScaled (fits_double_iff.mpr ⟨small, ?_⟩) _
    split <;> omega
  · refine narrow_ofQuotient _ (shiftLeft_ne_zero Nat.one_ne_zero _) fun c finite near => ?_
    obtain ⟨a, i, point, odd, bound, -, -, full⟩ := exists_halfway finite
    rw [scaled_value, point] at near
    exfalso
    revert near
    -- The number with the finer last place is the small one.
    by_cases order : d < e
    · simp only [order, if_true, units, Int.sub_self, Int.toNat_zero, Nat.shiftLeft_zero] at total ⊢
      refine sum_apart (k := (e - d).toNat) large right.1 left.1 ?_ ?_ left.2.1 odd bound full
      all_goals
        revert total
        generalize n <<< (e - d).toNat = shifted
        cases s <;> cases t <;> simp only [if_true, if_false, Bool.false_eq_true] <;> omega
    · simp only [order, if_false, units, Int.sub_self, Int.toNat_zero, Nat.shiftLeft_zero] at total ⊢
      refine sum_apart (k := (d - e).toNat) large left.1 right.1 ?_ ?_ right.2.1 odd bound full
      all_goals
        revert total
        generalize m <<< (d - e).toNat = shifted
        cases s <;> cases t <;> simp only [if_true, if_false, Bool.false_eq_true] <;> omega

theorem narrow_add (x y : Binary32) : Same (x.widen.add y.widen).narrow (x.add y) := by
  rw [add, add]
  refine same_passNaN fun left right => ?_
  have wideX := decode_widen left
  have wideY := decode_widen right
  generalize x.decode = a, x.widen.decode = a', y.decode = b, y.widen.decode = b' at wideX wideY ⊢
  cases wideX with
  | infinite s =>
    cases wideY with
    | infinite t =>
      dsimp only
      split
      · exact same_narrow_widen x
      · exact same_narrow_invalid
    | finite t fitsY l => exact same_narrow_widen x
  | finite s fitsX k =>
    cases wideY with
    | infinite t => exact same_narrow_widen y
    | finite t fitsY l =>
      left
      exact (congrArg narrow (roundedSum_shiftLeft k l)).trans (narrow_roundedSum fitsX fitsY)

/-! Differences. -/

theorem neg_ofCode (s : Bool) {c : Nat} (bound : c < f.signPlace) :
    (ofCode f s c).neg = ofCode f (!s) c := by
  rw [neg, code_ofCode s bound, negative_ofCode s bound]

theorem neg_ofScaled (s : Bool) (m : Nat) (e : Int) : (ofScaled f s m e).neg = ofScaled f (!s) m e :=
  neg_ofCode s (Nat.lt_of_le_of_lt (roundCode_le_infinityCode f _ _) (infinityCode_lt f))

theorem isNaN_neg (x : Binary f) : x.neg.isNaN = x.isNaN := by
  rw [isNaN, neg, code_ofCode _ (code_lt x), isNaN]

theorem widen_neg (number : x.isNaN = false) : x.neg.widen = x.widen.neg := by
  cases decoded : x.decode with
  | nan => simp [isNaN_iff.mpr decoded] at number
  | infinite s =>
    have negated : x.neg = infinity Format.single (!s) := by
      rw [eq_infinity decoded]
      exact neg_ofCode s (infinityCode_lt _)
    rw [negated, eq_infinity (widen_infinite decoded), widen, toFormat, decode_infinity]
    exact (neg_ofCode s (infinityCode_lt _)).symm
  | finite s m e =>
    obtain ⟨fits, same⟩ := ofScaled_decode (by decide) decoded
    have negated : x.neg = ofScaled Format.single (!s) m e := by rw [← same, neg_ofScaled]
    rw [negated, widen, widen, toFormat_ofScaled fits, toFormat_finite decoded, neg_ofScaled]

theorem narrow_sub (x y : Binary32) : Same (x.widen.sub y.widen).narrow (x.sub y) := by
  rw [sub, sub]
  refine same_passNaN fun left right => ?_
  rw [← widen_neg right]
  exact narrow_add x y.neg

/-! Products. -/

/-- Scaled significands of one value are rounded alike. -/
theorem ofScaled_congr (wide : 0 < f.fractionBits) (s : Bool) (same : (m * 2 ^ d : ℚ) = n * 2 ^ e) :
    ofScaled f s m d = ofScaled f s n e := by
  rw [ofScaled, ofScaled, ofQuotient, ofQuotient]
  congr 1
  refine roundCode_congr wide (shiftLeft_ne_zero Nat.one_ne_zero _)
    (shiftLeft_ne_zero Nat.one_ne_zero _) ?_
  rw [scaled_value, scaled_value, same]

theorem shiftLeft_value (m k : Nat) (e : Int) : ((m <<< k : Nat) * 2 ^ (e - k) : ℚ) = m * 2 ^ e := by
  rw [cast_shiftLeft, mul_assoc, ← zpow_add₀ two_ne_zero, add_sub_cancel]

theorem narrow_mul (x y : Binary32) : Same (x.widen.mul y.widen).narrow (x.mul y) := by
  rw [mul, mul]
  refine same_passNaN fun left right => ?_
  have wideX := decode_widen left
  have wideY := decode_widen right
  generalize x.decode = a, x.widen.decode = a', y.decode = b, y.widen.decode = b' at wideX wideY ⊢
  cases wideX with
  | infinite s =>
    cases wideY with
    | infinite t => exact .inl (narrow_infinity _)
    | finite t fitsY l =>
      simp only [Nat.shiftLeft_eq_zero_iff]
      split
      · exact same_narrow_invalid
      · exact .inl (narrow_infinity _)
  | @finite s m d fitsX k =>
    cases wideY with
    | infinite t =>
      simp only [Nat.shiftLeft_eq_zero_iff]
      split
      · exact same_narrow_invalid
      · exact .inl (narrow_infinity _)
    | @finite t n e fitsY l =>
      have value : (((m <<< k) * (n <<< l) : Nat) * 2 ^ (d - k + (e - l)) : ℚ) =
          (m * n : Nat) * 2 ^ (d + e) := by
        have left := shiftLeft_value m k d
        have right := shiftLeft_value n l e
        push_cast
        rw [zpow_add₀ two_ne_zero, zpow_add₀ two_ne_zero, mul_mul_mul_comm, left, right,
          mul_mul_mul_comm]
      dsimp only
      rw [ofScaled_congr (by decide) _ value]
      -- A product of significands has at most twice as many bits, so that it is exact.
      rw [fits_single_iff] at fitsX fitsY
      have small : m * n ≤ 16777215 * 16777215 := Nat.mul_le_mul (by omega) (by omega)
      exact .inl (narrow_ofScaled (fits_double_iff.mpr ⟨by omega, by omega, by omega⟩) _)

/-! Quotients. -/

theorem quotient_value (m n : Nat) (d e : Int) :
    ((scaled m n (e - d)).1 / (scaled m n (e - d)).2 : ℚ) = m / n * 2 ^ (d - e) := by
  rw [scaled, scaled_quotient, ← Int.neg_sub d e, zpow_neg, div_inv_eq_mul]

theorem scaled_ne_zero (positive : n ≠ 0) (m : Nat) (e : Int) : (scaled m n e).2 ≠ 0 :=
  shiftLeft_ne_zero positive _

theorem narrow_quotient (left : Fits Format.single m d) (right : Fits Format.single n e)
    (positive : n ≠ 0) (k l : Nat) (s : Bool) :
    (ofQuotient Format.double s (scaled (m <<< k) (n <<< l) (e - l - (d - k))).1
        (scaled (m <<< k) (n <<< l) (e - l - (d - k))).2).narrow =
      ofQuotient Format.single s (scaled m n (e - d)).1 (scaled m n (e - d)).2 := by
  have value : ((scaled (m <<< k) (n <<< l) (e - l - (d - k))).1 /
      (scaled (m <<< k) (n <<< l) (e - l - (d - k))).2 : ℚ) = m / n * 2 ^ (d - e) := by
    rw [quotient_value, zpow_sub₀ two_ne_zero, div_mul_div_comm, shiftLeft_value, shiftLeft_value,
      zpow_sub₀ two_ne_zero, div_mul_div_comm]
  have denominator := scaled_ne_zero (shiftLeft_ne_zero positive l) (m <<< k) (e - l - (d - k))
  rw [narrow_ofQuotient s denominator, ofQuotient, ofQuotient]
  · congr 1
    refine roundCode_congr (by decide) denominator (scaled_ne_zero positive m _) ?_
    rw [value, quotient_value]
  · intro c finite near
    obtain ⟨a, i, point, -, small, -⟩ := exists_halfway finite
    rw [fits_single_iff] at left right
    rw [value, point] at near ⊢
    exact quotient_apart left.1 positive right.1 small near

theorem narrow_div (x y : Binary32) : Same (x.widen.div y.widen).narrow (x.div y) := by
  rw [div, div]
  refine same_passNaN fun left right => ?_
  have wideX := decode_widen left
  have wideY := decode_widen right
  generalize x.decode = a, x.widen.decode = a', y.decode = b, y.widen.decode = b' at wideX wideY ⊢
  cases wideX with
  | infinite s =>
    cases wideY with
    | infinite t => exact same_narrow_invalid
    | finite t fitsY l => exact .inl (narrow_infinity _)
  | finite s fitsX k =>
    cases wideY with
    | infinite t => exact .inl (narrow_zero _)
    | @finite t n e fitsY l =>
      simp only [Nat.shiftLeft_eq_zero_iff]
      by_cases zero : n = 0
      · simp only [zero, if_true]
        split
        · exact same_narrow_invalid
        · exact .inl (narrow_infinity _)
      · simp only [zero, if_false]
        exact .inl (narrow_quotient fitsX fitsY zero k l _)

/-! Remainders. -/

/-- The remainder of two finite numbers. -/
def exactRemainder (f : Format) (s : Bool) (m n : Nat) (d e : Int) : Binary f :=
  let least := if d < e then d else e
  ofScaled f s ((m <<< (d - least).toNat) % (n <<< (e - least).toNat)) least

theorem exactRemainder_shiftLeft (k l : Nat) :
    exactRemainder f s (m <<< k) (n <<< l) (d - k) (e - l) = exactRemainder f s m n d e := by
  obtain ⟨j, place, left, right⟩ := exists_units false false m n d e k l
  simp only [units, Bool.false_eq_true, if_false] at left right
  norm_cast at left right
  simp only [exactRemainder]
  rw [left, right, place, Nat.mul_mod_mul_right]
  exact (congrArg (ofScaled f s · _) (Nat.shiftLeft_eq _ j).symm).trans (ofScaled_shiftLeft _ j _)

theorem narrow_exactRemainder (left : Fits Format.single m d) (right : Fits Format.single n e)
    (positive : n ≠ 0) :
    (exactRemainder Format.double s m n d e).narrow = exactRemainder Format.single s m n d e := by
  rw [fits_single_iff] at left right
  rw [exactRemainder, exactRemainder]
  refine narrow_ofScaled (fits_double_iff.mpr ?_) s
  -- It is smaller than the operand with the finer last place.
  by_cases order : d < e
  · simp only [order, if_true, Int.sub_self, Int.toNat_zero, Nat.shiftLeft_zero]
    have bound := Nat.mod_le m (n <<< (e - d).toNat)
    omega
  · simp only [order, if_false, Int.sub_self, Int.toNat_zero, Nat.shiftLeft_zero]
    have bound := Nat.mod_lt (m <<< (d - e).toNat) (Nat.pos_of_ne_zero positive)
    omega

theorem narrow_rem (x y : Binary32) : Same (x.widen.rem y.widen).narrow (x.rem y) := by
  rw [rem, rem]
  refine same_passNaN fun left right => ?_
  have wideX := decode_widen left
  have wideY := decode_widen right
  generalize x.decode = a, x.widen.decode = a', y.decode = b, y.widen.decode = b' at wideX wideY ⊢
  cases wideX with
  | infinite s => exact same_narrow_invalid
  | finite s fitsX k =>
    cases wideY with
    | infinite t => exact same_narrow_widen x
    | @finite t n e fitsY l =>
      simp only [Nat.shiftLeft_eq_zero_iff]
      by_cases zero : n = 0
      · simp only [zero, if_true]
        exact same_narrow_invalid
      · simp only [zero, if_false]
        left
        exact (congrArg narrow (exactRemainder_shiftLeft k l)).trans
          (narrow_exactRemainder fitsX fitsY zero)

/-! Comparison. -/

theorem compare_mul {a b c : Int} (positive : 0 < c) : compare (a * c) (b * c) = compare a b := by
  rcases lt_trichotomy a b with less | rfl | more
  · rw [compare_lt_iff_lt.mpr less, compare_lt_iff_lt]
    exact Int.mul_lt_mul_of_pos_right less positive
  · rw [compare_eq_iff_eq.mpr rfl, compare_eq_iff_eq.mpr rfl]
  · rw [compare_gt_iff_gt.mpr more, compare_gt_iff_gt]
    exact Int.mul_lt_mul_of_pos_right more positive

theorem compare?_nan {x y : Binary f} (nan : x.isNaN = true ∨ y.isNaN = true) :
    x.compare? y = none := by
  rw [compare?]
  rcases nan with nan | nan <;> simp only [isNaN_iff.mp nan]
  cases x.decode <;> rfl

theorem compare?_widen (x y : Binary32) : x.widen.compare? y.widen = x.compare? y := by
  by_cases nan : x.isNaN = true ∨ y.isNaN = true
  · rw [compare?_nan nan, compare?_nan (by rwa [isNaN_widen, isNaN_widen])]
  rw [not_or, Bool.not_eq_true, Bool.not_eq_true] at nan
  have wideX := decode_widen nan.1
  have wideY := decode_widen nan.2
  rw [compare?, compare?]
  generalize x.decode = a, x.widen.decode = a', y.decode = b, y.widen.decode = b' at wideX wideY ⊢
  cases wideX with
  | infinite s => cases wideY <;> rfl
  | @finite s m d fitsX k =>
    cases wideY with
    | infinite t => rfl
    | @finite t n e fitsY l =>
      obtain ⟨j, -, left, right⟩ := exists_units s t m n d e k l
      dsimp only
      rw [left, right, compare_mul (by exact_mod_cast Nat.two_pow_pos j)]

end ConstFold.Binary
