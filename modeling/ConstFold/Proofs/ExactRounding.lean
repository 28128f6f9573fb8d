import ConstFold.Binary
import Mathlib.Tactic.Common

/-! Rounding keeps the numbers that a format has. A significand may be shifted against its
exponent without changing what is rounded, a number that fits a format is encoded by a pattern
that stands for it, and so integers and single-precision numbers survive a stay in a wider
format. -/
namespace ConstFold

theorem shiftLeft_ne_zero {m : Nat} (positive : m ≠ 0) (k : Nat) : m <<< k ≠ 0 := by
  rw [Nat.shiftLeft_eq]
  exact Nat.mul_ne_zero positive (Nat.ne_of_gt (Nat.two_pow_pos k))

theorem log2_shiftLeft {m : Nat} (positive : m ≠ 0) (k : Nat) : (m <<< k).log2 = m.log2 + k := by
  rw [Nat.log2_eq_iff (shiftLeft_ne_zero positive k), Nat.shiftLeft_eq, Nat.pow_add,
    Nat.add_right_comm, Nat.pow_add]
  exact ⟨Nat.mul_le_mul_right _ (Nat.log2_self_le positive),
    Nat.mul_lt_mul_of_pos_right Nat.lt_log2_self (Nat.two_pow_pos k)⟩

theorem shiftLeft_comm (m j k : Nat) : m <<< j <<< k = m <<< k <<< j := by
  rw [← Nat.shiftLeft_add, ← Nat.shiftLeft_add, Nat.add_comm]

namespace Binary

variable {f g : Format} {s : Bool} {m n d : Nat} {e : Int}

/-! Fractions: what is rounded depends on the quotient only. -/

theorem nearestEven_mul (n d : Nat) {c : Nat} (positive : 0 < c) :
    nearestEven (n * c) (d * c) = nearestEven n d := by
  have less (a b : Nat) : 2 * (a * c) < b * c ↔ 2 * a < b := by
    rw [← Nat.mul_assoc, Nat.mul_lt_mul_right positive]
  have more (a b : Nat) : b * c < 2 * (a * c) ↔ b < 2 * a := by
    rw [← Nat.mul_assoc, Nat.mul_lt_mul_right positive]
  simp only [nearestEven, Nat.mul_div_mul_right _ _ positive, Nat.mul_mod_mul_right, less, more]

theorem nearestEven_exact (q : Nat) {d : Nat} (positive : 0 < d) : nearestEven (q * d) d = q := by
  simp only [nearestEven, Nat.mul_div_cancel _ positive, Nat.mul_mod_left, Nat.mul_zero, positive,
    if_true]

theorem floorLog2_shiftLeft (numerator : n ≠ 0) (denominator : d ≠ 0) (j : Nat) :
    floorLog2 (n <<< j) (d <<< j) = floorLog2 n d := by
  have less (a b : Nat) : n <<< j <<< a < d <<< j <<< b ↔ n <<< a < d <<< b := by
    rw [shiftLeft_comm n, shiftLeft_comm d, Nat.shiftLeft_eq _ j, Nat.shiftLeft_eq _ j,
      Nat.mul_lt_mul_right (Nat.two_pow_pos j)]
  simp only [floorLog2, log2_shiftLeft numerator, log2_shiftLeft denominator,
    Nat.add_sub_add_right, less]
  congr 1 <;> omega

/-- Exponent of the last place that `n / d` is rounded to. -/
def lastPlace (f : Format) (n d : Nat) : Int :=
  max f.leastExponent (floorLog2 n d - (f.fractionBits : Nat))

theorem roundCode_eq (positive : n ≠ 0) :
    roundCode f n d =
      min ((lastPlace f n d - f.leastExponent).toNat * f.hidden +
        nearestEven (n <<< (-lastPlace f n d).toNat) (d <<< (lastPlace f n d).toNat))
        f.infinityCode := by
  have place : (if floorLog2 n d - (f.fractionBits : Nat) < f.leastExponent then f.leastExponent
      else floorLog2 n d - (f.fractionBits : Nat)) = lastPlace f n d := by
    rw [lastPlace]
    split <;> omega
  rw [roundCode, if_neg positive]
  simp only [scaled, place]
  split <;> omega

theorem roundCode_shiftLeft (denominator : d ≠ 0) (j : Nat) :
    roundCode f (n <<< j) (d <<< j) = roundCode f n d := by
  by_cases zero : n = 0
  · subst zero
    simp [roundCode]
  · have nearest (a b : Nat) :
        nearestEven (n <<< j <<< a) (d <<< j <<< b) = nearestEven (n <<< a) (d <<< b) := by
      rw [shiftLeft_comm n, shiftLeft_comm d, Nat.shiftLeft_eq _ j, Nat.shiftLeft_eq _ j,
        nearestEven_mul _ _ (Nat.two_pow_pos j)]
    have place : lastPlace f (n <<< j) (d <<< j) = lastPlace f n d := by
      rw [lastPlace, floorLog2_shiftLeft zero denominator, lastPlace]
    rw [roundCode_eq zero, roundCode_eq (shiftLeft_ne_zero zero j), place, nearest]

/-- A significand shifted to the left with the exponent lowered is the same number. -/
theorem ofScaled_shiftLeft (m k : Nat) (e : Int) :
    ofScaled f s (m <<< k) (e - k) = ofScaled f s m e := by
  obtain ⟨j, up, down⟩ : ∃ j, k + (e - k).toNat = e.toNat + j ∧ (-(e - k)).toNat = (-e).toNat + j :=
    ⟨(-(e - k)).toNat - (-e).toNat, by omega, by omega⟩
  rw [ofScaled, ofScaled, ofQuotient, ofQuotient, ← Nat.shiftLeft_add, up, down, Nat.shiftLeft_add,
    Nat.shiftLeft_add, roundCode_shiftLeft (shiftLeft_ne_zero Nat.one_ne_zero _)]

theorem floorLog2_scaled (positive : m ≠ 0) (e : Int) :
    floorLog2 (m <<< e.toNat) (1 <<< (-e).toNat) = m.log2 + e := by
  have above (a b : Nat) (same : m.log2 + e.toNat + a = (-e).toNat + b) :
      ¬m <<< e.toNat <<< a < 1 <<< (-e).toNat <<< b := by
    rw [← Nat.shiftLeft_add, ← Nat.shiftLeft_add, ← same, Nat.one_shiftLeft, Nat.shiftLeft_eq,
      Nat.not_lt, Nat.add_assoc, Nat.pow_add]
    exact Nat.mul_le_mul_right _ (Nat.log2_self_le positive)
  have one : Nat.log2 1 = 0 := rfl
  simp only [floorLog2, log2_shiftLeft positive, log2_shiftLeft Nat.one_ne_zero, one]
  rw [if_neg (above _ _ (by omega))]
  omega

/-! Bit patterns: sign and magnitude can be taken apart and put together. -/

theorem hidden_pos (f : Format) : 0 < f.hidden := Nat.two_pow_pos f.fractionBits

theorem signPlace_eq (f : Format) : f.signPlace = Nat.pow 2 f.exponentBits * f.hidden :=
  Nat.pow_add 2 f.exponentBits f.fractionBits

theorem infinityCode_lt (f : Format) : f.infinityCode < f.signPlace := by
  rw [signPlace_eq, Format.infinityCode]
  exact Nat.mul_lt_mul_of_pos_right (Nat.sub_lt (Nat.two_pow_pos _) Nat.one_pos) (hidden_pos f)

theorem two_pow_width (f : Format) : Nat.pow 2 f.width = 2 * f.signPlace := by
  rw [Format.width, Nat.add_assoc]
  exact (Nat.pow_add 2 1 _)

theorem toNat_ofCode (s : Bool) {c : Nat} (bound : c < f.signPlace) :
    (ofCode f s c).bits.toNat = c + if s then f.signPlace else 0 := by
  have width : (2 : Nat) ^ f.width = 2 * f.signPlace := two_pow_width f
  rw [ofCode, BitVec.toNat_ofNat, Nat.mod_eq_of_lt bound, width]
  split <;> exact Nat.mod_eq_of_lt (by omega)

theorem code_ofCode (s : Bool) {c : Nat} (bound : c < f.signPlace) : (ofCode f s c).code = c := by
  rw [code, toNat_ofCode s bound]
  split
  · rw [Nat.add_mod_right, Nat.mod_eq_of_lt bound]
  · exact Nat.mod_eq_of_lt bound

theorem negative_ofCode (s : Bool) {c : Nat} (bound : c < f.signPlace) :
    (ofCode f s c).negative = s := by
  have positive : 0 < f.signPlace := by omega
  rw [negative, toNat_ofCode s bound]
  cases s with
  | false => simp [Nat.div_eq_of_lt bound]
  | true => simp [Nat.add_div_right c positive, Nat.div_eq_of_lt bound]

theorem code_lt (x : Binary f) : x.code < f.signPlace :=
  Nat.mod_lt _ (Nat.two_pow_pos _)

theorem ofCode_code (x : Binary f) : ofCode f x.negative x.code = x := by
  have width : x.bits.toNat < 2 * f.signPlace := by
    have bound : x.bits.toNat < Nat.pow 2 f.width := x.bits.isLt
    rwa [two_pow_width] at bound
  have quotient : x.bits.toNat / f.signPlace < 2 := Nat.div_lt_of_lt_mul (by omega)
  have parts := Nat.div_add_mod x.bits.toNat f.signPlace
  have same : (ofCode f x.negative x.code).bits = x.bits := by
    apply BitVec.eq_of_toNat_eq
    rw [toNat_ofCode _ (code_lt x), code, negative, Nat.mod_eq_of_lt quotient]
    rcases Nat.lt_succ_iff_lt_or_eq.mp quotient with zero | one
    · rw [Nat.lt_one_iff.mp zero] at parts ⊢
      simpa using parts
    · rw [one] at parts ⊢
      simpa [Nat.add_comm] using parts
  exact congrArg Binary.mk same

/-- What the pattern of a finite magnitude stands for. -/
theorem decode_ofCode {c : Nat} (s : Bool) (finite : c < f.infinityCode) :
    (ofCode f s c).decode =
      if c < f.hidden then .finite s c f.leastExponent
      else .finite s (f.hidden + c % f.hidden) (f.leastExponent + (c / f.hidden : Nat) - 1) := by
  have bound := Nat.lt_trans finite (infinityCode_lt f)
  rw [decode, code_ofCode s bound, negative_ofCode s bound, if_neg (Nat.not_lt_of_gt finite),
    if_neg (Nat.ne_of_lt finite)]

/-! Numbers of a format. -/

/-- A number `m · 2 ^ e` of the format. -/
structure Fits (f : Format) (m : Nat) (e : Int) : Prop where
  small : m < 2 * f.hidden
  least : f.leastExponent ≤ e
  top : e - f.leastExponent + 3 ≤ (Nat.pow 2 f.exponentBits : Nat)

theorem log2_le_fractionBits (positive : m ≠ 0) (small : m < 2 * f.hidden) :
    m.log2 ≤ f.fractionBits := by
  have bound : m < 2 ^ (f.fractionBits + 1) := by
    rw [Nat.pow_succ, Nat.mul_comm]
    exact small
  exact Nat.le_of_lt_succ ((Nat.log2_lt positive).mpr bound)

/-- `m <<< k`, in units of `2 ^ (e - k)`, is a significand of the format in its last place. -/
structure Normal (f : Format) (m : Nat) (e : Int) (k : Nat) : Prop where
  small : m <<< k < 2 * f.hidden
  least : f.leastExponent ≤ e - k
  full : e - k = f.leastExponent ∨ f.hidden ≤ m <<< k

theorem Fits.exists_normal (positive : m ≠ 0) (fits : Fits f m e) :
    ∃ k : Nat, lastPlace f (m <<< e.toNat) (1 <<< (-e).toNat) = e - k ∧ Normal f m e k := by
  have bits := log2_le_fractionBits positive fits.small
  have least := fits.least
  rw [lastPlace, floorLog2_scaled positive]
  refine ⟨(e - max f.leastExponent (m.log2 + e - (f.fractionBits : Nat))).toNat, by omega, ?_⟩
  generalize shift : (e - max f.leastExponent (m.log2 + e - (f.fractionBits : Nat))).toNat = k
  constructor
  · have bound : (m <<< k).log2 < f.fractionBits + 1 := by
      rw [log2_shiftLeft positive]
      omega
    rw [Nat.log2_lt (shiftLeft_ne_zero positive k), Nat.pow_succ, Nat.mul_comm] at bound
    exact bound
  · omega
  · by_cases subnormal : e - k = f.leastExponent
    · exact .inl subnormal
    · have bound : f.fractionBits ≤ (m <<< k).log2 := by
        rw [log2_shiftLeft positive]
        omega
      exact .inr ((Nat.le_log2 (shiftLeft_ne_zero positive k)).mp bound)

/-- Nothing is cut off from a number of the format. -/
theorem roundCode_scaled (positive : m ≠ 0) (fits : Fits f m e) :
    ∃ k : Nat, Normal f m e k ∧
      roundCode f (m <<< e.toNat) (1 <<< (-e).toNat) =
        (e - k - f.leastExponent).toNat * f.hidden + m <<< k ∧
      (e - k - f.leastExponent).toNat * f.hidden + m <<< k < f.infinityCode := by
  obtain ⟨k, place, normal⟩ := fits.exists_normal positive
  have top := fits.top
  have least := normal.least
  have finite : (e - k - f.leastExponent).toNat * f.hidden + m <<< k < f.infinityCode :=
    calc (e - k - f.leastExponent).toNat * f.hidden + m <<< k
      _ < (e - k - f.leastExponent).toNat * f.hidden + 2 * f.hidden :=
        Nat.add_lt_add_left normal.small _
      _ = ((e - k - f.leastExponent).toNat + 2) * f.hidden := (Nat.add_mul _ _ _).symm
      _ ≤ f.infinityCode := Nat.mul_le_mul_right _ (by omega)
  have exact : nearestEven (m <<< e.toNat <<< (-(e - k)).toNat)
      (1 <<< (-e).toNat <<< (e - k : Int).toNat) = m <<< k := by
    have shift : e.toNat + (-(e - k)).toNat = k + ((-e).toNat + (e - k : Int).toNat) := by omega
    rw [← Nat.shiftLeft_add, ← Nat.shiftLeft_add, shift, Nat.shiftLeft_add, Nat.one_shiftLeft,
      Nat.shiftLeft_eq (m <<< k)]
    exact nearestEven_exact _ (Nat.two_pow_pos _)
  refine ⟨k, normal, ?_, finite⟩
  rw [roundCode_eq (shiftLeft_ne_zero positive _), place, exact]
  exact Nat.min_eq_left (Nat.le_of_lt finite)

theorem roundCode_zero (d : Nat) : roundCode f 0 d = 0 := if_pos rfl

theorem infinityCode_pos (top : (3 : Int) ≤ (Nat.pow 2 f.exponentBits : Nat)) :
    0 < f.infinityCode :=
  Nat.mul_pos (by omega) (hidden_pos f)

/-- A number of the format is not rounded. -/
theorem decode_ofScaled (fits : Fits f m e) (s : Bool) :
    ∃ k : Nat, (ofScaled f s m e).decode = .finite s (m <<< k) (e - k) := by
  have top := fits.top
  have least := fits.least
  by_cases zero : m = 0
  · subst zero
    refine ⟨(e - f.leastExponent).toNat, ?_⟩
    rw [ofScaled, ofQuotient, Nat.zero_shiftLeft, roundCode_zero,
      decode_ofCode s (infinityCode_pos (by omega)), if_pos (hidden_pos f), Nat.zero_shiftLeft]
    congr 1
    omega
  · obtain ⟨k, normal, code, finite⟩ := roundCode_scaled zero fits
    have least := normal.least
    refine ⟨k, ?_⟩
    rw [ofScaled, ofQuotient, code, decode_ofCode s finite]
    rcases Nat.lt_or_ge (m <<< k) f.hidden with subnormal | full
    · have last : e - k = f.leastExponent := by
        rcases normal.full with last | full
        · exact last
        · omega
      rw [last, Int.sub_self, Int.toNat_zero, Nat.zero_mul, Nat.zero_add, if_pos subnormal]
    · have whole : m <<< k = f.hidden + (m <<< k - f.hidden) := by omega
      have rest : m <<< k - f.hidden < f.hidden := by
        have small := normal.small
        omega
      generalize m <<< k - f.hidden = r at whole rest
      have code : (e - k - f.leastExponent).toNat * f.hidden + m <<< k =
          r + f.hidden * ((e - k - f.leastExponent).toNat + 1) := by
        rw [whole, Nat.mul_succ, Nat.mul_comm f.hidden]
        omega
      rw [code, if_neg (by rw [Nat.mul_succ]; omega), Nat.add_mul_mod_self_left,
        Nat.mod_eq_of_lt rest, Nat.add_mul_div_left _ _ (hidden_pos f), Nat.div_eq_of_lt rest,
        ← whole]
      congr 1
      omega

/-- A significand that is in its last place already stays there. -/
theorem roundCode_of_normal (fits : Fits f m e) (full : e = f.leastExponent ∨ f.hidden ≤ m) :
    roundCode f (m <<< e.toNat) (1 <<< (-e).toNat) = (e - f.leastExponent).toNat * f.hidden + m := by
  by_cases zero : m = 0
  · have last : e = f.leastExponent := by
      rcases full with last | full
      · exact last
      · have positive := hidden_pos f
        omega
    rw [zero, Nat.zero_shiftLeft, roundCode_zero, last, Int.sub_self, Int.toNat_zero, Nat.zero_mul]
  · obtain ⟨k, normal, code, -⟩ := roundCode_scaled zero fits
    obtain rfl : k = 0 := by
      have least := normal.least
      rcases full with last | full
      · omega
      · cases k with
        | zero => rfl
        | succ k =>
          have small := normal.small
          rw [Nat.shiftLeft_succ] at small
          have grows : m ≤ m <<< k := Nat.le_shiftLeft
          omega
    simpa using code

/-- A finite pattern stands for a number of the format, and is the one that encodes it. -/
theorem ofScaled_decode (wide : 3 ≤ Nat.pow 2 f.exponentBits) {x : Binary f}
    (finite : x.decode = .finite s m e) : Fits f m e ∧ ofScaled f s m e = x := by
  have encodes (fits : Fits f m e) (full : e = f.leastExponent ∨ f.hidden ≤ m)
      (code : (e - f.leastExponent).toNat * f.hidden + m = x.code) (sign : x.negative = s) :
      Fits f m e ∧ ofScaled f s m e = x := by
    refine ⟨fits, ?_⟩
    rw [ofScaled, ofQuotient, roundCode_of_normal fits full, code, ← sign, ofCode_code]
  rw [decode] at finite
  split at finite
  · cases finite
  split at finite
  · cases finite
  rename_i notNan notInfinite
  have bound : x.code < f.infinityCode := by omega
  split at finite
  · rename_i subnormal
    cases finite
    exact encodes ⟨by omega, Int.le_refl _, by omega⟩ (.inl rfl) (by simp) rfl
  · rename_i normal
    cases finite
    have parts := Nat.div_add_mod x.code f.hidden
    have rest := Nat.mod_lt x.code (hidden_pos f)
    have first : 1 ≤ x.code / f.hidden := (Nat.one_le_div_iff (hidden_pos f)).mpr (by omega)
    have last : x.code / f.hidden < Nat.pow 2 f.exponentBits - 1 :=
      Nat.div_lt_of_lt_mul (by rwa [Nat.mul_comm])
    obtain ⟨c, quotient⟩ : ∃ c, x.code / f.hidden = c + 1 := ⟨x.code / f.hidden - 1, by omega⟩
    refine encodes ⟨by omega, by omega, by omega⟩ (.inr (by omega)) ?_ rfl
    have exponent : (f.leastExponent + (x.code / f.hidden : Nat) - 1 - f.leastExponent).toNat = c := by
      omega
    rw [exponent]
    rw [quotient, Nat.mul_succ, Nat.mul_comm f.hidden] at parts
    omega

/-! Conversions that lose nothing. -/

theorem toFormat_finite {x : Binary f} (finite : x.decode = .finite s m e) :
    x.toFormat g = ofScaled g s m e := by
  rw [toFormat, finite]

/-- A conversion from where the number fits does not matter for one that follows. -/
theorem toFormat_ofScaled (fits : Fits f m e) (s : Bool) :
    (ofScaled f s m e).toFormat g = ofScaled g s m e := by
  obtain ⟨k, decoded⟩ := decode_ofScaled fits s
  rw [toFormat_finite decoded, ofScaled_shiftLeft]

theorem fits_iff {bound : Nat} {low high : Int} (hidden : 2 * f.hidden = bound)
    (least : f.leastExponent = low) (top : low + (Nat.pow 2 f.exponentBits : Nat) - 3 = high) :
    Fits f m e ↔ m < bound ∧ low ≤ e ∧ e ≤ high := by
  constructor
  · rintro ⟨small, above, below⟩
    omega
  · rintro ⟨small, above, below⟩
    constructor <;> omega

theorem fits_single_iff : Fits Format.single m e ↔ m < 16777216 ∧ -149 ≤ e ∧ e ≤ 104 :=
  fits_iff rfl rfl rfl

theorem fits_double_iff : Fits Format.double m e ↔ m < 9007199254740992 ∧ -1074 ≤ e ∧ e ≤ 971 :=
  fits_iff rfl rfl rfl

theorem Fits.double (fits : Fits Format.single m e) : Fits Format.double m e := by
  rw [fits_single_iff] at fits
  rw [fits_double_iff]
  omega

theorem eq_infinity {x : Binary f} (infinite : x.decode = .infinite s) : x = infinity f s := by
  rw [decode] at infinite
  split at infinite
  · cases infinite
  split at infinite
  · rename_i code
    cases infinite
    rw [infinity, ← code, ofCode_code]
  · split at infinite <;> cases infinite

theorem decode_infinity (s : Bool) : (infinity f s).decode = .infinite s := by
  rw [infinity, decode, code_ofCode s (infinityCode_lt f), negative_ofCode s (infinityCode_lt f),
    if_neg (Nat.lt_irrefl _), if_pos rfl]

theorem isNaN_iff {x : Binary f} : x.isNaN = true ↔ x.decode = .nan := by
  rw [isNaN, decide_eq_true_eq, decode]
  split
  · simp [*]
  · split
    · simp [*]
    · split <;> simp [*]

/-- A number is back after a stay in double precision; a NaN comes back as a NaN. -/
theorem narrow_widen (x : Binary32) :
    x.widen.narrow = x ∨ (x.isNaN = true ∧ x.widen.narrow.isNaN = true) := by
  rw [widen, narrow]
  cases decoded : x.decode with
  | nan =>
    refine .inr ⟨isNaN_iff.mpr decoded, ?_⟩
    have wide : x.toFormat Format.double =
        if x.negative then invalid Format.double else nan Format.double := by rw [toFormat, decoded]
    rw [wide]
    cases x.negative <;> decide
  | infinite s =>
    left
    have wide : x.toFormat Format.double = infinity _ s := by rw [toFormat, decoded]
    rw [wide, toFormat, decode_infinity]
    exact (eq_infinity decoded).symm
  | finite s m e =>
    left
    obtain ⟨fits, same⟩ := ofScaled_decode (by decide) decoded
    rw [toFormat_finite decoded, toFormat_ofScaled fits.double, same]

theorem ofInt_eq (f : Format) (i : Int) : ofInt f i = ofScaled f (decide (i < 0)) i.natAbs 0 := rfl

theorem toFormat_ofInt {i : Int} (fits : Fits f i.natAbs 0) : (ofInt f i).toFormat g = ofInt g i := by
  rw [ofInt_eq, ofInt_eq, toFormat_ofScaled fits]

/-- An integer within the bounds is back after a stay in a format that has it. -/
theorem toIntClamped_ofInt {i low high : Int} (fits : Fits f i.natAbs 0) (above : low ≤ i)
    (below : i ≤ high) : (ofInt f i).toIntClamped low high = i := by
  obtain ⟨k, decoded⟩ := decode_ofScaled fits (decide (i < 0))
  have shifts : (i.natAbs <<< k <<< (0 - k : Int).toNat) >>> (-(0 - k : Int)).toNat = i.natAbs := by
    have none : (0 - k : Int).toNat = 0 := by omega
    have back : (-(0 - k : Int)).toNat = k := by omega
    rw [none, back, Nat.shiftLeft_zero, Nat.shiftLeft_shiftRight]
  rw [ofInt_eq, toIntClamped, decoded]
  simp only [shifts, decide_eq_true_eq]
  split <;> split <;> omega

end Binary

end ConstFold
