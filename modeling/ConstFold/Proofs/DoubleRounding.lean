import ConstFold.Binary
import ConstFold.Proofs.NearestRounding

/-! Single precision by way of double precision. A quotient that is rounded to double and then to
single precision ends where it would have ended at once, unless double precision takes it to a point
halfway between two single-precision numbers on which it is not. Sums, products, quotients and
remainders of single-precision numbers are never that close to such a point, so that arithmetic in
double precision gives them correctly. -/
namespace ConstFold.Binary

variable {s t : Bool} {m n d c : Nat} {e : Int}

/-! Two roundings. -/

/-- A point halfway between single-precision numbers takes one bit more than they do. -/
theorem exists_halfway (finite : c < Format.single.infinityCode) :
    ∃ (a : Nat) (i : Int), Format.single.halfway c = a * 2 ^ i ∧ a % 2 = 1 ∧ a < 33554432 ∧
      -150 ≤ i ∧ i ≤ 103 ∧ (i = -150 ∨ 16777216 < a) := by
  obtain ⟨j, code, full, small⟩ := Format.single.exists_significand c
  have hidden : Format.single.hidden = 8388608 := rfl
  have top : Format.single.infinityCode = 255 * 8388608 := rfl
  generalize Format.single.binade c = b at code full
  subst code
  have place : ((b : Int) - 150) + 1 = Format.single.leastExponent + b := by
    have least : Format.single.leastExponent = -149 := rfl
    omega
  rw [hidden] at full small
  rw [hidden, top] at finite
  refine ⟨2 * j + 1, b - 150, ?_, by omega, by omega, by omega, by omega, by omega⟩
  rw [Format.halfway_of_place (by rwa [hidden]) (by rwa [hidden]), ← place,
    zpow_add_one₀ two_ne_zero]
  push_cast
  ring

/-- The point is a normal number of double precision. -/
theorem exists_code_of_halfway (finite : c < Format.single.infinityCode) :
    ∃ k < Format.double.infinityCode, Format.double.hidden ≤ k ∧
      Format.double.magnitude k = Format.single.halfway c := by
  obtain ⟨a, i, point, odd, small, low, high, -⟩ := exists_halfway finite
  obtain ⟨k, bound, same⟩ := (fits_double_iff.mpr ⟨by omega, by omega, by omega⟩ :
    Fits Format.double a i).exists_code
  refine ⟨k, bound, ?_, same.trans point.symm⟩
  have least : Format.double.magnitude Format.double.hidden = 2 ^ (-1022 : Int) := by
    have value := Format.magnitude_of_place (f := Format.double) (b := 0)
      (.inl rfl : (0 = 0 ∨ _)) (show Format.double.hidden ≤ _ by omega)
    rw [Nat.zero_mul, Nat.zero_add, cast_hidden, ← zpow_add₀ two_ne_zero] at value
    exact value
  rw [← Format.double.magnitude_strictMono.le_iff_le, least, same]
  have one : (1 : ℚ) ≤ a := by
    exact_mod_cast (show 1 ≤ a by omega)
  calc (2 : ℚ) ^ (-1022 : Int)
    _ ≤ 2 ^ i := zpow_le_zpow_right₀ one_le_two (by omega)
    _ ≤ a * 2 ^ i := le_mul_of_one_le_left (by positivity) one

/-- Double precision keeps a quotient on its side of a point halfway between single-precision
numbers, if it does not come as close to it as the rounding error. -/
theorem double_keeps_side (denominator : d ≠ 0) (finite : c < Format.single.infinityCode)
    (apart : |(n / d : ℚ) - Format.single.halfway c| * 9007199254740992 ≤ Format.single.halfway c →
      (n / d : ℚ) = Format.single.halfway c) :
    ((n / d : ℚ) < Format.single.halfway c →
      Format.double.magnitude (roundCode Format.double n d) < Format.single.halfway c) ∧
    ((n / d : ℚ) = Format.single.halfway c →
      Format.double.magnitude (roundCode Format.double n d) = Format.single.halfway c) ∧
    (Format.single.halfway c < (n / d : ℚ) →
      Format.single.halfway c < Format.double.magnitude (roundCode Format.double n d)) := by
  obtain ⟨k, bound, normal, point⟩ := exists_code_of_halfway finite
  have wide : 0 < Format.double.fractionBits := by decide
  have below (small : (n / d : ℚ) ≤ Format.single.halfway c) : roundCode Format.double n d ≤ k := by
    rw [roundCode_le_iff wide denominator bound]
    exact .inl (lt_of_le_of_lt (small.trans point.ge) (Format.double.magnitude_lt_halfway k))
  have above (large : Format.single.halfway c ≤ (n / d : ℚ)) : k ≤ roundCode Format.double n d := by
    by_contra less
    obtain ⟨l, rfl⟩ : ∃ l, k = l + 1 := ⟨k - 1, by omega⟩
    have lower := (roundCode_le_iff wide denominator (show l < _ by omega)).mp
      (show roundCode Format.double n d ≤ l by omega)
    have next := Format.double.halfway_lt_magnitude l
    rcases lower with lower | ⟨lower, -⟩ <;> linarith
  have different (other : (n / d : ℚ) ≠ Format.single.halfway c) : roundCode Format.double n d ≠ k := by
    intro same
    have error := rounding_error (n := n) wide denominator (by omega) (by omega)
    have hidden : (2 * Format.double.hidden : ℚ) = 9007199254740992 := by norm_num [Format.hidden]
    rw [same, point, hidden] at error
    exact other (apart error)
  have order := Format.double.magnitude_strictMono
  rw [← point] at *
  refine ⟨fun small => ?_, fun same => ?_, fun large => ?_⟩
  · exact order.lt_iff_lt.mpr (lt_of_le_of_ne (below small.le) (different small.ne))
  · exact congrArg _ (Nat.le_antisymm (below same.le) (above same.ge))
  · exact order.lt_iff_lt.mpr (lt_of_le_of_ne (above large.le) (different large.ne').symm)

theorem exists_decode (s : Bool) {k : Nat} (bound : k < Format.double.infinityCode) :
    ∃ m e, (ofCode Format.double s k).decode = .finite s m e ∧
      Format.double.magnitude k = m * 2 ^ e := by
  have decoded := decode_ofCode s bound
  have code := code_ofCode s (Nat.lt_trans bound (infinityCode_lt Format.double))
  split at decoded
  · exact ⟨_, _, decoded, by rw [← (magnitude_of_decode decoded).2.2, code]⟩
  · exact ⟨_, _, decoded, by rw [← (magnitude_of_decode decoded).2.2, code]⟩

/-- Rounding to double precision first makes no difference. -/
theorem narrow_ofQuotient (s : Bool) (denominator : d ≠ 0)
    (apart : ∀ c < Format.single.infinityCode,
      |(n / d : ℚ) - Format.single.halfway c| * 9007199254740992 ≤ Format.single.halfway c →
        (n / d : ℚ) = Format.single.halfway c) :
    (ofQuotient Format.double s n d).narrow = ofQuotient Format.single s n d := by
  have wide : 0 < Format.single.fractionBits := by decide
  rw [narrow, ofQuotient, ofQuotient]
  rcases Nat.lt_or_eq_of_le (roundCode_le_infinityCode Format.double n d) with bound | infinite
  · obtain ⟨m, e, decoded, value⟩ := exists_decode s bound
    rw [toFormat_finite decoded, ofScaled, ofQuotient]
    congr 1
    refine code_unique (roundCode_le_infinityCode _ _ _) (roundCode_le_infinityCode _ _ _)
      fun c finite => ?_
    obtain ⟨small, same, large⟩ := double_keeps_side denominator finite (apart c finite)
    rw [roundCode_le_iff wide (shiftLeft_ne_zero Nat.one_ne_zero _) finite, scaled_value, ← value,
      roundCode_le_iff wide denominator finite]
    rcases lt_trichotomy (n / d : ℚ) (Format.single.halfway c) with before | on | after
    · exact iff_of_true (.inl (small before)) (.inl before)
    · rw [on, same on]
    · have beyond := large after
      refine iff_of_false ?_ ?_ <;> rintro (less | ⟨equal, -⟩) <;> linarith
  · rw [infinite]
    show (infinity Format.double s).toFormat Format.single = _
    rw [toFormat, decode_infinity]
    show infinity Format.single s = _
    rw [infinity]
    congr 1
    refine code_unique (Nat.le_refl _) (roundCode_le_infinityCode _ _ _) fun c finite => ?_
    refine iff_of_false (by omega) fun less => ?_
    obtain ⟨small, same, -⟩ := double_keeps_side denominator finite (apart c finite)
    obtain ⟨k, bound, -, point⟩ := exists_code_of_halfway finite
    have order := Format.double.magnitude_strictMono bound
    rw [← infinite, point] at order
    rw [roundCode_le_iff wide denominator finite] at less
    rcases less with before | ⟨on, -⟩
    · linarith [small before]
    · linarith [same on]

/-! Numbers that are clear of the points halfway. -/

/-- Whole numbers that are nearly equal are equal or large. -/
theorem eq_or_large_of_near {p q : Nat} (near : |(p : ℚ) - q| * 9007199254740992 ≤ q) :
    p = q ∨ (9007199254740992 ≤ q ∧ q ≤ 2 * p) := by
  by_cases same : p = q
  · exact .inl same
  right
  have one : (1 : ℚ) ≤ |(p : ℚ) - q| := by
    have different : (p : Int) - q ≠ 0 := by omega
    exact_mod_cast Int.one_le_abs different
  have distance := neg_abs_le ((p : ℚ) - q)
  constructor
  · have large : (9007199254740992 : ℚ) ≤ q := by linarith
    exact_mod_cast large
  · have half : (q : ℚ) ≤ 2 * p := by linarith
    exact_mod_cast half

/-- A quotient of single-precision significands. -/
theorem quotient_apart {a : Nat} {z i : Int} (numerator : m < 16777216) (positive : n ≠ 0)
    (denominator : n < 16777216) (small : a < 33554432)
    (near : |(m / n * 2 ^ z : ℚ) - a * 2 ^ i| * 9007199254740992 ≤ a * 2 ^ i) :
    (m / n * 2 ^ z : ℚ) = a * 2 ^ i := by
  -- Both are brought to whole numbers, of which one is not shifted.
  have divisor : (n : ℚ) ≠ 0 := by exact_mod_cast positive
  have unit : (0 : ℚ) < 2 ^ z := by positivity
  have factor : (0 : ℚ) < n * 2 ^ ((-(i - z)).toNat : Int) / 2 ^ z := by positivity
  have left : n * 2 ^ ((-(i - z)).toNat : Int) / 2 ^ z * (m / n * 2 ^ z : ℚ) =
      (m <<< (-(i - z)).toNat : Nat) := by
    rw [cast_shiftLeft]
    field_simp
  have right : n * 2 ^ ((-(i - z)).toNat : Int) / 2 ^ z * (a * 2 ^ i : ℚ) =
      ((n * a) <<< (i - z).toNat : Nat) := by
    have shift : ((i - z).toNat : Int) = ((-(i - z)).toNat : Int) + i - z := by omega
    rw [cast_shiftLeft, shift, zpow_sub₀ two_ne_zero, zpow_add₀ two_ne_zero]
    push_cast
    field_simp
  have scaled : |((m <<< (-(i - z)).toNat : Nat) : ℚ) - ((n * a) <<< (i - z).toNat : Nat)| *
      9007199254740992 ≤ ((n * a) <<< (i - z).toNat : Nat) := by
    rw [← left, ← right, ← mul_sub, abs_mul, abs_of_pos factor, mul_assoc]
    exact mul_le_mul_of_nonneg_left near factor.le
  rcases eq_or_large_of_near scaled with same | ⟨large, half⟩
  · refine mul_left_cancel₀ factor.ne' ?_
    rw [left, right, same]
  · exfalso
    rcases le_or_gt 0 (i - z) with up | down
    · have none : (-(i - z)).toNat = 0 := by omega
      rw [none, Nat.shiftLeft_zero] at half
      omega
    · have none : (i - z).toNat = 0 := by omega
      rw [none, Nat.shiftLeft_zero] at large
      have bound : n * a ≤ 16777216 * 33554432 := Nat.mul_le_mul denominator.le small.le
      omega

/-- A shifted number and a small one next to it are not near an odd multiple of a large power of
two. -/
theorem multiple_apart {p a k w u : Nat} (term : m < 16777216) (rest : n < 16777216)
    (above : p ≤ m <<< k + n) (below : m <<< k ≤ p + n) (odd : a % 2 = 1) (small : a < 33554432)
    (full : 16777216 < a) (power : u = Nat.pow 2 w) (coarse : 268435456 ≤ u)
    (upper : p * 9007199254740992 ≤ a * u * 9007199254740992 + a * u)
    (lower : a * u * 9007199254740992 ≤ p * 9007199254740992 + a * u) : False := by
  have top : a * u ≤ 33554431 * u := Nat.mul_le_mul_right u (by omega)
  have bottom : 16777217 * u ≤ a * u := Nat.mul_le_mul_right u (by omega)
  rcases Nat.lt_or_ge k w with finer | coarser
  · have half : 2 * (m <<< k) ≤ m * u := by
      have double : 2 * Nat.pow 2 k ≤ u := by
        rw [power, Nat.mul_comm]
        exact Nat.pow_le_pow_right Nat.two_pos finer
      rw [Nat.shiftLeft_eq, Nat.mul_left_comm]
      exact Nat.mul_le_mul_left m double
    have bound : m * u ≤ 16777215 * u := Nat.mul_le_mul_right u (by omega)
    omega
  · obtain ⟨r, rfl⟩ := Nat.exists_eq_add_of_le coarser
    have shifted : m <<< (w + r) = (m <<< r) * u := by
      rw [power, Nat.add_comm, Nat.shiftLeft_add, Nat.shiftLeft_eq _ w]
      rfl
    rw [shifted] at above below
    rcases Nat.lt_trichotomy (m <<< r) a with less | same | more
    · have apart := Nat.mul_le_mul_right u (Nat.succ_le_of_lt less)
      rw [Nat.succ_mul] at apart
      omega
    · cases r with
      | zero =>
        rw [Nat.shiftLeft_zero] at same
        omega
      | succ r =>
        rw [Nat.shiftLeft_succ] at same
        omega
    · have apart := Nat.mul_le_mul_right u (Nat.succ_le_of_lt more)
      rw [Nat.succ_mul] at apart
      omega

/-- A sum that takes more than double precision: next to one of its terms the other is small, so
that it is not near a point with one bit more than single precision. -/
theorem sum_apart {p a k : Nat} {q i : Int} (large : 9007199254740992 ≤ p) (term : m < 16777216)
    (rest : n < 16777216) (above : p ≤ m <<< k + n) (below : m <<< k ≤ p + n) (least : -149 ≤ q)
    (odd : a % 2 = 1) (small : a < 33554432) (full : i = -150 ∨ 16777216 < a) :
    ¬|(p * 2 ^ q : ℚ) - a * 2 ^ i| * 9007199254740992 ≤ a * 2 ^ i := by
  intro near
  have unit : (0 : ℚ) < 2 ^ q := by positivity
  have ratio : (2 : ℚ) ^ i = 2 ^ (i - q) * 2 ^ q := by
    rw [← zpow_add₀ two_ne_zero, Int.sub_add_cancel]
  rw [ratio, ← mul_assoc, ← sub_mul, abs_mul, abs_of_pos unit, mul_right_comm,
    mul_le_mul_iff_left₀ unit] at near
  have exceeds := le_abs_self ((p : ℚ) - a * 2 ^ (i - q))
  have under := neg_abs_le ((p : ℚ) - a * 2 ^ (i - q))
  -- The last place of the point is far above that of the sum.
  have far : 28 ≤ i - q := by
    by_contra close
    have power : (2 : ℚ) ^ (i - q) ≤ 2 ^ (27 : Int) := zpow_le_zpow_right₀ one_le_two (by omega)
    have bound : (a : ℚ) * 2 ^ (i - q) ≤ 33554432 * 2 ^ (27 : Int) := by
      have cast : (a : ℚ) ≤ 33554432 := by exact_mod_cast small.le
      gcongr
    have huge : (9007199254740992 : ℚ) ≤ p := by exact_mod_cast large
    norm_num at bound
    linarith
  obtain ⟨w, exponent⟩ := Int.eq_ofNat_of_zero_le (show 0 ≤ i - q by omega)
  obtain ⟨u, power⟩ : ∃ u, u = Nat.pow 2 w := ⟨_, rfl⟩
  have value : (2 : ℚ) ^ (i - q) = u := by
    rw [exponent, power, zpow_natCast]
    exact (Nat.cast_pow 2 w).symm
  rw [value] at near exceeds under
  have upper : p * 9007199254740992 ≤ a * u * 9007199254740992 + a * u := by
    have bound : (p * 9007199254740992 : ℚ) ≤ a * u * 9007199254740992 + a * u := by linarith
    exact_mod_cast bound
  have lower : a * u * 9007199254740992 ≤ p * 9007199254740992 + a * u := by
    have bound : (a * u * 9007199254740992 : ℚ) ≤ p * 9007199254740992 + a * u := by linarith
    exact_mod_cast bound
  have coarse : 268435456 ≤ u := by
    rw [power]
    exact Nat.pow_le_pow_right Nat.two_pos (show 28 ≤ w by omega)
  exact multiple_apart term rest above below odd small (by omega) power coarse upper lower

end ConstFold.Binary
