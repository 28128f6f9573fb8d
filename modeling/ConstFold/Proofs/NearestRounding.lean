import ConstFold.Proofs.ExactRounding
import Mathlib.Algebra.Order.Field.Power
import Mathlib.Algebra.Order.Field.Rat
import Mathlib.Tactic.FieldSimp
import Mathlib.Tactic.Linarith
import Mathlib.Tactic.Positivity
import Mathlib.Tactic.Ring

/-! Rounding goes to the nearest number. A code stands for a rational magnitude, the codes of a
format are in the order of their magnitudes, and a quotient is rounded to a code or below exactly
if it lies before the point halfway to the next magnitude, or on it with an even code. -/
namespace ConstFold

variable {f : Format} {b j c n d : Nat}

namespace Format

/-- Place of the last bit of a code, counted from that of the subnormal numbers. -/
def binade (f : Format) (code : Nat) : Nat := code / f.hidden - 1

/-- The magnitude of a code. The codes from that of infinity on continue the finite ones. -/
def magnitude (f : Format) (code : Nat) : ℚ :=
  (code - f.binade code * f.hidden : Nat) * 2 ^ (f.leastExponent + f.binade code)

/-- The point halfway to the next magnitude. -/
def halfway (f : Format) (code : Nat) : ℚ := (f.magnitude code + f.magnitude (code + 1)) / 2

theorem exists_significand (f : Format) (c : Nat) :
    ∃ j, c = f.binade c * f.hidden + j ∧ (f.binade c = 0 ∨ f.hidden ≤ j) ∧ j < 2 * f.hidden := by
  have parts := Nat.div_add_mod c f.hidden
  have rest := Nat.mod_lt c (Binary.hidden_pos f)
  rw [binade]
  cases quotient : c / f.hidden with
  | zero =>
    rw [quotient, Nat.mul_zero, Nat.zero_add] at parts
    exact ⟨c, by omega, .inl rfl, by omega⟩
  | succ b =>
    rw [quotient, Nat.mul_succ, Nat.mul_comm] at parts
    exact ⟨f.hidden + c % f.hidden, by rw [Nat.add_sub_cancel]; omega, .inr (by omega), by omega⟩

/-- A significand in its place. The one past the last of a binade is the first of the next. -/
theorem magnitude_of_place (full : b = 0 ∨ f.hidden ≤ j) (small : j ≤ 2 * f.hidden) :
    f.magnitude (b * f.hidden + j) = j * 2 ^ (f.leastExponent + b) := by
  have positive := Binary.hidden_pos f
  rcases Nat.lt_or_eq_of_le small with small | rfl
  · have place : f.binade (b * f.hidden + j) = b := by
      rw [binade, Nat.add_comm, Nat.add_mul_div_right _ _ positive]
      rcases full with rfl | full
      · have quotient : j / f.hidden < 2 := Nat.div_lt_of_lt_mul (by omega)
        omega
      · have quotient : j / f.hidden = 1 :=
          Nat.div_eq_of_lt_le (by omega) (by omega)
        omega
    rw [magnitude, place, Nat.add_sub_cancel_left]
  · have place : f.binade (b * f.hidden + 2 * f.hidden) = b + 1 := by
      rw [binade, ← Nat.add_mul, Nat.mul_div_cancel _ positive]
      rfl
    have rest : b * f.hidden + 2 * f.hidden - (b + 1) * f.hidden = f.hidden := by
      rw [Nat.add_mul]
      omega
    rw [magnitude, place, rest, Nat.cast_succ, ← Int.add_assoc, zpow_add_one₀ two_ne_zero,
      Nat.cast_mul]
    push_cast
    ring

theorem magnitude_succ_of_place (full : b = 0 ∨ f.hidden ≤ j) (small : j < 2 * f.hidden) :
    f.magnitude (b * f.hidden + j + 1) = (j + 1) * 2 ^ (f.leastExponent + b) := by
  have next := magnitude_of_place (full.imp_right Nat.le_succ_of_le) (Nat.succ_le_of_lt small)
  rw [Nat.add_assoc, next, Nat.cast_succ]

theorem halfway_of_place (full : b = 0 ∨ f.hidden ≤ j) (small : j < 2 * f.hidden) :
    f.halfway (b * f.hidden + j) = (j + 1 / 2) * 2 ^ (f.leastExponent + b) := by
  rw [halfway, magnitude_of_place full (Nat.le_of_lt small), magnitude_succ_of_place full small]
  ring

theorem magnitude_succ (f : Format) (c : Nat) :
    f.magnitude (c + 1) = f.magnitude c + 2 ^ (f.leastExponent + f.binade c) := by
  obtain ⟨j, whole, full, small⟩ := f.exists_significand c
  generalize f.binade c = b at whole full ⊢
  subst whole
  rw [magnitude_of_place full (Nat.le_of_lt small), magnitude_succ_of_place full small]
  ring

theorem magnitude_strictMono (f : Format) : StrictMono f.magnitude := by
  apply strictMono_nat_of_lt_succ
  intro c
  rw [magnitude_succ]
  exact lt_add_of_pos_right _ (by positivity)

theorem magnitude_nonneg (f : Format) (c : Nat) : 0 ≤ f.magnitude c := by
  rw [magnitude]
  positivity

theorem magnitude_lt_halfway (f : Format) (c : Nat) : f.magnitude c < f.halfway c := by
  have next := f.magnitude_strictMono c.lt_succ_self
  rw [halfway]
  linarith

theorem halfway_lt_magnitude (f : Format) (c : Nat) : f.halfway c < f.magnitude (c + 1) := by
  have next := f.magnitude_strictMono c.lt_succ_self
  rw [halfway]
  linarith

/-- The numbers next to a normal one are no farther apart than its last place. -/
theorem hidden_mul_le_magnitude (normal : f.hidden ≤ c) :
    f.hidden * 2 ^ (f.leastExponent + f.binade c) ≤ f.magnitude c := by
  obtain ⟨j, whole, full, -⟩ := f.exists_significand c
  have significand : f.hidden ≤ c - f.binade c * f.hidden := by
    rcases full with least | full
    · rw [least]
      omega
    · omega
  rw [magnitude]
  gcongr

end Format

namespace Binary

theorem nearestEven_le_iff (positive : 0 < d) :
    nearestEven n d ≤ j ↔ 2 * n < (2 * j + 1) * d ∨ 2 * n = (2 * j + 1) * d ∧ j % 2 = 0 := by
  have rest := Nat.mod_lt n positive
  have parts := Nat.div_add_mod n d
  have double : (2 * j + 1) * d = 2 * (d * j) + d := by ring
  rw [nearestEven, double]
  generalize n / d = q at parts ⊢
  generalize n % d = r at parts rest ⊢
  rcases Nat.lt_trichotomy q j with below | rfl | above
  · have apart : d * q + d ≤ d * j := by
      rw [← Nat.mul_succ]
      exact Nat.mul_le_mul_left d below
    constructor
    · intro _
      omega
    · intro _
      split
      · omega
      · split <;> omega
  · split
    · omega
    · split <;> omega
  · have apart : d * j + d ≤ d * q := by
      rw [← Nat.mul_succ]
      exact Nat.mul_le_mul_left d above
    constructor
    · intro small
      split at small
      · omega
      · split at small <;> omega
    · intro small
      omega

theorem cast_shiftLeft (m k : Nat) : ((m <<< k : Nat) : ℚ) = m * 2 ^ (k : Int) := by
  rw [Nat.shiftLeft_eq, Nat.cast_mul, Nat.cast_pow, Nat.cast_ofNat, zpow_natCast]

/-- A scaled fraction is the quotient in units of `2 ^ e`. -/
theorem scaled_quotient (n d : Nat) (e : Int) :
    ((n <<< (-e).toNat : Nat) : ℚ) / (d <<< e.toNat : Nat) = n / d / 2 ^ e := by
  have split : (2 : ℚ) ^ e = 2 ^ (e.toNat : Int) / 2 ^ ((-e).toNat : Int) := by
    rw [← zpow_sub₀ two_ne_zero, Int.toNat_sub_toNat_neg]
  rw [cast_shiftLeft, cast_shiftLeft, split]
  have positive : (2 : ℚ) ^ ((-e).toNat : Int) ≠ 0 := by positivity
  field_simp

theorem floorLog2_spec (numerator : n ≠ 0) (denominator : d ≠ 0) :
    (2 : ℚ) ^ floorLog2 n d ≤ n / d ∧ (n / d : ℚ) < 2 ^ (floorLog2 n d + 1) := by
  have positive : (0 : ℚ) < d := by exact_mod_cast Nat.pos_of_ne_zero denominator
  have lowN : (2 : ℚ) ^ (n.log2 : Int) ≤ n := by exact_mod_cast Nat.log2_self_le numerator
  have highN : (n : ℚ) < 2 ^ (n.log2 : Int) * 2 := by exact_mod_cast Nat.lt_log2_self (n := n)
  have lowD : (2 : ℚ) ^ (d.log2 : Int) ≤ d := by exact_mod_cast Nat.log2_self_le denominator
  have highD : (d : ℚ) < 2 ^ (d.log2 : Int) * 2 := by exact_mod_cast Nat.lt_log2_self (n := d)
  have test : n <<< (d.log2 - n.log2) < d <<< (n.log2 - d.log2) ↔
      (n / d : ℚ) < 2 ^ ((n.log2 : Int) - d.log2) := by
    have up : (-((n.log2 : Int) - d.log2)).toNat = d.log2 - n.log2 := by omega
    have down : ((n.log2 : Int) - d.log2).toNat = n.log2 - d.log2 := by omega
    have scaled := scaled_quotient n d ((n.log2 : Int) - d.log2)
    rw [up, down] at scaled
    have unit : (0 : ℚ) < 2 ^ ((n.log2 : Int) - d.log2) := by positivity
    have shifted : (0 : ℚ) < (d <<< (n.log2 - d.log2) : Nat) := by
      exact_mod_cast Nat.pos_of_ne_zero (shiftLeft_ne_zero denominator _)
    rw [← div_lt_one unit, ← scaled, div_lt_one shifted, Nat.cast_lt]
  have ratio : (2 : ℚ) ^ ((n.log2 : Int) - d.log2) * 2 ^ (d.log2 : Int) = 2 ^ (n.log2 : Int) := by
    rw [← zpow_add₀ two_ne_zero, Int.sub_add_cancel]
  have unit : (0 : ℚ) < 2 ^ ((n.log2 : Int) - d.log2) := by positivity
  rw [floorLog2]
  split
  · rename_i below
    rw [Int.sub_add_cancel, zpow_sub_one₀ two_ne_zero, le_div_iff₀ positive]
    refine ⟨?_, test.mp below⟩
    nlinarith
  · rename_i above
    rw [zpow_add_one₀ two_ne_zero, div_lt_iff₀ positive]
    refine ⟨not_lt.mp fun below => above (test.mpr below), ?_⟩
    nlinarith

theorem nearestEven_le_quotient (positive : 0 < d) :
    nearestEven n d ≤ j ↔ (n / d : ℚ) < j + 1 / 2 ∨ (n / d : ℚ) = j + 1 / 2 ∧ j % 2 = 0 := by
  have denominator : (0 : ℚ) < d := by exact_mod_cast positive
  have cross : ((2 * j + 1 : Nat) * d : ℚ) = 2 * ((j + 1 / 2) * d) := by
    push_cast
    ring
  have less : 2 * n < (2 * j + 1) * d ↔ (n / d : ℚ) < j + 1 / 2 := by
    rw [div_lt_iff₀ denominator, ← Nat.cast_lt (α := ℚ), Nat.cast_mul, Nat.cast_mul, cross]
    constructor <;> intro h <;> push_cast at * <;> linarith
  have same : 2 * n = (2 * j + 1) * d ↔ (n / d : ℚ) = j + 1 / 2 := by
    rw [div_eq_iff denominator.ne', ← Nat.cast_inj (R := ℚ), Nat.cast_mul, Nat.cast_mul, cross]
    constructor <;> intro h <;> push_cast at * <;> linarith
  rw [nearestEven_le_iff positive, less, same]

theorem cast_hidden (f : Format) : (f.hidden : ℚ) = 2 ^ (f.fractionBits : Int) := by
  rw [Format.hidden, zpow_natCast]
  exact Nat.cast_pow 2 _

/-- In units of its last place a quotient is a significand of the format, apart from a fraction. -/
theorem exists_lastPlace (f : Format) (numerator : n ≠ 0) (denominator : d ≠ 0) :
    ∃ b : Nat, lastPlace f n d = f.leastExponent + b ∧
      (n / d : ℚ) < (2 * f.hidden : Nat) * 2 ^ (f.leastExponent + b) ∧
      (b = 0 ∨ f.hidden * 2 ^ (f.leastExponent + b) ≤ (n / d : ℚ)) := by
  obtain ⟨low, high⟩ := floorLog2_spec numerator denominator
  refine ⟨(lastPlace f n d - f.leastExponent).toNat, ?_⟩
  have place : f.leastExponent + ((lastPlace f n d - f.leastExponent).toNat : Int) =
      lastPlace f n d := by
    rw [lastPlace]
    omega
  refine ⟨place.symm, ?_, ?_⟩
  · have top : (2 : ℚ) ^ (floorLog2 n d + 1) ≤ 2 ^ (1 + (f.fractionBits : Int) + lastPlace f n d) :=
      zpow_le_zpow_right₀ one_le_two (by rw [lastPlace]; omega)
    have whole : (2 : ℚ) ^ (1 + (f.fractionBits : Int) + lastPlace f n d) =
        2 * 2 ^ (f.fractionBits : Int) * 2 ^ lastPlace f n d := by
      rw [zpow_add₀ two_ne_zero, zpow_add₀ two_ne_zero, zpow_one]
    rw [place, Nat.cast_mul, cast_hidden, Nat.cast_ofNat, ← whole]
    exact lt_of_lt_of_le high top
  · by_cases least : lastPlace f n d = f.leastExponent
    · left
      omega
    · right
      have own : (f.fractionBits : Int) + lastPlace f n d = floorLog2 n d := by
        rw [lastPlace] at least ⊢
        omega
      rw [place, cast_hidden, ← zpow_add₀ two_ne_zero, own]
      exact low

/-- A quotient is rounded to a code or below exactly if it lies before the point halfway to the
next magnitude, or on it with an even code. -/
theorem roundCode_le_iff (wide : 0 < f.fractionBits) (denominator : d ≠ 0)
    (finite : c < f.infinityCode) :
    roundCode f n d ≤ c ↔ (n / d : ℚ) < f.halfway c ∨ (n / d : ℚ) = f.halfway c ∧ c % 2 = 0 := by
  by_cases zero : n = 0
  · have positive := lt_of_le_of_lt (f.magnitude_nonneg c) (f.magnitude_lt_halfway c)
    subst zero
    simp [roundCode_zero, positive]
  obtain ⟨b, place, high, low⟩ := exists_lastPlace f zero denominator
  have unit : (0 : ℚ) < 2 ^ (f.leastExponent + b) := by positivity
  -- The significand that is rounded to, in units of the last place.
  have nearest (j : Nat) : nearestEven (n <<< (-(f.leastExponent + b)).toNat)
        (d <<< (f.leastExponent + b).toNat) ≤ j ↔
      (n / d : ℚ) < (j + 1 / 2) * 2 ^ (f.leastExponent + b) ∨
        (n / d : ℚ) = (j + 1 / 2) * 2 ^ (f.leastExponent + b) ∧ j % 2 = 0 := by
    rw [nearestEven_le_quotient (Nat.pos_of_ne_zero (shiftLeft_ne_zero denominator _)),
      scaled_quotient, div_lt_iff₀ unit, div_eq_iff unit.ne']
  have code : roundCode f n d ≤ c ↔ b * f.hidden + nearestEven
      (n <<< (-(f.leastExponent + b)).toNat) (d <<< (f.leastExponent + b).toNat) ≤ c := by
    have shift : (f.leastExponent + b - f.leastExponent).toNat = b := by omega
    rw [roundCode_eq zero, place, shift]
    omega
  rw [code]
  by_cases top : b * f.hidden + 2 * f.hidden ≤ c
  · have whole := f.magnitude_strictMono.monotone top
    rw [Format.magnitude_of_place (.inr (by omega)) (Nat.le_refl _)] at whole
    have below := (nearest (2 * f.hidden)).mpr (.inl (by linarith))
    refine iff_of_true (by omega) (.inl ?_)
    exact lt_of_lt_of_le high (le_trans whole (f.magnitude_lt_halfway c).le)
  by_cases bottom : b = 0 ∨ b * f.hidden + f.hidden ≤ c
  · obtain ⟨j, rfl⟩ : ∃ j, c = b * f.hidden + j :=
      Nat.exists_eq_add_of_le (by rcases bottom with rfl | bottom <;> omega)
    have even : (b * f.hidden + j) % 2 = j % 2 := by
      obtain ⟨k, half⟩ := Nat.exists_eq_succ_of_ne_zero wide.ne'
      have hidden : f.hidden = 2 * Nat.pow 2 k := by
        rw [Format.hidden, half, Nat.mul_comm]
        rfl
      rw [hidden, Nat.mul_left_comm]
      omega
    rw [Format.halfway_of_place (bottom.imp_right fun bottom => by omega) (by omega), even,
      ← nearest j]
    omega
  · have full : f.hidden * 2 ^ (f.leastExponent + b) ≤ (n / d : ℚ) :=
      low.resolve_left fun least => bottom (.inl least)
    have next := f.magnitude_strictMono.monotone (show c + 1 ≤ b * f.hidden + f.hidden by omega)
    rw [Format.magnitude_of_place (.inr (Nat.le_refl _)) (by omega)] at next
    have before := f.halfway_lt_magnitude c
    refine iff_of_false (fun small => ?_) ?_
    · have below : nearestEven (n <<< (-(f.leastExponent + b)).toNat)
          (d <<< (f.leastExponent + b).toNat) ≤ f.hidden - 1 := by omega
      have last : ((f.hidden - 1 : Nat) : ℚ) = f.hidden - 1 := Nat.cast_pred (hidden_pos f)
      rw [nearest, last] at below
      rcases below with below | ⟨below, -⟩ <;> nlinarith
    · rintro (below | ⟨below, -⟩) <;> linarith

theorem roundCode_le_infinityCode (f : Format) (n d : Nat) : roundCode f n d ≤ f.infinityCode := by
  by_cases zero : n = 0
  · rw [zero, roundCode_zero]
    exact Nat.zero_le _
  · rw [roundCode_eq zero]
    exact Nat.min_le_right _ _

/-- Codes are equal if no point between two finite numbers separates them. -/
theorem code_unique {k l : Nat} (left : k ≤ f.infinityCode) (right : l ≤ f.infinityCode)
    (same : ∀ c < f.infinityCode, k ≤ c ↔ l ≤ c) : k = l := by
  rcases Nat.lt_trichotomy k l with below | equal | above
  · have := (same k (by omega)).mp (Nat.le_refl k)
    omega
  · exact equal
  · have := (same l (by omega)).mpr (Nat.le_refl l)
    omega

/-- What a quotient is rounded to depends on its value only. -/
theorem roundCode_congr (wide : 0 < f.fractionBits) {n' d' : Nat} (left : d ≠ 0) (right : d' ≠ 0)
    (same : (n / d : ℚ) = n' / d') : roundCode f n d = roundCode f n' d' := by
  refine code_unique (roundCode_le_infinityCode f n d) (roundCode_le_infinityCode f n' d')
    fun c finite => ?_
  rw [roundCode_le_iff wide left finite, roundCode_le_iff wide right finite, same]

/-- A normal result differs from the quotient by half of its last place at most. -/
theorem rounding_error (wide : 0 < f.fractionBits) (denominator : d ≠ 0)
    (finite : roundCode f n d < f.infinityCode) (normal : f.hidden ≤ roundCode f n d) :
    |(n / d : ℚ) - f.magnitude (roundCode f n d)| * (2 * f.hidden) ≤
      f.magnitude (roundCode f n d) := by
  have whole := Format.hidden_mul_le_magnitude normal
  have upper := (roundCode_le_iff wide denominator finite).mp (Nat.le_refl _)
  obtain ⟨t, code⟩ := Nat.exists_eq_add_of_lt (Nat.lt_of_lt_of_le (hidden_pos f) normal)
  rw [Nat.zero_add] at code
  have lower : ¬roundCode f n d ≤ t := by omega
  rw [roundCode_le_iff wide denominator (by omega)] at lower
  have gap : (2 : ℚ) ^ (f.leastExponent + f.binade t) ≤ 2 ^ (f.leastExponent + f.binade (t + 1)) := by
    refine zpow_le_zpow_right₀ one_le_two ?_
    have places : f.binade t ≤ f.binade (t + 1) :=
      Nat.sub_le_sub_right (Nat.div_le_div_right t.le_succ) 1
    omega
  rw [code] at whole upper ⊢
  rw [Format.halfway, f.magnitude_succ (t + 1)] at upper
  rw [Format.halfway, not_or, not_lt] at lower
  have hidden : (0 : ℚ) < f.hidden := by exact_mod_cast hidden_pos f
  have last := f.magnitude_succ t
  have near : |(n / d : ℚ) - f.magnitude (t + 1)| ≤ 2 ^ (f.leastExponent + f.binade (t + 1)) / 2 := by
    rw [abs_le]
    constructor
    · linarith [lower.1]
    · rcases upper with upper | ⟨upper, -⟩ <;> linarith
  calc |(n / d : ℚ) - f.magnitude (t + 1)| * (2 * f.hidden)
    _ ≤ 2 ^ (f.leastExponent + f.binade (t + 1)) / 2 * (2 * f.hidden) := by gcongr
    _ = f.hidden * 2 ^ (f.leastExponent + f.binade (t + 1)) := by ring
    _ ≤ f.magnitude (t + 1) := whole

/-! What bit patterns stand for. -/

theorem scaled_value (m : Nat) (e : Int) :
    ((m <<< e.toNat : Nat) : ℚ) / (1 <<< (-e).toNat : Nat) = m * 2 ^ e := by
  have value := scaled_quotient m 1 (-e)
  rw [Int.neg_neg, Nat.cast_one, div_one, zpow_neg, div_inv_eq_mul] at value
  exact value

theorem magnitude_of_decode {x : Binary f} {s : Bool} {m : Nat} {e : Int}
    (finite : x.decode = .finite s m e) :
    x.code < f.infinityCode ∧ x.negative = s ∧ f.magnitude x.code = m * 2 ^ e := by
  rw [decode] at finite
  split at finite
  · cases finite
  split at finite
  · cases finite
  split at finite
  · rename_i subnormal
    cases finite
    refine ⟨by omega, rfl, ?_⟩
    have value := Format.magnitude_of_place (f := f) (.inl rfl : (0 = 0 ∨ _)) (show x.code ≤ _ by omega)
    simpa using value
  · rename_i normal
    cases finite
    refine ⟨by omega, rfl, ?_⟩
    have parts := Nat.div_add_mod x.code f.hidden
    have rest := Nat.mod_lt x.code (hidden_pos f)
    have first : 1 ≤ x.code / f.hidden := (Nat.one_le_div_iff (hidden_pos f)).mpr (by omega)
    obtain ⟨b, quotient⟩ : ∃ b, x.code / f.hidden = b + 1 := ⟨x.code / f.hidden - 1, by omega⟩
    rw [quotient, Nat.mul_succ, Nat.mul_comm] at parts
    have code : x.code = b * f.hidden + (f.hidden + x.code % f.hidden) := by omega
    have exponent : f.leastExponent + ((b + 1 : Nat) : Int) - 1 = f.leastExponent + b := by omega
    rw [quotient, exponent]
    conv_lhs => rw [code]
    rw [Format.magnitude_of_place (.inr (by omega)) (by omega)]

/-- A number of the format has a code. -/
theorem Fits.exists_code {m : Nat} {e : Int} (fits : Fits f m e) :
    ∃ c < f.infinityCode, f.magnitude c = m * 2 ^ e := by
  by_cases zero : m = 0
  · subst zero
    have top := fits.top
    have least := fits.least
    refine ⟨0, infinityCode_pos (by omega), ?_⟩
    simp [Format.magnitude]
  · obtain ⟨k, normal, -, finite⟩ := roundCode_scaled zero fits
    have least := normal.least
    refine ⟨_, finite, ?_⟩
    have full : (e - k - f.leastExponent).toNat = 0 ∨ f.hidden ≤ m <<< k :=
      normal.full.imp_left fun last => by omega
    have place : f.leastExponent + ((e - k - f.leastExponent).toNat : Int) = e - k := by omega
    rw [Format.magnitude_of_place full normal.small.le, place, cast_shiftLeft, mul_assoc,
      ← zpow_add₀ two_ne_zero, add_sub_cancel]

end Binary

end ConstFold
