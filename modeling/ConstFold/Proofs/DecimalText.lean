import ConstFold.Proofs.JsonText
import ConstFold.Proofs.ScientificText
import Mathlib.Algebra.Order.Field.Power
import Mathlib.Algebra.Order.Field.Rat
import Mathlib.Tactic.FieldSimp
import Mathlib.Tactic.Ring

/-! Laying out scientific notation keeps the number. The text is positional or has an exponent; in both
forms it is a numeral that can be read, with digits on both sides of the point and no superfluous zeros.
Where the point stands among the digits only changes the power of ten. -/
namespace ConstFold

open ConstFold.Json

/-- The number with these digits before and after the point. -/
def pointValue (whole fraction : List Char) : ℚ :=
  Nat.ofDigitChars 10 whole 0 + Nat.ofDigitChars 10 fraction 0 / 10 ^ fraction.length

namespace Json.Numeral

/-- The power of ten in the exponent. -/
def power (n : Numeral) : ℤ :=
  match n.exponent with
  | none => 0
  | some (negative, digits) =>
    if negative then -(Nat.ofDigitChars 10 digits 0) else Nat.ofDigitChars 10 digits 0

/-- The number that a numeral denotes. -/
def value (n : Numeral) : ℚ :=
  (if n.negative then -1 else 1) * (pointValue n.whole n.fraction * 10 ^ n.power)

/-- Digits stand on both sides of the point. A leading or a trailing zero is the only digit there. -/
structure IsCanonical (n : Numeral) : Prop where
  whole : n.whole ≠ [] ∧ ∀ c ∈ n.whole, c.isDigit
  fraction : n.fraction ≠ [] ∧ ∀ c ∈ n.fraction, c.isDigit
  leading : ∀ rest, n.whole = '0' :: rest → rest = []
  trailing : ∀ rest, n.fraction = rest ++ ['0'] → rest = []

end Json.Numeral

/-- All digits as one number, with the power of ten of the last one. -/
theorem pointValue_eq (whole fraction : List Char) :
    pointValue whole fraction =
      Nat.ofDigitChars 10 (whole ++ fraction) 0 * 10 ^ (-(fraction.length : ℤ)) := by
  have shifted : Nat.ofDigitChars 10 (whole ++ fraction) 0 =
      10 ^ fraction.length * Nat.ofDigitChars 10 whole 0 + Nat.ofDigitChars 10 fraction 0 := by
    rw [Nat.ofDigitChars_append]
    exact Nat.ofDigitChars_eq_ofDigitChars_zero
  rw [pointValue, shifted, zpow_neg, zpow_natCast]
  push_cast
  field_simp

namespace Decimal

variable {d : Decimal}

/-- The number `d₁.d₂…dₖ · 10 ^ exponent`. -/
def value (d : Decimal) : ℚ := pointValue (d.digits.take 1) (d.digits.drop 1) * 10 ^ d.exponent

/-- There are digits, and neither the first nor the last of them is zero. -/
structure IsNormal (d : Decimal) : Prop where
  nonempty : d.digits ≠ []
  digits : ∀ c ∈ d.digits, c.isDigit
  first : d.digits.head? ≠ some '0'
  last : d.digits.getLast? ≠ some '0'

/-! The parts of positional text. -/

theorem whole_of_neg (small : d.exponent < 0) : d.whole = ['0'] := if_pos small

theorem fraction_of_neg (small : d.exponent < 0) :
    d.fraction = List.replicate (-d.exponent - 1).toNat '0' ++ d.digits := if_pos small

theorem whole_of_nonneg {places : Nat} (exponent : d.exponent + 1 = places) (positive : 0 < places) :
    d.whole = d.digits.take places ++ List.replicate (places - d.digits.length) '0' := by
  have same : d.exponent.toNat + 1 = places := by omega
  rw [whole, if_neg (by omega), same]

theorem fraction_of_nonneg {places : Nat} (exponent : d.exponent + 1 = places) (positive : 0 < places) :
    d.fraction = orZero (d.digits.drop places) := by
  have same : d.exponent.toNat + 1 = places := by omega
  rw [fraction, if_neg (by omega), same]

/-! Values. -/

theorem pointValue_orZero (whole fraction : List Char) :
    pointValue whole (orZero fraction) = pointValue whole fraction := by
  cases fraction with
  | nil => simp [orZero, pointValue, Nat.ofDigitChars]
  | cons c cs => rfl

/-- The digits as one number, with the power of ten of the last one. -/
theorem value_eq (nonempty : d.digits ≠ []) :
    d.value = Nat.ofDigitChars 10 d.digits 0 * 10 ^ (d.exponent + 1 - d.digits.length) := by
  have length := List.length_pos_of_ne_nil nonempty
  have power : -((d.digits.length - 1 : Nat) : ℤ) + d.exponent = d.exponent + 1 - d.digits.length := by
    omega
  rw [value, pointValue_eq, List.take_append_drop, List.length_drop, mul_assoc,
    ← zpow_add₀ (by norm_num), power]

/-- Zeros fill the gap between the point and the first digit. -/
theorem pointValue_of_neg (small : d.exponent < 0) :
    pointValue d.whole d.fraction =
      Nat.ofDigitChars 10 d.digits 0 * 10 ^ (d.exponent + 1 - d.digits.length) := by
  have zeros : ∀ n, Nat.ofDigitChars 10 (['0'] ++ (List.replicate n '0' ++ d.digits)) 0 =
      Nat.ofDigitChars 10 d.digits 0 := by
    intro n
    rw [Nat.ofDigitChars_append, Nat.ofDigitChars_append, Nat.ofDigitChars_replicate_zero]
    simp [Nat.ofDigitChars]
  have power : -((List.replicate (-d.exponent - 1).toNat '0' ++ d.digits).length : ℤ) =
      d.exponent + 1 - d.digits.length := by
    rw [List.length_append, List.length_replicate]
    omega
  rw [pointValue_eq, whole_of_neg small, fraction_of_neg small, zeros, power]

/-- The point stands among the digits, or zeros fill the gap between the last digit and the point. -/
theorem pointValue_of_nonneg {places : Nat} (exponent : d.exponent + 1 = places) (positive : 0 < places) :
    pointValue d.whole d.fraction =
      Nat.ofDigitChars 10 d.digits 0 * 10 ^ (d.exponent + 1 - d.digits.length) := by
  rw [whole_of_nonneg exponent positive, fraction_of_nonneg exponent positive, pointValue_orZero,
    pointValue_eq, exponent, List.length_drop]
  rcases Nat.le_total d.digits.length places with short | long
  · have power : (places : ℤ) - d.digits.length = (places - d.digits.length : Nat) := by omega
    rw [List.take_of_length_le short, List.drop_eq_nil_of_le short, List.append_nil,
      Nat.ofDigitChars_append, Nat.ofDigitChars_replicate_zero, Nat.sub_eq_zero_of_le short, power,
      zpow_natCast]
    push_cast
    ring
  · have power : -((d.digits.length - places : Nat) : ℤ) = places - d.digits.length := by omega
    rw [Nat.sub_eq_zero_of_le long, List.replicate_zero, List.append_nil, List.take_append_drop, power]

/-- A number that is not below one has at least one place before the point. -/
theorem exists_places (large : 0 ≤ d.exponent) : ∃ places : Nat, d.exponent + 1 = places ∧ 0 < places :=
  ⟨d.exponent.toNat + 1, by omega, by omega⟩

theorem pointValue_positional (nonempty : d.digits ≠ []) : pointValue d.whole d.fraction = d.value := by
  rw [value_eq nonempty]
  rcases Int.lt_or_le d.exponent 0 with small | large
  · exact pointValue_of_neg small
  · obtain ⟨places, exponent, positive⟩ := exists_places large
    exact pointValue_of_nonneg exponent positive

/-! Digits on both sides of the point. -/

theorem isDigit_orZero {digits : List Char} (each : ∀ c ∈ digits, c.isDigit) :
    orZero digits ≠ [] ∧ ∀ c ∈ orZero digits, c.isDigit := by
  cases digits with
  | nil => simp [orZero]
  | cons c cs => exact ⟨List.cons_ne_nil c cs, each⟩

namespace IsNormal

variable (normal : d.IsNormal)

include normal

theorem leading {n : Nat} (positive : 0 < n) (after rest : List Char) :
    d.digits.take n ++ after ≠ '0' :: rest := by
  obtain ⟨c, cs, digits⟩ := List.exists_cons_of_ne_nil normal.nonempty
  obtain ⟨n, rfl⟩ : ∃ less, n = less + 1 := ⟨n - 1, by omega⟩
  intro same
  rw [digits, List.take_succ_cons, List.cons_append, List.cons.injEq] at same
  exact normal.first (by rw [digits, same.1]; rfl)

theorem trailing (before rest : List Char) : before ++ d.digits ≠ rest ++ ['0'] := by
  intro same
  have ends := congrArg List.getLast? same
  rw [List.getLast?_append_of_ne_nil _ normal.nonempty, List.getLast?_concat] at ends
  exact normal.last ends

/-- A zero ends the digits from a place on only if there are no others. -/
theorem trailing_orZero {n : Nat} {rest : List Char} (same : orZero (d.digits.drop n) = rest ++ ['0']) :
    rest = [] := by
  rw [orZero] at same
  split at same
  · exact (List.append_inj' same.symm rfl).1
  · have split := List.take_append_drop n d.digits
    rw [same, ← List.append_assoc] at split
    exact absurd split.symm (normal.trailing [] _)

/-- The digits are split after some place, and zeros may follow those before the point. -/
theorem canonical_split {places : Nat} (positive : 0 < places) (zeros : Nat) (negative : Bool)
    (exponent : Option (Bool × List Char)) :
    (⟨negative, d.digits.take places ++ List.replicate zeros '0', orZero (d.digits.drop places),
      exponent⟩ : Numeral).IsCanonical := by
  refine ⟨⟨?_, ?_⟩, isDigit_orZero ?_, ?_, ?_⟩
  · apply List.append_ne_nil_of_left_ne_nil
    simpa [normal.nonempty] using Nat.ne_of_gt positive
  · intro c member
    rcases List.mem_append.mp member with digit | zero
    · exact normal.digits c (List.mem_of_mem_take digit)
    · rw [List.eq_of_mem_replicate zero]
      rfl
  · exact fun c member => normal.digits c (List.mem_of_mem_drop member)
  · intro rest same
    exact absurd same (normal.leading positive _ rest)
  · intro rest same
    exact normal.trailing_orZero same

theorem canonical_positional (negative : Bool) :
    (⟨negative, d.whole, d.fraction, none⟩ : Numeral).IsCanonical := by
  rcases Int.lt_or_le d.exponent 0 with small | large
  · rw [whole_of_neg small, fraction_of_neg small]
    refine ⟨⟨List.cons_ne_nil _ _, by simp⟩, ⟨?_, ?_⟩, ?_, ?_⟩
    · exact List.append_ne_nil_of_right_ne_nil _ normal.nonempty
    · intro c member
      rcases List.mem_append.mp member with zero | digit
      · rw [List.eq_of_mem_replicate zero]
        rfl
      · exact normal.digits c digit
    · rintro rest ⟨⟩
      rfl
    · intro rest same
      exact absurd same (normal.trailing _ rest)
  · obtain ⟨places, exponent, positive⟩ := exists_places large
    rw [whole_of_nonneg exponent positive, fraction_of_nonneg exponent positive]
    exact normal.canonical_split positive _ negative none

theorem canonical_scientific (negative : Bool) (exponent : Option (Bool × List Char)) :
    (⟨negative, d.digits.take 1, orZero (d.digits.drop 1), exponent⟩ : Numeral).IsCanonical := by
  have split := normal.canonical_split Nat.one_pos 0 negative exponent
  rwa [List.replicate_zero, List.append_nil] at split

end IsNormal

/-! The text. -/

theorem exponent?_integer (i : Int) :
    exponent? ('E' :: integer i) = some (some (decide (i < 0), Nat.toDigits 10 i.natAbs), []) := by
  obtain ⟨nonempty, each⟩ := digits_toDigits i.natAbs
  have read : digits? (Nat.toDigits 10 i.natAbs) = some (Nat.toDigits 10 i.natAbs, []) := by
    have read := digits?_append nonempty each (rfl : ([] : List Char).head?.any Char.isDigit = false)
    rwa [List.append_nil] at read
  rw [integer]
  split
  · rename_i negative
    rw [exponent?, decide_eq_true negative]
    simp [read]
  · rename_i natural
    have unsigned : ∀ sign rest, sign.isDigit = false →
        Nat.toDigits 10 i.natAbs = sign :: rest → False := by
      intro sign rest noDigit same
      have digit := each sign (by rw [same]; exact List.mem_cons_self)
      exact absurd digit (by simp [noDigit])
    rw [exponent?, decide_eq_false natural]
    · simp [read]
    · exact fun rest => unsigned '+' rest rfl
    · exact fun rest => unsigned '-' rest rfl

/-- The parts of the text. -/
def written (negative : Bool) (d : Decimal) : Numeral :=
  if d.isPositional then ⟨negative, d.whole, d.fraction, none⟩
  else
    ⟨negative, d.digits.take 1, orZero (d.digits.drop 1),
      some (d.exponent < 0, Nat.toDigits 10 d.exponent.natAbs)⟩

theorem IsNormal.canonical_written (normal : d.IsNormal) (negative : Bool) :
    (d.written negative).IsCanonical := by
  rw [written]
  split
  · exact normal.canonical_positional negative
  · exact normal.canonical_scientific negative _

theorem IsNormal.isWellFormed_written (normal : d.IsNormal) (negative : Bool) :
    (d.written negative).IsWellFormed := by
  have canonical := normal.canonical_written negative
  refine ⟨canonical.whole.1, canonical.whole.2, canonical.leading, canonical.fraction.2, ?_⟩
  intro sign digits exponent
  rw [written] at exponent
  split at exponent
  · cases exponent
  · cases exponent
    exact digits_toDigits d.exponent.natAbs

theorem value_written (negative : Bool) (nonempty : d.digits ≠ []) :
    (d.written negative).value = if negative then -d.value else d.value := by
  have magnitude : pointValue (d.written negative).whole (d.written negative).fraction *
      10 ^ (d.written negative).power = d.value := by
    rw [written]
    split
    · rw [Numeral.power, zpow_zero, mul_one]
      exact pointValue_positional nonempty
    · rw [Numeral.power, pointValue_orZero, value]
      dsimp only
      rw [signedDigits]
  have sign : (d.written negative).negative = negative := by
    rw [written]
    split <;> rfl
  rw [Numeral.value, magnitude, sign]
  cases negative <;> simp

theorem javaText_eq (negative : Bool) (d : Decimal) :
    d.javaText negative = (if (d.written negative).negative then ['-'] else []) ++
      ((d.written negative).whole ++ '.' :: ((d.written negative).fraction ++
        if d.isPositional then [] else 'E' :: integer d.exponent)) := by
  rw [javaText, written]
  cases d.isPositional <;> cases negative <;> simp [positional, scientific]

theorem numeral?_javaText (negative : Bool) (normal : d.IsNormal) :
    numeral? (d.javaText negative) = some (d.written negative, []) := by
  have formed := normal.isWellFormed_written negative
  have point : writeFraction (d.written negative).fraction = '.' :: (d.written negative).fraction :=
    if_neg (by simpa using (normal.canonical_written negative).fraction.1)
  rw [javaText_eq, ← List.cons_append, ← point]
  cases positional : d.isPositional with
  | true =>
    have exponent : (d.written negative).exponent = none := by simp [written, positional]
    exact numeral?_parts formed (exponent ▸ rfl) rfl (by simp)
  | false =>
    have exponent : (d.written negative).exponent =
        some (decide (d.exponent < 0), Nat.toDigits 10 d.exponent.natAbs) := by simp [written, positional]
    exact numeral?_parts formed (exponent ▸ exponent?_integer d.exponent) rfl (by simp)

/-- The text of a number denotes exactly that number. Digits without superfluous zeros stand on both sides
of the point, and an exponent follows unless the number is at least `10 ^ -3` and less than `10 ^ 7`. -/
theorem javaText_exact (negative : Bool) {d : Decimal} (normal : d.IsNormal) :
    ∃ n : Numeral, numeral? (d.javaText negative) = some (n, []) ∧
      n.value = (if negative then -d.value else d.value) ∧ n.IsCanonical ∧
      (n.exponent.isSome ↔ d.exponent < -3 ∨ 7 ≤ d.exponent) := by
  refine ⟨d.written negative, numeral?_javaText negative normal, value_written negative normal.nonempty,
    normal.canonical_written negative, ?_⟩
  rw [written]
  cases positional : d.isPositional with
  | true =>
    have range : -3 ≤ d.exponent ∧ d.exponent < 7 := by simpa [isPositional] using positional
    exact iff_of_false (by simp) (by omega)
  | false =>
    have range : -3 ≤ d.exponent → 7 ≤ d.exponent := by simpa [isPositional] using positional
    exact iff_of_true rfl (by omega)

/-- Scientific text `d₁.d₂…dₖe<exponent>` with a 32-bit exponent is laid out as a text that denotes
exactly its number. Digits without superfluous zeros stand on both sides of the point, and an exponent
follows unless the number is at least `10 ^ -3` and less than `10 ^ 7`. -/
theorem layout_exact (negative : Bool) {d : Decimal} (normal : d.IsNormal)
    (low : -2147483648 ≤ d.exponent) (high : d.exponent ≤ 2147483647) :
    ∃ text, layout? negative d.toScientific = some text ∧
      ∃ n : Numeral, numeral? text.toList = some (n, []) ∧
        n.value = (if negative then -d.value else d.value) ∧ n.IsCanonical ∧
        (n.exponent.isSome ↔ d.exponent < -3 ∨ 7 ≤ d.exponent) := by
  have read := ofScientific_toScientific normal.digits low high
  have laidOut := layout?_of_digits negative (read ▸ normal.nonempty)
  rw [read] at laidOut
  refine ⟨_, laidOut, ?_⟩
  rw [String.toList_ofList]
  exact javaText_exact negative normal

/-- The least exponent of positional text, with zeros on both sides of the point. -/
theorem layout_exact_thousandths :
    (⟨['1', '2', '5'], -3⟩ : Decimal).IsNormal ∧ layout? true "1.25e-3" = some "-0.00125" ∧
      ∃ n : Numeral, numeral? "-0.00125".toList = some (n, []) ∧ n.value = -125 / 100000 ∧
        n.IsCanonical ∧ n.exponent = none := by
  have normal : (⟨['1', '2', '5'], -3⟩ : Decimal).IsNormal := ⟨by simp, by simp, by simp, by simp⟩
  have digits : Nat.ofDigitChars 10 ['1', '2', '5'] 0 = 125 := by decide
  have number : (⟨['1', '2', '5'], -3⟩ : Decimal).value = 125 / 100000 := by
    rw [value_eq normal.nonempty, digits]
    norm_num
  have laidOut : layout? true "1.25e-3" = some "-0.00125" := by decide
  obtain ⟨text, written, n, read, value, canonical, exponent⟩ :=
    layout_exact true normal (by decide) (by decide)
  obtain rfl : "-0.00125" = text := Option.some.inj (laidOut.symm.trans written)
  refine ⟨normal, laidOut, n, read, ?_, canonical, ?_⟩
  · rw [value, number]
    norm_num
  · simpa using exponent

end Decimal

end ConstFold
