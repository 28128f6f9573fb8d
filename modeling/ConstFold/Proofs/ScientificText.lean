import ConstFold.Decimal
import Mathlib.Data.List.TakeWhile

/-! Scientific notation. The digits of a number are found again in its scientific text, and so is its
exponent if it has 32 bits. The shortest decimal of a positive number always has digits: zero is not
in the interval of the number, so it is never chosen. -/
namespace ConstFold.Decimal

variable {d : Decimal}

theorem digits_toDigits (n : Nat) :
    Nat.toDigits 10 n ≠ [] ∧ ∀ c ∈ Nat.toDigits 10 n, c.isDigit :=
  ⟨Nat.toDigits_ne_nil, fun _ member => Nat.isDigit_of_mem_toDigits (by decide) (by decide) member⟩

/-! The exponent. -/

theorem splitSign_integer (i : Int) :
    splitSign (integer i) = (decide (i < 0), Nat.toDigits 10 i.natAbs) := by
  obtain ⟨nonempty, each⟩ := digits_toDigits i.natAbs
  rw [integer]
  split
  · rename_i negative
    rw [decide_eq_true negative]
    rfl
  · rename_i natural
    rw [decide_eq_false natural]
    cases digits : Nat.toDigits 10 i.natAbs with
    | nil => exact absurd digits nonempty
    | cons c cs =>
      have digit : c.isDigit := each c (by rw [digits]; exact List.mem_cons_self)
      rw [splitSign]
      · rintro rest ⟨⟩
        cases digit
      · rintro rest ⟨⟩
        cases digit

/-- The digits of an integer give it back with its sign. -/
theorem signedDigits (i : Int) :
    (if decide (i < 0) then -(Nat.ofDigitChars 10 (Nat.toDigits 10 i.natAbs) 0 : Int)
      else Nat.ofDigitChars 10 (Nat.toDigits 10 i.natAbs) 0) = i := by
  rw [Nat.ofDigitChars_ten_toDigits]
  by_cases negative : i < 0
  · rw [decide_eq_true negative, if_pos rfl]
    omega
  · rw [decide_eq_false negative, if_neg Bool.false_ne_true]
    omega

theorem int32?_integer {i : Int} (low : -2147483648 ≤ i) (high : i ≤ 2147483647) :
    int32? (integer i) = some i := by
  obtain ⟨nonempty, each⟩ := digits_toDigits i.natAbs
  have written : ((Nat.toDigits 10 i.natAbs).isEmpty || !(Nat.toDigits 10 i.natAbs).all Char.isDigit) =
      false := by
    simpa [nonempty] using each
  rw [int32?, splitSign_integer]
  dsimp only
  rw [signedDigits, written, if_neg Bool.false_ne_true, if_pos (by simp [low, high])]

/-! The whole text. -/

theorem splitMark_append {mantissa : List Char} (unmarked : ∀ c ∈ mantissa, (c != 'e') = true)
    (exponent : List Char) : splitMark (mantissa ++ 'e' :: exponent) = (mantissa, exponent) := by
  rw [splitMark, List.dropWhile_append_of_pos unmarked, List.takeWhile_append_of_pos unmarked]
  simp

/-- A point after the first digit is neither a mark nor a digit. -/
theorem mantissa_digits {point : List Char} (shape : point = [] ∨ point = ['.'])
    (each : ∀ c ∈ d.digits, c.isDigit) :
    (∀ c ∈ d.digits.take 1 ++ point ++ d.digits.drop 1, (c != 'e') = true) ∧
      (d.digits.take 1 ++ point ++ d.digits.drop 1).filter Char.isDigit = d.digits := by
  constructor
  · intro c member
    have kinds : c.isDigit ∨ c = '.' := by
      rcases List.mem_append.mp member with front | back
      · rcases List.mem_append.mp front with first | dot
        · exact .inl (each c (List.mem_of_mem_take first))
        · rcases shape with rfl | rfl
          · cases dot
          · exact .inr (List.mem_singleton.mp dot)
      · exact .inl (each c (List.mem_of_mem_drop back))
    rw [bne_iff_ne]
    rintro rfl
    rcases kinds with digit | dot
    · cases digit
    · cases dot
  · have dropped : point.filter Char.isDigit = [] := by
      rcases shape with rfl | rfl <;> rfl
    have all : d.digits.filter Char.isDigit = d.digits := List.filter_eq_self.mpr each
    rw [List.filter_append, List.filter_append, dropped, List.append_nil, ← List.filter_append,
      List.take_append_drop, all]

theorem ofScientific_toScientific_eq (each : ∀ c ∈ d.digits, c.isDigit) :
    ofScientific d.toScientific = ⟨d.digits, (int32? (integer d.exponent)).getD 0⟩ := by
  have shape : (if d.digits.length ≤ 1 then [] else ['.']) = [] ∨
      (if d.digits.length ≤ 1 then [] else ['.']) = ['.'] := by
    split
    · exact .inl rfl
    · exact .inr rfl
  obtain ⟨unmarked, digits⟩ := mantissa_digits shape each
  rw [ofScientific, toScientific, String.toList_ofList, splitMark_append unmarked]
  dsimp only
  rw [digits]

/-- A number is read from its scientific text. -/
theorem ofScientific_toScientific (each : ∀ c ∈ d.digits, c.isDigit) (low : -2147483648 ≤ d.exponent)
    (high : d.exponent ≤ 2147483647) : ofScientific d.toScientific = d := by
  rw [ofScientific_toScientific_eq each, int32?_integer low high]
  rfl

/-- A text with a digit is laid out. -/
theorem layout?_of_digits {text : String} (negative : Bool) (nonempty : (ofScientific text).digits ≠ []) :
    layout? negative text = some (String.ofList ((ofScientific text).javaText negative)) := by
  rw [layout?, if_neg (by simp [nonempty])]

/-! The shortest decimal. -/

theorem digits_ofNat {n : Nat} (positive : 0 < n) (power : Int) :
    (ofNat n power).digits ≠ [] ∧ ∀ c ∈ (ofNat n power).digits, c.isDigit := by
  obtain ⟨-, each⟩ := digits_toDigits n
  constructor
  · intro none
    -- the digits would all be zero, and so would the number
    have zeros : ∀ c ∈ Nat.toDigits 10 n, c = '0' := by
      intro c member
      have dropped := List.dropWhile_eq_nil_iff.mp (List.reverse_eq_nil_iff.mp none)
      exact beq_iff_eq.mp (dropped c (List.mem_reverse.mpr member))
    have value := Nat.ofDigitChars_ten_toDigits (n := n)
    rw [List.eq_replicate_of_mem zeros, Nat.ofDigitChars_replicate_zero] at value
    omega
  · intro c member
    have kept := (List.dropWhile_sublist _).subset (List.mem_reverse.mp member)
    exact each c (List.mem_reverse.mp kept)

namespace Interval

theorem lower_ofBinary (f : Format) {significand : Nat} (positive : 0 < significand) (exponent : Int) :
    0 < (ofBinary f significand exponent).lower ∧ 0 < (ofBinary f significand exponent).value := by
  have unit : 0 < 1 <<< (exponent - 2).toNat := by
    rw [Nat.shiftLeft_eq, Nat.one_mul]
    exact Nat.two_pow_pos _
  constructor
  · apply Nat.mul_pos _ unit
    split <;> omega
  · exact Nat.mul_pos (by omega) unit

/-- What is nearest to a positive number is positive: below its interval there is still room for zero. -/
theorem nearest?_pos {i : Interval} (lower : 0 < i.lower) (value : 0 < i.value) {tie : Tie} {power : Int}
    {n : Nat} (found : i.nearest? tie power = some n) : 0 < n := by
  have up : 0 < Nat.pow 10 (-power).toNat := Nat.pow_pos (by decide)
  have floor_pos {floor step : Nat}
      (low : i.admits (i.lower * Nat.pow 10 (-power).toNat) (floor * step)) : 0 < floor := by
    have bound := Nat.mul_pos lower up
    cases floor with
    | zero =>
      rw [admits, Nat.zero_mul, Bool.or_eq_true, Bool.and_eq_true, decide_eq_true_eq, beq_iff_eq] at low
      omega
    | succ less => exact Nat.succ_pos less
  rw [nearest?.eq_def] at found
  dsimp only at found
  split at found
  · rename_i exact
    cases found
    have product := Nat.mul_pos value up
    rw [← Nat.div_add_mod (i.value * _) (i.denominator * Nat.pow 10 power.toNat), exact, Nat.add_zero]
      at product
    exact Nat.pos_of_mul_pos_left product
  · split at found
    · rename_i both
      have low := floor_pos (Bool.and_eq_true _ _ ▸ both).1
      split at found
      · cases found
        exact low
      · split at found
        · cases found
          exact Nat.succ_pos _
        · cases tie with
          | up =>
            cases found
            exact Nat.succ_pos _
          | even =>
            cases found
            exact Nat.add_pos_left low _
    · split at found
      · rename_i low
        cases found
        exact floor_pos low
      · split at found
        · cases found
          exact Nat.succ_pos _
        · cases found

end Interval

theorem digits_shortest (f : Format) (tie : Tie) {significand : Nat} (positive : 0 < significand)
    (exponent : Int) :
    (shortest f tie significand exponent).digits ≠ [] ∧
      ∀ c ∈ (shortest f tie significand exponent).digits, c.isDigit := by
  obtain ⟨lower, value⟩ := Interval.lower_ofBinary f positive exponent
  rw [shortest]
  dsimp only
  cases found : List.findSome? _ (List.range 17) with
  | none => exact digits_ofNat value 0
  | some chosen =>
    obtain ⟨k, -, here⟩ := List.exists_of_findSome?_eq_some found
    obtain ⟨n, nearest, rfl⟩ := Option.map_eq_some_iff.mp here
    exact digits_ofNat (Interval.nearest?_pos lower value nearest) _

end ConstFold.Decimal
