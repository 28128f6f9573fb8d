import ConstFold.Json.Text
import ConstFold.Text

/-! Code units. A unit outside the surrogates is the only unit of its character, a character past the basic
plane has a high and a low surrogate, and the units of a text encode its characters. An escape of a unit has
exactly four digits, which give the unit back. -/
namespace ConstFold.Text

variable {unit : UInt16} {c : Char}

theorem toNat_of_charOfUnit? (whole : charOfUnit? unit = some c) : c.toNat = unit.toNat := by
  rw [charOfUnit?] at whole
  split at whole
  · cases whole
  · rename_i notHalf
    cases whole
    have below := unit.toNat_lt
    have valid : unit.toNat.isValidChar := by
      simp only [isSurrogate, Bool.and_eq_true, decide_eq_true_eq, Nat.isValidChar] at notHalf ⊢
      omega
    rw [Char.ofNat, dif_pos valid]
    rfl

theorem unitsOfChar_of_charOfUnit? (whole : charOfUnit? unit = some c) : unitsOfChar c = [unit] := by
  rw [unitsOfChar, toNat_of_charOfUnit? whole, if_pos unit.toNat_lt, UInt16.ofNat_toNat]

/-- The characters that a sequence of units encodes; a surrogate needs its other half. -/
def characters? : List UInt16 → Option (List Char)
  | [] => some []
  | unit :: rest =>
    match charOfUnit? unit with
    | some c => (characters? rest).map (c :: ·)
    | none =>
      match rest with
      | [] => none
      | low :: rest =>
        if Json.isHighSurrogate unit.toNat ∧ Json.isLowSurrogate low.toNat then
          (characters? rest).map (Json.pairChar unit.toNat low.toNat :: ·)
        else none

theorem exists_unit (basic : c.toNat < 0x10000) :
    ∃ unit, unitsOfChar c = [unit] ∧ charOfUnit? unit = some c := by
  have valid : c.toNat < 0xD800 ∨ 0xDFFF < c.toNat ∧ c.toNat < 0x110000 := c.valid
  have same : (UInt16.ofNat c.toNat).toNat = c.toNat := UInt16.toNat_ofNat_of_lt basic
  refine ⟨UInt16.ofNat c.toNat, if_pos basic, ?_⟩
  rw [charOfUnit?, isSurrogate, same, if_neg, Char.ofNat_toNat]
  simp only [Bool.and_eq_true, decide_eq_true_eq]
  omega

theorem exists_pair (further : 0x10000 ≤ c.toNat) :
    ∃ high low, unitsOfChar c = [high, low] ∧ charOfUnit? high = none ∧
      (Json.isHighSurrogate high.toNat ∧ Json.isLowSurrogate low.toNat) ∧
        Json.pairChar high.toNat low.toNat = c := by
  have valid : c.toNat < 0xD800 ∨ 0xDFFF < c.toNat ∧ c.toNat < 0x110000 := c.valid
  obtain ⟨offset, code⟩ : ∃ offset, c.toNat = 0x10000 + offset := ⟨c.toNat - 0x10000, by omega⟩
  have high : (UInt16.ofNat (0xD800 + offset / 0x400)).toNat = 0xD800 + offset / 0x400 :=
    UInt16.toNat_ofNat_of_lt (by rw [UInt16.size]; omega)
  have low : (UInt16.ofNat (0xDC00 + offset % 0x400)).toNat = 0xDC00 + offset % 0x400 :=
    UInt16.toNat_ofNat_of_lt (by rw [UInt16.size]; omega)
  refine ⟨UInt16.ofNat (0xD800 + offset / 0x400), UInt16.ofNat (0xDC00 + offset % 0x400), ?_, ?_, ?_, ?_⟩
  · rw [unitsOfChar, if_neg (by omega), code, Nat.add_sub_cancel_left]
  · rw [charOfUnit?, isSurrogate, high, if_pos]
    simp only [Bool.and_eq_true, decide_eq_true_eq]
    omega
  · simp only [Json.isHighSurrogate, Json.isLowSurrogate, high, low, Bool.and_eq_true, decide_eq_true_eq]
    omega
  · have sum : 0x10000 + (0xD800 + offset / 0x400 - 0xD800) * 0x400 +
        (0xDC00 + offset % 0x400 - 0xDC00) = c.toNat := by omega
    rw [high, low, Json.pairChar, sum, Char.ofNat_toNat]

theorem characters?_unitsOfChar (c : Char) (rest : List UInt16) :
    characters? (unitsOfChar c ++ rest) = (characters? rest).map (c :: ·) := by
  rcases Nat.lt_or_ge c.toNat 0x10000 with basic | further
  · obtain ⟨unit, units, whole⟩ := exists_unit basic
    rw [units, List.singleton_append, characters?.eq_def]
    dsimp only
    rw [whole]
  · obtain ⟨high, low, units, half, isPair, pair⟩ := exists_pair further
    rw [units, List.cons_append, List.singleton_append, characters?, half]
    dsimp only
    rw [if_pos isPair, pair]

/-- The units of a text encode its characters. -/
theorem characters?_units (s : String) : characters? (units s) = some s.toList := by
  rw [units]
  induction s.toList with
  | nil => rfl
  | cons c cs ih => rw [List.flatMap_cons, characters?_unitsOfChar, ih, Option.map_some]

/-! Escapes by hexadecimal digits. -/

/-- The four digits of a unit. -/
def hexDigits (unit : UInt16) : List Char :=
  [Nat.digitChar (unit.toNat / 4096), Nat.digitChar (unit.toNat / 256 % 16),
    Nat.digitChar (unit.toNat / 16 % 16), Nat.digitChar (unit.toNat % 16)]

/-- The digits of a number, with leading zeros up to a width. -/
def paddedHex (width n : Nat) : List Char :=
  List.replicate (width - (Nat.toDigits 16 n).length) '0' ++ Nat.toDigits 16 n

theorem paddedHex_succ {width : Nat} (positive : 0 < width) (n : Nat) :
    paddedHex (width + 1) n = paddedHex width (n / 16) ++ [Nat.digitChar (n % 16)] := by
  rw [paddedHex, paddedHex]
  by_cases small : n < 16
  · obtain ⟨width, rfl⟩ : ∃ less, width = less + 1 := ⟨width - 1, by omega⟩
    rw [Nat.toDigits_of_lt_base small, Nat.div_eq_of_lt small, Nat.mod_eq_of_lt small]
    change List.replicate (width + 1) '0' ++ [Nat.digitChar n] =
      List.replicate width '0' ++ ['0'] ++ [Nat.digitChar n]
    rw [List.replicate_succ']
  · rw [Nat.toDigits_of_base_le (by decide) (Nat.le_of_not_lt small), List.length_append,
      List.length_singleton, Nat.add_sub_add_right, List.append_assoc]

theorem unitEscape_eq (unit : UInt16) : unitEscape unit = '\\' :: 'u' :: hexDigits unit := by
  have bound : unit.toNat < 65536 := unit.toNat_lt
  have leading : paddedHex 1 (unit.toNat / 4096) = [Nat.digitChar (unit.toNat / 4096)] := by
    rw [paddedHex, Nat.toDigits_of_lt_base (by omega)]
    rfl
  have second : unit.toNat / 16 / 16 = unit.toNat / 256 := Nat.div_div_eq_div_mul ..
  have first : unit.toNat / 256 / 16 = unit.toNat / 4096 := Nat.div_div_eq_div_mul ..
  change '\\' :: 'u' :: paddedHex 4 unit.toNat = _
  rw [paddedHex_succ (by decide), paddedHex_succ (by decide), paddedHex_succ (by decide), second, first,
    leading]
  rfl

theorem hexDigit?_digitChar : ∀ d < 16, hexDigit? (Nat.digitChar d) = some d := by
  decide

theorem hexNumber?_hexDigits (unit : UInt16) (rest : List Char) :
    hexNumber? 4 0 (hexDigits unit ++ rest) = some (unit.toNat, rest) := by
  have bound : unit.toNat < 65536 := unit.toNat_lt
  simp only [hexDigits, List.cons_append, List.nil_append, hexNumber?,
    hexDigit?_digitChar (unit.toNat / 4096) (by omega),
    hexDigit?_digitChar (unit.toNat / 256 % 16) (by omega),
    hexDigit?_digitChar (unit.toNat / 16 % 16) (by omega),
    hexDigit?_digitChar (unit.toNat % 16) (by omega), Option.bind_some]
  congr 2
  omega

end ConstFold.Text
