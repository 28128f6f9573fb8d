import ConstFold.Json.Text
import ConstFold.Proofs.CodeUnits

/-! JSON texts that are written can be read. The reader gives back every value whose numerals are
well-formed, whatever its strings hold and however deep it is. -/
namespace ConstFold.Json

/-- Only the end of the text or of an array or object, or the next item, follows a value. -/
def endsValue : List Char → Bool
  | [] => true
  | c :: _ => c = ',' || c = ']' || c = '\x7d'

theorem endsValue_cases {rest : List Char} (ends : endsValue rest) :
    rest = [] ∨ ∃ c cs, rest = c :: cs ∧ (c = ',' ∨ c = ']' ∨ c = '\x7d') := by
  cases rest with
  | nil => exact .inl rfl
  | cons c cs =>
    simp only [endsValue, Bool.or_eq_true, decide_eq_true_eq, or_assoc] at ends
    exact .inr ⟨c, cs, rfl, ends⟩

/-! Numerals. -/

namespace Numeral

/-- A numeral has digits before the point, and after the mark of an exponent; a leading zero
stands alone. -/
structure IsWellFormed (n : Numeral) : Prop where
  nonempty : n.whole ≠ []
  whole : ∀ c ∈ n.whole, c.isDigit
  zero : ∀ rest, n.whole = '0' :: rest → rest = []
  fraction : ∀ c ∈ n.fraction, c.isDigit
  exponent : ∀ negative digits, n.exponent = some (negative, digits) →
    digits ≠ [] ∧ ∀ c ∈ digits, c.isDigit

end Numeral

theorem digits?_append {digits rest : List Char} (nonempty : digits ≠ [])
    (each : ∀ c ∈ digits, c.isDigit) (stops : rest.head?.any Char.isDigit = false) :
    digits? (digits ++ rest) = some (digits, rest) := by
  have taken : (digits ++ rest).takeWhile Char.isDigit = digits := by
    rw [List.takeWhile_append_of_pos each]
    cases rest with
    | nil => simp
    | cons c cs =>
      have stops : c.isDigit = false := stops
      simp [stops]
  rw [digits?, taken, if_neg (by simpa using nonempty), List.drop_left]

theorem whole?_append {n : Numeral} (formed : n.IsWellFormed) {rest : List Char}
    (stops : rest.head?.any Char.isDigit = false) :
    whole? (n.whole ++ rest) = some (n.whole, rest) := by
  rw [whole?, digits?_append formed.nonempty formed.whole stops]
  split
  · rename_i c cs tail same
    simp only [Option.some.injEq, Prod.mk.injEq] at same
    cases formed.zero _ same.1
  · rfl

/-- The digits after the point as written. -/
def writeFraction (fraction : List Char) : List Char :=
  if fraction.isEmpty then [] else '.' :: fraction

/-- The exponent as written. -/
def writeExponent : Option (Bool × List Char) → List Char
  | none => []
  | some (negative, digits) => 'e' :: (if negative then '-' else '+') :: digits

theorem writeNumeral_eq (n : Numeral) :
    writeNumeral n = (if n.negative then ['-'] else []) ++
      (n.whole ++ (writeFraction n.fraction ++ writeExponent n.exponent)) := by
  simp only [writeNumeral, writeFraction, List.append_assoc]
  rfl

theorem fraction?_write {fraction rest : List Char} (each : ∀ c ∈ fraction, c.isDigit)
    (stops : rest.head?.any Char.isDigit = false) (point : rest.head? ≠ some '.') :
    fraction? (writeFraction fraction ++ rest) = some (fraction, rest) := by
  cases fraction with
  | nil =>
    cases rest with
    | nil => rfl
    | cons c cs =>
      have other : c ≠ '.' := fun same => point (congrArg some same)
      simp [writeFraction, fraction?, other]
  | cons d ds =>
    change digits? (d :: ds ++ rest) = _
    exact digits?_append (List.cons_ne_nil d ds) each stops

theorem exponent?_write {exponent : Option (Bool × List Char)} {rest : List Char}
    (formed : ∀ negative digits, exponent = some (negative, digits) →
      digits ≠ [] ∧ ∀ c ∈ digits, c.isDigit) (ends : endsValue rest) :
    exponent? (writeExponent exponent ++ rest) = some (exponent, rest) := by
  have stops : rest.head?.any Char.isDigit = false := by
    rcases endsValue_cases ends with rfl | ⟨c, cs, rfl, rfl | rfl | rfl⟩ <;> rfl
  match exponent with
  | none => rcases endsValue_cases ends with rfl | ⟨c, cs, rfl, rfl | rfl | rfl⟩ <;> rfl
  | some (negative, digits) =>
    obtain ⟨nonempty, each⟩ := formed negative digits rfl
    have read := digits?_append nonempty each stops
    cases negative
    all_goals
      change (digits? (digits ++ rest)).map _ = _
      rw [read]
      rfl

/-- A numeral is read from the text of its parts, however its exponent is written. -/
theorem numeral?_parts {n : Numeral} (formed : n.IsWellFormed) {tail rest : List Char}
    (exponent : exponent? tail = some (n.exponent, rest))
    (stops : tail.head?.any Char.isDigit = false) (point : tail.head? ≠ some '.') :
    numeral? ((if n.negative then ['-'] else []) ++ (n.whole ++ (writeFraction n.fraction ++ tail))) =
      some (n, rest) := by
  have fraction := fraction?_write formed.fraction stops point
  have afterWhole : (writeFraction n.fraction ++ tail).head?.any Char.isDigit = false := by
    cases n.fraction with
    | nil => exact stops
    | cons d ds => rfl
  have whole := whole?_append formed afterWhole
  cases negative : n.negative with
  | true =>
    rw [if_pos rfl, List.singleton_append, numeral?]
    simp only [whole, fraction, exponent, Option.bind_eq_bind, Option.bind_some, ← negative]
  | false =>
    have unsigned : ∀ rest, n.whole ++ (writeFraction n.fraction ++ tail) ≠ '-' :: rest := by
      intro rest same
      obtain ⟨d, ds, digits⟩ := List.exists_cons_of_ne_nil formed.nonempty
      rw [digits, List.cons_append, List.cons.injEq] at same
      have isDigit := formed.whole d (by rw [digits]; exact List.mem_cons_self)
      rw [same.1] at isDigit
      cases isDigit
    rw [if_neg Bool.false_ne_true, List.nil_append, numeral?]
    · simp only [whole, fraction, exponent, Option.bind_eq_bind, Option.bind_some, ← negative]
    · exact unsigned

/-- A numeral is read as it was written. -/
theorem numeral?_write {n : Numeral} (formed : n.IsWellFormed) {rest : List Char}
    (ends : endsValue rest) : numeral? (writeNumeral n ++ rest) = some (n, rest) := by
  have exponent := exponent?_write formed.exponent ends
  have afterFraction : (writeExponent n.exponent ++ rest).head?.any Char.isDigit = false ∧
      (writeExponent n.exponent ++ rest).head? ≠ some '.' := by
    cases n.exponent with
    | none =>
      rcases endsValue_cases ends with rfl | ⟨c, cs, rfl, rfl | rfl | rfl⟩ <;>
        exact ⟨rfl, by simp [writeExponent]⟩
    | some power => exact ⟨rfl, by simp [writeExponent]⟩
  rw [writeNumeral_eq, List.append_assoc, List.append_assoc, List.append_assoc]
  exact numeral?_parts formed exponent afterFraction.1 afterFraction.2

/-! Strings. -/

/-- The letter of a short escape stands for the character. -/
theorem escape?_short {c letter : Char} (short : shortEscape? c = some letter) (rest : List Char) :
    escape? (letter :: rest) = some (some c, rest) := by
  rw [shortEscape?, Text.shortEscape?] at short
  repeat' split at short
  all_goals cases short
  all_goals
    rename_i same
    subst same
    rfl

/-- The code of a control stands for it. -/
theorem escape?_control {c : Char} (control : c.toNat < 32) (rest : List Char) :
    escape? ('u' :: (Text.hexDigits (UInt16.ofNat c.toNat) ++ rest)) = some (some c, rest) := by
  have unit : (UInt16.ofNat c.toNat).toNat = c.toNat :=
    UInt16.toNat_ofNat_of_lt (Nat.lt_trans control (by decide))
  have code := Text.hexNumber?_hexDigits (UInt16.ofNat c.toNat) rest
  have whole : isHighSurrogate c.toNat = false := by
    simp only [isHighSurrogate, Bool.and_eq_false_iff, decide_eq_false_iff_not]
    omega
  have char : Text.charOfCode? c.toNat = some c := by
    rw [Text.charOfCode?, if_pos (by simp; omega), Char.ofNat_toNat]
  rw [unit] at code
  rw [escape?, code]
  simp only [whole, char]
  rfl

theorem stringBody?_escape (n : Nat) {c : Char} {tail rest : List Char}
    (escaped : escape? tail = some (some c, rest)) :
    stringBody? (n + 1) ('\\' :: tail) =
      (stringBody? n rest).map fun (body, rest) => (body.map (c :: ·), rest) := by
  rw [stringBody?, escaped, Option.bind_eq_bind, Option.bind_some]
  dsimp only
  cases stringBody? n rest <;> rfl

/-- A written character is read in one step. -/
theorem stringBody?_writeChar (n : Nat) (c : Char) (rest : List Char) :
    stringBody? (n + 1) (writeChar c ++ rest) =
      (stringBody? n rest).map fun (body, rest) => (body.map (c :: ·), rest) := by
  rw [writeChar]
  split
  · rename_i letter short
    exact stringBody?_escape n (escape?_short short rest)
  · rename_i plain
    by_cases control : c.toNat < 0x20
    · rw [if_pos control, Text.unitEscape_eq]
      exact stringBody?_escape n (escape?_control control rest)
    · have quote : c ≠ '"' := by
        rintro rfl
        cases plain
      have backslash : c ≠ '\\' := by
        rintro rfl
        cases plain
      rw [if_neg control, List.singleton_append, stringBody?, if_neg control]
      · exact fun same => quote same
      · exact fun same => backslash same

theorem stringBody?_write {n : Nat} (text rest : List Char) (fuel : text.length < n) :
    stringBody? n (text.flatMap writeChar ++ '"' :: rest) = some (some text, rest) := by
  induction text generalizing n with
  | nil =>
    obtain ⟨n, rfl⟩ : ∃ k, n = k + 1 := ⟨n - 1, by simp at fuel; omega⟩
    rfl
  | cons c text ih =>
    rw [List.length_cons] at fuel
    obtain ⟨n, rfl⟩ : ∃ k, n = k + 1 := ⟨n - 1, by omega⟩
    rw [List.flatMap_cons, List.append_assoc, stringBody?_writeChar, ih (by omega)]
    rfl

theorem length_writeChar (c : Char) : 0 < (writeChar c).length := by
  rw [writeChar]
  split
  · exact Nat.zero_lt_succ 1
  · split
    · exact Nat.zero_lt_succ _
    · exact Nat.zero_lt_one

theorem length_flatMap_writeChar (text : List Char) :
    text.length ≤ (text.flatMap writeChar).length := by
  induction text with
  | nil => exact Nat.le_refl 0
  | cons c text ih =>
    have first := length_writeChar c
    rw [List.flatMap_cons, List.length_cons, List.length_append]
    omega

theorem writeString_append (s : String) (rest : List Char) :
    writeString s ++ rest = '"' :: (s.toList.flatMap writeChar ++ '"' :: rest) := by
  simp [writeString]

/-- A string is read as it was written. -/
theorem string?_write (s : String) (rest : List Char) :
    string? (writeString s ++ rest) = some (some s, rest) := by
  have bound := length_flatMap_writeChar s.toList
  have body := stringBody?_write (n := (writeString s ++ rest).length + 1) s.toList rest (by
    simp only [writeString, List.length_append, List.length_cons]
    omega)
  rw [writeString_append] at body ⊢
  rw [string?, body]
  simp

/-! Values. -/

/-- All numerals are well-formed, and every string has a text. -/
inductive IsWritten : Json → Prop where
  | null : IsWritten null
  | bool (b : Bool) : IsWritten (bool b)
  | number {n : Numeral} : n.IsWellFormed → IsWritten (number n)
  | string (s : String) : IsWritten (string s)
  | array {items : List Json} : (∀ item ∈ items, IsWritten item) → IsWritten (array items)
  | object {members : List (String × Json)} : (∀ member ∈ members, IsWritten member.2) →
    IsWritten (object members)

/-- The reader finds the value wherever it is written, with as many steps as it has characters. -/
def IsReadBack (json : Json) : Prop :=
  ∀ n rest, json.write.length < n → endsValue rest → value? n (json.write ++ rest) = some (json, rest)

theorem skipBlanks_cons {c : Char} (visible : isBlank c = false) (cs : List Char) :
    skipBlanks (c :: cs) = c :: cs := by
  rw [skipBlanks, List.dropWhile_cons, visible]
  rfl

/-- A numeral starts with its sign or a digit. -/
theorem exists_writeNumeral_cons {n : Numeral} (formed : n.IsWellFormed) :
    ∃ c cs, writeNumeral n = c :: cs ∧ (c = '-' ∨ c.isDigit) := by
  rw [writeNumeral_eq]
  cases n.negative with
  | true => exact ⟨'-', _, rfl, .inl rfl⟩
  | false =>
    obtain ⟨d, ds, digits⟩ := List.exists_cons_of_ne_nil formed.nonempty
    have isDigit := formed.whole d (by rw [digits]; exact List.mem_cons_self)
    rw [digits]
    exact ⟨d, _, rfl, .inr isDigit⟩

/-- A written value starts neither with a blank nor with the end of an array. -/
theorem exists_write_cons {json : Json} (written : json.IsWritten) :
    ∃ c cs, json.write = c :: cs ∧ isBlank c = false ∧ c ≠ ']' := by
  cases written with
  | null => exact ⟨'n', _, rfl, rfl, by decide⟩
  | bool b => cases b <;> exact ⟨_, _, rfl, rfl, by decide⟩
  | number formed =>
    obtain ⟨c, cs, same, starts⟩ := exists_writeNumeral_cons formed
    have other {d : Char} (notSign : d ≠ '-') (notDigit : d.isDigit = false) : c ≠ d := by
      rintro rfl
      rcases starts with sign | digit
      · exact notSign sign
      · rw [notDigit] at digit
        cases digit
    refine ⟨c, cs, by rw [write, same], ?_, other (by decide) rfl⟩
    simp only [isBlank, other (d := ' ') (by decide) rfl, other (d := '\n') (by decide) rfl,
      other (d := '\t') (by decide) rfl, other (d := '\r') (by decide) rfl]
    rfl
  | string s => exact ⟨'"', _, rfl, rfl, by decide⟩
  | array => exact ⟨'[', _, rfl, rfl, by decide⟩
  | object => exact ⟨'\x7b', _, rfl, rfl, by decide⟩

theorem isReadBack_number {n : Numeral} (formed : n.IsWellFormed) : (number n).IsReadBack := by
  intro fuel rest enough ends
  obtain ⟨fuel, rfl⟩ : ∃ k, fuel = k + 1 := ⟨fuel - 1, by omega⟩
  obtain ⟨c, cs, same, visible, -⟩ := exists_write_cons (.number formed)
  obtain ⟨c', cs', same', starts⟩ := exists_writeNumeral_cons formed
  have read := numeral?_write formed ends
  rw [write] at same ⊢
  cases same'.symm.trans same
  rw [same, List.cons_append] at read ⊢
  rw [value?, skipBlanks_cons visible]
  split
  all_goals
    rename_i leads
    first
    | (cases leads; rcases starts with impossible | impossible <;> cases impossible)
    | (rw [read]; rfl)

/-! One step of the reader, after the value it has found. -/

section Steps

variable {n : Nat} {cs rest tail : List Char} {item value : Json} {key : String}

theorem items?_last (read : value? n cs = some (item, ']' :: rest)) :
    items? (n + 1) cs = some ([item], rest) := by
  rw [items?, read]
  rfl

theorem items?_next {items : List Json} (read : value? n cs = some (item, ',' :: rest))
    (others : items? n rest = some (items, tail)) :
    items? (n + 1) cs = some (item :: items, tail) := by
  rw [items?, read]
  change (items? n rest >>= _) = _
  rw [others]
  rfl

theorem members?_last (opens : string? (skipBlanks cs) = some (some key, ':' :: rest))
    (read : value? n rest = some (value, '\x7d' :: tail)) :
    members? (n + 1) cs = some (some [(key, value)], tail) := by
  rw [members?, opens]
  change (value? n rest >>= _) = _
  rw [read]
  rfl

theorem members?_next {members : List (String × Json)} {after : List Char}
    (opens : string? (skipBlanks cs) = some (some key, ':' :: rest))
    (read : value? n rest = some (value, ',' :: tail))
    (others : members? n tail = some (some members, after)) :
    members? (n + 1) cs = some (some ((key, value) :: members), after) := by
  rw [members?, opens]
  change (value? n rest >>= _) = _
  rw [read]
  change (members? n tail >>= _) = _
  rw [others]
  rfl

theorem value?_string (read : string? ('"' :: cs) = some (some key, rest)) :
    value? (n + 1) ('"' :: cs) = some (string key, rest) := by
  change (string? ('"' :: cs)).map _ = _
  rw [read]
  rfl

theorem value?_array {c : Char} {items : List Json} (visible : isBlank c = false) (other : c ≠ ']')
    (read : items? n (c :: cs) = some (items, rest)) :
    value? (n + 1) ('[' :: c :: cs) = some (array items, rest) := by
  rw [value?, skipBlanks_cons rfl]
  split
  -- Only the case of a bracket is left of those that the reader tells apart.
  case h_5 opens =>
    cases opens
    rw [skipBlanks_cons visible]
    split
    · rename_i closes
      cases closes
      exact absurd rfl other
    · rw [read]
      rfl
  case h_7 notArray _ => exact absurd rfl (notArray _)
  all_goals
    rename_i differs
    cases differs

theorem value?_object {members : List (String × Json)}
    (read : members? n ('"' :: cs) = some (some members, rest)) :
    value? (n + 1) ('\x7b' :: '"' :: cs) = some (object members, rest) := by
  change (members? n ('"' :: cs)).map _ = _
  rw [read]
  rfl

end Steps

theorem writeItems_cons_cons (item next : Json) (others : List Json) :
    writeItems (item :: next :: others) = item.write ++ ',' :: writeItems (next :: others) := by
  rw [writeItems]
  exact nofun

/-- Items that are read back one by one are read back together. -/
theorem items?_write {n : Nat} {items : List Json} (rest : List Char) (nonempty : items ≠ [])
    (each : ∀ item ∈ items, item.IsReadBack) (enough : (writeItems items).length + 1 < n) :
    items? n (writeItems items ++ ']' :: rest) = some (items, rest) := by
  induction items generalizing n with
  | nil => exact absurd rfl nonempty
  | cons item others ih =>
    obtain ⟨n, rfl⟩ : ∃ k, n = k + 1 := ⟨n - 1, by omega⟩
    have first := each item List.mem_cons_self
    cases others with
    | nil =>
      rw [writeItems] at enough ⊢
      exact items?_last (first n _ (by omega) rfl)
    | cons next others =>
      rw [writeItems_cons_cons, List.length_append, List.length_cons] at enough
      rw [writeItems_cons_cons, List.append_assoc, List.cons_append]
      apply items?_next (first n _ (by omega) rfl)
      apply ih (List.cons_ne_nil next others)
      · exact fun other member => each other (List.mem_cons_of_mem item member)
      · omega

theorem writeMembers_cons_cons (key : String) (value : Json) (next : String × Json)
    (others : List (String × Json)) :
    writeMembers ((key, value) :: next :: others) =
      writeString key ++ ':' :: (value.write ++ ',' :: writeMembers (next :: others)) := by
  rw [writeMembers]
  exact nofun

/-- A key is read up to the colon that follows it. -/
theorem string?_key (key : String) (tail : List Char) :
    string? (skipBlanks (writeString key ++ tail)) = some (some key, tail) := by
  rw [writeString_append, skipBlanks_cons rfl, ← writeString_append]
  exact string?_write key tail

/-- Members whose values are read back are read back together. -/
theorem members?_write {n : Nat} {members : List (String × Json)} (rest : List Char)
    (nonempty : members ≠ []) (each : ∀ member ∈ members, member.2.IsReadBack)
    (enough : (writeMembers members).length + 1 < n) :
    members? n (writeMembers members ++ '\x7d' :: rest) = some (some members, rest) := by
  induction members generalizing n with
  | nil => exact absurd rfl nonempty
  | cons member others ih =>
    obtain ⟨key, value⟩ := member
    obtain ⟨n, rfl⟩ : ∃ k, n = k + 1 := ⟨n - 1, by omega⟩
    have first : value.IsReadBack := each (key, value) List.mem_cons_self
    cases others with
    | nil =>
      rw [writeMembers, List.length_append, List.length_cons] at enough
      rw [writeMembers, List.append_assoc, List.cons_append]
      exact members?_last (string?_key key _) (first n _ (by omega) rfl)
    | cons next others =>
      rw [writeMembers_cons_cons, List.length_append, List.length_cons, List.length_append,
        List.length_cons] at enough
      rw [writeMembers_cons_cons, List.append_assoc, List.cons_append, List.append_assoc,
        List.cons_append]
      apply members?_next (string?_key key _) (first n _ (by omega) rfl)
      apply ih (List.cons_ne_nil next others)
      · exact fun other member => each other (List.mem_cons_of_mem _ member)
      · omega

theorem exists_writeItems_cons {item : Json} (written : item.IsWritten) (others : List Json) :
    ∃ c cs, writeItems (item :: others) = c :: cs ∧ isBlank c = false ∧ c ≠ ']' := by
  obtain ⟨c, cs, same, visible, other⟩ := exists_write_cons written
  cases others with
  | nil =>
    rw [writeItems, same]
    exact ⟨c, cs, rfl, visible, other⟩
  | cons next others =>
    rw [writeItems_cons_cons, same]
    exact ⟨c, _, rfl, visible, other⟩

theorem exists_writeMembers_cons (member : String × Json) (others : List (String × Json)) :
    ∃ cs, writeMembers (member :: others) = '"' :: cs := by
  obtain ⟨key, value⟩ := member
  cases others with
  | nil =>
    rw [writeMembers, writeString_append]
    exact ⟨_, rfl⟩
  | cons next others =>
    rw [writeMembers_cons_cons, writeString_append]
    exact ⟨_, rfl⟩

/-- A well-formed value is read back. -/
theorem IsWritten.isReadBack {json : Json} (written : json.IsWritten) : json.IsReadBack := by
  induction written with
  | null =>
    intro n rest enough ends
    obtain ⟨n, rfl⟩ : ∃ k, n = k + 1 := ⟨n - 1, by omega⟩
    rfl
  | bool b =>
    intro n rest enough ends
    obtain ⟨n, rfl⟩ : ∃ k, n = k + 1 := ⟨n - 1, by omega⟩
    cases b <;> rfl
  | number formed => exact isReadBack_number formed
  | string s =>
    intro n rest enough ends
    obtain ⟨n, rfl⟩ : ∃ k, n = k + 1 := ⟨n - 1, by omega⟩
    have read := string?_write s rest
    rw [writeString_append] at read
    rw [write, writeString_append]
    exact value?_string read
  | @array items written each =>
    intro n rest enough ends
    obtain ⟨n, rfl⟩ : ∃ k, n = k + 1 := ⟨n - 1, by omega⟩
    cases items with
    | nil => rfl
    | cons item others =>
      rw [write, List.cons_append, List.cons_append, List.append_assoc, List.singleton_append]
      rw [write, List.length_append, List.length_cons, List.length_singleton] at enough
      have read := items?_write rest (List.cons_ne_nil item others) each (n := n) (by omega)
      obtain ⟨c, cs, same, visible, other⟩ :=
        exists_writeItems_cons (written item List.mem_cons_self) others
      rw [same, List.cons_append] at read ⊢
      exact value?_array visible other read
  | @object members _ each =>
    intro n rest enough ends
    obtain ⟨n, rfl⟩ : ∃ k, n = k + 1 := ⟨n - 1, by omega⟩
    cases members with
    | nil => rfl
    | cons member others =>
      rw [write, List.cons_append, List.cons_append, List.append_assoc, List.singleton_append]
      rw [write, List.length_append, List.length_cons, List.length_singleton] at enough
      have read := members?_write rest (List.cons_ne_nil member others) each (n := n) (by omega)
      obtain ⟨cs, same⟩ := exists_writeMembers_cons member others
      rw [same, List.cons_append] at read ⊢
      exact value?_object read

/-- What is written can be read. -/
theorem parse?_render {json : Json} (written : json.IsWritten) : parse? json.render = some json := by
  have read := written.isReadBack (json.write.length + 1) [] (Nat.lt_succ_self _) rfl
  rw [List.append_nil] at read
  rw [parse?, render, String.length_ofList, String.toList_ofList, read]
  rfl

end ConstFold.Json
