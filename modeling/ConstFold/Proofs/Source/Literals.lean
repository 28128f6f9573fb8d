import ConstFold.Proofs.CodeUnits
import ConstFold.Value

/-! Character and string literals as a compiler reads them. Escapes by hexadecimal digits are replaced
first, in the whole text, and the literal is taken apart only then. Literals are written unit by unit:
each written unit starts and ends after an even number of backslashes, so that neither phase sees
anything across the border of two units, and every literal reads back as the units it was written for. -/
namespace ConstFold

open ConstFold.Text

namespace Source

/-- The unit of a character of the basic plane. -/
def unitOf (c : Char) : UInt16 := UInt16.ofNat c.toNat

/-- The units of the text after the first phase, where this many backslashes stand right before it.
After an even number of them, a backslash and a `u` start an escape by four digits. -/
def translate? (backslashes : Nat) : List Char → Option (List UInt16)
  | [] => some []
  | c :: rest =>
    if c = '\\' then
      if backslashes % 2 = 0 ∧ rest.head? = some 'u' then
        let digits := rest.dropWhile (· = 'u')
        (hexNumber? 4 0 (digits.take 4)).bind fun number =>
          (translate? 0 (digits.drop 4)).map (UInt16.ofNat number.1 :: ·)
      else (translate? (backslashes + 1) rest).map (unitOf '\\' :: ·)
    else (translate? 0 rest).map (unitsOfChar c ++ ·)
termination_by text => text.length
decreasing_by
  · have shorter := (List.dropWhile_sublist (l := rest) (· = 'u')).length_le
    simp only [List.length_drop, List.length_cons]
    omega
  all_goals simp

/-- The letters of short escapes with what they stand for. -/
def shortEscapes : List (Char × Char) :=
  [('n', '\n'), ('t', '\t'), ('r', '\r'), ('b', '\x08'), ('f', '\x0c'), ('\\', '\\'), ('"', '"'),
    ('\'', '\'')]

def escaped? (letter : UInt16) : Option UInt16 :=
  (shortEscapes.find? fun (c, _) => unitOf c = letter).map fun (_, c) => unitOf c

/-- The units of a literal after its opening quote, up to the closing one, and what follows that. A line
does not end inside a literal. -/
def contents? (quote : Char) : List UInt16 → Option (List UInt16 × List UInt16)
  | [] => none
  | unit :: rest =>
    if unit = unitOf quote then some ([], rest)
    else if unit = unitOf '\\' then
      match rest with
      | [] => none
      | letter :: rest =>
        (escaped? letter).bind fun value => (contents? quote rest).map (Prod.map (value :: ·) id)
    else if unit = unitOf '\n' ∨ unit = unitOf '\r' then none
    else (contents? quote rest).map (Prod.map (unit :: ·) id)

/-- The units of a text that is one literal and nothing else. -/
def quoted? (quote : Char) (text : String) : Option (List UInt16) :=
  match translate? 0 text.toList with
  | some (first :: rest) =>
    if first = unitOf quote then
      match contents? quote rest with
      | some (values, []) => some values
      | _ => none
    else none
  | _ => none

def stringLiteral? (text : String) : Option (List UInt16) := quoted? '"' text

/-- A character literal holds one unit. -/
def charLiteral? (text : String) : Option UInt16 :=
  match quoted? '\'' text with
  | some [unit] => some unit
  | _ => none

theorem unitOf_of_charOfUnit? {unit : UInt16} {c : Char} (whole : charOfUnit? unit = some c) :
    unitOf c = unit := by
  rw [unitOf, toNat_of_charOfUnit? whole, UInt16.ofNat_toNat]

/-! The two phases, unit by unit. -/

/-- Only the parity of the number of backslashes matters. -/
theorem translate?_parity {n m : Nat} (parity : n % 2 = m % 2) (text : List Char) :
    translate? n text = translate? m text := by
  induction text generalizing n m with
  | nil => rw [translate?, translate?]
  | cons c rest ih => rw [translate?, translate?, parity, ih (by omega : (n + 1) % 2 = (m + 1) % 2)]

theorem translate?_unitEscape (unit : UInt16) (rest : List Char) :
    translate? 0 (unitEscape unit ++ rest) = (translate? 0 rest).map (unit :: ·) := by
  have number : hexNumber? 4 0 (hexDigits unit) = some (unit.toNat, []) := by
    have read := hexNumber?_hexDigits unit []
    rwa [List.append_nil] at read
  have marker : ('u' :: (hexDigits unit ++ rest)).dropWhile (· = 'u') = hexDigits unit ++ rest := by
    have bound : unit.toNat < 65536 := unit.toNat_lt
    have digits : ∀ d < 16, Nat.digitChar d ≠ 'u' := by decide
    simp [hexDigits, digits (unit.toNat / 4096) (by omega)]
  have taken : (hexDigits unit ++ rest).take 4 = hexDigits unit := rfl
  have left : (hexDigits unit ++ rest).drop 4 = rest := rfl
  rw [unitEscape_eq, List.cons_append, List.cons_append, translate?, if_pos rfl, if_pos ⟨rfl, rfl⟩]
  dsimp only
  rw [marker, taken, left, number, Option.bind_some, UInt16.ofNat_toNat]

/-- In a literal with this quote the text stands for these units, whatever follows it. So it is translated
on its own, and leaves behind no backslash that could start or hide an escape. -/
def Writes (quote : Char) (text : List Char) (values : List UInt16) : Prop :=
  ∃ translated,
    (∀ rest, translate? 0 (text ++ rest) = (translate? 0 rest).map (translated ++ ·)) ∧
      ∀ rest, contents? quote (translated ++ rest) =
        (contents? quote rest).map (Prod.map (values ++ ·) id)

variable {quote : Char}

theorem Writes.nil : Writes quote [] [] :=
  ⟨[], fun rest => (congrFun Option.map_id_fun (translate? 0 rest)).symm,
    fun rest => (congrFun Option.map_id_fun (contents? quote rest)).symm⟩

theorem Writes.append {text text' : List Char} {values values' : List UInt16}
    (first : Writes quote text values) (second : Writes quote text' values') :
    Writes quote (text ++ text') (values ++ values') := by
  obtain ⟨translated, phase, read⟩ := first
  obtain ⟨translated', phase', read'⟩ := second
  have joined : ∀ a b : List UInt16, (a ++ ·) ∘ (b ++ ·) = (a ++ b ++ ·) := by
    intro a b
    funext rest
    exact (List.append_assoc a b rest).symm
  refine ⟨translated ++ translated', ?_, ?_⟩ <;> intro rest
  · rw [List.append_assoc, phase, phase', Option.map_map, joined]
  · rw [List.append_assoc, read, read', Option.map_map, Prod.map_comp_map, joined]
    rfl

/-- The characters that do not stand for themselves in a literal. -/
def marks (quote : Char) : List Char := [quote, '\\', '\n', '\r']

def IsPlain (quote : Char) (unit : UInt16) : Prop := ∀ c ∈ marks quote, unit ≠ unitOf c

theorem contents?_plain {unit : UInt16} (plain : IsPlain quote unit) (rest : List UInt16) :
    contents? quote (unit :: rest) = (contents? quote rest).map (Prod.map (unit :: ·) id) := by
  simp only [IsPlain, marks, List.forall_mem_cons] at plain
  obtain ⟨notQuote, notEscape, sameLine, sameLine', -⟩ := plain
  rw [contents?.eq_def]
  dsimp only
  rw [if_neg notQuote, if_neg notEscape, if_neg (not_or.mpr ⟨sameLine, sameLine'⟩)]

theorem writes_unitEscape {unit : UInt16} (plain : IsPlain quote unit) :
    Writes quote (unitEscape unit) [unit] :=
  ⟨[unit], translate?_unitEscape unit, contents?_plain plain⟩

theorem writes_char {unit : UInt16} {c : Char} (whole : charOfUnit? unit = some c)
    (plain : IsPlain quote unit) : Writes quote [c] [unit] := by
  refine ⟨[unit], ?_, contents?_plain plain⟩
  intro rest
  have notEscape : c ≠ '\\' := by
    rintro rfl
    exact plain '\\' (by simp [marks]) (unitOf_of_charOfUnit? whole).symm
  rw [List.singleton_append, translate?, if_neg notEscape, unitsOfChar_of_charOfUnit? whole]

/-- The letter of a short escape stands for the character. -/
theorem shortEscape?_spec {c letter : Char} (short : shortEscape? c = some letter) :
    letter ≠ 'u' ∧ unitsOfChar letter = [unitOf letter] ∧
      escaped? (unitOf letter) = some (unitOf c) := by
  rw [shortEscape?] at short
  repeat' split at short
  all_goals cases short
  all_goals
    rename_i same
    subst same
    decide

section Escapes

variable (delimits : quote = '"' ∨ quote = '\'')

include delimits

/-- A quote may be escaped by itself. -/
theorem quote_spec : quote ≠ 'u' ∧ unitsOfChar quote = [unitOf quote] ∧
    escaped? (unitOf quote) = some (unitOf quote) := by
  rcases delimits with rfl | rfl <;> decide

/-- A short escape. Its letter starts no escape by digits, even if it is a backslash itself, since it
stands after one backslash. -/
theorem writes_short {unit : UInt16} {letter : Char} (notMarker : letter ≠ 'u')
    (basic : unitsOfChar letter = [unitOf letter]) (value : escaped? (unitOf letter) = some unit) :
    Writes quote ['\\', letter] [unit] := by
  refine ⟨[unitOf '\\', unitOf letter], ?_, ?_⟩ <;> intro rest
  · simp only [List.cons_append, List.nil_append]
    rw [translate?, if_pos rfl, if_neg (by simpa using notMarker)]
    by_cases escape : letter = '\\'
    · have even : (0 + 1 + 1) % 2 = 0 % 2 := rfl
      rw [translate?, if_pos escape, if_neg (by simp), translate?_parity even, Option.map_map, escape]
      rfl
    · rw [translate?, if_neg escape, basic, Option.map_map]
      rfl
  · have notQuote : unitOf '\\' ≠ unitOf quote := by
      rcases delimits with rfl | rfl <;> decide
    simp only [List.cons_append, List.nil_append]
    rw [contents?.eq_def]
    dsimp only
    rw [if_neg notQuote, if_pos rfl, value, Option.bind_some]

theorem isPlain_of_notMark {unit : UInt16}
    (other : ∀ c, charOfUnit? unit = some c → c ∉ marks quote) : IsPlain quote unit := by
  rintro c mark rfl
  have whole : charOfUnit? (unitOf c) = some c := by
    simp only [marks, List.mem_cons, List.not_mem_nil, or_false] at mark
    rcases delimits with rfl | rfl <;> rcases mark with rfl | rfl | rfl | rfl <;> rfl
  exact other c whole mark

/-- Every unit of a literal is written so that it reads back. -/
theorem writes_escape (unit : UInt16) : Writes quote (escape quote unit) [unit] := by
  rw [escape]
  cases whole : charOfUnit? unit with
  | none =>
    exact writes_unitEscape (isPlain_of_notMark delimits (by simp [whole]))
  | some c =>
    have same := unitOf_of_charOfUnit? whole
    subst same
    dsimp only
    cases short : shortEscape? c with
    | some letter =>
      obtain ⟨notMarker, basic, value⟩ := shortEscape?_spec short
      exact writes_short delimits notMarker basic value
    | none =>
      dsimp only
      split
      · rename_i isQuote
        subst isQuote
        obtain ⟨notMarker, basic, value⟩ := quote_spec delimits
        exact writes_short delimits notMarker basic value
      · rename_i notQuote
        have plain : IsPlain quote (unitOf c) := by
          refine isPlain_of_notMark delimits ?_
          intro d same mark
          cases whole.symm.trans same
          simp only [marks, List.mem_cons, List.not_mem_nil, or_false] at mark
          rcases mark with rfl | rfl | rfl | rfl
          · exact notQuote rfl
          all_goals cases short
        split
        · exact writes_unitEscape plain
        · exact writes_char whole plain

theorem writes_flatMap (values : List UInt16) : Writes quote (values.flatMap (escape quote)) values := by
  induction values with
  | nil => exact .nil
  | cons unit rest ih => exact (writes_escape delimits unit).append ih

theorem translate?_quote (rest : List Char) :
    translate? 0 (quote :: rest) = (translate? 0 rest).map (unitOf quote :: ·) := by
  have notEscape : quote ≠ '\\' := by
    rcases delimits with rfl | rfl <;> decide
  rw [translate?, if_neg notEscape, (quote_spec delimits).2.1]
  rfl

/-- A literal of written units is read as one literal with these units. -/
theorem quoted?_written (values : List UInt16) :
    quoted? quote (String.ofList (quote :: values.flatMap (escape quote) ++ [quote])) = some values := by
  obtain ⟨translated, phase, read⟩ := writes_flatMap delimits values
  have closed : contents? quote [unitOf quote] = some ([], []) := by
    rw [contents?.eq_def]
    exact if_pos rfl
  have whole : translate? 0 (quote :: values.flatMap (escape quote) ++ [quote]) =
      some (unitOf quote :: (translated ++ [unitOf quote])) := by
    rw [List.cons_append, translate?_quote delimits, phase, translate?_quote delimits, translate?]
    rfl
  rw [quoted?, String.toList_ofList, whole]
  dsimp only
  rw [if_pos rfl, read, closed]
  simp

end Escapes

/-- A string literal reads back as the code units of the string, which encode its characters, and a
character literal as its unit, even if that is half of a surrogate pair. -/
theorem literals_read_back :
    (∀ s : String, stringLiteral? (quoteString s) = some (units s) ∧
        characters? (units s) = some s.toList) ∧
      ∀ unit : UInt16, charLiteral? (Value.char unit).literal = some unit := by
  refine ⟨?_, ?_⟩
  · intro s
    exact ⟨quoted?_written (.inl rfl) (units s), characters?_units s⟩
  · intro unit
    have read := quoted?_written (.inr rfl) [unit]
    rw [List.flatMap_singleton] at read
    rw [charLiteral?, Value.literal, quoteUnit, read]

-- A quote that is written by its digits ends the literal, since it is replaced first.
example : stringLiteral? "\"\\u0022\"" = none := by cbv

-- After two backslashes a third one starts an escape again.
example : stringLiteral? "\"\\\\\\ud83d\\uDE00\"" = some [0x5C, 0xD83D, 0xDE00] := by cbv

end Source

end ConstFold
