import ConstFold.Proofs.CodeUnits
import ConstFold.Proofs.Idempotence
import ConstFold.Proofs.ReferenceOperands

/-! Concatenation of constants. The default passes turn a sum that starts with a string into one string.
Its code units are those of the texts of the operands, in order, except that half of a surrogate pair
becomes the replacement character. -/
namespace ConstFold

open ConstFold.Expr ConstFold.Pass

namespace Text

theorem units_append (a b : String) : units (a ++ b) = units a ++ units b := by
  rw [units, String.toList_append, List.flatMap_append]
  rfl

/-- What is left of a code unit in text made of whole characters. -/
def keptUnit (unit : UInt16) : UInt16 := if isSurrogate unit then 0xFFFD else unit

theorem keptUnit_eq_iff {unit : UInt16} : keptUnit unit = unit ↔ isSurrogate unit = false := by
  rw [keptUnit]
  split
  · rename_i surrogate
    refine iff_of_false ?_ (by simp [surrogate])
    rintro rfl
    revert surrogate
    decide
  · rename_i whole
    exact iff_of_true rfl (by simpa using whole)

theorem units_charOfUnit (unit : UInt16) : units (String.singleton (charOfUnit unit)) = [keptUnit unit] := by
  rw [charOfUnit, keptUnit]
  split
  · rename_i surrogate
    rw [charOfUnit?, if_pos surrogate]
    decide
  · rename_i notHalf
    have whole : charOfUnit? unit = some (Char.ofNat unit.toNat) := if_neg notHalf
    rw [whole, Option.getD_some, units, String.toList_singleton, List.flatMap_singleton,
      unitsOfChar_of_charOfUnit? whole]

end Text

theorem Decimal.integer_eq_toString (i : Int) : String.ofList (integer i) = toString i := by
  rw [integer, Int.toString_eq_repr, Int.repr_eq_if, Nat.repr_eq_ofList_toDigits,
    Nat.repr_eq_ofList_toDigits]
  by_cases negative : i < 0
  · have magnitude : (-i).toNat = i.natAbs := by omega
    rw [if_pos negative, if_neg (by omega), magnitude, String.ofList_cons]
    rfl
  · have magnitude : i.toNat = i.natAbs := by omega
    rw [if_neg negative, if_pos (by omega), magnitude]

namespace Value

/-- The code units that the constant adds to a string: a `char` is one unit, and integers are written
in decimal. -/
def codeUnits : Value → List UInt16
  | null => Text.units "null"
  | bool b => Text.units (toString b)
  | char unit => [unit]
  | byte i => Text.units (toString i.toInt)
  | short i => Text.units (toString i.toInt)
  | int i => Text.units (toString i.toInt)
  | long i => Text.units (toString i.toInt)
  | float x => Text.units x.javaText
  | double x => Text.units x.javaText
  | string s => Text.units s

/-- The code units of the constant that are left in text. -/
def keptUnits : Value → List UInt16
  | char unit => [Text.keptUnit unit]
  | v => v.codeUnits

theorem units_text (v : Value) : Text.units v.text = v.keptUnits := by
  cases v with
  | char unit => exact Text.units_charOfUnit unit
  | bool b => cases b <;> rfl
  | byte i | short i | int i | long i => exact congrArg Text.units (Decimal.integer_eq_toString _)
  | null | float | double | string => rfl

theorem length_keptUnits (v : Value) : v.keptUnits.length = v.codeUnits.length := by
  cases v <;> rfl

theorem keptUnits_eq_iff (v : Value) :
    v.keptUnits = v.codeUnits ↔ ∀ unit, v = char unit → Text.isSurrogate unit = false := by
  cases v with
  | char unit => simp [keptUnits, codeUnits, Text.keptUnit_eq_iff]
  | null | bool | byte | short | int | long | float | double | string => exact iff_of_true rfl nofun

/-- All units of a list of constants are left if no `char` among them is half of a pair. -/
theorem flatMap_keptUnits_eq_iff (values : List Value) :
    values.flatMap keptUnits = values.flatMap codeUnits ↔
      ∀ unit, char unit ∈ values → Text.isSurrogate unit = false := by
  induction values with
  | nil => exact iff_of_true rfl nofun
  | cons v rest ih =>
    have parts : v.keptUnits ++ rest.flatMap keptUnits = v.codeUnits ++ rest.flatMap codeUnits ↔
        v.keptUnits = v.codeUnits ∧ rest.flatMap keptUnits = rest.flatMap codeUnits := by
      refine ⟨fun same => List.append_inj same (length_keptUnits v), ?_⟩
      rintro ⟨first, others⟩
      rw [first, others]
    rw [List.flatMap_cons, List.flatMap_cons, parts, keptUnits_eq_iff, ih]
    simp only [List.mem_cons, or_imp, forall_and, eq_comm]

end Value

/-- A sum of constants that starts with a string, with the operator applied from left to right. -/
inductive IsConcatenation (first : String) : List Value → Expr → Prop
  | first : IsConcatenation first [] (.literal (.string first) ⟨some .string, []⟩)
  | plus {values : List Value} {e : Expr} {v : Value} {t : Ty} {ty : Option Ty}
      (sum : IsConcatenation first values e) (typed : ty = none ∨ ty = some .string) :
      IsConcatenation first (values ++ [v]) (.binary .plus e (.literal v ⟨some t, []⟩) ⟨ty, []⟩)

namespace Pass

theorem promotedTy?_string (t : Ty) : BinaryOp.plus.promotedTy? .string t = some .string := by
  cases t <;> rfl

section Sum

variable (text : String) (v : Value) (t : Ty) (ty : Option Ty)

theorem unpromoted_string : (BinaryOp.plus.promotedTy? .string t).filter Ty.isPrimitive = none := by
  rw [promotedTy?_string]
  rfl

theorem binaryPromotedTy?_string :
    binaryPromotedTy? .plus (.literal (.string text) ⟨some .string, []⟩) (.literal v ⟨some t, []⟩) =
      some .string := by
  rw [binaryPromotedTy?, operandTy?_literal, operandTy?_literal]
  exact promotedTy?_string t

/-- No law for sums applies to a string. -/
theorem survivingOperand?_string :
    survivingOperand? .plus (.literal (.string text) ⟨some .string, []⟩) (.literal v ⟨some t, []⟩) =
      .ok none := by
  rw [survivingOperand?, promotedOperands_unpromoted rfl rfl rfl (unpromoted_string t),
    visit_literal _ rfl, visit_literal _ rfl]
  change Except.ok (Option.map _ (survivingSide? .plus (.literal (.string text) ⟨some .string, []⟩)
    (.literal v ⟨some t, []⟩))) = _
  rw [survivingSide?, binaryPromotedTy?_string]
  rfl

/-- A string and a constant are joined as the node is left. -/
theorem leave_concatenation (table : DeclTable) (typed : ty = none ∨ ty = some .string) :
    (chain (standardPipeline table)).leave
        (.binary .plus (.literal (.string text) ⟨some .string, []⟩) (.literal v ⟨some t, []⟩) ⟨ty, []⟩) =
      .ok (.literal (.string (text ++ v.text)) ⟨some .string, []⟩) := by
  let sum : Expr :=
    .binary .plus (.literal (.string text) ⟨some .string, []⟩) (.literal v ⟨some t, []⟩) ⟨some .string, []⟩
  have reduced : reduceIdentities.step sum = .ok sum := by
    rw [reduceIdentities_binary, survivingOperand?_string]
    rfl
  have evaluated : evaluateLiterals.step sum =
      .ok (.literal (.string (text ++ v.text)) ⟨some .string, []⟩) := by
    rw [evaluateLiterals_step]
    change foldNode sum = _
    rw [foldNode_eq, foldedValue?_of_constants rfl rfl rfl (unpromoted_string t) rfl rfl
      (promotedTy?_string t) rfl]
    cases v <;> rfl
  refine leave_standard.mpr ⟨sum, ?_, sum, rfl, sum, rfl, sum, reduced, evaluated⟩
  rcases typed with rfl | rfl
  · have inferred := (inferTy?_binary (s := ⟨none, []⟩) rfl).trans (binaryPromotedTy?_string text v t)
    exact congrArg (fun ty => Except.ok (Expr.binary _ _ _ ⟨ty, []⟩)) inferred
  · rfl

end Sum

end Pass

/-- The default passes turn a sum into one string. -/
theorem IsConcatenation.fold (table : DeclTable) {first : String} {values : List Value} {e : Expr}
    (sum : IsConcatenation first values e) :
    ∃ text, ConstFold.fold table e = .ok (.literal (.string text) ⟨some .string, []⟩) ∧
      Text.units text = Text.units first ++ values.flatMap Value.keptUnits := by
  induction sum with
  | first => exact ⟨first, rfl, (List.append_nil _).symm⟩
  | plus sum typed ih =>
    rename_i values e v t ty
    obtain ⟨text, folded, units⟩ := ih
    refine ⟨text ++ v.text, ?_, ?_⟩
    · rw [ConstFold.fold] at folded ⊢
      rw [visit_binary, (standard_enterBinary _).1, (standard_enterBinary _).2, folded]
      exact leave_concatenation text v t ty table typed
    · rw [Text.units_append, units, Value.units_text, List.flatMap_append, List.flatMap_singleton,
        List.append_assoc]

/-- The string that a sum is folded to has the code units of all operands in order if and only if no
`char` among them is half of a surrogate pair. Each such half becomes `U+FFFD`. -/
theorem concatenation_exact_iff (table : DeclTable) {first : String} {values : List Value} {e : Expr}
    (sum : IsConcatenation first values e) :
    ∃ text, fold table e = .ok (.literal (.string text) ⟨some .string, []⟩) ∧
      Text.units text = Text.units first ++ values.flatMap Value.keptUnits ∧
        (Text.units text = Text.units first ++ values.flatMap Value.codeUnits ↔
          ∀ unit, Value.char unit ∈ values → Text.isSurrogate unit = false) := by
  obtain ⟨text, folded, units⟩ := sum.fold table
  refine ⟨text, folded, units, ?_⟩
  rw [units, List.append_right_inj]
  exact Value.flatMap_keptUnits_eq_iff values

namespace SumSample

/-- A constant with its own type. -/
def constant (v : Value) : Expr := .literal v ⟨some v.naturalTy, []⟩

def plus (l r : Expr) : Expr := .binary .plus l r {}

/-- The sum `"" + '\uD83D' + '\uDE00'` of the two halves of one character. -/
def halves : Expr := plus (plus (constant (.string "")) (constant (.char 0xD83D))) (constant (.char 0xDE00))

end SumSample

/-- Two halves that are joined one after the other do not become the character that they encode. -/
theorem surrogate_halves_replaced :
    fold {} SumSample.halves = .ok (SumSample.constant (.string "\uFFFD\uFFFD")) ∧
      [Value.char 0xD83D, .char 0xDE00].flatMap Value.codeUnits = Text.units "😀" ∧
        Text.units "\uFFFD\uFFFD" ≠ Text.units "😀" :=
  ⟨rfl, by decide, by decide⟩

/-- The sum `"x" + -7L + 'é' + null + true`. -/
theorem concatenation_exact_iff_mixed :
    ∃ text, fold {} (SumSample.plus (SumSample.plus (SumSample.plus (SumSample.plus
        (SumSample.constant (.string "x")) (SumSample.constant (.long (-7))))
          (SumSample.constant (.char 0xE9))) (SumSample.constant .null)) (SumSample.constant (.bool true))) =
        .ok (SumSample.constant (.string text)) ∧ Text.units text = Text.units "x-7énulltrue" := by
  obtain ⟨text, folded, -, exact⟩ := concatenation_exact_iff {}
    (.plus (.plus (.plus (.plus .first (.inl rfl)) (.inl rfl)) (.inl rfl)) (.inl rfl) :
      IsConcatenation "x" [.long (-7), .char 0xE9, .null, .bool true] _)
  refine ⟨text, folded, (exact.mpr ?_).trans ?_⟩
  · simp [Text.isSurrogate]
  · decide

end ConstFold
