import ConstFold.Expr.Printer
import ConstFold.Proofs.Source.Unambiguity
import ConstFold.Proofs.Traversal

/-! Printed expressions read back as what they are. Blanks and parentheses keep the tokens apart and
the operands together, so that the text has one reading. -/
namespace ConstFold

namespace Source

namespace Alphabet

variable (letters : Alphabet)

def isWord (text : String) : Bool :=
  match text.toList with
  | [] => false
  | c :: cs => letters.starts c && cs.all letters.continues

def isNumeral (text : String) : Bool :=
  match text.toList with
  | [] => false
  | c :: cs => c.isDigit && cs.all letters.inNumeral

/-- A word that may be the name of a variable or a method. -/
def isIdentifier (text : String) : Bool := letters.isWord text && !reserved.contains text

end Alphabet

/-- What stands after words and numbers in printed text. -/
def endsWord (c : Char) : Bool := [' ', '(', ')', ',', '+', '-'].contains c

/-- The text is cut into these tokens, if what follows does not go on with the last of them. -/
def Written (letters : Alphabet) (text : String) (tokens : List Token) : Prop :=
  ∀ rest others, (∀ c ∈ rest.head?, endsWord c = true) → letters.Lexes rest others →
    letters.Lexes (text.toList ++ rest) (tokens ++ others)

/-- The text starts with a word, a number or a parenthesis. -/
def Opens (letters : Alphabet) (text : String) : Prop :=
  ∃ c cs, text.toList = c :: cs ∧ (letters.starts c || c.isDigit || c == '(') = true

theorem Opens.append {letters : Alphabet} {text : String} (opens : Opens letters text) (more : String) :
    Opens letters (text ++ more) := by
  obtain ⟨c, cs, chars, first⟩ := opens
  exact ⟨c, cs ++ more.toList, by rw [String.toList_append, chars, List.cons_append], first⟩

/-- The text of a phrase. No sign stands at the start of one that is tighter than the signs. -/
def IsSource (letters : Alphabet) (level : Nat) (text : String) (t : Tree) : Prop :=
  ∃ tokens, Written letters text tokens ∧ Phrase level tokens t ∧
    (unaryLevel < level → Opens letters text)

variable {letters : Alphabet}

theorem inNumeral_of_endsWord {c : Char} (ends : endsWord c = true) : letters.inNumeral c = false := by
  simp only [endsWord, List.contains_eq_mem, List.mem_cons, List.not_mem_nil, or_false,
    decide_eq_true_eq] at ends
  obtain rfl | rfl | rfl | rfl | rfl | rfl := ends <;> rfl

theorem continues_of_endsWord {c : Char} (ends : endsWord c = true) : letters.continues c = false :=
  (Bool.or_eq_false_iff.mp (inNumeral_of_endsWord ends)).1

theorem written_word {text : String} (word : letters.isWord text = true) :
    Opens letters text ∧ Written letters text [.word text] := by
  rw [Alphabet.isWord] at word
  split at word
  · cases word
  · rename_i c cs chars
    obtain ⟨first, further⟩ := Bool.and_eq_true_iff.mp word
    have spelled : String.ofList (c :: cs) = text := by rw [← chars, String.ofList_toList]
    refine ⟨⟨c, cs, chars, by rw [first]; rfl⟩, ?_⟩
    intro rest others ends lexes
    rw [chars, ← spelled]
    exact .word first further (fun d next => continues_of_endsWord (ends d next)) lexes

theorem written_numeral {text : String} (numeral : letters.isNumeral text = true) :
    Opens letters text ∧ Written letters text [.numeral text] := by
  rw [Alphabet.isNumeral] at numeral
  split at numeral
  · cases numeral
  · rename_i c cs chars
    obtain ⟨first, further⟩ := Bool.and_eq_true_iff.mp numeral
    have spelled : String.ofList (c :: cs) = text := by rw [← chars, String.ofList_toList]
    refine ⟨⟨c, cs, chars, by simp [first]⟩, ?_⟩
    intro rest others ends lexes
    rw [chars, ← spelled]
    exact .numeral first further (fun d next => inNumeral_of_endsWord (ends d next)) lexes

theorem lexes_bracket (symbol : String) (bracket : symbol ∈ ["(", ")", ","]) {rest : List Char}
    {others : List Token} (lexes : letters.Lexes rest others) :
    letters.Lexes (symbol.toList ++ rest) (.symbol symbol :: others) := by
  have table : ∀ symbol ∈ ["(", ")", ","], symbol ∈ symbols ∧ Alphabet.extensions symbol = [] := by
    decide
  obtain ⟨member, alone⟩ := table symbol bracket
  exact .symbol member (by simp [alone]) lexes

theorem between_spelled {level : Nat} {symbol : String} {op : BinaryOp}
    (member : (symbol, op) ∈ (row level).between) :
    level < unaryLevel ∧ symbol ∈ symbols ∧ ' ' ∉ Alphabet.extensions symbol := by
  have table := forall_row (P := fun level row => ∀ entry ∈ row.between,
    level < unaryLevel ∧ entry.1 ∈ symbols ∧ ' ' ∉ Alphabet.extensions entry.1)
    nofun (by decide) level
  exact table (symbol, op) member

theorem after_spelled {level : Nat} {symbol : String} {op : UnaryOp}
    (member : (symbol, op) ∈ (row level).after) :
    symbol ∈ symbols ∧ Alphabet.extensions symbol = [] ∧ symbol.toList.head?.any endsWord = true := by
  have table := forall_row (P := fun _ row => ∀ entry ∈ row.after,
    entry.1 ∈ symbols ∧ Alphabet.extensions entry.1 = [] ∧ entry.1.toList.head?.any endsWord = true)
    nofun (by decide) level
  exact table (symbol, op) member

theorem before_spelled {level : Nat} {symbol : String} {op : UnaryOp}
    (member : (symbol, op) ∈ (row level).before) :
    symbol ∈ symbols ∧ Alphabet.extensions symbol ⊆ ['+', '-', '=', '>'] := by
  have table := forall_row (P := fun _ row => ∀ entry ∈ row.before,
    entry.1 ∈ symbols ∧ Alphabet.extensions entry.1 ⊆ ['+', '-', '=', '>'])
    nofun (by decide) level
  exact table (symbol, op) member

theorem Phrase.looser {level level' : Nat} {tokens : List Token} {t : Tree}
    (phrase : Phrase level tokens t) (le : level' ≤ level) : Phrase level' tokens t := by
  induction le with
  | refl => exact phrase
  | step _ ih => exact ih phrase.tighter

namespace IsSource

variable {level level' : Nat} {text : String} {t : Tree}

theorem looser (source : IsSource letters level text t) (le : level' ≤ level) :
    IsSource letters level' text t := by
  obtain ⟨tokens, written, phrase, opens⟩ := source
  exact ⟨tokens, written, phrase.looser le, fun tight => opens (Nat.lt_of_lt_of_le tight le)⟩

theorem parses (source : IsSource letters level text t) : Parses letters text t := by
  obtain ⟨tokens, written, phrase, -⟩ := source
  refine ⟨tokens, ?_, phrase.looser (Nat.zero_le level)⟩
  simpa using written [] [] nofun .done

theorem parens (source : IsSource letters level text t) :
    IsSource letters primaryLevel ("(" ++ text ++ ")") t := by
  obtain ⟨tokens, written, phrase, -⟩ := source
  refine ⟨_, ?_, .parens (phrase.looser (Nat.zero_le level)), ?_⟩
  · intro rest others ends lexes
    have closed := lexes_bracket ")" (by decide) lexes
    have inner := written _ _ (by simp [endsWord]) closed
    simpa using lexes_bracket "(" (by decide) inner
  · intro _
    exact ⟨'(', text.toList ++ [')'], by simp, rfl⟩

/-- An operand is put in parentheses unless it is tight enough. -/
theorem operand {needed : Bool} (source : IsSource letters level text t)
    (fits : needed = false → level' ≤ level) (bound : level' ≤ primaryLevel) :
    IsSource letters level' (Expr.parens needed text) t := by
  cases needed with
  | false => exact source.looser (fits rfl)
  | true => exact source.parens.looser bound

theorem between {symbol left right : String} {op : BinaryOp} {l r : Tree}
    (member : (symbol, op) ∈ (row level).between) (lhs : IsSource letters level left l)
    (rhs : IsSource letters (level + 1) right r) :
    IsSource letters level (left ++ " " ++ symbol ++ " " ++ right) (.binary op l r) := by
  obtain ⟨loose, spelled, apart⟩ := between_spelled member
  obtain ⟨ls, writtenLeft, phraseLeft, -⟩ := lhs
  obtain ⟨rs, writtenRight, phraseRight, -⟩ := rhs
  refine ⟨_, ?_, .between member phraseLeft phraseRight, fun tight => by omega⟩
  intro rest others ends lexes
  have afterBlank := Alphabet.Lexes.blank (c := ' ') rfl (writtenRight rest others ends lexes)
  have afterLeft := Alphabet.Lexes.symbol spelled (by simpa using apart) afterBlank
  have whole := writtenLeft _ _ (by simp [endsWord]) (Alphabet.Lexes.blank (c := ' ') rfl afterLeft)
  simpa using whole

theorem after {symbol : String} {op : UnaryOp} (member : (symbol, op) ∈ (row level).after)
    (source : IsSource letters level text t) : IsSource letters level (text ++ symbol) (.unary op t) := by
  obtain ⟨spelled, alone, apart⟩ := after_spelled member
  obtain ⟨tokens, written, phrase, opens⟩ := source
  refine ⟨_, ?_, .after member phrase, ?_⟩
  · intro rest others ends lexes
    have operator := Alphabet.Lexes.symbol spelled (by simp [alone]) lexes
    have follows : ∀ c ∈ (symbol.toList ++ rest).head?, endsWord c = true := by
      cases chars : symbol.toList with
      | nil => simp [chars] at apart
      | cons c cs => simpa [chars] using apart
    simpa using written _ _ follows operator
  · intro tight
    exact (opens tight).append symbol

theorem before {symbol : String} {op : UnaryOp} (member : (symbol, op) ∈ (row level').before)
    (source : IsSource letters level text t) (tight : level' < level) :
    IsSource letters level' (symbol ++ text) (.unary op t) := by
  obtain ⟨spelled, further⟩ := before_spelled member
  obtain ⟨rfl, -⟩ := before_facts member
  obtain ⟨tokens, written, phrase, opens⟩ := source
  obtain ⟨c, cs, chars, first⟩ := opens tight
  -- A sign or a comparison would make a longer symbol of the operator, but the operand has neither.
  have apart : c ∉ Alphabet.extensions symbol := by
    intro longer
    have sign := further longer
    simp only [List.mem_cons, List.not_mem_nil, or_false] at sign
    obtain rfl | rfl | rfl | rfl := sign <;> exact Bool.false_ne_true first
  refine ⟨_, ?_, .before member (phrase.looser (Nat.le_of_lt tight)), fun tight => by omega⟩
  intro rest others ends lexes
  have whole := Alphabet.Lexes.symbol spelled (by simpa [chars] using apart) (written rest others ends lexes)
  simpa using whole

end IsSource

/-- The texts of arguments, with commas between them. -/
theorem written_arguments {names : NameTable} {args : List Expr} {tree : Expr → Tree}
    (each : ∀ x ∈ args, IsSource letters 0 (x.render names) (tree x)) :
    ∃ parts : List (List Token × Tree), parts.map Prod.snd = args.map tree ∧
      (∀ part ∈ parts, Phrase 0 part.1 part.2) ∧
      Written letters (Expr.renderArgs names args) ([.symbol ","].intercalate (parts.map Prod.fst)) := by
  induction args with
  | nil => exact ⟨[], rfl, nofun, fun rest others _ lexes => lexes⟩
  | cons x others ih =>
    obtain ⟨⟨tokens, written, phrase, -⟩, each⟩ := List.forall_mem_cons.mp each
    obtain ⟨parts, trees, phrases, more⟩ := ih each
    refine ⟨(tokens, tree x) :: parts, by rw [List.map_cons, trees, List.map_cons],
      List.forall_mem_cons.mpr ⟨phrase, phrases⟩, ?_⟩
    cases others with
    | nil =>
      cases List.map_eq_nil_iff.mp trees
      rw [List.map_singleton, List.intercalate_singleton]
      exact written
    | cons next others =>
      intro rest following ends lexes
      have separate : parts.map Prod.fst ≠ [] := by
        rw [Ne, List.map_eq_nil_iff]
        rintro rfl
        cases trees
      have afterComma := Alphabet.Lexes.blank (c := ' ') rfl (more rest following ends lexes)
      have afterFirst := lexes_bracket "," (by decide) afterComma
      rw [List.map_cons, List.intercalate_cons_of_ne_nil separate, Expr.renderArgs]
      · simpa using written _ _ (by simp [endsWord]) afterFirst
      · nofun

theorem word_of_isIdentifier {text : String} (identifier : letters.isIdentifier text = true) :
    letters.isWord text = true ∧ text ∉ reserved := by
  simpa [Alphabet.isIdentifier] using identifier

namespace IsSource

theorem name {text : String} (identifier : letters.isIdentifier text = true) :
    IsSource letters primaryLevel text (.name text) := by
  obtain ⟨word, free⟩ := word_of_isIdentifier identifier
  obtain ⟨opens, written⟩ := written_word word
  exact ⟨_, written, .name free, fun _ => opens⟩

theorem call {names : NameTable} {text : String} {args : List Expr} {tree : Expr → Tree}
    (identifier : letters.isIdentifier text = true)
    (each : ∀ x ∈ args, IsSource letters 0 (x.render names) (tree x)) :
    IsSource letters primaryLevel (text ++ "(" ++ Expr.renderArgs names args ++ ")")
      (.call text (args.map tree)) := by
  obtain ⟨word, free⟩ := word_of_isIdentifier identifier
  obtain ⟨opens, written⟩ := written_word word
  obtain ⟨parts, trees, phrases, more⟩ := written_arguments each
  rw [← trees]
  refine ⟨_, ?_, .call free phrases, ?_⟩
  · intro rest others ends lexes
    have closed := lexes_bracket ")" (by decide) lexes
    have inner := more _ _ (by simp [endsWord]) closed
    have opened := lexes_bracket "(" (by decide) inner
    simpa using written _ _ (by simp [endsWord]) opened
  · intro _
    rw [String.append_assoc, String.append_assoc]
    exact opens.append _

theorem constant {v : Value} {text : String} (member : (text, v) ∈ constants) :
    IsSource letters primaryLevel text (.literal v) := by
  have word : letters.isWord text = true := by
    simp only [constants, List.mem_cons, Prod.mk.injEq, List.not_mem_nil, or_false] at member
    obtain ⟨rfl, -⟩ | ⟨rfl, -⟩ | ⟨rfl, -⟩ := member <;> rfl
  obtain ⟨opens, written⟩ := written_word word
  exact ⟨_, written, .constant member, fun _ => opens⟩

theorem numeral {text : String} {v : Value} (numeral : letters.isNumeral text = true)
    (value : integer? text.toList = some v) : IsSource letters primaryLevel text (.literal v) := by
  obtain ⟨opens, written⟩ := written_numeral numeral
  exact ⟨_, written, .numeral value, fun _ => opens⟩

end IsSource

/-! Integer literals. -/

theorem isDigit_toDigits {n : Nat} {c : Char} (member : c ∈ Nat.toDigits 10 n) : c.isDigit = true :=
  Nat.isDigit_of_mem_toDigits (by decide) (by decide) member

theorem isNumeral_digits (n : Nat) {mark : List Char} (marked : mark.all letters.inNumeral = true) :
    letters.isNumeral (String.ofList (Nat.toDigits 10 n ++ mark)) = true := by
  rw [Alphabet.isNumeral, String.toList_ofList]
  cases chars : Nat.toDigits 10 n with
  | nil => exact absurd chars Nat.toDigits_ne_nil
  | cons c cs =>
    have digits : ∀ d ∈ c :: cs, d.isDigit = true := fun d member => isDigit_toDigits (chars ▸ member)
    obtain ⟨first, further⟩ := List.forall_mem_cons.mp digits
    have inside : cs.all letters.inNumeral = true := by
      rw [List.all_eq_true]
      intro d member
      simp [Alphabet.inNumeral, Alphabet.continues, further d member]
    change (c.isDigit && (cs ++ mark).all letters.inNumeral) = true
    rw [first, List.all_append, inside, marked]
    rfl

theorem decimal?_toDigits (n : Nat) : decimal? (Nat.toDigits 10 n) = some n := by
  rw [decimal?, Nat.ofDigitChars_toDigits (by decide) (by decide), if_pos rfl]

theorem integer?_int {i : Int32} (nonneg : 0 ≤ i.toInt) :
    integer? (Nat.toDigits 10 i.toInt.toNat) = some (.int i) := by
  have bound := i.toInt_lt
  have unmarked : ∀ mark, (Nat.toDigits 10 i.toInt.toNat).getLast? = some mark → mark.isDigit = true :=
    fun mark last => isDigit_toDigits (List.mem_of_getLast? last)
  rw [integer?, if_neg, decimal?_toDigits, Option.filter_some, if_pos (decide_eq_true (by omega)),
    Option.map_some, Int.toNat_of_nonneg nonneg, Int32.ofInt_toInt]
  rintro (last | last) <;> cases unmarked _ last

theorem integer?_long {i : Int64} (nonneg : 0 ≤ i.toInt) :
    integer? (Nat.toDigits 10 i.toInt.toNat ++ ['L']) = some (.long i) := by
  have bound := i.toInt_lt
  rw [integer?, if_pos (.inl List.getLast?_concat), List.dropLast_concat, decimal?_toDigits,
    Option.filter_some, if_pos (decide_eq_true (by omega)), Option.map_some,
    Int.toNat_of_nonneg nonneg, Int64.ofInt_toInt]

theorem integer_of_nonneg {i : Int} (nonneg : 0 ≤ i) : Decimal.integer i = Nat.toDigits 10 i.toNat := by
  rw [Decimal.integer, if_neg (by omega)]
  congr 1
  omega

/-- A literal whose digits are followed by the mark of its type. -/
theorem isSource_integer {v : Value} {i : Int} (mark : List Char) (nonneg : 0 ≤ i)
    (text : v.literal = String.ofList (Decimal.integer i ++ mark))
    (marked : mark.all letters.inNumeral = true)
    (value : integer? (Nat.toDigits 10 i.toNat ++ mark) = some v) :
    IsSource letters primaryLevel v.literal (.literal v) := by
  rw [text, integer_of_nonneg nonneg]
  apply IsSource.numeral (isNumeral_digits _ marked)
  rw [String.toList_ofList, value]

end Source

namespace Expr

open Source

/-- A node without casts: an integer that is not negative, a truth value, a name that is an
identifier, or an operator other than `instanceof`. -/
def isPlain (letters : Alphabet) (names : NameTable) (e : Expr) : Bool :=
  e.casts.isEmpty &&
    match e with
    | literal (.int i) _ => 0 ≤ i.toInt
    | literal (.long i) _ => 0 ≤ i.toInt
    | literal (.bool _) _ => true
    | literal _ _ | typeRef _ _ => false
    | read _ n _ | call n _ _ => (names.text? n).any letters.isIdentifier
    | unary _ _ _ => true
    | binary op _ _ _ => op != .instanceOf

mutual

/-- The operators, names, literals and arguments of an expression. -/
def tree (names : NameTable) : Expr → Tree
  | literal v _ => .literal v
  | read _ n _ => .name (names.display n)
  | typeRef t _ => .name (t.render names)
  | call n args _ => .call (names.display n) (trees names args)
  | unary op x _ => .unary op (x.tree names)
  | binary op l r _ => .binary op (l.tree names) (r.tree names)

def trees (names : NameTable) : List Expr → List Tree
  | [] => []
  | e :: rest => e.tree names :: trees names rest

end

theorem trees_eq (names : NameTable) (args : List Expr) : trees names args = args.map (tree names) := by
  induction args with
  | nil => rfl
  | cons e rest ih => rw [trees, ih, List.map_cons]

section Plain

variable {letters : Alphabet} {names : NameTable} {op : UnaryOp} {x l r : Expr} {s : Static}

theorem isPlain_bare {e : Expr} (plain : e.isPlain letters names = true) : e.casts = [] :=
  List.isEmpty_iff.mp (Bool.and_eq_true_iff.mp plain).1

theorem isSource_literal {v : Value} (plain : (literal v s).isPlain letters names = true) :
    IsSource letters primaryLevel v.literal (.literal v) := by
  obtain ⟨-, form⟩ := Bool.and_eq_true_iff.mp plain
  cases v with
  | int i =>
    have nonneg : 0 ≤ i.toInt := of_decide_eq_true form
    apply isSource_integer [] nonneg _ rfl
    · rw [List.append_nil]
      exact integer?_int nonneg
    · rw [List.append_nil]
      rfl
  | long i =>
    have nonneg : 0 ≤ i.toInt := of_decide_eq_true form
    exact isSource_integer ['L'] nonneg String.ofList_append.symm rfl (integer?_long nonneg)
  | bool b =>
    apply IsSource.constant
    cases b <;> decide
  | _ => cases form

theorem isIdentifier_display {n : Name} (identifier : (names.text? n).any letters.isIdentifier = true) :
    letters.isIdentifier (names.display n) = true := by
  rw [NameTable.display]
  cases found : names.text? n with
  | none => simp [found] at identifier
  | some text => simpa [found] using identifier

/-- What an operator can stand before without parentheses is tighter than the operator. -/
theorem stepLevel_le_level (bare : x.casts = []) (alone : x.needsParens = false) : stepLevel ≤ x.level := by
  cases x with
  | binary => simp [needsParens, bare] at alone
  | unary op => simp_all [needsParens, level, stepLevel]
  | _ => simp [level, bare, stepLevel, atomLevel]

theorem followsOperand_row (op : UnaryOp) :
    if op.followsOperand then (op.symbol, op) ∈ (row (unaryLevel + 1)).after
    else (op.symbol, op) ∈ (row unaryLevel).before := by
  cases op <;> decide

theorem precedence_row {op : BinaryOp} (form : op ≠ .instanceOf) :
    ∃ level, op.precedence = level + 3 ∧ (op.symbol, op) ∈ (row level).between := by
  cases op with
  | instanceOf => exact absurd rfl form
  | _ => exact ⟨_, rfl, by decide⟩

theorem castText_append (names : NameTable) (text : String) : castText names [] ++ text = text :=
  String.empty_append

theorem isSource_unary (bare : x.casts = []) {t : Tree} (ty : Option Ty)
    (operand : IsSource letters (x.level - 3) (x.render names) t) :
    IsSource letters ((unary op x ⟨ty, []⟩).level - 3) ((unary op x ⟨ty, []⟩).render names)
      (.unary op t) := by
  have placed := followsOperand_row op
  have whole : (unary op x ⟨ty, []⟩).level = if op.followsOperand then stepLevel else castLevel := rfl
  rw [whole, render, castText_append, signNeedsParens, parens]
  cases follows : op.followsOperand with
  | false =>
    rw [follows, if_neg Bool.false_ne_true] at placed
    have tight : IsSource letters (unaryLevel + 1) (parens x.needsParens (x.render names)) t := by
      apply operand.operand
      · intro alone
        exact Nat.sub_le_sub_right (stepLevel_le_level bare alone) 3
      · decide
    exact IsSource.before placed tight (Nat.lt_succ_self _)
  | true =>
    rw [follows, if_pos rfl] at placed
    apply IsSource.after placed
    apply operand.operand
    · intro alone
      exact Nat.sub_le_sub_right (Nat.not_lt.mp (of_decide_eq_false alone)) 3
    · decide

theorem isSource_binary {op : BinaryOp} (form : op ≠ .instanceOf) {tl tr : Tree} (ty : Option Ty)
    (left : IsSource letters (l.level - 3) (l.render names) tl)
    (right : IsSource letters (r.level - 3) (r.render names) tr) :
    IsSource letters ((binary op l r ⟨ty, []⟩).level - 3) ((binary op l r ⟨ty, []⟩).render names)
      (.binary op tl tr) := by
  obtain ⟨level, precedence, placed⟩ := precedence_row form
  have whole : (binary op l r ⟨ty, []⟩).level = op.precedence := rfl
  have limit : level + 1 ≤ primaryLevel := Nat.le_trans (between_spelled placed).1 (by decide)
  have lhs : IsSource letters level (parens (l.level < op.precedence) (l.render names)) tl := by
    apply left.operand
    · intro alone
      have := of_decide_eq_false alone
      omega
    · omega
  have rhs : IsSource letters (level + 1) (parens (r.level ≤ op.precedence) (r.render names)) tr := by
    apply right.operand
    · intro alone
      have := of_decide_eq_false alone
      omega
    · exact limit
  rw [whole, render, castText_append, precedence, Nat.add_sub_cancel, ← precedence]
  exact IsSource.between placed lhs rhs

/-- The text of an expression is source of its tree, at the level it is printed with. The grammar
counts levels from zero, printed text counts from three. -/
theorem isSource_render {e : Expr} (plain : e.Everywhere fun x => x.isPlain letters names = true) :
    IsSource letters (e.level - 3) (e.render names) (e.tree names) := by
  induction plain with
  | @literal v s node =>
    obtain ⟨ty, casts⟩ := s
    obtain rfl : casts = [] := isPlain_bare node
    rw [render, castText_append]
    exact isSource_literal node
  | @read id n s node =>
    obtain ⟨ty, casts⟩ := s
    obtain rfl : casts = [] := isPlain_bare node
    obtain ⟨-, form⟩ := Bool.and_eq_true_iff.mp node
    rw [render, castText_append]
    exact IsSource.name (isIdentifier_display form)
  | @call n args s node _ each =>
    obtain ⟨ty, casts⟩ := s
    obtain rfl : casts = [] := isPlain_bare node
    obtain ⟨-, form⟩ := Bool.and_eq_true_iff.mp node
    rw [render, castText_append, tree, trees_eq]
    apply IsSource.call (isIdentifier_display form)
    intro x member
    exact (each x member).looser (Nat.zero_le _)
  | typeRef node =>
    obtain ⟨-, form⟩ := Bool.and_eq_true_iff.mp node
    cases form
  | @unary op x s node inside operand =>
    obtain ⟨ty, casts⟩ := s
    obtain rfl : casts = [] := isPlain_bare node
    exact isSource_unary (isPlain_bare inside.here) ty operand
  | @binary op l r s node _ _ left right =>
    obtain ⟨ty, casts⟩ := s
    obtain rfl : casts = [] := isPlain_bare node
    obtain ⟨-, form⟩ := Bool.and_eq_true_iff.mp node
    exact isSource_binary (bne_iff_ne.mp form) ty left right

end Plain

end Expr

open Source

/-- Java has one reading for the text of a plain expression: its tree. -/
theorem printed_text_parses_iff (letters : Alphabet) (names : NameTable) (e : Expr)
    (plain : e.Everywhere fun x => x.isPlain letters names = true) (t : Tree) :
    Parses letters (e.render names) t ↔ t = e.tree names := by
  have source := (Expr.isSource_render plain).parses
  constructor
  · rintro ⟨tokens, lexes, phrase⟩
    obtain ⟨tokens', lexes', phrase'⟩ := source
    cases lexes.unique lexes'
    exact phrase.unique phrase'
  · rintro rfl
    exact source

namespace PrintingSample

/-- An alphabet with one letter beyond ASCII. -/
def letters : Alphabet := ⟨(· == 'é'), fun _ => false⟩

def names : NameTable := ⟨["a", "é1", "max"]⟩

def args : List Expr := [.literal (.int 0) {}, .literal (.long 7) {}, .literal (.bool true) {}]

/-- Signs next to each other, and operands of every level. -/
def expression : Expr :=
  let sum := .binary .plus (.read ⟨1⟩ (.ofIndex 1) {}) (.call (.ofIndex 2) args {}) {}
  .binary .minus (.unary .neg (.unary .preDec (.read ⟨0⟩ (.ofIndex 0) {}) {}) {})
    (.unary .neg (.unary .postDec (.unary .postDec sum {}) {}) {}) {}

theorem plain_args : ∀ x ∈ args, x.Everywhere fun x => x.isPlain letters names = true := by
  intro x member
  simp only [args, List.mem_cons, List.not_mem_nil, or_false] at member
  obtain rfl | rfl | rfl := member <;> exact .literal rfl

theorem plain_expression : expression.Everywhere fun x => x.isPlain letters names = true :=
  .binary rfl (.unary rfl (.unary rfl (.read rfl)))
    (.unary rfl (.unary rfl (.unary rfl (.binary rfl (.read rfl) (.call rfl plain_args)))))

end PrintingSample

theorem printed_text_parses_iff_sample :
    (PrintingSample.expression.Everywhere fun x =>
        x.isPlain PrintingSample.letters PrintingSample.names = true) ∧
      PrintingSample.expression.render PrintingSample.names = "-(--a) - -(é1 + max(0, 7L, true))----" ∧
      ∀ t, Parses PrintingSample.letters "-(--a) - -(é1 + max(0, 7L, true))----" t ↔
        t = PrintingSample.expression.tree PrintingSample.names := by
  have text : PrintingSample.expression.render PrintingSample.names =
      "-(--a) - -(é1 + max(0, 7L, true))----" := by rfl
  refine ⟨PrintingSample.plain_expression, text, ?_⟩
  rw [← text]
  exact printed_text_parses_iff _ _ _ PrintingSample.plain_expression

end ConstFold
