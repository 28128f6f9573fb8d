import Mathlib.Data.List.Infix

/-! Tokens of Java source. Words, numbers and symbols are cut off the text one after another, each
as long as it can be. -/
namespace ConstFold

namespace Source

/-- A word, a number or a symbol, as it stands in the text. -/
inductive Token where
  | word (text : String)
  | numeral (text : String)
  | symbol (text : String)
deriving DecidableEq, Repr

def Token.chars : Token → List Char
  | word text | numeral text | symbol text => text.toList

def isBlank (c : Char) : Bool :=
  c == ' ' || c == '\t' || c == '\n' || c == '\r' || c == '\x0c'

/-- Neither blank nor printable ASCII. -/
def isForeign (c : Char) : Bool := !isBlank c && (c.toNat < 33 || 126 < c.toNat)

/-- The foreign characters that may start a name, and those that may stand in it further on. -/
structure Alphabet where
  letter : Char → Bool
  part : Char → Bool

/-- Separators and operators. Comments are not read: what opens one is a symbol that no phrase
contains. -/
def symbols : List String :=
  ["(", ")", "\x7b", "\x7d", "[", "]", ";", ",", ".", "...", "@", "::", "=", ">", "<", "!", "~", "?",
    ":", "->", "==", ">=", "<=", "!=", "&&", "||", "++", "--", "+", "-", "*", "/", "&", "|", "^", "%",
    "<<", ">>", ">>>", "+=", "-=", "*=", "/=", "&=", "|=", "^=", "%=", "<<=", ">>=", ">>>=", "//", "/*"]

namespace Alphabet

variable (letters : Alphabet)

def starts (c : Char) : Bool :=
  c.isAlpha || c == '_' || c == '$' || isForeign c && letters.letter c

def continues (c : Char) : Bool :=
  letters.starts c || c.isDigit || isForeign c && letters.part c

/-- What can follow the first digit of a number. -/
def inNumeral (c : Char) : Bool := letters.continues c || c == '.'

/-- The token with exactly this text. -/
def lexeme? : List Char → Option Token
  | [] => none
  | c :: cs =>
    if letters.starts c then
      if cs.all letters.continues then some (.word (String.ofList (c :: cs))) else none
    else if c.isDigit then
      if cs.all letters.inNumeral then some (.numeral (String.ofList (c :: cs))) else none
    else if String.ofList (c :: cs) ∈ symbols then some (.symbol (String.ofList (c :: cs)))
    else none

/-- The text starts with the token and with no longer one, and the rest stands after it. -/
structure Takes (text : List Char) (token : Token) (rest : List Char) : Prop where
  spelled : letters.lexeme? token.chars = some token
  text_eq : text = token.chars ++ rest
  longest : ∀ longer, longer <+: text → token.chars.length < longer.length →
    letters.lexeme? longer = none

/-- The tokens of a text, blanks skipped. -/
inductive Lexes : List Char → List Token → Prop where
  | done : Lexes [] []
  | blank {c text tokens} : isBlank c = true → Lexes text tokens → Lexes (c :: text) tokens
  | token {text token rest tokens} : letters.Takes text token rest → Lexes rest tokens →
    Lexes text (token :: tokens)

variable {letters} {text rest : List Char} {token : Token} {tokens : List Token}

theorem Takes.unique {token' : Token} {rest' : List Char} (one : letters.Takes text token rest)
    (other : letters.Takes text token' rest') : token = token' ∧ rest = rest' := by
  have starts : token.chars <+: text := ⟨rest, one.text_eq.symm⟩
  have starts' : token'.chars <+: text := ⟨rest', other.text_eq.symm⟩
  have notLonger : token'.chars.length ≤ token.chars.length := by
    by_contra longer
    have refused := one.longest token'.chars starts' (by omega)
    cases refused.symm.trans other.spelled
  have notShorter : token.chars.length ≤ token'.chars.length := by
    by_contra longer
    have refused := other.longest token.chars starts (by omega)
    cases refused.symm.trans one.spelled
  have same : token.chars = token'.chars :=
    (List.prefix_of_prefix_length_le starts starts' notShorter).eq_of_length (by omega)
  constructor
  · exact Option.some.inj (one.spelled.symm.trans (same ▸ other.spelled))
  · have texts := one.text_eq.symm.trans other.text_eq
    rw [same] at texts
    exact List.append_cancel_left texts

theorem lexeme?_blank {c : Char} (blank : isBlank c = true) (cs : List Char) :
    letters.lexeme? (c :: cs) = none := by
  have noSymbol : String.ofList (c :: cs) ∉ symbols := by
    intro member
    have solid : ∀ symbol ∈ symbols, symbol.toList.any isBlank = false := by decide
    have differs := solid _ member
    rw [String.toList_ofList, List.any_cons, blank] at differs
    cases differs
  have noLetter : letters.starts c = false ∧ c.isDigit = false := by
    simp only [isBlank, Bool.or_eq_true, beq_iff_eq] at blank
    obtain (((rfl | rfl) | rfl) | rfl) | rfl := blank <;> exact ⟨rfl, rfl⟩
  simp only [lexeme?, noLetter, noSymbol, Bool.false_eq_true, if_false]

theorem Takes.exists_cons (taken : letters.Takes text token rest) :
    ∃ c cs, text = c :: cs ∧ isBlank c = false := by
  cases chars : token.chars with
  | nil =>
    have spelled := taken.spelled
    rw [chars] at spelled
    cases spelled
  | cons c cs =>
    refine ⟨c, cs ++ rest, by rw [taken.text_eq, chars, List.cons_append], ?_⟩
    by_contra blank
    have spelled := taken.spelled
    rw [chars, lexeme?_blank (by simpa using blank)] at spelled
    cases spelled

/-- A text has at most one sequence of tokens. -/
theorem Lexes.unique {tokens' : List Token} (one : letters.Lexes text tokens)
    (other : letters.Lexes text tokens') : tokens = tokens' := by
  induction one generalizing tokens' with
  | done =>
    cases other with
    | done => rfl
    | token taken =>
      obtain ⟨c, cs, empty, -⟩ := taken.exists_cons
      cases empty
  | blank blank _ ih =>
    cases other with
    | blank _ others => exact ih others
    | token taken =>
      obtain ⟨c, cs, first, solid⟩ := taken.exists_cons
      cases first
      cases blank.symm.trans solid
  | token taken _ ih =>
    cases other with
    | done =>
      obtain ⟨c, cs, empty, -⟩ := taken.exists_cons
      cases empty
    | blank blank =>
      obtain ⟨c, cs, first, solid⟩ := taken.exists_cons
      cases first
      cases blank.symm.trans solid
    | token taken' others =>
      obtain ⟨rfl, rfl⟩ := taken.unique taken'
      rw [ih others]

/-! A token ends where the next character cannot go on with it. -/

theorem chars_of_lexeme? {lexeme : List Char} (spelled : letters.lexeme? lexeme = some token) :
    token.chars = lexeme := by
  cases lexeme with
  | nil => cases spelled
  | cons c cs =>
    rw [lexeme?] at spelled
    repeat' split at spelled
    all_goals
      cases spelled
      try exact String.toList_ofList

theorem takes_append {lexeme : List Char} (spelled : letters.lexeme? lexeme = some token)
    (ends : ∀ c ∈ rest.head?, ∀ more, letters.lexeme? (lexeme ++ c :: more) = none) :
    letters.Takes (lexeme ++ rest) token rest := by
  have chars := chars_of_lexeme? spelled
  subst chars
  refine ⟨spelled, rfl, ?_⟩
  intro longer starts exceeds
  obtain ⟨more, rfl⟩ := List.prefix_of_prefix_length_le (List.prefix_append token.chars rest) starts
    (by omega)
  have continued : more <+: rest := (List.prefix_append_right_inj token.chars).mp starts
  cases more with
  | nil => simp at exceeds
  | cons c more =>
    obtain ⟨tail, rfl⟩ := continued
    exact ends c rfl more

theorem starts_of_isDigit {c : Char} (digit : c.isDigit = true) : letters.starts c = false := by
  have range : 48 ≤ c.toNat ∧ c.toNat ≤ 57 := by
    simpa [Char.isDigit, UInt32.le_iff_toNat_le] using digit
  have noAlpha : c.isAlpha = false := by
    by_contra alpha
    change ¬(decide (65 ≤ c.val ∧ c.val ≤ 90) || decide (97 ≤ c.val) && decide (c.val ≤ 122)) =
      false at alpha
    simp [UInt32.le_iff_toNat_le] at alpha
    omega
  have noForeign : isForeign c = false := by
    simp [isForeign]
    omega
  have noMark : c ≠ '_' ∧ c ≠ '$' := by
    constructor <;>
    · rintro rfl
      revert digit
      decide
  simp [starts, noAlpha, noForeign, noMark]

theorem Lexes.word {c : Char} {cs : List Char} (first : letters.starts c = true)
    (further : cs.all letters.continues = true) (ends : ∀ d ∈ rest.head?, letters.continues d = false)
    (others : letters.Lexes rest tokens) :
    letters.Lexes (c :: cs ++ rest) (.word (String.ofList (c :: cs)) :: tokens) := by
  refine .token (takes_append ?_ ?_) others
  · rw [lexeme?, if_pos first, if_pos further]
  · intro d next more
    rw [List.cons_append, lexeme?, if_pos first, if_neg]
    simp [ends d next]

theorem Lexes.numeral {c : Char} {cs : List Char} (first : c.isDigit = true)
    (further : cs.all letters.inNumeral = true) (ends : ∀ d ∈ rest.head?, letters.inNumeral d = false)
    (others : letters.Lexes rest tokens) :
    letters.Lexes (c :: cs ++ rest) (.numeral (String.ofList (c :: cs)) :: tokens) := by
  have noLetter := ne_true_of_eq_false (letters.starts_of_isDigit first)
  refine .token (takes_append ?_ ?_) others
  · rw [lexeme?, if_neg noLetter, if_pos first, if_pos further]
  · intro d next more
    rw [List.cons_append, lexeme?, if_neg noLetter, if_pos first, if_neg]
    simp [ends d next]

/-- The characters that would make a longer symbol of it. -/
def extensions (symbol : String) : List Char :=
  symbols.filterMap fun longer =>
    if symbol.toList.isPrefixOf longer.toList then (longer.toList.drop symbol.toList.length).head?
    else none

theorem mem_extensions {symbol : String} {c : Char} {more : List Char}
    (longer : String.ofList (symbol.toList ++ c :: more) ∈ symbols) : c ∈ extensions symbol := by
  apply List.mem_filterMap.mpr
  refine ⟨_, longer, ?_⟩
  rw [String.toList_ofList, if_pos, List.drop_left]
  · rfl
  · exact List.isPrefixOf_iff_prefix.mpr (List.prefix_append _ _)

/-- Neither part of a name nor of a number. -/
def isPunctuation (c : Char) : Bool :=
  !(c.isAlpha || c == '_' || c == '$' || isForeign c || c.isDigit)

theorem lexeme?_punctuation {c : Char} (punctuation : isPunctuation c = true) (cs : List Char) :
    letters.lexeme? (c :: cs) =
      if String.ofList (c :: cs) ∈ symbols then some (.symbol (String.ofList (c :: cs))) else none := by
  simp only [isPunctuation, Bool.not_eq_true', Bool.or_eq_false_iff] at punctuation
  rw [lexeme?, if_neg, if_neg]
  · simp [punctuation]
  · simp [starts, punctuation]

theorem exists_symbol_cons {symbol : String} (member : symbol ∈ symbols) :
    ∃ c cs, symbol.toList = c :: cs ∧ isPunctuation c = true := by
  have all : ∀ symbol ∈ symbols, symbol.toList.head?.any isPunctuation = true := by decide
  have first := all symbol member
  cases chars : symbol.toList with
  | nil => simp [chars] at first
  | cons c cs => exact ⟨c, cs, rfl, by simpa [chars] using first⟩

theorem Lexes.symbol {symbol : String} (member : symbol ∈ symbols)
    (ends : ∀ c ∈ rest.head?, c ∉ extensions symbol) (others : letters.Lexes rest tokens) :
    letters.Lexes (symbol.toList ++ rest) (.symbol symbol :: tokens) := by
  obtain ⟨c, cs, chars, punctuation⟩ := exists_symbol_cons member
  have spelled : String.ofList (c :: cs) = symbol := by rw [← chars, String.ofList_toList]
  refine .token (takes_append ?_ ?_) others
  · rw [chars, lexeme?_punctuation punctuation, spelled, if_pos member]
  · intro d next more
    rw [chars, List.cons_append, lexeme?_punctuation punctuation, if_neg]
    rw [← List.cons_append, ← chars]
    exact fun longer => ends d next (mem_extensions longer)

end Alphabet

end Source

end ConstFold
