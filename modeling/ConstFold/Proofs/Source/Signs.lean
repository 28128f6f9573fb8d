import ConstFold.Proofs.ScientificText
import ConstFold.Proofs.Source.Printing

/-! Signs after casts. The casts of a node are printed before the rest of its text. If that rest starts
with a sign, a cast to a reference type right before it reads as an operand of the sign. This happens
after literals with a sign, and after operators whose outermost cast is to a primitive type. -/
namespace ConstFold

namespace Text

def isSign (c : Char) : Bool := c = '+' || c = '-'

/-- The text starts with a sign. -/
def opensSigned (text : String) : Bool := text.toList.head?.any isSign

theorem opensSigned_ofList (chars : List Char) :
    opensSigned (String.ofList chars) = chars.head?.any isSign := by
  rw [opensSigned, String.toList_ofList]

theorem opensSigned_append {first rest : String} (decided : first ≠ "" ∨ opensSigned rest = false) :
    opensSigned (first ++ rest) = opensSigned first := by
  cases chars : first.toList with
  | nil =>
    cases String.toList_eq_nil_iff.mp chars
    rw [String.empty_append]
    exact decided.resolve_left (not_not_intro rfl)
  | cons c cs =>
    rw [opensSigned, opensSigned, String.toList_append, chars]
    rfl

theorem opensSigned_parens (text : String) : opensSigned (Expr.parens true text) = false := by
  rw [Expr.parens, if_pos rfl, String.append_assoc, opensSigned_append (.inl (by decide))]
  rfl

end Text

open Text

/-! Literals. -/

namespace Decimal

variable {chars : List Char}

theorem isSign_of_isDigit {c : Char} (digit : c.isDigit) : isSign c = false := by
  rw [isSign, Bool.or_eq_false_iff, decide_eq_false_iff_not, decide_eq_false_iff_not]
  constructor
  · rintro rfl
    cases digit
  · rintro rfl
    cases digit

theorem unsigned_append {rest : List Char} (digits : ∀ c ∈ chars, c.isDigit)
    (unsigned : rest.head?.any isSign = false) : (chars ++ rest).head?.any isSign = false := by
  cases chars with
  | nil => exact unsigned
  | cons c cs => exact isSign_of_isDigit (digits c List.mem_cons_self)

theorem opensSigned_integer (i : Int) : opensSigned (String.ofList (integer i)) = decide (i < 0) := by
  rw [opensSigned_ofList, integer]
  split
  · rename_i negative
    rw [decide_eq_true negative]
    rfl
  · rename_i natural
    rw [decide_eq_false natural, ← List.append_nil (Nat.toDigits 10 _)]
    exact unsigned_append (fun c member => Source.isDigit_toDigits member) rfl

theorem isDigit_whole {d : Decimal} (digits : ∀ c ∈ d.digits, c.isDigit) :
    ∀ c ∈ d.whole, c.isDigit := by
  rw [whole]
  split
  · simp
  · intro c member
    rcases List.mem_append.mp member with written | zero
    · exact digits c (List.mem_of_mem_take written)
    · rw [List.eq_of_mem_replicate zero]
      rfl

/-- Only a negative number has a sign. -/
theorem opensSigned_javaText {d : Decimal} (digits : ∀ c ∈ d.digits, c.isDigit) (negative : Bool) :
    opensSigned (String.ofList (d.javaText negative)) = negative := by
  rw [opensSigned_ofList, javaText]
  cases negative with
  | true => rfl
  | false =>
    cases d.isPositional with
    | true => exact unsigned_append (isDigit_whole digits) rfl
    | false => exact unsigned_append (fun c member => digits c (List.mem_of_mem_take member)) rfl

theorem opensSigned_layout? {d : Decimal} (nonempty : d.digits ≠ []) (digits : ∀ c ∈ d.digits, c.isDigit)
    (negative : Bool) : ∃ text, layout? negative d.toScientific = some text ∧ opensSigned text = negative := by
  have read := ofScientific_toScientific_eq digits
  refine ⟨_, layout?_of_digits negative (read ▸ nonempty), ?_⟩
  rw [read]
  apply opensSigned_javaText
  exact digits

end Decimal

/-- The number is written with a sign. Only finite numbers are written in digits. -/
def Binary.isWrittenSigned {f : Format} (x : Binary f) : Bool :=
  match x.decode with
  | .finite negative _ _ => negative
  | .nan | .infinite _ => false

theorem Binary.opensSigned_floatingLiteral {f : Format} (x : Binary f) {wrapper mark : String}
    (name : wrapper ≠ "" ∧ opensSigned wrapper = false) (unsigned : opensSigned mark = false) :
    opensSigned (Value.floatingLiteral wrapper mark x) = x.isWrittenSigned := by
  rw [Value.floatingLiteral, isWrittenSigned]
  cases number : x.decode with
  | nan => exact (opensSigned_append (.inl name.1)).trans name.2
  | infinite negative => exact (opensSigned_append (.inl name.1)).trans name.2
  | finite negative significand exponent =>
    refine (opensSigned_append (.inr unsigned)).trans ?_
    simp only [javaText, number]
    split
    · cases negative <;> rfl
    · rename_i nonzero
      obtain ⟨nonempty, digits⟩ :=
        Decimal.digits_shortest f .up (Nat.pos_of_ne_zero nonzero) exponent
      obtain ⟨text, written, signed⟩ := Decimal.opensSigned_layout? nonempty digits negative
      rw [written]
      exact signed

namespace Value

/-- The literal starts with a sign. -/
def isWrittenSigned : Value → Bool
  | byte i => i.toInt < 0
  | short i => i.toInt < 0
  | int i => i.toInt < 0
  | long i => i.toInt < 0
  | float x => x.isWrittenSigned
  | double x => x.isWrittenSigned
  | null | bool _ | char _ | string _ => false

theorem opensSigned_literal (v : Value) : opensSigned v.literal = v.isWrittenSigned := by
  cases v with
  | null => rfl
  | bool b => cases b <;> rfl
  | byte i | short i | int i => exact Decimal.opensSigned_integer _
  | long i => exact (opensSigned_append (.inr rfl)).trans (Decimal.opensSigned_integer _)
  | char unit => exact opensSigned_ofList _
  | string text => exact opensSigned_ofList _
  | float x => exact x.opensSigned_floatingLiteral (by decide) rfl
  | double x => exact x.opensSigned_floatingLiteral (by decide) rfl

end Value

/-! Nodes. -/

namespace UnaryOp

/-- The operator is written with a sign. -/
def isSign : UnaryOp → Bool
  | pos | neg | preInc | preDec | postInc | postDec => true
  | not | compl => false

theorem opensSigned_symbol (op : UnaryOp) : op.symbol ≠ "" ∧ opensSigned op.symbol = op.isSign := by
  cases op <;> decide

theorem isSign_of_followsOperand {op : UnaryOp} (after : op.followsOperand) : op.isSign := by
  revert after
  cases op <;> decide

end UnaryOp

namespace Expr

variable (names : NameTable)

/-- What is printed after the casts of a node. -/
def body : Expr → String
  | literal v _ => v.literal
  | read _ n _ => names.display n
  | typeRef t _ => t.render names
  | call n args _ => names.display n ++ "(" ++ renderArgs names args ++ ")"
  | unary op x s =>
    parens (signNeedsParens op s.casts)
      (if op.followsOperand then parens (x.level < stepLevel) (x.render names) ++ op.symbol
        else op.symbol ++ parens x.needsParens (x.render names))
  | binary op l r s =>
    parens (!s.casts.isEmpty)
      (parens (l.level < op.precedence) (l.render names) ++ " " ++ op.symbol ++ " " ++
        parens (r.level ≤ op.precedence) (r.render names))

theorem render_eq (e : Expr) : e.render names = castText names e.casts ++ e.body names := by
  cases e <;> rw [render] <;> rfl

theorem castText_cons (cast : Cast) (outer : List Cast) :
    castText names (cast :: outer) = castText names outer ++ ("(" ++ cast.target.render names ++ ") ") := by
  simp [castText, String.join]

/-- The text after the casts starts with a sign, for a node with casts or an operand that a step
operator follows. An operator before its operand is in parentheses if the outermost cast is to a
reference type. -/
def isWrittenSigned : Expr → Bool
  | literal v _ => v.isWrittenSigned
  | read _ n _ | call n _ _ => opensSigned (names.display n)
  | typeRef t _ => opensSigned (t.render names)
  | unary op x s =>
    if op.followsOperand then
      stepLevel ≤ x.level && (x.render names = "" || x.isWrittenSigned)
    else op.isSign && s.casts.getLast?.any fun outermost => outermost.target.isPrimitive
  | binary _ _ _ _ => false

theorem casts_of_stepLevel_le {e : Expr} (tight : stepLevel ≤ e.level) : e.casts = [] := by
  unfold level at tight
  split at tight
  · exact absurd tight (by decide)
  · rename_i bare
    simpa using bare

theorem level_before {op : UnaryOp} {x : Expr} {s : Static} (before : op.followsOperand = false) :
    (unary op x s).level < stepLevel := by
  rw [level]
  split
  · decide
  · simp only [before]
    decide

theorem level_between {op : BinaryOp} {l r : Expr} {s : Static} : (binary op l r s).level < stepLevel := by
  rw [level]
  split
  · decide
  · cases op <;> decide

/-- A step operator after its operand starts with a sign if the operand does, or has no text. -/
theorem opensSigned_after {op : UnaryOp} {x : Expr} {s : Static} (after : op.followsOperand)
    (operand : stepLevel ≤ x.level → opensSigned (x.body names) = x.isWrittenSigned names) :
    opensSigned ((unary op x s).body names) = (unary op x s).isWrittenSigned names := by
  have alone : signNeedsParens op s.casts = false := by
    rw [signNeedsParens]
    cases s.casts.getLast? <;> simp [after]
  rw [body, isWrittenSigned, alone, if_pos after, if_pos after]
  change opensSigned (parens (x.level < stepLevel) (x.render names) ++ op.symbol) = _
  by_cases tight : stepLevel ≤ x.level
  · have text : x.render names = x.body names := by
      rw [render_eq, casts_of_stepLevel_le tight, castText_append]
    rw [decide_eq_false (Nat.not_lt.mpr tight), decide_eq_true tight, ← operand tight, ← text]
    change opensSigned (x.render names ++ op.symbol) = (x.render names = "" || _)
    by_cases empty : x.render names = ""
    · rw [empty, String.empty_append, op.opensSigned_symbol.2, UnaryOp.isSign_of_followsOperand after]
      rfl
    · rw [opensSigned_append (.inl empty), decide_eq_false empty]
      rfl
  · rw [decide_eq_true (Nat.not_le.mp tight), decide_eq_false tight,
      opensSigned_append (.inl (by simp [parens])), opensSigned_parens]
    rfl

/-- An operator before its operand starts with its own sign, unless it stands in parentheses. -/
theorem opensSigned_before {op : UnaryOp} {x : Expr} {s : Static} (before : op.followsOperand = false)
    (cast : s.casts ≠ []) :
    opensSigned ((unary op x s).body names) = (unary op x s).isWrittenSigned names := by
  obtain ⟨notEmpty, sign⟩ := op.opensSigned_symbol
  rw [body, isWrittenSigned, signNeedsParens, before]
  cases last : s.casts.getLast? with
  | none => exact absurd (List.getLast?_eq_none_iff.mp last) cast
  | some outermost =>
    simp only [Bool.false_eq_true, if_false, Bool.not_false, Bool.and_true, Option.any_some]
    cases outermost.target.isPrimitive with
    | false => rw [Bool.not_false, opensSigned_parens, Bool.and_false]
    | true =>
      rw [Bool.and_true, ← sign]
      exact opensSigned_append (.inl notEmpty)

/-- The text after the casts starts with a sign where it should. The recursion is on the operand that
a step operator follows. -/
theorem opensSigned_body : ∀ e : Expr, e.casts ≠ [] ∨ stepLevel ≤ e.level →
    opensSigned (e.body names) = e.isWrittenSigned names
  | literal v s, _ => v.opensSigned_literal
  | read id n s, _ => rfl
  | typeRef t s, _ => rfl
  | call n args s, _ => by
    have bracket : opensSigned ("(" ++ (renderArgs names args ++ ")")) = false :=
      (opensSigned_append (.inl (by decide))).trans rfl
    rw [body, isWrittenSigned, String.append_assoc, String.append_assoc]
    exact opensSigned_append (.inr bracket)
  | unary op x s, asked =>
    match follows : op.followsOperand with
    | true => opensSigned_after names follows fun tight => opensSigned_body x (.inr tight)
    | false => opensSigned_before names follows
        (asked.resolve_right (Nat.not_le.mpr (level_before follows)))
  | binary op l r s, asked => by
    have cast : s.casts ≠ [] := asked.resolve_right (Nat.not_le.mpr level_between)
    have parenthesized : (!s.casts.isEmpty) = true := by simpa using cast
    rw [body, parenthesized]
    exact opensSigned_parens _

/-! The text of a node in the text of the whole. -/

theorem occurs_left (first rest : String) : first.toList <:+: (first ++ rest).toList := by
  rw [String.toList_append]
  exact (List.prefix_append _ _).isInfix

theorem occurs_right (first rest : String) : rest.toList <:+: (first ++ rest).toList := by
  rw [String.toList_append]
  exact (List.suffix_append _ _).isInfix

theorem occurs_parens (needed : Bool) (text : String) : text.toList <:+: (parens needed text).toList := by
  cases needed with
  | false => exact List.infix_rfl
  | true => exact (occurs_right _ _).trans (occurs_left _ _)

theorem occurs_args {args : List Expr} {x : Expr} (member : x ∈ args) :
    (x.render names).toList <:+: (renderArgs names args).toList := by
  induction args with
  | nil => cases member
  | cons e rest ih =>
    cases rest with
    | nil =>
      cases List.mem_singleton.mp member
      exact List.infix_rfl
    | cons next rest =>
      rw [renderArgs]
      · rcases List.mem_cons.mp member with rfl | member
        · rw [String.append_assoc]
          exact occurs_left _ _
        · exact (ih member).trans (occurs_right _ _)
      · exact List.cons_ne_nil _ _

theorem occurs_body (e : Expr) : (e.body names).toList <:+: (e.render names).toList := by
  rw [render_eq]
  exact occurs_right _ _

theorem occurs_unary (op : UnaryOp) (x : Expr) (s : Static) :
    (x.render names).toList <:+: ((unary op x s).render names).toList := by
  refine .trans ?_ (occurs_body names _)
  rw [body]
  refine .trans ?_ (occurs_parens _ _)
  split
  · exact (occurs_parens _ _).trans (occurs_left _ _)
  · exact (occurs_parens _ _).trans (occurs_right _ _)

theorem occurs_binary (op : BinaryOp) (l r : Expr) (s : Static) :
    (l.render names).toList <:+: ((binary op l r s).render names).toList ∧
      (r.render names).toList <:+: ((binary op l r s).render names).toList := by
  constructor
  · refine .trans ?_ (occurs_body names _)
    rw [body, String.append_assoc, String.append_assoc, String.append_assoc]
    exact (occurs_parens _ _).trans ((occurs_left _ _).trans (occurs_parens _ _))
  · refine .trans ?_ (occurs_body names _)
    exact (occurs_parens _ _).trans ((occurs_right _ _).trans (occurs_parens _ _))

theorem occurs_call {name : Name} {args : List Expr} {x : Expr} (member : x ∈ args) (s : Static) :
    (x.render names).toList <:+: ((call name args s).render names).toList := by
  refine .trans ?_ (occurs_body names _)
  exact (occurs_args names member).trans ((occurs_right _ _).trans (occurs_left _ _))

mutual

/-- The text of every node is part of the text of the whole. -/
theorem everywhere_occurs :
    ∀ e : Expr, e.Everywhere fun n => (n.render names).toList <:+: (e.render names).toList
  | literal _ _ => .literal List.infix_rfl
  | read _ _ _ => .read List.infix_rfl
  | typeRef _ _ => .typeRef List.infix_rfl
  | unary op x s => .unary List.infix_rfl <|
    (everywhere_occurs x).mono fun _ inside => inside.trans (occurs_unary names op x s)
  | binary op l r s => .binary List.infix_rfl
    ((everywhere_occurs l).mono fun _ inside => inside.trans (occurs_binary names op l r s).1)
    ((everywhere_occurs r).mono fun _ inside => inside.trans (occurs_binary names op l r s).2)
  | call _ args s => .call List.infix_rfl fun x member =>
    (everywhere_occurs_args args x member).mono fun _ inside =>
      inside.trans (occurs_call names member s)

theorem everywhere_occurs_args : ∀ args : List Expr, ∀ x ∈ args,
    x.Everywhere fun n => (n.render names).toList <:+: (x.render names).toList
  | [] => List.forall_mem_nil _
  | e :: rest => List.forall_mem_cons.mpr ⟨everywhere_occurs e, everywhere_occurs_args rest⟩

end

/-- A sign follows the innermost cast, which is to a reference type. -/
def isMisread (e : Expr) : Bool :=
  (e.casts.head?.any fun innermost => !innermost.target.isPrimitive) && e.isWrittenSigned names

end Expr

open ConstFold.Expr

/-- In printed text, the innermost cast of a node is to a primitive type or is followed by text without
a sign, except for the nodes that are misread. -/
theorem sign_after_cast_iff (names : NameTable) (e : Expr) :
    e.Everywhere fun n => ∀ innermost outer, n.casts = innermost :: outer →
      (castText names outer ++ "(" ++ innermost.target.render names ++ ") " ++ n.body names).toList <:+:
          (e.render names).toList ∧
        (innermost.target.isPrimitive ∨ opensSigned (n.body names) = false ↔
          n.isMisread names = false) := by
  refine (everywhere_occurs names e).mono ?_
  intro n inside innermost outer casts
  have text : n.render names =
      castText names outer ++ "(" ++ innermost.target.render names ++ ") " ++ n.body names := by
    rw [render_eq, casts, castText_cons, ← String.append_assoc, ← String.append_assoc]
  have asked : n.casts ≠ [] := by
    rw [casts]
    exact List.cons_ne_nil _ _
  rw [← text, opensSigned_body names n (.inl asked), isMisread, casts]
  refine ⟨inside, ?_⟩
  rw [List.head?_cons, Option.any_some]
  cases innermost.target.isPrimitive <;> simp

namespace SignSample

def names : NameTable := ⟨["x"]⟩

def negation (casts : List Cast) : Expr :=
  .unary .neg (.read ⟨0⟩ (.ofIndex 0) ⟨some .int, []⟩) ⟨some .int, casts⟩

def minusFive (casts : List Cast) : Expr := .literal (.int (-5)) ⟨some .int, casts⟩

end SignSample

open SignSample

/-- A sign after two casts is printed without parentheses if the outermost cast is primitive, and a
negative literal always is. -/
theorem sign_after_reference_cast :
    (negation [.toExplicit (.boxed .int), .toExplicit .int]).render names = "(int) (Integer) -x" ∧
      (minusFive [.toExplicit (.boxed .int)]).render names = "(Integer) -5" :=
  ⟨by decide, by decide⟩

end ConstFold
