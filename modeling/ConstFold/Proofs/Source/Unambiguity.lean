import ConstFold.Proofs.Source.Grammar

/-! A sequence of tokens is at most one expression. The proof goes through a reader that decides by
the next token: it reads every phrase to its end, so two phrases of the same tokens have one tree. -/
namespace ConstFold

namespace Source

/-! Each symbol has one meaning at each place. -/

theorem forall_row {P : Nat → Row → Prop} (empty : ∀ level, P level {})
    (each : ∀ k : Fin rows.length, P k (row k)) (level : Nat) : P level (row level) := by
  by_cases bound : level < rows.length
  · exact each ⟨level, bound⟩
  · have none : row level = {} := by
      rw [row, List.getD_eq_getElem?_getD, List.getElem?_eq_none (by omega), Option.getD_none]
    rw [none]
    exact empty level

/-- The level of the operators that stand before their operand. -/
def unaryLevel : Nat := 10

theorem before_facts {level : Nat} {symbol : String} {op : UnaryOp}
    (member : (symbol, op) ∈ (row level).before) :
    level = unaryLevel ∧ (row level).before.lookup symbol = some op := by
  have table := forall_row (P := fun level row => ∀ entry ∈ row.before,
    level = unaryLevel ∧ row.before.lookup entry.1 = some entry.2) nofun (by decide) level
  exact table (symbol, op) member

/-- The level at which the symbol goes on with a phrase. -/
def level? (symbol : String) : Option Nat :=
  rows.findIdx? fun row => (row.after.lookup symbol).isSome || (row.between.lookup symbol).isSome

theorem level?_facts {symbol : String} {j : Nat} (found : level? symbol = some j) :
    j < primaryLevel ∧ j ≠ unaryLevel := by
  obtain ⟨bound, holds, -⟩ := List.findIdx?_eq_some_iff_getElem.mp found
  refine ⟨bound, ?_⟩
  rintro rfl
  cases holds

theorem after_facts {level : Nat} {symbol : String} {op : UnaryOp}
    (member : (symbol, op) ∈ (row level).after) :
    level? symbol = some level ∧ symbol ≠ "(" ∧ (row level).after.lookup symbol = some op := by
  have table := forall_row (P := fun level row => ∀ entry ∈ row.after,
    level? entry.1 = some level ∧ entry.1 ≠ "(" ∧ row.after.lookup entry.1 = some entry.2)
    nofun (by decide) level
  exact table (symbol, op) member

theorem between_facts {level : Nat} {symbol : String} {op : BinaryOp}
    (member : (symbol, op) ∈ (row level).between) :
    level? symbol = some level ∧ symbol ≠ "(" ∧ (row level).after.lookup symbol = none ∧
      (row level).between.lookup symbol = some op := by
  have table := forall_row (P := fun level row => ∀ entry ∈ row.between,
    level? entry.1 = some level ∧ entry.1 ≠ "(" ∧ row.after.lookup entry.1 = none ∧
      row.between.lookup entry.1 = some entry.2) nofun (by decide) level
  exact table (symbol, op) member

theorem mem_of_lookup {α : Type} {entries : List (String × α)} {symbol : String} {a : α}
    (found : entries.lookup symbol = some a) : (symbol, a) ∈ entries := by
  obtain ⟨xs, ys, rfl, -⟩ := List.lookup_eq_some_iff.mp found
  simp

/-- The tokens do not go on with a phrase of this level or a tighter one. -/
def Stops (level : Nat) (tokens : List Token) : Prop :=
  ∀ symbol, tokens.head? = some (.symbol symbol) →
    symbol ≠ "(" ∧ ∀ j, level? symbol = some j → j < level

/-- The operator that the tokens start with, and the tokens after it. -/
def operator? {α : Type} (entries : List (String × α)) : List Token → Option (α × List Token)
  | .symbol symbol :: rest => (entries.lookup symbol).map (·, rest)
  | _ => none

mutual

/-- Reads a phrase of the level and gives the tokens after it. The fuel bounds the depth of calls. -/
def readPhrase : Nat → Nat → List Token → Option (Tree × List Token)
  | 0, _, _ => none
  | fuel + 1, level, tokens =>
    if level < primaryLevel then
      match operator? (row level).before tokens with
      | some (op, rest) => (readPhrase fuel level rest).map fun (t, rest) => (.unary op t, rest)
      | none => (readPhrase fuel (level + 1) tokens).bind fun (t, rest) => extend fuel level t rest
    else readPrimary fuel tokens

/-- Goes on with a phrase of the level as long as its operators follow. -/
def extend : Nat → Nat → Tree → List Token → Option (Tree × List Token)
  | 0, _, _, _ => none
  | fuel + 1, level, t, tokens =>
    match operator? (row level).after tokens, operator? (row level).between tokens with
    | some (op, rest), _ => extend fuel level (.unary op t) rest
    | none, some (op, rest) =>
      (readPhrase fuel (level + 1) rest).bind fun (r, rest) => extend fuel level (.binary op t r) rest
    | none, none => some (t, tokens)

def readPrimary : Nat → List Token → Option (Tree × List Token)
  | 0, _ => none
  | fuel + 1, tokens =>
    match tokens with
    | .numeral text :: rest => (integer? text.toList).map fun v => (.literal v, rest)
    | .word text :: rest =>
      match constants.lookup text with
      | some v => some (.literal v, rest)
      | none =>
        if rest.head? = some (.symbol "(") then
          (readArguments fuel rest.tail).map fun (args, rest) => (.call text args, rest)
        else some (.name text, rest)
    | .symbol symbol :: rest =>
      if symbol = "(" then
        (readPhrase fuel 0 rest).bind fun (t, rest) =>
          if rest.head? = some (.symbol ")") then some (t, rest.tail) else none
      else none
    | [] => none

def readArguments : Nat → List Token → Option (List Tree × List Token)
  | 0, _ => none
  | fuel + 1, tokens =>
    if tokens.head? = some (.symbol ")") then some ([], tokens.tail) else
      (readPhrase fuel 0 tokens).bind fun (t, rest) =>
        if rest.head? = some (.symbol ",") then
          (readArguments fuel rest.tail).map fun (args, rest) => (t :: args, rest)
        else if rest.head? = some (.symbol ")") then some ([t], rest.tail)
        else none

end

/-- With enough fuel the computation gives this result. -/
def Settles {α : Type} (f : Nat → Option α) (a : α) : Prop :=
  ∃ least, ∀ fuel ≥ least, f fuel = some a

namespace Settles

variable {α β : Type} {f : Nat → Option α} {a : α} {b : β}

theorem unique {a' : α} (one : Settles f a) (other : Settles f a') : a = a' := by
  obtain ⟨n, settled⟩ := one
  obtain ⟨m, settled'⟩ := other
  have same := settled (max n m) (Nat.le_max_left n m)
  rw [settled' (max n m) (Nat.le_max_right n m)] at same
  exact (Option.some.inj same).symm

theorem pure (a : α) : Settles (fun _ => some a) a := ⟨0, fun _ _ => rfl⟩

theorem map (g : α → β) (settles : Settles f a) : Settles (fun fuel => (f fuel).map g) (g a) := by
  obtain ⟨n, settled⟩ := settles
  exact ⟨n, fun fuel enough => congrArg (Option.map g) (settled fuel enough)⟩

/-- A computation that goes on as `g` does once `f` has its result. -/
theorem andThen {g h : Nat → Option β} (first : Settles f a) (next : Settles g b)
    (unfolds : ∀ fuel, f fuel = some a → h (fuel + 1) = g fuel) : Settles h b := by
  obtain ⟨n, settled⟩ := first
  obtain ⟨m, settled'⟩ := next
  refine ⟨max n m + 1, ?_⟩
  intro fuel enough
  cases fuel with
  | zero => omega
  | succ fuel =>
    rw [unfolds fuel (settled fuel (by omega))]
    exact settled' fuel (by omega)

theorem step {g : Nat → Option α} (unfolds : ∀ fuel, f (fuel + 1) = g fuel) (settles : Settles g a) :
    Settles f a :=
  (pure ()).andThen settles fun fuel _ => unfolds fuel

end Settles

section Reading

variable {level : Nat} {symbol : String} {t : Tree} {tokens rest : List Token}
  {result : Tree × List Token}

theorem reads_before {op : UnaryOp} (member : (symbol, op) ∈ (row level).before)
    (operand : Settles (readPhrase · level tokens) (t, rest)) :
    Settles (readPhrase · level (.symbol symbol :: tokens)) (.unary op t, rest) := by
  obtain ⟨rfl, found⟩ := before_facts member
  have starts : operator? (row unaryLevel).before (.symbol symbol :: tokens) = some (op, tokens) := by
    rw [operator?, found, Option.map_some]
  refine operand.andThen (.pure (Tree.unary op t, rest)) fun fuel read => ?_
  rw [readPhrase, if_pos (by decide), starts]
  simp only [read, Option.map_some]

theorem reads_tighter (bound : level < primaryLevel)
    (noOperator : operator? (row level).before tokens = none)
    (tighter : Settles (readPhrase · (level + 1) tokens) (t, rest))
    (more : Settles (extend · level t rest) result) : Settles (readPhrase · level tokens) result := by
  refine tighter.andThen more fun fuel read => ?_
  rw [readPhrase, if_pos bound, noOperator]
  simp only [read, Option.bind_some]

theorem extends_after {op : UnaryOp} (member : (symbol, op) ∈ (row level).after)
    (more : Settles (extend · level (.unary op t) rest) result) :
    Settles (extend · level t (.symbol symbol :: rest)) result := by
  obtain ⟨-, -, found⟩ := after_facts member
  have starts : operator? (row level).after (.symbol symbol :: rest) = some (op, rest) := by
    rw [operator?, found, Option.map_some]
  refine .step (fun fuel => ?_) more
  rw [extend, starts]

theorem extends_between {op : BinaryOp} {r : Tree} (member : (symbol, op) ∈ (row level).between)
    (operand : Settles (readPhrase · (level + 1) tokens) (r, rest))
    (more : Settles (extend · level (.binary op t r) rest) result) :
    Settles (extend · level t (.symbol symbol :: tokens)) result := by
  obtain ⟨-, -, notAfter, found⟩ := between_facts member
  have noAfter : operator? (row level).after (.symbol symbol :: tokens) = none := by
    rw [operator?, notAfter, Option.map_none]
  have starts : operator? (row level).between (.symbol symbol :: tokens) = some (op, tokens) := by
    rw [operator?, found, Option.map_some]
  refine operand.andThen more fun fuel read => ?_
  rw [extend, noAfter, starts]
  simp only [read, Option.bind_some]

theorem Stops.mono {level' : Nat} (stops : Stops level tokens) (le : level ≤ level') :
    Stops level' tokens := by
  intro symbol next
  obtain ⟨notCall, before⟩ := stops symbol next
  exact ⟨notCall, fun j found => Nat.lt_of_lt_of_le (before j found) le⟩

theorem Stops.operator?_eq_none {α : Type} {entries : List (String × α)} (stops : Stops level tokens)
    (levels : ∀ entry ∈ entries, level? entry.1 = some level) : operator? entries tokens = none := by
  rw [operator?.eq_def]
  split
  · obtain ⟨-, before⟩ := stops _ rfl
    rw [Option.map_eq_none_iff]
    by_contra found
    obtain ⟨a, found⟩ := Option.ne_none_iff_exists'.mp found
    exact Nat.lt_irrefl level (before level (levels _ (mem_of_lookup found)))
  · rfl

theorem extends_stops (stops : Stops level rest) (t : Tree) :
    Settles (extend · level t rest) (t, rest) := by
  refine .step (fun fuel => ?_) (.pure (t, rest))
  have noAfter : operator? (row level).after rest = none :=
    stops.operator?_eq_none fun _ member => (after_facts member).1
  have noBetween : operator? (row level).between rest = none :=
    stops.operator?_eq_none fun _ member => (between_facts member).1
  rw [extend, noAfter, noBetween]

/-- The phrase is read to its end, and then whatever goes on with it at its level. -/
def Readable (level : Nat) (tokens : List Token) (t : Tree) : Prop :=
  ∀ rest result, Stops (level + 1) rest → Settles (extend · level t rest) result →
    Settles (readPhrase · level (tokens ++ rest)) result

theorem Readable.settles (readable : Readable level tokens t) (stops : Stops level rest) :
    Settles (readPhrase · level (tokens ++ rest)) (t, rest) :=
  readable rest (t, rest) (stops.mono (Nat.le_succ level)) (extends_stops stops t)

theorem stops_separator (separator : symbol ∈ [")", ","]) (rest : List Token) :
    Stops 0 (.symbol symbol :: rest) := by
  rintro _ ⟨⟩
  have table : ∀ symbol ∈ [")", ","], symbol ≠ "(" ∧ level? symbol = none := by decide
  obtain ⟨notCall, unused⟩ := table symbol separator
  exact ⟨notCall, by simp [unused]⟩

theorem stops_operator (found : level? symbol = some level) (notCall : symbol ≠ "(")
    (rest : List Token) : Stops (level + 1) (.symbol symbol :: rest) := by
  rintro _ ⟨⟩
  refine ⟨notCall, fun j other => ?_⟩
  cases found.symm.trans other
  exact Nat.lt_succ_self level

theorem Phrase.starts (phrase : Phrase level tokens t) :
    ∃ token others, tokens = token :: others ∧ ∀ symbol, token = .symbol symbol →
      symbol = "(" ∨ level ≤ unaryLevel ∧ (row unaryLevel).before.lookup symbol ≠ none := by
  induction phrase with
  | constant | numeral | name | call => exact ⟨_, _, rfl, nofun⟩
  | parens => exact ⟨_, _, rfl, by rintro _ ⟨⟩; exact .inl rfl⟩
  | after _ _ ih | between _ _ _ ih _ =>
    obtain ⟨token, others, rfl, opens⟩ := ih
    exact ⟨token, _, rfl, opens⟩
  | before member =>
    obtain ⟨rfl, found⟩ := before_facts member
    refine ⟨_, _, rfl, ?_⟩
    rintro _ ⟨⟩
    right
    exact ⟨Nat.le_refl _, by simp [found]⟩
  | tighter _ ih =>
    obtain ⟨token, others, rfl, opens⟩ := ih
    refine ⟨token, others, rfl, fun symbol is => (opens symbol is).imp_right ?_⟩
    exact And.imp_left Nat.le_of_succ_le

theorem Phrase.level_le (phrase : Phrase level tokens t) : level ≤ primaryLevel := by
  induction phrase with
  | constant | numeral | name | call | parens => exact Nat.le_refl _
  | after _ _ ih | before _ _ ih | between _ _ _ ih _ => exact ih
  | tighter _ ih => exact Nat.le_of_succ_le ih

/-- Nothing goes on with a primary expression. -/
theorem readable_primary
    (primary : ∀ rest, Stops primaryLevel rest → Settles (readPrimary · (tokens ++ rest)) (t, rest)) :
    Readable primaryLevel tokens t := by
  intro rest result stops more
  have ends : Stops primaryLevel rest := by
    intro symbol next
    exact ⟨(stops symbol next).1, fun j found => (level?_facts found).1⟩
  cases more.unique (extends_stops ends t)
  exact .step (fun fuel => by rw [readPhrase, if_neg (Nat.lt_irrefl _)]) (primary rest ends)

theorem lookup_constant {text : String} {v : Value} (member : (text, v) ∈ constants) :
    constants.lookup text = some v := by
  simp only [constants, List.mem_cons, Prod.mk.injEq, List.not_mem_nil, or_false] at member
  obtain ⟨rfl, rfl⟩ | ⟨rfl, rfl⟩ | ⟨rfl, rfl⟩ := member <;> rfl

theorem lookup_name {text : String} (name : text ∉ reserved) : constants.lookup text = none := by
  have table : ∀ entry ∈ constants, entry.1 ∈ reserved := by decide
  by_contra found
  obtain ⟨v, found⟩ := Option.ne_none_iff_exists'.mp found
  exact name (table _ (mem_of_lookup found))

theorem Phrase.head_ne_closing (phrase : Phrase level tokens t) (rest : List Token) :
    (tokens ++ rest).head? ≠ some (.symbol ")") := by
  obtain ⟨token, others, rfl, opens⟩ := phrase.starts
  rw [List.cons_append, List.head?_cons]
  rintro ⟨⟩
  have table : ")" ≠ "(" ∧ (row unaryLevel).before.lookup ")" = none := by decide
  obtain opening | ⟨-, operator⟩ := opens ")" rfl
  · exact table.1 opening
  · exact operator table.2

/-- An operator that stands before its operand starts no tighter phrase. -/
theorem Phrase.operator?_before (phrase : Phrase (level + 1) tokens t) (rest : List Token) :
    operator? (row level).before (tokens ++ rest) = none := by
  obtain ⟨token, others, rfl, opens⟩ := phrase.starts
  rw [List.cons_append]
  cases token with
  | word | numeral => rfl
  | symbol symbol =>
    rw [operator?, Option.map_eq_none_iff]
    by_contra found
    obtain ⟨op, found⟩ := Option.ne_none_iff_exists'.mp found
    obtain ⟨rfl, -⟩ := before_facts (mem_of_lookup found)
    obtain rfl | ⟨looser, -⟩ := opens symbol rfl
    · cases found
    · omega

theorem reads_last (opens : tokens.head? ≠ some (.symbol ")"))
    (arg : Settles (readPhrase · 0 tokens) (t, .symbol ")" :: rest)) :
    Settles (readArguments · tokens) ([t], rest) := by
  refine arg.andThen (.pure ([t], rest)) fun fuel read => ?_
  rw [readArguments, if_neg opens, read]
  rfl

theorem reads_next {args : List Tree} {others : List Token} (opens : tokens.head? ≠ some (.symbol ")"))
    (arg : Settles (readPhrase · 0 tokens) (t, .symbol "," :: others))
    (more : Settles (readArguments · others) (args, rest)) :
    Settles (readArguments · tokens) (t :: args, rest) := by
  refine arg.andThen (more.map fun (args, rest) => (t :: args, rest)) fun fuel read => ?_
  rw [readArguments, if_neg opens, read]
  rfl

theorem reads_arguments {args : List (List Token × Tree)} (phrases : ∀ arg ∈ args, Phrase 0 arg.1 arg.2)
    (each : ∀ arg ∈ args, Readable 0 arg.1 arg.2) (rest : List Token) :
    Settles (readArguments · ([.symbol ","].intercalate (args.map Prod.fst) ++ .symbol ")" :: rest))
      (args.map Prod.snd, rest) := by
  induction args with
  | nil => exact .step (fun fuel => by rw [readArguments]; rfl) (.pure ([], rest))
  | cons arg others ih =>
    obtain ⟨phrase, phrases⟩ := List.forall_mem_cons.mp phrases
    obtain ⟨first, each⟩ := List.forall_mem_cons.mp each
    cases others with
    | nil =>
      have closes : Stops 0 (.symbol ")" :: rest) := stops_separator (by decide) rest
      rw [List.map_singleton, List.map_singleton, List.intercalate_singleton]
      exact reads_last (phrase.head_ne_closing _) (first.settles closes)
    | cons next others =>
      have goesOn : ∀ more, Stops 0 (.symbol "," :: more) := stops_separator (by decide)
      rw [List.map_cons, List.map_cons, List.map_cons, List.map_cons, List.intercalate_cons_cons,
        List.append_assoc, List.append_assoc]
      exact reads_next (phrase.head_ne_closing _) (first.settles (goesOn _)) (ih phrases each)

theorem reads_parens (inner : Settles (readPhrase · 0 tokens) (t, .symbol ")" :: rest)) :
    Settles (readPrimary · (.symbol "(" :: tokens)) (t, rest) := by
  refine inner.andThen (.pure (t, rest)) fun fuel read => ?_
  rw [readPrimary, if_pos rfl, read]
  rfl

end Reading

/-- The reader finds every phrase. -/
theorem Phrase.readable {level : Nat} {tokens : List Token} {t : Tree} (phrase : Phrase level tokens t) :
    Readable level tokens t := by
  induction phrase with
  | constant member =>
    apply readable_primary
    intro rest _
    refine .step (fun fuel => ?_) (.pure (_, rest))
    simp only [List.singleton_append, readPrimary, lookup_constant member]
  | numeral value =>
    apply readable_primary
    intro rest _
    refine .step (fun fuel => ?_) (.pure (_, rest))
    simp only [List.singleton_append, readPrimary, value, Option.map_some]
  | name name =>
    apply readable_primary
    intro rest stops
    refine .step (fun fuel => ?_) (.pure (_, rest))
    have noCall : rest.head? ≠ some (.symbol "(") := fun next => (stops "(" next).1 rfl
    simp only [List.singleton_append, readPrimary, lookup_name name, noCall, if_false]
  | @call text args name phrases each =>
    apply readable_primary
    intro rest _
    refine (reads_arguments phrases each rest).andThen (.pure (_, rest)) fun fuel read => ?_
    simp only [List.cons_append, List.append_assoc, List.nil_append, readPrimary, lookup_name name,
      List.head?_cons, if_true, List.tail_cons, read, Option.map_some]
  | @parens tokens t _ inner =>
    apply readable_primary
    intro rest _
    have closes : Stops 0 (.symbol ")" :: rest) := stops_separator (by decide) rest
    rw [List.cons_append, List.append_assoc]
    exact reads_parens (inner.settles closes)
  | @after level symbol op tokens t member _ readable =>
    intro rest result stops more
    obtain ⟨found, notCall, -⟩ := after_facts member
    rw [List.append_assoc]
    exact readable _ _ (stops_operator found notCall _) (extends_after member more)
  | @before level symbol op tokens t member _ readable =>
    intro rest result stops more
    obtain ⟨rfl, -⟩ := before_facts member
    -- The level has no operators after or between operands, so nothing goes on at it.
    have ends : Stops unaryLevel rest := by
      intro symbol next
      obtain ⟨notCall, before⟩ := stops symbol next
      refine ⟨notCall, fun j found => ?_⟩
      have bound := before j found
      have := (level?_facts found).2
      omega
    cases more.unique (extends_stops ends _)
    exact reads_before member (readable.settles ends)
  | @between level symbol op ls rs l r member _ _ left right =>
    intro rest result stops more
    obtain ⟨found, notCall, -⟩ := between_facts member
    rw [List.append_assoc]
    -- The left operand has the same level: what goes on with it is the operator with all the rest.
    exact left _ _ (stops_operator found notCall _) (extends_between member (right.settles stops) more)
  | @tighter level tokens t phrase readable =>
    intro rest result stops more
    exact reads_tighter phrase.level_le (phrase.operator?_before rest) (readable.settles stops) more

/-- Tokens are the phrase of one tree at most. -/
theorem Phrase.unique {level : Nat} {tokens : List Token} {t t' : Tree} (one : Phrase level tokens t)
    (other : Phrase level tokens t') : t = t' := by
  have nothing : Stops level [] := nofun
  cases (one.readable.settles nothing).unique (other.readable.settles nothing)
  rfl

end Source

end ConstFold
