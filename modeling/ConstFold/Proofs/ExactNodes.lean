import ConstFold.Proofs.Soundness.Constant
import ConstFold.Proofs.TypePreservation

/-! Exact types that last. An incremented variable may give way to its constant, which has no type
any more; every other node keeps an exact type while passes run, and so do the operators around
it. -/
namespace ConstFold

open ConstFold.Pass

variable {table : DeclTable} {e e' x y l l' r r' : Expr} {s : Static} {casts : List Cast}
  {b p q t : Primitive}

/-- Casts from one integral type are casts from every other. -/
theorem isSome_castTy?_integral (source : p.isIntegral) (other : q.isIntegral)
    (leads : (castTy? p casts).isSome) : (castTy? q casts).isSome := by
  cases casts with
  | nil => rfl
  | cons cast rest =>
    obtain ⟨last, leads⟩ := Option.isSome_iff_exists.mp leads
    obtain ⟨t, target, related, leads⟩ := castTy?_cons.mp leads
    have further : q.casts t := by
      cases p <;> cases q <;> first | contradiction | exact related
    rw [castTy?_cons.mpr ⟨t, target, further, leads⟩]
    rfl

namespace UnaryOp

theorem isIntegral_exactTy? {op : UnaryOp} (exact : op.exactTy? p = some t)
    (integral : p.isIntegral) : t.isIntegral := by
  cases op <;> simp only [exactTy?, Option.ite_none_right_eq_some, Option.some.injEq] at exact
  case not =>
    rw [exact.1] at integral
    contradiction
  case pos | neg | compl => exact exact.2 ▸ p.isIntegral_promoted
  all_goals exact exact.2 ▸ integral

end UnaryOp

namespace BinaryOp

theorem isIntegral_exactTy? {op : BinaryOp} (exact : op.exactTy? p q = some t)
    (noPredicate : op.isPredicate = false) (integral : p.isIntegral ∨ q.isIntegral) :
    t.isIntegral := by
  have both : p.isIntegral ∧ q.isIntegral := by
    rcases exactTy?_operands exact with ⟨-, rfl, rfl⟩ | both
    · rcases integral with impossible | impossible <;> contradiction
    · exact both
  have notBoolean : p ≠ .boolean := by
    rintro rfl
    exact absurd both.1 (by decide)
  rw [exactTy?_eq exact, noPredicate, if_neg Bool.false_ne_true, exactOperands, if_neg notBoolean]
  split
  · exact p.isIntegral_promoted
  · exact p.isIntegral_wider q

end BinaryOp

namespace Expr

/-- As an operand the expression has the type, or it has lost its type and the type is
integral. -/
def MayHave (e : Expr) (p : Primitive) : Prop :=
  e.operandTy? = some (.primitive p) ∨ e.isLost ∧ p.isIntegral

theorem MayHave.unique (first : e.MayHave p) (known : e.operandTy? = some (.primitive q)) :
    p = q := by
  rcases first with first | ⟨lost, -⟩
  · cases first.symm.trans known
    rfl
  · rw [operandTy?_of_isLost lost] at known
    cases known

/-- The exact type that a node has before its casts. -/
def HasBase (table : DeclTable) (e : Expr) (b : Primitive) : Prop :=
  match e with
  | literal v s => v.primitive? = some b ∧ b.isExact ∧ s.ty = some (.primitive b)
  | read id _ s =>
    (∀ decl, table.get? id = some decl → decl.ty = .primitive b) ∧ b.isExact ∧
      s.ty = some (.primitive b)
  | call _ _ s => b.isExact ∧ s.ty = some (.primitive b)
  | unary op x s =>
    ∃ p, x.MayHave p ∧ op.exactTy? p = some b ∧ s.Admits b ∧
      (op.isStep → x.isRead ∨ x.isLiteral)
  | binary op l r s =>
    ∃ p q, l.MayHave p ∧ r.MayHave q ∧ op.exactTy? p q = some b ∧ s.Admits b
  | typeRef _ _ => False

/-- The casts of the node lead from its type to another exact type. -/
def IsExact (table : DeclTable) (e : Expr) : Prop :=
  ∃ b q, e.HasBase table b ∧ castTy? b e.casts = some q

namespace HasBase

theorem withCasts (base : e.HasBase table b) (casts : List Cast) :
    (e.withCasts casts).HasBase table b := by
  cases e <;> exact base

theorem isExact (base : e.HasBase table b) : b.isExact := by
  cases e with
  | literal | read => exact base.2.1
  | call => exact base.1
  | unary op x s =>
    obtain ⟨p, -, exact, -⟩ := base
    exact isExact_of_unary exact
  | binary op l r s =>
    obtain ⟨p, q, -, -, exact, -⟩ := base
    exact isExact_of_binary exact
  | typeRef => cases base

theorem admits (base : e.HasBase table b) : e.static.Admits b := by
  cases e with
  | literal | read => exact .inr base.2.2
  | call => exact .inr base.2
  | unary op x s =>
    obtain ⟨p, -, -, admits, -⟩ := base
    exact admits
  | binary op l r s =>
    obtain ⟨p, q, -, -, -, admits⟩ := base
    exact admits
  | typeRef => cases base

/-- The type is the one that is inferred, or an integral one that is lost. -/
theorem inferTy? (base : e.HasBase table b) :
    e.inferTy? = some (.primitive b) ∨ e.isUntypable ∧ b.isIntegral := by
  cases e with
  | literal | read =>
    rw [Expr.inferTy?]
    exact .inl base.2.2
  | call =>
    rw [Expr.inferTy?]
    exact .inl base.2
  | unary op x s =>
    obtain ⟨p, operand, exact, -, step⟩ := base
    by_cases isStep : op.isStep
    · rcases step isStep with isRead | isLiteral
      · rcases operand with operand | ⟨lost, -⟩
        · exact .inl (inferTy?_unary_exact operand exact fun _ => isRead)
        · rw [isLost_read isRead] at lost
          cases lost
      · rw [isUntypable_step isStep]
        refine .inr ⟨isLiteral, ?_⟩
        cases op <;> first
          | contradiction
          | exact UnaryOp.isIntegral_exactTy? exact (Option.ite_none_right_eq_some.mp exact).1
    · rw [isUntypable_unary (by simpa using isStep)]
      rcases operand with operand | ⟨lost, integral⟩
      · exact .inl (inferTy?_unary_exact operand exact fun impossible => absurd impossible isStep)
      · exact .inr ⟨lost, UnaryOp.isIntegral_exactTy? exact integral⟩
  | binary op l r s =>
    obtain ⟨p, q, left, right, exact, -⟩ := base
    cases isPredicate : op.isPredicate with
    | true =>
      rw [inferTy?_predicate isPredicate, BinaryOp.exactTy?_eq exact, if_pos isPredicate]
      exact .inl rfl
    | false =>
      rw [isUntypable_binary, isPredicate, Bool.not_false, Bool.true_and, Bool.or_eq_true]
      rcases left with left | ⟨lost, integral⟩
      · rcases right with right | ⟨lost, integral⟩
        · exact .inl (inferTy?_binary_exact left right exact)
        · exact .inr ⟨.inr lost, BinaryOp.isIntegral_exactTy? exact isPredicate (.inr integral)⟩
      · exact .inr ⟨.inl lost, BinaryOp.isIntegral_exactTy? exact isPredicate (.inl integral)⟩
  | typeRef => cases base

theorem mayHave (base : e.HasBase table b) (leads : castTy? b e.casts = some q) : e.MayHave q := by
  rcases Static.resultTy_exact base.admits leads with result | ⟨untyped, bare, rfl⟩
  · exact .inl (operandTy?_of_resultTy result)
  · have unknown : e.resultTy = none := (resultTy_of_bare bare).trans untyped
    rw [MayHave, operandTy?_of_untyped unknown, isLost_iff]
    rcases base.inferTy? with inferred | ⟨untypable, integral⟩
    · exact .inl inferred
    · exact .inr ⟨⟨unknown, untypable⟩, integral⟩

end HasBase

namespace IsExact

theorem isConsistent (exact : e.IsExact table) : e.IsConsistent table := by
  obtain ⟨b, q, base, -⟩ := exact
  have operator : ∀ t, e.ty = some t → e.inferTy? = some t ∨ e.isUntypable := by
    intro t typed
    rcases base.admits with untyped | same
    · cases untyped.symm.trans typed
    · cases same.symm.trans typed
      exact base.inferTy?.imp id And.left
  cases e with
  | unary | binary => exact operator
  | read id name s =>
    intro decl declared
    rw [base.1 decl declared]
    exact base.2.2
  | literal | call | typeRef => trivial

/-- A literal of exact type is a well-typed constant. -/
theorem literal {v : Value} (exact : (Expr.literal v s).IsExact table)
    (known : (Expr.literal v s).operandTy? = some (.primitive p)) :
    (Expr.literal v s).exactTy? Scope.empty = some p := by
  obtain ⟨b, q, base, leads⟩ := exact
  cases (base.mayHave leads).unique known
  exact exactTy?_literal.mpr ⟨b, base.1, base.2.1, base.2.2, leads⟩

theorem castTo (exact : e.IsExact table) (known : e.operandTy? = some (.primitive p))
    (related : p.casts t) : (e.castTo (.primitive t)).IsExact table := by
  obtain ⟨b, q, base, leads⟩ := exact
  cases (base.mayHave leads).unique known
  refine ⟨b, t, ?_, ?_⟩
  · rw [castTo_eq]
    exact base.withCasts _
  · rw [castTo_eq, casts_withCasts]
    exact (Static.castTo_exact base.admits base.isExact leads related).1

end IsExact

theorem exact_castTo (inside : x.Everywhere (IsExact table))
    (known : x.operandTy? = some (.primitive p)) (related : p.casts t) :
    (x.castTo (.primitive t)).Everywhere (IsExact table) := by
  rw [castTo_eq]
  apply inside.withCasts
  rw [← castTo_eq]
  exact fun node => node.castTo known related

/-- Casts from the type of an expression may be put around it. -/
theorem exact_addCasts (inside : x.Everywhere (IsExact table)) (has : x.MayHave p)
    (leads : castTy? p casts = some q) :
    (x.addCasts casts).Everywhere (IsExact table) ∧ (x.addCasts casts).MayHave q := by
  constructor
  · apply inside.withCasts
    rintro ⟨b, own, base, first⟩
    have further : (castTy? own casts).isSome := by
      have some_ : (castTy? p casts).isSome := by rw [leads]; rfl
      rcases has with known | ⟨lost, integral⟩
      · rwa [(base.mayHave first).unique known]
      · rcases base.mayHave first with known | ⟨-, other⟩
        · rw [operandTy?_of_isLost lost] at known
          cases known
        · exact isSome_castTy?_integral integral other some_
    obtain ⟨last, further⟩ := Option.isSome_iff_exists.mp further
    refine ⟨b, last, base.withCasts _, ?_⟩
    rw [casts_withCasts, castTy?_append, first]
    exact further
  · cases casts with
    | nil =>
      cases leads
      rwa [addCasts_nil]
    | cons cast rest =>
      have whole : castsTo cast.target rest = .primitive q := by
        rw [← castsTo_exact leads, castsTo_cons]
      refine .inl (operandTy?_of_resultTy ?_)
      rw [resultTy_addCasts, Static.resultTy_of_casts rfl, whole]

/-- The second expression has exact types again, and its own type is that of the first, unless it
has lost it. -/
structure KeepsExact (table : DeclTable) (e e' : Expr) : Prop where
  exact : e'.Everywhere (IsExact table)
  keeps : KeepsType table e e'
  mayHave : ∀ p, e.MayHave p → e'.MayHave p

/-- Nothing is said of expressions with other types. -/
def PreservesExact (table : DeclTable) (e e' : Expr) : Prop :=
  e.Everywhere (IsExact table) → KeepsExact table e e'

/-- What both expressions may have determines what they keep. -/
theorem KeepsExact.intro (exact : e'.Everywhere (IsExact table)) (keeps : KeepsType table e e')
    (before : e.MayHave q) (after : e'.MayHave q) : KeepsExact table e e' := by
  refine ⟨exact, keeps, ?_⟩
  rintro p (known | ⟨lost, integral⟩)
  · cases before.unique known
    exact after
  · exact .inr ⟨keeps.lost lost, integral⟩

namespace PreservesExact

/-- Where types stay what they are, only the nodes matter. -/
theorem ofRetypes (retypes : Retypes table e e')
    (exact : e.Everywhere (IsExact table) → e'.Everywhere (IsExact table)) :
    PreservesExact table e e' := by
  intro before
  refine ⟨exact before,
    PreservesType.ofRetypes retypes (before.mono fun _ => IsExact.isConsistent), ?_⟩
  rintro p (known | ⟨lost, integral⟩)
  · exact .inl (retypes.operandTy.trans known)
  · exact .inr ⟨retypes.lost lost, integral⟩

theorem congruence : Congruence (PreservesExact table) where
  refl e := ofRetypes (.refl e) id
  trans first second exact := by
    have before := first exact
    have after := second before.exact
    exact ⟨after.exact, PreservesType.trans (fun _ => before.keeps) (fun _ => after.keeps)
      (exact.mono fun _ => IsExact.isConsistent), fun p has => after.mayHave p (before.mayHave p has)⟩
  unary {op x y s} operand := by
    intro exact
    cases exact with
    | unary node inside =>
      have kept := operand inside
      obtain ⟨b, q, base, leads⟩ := node
      have after : (Expr.unary op y s).HasBase table b := by
        obtain ⟨p, has, exact, admits, step⟩ := base
        refine ⟨p, kept.mayHave p has, exact, admits, fun isStep => ?_⟩
        exact (step isStep).elim kept.keeps.isRead (.inr ∘ kept.keeps.isLiteral)
      have consistent := (Everywhere.unary ⟨b, q, base, leads⟩ inside).mono
        fun _ => IsExact.isConsistent
      exact .intro (.unary ⟨b, q, after, leads⟩ kept.exact)
        (PreservesType.unary (fun _ => kept.keeps) consistent) (base.mayHave leads)
        (after.mayHave leads)
  binary {op l l' r r' s} left right := by
    intro exact
    cases exact with
    | binary node insideLeft insideRight =>
      have keptLeft := left insideLeft
      have keptRight := right insideRight
      obtain ⟨b, q, base, leads⟩ := node
      have after : (Expr.binary op l' r' s).HasBase table b := by
        obtain ⟨pl, pr, hasLeft, hasRight, exact, admits⟩ := base
        exact ⟨pl, pr, keptLeft.mayHave pl hasLeft, keptRight.mayHave pr hasRight, exact, admits⟩
      have consistent := (Everywhere.binary ⟨b, q, base, leads⟩ insideLeft insideRight).mono
        fun _ => IsExact.isConsistent
      exact .intro (.binary ⟨b, q, after, leads⟩ keptLeft.exact keptRight.exact)
        (PreservesType.binary (fun _ => keptLeft.keeps) (fun _ => keptRight.keeps) consistent)
        (base.mayHave leads) (after.mayHave leads)
  call {name args args' s} related := by
    intro exact
    cases exact with
    | call node inside =>
      obtain ⟨b, q, base, leads⟩ := node
      have after : (Expr.call name args' s).HasBase table b := base
      have consistent := (Everywhere.call ⟨b, q, base, leads⟩ inside).mono
        fun _ => IsExact.isConsistent
      have each := forall_of_forall₂ related (fun _ _ keeps inside => (keeps inside).exact) inside
      have preserves : List.Forall₂ (PreservesType table) args args' :=
        ((List.forall₂_and_left args args').mpr ⟨inside, related⟩).imp
          fun _ _ ⟨inside, keeps⟩ _ => (keeps inside).keeps
      exact .intro (.call ⟨b, q, after, leads⟩ each)
        (PreservesType.congruence.call preserves consistent) (base.mayHave leads)
        (after.mayHave leads)

end PreservesExact

end Expr

end ConstFold
