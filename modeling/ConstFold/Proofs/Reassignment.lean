import ConstFold.Proofs.Steps

/-! Inlining along the life of a table. Every assignment to a variable is counted. Where a count past
the largest one stops the program, a variable that has been assigned is never inlined again. Where the
counter starts again from zero, the variable then passes for a constant. -/
namespace ConstFold

/-- What can happen to a table of declarations. -/
inductive TableOp where
  | declare (decl : Declaration)
  | assign (id : VarId)

/-- The operation is an assignment to the variable. -/
def TableOp.assigns (id : VarId) : TableOp → Bool
  | declare _ => false
  | assign other => other = id

namespace DeclTable

def step? (overflow : Overflow) (table : DeclTable) : TableOp → Option DeclTable
  | .declare decl => some (table.declare decl).2
  | .assign id => table.recordAssignment? overflow id

/-- The table after operations, one after another; none if the program stops. -/
def run? (overflow : Overflow) (table : DeclTable) (ops : List TableOp) : Option DeclTable :=
  ops.foldlM (step? overflow) table

/-- The operation is an assignment to a variable whose counter stands at its largest value. -/
def overflows (table : DeclTable) : TableOp → Bool
  | .declare _ => false
  | .assign id => (table.get? id).any fun decl => decl.reassignments == 4294967295

end DeclTable

namespace Declaration

variable {decl : Declaration}

/-- The declaration after `n` further assignments. -/
def assigned (decl : Declaration) (n : Nat) : Declaration :=
  { decl with reassignments := decl.reassignments + UInt32.ofNat n }

theorem assigned_zero : decl.assigned 0 = decl := by
  simp [assigned]

theorem assigned_assigned (m n : Nat) : (decl.assigned m).assigned n = decl.assigned (m + n) := by
  simp [assigned, UInt32.ofNat_add, UInt32.add_assoc]

theorem isEffectivelyFinal_assigned (n : Nat) :
    (decl.assigned n).isEffectivelyFinal ↔ 4294967296 ∣ decl.reassignments.toNat + n := by
  have counted : (decl.assigned n).reassignments.toNat =
      (decl.reassignments.toNat + n) % 4294967296 := by
    simp [assigned]
  rw [isEffectivelyFinal, beq_iff_eq, ← UInt32.toNat_inj, counted]
  exact (Nat.dvd_iff_mod_eq_zero).symm

/-- The variable starts as a literal. -/
def startsAsLiteral (decl : Declaration) : Bool := decl.initializer.any Expr.isLiteral

theorem constant?_isSome_iff (decl : Declaration) (inlineLocals : Bool) :
    (decl.constant? inlineLocals).isSome ↔
      decl.isInlinable inlineLocals ∧ decl.startsAsLiteral ∧ decl.isEffectivelyFinal := by
  rw [constant?, startsAsLiteral]
  split
  · rename_i candidate
    rw [Bool.and_eq_true] at candidate
    cases decl.initializer with
    | none => simp
    | some init => cases literal : init.isLiteral <;> simp [candidate, literal, Option.filter]
  · rename_i other
    rw [Bool.and_eq_true] at other
    constructor
    · intro impossible
      cases impossible
    · rintro ⟨inlinable, -, final⟩
      exact absurd ⟨inlinable, final⟩ other

end Declaration

theorem Overflow.increment?_stops (count : UInt32) :
    stops.increment? count = if count == 4294967295 then none else wraps.increment? count := rfl

namespace DeclTable

variable {table later : DeclTable} {id : VarId} {decl : Declaration}

/-- An operation stops the program exactly if it overflows; otherwise overflow does not matter. -/
theorem step?_stops (table : DeclTable) (op : TableOp) :
    table.step? .stops op = if table.overflows op then none else table.step? .wraps op := by
  cases op with
  | declare added => rfl
  | assign id =>
    rw [step?, step?, recordAssignment?, recordAssignment?, overflows]
    cases table.get? id with
    | none => rfl
    | some decl =>
      dsimp only [Option.any_some]
      rw [Overflow.increment?_stops]
      split <;> rfl

theorem exists_step?_wraps (table : DeclTable) (op : TableOp) :
    ∃ later, table.step? .wraps op = some later := by
  cases op with
  | declare added => exact ⟨_, rfl⟩
  | assign id =>
    rw [step?, recordAssignment?]
    cases table.get? id with
    | none => exact ⟨_, rfl⟩
    | some decl => exact ⟨_, rfl⟩

/-- Assigning to one variable keeps the declarations of all others. -/
theorem get?_set {other : VarId} (bound : other.index.toNat < table.decls.length) (changed : Declaration) :
    (⟨table.decls.set other.index.toNat changed⟩ : DeclTable).get? id =
      if other = id then some changed else table.get? id := by
  rw [get?, get?, List.getElem?_set, if_pos bound]
  refine if_congr ?_ rfl rfl
  constructor
  · intro equal
    cases other
    cases id
    exact congrArg VarId.mk (UInt32.toNat_inj.mp equal)
  · rintro rfl
    rfl

/-- One operation keeps a declaration, and counts an assignment if it is one. -/
theorem get?_step? {op : TableOp} (declared : table.get? id = some decl)
    (applied : table.step? .wraps op = some later) :
    later.get? id = some (decl.assigned (if op.assigns id then 1 else 0)) := by
  cases op with
  | declare added =>
    cases applied
    obtain ⟨bound, -⟩ := List.getElem?_eq_some_iff.mp declared
    simp only [TableOp.assigns, Bool.false_eq_true, if_false, Declaration.assigned_zero]
    exact (List.getElem?_append_left bound).trans declared
  | assign other =>
    rw [step?, recordAssignment?] at applied
    cases found : table.get? other with
    | none =>
      have apart : other ≠ id := by
        rintro rfl
        rw [declared] at found
        cases found
      rw [found] at applied
      cases applied
      simp [TableOp.assigns, apart, declared, Declaration.assigned_zero]
    | some counted =>
      obtain ⟨bound, -⟩ := List.getElem?_eq_some_iff.mp found
      rw [found] at applied
      cases applied
      rw [get?_set bound]
      by_cases same : other = id
      · subst same
        rw [declared] at found
        cases found
        simp [TableOp.assigns, Declaration.assigned]
      · simp [TableOp.assigns, same, declared, Declaration.assigned_zero]

/-- An operation that does not overflow adds to the counter, which does not start again. -/
theorem toNat_reassignments_assigned {op : TableOp} (declared : table.get? id = some decl)
    (fits : table.overflows op = false) :
    (decl.assigned (if op.assigns id then 1 else 0)).reassignments.toNat =
      decl.reassignments.toNat + if op.assigns id then 1 else 0 := by
  have bound := decl.reassignments.toNat_lt
  cases assigns : op.assigns id with
  | false => simp [Declaration.assigned]
  | true =>
    cases op with
    | declare added => cases assigns
    | assign other =>
      obtain rfl : other = id := of_decide_eq_true assigns
      have below : decl.reassignments ≠ 4294967295 := by
        rw [overflows, declared] at fits
        simpa using fits
      have apart : decl.reassignments.toNat ≠ 4294967295 := by
        intro equal
        exact below (UInt32.toNat_inj.mp equal)
      simp only [Declaration.assigned, if_true, UInt32.toNat_add]
      exact Nat.mod_eq_of_lt (by simp; omega)

theorem run?_cons (overflow : Overflow) (table : DeclTable) (op : TableOp) (ops : List TableOp) :
    table.run? overflow (op :: ops) = (table.step? overflow op).bind fun next => next.run? overflow ops :=
  rfl

/-- A run of operations keeps a declaration and counts the assignments to it. -/
theorem get?_run? {ops : List TableOp} (declared : table.get? id = some decl)
    (ran : table.run? .wraps ops = some later) :
    later.get? id = some (decl.assigned (ops.countP (TableOp.assigns id))) := by
  induction ops generalizing table decl with
  | nil =>
    cases ran
    rw [List.countP_nil, Declaration.assigned_zero]
    exact declared
  | cons op rest ih =>
    rw [run?_cons] at ran
    obtain ⟨next, applied, remaining⟩ := Option.bind_eq_some_iff.mp ran
    have counted := ih (get?_step? declared applied) remaining
    rw [Declaration.assigned_assigned] at counted
    rw [List.countP_cons, Nat.add_comm]
    exact counted

theorem exists_run?_wraps (table : DeclTable) (ops : List TableOp) :
    ∃ later, table.run? .wraps ops = some later := by
  induction ops generalizing table with
  | nil => exact ⟨table, rfl⟩
  | cons op rest ih =>
    obtain ⟨next, applied⟩ := table.exists_step?_wraps op
    rw [run?_cons, applied]
    exact ih next

/-- A run that the program survives is the same where counters start again, and no counter in it
does. -/
theorem run?_wraps_of_stops {ops : List TableOp} (ran : table.run? .stops ops = some later) :
    table.run? .wraps ops = some later ∧
      ∀ id decl, table.get? id = some decl →
        decl.reassignments.toNat + ops.countP (TableOp.assigns id) < 4294967296 := by
  induction ops generalizing table with
  | nil =>
    constructor
    · exact ran
    · intro id decl _
      exact decl.reassignments.toNat_lt
  | cons op rest ih =>
    rw [run?_cons, step?_stops] at ran
    obtain ⟨next, applied, remaining⟩ := Option.bind_eq_some_iff.mp ran
    cases fits : table.overflows op with
    | true =>
      rw [fits] at applied
      cases applied
    | false =>
      rw [fits, if_neg Bool.false_ne_true] at applied
      obtain ⟨same, counts⟩ := ih remaining
      constructor
      · rw [run?_cons, applied]
        exact same
      · intro id decl declared
        have bound := counts id _ (get?_step? declared applied)
        rw [toNat_reassignments_assigned declared fits] at bound
        rw [List.countP_cons]
        omega

/-- The program stops at the first operation that overflows, and only there. -/
theorem run?_stops_eq_none_iff (table : DeclTable) (ops : List TableOp) :
    table.run? .stops ops = none ↔
      ∃ before op after reached, ops = before ++ op :: after ∧
        table.run? .wraps before = some reached ∧ reached.overflows op := by
  induction ops generalizing table with
  | nil =>
    constructor
    · intro stopped
      cases stopped
    · rintro ⟨before, op, after, -, split, -⟩
      cases before <;> cases split
  | cons op rest ih =>
    obtain ⟨next, applied⟩ := table.exists_step?_wraps op
    rw [run?_cons, step?_stops, applied]
    cases fits : table.overflows op with
    | true =>
      refine iff_of_true rfl ⟨[], op, rest, table, rfl, rfl, fits⟩
    | false =>
      refine (ih next).trans ?_
      constructor
      · rintro ⟨before, last, after, reached, rfl, ran, full⟩
        refine ⟨op :: before, last, after, reached, rfl, ?_, full⟩
        rw [run?_cons, applied]
        exact ran
      · rintro ⟨before, last, after, reached, split, ran, full⟩
        cases before with
        | nil =>
          cases split
          cases ran
          rw [fits] at full
          cases full
        | cons first others =>
          cases split
          rw [run?_cons, applied] at ran
          exact ⟨others, last, after, reached, rfl, ran, full⟩

end DeclTable

namespace Expr

mutual

/-- The reads of a variable, from left to right. -/
def readsOf (id : VarId) : Expr → List Expr
  | read other name s => if other = id then [read other name s] else []
  | unary _ x _ => readsOf id x
  | binary _ l r _ => readsOf id l ++ readsOf id r
  | call _ args _ => readsOfAll id args
  | literal _ _ | typeRef _ _ => []

def readsOfAll (id : VarId) : List Expr → List Expr
  | [] => []
  | e :: rest => readsOf id e ++ readsOfAll id rest

end

theorem readsOfAll_congr {id : VarId} {args args' : List Expr}
    (same : List.Forall₂ (fun e e' => e'.readsOf id = e.readsOf id) args args') :
    readsOfAll id args' = readsOfAll id args := by
  induction same with
  | nil => rfl
  | cons first _ ih => rw [readsOfAll, readsOfAll, first, ih]

end Expr

namespace Pass

variable {table : DeclTable} {inlineLocals : Bool} {id : VarId}

theorem visit_inlineReads_total (table : DeclTable) (inlineLocals : Bool) (e : Expr) :
    ∃ e', (inlineReads table inlineLocals).visit e = .ok e' := by
  apply visit_total
  intro e
  simp only [inlineReads]
  split
  · exact ⟨_, rfl⟩
  · exact ⟨_, rfl⟩

/-- The reads of a variable that no constant stands for all stay. -/
theorem readsOf_visit_inlineReads
    (missing : (table.get? id).bind (·.constant? inlineLocals) = none) {e e' : Expr}
    (visited : (inlineReads table inlineLocals).visit e = .ok e') :
    e'.readsOf id = e.readsOf id := by
  have left {e e' : Expr} (done : (inlineReads table inlineLocals).leave e = .ok e') :
      e'.readsOf id = e.readsOf id := by
    obtain ⟨rfl, -⟩ | ⟨other, name, s, decl, constant, rfl, declared, found, rfl⟩ :=
      inlineReads_ok done
    · rfl
    · obtain ⟨v, t, rfl, -⟩ := Declaration.constant?_eq_some found
      have apart : other ≠ id := by
        rintro rfl
        rw [declared, Option.bind_some, found] at missing
        cases missing
      simp [Expr.addCasts, Expr.withCasts, Expr.withStatic, Expr.readsOf, apart]
  have relates : (inlineReads table inlineLocals).Relates
      fun e e' => e'.readsOf id = e.readsOf id :=
    { leaf := fun e e' _ done => left done
      unary := by
        intro op x y s e' operand done
        rw [left done, Expr.readsOf, Expr.readsOf, operand]
        exact congrArg (Expr.readsOf id) x.withCasts_casts
      binary := by
        intro op l r left' right' s e' leftSame rightSame done
        rw [left done, Expr.readsOf, Expr.readsOf, leftSame, rightSame]
        exact congrArg₂ (· ++ ·) (congrArg (Expr.readsOf id) l.withCasts_casts)
          (congrArg (Expr.readsOf id) r.withCasts_casts)
      call := by
        intro name args visited s e' each done
        rw [left done, Expr.readsOf, Expr.readsOf, Expr.readsOfAll_congr each] }
  exact relates.visit visited

/-- A constant takes the place of a read. -/
theorem visit_inlineReads_read {decl : Declaration} {constant : Expr}
    (declared : table.get? id = some decl) (found : decl.constant? inlineLocals = some constant)
    (name : Name) :
    (inlineReads table inlineLocals).visit (.read id name {}) = .ok constant := by
  obtain ⟨v, t, rfl, -⟩ := Declaration.constant?_eq_some found
  rw [visit_leaf _ rfl]
  simp [inlineReads, DeclTable.resolve?, declared, found, Expr.addCasts, Expr.casts, Expr.static,
    Expr.withCasts, Expr.withStatic, Expr.ty]

/-- The pass has a result on every expression, with all reads of the variable. -/
def KeepsReads (pass : Pass) (id : VarId) : Prop :=
  ∀ e, ∃ e', pass.visit e = .ok e' ∧ e'.readsOf id = e.readsOf id

/-- Inlining keeps the reads of a declared variable exactly if no constant stands for them. -/
theorem keepsReads_inlineReads_iff {decl : Declaration} (declared : table.get? id = some decl) :
    (inlineReads table inlineLocals).KeepsReads id ↔
      ¬(decl.isInlinable inlineLocals ∧ decl.startsAsLiteral ∧ decl.isEffectivelyFinal) := by
  refine Iff.trans ?_ (not_congr (decl.constant?_isSome_iff inlineLocals))
  constructor
  · intro stays constant
    obtain ⟨constant, found⟩ := Option.isSome_iff_exists.mp constant
    obtain ⟨e', visited, same⟩ := stays (.read id decl.name {})
    rw [visit_inlineReads_read declared found] at visited
    obtain ⟨v, t, rfl, -⟩ := Declaration.constant?_eq_some found
    cases visited
    simp [Expr.readsOf] at same
  · intro missing e
    obtain ⟨e', visited⟩ := visit_inlineReads_total table inlineLocals e
    refine ⟨e', visited, readsOf_visit_inlineReads ?_ visited⟩
    rw [declared]
    exact Option.not_isSome_iff_eq_none.mp missing

end Pass

/-- Whatever happens to a table after a declaration, let `count` be where its counter started plus the
assignments to the variable. Where counters start again, the reads of the variable all stay unless it
could be inlined and the count is a multiple of `2 ^ 32`. Where overflow stops the program, the count
stays below `2 ^ 32`, and the reads all stay unless the variable could be inlined and was never
assigned; and the program stops only at an assignment to a variable whose counter is exhausted. -/
theorem reassigned_reads_stay_iff (table : DeclTable) (ops : List TableOp) {id : VarId}
    {decl : Declaration} (declared : table.get? id = some decl) (inlineLocals : Bool) :
    let count := decl.reassignments.toNat + ops.countP (TableOp.assigns id)
    (∃ later, table.run? .wraps ops = some later ∧
      ((Pass.inlineReads later inlineLocals).KeepsReads id ↔
        ¬(decl.isInlinable inlineLocals ∧ decl.startsAsLiteral ∧ 4294967296 ∣ count))) ∧
    (∀ later, table.run? .stops ops = some later → count < 4294967296 ∧
      ((Pass.inlineReads later inlineLocals).KeepsReads id ↔
        ¬(decl.isInlinable inlineLocals ∧ decl.startsAsLiteral ∧ count = 0))) ∧
    (table.run? .stops ops = none ↔
      ∃ before op after reached, ops = before ++ op :: after ∧
        table.run? .wraps before = some reached ∧ reached.overflows op) := by
  intro count
  have kept {later : DeclTable} (ran : table.run? .wraps ops = some later) :
      (Pass.inlineReads later inlineLocals).KeepsReads id ↔
        ¬(decl.isInlinable inlineLocals ∧ decl.startsAsLiteral ∧ 4294967296 ∣ count) := by
    rw [Pass.keepsReads_inlineReads_iff (DeclTable.get?_run? declared ran),
      Declaration.isEffectivelyFinal_assigned]
    rfl
  refine ⟨?_, ?_, table.run?_stops_eq_none_iff ops⟩
  · obtain ⟨later, ran⟩ := table.exists_run?_wraps ops
    exact ⟨later, ran, kept ran⟩
  · intro later ran
    obtain ⟨same, counts⟩ := DeclTable.run?_wraps_of_stops ran
    have bound : count < 4294967296 := counts id decl declared
    have zero : 4294967296 ∣ count ↔ count = 0 := by omega
    refine ⟨bound, ?_⟩
    rw [kept same, zero]

namespace CounterSample

/-- A local variable that starts as `5`, with a counter that stands at `count`. -/
def declaration (count : UInt32) : Declaration :=
  { name := .ofIndex 0, ty := .int, kind := .localVar, reassignments := count
    initializer := some (.literal (.int 5) ⟨some .int, []⟩) }

/-- The variable is declared with an exhausted counter and then assigned. -/
def ops : List TableOp := [.declare (declaration 4294967295), .assign ⟨0⟩]

end CounterSample

/-- One assignment takes a counter from its largest value back to zero, and the read of the assigned
variable is replaced, unless the program stops there. -/
theorem reassigned_read_inlined :
    (∃ later, DeclTable.run? .wraps {} CounterSample.ops = some later ∧
      (Pass.inlineReads later true).visit (.read ⟨0⟩ (.ofIndex 0) ⟨some .int, []⟩) =
        .ok (.literal (.int 5) ⟨some .int, []⟩)) ∧
    DeclTable.run? .stops {} CounterSample.ops = none :=
  ⟨⟨_, rfl, rfl⟩, rfl⟩

theorem reassigned_reads_stay_iff_sample :
    let table : DeclTable := ⟨[CounterSample.declaration 4294967294]⟩
    let ops : List TableOp := [.declare (CounterSample.declaration 0), .assign ⟨1⟩, .assign ⟨0⟩]
    (∃ later, table.run? .stops ops = some later ∧ (Pass.inlineReads later true).KeepsReads ⟨0⟩) ∧
      (∃ later, table.run? .wraps (.assign ⟨0⟩ :: ops) = some later ∧
        ¬(Pass.inlineReads later true).KeepsReads ⟨0⟩) ∧
      table.run? .stops (.assign ⟨0⟩ :: ops) = none := by
  intro table ops
  have declared : table.get? ⟨0⟩ = some (CounterSample.declaration 4294967294) := rfl
  refine ⟨?_, ?_, ?_⟩
  · have stays := (reassigned_reads_stay_iff table ops declared true).2.1 _ rfl
    exact ⟨_, rfl, stays.2.mpr (by decide)⟩
  · obtain ⟨later, ran, stays⟩ :=
      (reassigned_reads_stay_iff table (.assign ⟨0⟩ :: ops) declared true).1
    refine ⟨later, ran, ?_⟩
    rw [stays]
    decide
  · apply (reassigned_reads_stay_iff table (.assign ⟨0⟩ :: ops) declared true).2.2.mpr
    exact ⟨[.assign ⟨0⟩, .declare (CounterSample.declaration 0), .assign ⟨1⟩], .assign ⟨0⟩, [], _, rfl,
      rfl, by decide⟩

end ConstFold
