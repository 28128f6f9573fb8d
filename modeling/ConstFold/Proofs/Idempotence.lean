import ConstFold.Proofs.ConstantCasts
import ConstFold.Proofs.Settled

/-! Folding twice. One run of the default passes settles an expression, except that a law may
bring two negations together, which the next run cancels. -/
namespace ConstFold

open ConstFold.Expr ConstFold.Pass

variable {table : DeclTable} {e e' x y l r : Expr} {s : Static}

namespace Expr

mutual

/-- The number of nodes. -/
def size : Expr → Nat
  | literal _ _ | read _ _ _ | typeRef _ _ => 1
  | unary _ x _ => x.size + 1
  | binary _ l r _ => l.size + r.size + 1
  | call _ args _ => sizeAll args + 1

def sizeAll : List Expr → Nat
  | [] => 0
  | e :: rest => e.size + sizeAll rest

end

@[simp] theorem size_withStatic (s : Static) : (e.withStatic s).size = e.size := by
  cases e <;> simp only [withStatic, size]

@[simp] theorem size_withCasts (casts : List Cast) : (e.withCasts casts).size = e.size :=
  size_withStatic _

theorem size_pos : 0 < e.size := by
  cases e <;> simp only [size] <;> omega

theorem size_castLiteral (v : Value) (ty : Option Ty) (casts : List Cast) :
    (castLiteral v ty casts).size = 1 := by
  obtain ⟨w, s, literal, -⟩ := castLiteral_eq v ty casts
  rw [literal, size]

theorem size_applyCasts : e.applyCasts.size = e.size := by
  cases e with
  | literal v s => rw [applyCasts, size_castLiteral, size]
  | unary | binary | read | call | typeRef => rfl

theorem size_select {select : Bool} {t : Ty} : (if select then e.castTo t else e).size = e.size := by
  split
  · exact size_withStatic _
  · rfl

theorem size_promotedOperand (operands : Operands) (op : UnaryOp) :
    (promotedOperand operands op x).size = x.size := by
  rw [promotedOperand]
  split
  · exact size_select
  · rfl

theorem size_promotedOperands (operands : Operands) (op : BinaryOp) :
    (promotedOperands operands op l r).1.size = l.size ∧
      (promotedOperands operands op l r).2.size = r.size := by
  rw [promotedOperands]
  split
  · exact ⟨size_select, size_select⟩
  · exact ⟨rfl, rfl⟩

theorem sizeAll_eq {args args' : List Expr}
    (each : List.Forall₂ (fun x y : Expr => y.size = x.size) args args') :
    sizeAll args' = sizeAll args := by
  induction each with
  | nil => rfl
  | cons first _ ih => rw [sizeAll, sizeAll, first, ih]

end Expr

namespace Pass

theorem size_visit_promoteOperands {operands : Operands}
    (visited : (promoteOperands operands).visit e = .ok e') : e'.size = e.size := by
  refine promoteOperands_induction (R := fun e e' => e'.size = e.size) ?_ ?_ ?_ ?_ visited
  · exact fun e _ => size_applyCasts
  · intro op x y s _ same
    rw [size, size, same, size_promotedOperand]
  · intro op l r left right s _ _ sameLeft sameRight
    rw [size, size, sameLeft, sameRight, (size_promotedOperands operands op).1,
      (size_promotedOperands operands op).2]
  · intro name args visited s each
    rw [size, size, sizeAll_eq each]

/-- An operand that survives is smaller than the whole. -/
theorem size_survivingOperand {op : BinaryOp} (survives : survivingOperand? op l r = .ok (some y)) :
    y.size < (Expr.binary op l r s).size := by
  obtain ⟨left, right, side, leftVisited, rightVisited, -, rfl⟩ := survivingOperand?_eq_some survives
  have leftSize := size_visit_promoteOperands leftVisited
  have rightSize := size_visit_promoteOperands rightVisited
  rw [(size_promotedOperands .all op).1] at leftSize
  rw [(size_promotedOperands .all op).2] at rightSize
  rw [size]
  cases side with
  | left =>
    rw [Side.operand, leftSize]
    omega
  | right =>
    rw [Side.operand, rightSize]
    omega

theorem isInferred_withTy
    (operator : (∃ op x s, e = .unary op x s) ∨ ∃ op l r s, e = .binary op l r s) :
    (e.withTy e.inferTy?).IsInferred := by
  intro untyped
  rcases operator with ⟨op, x, s, rfl⟩ | ⟨op, l, r, s, rfl⟩
  · simp only [withTy, withStatic, inferTy?_unary, Expr.ty, static] at untyped ⊢
    exact untyped
  · simp only [withTy, withStatic, inferTy?, Expr.ty, static] at untyped ⊢
    exact untyped

/-- No pass but the one for double operators changes a settled node. -/
theorem step_settled (settled : e.IsSettled table) :
    inferTypes.step e = .ok e ∧ (inlineReads table true).step e = .ok e ∧
      reduceIdentities.step e = .ok e ∧ evaluateLiterals.step e = .ok e := by
  have evaluated (folded : e.isFoldable → foldedValue? e = .ok none) :
      evaluateLiterals.step e = .ok e := by
    rw [evaluateLiterals_step]
    split
    · rename_i foldable
      rw [foldNode_eq, folded foldable]
      rfl
    · rfl
  cases e with
  | unary op x s =>
    refine ⟨?_, rfl, rfl, evaluated settled.2⟩
    obtain ⟨_ | t, casts⟩ := s
    · simp only [inferTypes, settled.1 rfl]
      rfl
    · rfl
  | binary op l r s =>
    refine ⟨?_, rfl, ?_, evaluated settled.2.2⟩
    · obtain ⟨_ | t, casts⟩ := s
      · simp only [inferTypes, settled.1 rfl]
        rfl
      · rfl
    · rw [reduceIdentities_binary]
      split
      · rename_i literal
        rw [settled.2.1 literal]
        rfl
      · rfl
  | read id name s =>
    refine ⟨rfl, ?_, rfl, rfl⟩
    have missing : ((table.resolve? (.read id name s)).bind fun decl => decl.constant? true) = none :=
      Option.bind_eq_none_iff.mpr settled
    simp only [inlineReads, missing]
  | literal | call | typeRef => exact ⟨rfl, rfl, rfl, rfl⟩

end Pass

theorem Expr.IsSettled.intro (inferred : e.IsInferred)
    (inlined : ∀ decl, table.resolve? e = some decl → decl.constant? true = none)
    (reduced : ∀ op l r s, e = .binary op l r s → l.isLiteral || r.isLiteral →
      survivingOperand? op l r = .ok none)
    (folded : e.isFoldable → foldedValue? e = .ok none) : e.IsSettled table := by
  cases e with
  | unary => exact ⟨inferred, folded⟩
  | binary op l r s => exact ⟨inferred, reduced op l r s rfl, folded⟩
  | read => exact inlined
  | literal | call | typeRef => trivial

namespace Pass

/-- The operand that remains by a law is settled if both were. -/
theorem settled_survivingOperand {op : BinaryOp} (left : l.Everywhere (IsSettled table))
    (right : r.Everywhere (IsSettled table)) (survives : survivingOperand? op l r = .ok (some y)) :
    y.Everywhere (IsSettled table) := by
  obtain ⟨first, second, side, firstVisited, secondVisited, -, rfl⟩ :=
    survivingOperand?_eq_some survives
  obtain ⟨promotedLeft, promotedRight⟩ := everywhere_promotedOperands isSettled_withCasts left right
  cases side with
  | left => exact settled_visit firstVisited promotedLeft
  | right => exact settled_visit secondVisited promotedRight

/-- What the default passes make of a node, one after another. -/
theorem leave_standard :
    (chain (standardPipeline table)).leave e = .ok e' ↔
      ∃ a, inferTypes.step e = .ok a ∧ ∃ b, (inlineReads table true).step a = .ok b ∧
        ∃ c, cancelDouble.step b = .ok c ∧ ∃ d, reduceIdentities.step c = .ok d ∧
          evaluateLiterals.step d = .ok e' := by
  have passes : standardPipeline table =
      [inferTypes, inlineReads table true, cancelDouble, reduceIdentities, evaluateLiterals] := rfl
  rw [chain_leave, passes]
  simp only [List.foldlM_cons, List.foldlM_nil, bind_pure, bind_eq_ok]
  rfl

/-- A node that is left with settled operands becomes settled. -/
theorem leave_settles (below : e.Below (IsSettled table))
    (left : (chain (standardPipeline table)).leave e = .ok e') :
    e'.Everywhere (IsSettled table) := by
  obtain ⟨a, inferred, b, inlined, c, cancelled, d, reduced, evaluated⟩ := leave_standard.mp left
  -- What is settled before the laws are tried stays as it is.
  have stays {x : Expr} (settled : x.Everywhere (IsSettled table))
      (reduced : reduceIdentities.step x = .ok d) : e'.Everywhere (IsSettled table) := by
    obtain ⟨-, -, same, again⟩ := step_settled settled.here
    cases reduced.symm.trans same
    cases evaluated.symm.trans again
    exact settled
  have known : a.IsInferred ∧ a.Below (IsSettled table) := by
    rcases inferTypes_ok inferred with ⟨rfl, known⟩ | ⟨-, operator, rfl⟩
    · exact ⟨known, below⟩
    · refine ⟨isInferred_withTy operator, ?_⟩
      cases e <;> exact below
  rcases inlineReads_ok inlined with ⟨rfl, missing⟩ | ⟨id, name, s, decl, constant, -, -, found, rfl⟩
  · rcases cancelDouble_ok cancelled with ⟨rfl, -⟩ | ⟨op, x, t, s, -, -, rfl, rfl⟩
    · rcases reduceIdentities_ok reduced with ⟨rfl, laws⟩ | ⟨op, l, r, s, y, rfl, survives, rfl⟩
      · rcases evaluateLiterals_ok evaluated with ⟨rfl, folded⟩ | ⟨-, w, t, -, rfl⟩
        · exact everywhere_iff.mpr ⟨.intro known.1 missing laws folded, known.2⟩
        · obtain ⟨w, s, literal, -⟩ := castLiteral_eq w (some t) _
          rw [literal]
          exact .literal trivial
      · have settled : ((y.addCasts s.casts).applyCasts).Everywhere (IsSettled table) :=
          settled_applyCasts (settled_withCasts _
            (settled_survivingOperand known.2.1 known.2.2 survives))
        obtain ⟨-, -, -, again⟩ := step_settled settled.here
        cases evaluated.symm.trans again
        exact settled
    · obtain ⟨-, operand⟩ := everywhere_iff.mp known.2
      exact stays (settled_withCasts _ (everywhere_promotedOperand isSettled_withCasts operand))
        reduced
  · obtain ⟨v, t, rfl, -⟩ := Declaration.constant?_eq_some found
    cases cancelled
    exact stays (.literal trivial) reduced

theorem enter_standard (table : DeclTable) (e : Expr) :
    (chain (standardPipeline table)).enter e = e := by
  have passes : standardPipeline table =
      [inferTypes, inlineReads table true, cancelDouble, reduceIdentities, evaluateLiterals] := rfl
  rw [chain_enter, passes]
  simp only [List.foldl_cons, List.foldl_nil]
  iterate 5 rw [enter_default rfl rfl]

theorem standard_enterUnary (op : UnaryOp) :
    x.withCasts ((chain (standardPipeline table)).enterUnary op x) = x := by
  have entered := enter_standard table (.unary op x {})
  rw [enter, Expr.unary.injEq] at entered
  exact entered.2.1

theorem standard_enterBinary (op : BinaryOp) :
    l.withCasts ((chain (standardPipeline table)).enterBinary op l r).1 = l ∧
      r.withCasts ((chain (standardPipeline table)).enterBinary op l r).2 = r := by
  have entered := enter_standard table (.binary op l r {})
  rw [enter, Expr.binary.injEq] at entered
  exact ⟨entered.2.1, entered.2.2.1⟩

end Pass

/-- One run settles an expression. -/
theorem fold_settles (folded : fold table e = .ok e') : e'.Everywhere (IsSettled table) := by
  have relates : (chain (standardPipeline table)).Relates fun _ e' =>
      e'.Everywhere (IsSettled table) :=
    { leaf := by
        intro e e' isLeaf left
        refine leave_settles ?_ left
        cases e <;> trivial
      unary := fun op x y s e' operand left => leave_settles (e := .unary op y s) operand left
      binary := fun op l r left right s e' leftSettled rightSettled done =>
        leave_settles (e := .binary op left right s) ⟨leftSettled, rightSettled⟩ done
      call := by
        intro name args visited s e' each left
        refine leave_settles (e := .call name visited s) ?_ left
        exact forall_of_forall₂ (P := fun _ => True) each (fun _ _ settled _ => settled)
          fun _ _ => trivial }
  exact relates.visit folded

namespace Pass

theorem cancelDouble_single (single : e.isDouble = false) : cancelDouble.step e = .ok e := by
  simp only [cancelDouble]
  split
  · rename_i op inner x t s
    rw [isDouble] at single
    rw [single]
    rfl
  · rfl

theorem leave_settled (settled : e.IsSettled table) (single : e.isDouble = false) :
    (chain (standardPipeline table)).leave e = .ok e := by
  obtain ⟨inferred, inlined, reduced, evaluated⟩ := step_settled settled
  exact leave_standard.mpr
    ⟨e, inferred, e, inlined, e, cancelDouble_single single, e, reduced, evaluated⟩

end Pass

/-- A settled expression without double operators stays as it is. -/
theorem fold_settled (settled : e.Everywhere (IsSettled table))
    (single : e.Everywhere fun x => x.isDouble = false) : fold table e = .ok e := by
  rw [fold]
  induction settled with
  | literal node | read node | typeRef node =>
    exact (visit_leaf _ rfl).trans (leave_settled node single.here)
  | unary node _ ih =>
    rw [visit_unary, standard_enterUnary, ih (everywhere_iff.mp single).2]
    exact leave_settled node single.here
  | binary node _ _ leftIh rightIh =>
    obtain ⟨left, right⟩ := (everywhere_iff.mp single).2
    rw [visit_binary, (standard_enterBinary _).1, (standard_enterBinary _).2, leftIh left,
      rightIh right]
    exact leave_settled node single.here
  | call node _ ih =>
    have args := (everywhere_iff.mp single).2
    rw [visit_call, visitAll_eq_ok.mpr (List.forall₂_same.mpr fun x member =>
      ih x member (args x member))]
    exact leave_settled node single.here

namespace Pass

theorem size_inferTypes (inferred : inferTypes.step e = .ok e') : e'.size = e.size := by
  rcases inferTypes_ok inferred with ⟨rfl, -⟩ | ⟨-, -, rfl⟩
  · rfl
  · exact size_withStatic _

theorem size_inlineReads (inlined : (inlineReads table true).step e = .ok e') :
    e'.size ≤ e.size := by
  rcases inlineReads_ok inlined with ⟨rfl, -⟩ | ⟨id, name, s, decl, constant, -, -, found, rfl⟩
  · exact Nat.le_refl _
  · obtain ⟨v, t, rfl, -⟩ := Declaration.constant?_eq_some found
    rw [addCasts, size_withCasts, size]
    exact size_pos

theorem size_cancelDouble (cancelled : cancelDouble.step e = .ok e') :
    e'.size ≤ e.size ∧ (e.isDouble → e'.size < e.size) := by
  rcases cancelDouble_ok cancelled with ⟨rfl, single⟩ | ⟨op, x, t, s, -, -, rfl, rfl⟩
  · refine ⟨Nat.le_refl _, fun double => ?_⟩
    rw [single] at double
    cases double
  · rw [addCasts, size_withCasts, size_promotedOperand, size, size]
    omega

theorem size_reduceIdentities (reduced : reduceIdentities.step e = .ok e') : e'.size ≤ e.size := by
  rcases reduceIdentities_ok reduced with ⟨rfl, -⟩ | ⟨op, l, r, s, y, rfl, survives, rfl⟩
  · exact Nat.le_refl _
  · rw [size_applyCasts, addCasts, size_withCasts]
    exact Nat.le_of_lt (size_survivingOperand survives)

theorem size_evaluateLiterals (evaluated : evaluateLiterals.step e = .ok e') :
    e'.size ≤ e.size := by
  rcases evaluateLiterals_ok evaluated with ⟨rfl, -⟩ | ⟨-, w, t, -, rfl⟩
  · exact Nat.le_refl _
  · rw [size_castLiteral]
    exact size_pos

/-- No pass makes a node larger, and one that is settled and double becomes smaller. -/
theorem size_leave (left : (chain (standardPipeline table)).leave e = .ok e') :
    e'.size ≤ e.size ∧ (e.IsSettled table → e.isDouble → e'.size < e.size) := by
  obtain ⟨a, inferred, b, inlined, c, cancelled, d, reduced, evaluated⟩ := leave_standard.mp left
  have first := size_inferTypes inferred
  have second := size_inlineReads inlined
  have third := size_cancelDouble cancelled
  have fourth := size_reduceIdentities reduced
  have fifth := size_evaluateLiterals evaluated
  constructor
  · omega
  · intro settled double
    obtain ⟨sameType, sameRead, -, -⟩ := step_settled settled
    cases inferred.symm.trans sameType
    cases inlined.symm.trans sameRead
    have smaller := third.2 double
    omega

end Pass

/-- The expression has no double operator in it and stays, or becomes smaller. -/
def Expr.Shrinks (e e' : Expr) : Prop :=
  (e' = e ∧ e.Everywhere fun x => x.isDouble = false) ∨ e'.size < e.size

/-- A settled node whose operands have not changed stays, unless it is double. -/
theorem Pass.leave_shrinks (settled : e.IsSettled table)
    (below : e.Below fun x => x.isDouble = false)
    (left : (chain (standardPipeline table)).leave e = .ok e') : e.Shrinks e' := by
  cases double : e.isDouble with
  | true => exact .inr ((size_leave left).2 settled double)
  | false =>
    cases left.symm.trans (leave_settled settled double)
    exact .inl ⟨rfl, everywhere_iff.mpr ⟨double, below⟩⟩

theorem Expr.shrinks_all {args visited : List Expr}
    (each : List.Forall₂ (fun x y => x.Everywhere (IsSettled table) → x.Shrinks y) args visited)
    (settled : ∀ x ∈ args, x.Everywhere (IsSettled table)) :
    (visited = args ∧ ∀ x ∈ args, x.Everywhere fun y => y.isDouble = false) ∨
      sizeAll visited < sizeAll args := by
  induction each with
  | nil => exact .inl ⟨rfl, nofun⟩
  | cons first _ ih =>
    rw [List.forall_mem_cons] at settled
    rcases first settled.1 with ⟨rfl, single⟩ | smaller
    · rcases ih settled.2 with ⟨rfl, singles⟩ | smaller
      · exact .inl ⟨rfl, List.forall_mem_cons.mpr ⟨single, singles⟩⟩
      · right
        rw [sizeAll, sizeAll]
        omega
    · right
      rw [sizeAll, sizeAll]
      rcases ih settled.2 with ⟨rfl, -⟩ | others <;> omega

/-- A run over a settled expression changes nothing, or makes it smaller. -/
theorem fold_shrinks (settled : e.Everywhere (IsSettled table)) (folded : fold table e = .ok e') :
    e.Shrinks e' := by
  have relates : (chain (standardPipeline table)).Relates fun e e' =>
      e.Everywhere (IsSettled table) → e.Shrinks e' :=
    { leaf := by
        intro e e' isLeaf left settled
        refine leave_shrinks settled.here ?_ left
        cases e <;> trivial
      unary := by
        intro op x y s e' operand left settled
        rw [standard_enterUnary] at operand
        obtain ⟨node, inside⟩ := everywhere_iff.mp settled
        rcases operand inside with ⟨rfl, single⟩ | smaller
        · exact leave_shrinks node single left
        · have shrunk := (size_leave left).1
          right
          rw [size] at shrunk ⊢
          omega
      binary := by
        intro op l r first second s e' leftVisited rightVisited done settled
        rw [(standard_enterBinary op).1] at leftVisited
        rw [(standard_enterBinary op).2] at rightVisited
        obtain ⟨node, leftInside, rightInside⟩ := everywhere_iff.mp settled
        have shrunk := (size_leave done).1
        rw [size] at shrunk
        rcases leftVisited leftInside with ⟨rfl, leftSingle⟩ | smaller
        · rcases rightVisited rightInside with ⟨rfl, rightSingle⟩ | smaller
          · exact leave_shrinks node ⟨leftSingle, rightSingle⟩ done
          · right
            rw [size]
            omega
        · right
          rw [size]
          rcases rightVisited rightInside with ⟨rfl, -⟩ | others <;> omega
      call := by
        intro name args visited s e' each left settled
        obtain ⟨node, inside⟩ := everywhere_iff.mp settled
        rcases shrinks_all each inside with ⟨rfl, singles⟩ | smaller
        · exact leave_shrinks node singles left
        · have shrunk := (size_leave left).1
          right
          rw [size] at shrunk ⊢
          omega }
  exact relates.visit folded settled

namespace Expr

mutual

/-- The same nodes with the same types and casts, and the same constants. -/
def same : Expr → Expr → Bool
  | literal v s, literal w t => v.same w && s = t
  | unary p x s, unary q y t => p = q && x.same y && s = t
  | binary p l r s, binary q m n t => p = q && l.same m && r.same n && s = t
  | read i n s, read j m t => i = j && n = m && s = t
  | call n xs s, call m ys t => n = m && sameAll xs ys && s = t
  | typeRef a s, typeRef b t => a = b && s = t
  | _, _ => false

def sameAll : List Expr → List Expr → Bool
  | [], [] => true
  | x :: xs, y :: ys => x.same y && sameAll xs ys
  | _, _ => false

end

end Expr

mutual

theorem Expr.same_refl : ∀ e : Expr, e.same e
  | .literal v s => by simp [Expr.same, Value.same_refl v]
  | .unary op x s => by simp [Expr.same, Expr.same_refl x]
  | .binary op l r s => by simp [Expr.same, Expr.same_refl l, Expr.same_refl r]
  | .read id name s => by simp [Expr.same]
  | .call name args s => by simp [Expr.same, Expr.sameAll_refl args]
  | .typeRef t s => by simp [Expr.same]

theorem Expr.sameAll_refl : ∀ args : List Expr, Expr.sameAll args args
  | [] => rfl
  | e :: rest => by simp [Expr.sameAll, Expr.same_refl e, Expr.sameAll_refl rest]

end

mutual

theorem Expr.size_of_same : ∀ e e' : Expr, e.same e' → e.size = e'.size
  | .literal _ _, .literal _ _, _ | .read _ _ _, .read _ _ _, _
  | .typeRef _ _, .typeRef _ _, _ => by simp only [size]
  | .unary _ x _, .unary _ y _, alike => by
    simp only [Expr.same, Bool.and_eq_true] at alike
    rw [size, size, Expr.size_of_same x y alike.1.2]
  | .binary _ l r _, .binary _ m n _, alike => by
    simp only [Expr.same, Bool.and_eq_true] at alike
    rw [size, size, Expr.size_of_same l m alike.1.1.2, Expr.size_of_same r n alike.1.2]
  | .call _ xs _, .call _ ys _, alike => by
    simp only [Expr.same, Bool.and_eq_true] at alike
    rw [size, size, Expr.sizeAll_of_same xs ys alike.1.2]

theorem Expr.sizeAll_of_same : ∀ xs ys : List Expr, Expr.sameAll xs ys → sizeAll xs = sizeAll ys
  | [], [], _ => rfl
  | x :: xs, y :: ys, alike => by
    rw [Expr.sameAll, Bool.and_eq_true] at alike
    rw [sizeAll, sizeAll, Expr.size_of_same x y alike.1, Expr.sizeAll_of_same xs ys alike.2]

end

/-- A second run changes nothing exactly if the first one leaves no double operator behind. -/
theorem fold_idempotent_iff (table : DeclTable) {e e₁ : Expr} (folded : fold table e = .ok e₁) :
    (∃ e₂, fold table e₁ = .ok e₂ ∧ e₂.same e₁) ↔ e₁.Everywhere fun x => x.isDouble = false := by
  have settled := fold_settles folded
  constructor
  · rintro ⟨e₂, again, alike⟩
    rcases fold_shrinks settled again with ⟨-, single⟩ | smaller
    · exact single
    · have size := Expr.size_of_same e₂ e₁ alike
      omega
  · intro single
    exact ⟨e₁, fold_settled settled single, e₁.same_refl⟩

namespace DoubleSample

/-- A parameter of type `int`. -/
def declarations : DeclTable := ⟨[{ name := .ofIndex 0, ty := .int, kind := .parameter }]⟩

def parameter : Expr := .read ⟨0⟩ (.ofIndex 0) ⟨some .int, []⟩

/-- The expression `-(-x)`, where `x` is the parameter and the inner negation has casts. -/
def negations (casts : List Cast) : Expr :=
  .unary .neg (.unary .neg parameter ⟨some .int, casts⟩) ⟨some .int, []⟩

/-- The expression `-(Integer) -x * 1`. -/
def product : Expr :=
  .binary .mul (negations [Cast.toExplicit (.boxed .int)]) (.literal (.int 1) ⟨some .int, []⟩)
    ⟨some .int, []⟩

theorem fold_product : fold declarations product = .ok (negations []) := rfl

end DoubleSample

/-- The law for `1` takes the cast from between two negations, and only the second run cancels
them. -/
theorem fold_not_idempotent :
    fold DoubleSample.declarations DoubleSample.product = .ok (DoubleSample.negations []) ∧
      fold DoubleSample.declarations (DoubleSample.negations []) = .ok DoubleSample.parameter ∧
        DoubleSample.parameter.same (DoubleSample.negations []) = false :=
  ⟨rfl, rfl, rfl⟩

theorem fold_idempotent_iff_negations :
    (∃ e₂, fold DoubleSample.declarations
        (DoubleSample.negations [Cast.toExplicit (.boxed .int)]) = .ok e₂ ∧
      e₂.same (DoubleSample.negations [Cast.toExplicit (.boxed .int)])) ∧
    ¬∃ e₂, fold DoubleSample.declarations (DoubleSample.negations []) = .ok e₂ ∧
      e₂.same (DoubleSample.negations []) := by
  constructor
  · have folded : fold DoubleSample.declarations
        (DoubleSample.negations [Cast.toExplicit (.boxed .int)]) =
          .ok (DoubleSample.negations [Cast.toExplicit (.boxed .int)]) := rfl
    apply (fold_idempotent_iff DoubleSample.declarations folded).mpr
    exact .unary rfl (.unary rfl (.read rfl))
  · rw [fold_idempotent_iff DoubleSample.declarations DoubleSample.fold_product]
    intro single
    cases single.here

end ConstFold
