import ConstFold.Pass
import Mathlib.Data.List.Forall2

/-! The traversal seen node by node: how a visit unfolds at each kind of node, how a chain
enters and leaves, and the induction that statements about a visit go through. -/
namespace ConstFold

namespace Expr

variable (e : Expr)

@[simp] theorem ty_withCasts (casts : List Cast) : (e.withCasts casts).ty = e.ty := by
  cases e <;> rfl

@[simp] theorem casts_withCasts (casts : List Cast) : (e.withCasts casts).casts = casts := by
  cases e <;> rfl

@[simp] theorem withCasts_withCasts (casts further : List Cast) :
    (e.withCasts casts).withCasts further = e.withCasts further := by
  cases e <;> rfl

@[simp] theorem withCasts_casts : e.withCasts e.casts = e := by
  cases e <;> rfl

/-- Induction over the operands of an expression. -/
@[induction_eliminator]
theorem operandInduction {P : Expr → Prop} (literal : ∀ v s, P (.literal v s))
    (unary : ∀ op x s, P x → P (.unary op x s))
    (binary : ∀ op l r s, P l → P r → P (.binary op l r s))
    (read : ∀ id name s, P (.read id name s))
    (call : ∀ name args s, (∀ x ∈ args, P x) → P (.call name args s))
    (typeRef : ∀ t s, P (.typeRef t s)) (e : Expr) : P e :=
  @Expr.rec P (fun args => ∀ x ∈ args, P x) literal unary binary read call typeRef
    (List.forall_mem_nil P) (fun _ _ first others => List.forall_mem_cons.mpr ⟨first, others⟩) e

/-- A relation that holds of a node and a copy of it with related operands. -/
structure Congruence (R : Expr → Expr → Prop) : Prop where
  refl : ∀ e, R e e
  trans : ∀ {e e' e''}, R e e' → R e' e'' → R e e''
  unary : ∀ {op x y s}, R x y → R (.unary op x s) (.unary op y s)
  binary : ∀ {op l l' r r' s}, R l l' → R r r' → R (.binary op l r s) (.binary op l' r' s)
  call : ∀ {name args args' s}, List.Forall₂ R args args' →
    R (.call name args s) (.call name args' s)

/-- The node has no operands. -/
def isLeaf : Expr → Bool
  | literal _ _ | read _ _ _ | typeRef _ _ => true
  | unary _ _ _ | binary _ _ _ _ | call _ _ _ => false

/-- A property of an expression and of all operands in it. -/
inductive Everywhere (P : Expr → Prop) : Expr → Prop where
  | literal {v s} : P (.literal v s) → Everywhere P (.literal v s)
  | unary {op x s} : P (.unary op x s) → Everywhere P x → Everywhere P (.unary op x s)
  | binary {op l r s} : P (.binary op l r s) → Everywhere P l → Everywhere P r →
    Everywhere P (.binary op l r s)
  | read {id name s} : P (.read id name s) → Everywhere P (.read id name s)
  | call {name args s} : P (.call name args s) → (∀ x ∈ args, Everywhere P x) →
    Everywhere P (.call name args s)
  | typeRef {t s} : P (.typeRef t s) → Everywhere P (.typeRef t s)

namespace Everywhere

variable {P : Expr → Prop} {e : Expr}

theorem here (everywhere : Everywhere P e) : P e := by
  cases everywhere <;> assumption

theorem mono {Q : Expr → Prop} (weaker : ∀ e, P e → Q e) (everywhere : Everywhere P e) :
    Everywhere Q e := by
  induction everywhere with
  | literal node => exact .literal (weaker _ node)
  | unary node _ operand => exact .unary (weaker _ node) operand
  | binary node _ _ left right => exact .binary (weaker _ node) left right
  | read node => exact .read (weaker _ node)
  | call node _ args => exact .call (weaker _ node) args
  | typeRef node => exact .typeRef (weaker _ node)

/-- Casts around the whole do not matter to a property that does not look at them. -/
theorem withCasts (casts : List Cast) (blind : P e → P (e.withCasts casts))
    (everywhere : Everywhere P e) : Everywhere P (e.withCasts casts) := by
  have node := blind everywhere.here
  cases everywhere with
  | literal _ => exact .literal node
  | unary _ operand => exact .unary node operand
  | binary _ left right => exact .binary node left right
  | read _ => exact .read node
  | call _ args => exact .call node args
  | typeRef _ => exact .typeRef node

end Everywhere

/-- A property of all operands in an expression, but not of the whole. -/
def Below (P : Expr → Prop) : Expr → Prop
  | unary _ x _ => x.Everywhere P
  | binary _ l r _ => l.Everywhere P ∧ r.Everywhere P
  | call _ args _ => ∀ x ∈ args, x.Everywhere P
  | literal _ _ | read _ _ _ | typeRef _ _ => True

theorem everywhere_iff {P : Expr → Prop} {e : Expr} : e.Everywhere P ↔ P e ∧ e.Below P := by
  constructor
  · intro everywhere
    refine ⟨everywhere.here, ?_⟩
    cases everywhere with
    | unary _ operand => exact operand
    | binary _ left right => exact ⟨left, right⟩
    | call _ args => exact args
    | literal | read | typeRef => trivial
  · rintro ⟨node, below⟩
    cases e with
    | literal => exact .literal node
    | unary => exact .unary node below
    | binary => exact .binary node below.1 below.2
    | read => exact .read node
    | call => exact .call node below
    | typeRef => exact .typeRef node

end Expr

/-- What is known of the elements of a list is known of the elements that replace them. -/
theorem forall_of_forall₂ {α β : Type} {R : α → β → Prop} {P : α → Prop} {Q : β → Prop}
    {as : List α} {bs : List β} (related : List.Forall₂ R as bs) (keeps : ∀ a b, R a b → P a → Q b)
    (each : ∀ a ∈ as, P a) : ∀ b ∈ bs, Q b := by
  induction related with
  | nil => exact nofun
  | cons first _ ih =>
    rw [List.forall_mem_cons] at each ⊢
    exact ⟨keeps _ _ first each.1, ih each.2⟩

theorem bind_eq_ok {ε α β : Type} {x : Except ε α} {f : α → Except ε β} {b : β} :
    (x >>= f) = .ok b ↔ ∃ a, x = .ok a ∧ f a = .ok b := by
  cases x <;> simp [bind, Except.bind]

namespace Pass

variable (pass : Pass)

theorem visit_leaf {e : Expr} (leaf : e.isLeaf) : pass.visit e = pass.leave e := by
  cases e <;> first | contradiction | simp only [visit, visitAs, Expr.casts, Expr.static]

/-- Visiting a node as if casts surrounded it is visiting it with these casts. -/
theorem visitAs_eq_visit (casts : List Cast) (e : Expr) :
    pass.visitAs casts e = pass.visit (e.withCasts casts) := by
  cases e <;> simp only [visit, Expr.casts_withCasts] <;> rfl

theorem visit_unary (op : UnaryOp) (x : Expr) (s : Static) :
    pass.visit (.unary op x s) =
      (pass.visit (x.withCasts (pass.enterUnary op x)) >>= fun y => pass.leave (.unary op y s)) := by
  rw [← visitAs_eq_visit, visit, visitAs]
  rfl

theorem visit_binary (op : BinaryOp) (l r : Expr) (s : Static) :
    pass.visit (.binary op l r s) =
      (pass.visit (l.withCasts (pass.enterBinary op l r).1) >>= fun left =>
        pass.visit (r.withCasts (pass.enterBinary op l r).2) >>= fun right =>
          pass.leave (.binary op left right s)) := by
  rw [← visitAs_eq_visit, ← visitAs_eq_visit, visit, visitAs]
  rfl

theorem visit_call (name : Name) (args : List Expr) (s : Static) :
    pass.visit (.call name args s) =
      (pass.visitAll args >>= fun visited => pass.leave (.call name visited s)) := by
  rw [visit, visitAs]
  rfl

theorem visitAll_cons (e : Expr) (rest : List Expr) :
    pass.visitAll (e :: rest) =
      (pass.visit e >>= fun visited => pass.visitAll rest >>= fun others =>
        pure (visited :: others)) := by
  rw [visitAll]
  rfl

variable {pass}

/-- Arguments are visited one by one. -/
theorem visitAll_eq_ok {args visited : List Expr} :
    pass.visitAll args = .ok visited ↔
      List.Forall₂ (fun x y => pass.visit x = .ok y) args visited := by
  induction args generalizing visited with
  | nil =>
    rw [visitAll, List.forall₂_nil_left_iff]
    constructor
    · rintro ⟨⟩
      rfl
    · rintro rfl
      rfl
  | cons e rest ih =>
    simp only [visitAll_cons, bind_eq_ok, List.forall₂_cons_left_iff]
    constructor
    · rintro ⟨y, first, others, remaining, same⟩
      cases same
      exact ⟨y, others, first, ih.mp remaining, rfl⟩
    · rintro ⟨y, others, first, remaining, rfl⟩
      exact ⟨y, first, others, ih.mpr remaining, rfl⟩

/-- The relation between a node and what a visit makes of it holds of a leaf that is left, and of
a node that is left with operands for which it holds. -/
structure Relates (pass : Pass) (R : Expr → Expr → Prop) : Prop where
  leaf : ∀ e e', e.isLeaf → pass.leave e = .ok e' → R e e'
  unary : ∀ op x y s e', R (x.withCasts (pass.enterUnary op x)) y →
    pass.leave (.unary op y s) = .ok e' → R (.unary op x s) e'
  binary : ∀ op l r left right s e', R (l.withCasts (pass.enterBinary op l r).1) left →
    R (r.withCasts (pass.enterBinary op l r).2) right →
    pass.leave (.binary op left right s) = .ok e' → R (.binary op l r s) e'
  call : ∀ name args visited s e', List.Forall₂ R args visited →
    pass.leave (.call name visited s) = .ok e' → R (.call name args s) e'

section Induction

variable {R : Expr → Expr → Prop}

-- The recursion is on the node before its casts are exchanged, so the casts are arbitrary.
mutual

theorem Relates.visitAs (relates : pass.Relates R) : ∀ (e : Expr) (casts : List Cast) (e' : Expr),
    pass.visitAs casts e = .ok e' → R (e.withCasts casts) e'
  | .literal v s, casts, e', visited => relates.leaf _ _ rfl (by rwa [Pass.visitAs] at visited)
  | .read id name s, casts, e', visited => relates.leaf _ _ rfl (by rwa [Pass.visitAs] at visited)
  | .typeRef t s, casts, e', visited => relates.leaf _ _ rfl (by rwa [Pass.visitAs] at visited)
  | .unary op x s, casts, e', visited => by
    rw [Pass.visitAs, bind_eq_ok] at visited
    obtain ⟨y, operand, left⟩ := visited
    exact relates.unary op x y _ e' (relates.visitAs x _ y operand) left
  | .binary op l r s, casts, e', visited => by
    simp only [Pass.visitAs, bind_eq_ok] at visited
    obtain ⟨left, hl, right, hr, done⟩ := visited
    exact relates.binary op l r left right _ e' (relates.visitAs l _ left hl)
      (relates.visitAs r _ right hr) done
  | .call name args s, casts, e', visited => by
    rw [Pass.visitAs, bind_eq_ok] at visited
    obtain ⟨others, operands, left⟩ := visited
    exact relates.call name args others _ e' (relates.visitAll args others operands) left

theorem Relates.visitAll (relates : pass.Relates R) : ∀ args visited : List Expr,
    pass.visitAll args = .ok visited → List.Forall₂ R args visited
  | [], visited, done => by
    rw [Pass.visitAll] at done
    cases done
    exact .nil
  | e :: rest, visited, done => by
    simp only [Pass.visitAll, bind_eq_ok] at done
    obtain ⟨e', first, others, remaining, same⟩ := done
    cases same
    refine .cons ?_ (relates.visitAll rest others remaining)
    have first := relates.visitAs e e.casts e' first
    rwa [Expr.withCasts_casts] at first

end

theorem Relates.visit (relates : pass.Relates R) {e e' : Expr} (visited : pass.visit e = .ok e') :
    R e e' := by
  have related := relates.visitAs e e.casts e' visited
  rwa [Expr.withCasts_casts] at related

end Induction

mutual

/-- A pass that fails at no node fails nowhere. -/
theorem visitAs_total (total : ∀ e, ∃ e', pass.leave e = .ok e') :
    ∀ (e : Expr) (casts : List Cast), ∃ e', pass.visitAs casts e = .ok e'
  | .literal .., _ | .read .., _ | .typeRef .., _ => by
    rw [visitAs]
    exact total _
  | .unary op x s, casts => by
    obtain ⟨y, operand⟩ := visitAs_total total x (pass.enterUnary op x)
    obtain ⟨e', left⟩ := total (.unary op y ⟨s.ty, casts⟩)
    refine ⟨e', ?_⟩
    rw [visitAs, bind_eq_ok]
    exact ⟨y, operand, left⟩
  | .binary op l r s, casts => by
    obtain ⟨left, leftVisited⟩ := visitAs_total total l (pass.enterBinary op l r).1
    obtain ⟨right, rightVisited⟩ := visitAs_total total r (pass.enterBinary op l r).2
    obtain ⟨e', done⟩ := total (.binary op left right ⟨s.ty, casts⟩)
    refine ⟨e', ?_⟩
    simp only [visitAs, bind_eq_ok]
    exact ⟨left, leftVisited, right, rightVisited, done⟩
  | .call name args s, casts => by
    obtain ⟨others, visited⟩ := visitAll_total total args
    obtain ⟨e', left⟩ := total (.call name others ⟨s.ty, casts⟩)
    refine ⟨e', ?_⟩
    rw [visitAs, bind_eq_ok]
    exact ⟨others, visited, left⟩

theorem visitAll_total (total : ∀ e, ∃ e', pass.leave e = .ok e') :
    ∀ args : List Expr, ∃ visited, pass.visitAll args = .ok visited
  | [] => ⟨[], by rw [visitAll]; rfl⟩
  | e :: rest => by
    obtain ⟨e', first⟩ := visitAs_total total e e.casts
    obtain ⟨others, remaining⟩ := visitAll_total total rest
    refine ⟨e' :: others, ?_⟩
    rw [visitAll, bind_eq_ok]
    refine ⟨e', first, ?_⟩
    rw [bind_eq_ok]
    exact ⟨others, remaining, rfl⟩

end

theorem visit_total (total : ∀ e, ∃ e', pass.leave e = .ok e') (e : Expr) :
    ∃ e', pass.visit e = .ok e' :=
  visitAs_total total e e.casts

section Chain

variable (passes : List Pass)

/-- A chain enters a node with one pass after another. -/
theorem chain_enter (e : Expr) : (chain passes).enter e = passes.foldl (fun e p => p.enter e) e := by
  cases e with
  | unary op x s =>
    suffices ∀ casts, Expr.unary op (x.withCasts
        (passes.foldl (fun casts p => p.enterUnary op (x.withCasts casts)) casts)) s =
        passes.foldl (fun e p => p.enter e) (.unary op (x.withCasts casts) s) by
      simpa only [enter, chain, Expr.withCasts_casts] using this x.casts
    induction passes with
    | nil => intro casts; rfl
    | cons p rest ih =>
      intro casts
      rw [List.foldl_cons, List.foldl_cons, ih, enter, Expr.withCasts_withCasts]
  | binary op l r s =>
    suffices ∀ casts, (fun entered => Expr.binary op (l.withCasts entered.1) (r.withCasts entered.2) s)
        (passes.foldl (fun casts p =>
          p.enterBinary op (l.withCasts casts.1) (r.withCasts casts.2)) casts) =
        passes.foldl (fun e p => p.enter e)
          (.binary op (l.withCasts casts.1) (r.withCasts casts.2) s) by
      simpa only [enter, chain, Expr.withCasts_casts] using this (l.casts, r.casts)
    induction passes with
    | nil => intro casts; rfl
    | cons p rest ih =>
      intro casts
      rw [List.foldl_cons, List.foldl_cons, ih, enter, Expr.withCasts_withCasts,
        Expr.withCasts_withCasts]
  | literal | read | call | typeRef =>
    induction passes with
    | nil => rfl
    | cons p rest ih => exact ih

theorem chain_leave (e : Expr) :
    (chain passes).leave e = passes.foldlM (fun e p => p.leave e) e := rfl

end Chain

/-- What the pass makes of a single node, on entering and on leaving it, is related to the
node. -/
structure Within (pass : Pass) (R : Expr → Expr → Prop) : Prop where
  enter : ∀ e, R e (pass.enter e)
  leave : ∀ e e', pass.leave e = .ok e' → R e e'

/-- A pass that keeps the casts of operands enters nothing. -/
theorem enter_default {pass : Pass} (enterUnary : pass.enterUnary = fun _ x => x.casts)
    (enterBinary : pass.enterBinary = fun _ l r => (l.casts, r.casts)) (e : Expr) :
    pass.enter e = e := by
  cases e <;> simp [enter, enterUnary, enterBinary]

namespace Within

variable {R : Expr → Expr → Prop}

/-- A pass that enters nothing is judged by how it leaves nodes. -/
theorem ofLeave {pass : Pass} (refl : ∀ e, R e e)
    (enterUnary : pass.enterUnary = fun _ x => x.casts)
    (enterBinary : pass.enterBinary = fun _ l r => (l.casts, r.casts))
    (leave : ∀ e e', pass.leave e = .ok e' → R e e') : pass.Within R := by
  refine ⟨fun e => ?_, leave⟩
  rw [enter_default enterUnary enterBinary]
  exact refl e

theorem enter_chain (congruence : Expr.Congruence R) {passes : List Pass}
    (each : ∀ pass ∈ passes, ∀ e, R e (pass.enter e)) (e : Expr) :
    R e ((Pass.chain passes).enter e) := by
  rw [chain_enter]
  induction passes generalizing e with
  | nil => exact congruence.refl e
  | cons pass rest ih =>
    rw [List.foldl_cons]
    exact congruence.trans (each pass (by simp) e)
      (ih (fun other member => each other (by simp [member])) (pass.enter e))

theorem chain (congruence : Expr.Congruence R) {passes : List Pass}
    (each : ∀ pass ∈ passes, pass.Within R) : (Pass.chain passes).Within R := by
  constructor
  · exact enter_chain congruence fun pass member => (each pass member).enter
  · intro e e' done
    rw [chain_leave] at done
    induction passes generalizing e with
    | nil =>
      cases done
      exact congruence.refl _
    | cons pass rest ih =>
      rw [List.foldlM_cons, bind_eq_ok] at done
      obtain ⟨middle, first, others⟩ := done
      exact congruence.trans ((each pass (by simp)).leave e middle first)
        (ih (fun other member => each other (by simp [member])) middle others)

/-- What a visit makes of an expression is related to it, if operators keep the relation. -/
theorem visit (within : pass.Within R) (congruence : Expr.Congruence R) {e e' : Expr}
    (visited : pass.visit e = .ok e') : R e e' := by
  have relates : pass.Relates R :=
    { leaf := fun e e' _ left => within.leave e e' left
      unary := fun op x y s e' operand left =>
        congruence.trans (within.enter (.unary op x s))
          (congruence.trans (congruence.unary operand) (within.leave _ e' left))
      binary := fun op l r left right s e' leftRelated rightRelated done =>
        congruence.trans (within.enter (.binary op l r s))
          (congruence.trans (congruence.binary leftRelated rightRelated)
            (within.leave _ e' done))
      call := fun name args visited s e' each left =>
        congruence.trans (congruence.call each) (within.leave _ e' left) }
  exact relates.visit visited

end Within

end Pass

end ConstFold
