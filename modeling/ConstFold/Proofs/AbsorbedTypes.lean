import ConstFold.Proofs.Idempotence
import ConstFold.Proofs.Soundness.Absorption

/-! The type of what absorption leaves. What turns into `a || c` keeps its type. What turns into the
repeated operand has the type of that operand, unless casts of its own follow; and a pure operand can
be a `Boolean`, since boxing a truth value never throws. -/
namespace ConstFold

namespace Expr

mutual

theorem size_of_eqv : ∀ e e' : Expr, e.eqv e' → e.size = e'.size
  | literal _ _, literal _ _, _ | read _ _ _, read _ _ _, _ | typeRef _ _, typeRef _ _, _ => by
    simp only [size]
  | unary _ x _, unary _ y _, alike => by
    simp only [eqv, Bool.and_eq_true] at alike
    rw [size, size, size_of_eqv x y alike.1.2]
  | binary _ l r _, binary _ m n _, alike => by
    simp only [eqv, Bool.and_eq_true] at alike
    rw [size, size, size_of_eqv l m alike.1.1.2, size_of_eqv r n alike.1.2]
  | call _ xs _, call _ ys _, alike => by
    simp only [eqv, Bool.and_eq_true] at alike
    rw [size, size, sizeAll_of_eqv xs ys alike.1.2]

theorem sizeAll_of_eqv : ∀ xs ys : List Expr, eqvList xs ys → sizeAll xs = sizeAll ys
  | [], [], _ => rfl
  | x :: xs, y :: ys, alike => by
    rw [eqvList, Bool.and_eq_true] at alike
    rw [sizeAll, sizeAll, size_of_eqv x y alike.1, sizeAll_of_eqv xs ys alike.2]

end

/-- The dual operator in `inner` has the pure operand `outer` again. An operand beside it that the
whole evaluates, but `outer` alone does not, is pure. If `swapped`, `inner` is evaluated first. -/
def Repeats (op : BinaryOp) (outer inner : Expr) (swapped : Bool) : Prop :=
  ∃ innerOp l r ty, inner = binary innerOp l r ⟨ty, []⟩ ∧ op.IsDual innerOp ∧
    ((outer.isSamePure l ∧ (swapped = false ∨ r.isPure)) ∨
      (swapped = false ∧ outer.isSamePure r ∧ l.isPure))

variable {op : BinaryOp} {outer inner a n : Expr} {swapped : Bool} {found : Absorbed}

theorem absorb?_eq_whole :
    absorb? op outer inner swapped = some .whole ↔ Repeats op outer inner swapped := by
  constructor
  · intro absorbs
    obtain ⟨innerOp, l, r, ty, form, dual, cases⟩ := absorb?_cases absorbs
    refine ⟨innerOp, l, r, ty, form, dual, ?_⟩
    rcases cases with ⟨-, same, saved⟩ | ⟨-, first, same, saved⟩ | ⟨other, -⟩ | ⟨other, -⟩
    · exact .inl ⟨same, saved⟩
    · exact .inr ⟨first, same, saved⟩
    · cases other
    · cases other
  · rintro ⟨innerOp, l, r, ty, rfl, dual, forms⟩
    have applies : ((op = .and && innerOp = .or) || (op = .or && innerOp = .and)) = true := by
      simpa [BinaryOp.IsDual] using dual
    rw [absorb?, if_pos applies]
    rcases forms with ⟨same, saved⟩ | ⟨rfl, same, saved⟩
    · rw [if_pos (by simpa [same] using saved)]
    · split
      · rfl
      · rw [if_pos (by simp [same, saved])]

theorem Repeats.isPure (repeats : Repeats op outer inner swapped) : outer.isPure := by
  obtain ⟨_, _, _, _, _, _, ⟨alike, _⟩ | ⟨_, alike, _⟩⟩ := repeats
  · exact (Bool.and_eq_true_iff.mp alike).2
  · exact (Bool.and_eq_true_iff.mp alike).2

theorem size_of_areOpposite (opposite : a.areOpposite n) : a.size ≤ n.size + 1 := by
  simp only [areOpposite, Bool.and_eq_true, Bool.or_eq_true, Option.any_eq_true] at opposite
  obtain ⟨-, ⟨operand, negated, same⟩ | ⟨operand, negated, same⟩⟩ := opposite
  · obtain ⟨ty, rfl⟩ := negated?_eq_some negated
    rw [size, ← size_of_eqv operand a same]
    omega
  · obtain ⟨ty, rfl⟩ := negated?_eq_some negated
    have := size_of_eqv operand n same
    rw [size]
    omega

/-- The repeated operand is smaller than the operand that it is found in, so that the pass finds it on
one side at most. -/
theorem size_of_absorb? (absorbs : absorb? op outer inner swapped = some found) :
    outer.size < inner.size := by
  obtain ⟨innerOp, l, r, ty, rfl, -, cases⟩ := absorb?_cases absorbs
  have left := l.size_pos
  have right := r.size_pos
  rw [size]
  rcases cases with ⟨-, same, -⟩ | ⟨-, -, same, -⟩ | ⟨-, -, opposite⟩ | ⟨-, -, -, opposite⟩
  · have := size_of_eqv outer l (Bool.and_eq_true_iff.mp same).1
    omega
  · have := size_of_eqv outer r (Bool.and_eq_true_iff.mp same).1
    omega
  · have := size_of_areOpposite opposite
    omega
  · have := size_of_areOpposite opposite
    omega

/-- The expression is absorbed by its operand `a`. -/
def Absorbs (op : BinaryOp) (l r a : Expr) : Prop :=
  (a = l ∧ Repeats op l r false) ∨ (a = r ∧ Repeats op r l true)

namespace Absorbs

variable {l r b : Expr}

theorem isPure (absorbs : Absorbs op l r a) : a.isPure := by
  rcases absorbs with ⟨rfl, repeats⟩ | ⟨rfl, repeats⟩
  · exact repeats.isPure
  · exact repeats.isPure

theorem unique (first : Absorbs op l r a) (second : Absorbs op l r b) : a = b := by
  have oneSided (left : Repeats op l r false) : ¬Repeats op r l true := by
    intro right
    have := size_of_absorb? (absorb?_eq_whole.mpr left)
    have := size_of_absorb? (absorb?_eq_whole.mpr right)
    omega
  rcases first with ⟨rfl, left⟩ | ⟨rfl, right⟩ <;> rcases second with ⟨rfl, left'⟩ | ⟨rfl, right'⟩
  · rfl
  · exact absurd right' (oneSided left)
  · exact absurd right (oneSided left')
  · rfl

end Absorbs

/-- A pure expression is no wrapper before its casts. -/
theorem not_boxed_of_isPure (isPure : a.isPure) : a.ty.any Ty.isBoxed = false := by
  have quiet := (isPure_iff.mp isPure).2
  cases a <;> simp only [mayThrow, ownThrow, Bool.or_eq_false_iff, and_assoc] at quiet <;> exact quiet.1

/-- A pure expression is a wrapper only by its last cast. -/
theorem resultTy_of_isPure (isPure : a.isPure) (p : Primitive) :
    a.resultTy = some (.boxed p) ↔ a.casts.getLast?.map Cast.target = some (.boxed p) := by
  have unboxed := not_boxed_of_isPure isPure
  rw [resultTy, Static.resultTy, casts]
  cases a.static.casts.getLast? with
  | some cast => rfl
  | none =>
    constructor
    · intro boxed
      change a.ty = some (.boxed p) at boxed
      rw [boxed] at unboxed
      cases unboxed
    · intro boxed
      cases boxed

end Expr

open ConstFold.Expr

namespace Pass

variable {op : BinaryOp} {l r : Expr} {s : Static} {found : Absorbed}

theorem absorption_left (left : l.resultTy.any Ty.isBoolean) (right : r.resultTy.any Ty.isBoolean)
    (absorbs : absorb? op l r false = some found) :
    absorption.step (.binary op l r s) = .ok (absorbed l found s) := by
  have lazy := lazy_of_absorb? absorbs
  simp [absorption, lazy, left, right, absorbs]

theorem absorption_right (left : l.resultTy.any Ty.isBoolean) (right : r.resultTy.any Ty.isBoolean)
    (absorbs : absorb? op r l true = some found) :
    absorption.step (.binary op l r s) = .ok (absorbed r found s) := by
  have lazy := lazy_of_absorb? absorbs
  have other : absorb? op l r false = none := by
    cases absorbed : absorb? op l r false with
    | none => rfl
    | some found' =>
      have := size_of_absorb? absorbs
      have := size_of_absorb? absorbed
      omega
  simp [absorption, lazy, left, right, absorbs, other]

theorem absorption_absorbs {a : Expr} (left : l.resultTy.any Ty.isBoolean)
    (right : r.resultTy.any Ty.isBoolean) (absorbs : Absorbs op l r a) :
    absorption.step (.binary op l r s) = .ok (a.addCasts s.casts) := by
  rcases absorbs with ⟨rfl, repeats⟩ | ⟨rfl, repeats⟩
  · exact absorption_left left right (absorb?_eq_whole.mpr repeats)
  · exact absorption_right left right (absorb?_eq_whole.mpr repeats)

/-- The pass always ends. It leaves an operand that absorbs the whole, or, where there is none,
something of the type and casts of the node. -/
theorem absorption_result (op : BinaryOp) (s : Static) (left : l.resultTy.any Ty.isBoolean)
    (right : r.resultTy.any Ty.isBoolean) :
    ∃ e', absorption.step (.binary op l r s) = .ok e' ∧
      ((∃ a, Absorbs op l r a ∧ e' = a.addCasts s.casts) ∨
        e'.static = s ∧ ¬∃ a, Absorbs op l r a) := by
  by_cases absorbs : ∃ a, Absorbs op l r a
  · obtain ⟨a, absorbs⟩ := absorbs
    exact ⟨_, absorption_absorbs left right absorbs, .inl ⟨a, absorbs, rfl⟩⟩
  cases done : absorption.step (.binary op l r s) with
  | error reason =>
    simp only [absorption] at done
    split at done
    · split at done
      · cases done
      · split at done <;> cases done
    · cases done
  | ok e' =>
    refine ⟨e', rfl, .inr ⟨?_, absorbs⟩⟩
    rcases absorption_ok done with rfl | ⟨_ | rest, found, rfl⟩ | ⟨_ | rest, found, rfl⟩
    · rfl
    · exact absurd ⟨l, .inl ⟨rfl, absorb?_eq_whole.mp found⟩⟩ absorbs
    · rfl
    · exact absurd ⟨r, .inr ⟨rfl, absorb?_eq_whole.mp found⟩⟩ absorbs
    · rfl

end Pass

theorem Ty.isBoolean_cases {t : Ty} (isBoolean : t.isBoolean) : t = Ty.boolean ∨ t = .boxed .boolean := by
  cases t <;> simp_all [Ty.isBoolean, Ty.unboxed?]

/-- Absorption gives a boolean node a result of the same type, unless the node has no casts and the
operand that absorbs it has a cast to `Boolean` around it. -/
theorem absorption_keeps_type_iff (op : BinaryOp) (l r : Expr) (s : Static)
    (typed : s.ty = some Ty.boolean) (left : l.resultTy.any Ty.isBoolean)
    (right : r.resultTy.any Ty.isBoolean) :
    ∃ e', Pass.absorption.step (.binary op l r s) = .ok e' ∧
      (e'.resultTy = (Expr.binary op l r s).resultTy ↔
        ¬∃ a, Absorbs op l r a ∧ s.casts = [] ∧
          a.casts.getLast?.map Cast.target = some (.boxed .boolean)) := by
  obtain ⟨e', done, result⟩ := Pass.absorption_result op s left right
  refine ⟨e', done, ?_⟩
  change e'.resultTy = s.resultTy ↔ _
  obtain ⟨ty, casts⟩ := s
  cases typed
  rcases result with ⟨a, absorbs, rfl⟩ | ⟨same, alone⟩
  · rw [resultTy_addCasts]
    cases casts with
    | cons cast rest =>
      -- The casts of the node decide about the type.
      rw [Static.resultTy_of_casts rfl, Static.resultTy_of_casts rfl]
      exact iff_of_true rfl nofun
    | nil =>
      rw [Static.resultTy_bare, Static.resultTy_bare]
      constructor
      · rintro kept ⟨b, other, -, boxed⟩
        cases absorbs.unique other
        rw [← resultTy_of_isPure absorbs.isPure, kept] at boxed
        cases boxed
      · intro unboxed
        have isBoolean : a.resultTy.any Ty.isBoolean := by
          rcases absorbs with ⟨rfl, -⟩ | ⟨rfl, -⟩ <;> assumption
        obtain ⟨t, own, isBoolean⟩ := (Option.any_eq_true _ _).mp isBoolean
        rcases Ty.isBoolean_cases isBoolean with rfl | rfl
        · exact own
        · exact absurd ⟨a, absorbs, rfl, (resultTy_of_isPure absorbs.isPure _).mp own⟩ unboxed
  · refine iff_of_true (congrArg Static.resultTy same) ?_
    rintro ⟨a, absorbs, -⟩
    exact alone ⟨a, absorbs⟩

namespace AbsorbedSample

/-- The expression `(Boolean) a`. -/
def boxed : Expr := .read ⟨0⟩ (.ofIndex 0) ⟨some .boolean, [.toExplicit (.boxed .boolean)]⟩

def other : Expr := .read ⟨1⟩ (.ofIndex 1) ⟨some .boolean, []⟩

/-- The expression `(Boolean) a && ((Boolean) a || b)` with casts around it. -/
def expr (casts : List Cast) : Expr :=
  .binary .and boxed (.binary .or boxed other ⟨some .boolean, []⟩) ⟨some .boolean, casts⟩

end AbsorbedSample

open AbsorbedSample

/-- The `boolean` expression `(Boolean) a && ((Boolean) a || b)` turns into the `Boolean` operand. -/
theorem absorption_changes_type :
    Pass.absorption.step (expr []) = .ok boxed ∧ (expr []).resultTy = some Ty.boolean ∧
      boxed.resultTy = some (.boxed .boolean) :=
  ⟨rfl, rfl, rfl⟩

/-- With a cast to `Object` around it, the expression keeps its type. -/
theorem absorption_keeps_type_iff_cast :
    ∃ e', Pass.absorption.step (expr [.toExplicit .object]) = .ok e' ∧
      e'.resultTy = (expr [.toExplicit .object]).resultTy := by
  obtain ⟨e', done, kept⟩ := absorption_keeps_type_iff .and boxed
    (.binary .or boxed other ⟨some .boolean, []⟩) ⟨some .boolean, [.toExplicit .object]⟩ rfl rfl rfl
  refine ⟨e', done, kept.mpr ?_⟩
  rintro ⟨-, -, uncast, -⟩
  cases uncast

end ConstFold
