import ConstFold.Proofs.ExactValues

/-! Operators on constants of the exact types. Promoting the operands changes no result of the
reference, and on promoted operands the operators compute what the reference computes. -/
namespace ConstFold

namespace Primitive

/-- The width in which a number of an integral type is computed. -/
def computedBits : Primitive → Nat
  | long => 64
  | _ => 32

theorem wider_cases (p q : Primitive) : p.wider q = int ∨ p.wider q = long := by
  unfold wider
  split
  · exact .inr rfl
  · exact .inl rfl

theorem promoted_cases (p : Primitive) : p.promoted = int ∨ p.promoted = long := by
  cases p <;> simp [promoted]

theorem isIntegral_promoted (p : Primitive) : p.promoted.isIntegral := by cases p <;> rfl

theorem promoted_promoted (p : Primitive) : p.promoted.promoted = p.promoted := by cases p <;> rfl

theorem computedBits_promoted (p : Primitive) : p.promoted.computedBits = p.computedBits := by
  cases p <;> rfl

theorem holds_promoted (p : Primitive) {i : Int} (holds : p.Holds i) : p.promoted.Holds i := by
  refine holds.mono ?_
  cases p <;> simp [promoted]

theorem isIntegral_wider (p q : Primitive) : (p.wider q).isIntegral := by
  rcases p.wider_cases q with wide | wide <;> rw [wide] <;> rfl

theorem wider_wider_left (p q : Primitive) : (p.wider q).wider q = p.wider q := by
  cases p <;> cases q <;> rfl

theorem wider_wider_right (p q : Primitive) : p.wider (p.wider q) = p.wider q := by
  cases p <;> cases q <;> rfl

theorem holds_wider (p q : Primitive) {i : Int} :
    (p.Holds i → (p.wider q).Holds i) ∧ (q.Holds i → (p.wider q).Holds i) := by
  refine ⟨fun holds => holds.mono ?_, fun holds => holds.mono ?_⟩
  all_goals cases p <;> cases q <;> simp [wider]

end Primitive

/-- The types that the operands are computed in. -/
def BinaryOp.exactOperands (op : BinaryOp) (p q : Primitive) : Primitive × Primitive :=
  if op.isShift then (p.promoted, q.promoted)
  else if p = .boolean then (.boolean, .boolean)
  else (p.wider q, p.wider q)

variable {op : BinaryOp} {v w : Value} {p q t : Primitive} {i j : Int}

namespace Reference

/-- An operator other than a shift on two numbers, in the type `t`. -/
def onIntegers (op : BinaryOp) (t : Primitive) (i j : Int) : Option Outcome :=
  match comparison? op (some (compare i j)) with
  | some holds => some (.value (.bool holds))
  | none =>
    if (op = .div || op = .mod) && j = 0 then some .divisionByZero
    else (integral? op i j).bind fun n => (Value.ofInteger? n t).map .value

theorem numeric?_integral (number : v.integer? = some i) (other : w.integer? = some j)
    (computed : t = .int ∨ t = .long) : numeric? op t v w = onIntegers op t i j := by
  obtain ⟨_, left⟩ := Value.reference_integer number
  obtain ⟨_, right⟩ := Value.reference_integer other
  rcases computed with rfl | rfl
  all_goals
    simp only [numeric?, left, right, Value.reference_ofInteger]
    rfl

theorem binary?_integral (left : v.primitive? = some p) (number : v.integer? = some i)
    (right : w.primitive? = some q) (other : w.integer? = some j) (noShift : op.isShift = false) :
    binary? op v w = onIntegers op (p.wider q) i j := by
  rw [← numeric?_integral number other (p.wider_cases q)]
  cases v <;> simp only [Value.integer?, reduceCtorEq] at number
  all_goals cases w <;> simp only [Value.integer?, reduceCtorEq] at other
  all_goals
    simp only [Value.primitive?, Option.some.injEq] at left right
    subst left right
    simp only [binary?, noShift, Bool.false_eq_true, if_false]
    rfl

theorem binary?_shift (left : v.primitive? = some p) (number : v.integer? = some i)
    (other : w.integer? = some j) (shift : op.isShift) :
    binary? op v w =
      (Value.ofInteger? (shifted op i p.computedBits (j.emod p.computedBits).toNat) p.promoted).map
        .value := by
  obtain ⟨_, right⟩ := Value.reference_integer other
  cases v <;> simp only [Value.integer?, reduceCtorEq, Option.some.injEq] at number
  all_goals
    simp only [Value.primitive?, Option.some.injEq] at left
    subst left number
    simp only [binary?, shift, if_true, shift?, right, Value.reference_ofInteger]
    rfl

end Reference

/-! Shifts, on the bits and on the number that they stand for. -/

theorem ofInt_shifted {n : Nat} (x : BitVec n) (d : Nat) :
    BitVec.ofInt n (Reference.shifted .shl x.toInt n d) = x <<< d ∧
    BitVec.ofInt n (Reference.shifted .shr x.toInt n d) = x.sshiftRight d ∧
    BitVec.ofInt n (Reference.shifted .ushr x.toInt n d) = x >>> d := by
  refine ⟨?_, ?_, ?_⟩
  · show BitVec.ofInt n (x.toInt * (2 ^ d : Nat)) = _
    rw [BitVec.ofInt_mul, BitVec.ofInt_toInt, BitVec.ofInt_natCast, BitVec.shiftLeft_eq_mul_twoPow]
    refine congrArg (x * ·) (BitVec.eq_of_toNat_eq ?_)
    rw [BitVec.toNat_ofNat, BitVec.toNat_twoPow]
  · show BitVec.ofInt n (x.toInt.fdiv (2 ^ d : Nat)) = _
    rw [Int.fdiv_eq_ediv_of_nonneg _ (Int.natCast_nonneg _), ← Int.shiftRight_eq_div_pow,
      ← BitVec.toInt_sshiftRight, BitVec.ofInt_toInt]
  · show BitVec.ofInt n ((x.toInt % (2 ^ n : Nat)).fdiv (2 ^ d : Nat)) = _
    have unsigned : x.toInt % (2 ^ n : Nat) = x.toNat := by
      rw [BitVec.toInt_eq_toNat_bmod, Int.bmod_emod, Int.emod_eq_of_lt (Int.natCast_nonneg _)]
      exact_mod_cast x.isLt
    rw [unsigned, Int.fdiv_eq_ediv_of_nonneg _ (Int.natCast_nonneg _), ← Int.natCast_ediv,
      BitVec.ofInt_natCast]
    apply BitVec.eq_of_toNat_eq
    rw [BitVec.toNat_ofNat, BitVec.toNat_ushiftRight, Nat.shiftRight_eq_div_pow]
    exact Nat.mod_eq_of_lt (Nat.lt_of_le_of_lt (Nat.div_le_self _ _) x.isLt)

/-- A distance below the width is left alone by the remainders that are taken of it. -/
theorem toNat_distance {n d : Nat} (small : d < n) (wide : 2 * n < 1 <<< n) :
    ((BitVec.ofNat n d).smod (BitVec.ofNat n n)).toNat = d ∧
      (BitVec.ofNat n d % BitVec.ofNat n n).toNat = d := by
  rw [Nat.one_shiftLeft] at wide
  have exact {k : Nat} (bound : k ≤ n) :
      (BitVec.ofNat n k).toNat = k ∧ (BitVec.ofNat n k).msb = false := by
    have own : (BitVec.ofNat n k).toNat = k := by
      rw [BitVec.toNat_ofNat, Nat.mod_eq_of_lt (by omega)]
    exact ⟨own, BitVec.msb_eq_false_iff_two_mul_lt.mpr (by omega)⟩
  obtain ⟨distance, signed⟩ := exact (Nat.le_of_lt small)
  obtain ⟨width, wideSigned⟩ := exact (Nat.le_refl n)
  have remainder : (BitVec.ofNat n d % BitVec.ofNat n n).toNat = d := by
    rw [BitVec.toNat_umod, distance, width, Nat.mod_eq_of_lt small]
  refine ⟨?_, remainder⟩
  rw [BitVec.smod_eq, signed, wideSigned]
  exact remainder

/-- Shifts of words whose distance is taken modulo the width. -/
theorem shift_modulo {n d : Nat} (x : BitVec n) (small : d < n) (wide : 2 * n < 1 <<< n) :
    x <<< (BitVec.ofNat n d).smod (BitVec.ofNat n n) =
      BitVec.ofInt n (Reference.shifted .shl x.toInt n d) ∧
    x.sshiftRight' ((BitVec.ofNat n d).smod (BitVec.ofNat n n)) =
      BitVec.ofInt n (Reference.shifted .shr x.toInt n d) ∧
    x >>> (BitVec.ofNat n d % BitVec.ofNat n n) =
      BitVec.ofInt n (Reference.shifted .ushr x.toInt n d) := by
  obtain ⟨left, right, logical⟩ := ofInt_shifted x d
  obtain ⟨signed, unsigned⟩ := toNat_distance small wide
  refine ⟨?_, ?_, ?_⟩
  · rw [left, BitVec.shiftLeft_eq', signed]
  · rw [right, BitVec.sshiftRight_eq', signed]
  · rw [logical, BitVec.ushiftRight_eq', unsigned]

namespace Value

theorem shift_eq (left : v.primitive? = some t) (number : v.integer? = some i)
    (computed : t = .int ∨ t = .long) (other : w.integer? = some j) (shift : op.isShift) :
    Value.shift op v w =
      ofInteger? (Reference.shifted op i t.computedBits (j.emod t.computedBits).toNat) t := by
  have distance (n : Nat) (pos : 0 < n) : ∃ d : Nat, j.emod n = d ∧ d < n := by
    obtain ⟨d, same⟩ := Int.eq_ofNat_of_zero_le (Int.emod_nonneg j (by omega : (n : Int) ≠ 0))
    have small := Int.emod_lt_of_pos j (by omega : 0 < (n : Int))
    exact ⟨d, same, by omega⟩
  rcases computed with rfl | rfl
  · cases v <;> simp only [primitive?, reduceCtorEq, Option.some.injEq] at left
    cases number
    rename_i x
    obtain ⟨d, same, small⟩ := distance 32 (by decide)
    have same' : j.emod 32 = d := same
    have unsigned : UInt32.ofInt d = UInt32.ofNat d := congrArg UInt32.ofNat (by omega)
    obtain ⟨left, right, logical⟩ := shift_modulo x.toBitVec small (by decide)
    simp only [Value.shift, other, Option.bind_some, Primitive.computedBits, ofInteger?, same,
      same', unsigned, Int.toNat_natCast]
    cases op <;> simp only [BinaryOp.isShift, Bool.false_eq_true] at shift
    · exact congrArg (fun bits => some (Value.int ⟨⟨bits⟩⟩)) left
    · exact congrArg (fun bits => some (Value.int ⟨⟨bits⟩⟩)) right
    · exact congrArg (fun bits => some (Value.int ⟨⟨bits⟩⟩)) logical
  · cases v <;> simp only [primitive?, reduceCtorEq, Option.some.injEq] at left
    cases number
    rename_i x
    obtain ⟨d, same, small⟩ := distance 64 (by decide)
    have same' : j.emod 64 = d := same
    have unsigned : UInt64.ofInt d = UInt64.ofNat d := congrArg UInt64.ofNat (by omega)
    obtain ⟨left, right, logical⟩ := shift_modulo x.toBitVec small (by decide)
    simp only [Value.shift, other, Option.bind_some, Primitive.computedBits, ofInteger?, same,
      same', unsigned, Int.toNat_natCast]
    cases op <;> simp only [BinaryOp.isShift, Bool.false_eq_true] at shift
    · exact congrArg (fun bits => some (Value.long ⟨⟨bits⟩⟩)) left
    · exact congrArg (fun bits => some (Value.long ⟨⟨bits⟩⟩)) right
    · exact congrArg (fun bits => some (Value.long ⟨⟨bits⟩⟩)) logical

/-- Bitwise operators on 128 bits, cut to 64, are those on 64 bits. -/
theorem bitwise_cut (f : BitVec 128 → BitVec 128 → BitVec 128) (g : BitVec 64 → BitVec 64 → BitVec 64)
    (cut : ∀ x y : BitVec 128, (f x y).setWidth 64 = g (x.setWidth 64) (y.setWidth 64))
    (i j : Int) :
    (Int64.ofInt (Reference.bitwise f i j)).toBitVec =
      g (Int64.ofInt i).toBitVec (Int64.ofInt j).toBitVec := by
  have low (n : Int) : (BitVec.ofInt 128 n).setWidth 64 = BitVec.ofInt 64 n := by
    apply BitVec.eq_of_toNat_eq
    simp only [BitVec.toNat_setWidth, BitVec.toNat_ofInt]
    omega
  have back (x : BitVec 128) : BitVec.ofInt 64 x.toInt = x.setWidth 64 := by
    rw [← low, BitVec.ofInt_toInt]
  simp only [Reference.bitwise, Int64.toBitVec_ofInt, back, cut, low]

/-- Arithmetic in 64 bits is exact arithmetic cut to 64 bits, the quotient of the least number
by `-1` included. -/
theorem integralArithmetic_eq (left : Primitive.long.Holds i) (right : Primitive.long.Holds j)
    (nonzero : op = .div ∨ op = .mod → j ≠ 0) :
    integralArithmetic op (Int64.ofInt i) (Int64.ofInt j) =
      (Reference.integral? op i j).map Int64.ofInt := by
  have divisor (h : j ≠ 0) : Int64.ofInt j ≠ 0 := by
    intro zero
    have number := congrArg Int64.toInt zero
    rw [Int64.toInt_ofInt_of_le right.1 right.2] at number
    exact h number
  have low : i ≤ Int64.maxValue.toInt := Int.le_of_lt_add_one left.2
  have high : j ≤ Int64.maxValue.toInt := Int.le_of_lt_add_one right.2
  cases op with
  | plus => exact congrArg some (Int64.ofInt_add i j).symm
  | minus => exact congrArg some (Int64.ofInt_sub i j).symm
  | mul => exact congrArg some (Int64.ofInt_mul i j).symm
  | div =>
    rw [integralArithmetic, if_neg (divisor (nonzero (.inl rfl)))]
    exact congrArg some (Int64.ofInt_tdiv left.1 low right.1 high).symm
  | mod =>
    rw [integralArithmetic, if_neg (divisor (nonzero (.inr rfl)))]
    exact congrArg some (Int64.ofInt_tmod left.1 low right.1 high).symm
  | bitAnd =>
    have cut := bitwise_cut _ (· &&& ·) (fun _ _ => BitVec.setWidth_and) i j
    exact congrArg some (Int64.toBitVec_inj.mp cut).symm
  | bitOr =>
    have cut := bitwise_cut _ (· ||| ·) (fun _ _ => BitVec.setWidth_or) i j
    exact congrArg some (Int64.toBitVec_inj.mp cut).symm
  | bitXor =>
    have cut := bitwise_cut _ (· ^^^ ·) (fun _ _ => BitVec.setWidth_xor) i j
    exact congrArg some (Int64.toBitVec_inj.mp cut).symm
  | or | and | eq | ne | lt | gt | le | ge | shl | shr | ushr | instanceOf => rfl

theorem convert_long (n : Int) (integral : t.isIntegral) :
    (Value.long (Int64.ofInt n)).convert t = ofInteger? n t := by
  have divides : t.modulus ∣ 18446744073709551616 := by
    cases t <;> first | contradiction | decide
  have cut : (Int64.ofInt n).toInt % 18446744073709551616 = n % 18446744073709551616 := by
    rw [Int64.toInt_ofInt]
    exact Int.bmod_emod
  rw [convert_integral rfl integral]
  apply ofInteger?_congr
  rw [← Int.emod_emod_of_dvd _ divides, cut, Int.emod_emod_of_dvd _ divides]

theorem arithmetic_eq (left : v.primitive? = some t) (number : v.integer? = some i)
    (right : w.primitive? = some t) (other : w.integer? = some j)
    (nonzero : op = .div ∨ op = .mod → j ≠ 0) :
    arithmetic op t v w = (Reference.integral? op i j).bind fun n => ofInteger? n t := by
  have integral := integral_of_integer left number
  have wide {n : Int} (holds : t.Holds n) : Primitive.long.Holds n := holds.mono (.inr (.inl rfl))
  rw [arithmetic, if_neg (by rintro rfl; contradiction), if_pos integral]
  simp only [number, other, integralArithmetic_eq (wide (holds_of_integer left number))
    (wide (holds_of_integer right other)) nonzero]
  cases Reference.integral? op i j with
  | none => rfl
  | some n => exact convert_long n integral

theorem isZero_iff (number : v.integer? = some i) : v.isZero ↔ i = 0 := by
  cases v <;> simp only [integer?, reduceCtorEq, Option.some.injEq] at number
  all_goals
    subst number
    simp [isZero, isNumber, integer?]

theorem isOne_iff (number : v.integer? = some i) : v.isOne ↔ i = 1 := by
  cases v <;> simp only [integer?, reduceCtorEq, Option.some.injEq] at number
  all_goals
    subst number
    simp [isOne, isNumber, integer?]

end Value

namespace BinaryOp

theorem apply_logical (a b : Bool) (exact : op.exactTy? .boolean .boolean = some t) :
    ∃ u, op.apply Ty.boolean (.bool a) (.bool b) = some u ∧
      Reference.binary? op (.bool a) (.bool b) = some (.value u) ∧ u.primitive? = some t := by
  cases op <;> simp [exactTy?, Primitive.isIntegral] at exact
  all_goals
    subst exact
    cases a <;> cases b <;> exact ⟨_, rfl, rfl, rfl⟩

/-- The order of two integers that a relational operator asks for. -/
def ordered (op : BinaryOp) (i j : Int) : Bool :=
  match op with
  | lt => i < j
  | le => i ≤ j
  | gt => j < i
  | _ => j ≤ i

theorem apply_comparison {holds : Bool} (left : v.primitive? = some t)
    (number : v.integer? = some i) (other : w.integer? = some j)
    (compared : Reference.comparison? op (some (compare i j)) = some holds) :
    op.apply (.primitive t) v w = some (.bool holds) := by
  have integral : (Ty.primitive t).isIntegral := Value.integral_of_integer left number
  have equal : Value.equals (.primitive t) v w = some (i == j) := by
    cases v <;> simp only [Value.integer?, reduceCtorEq] at number
    all_goals cases w <;> simp only [Value.integer?, reduceCtorEq] at other
    all_goals simp only [Value.equals, integral, if_true, Value.integer?, number, other]
  have related (op : BinaryOp) :
      Value.relational op (.primitive t) v w = some (op.ordered i j) := by
    simp only [Value.relational, integral, if_true, number, other]
    rfl
  rcases order : compare i j with _ | _ | _
  · have less := Int.compare_eq_lt.mp order
    cases op <;> simp [Reference.comparison?, order] at compared <;> subst compared
    all_goals
      simp [apply, equal, related, ordered, bne]
      omega
  · have same := Int.compare_eq_eq.mp order
    cases op <;> simp [Reference.comparison?, order] at compared <;> subst compared
    all_goals
      simp [apply, equal, related, ordered]
      omega
  · have greater := Int.compare_eq_gt.mp order
    cases op <;> simp [Reference.comparison?, order] at compared <;> subst compared
    all_goals
      simp [apply, equal, related, ordered, bne]
      omega

theorem apply_shift (shift : op.isShift) (ty : Ty) : op.apply ty v w = Value.shift op v w := by
  cases op <;> first | contradiction | rfl

theorem exactTy?_shift (shift : op.isShift) :
    op.exactTy? p q = if p.isIntegral && q.isIntegral then some p.promoted else none := by
  cases op <;> first | contradiction | rfl

/-- What the type rule of an operator on two numbers says of the operator. -/
theorem exactTy?_integral (computed : t = .int ∨ t = .long) (noShift : op.isShift = false)
    {result : Primitive} (exact : op.exactTy? t t = some result) :
    (result = .boolean ∧ ∀ order, (Reference.comparison? op order).isSome) ∨
    (result = t ∧ (∀ order, Reference.comparison? op order = none) ∧
      (∀ i j, (Reference.integral? op i j).isSome) ∧
      ∀ v w, op.apply (.primitive t) v w = Value.arithmetic op t v w) := by
  rcases computed with rfl | rfl
  all_goals
    cases op <;> simp [exactTy?, Primitive.isIntegral, Primitive.wider, isShift] at exact noShift
    all_goals subst exact
    all_goals first
      | exact .inl ⟨rfl, fun _ => rfl⟩
      | exact .inr ⟨rfl, fun _ => rfl, fun _ _ => rfl, fun _ _ => rfl⟩

/-- A shift by any distance computes what the reference computes. -/
theorem apply_exact_shift {tl tr : Primitive} (shift : op.isShift) (promoted : tl.promoted = tl)
    (left : v.primitive? = some tl) (right : w.primitive? = some tr)
    (exact : op.exactTy? tl tr = some t) :
    ∃ u, op.apply (.primitive tl) v w = some u ∧
      Reference.binary? op v w = some (.value u) ∧ u.primitive? = some t := by
  rw [exactTy?_shift shift, promoted, Option.ite_none_right_eq_some] at exact
  obtain ⟨both, same⟩ := exact
  obtain rfl := Option.some.inj same
  obtain ⟨integral, distance⟩ := (Bool.and_eq_true _ _).mp both
  obtain ⟨i, number⟩ := Value.exists_integer left integral
  obtain ⟨j, other⟩ := Value.exists_integer right distance
  have computed : tl = .int ∨ tl = .long := promoted ▸ tl.promoted_cases
  obtain ⟨u, made, typed⟩ := Value.exists_ofInteger integral
    (Reference.shifted op i tl.computedBits (j.emod tl.computedBits).toNat)
  refine ⟨u, ?_, ?_, typed⟩
  · rw [apply_shift shift, Value.shift_eq left number computed other shift, made]
  · rw [Reference.binary?_shift left number other shift, promoted, made]
    rfl

/-- On two numbers of the type in which it computes, an operator other than a shift computes what
the reference computes, and it has no value exactly for a division by zero. -/
theorem apply_exact_integral {p : Primitive} (noShift : op.isShift = false)
    (computed : p = .int ∨ p = .long) (left : v.primitive? = some p)
    (right : w.primitive? = some p) (exact : op.exactTy? p p = some t) :
    (Reference.binary? op v w = some .divisionByZero ∧ (op = .div ∨ op = .mod) ∧ w.isZero) ∨
    ((¬((op = .div ∨ op = .mod) ∧ w.isZero)) ∧ ∃ u, op.apply (.primitive p) v w = some u ∧
      Reference.binary? op v w = some (.value u) ∧ u.primitive? = some t) := by
  have integral : p.isIntegral := by rcases computed with rfl | rfl <;> rfl
  have wide : p.wider p = p := by rcases computed with rfl | rfl <;> rfl
  obtain ⟨i, number⟩ := Value.exists_integer left integral
  obtain ⟨j, other⟩ := Value.exists_integer right integral
  have reference := Reference.binary?_integral left number right other noShift
  rw [wide, Reference.onIntegers] at reference
  rcases exactTy?_integral computed noShift exact with
    ⟨rfl, compares⟩ | ⟨rfl, noOrder, defined, arithmetic⟩
  · obtain ⟨holds, compared⟩ := Option.isSome_iff_exists.mp (compares (some (compare i j)))
    rw [compared] at reference
    refine .inr ⟨?_, _, apply_comparison left number other compared, reference, rfl⟩
    rintro ⟨rfl | rfl, -⟩ <;> cases compared
  · rw [noOrder] at reference
    by_cases zero : (op = .div ∨ op = .mod) ∧ j = 0
    · refine .inl ⟨?_, zero.1, (Value.isZero_iff other).mpr zero.2⟩
      simpa [zero] using reference
    · obtain ⟨n, computes⟩ := Option.isSome_iff_exists.mp (defined i j)
      obtain ⟨u, made, typed⟩ := Value.exists_ofInteger integral n
      have nonzero : op = .div ∨ op = .mod → j ≠ 0 := by
        intro division same
        exact zero ⟨division, same⟩
      refine .inr ⟨?_, u, ?_, ?_, typed⟩
      · rintro ⟨division, isZero⟩
        exact nonzero division ((Value.isZero_iff other).mp isZero)
      · rw [arithmetic, Value.arithmetic_eq left number right other nonzero, computes]
        exact made
      · rw [reference, if_neg (by simpa using zero), computes, Option.bind_some, made]
        rfl

/-- On promoted operands an operator computes what the reference computes, and it has no value
exactly for a division by zero. -/
theorem apply_exact {tl tr : Primitive} (left : v.primitive? = some tl)
    (right : w.primitive? = some tr) (exact : op.exactTy? tl tr = some t)
    (operands : op.exactOperands tl tr = (tl, tr)) :
    (Reference.binary? op v w = some .divisionByZero ∧ (op = .div ∨ op = .mod) ∧
      tl.isIntegral ∧ w.isZero) ∨
    ((¬((op = .div ∨ op = .mod) ∧ w.isZero)) ∧ ∃ u, op.apply (.primitive tl) v w = some u ∧
      Reference.binary? op v w = some (.value u) ∧ u.primitive? = some t) := by
  unfold exactOperands at operands
  split at operands
  · rename_i shift
    obtain ⟨promoted, -⟩ := Prod.mk.inj operands
    refine .inr ⟨?_, apply_exact_shift shift promoted left right exact⟩
    rintro ⟨rfl | rfl, -⟩ <;> contradiction
  · rename_i noShift
    split at operands
    · rename_i boolean
      subst boolean
      obtain ⟨-, rfl⟩ := Prod.mk.inj operands
      obtain ⟨a, rfl⟩ := Value.exists_bool left
      obtain ⟨b, rfl⟩ := Value.exists_bool right
      exact .inr ⟨by simp [Value.isZero, Value.isNumber, Value.integer?], apply_logical a b exact⟩
    · have noShift : op.isShift = false := by simpa using noShift
      have same : tr = tl := (Prod.mk.inj operands).2.symm.trans (Prod.mk.inj operands).1
      subst same
      have wide : tr.wider tr = tr := (Prod.mk.inj operands).1
      have computed : tr = .int ∨ tr = .long := wide ▸ tr.wider_cases tr
      have integral : tr.isIntegral := by rcases computed with rfl | rfl <;> rfl
      rcases apply_exact_integral noShift computed left right exact with
        ⟨zero, division, isZero⟩ | value
      · exact .inl ⟨zero, division, integral, isZero⟩
      · exact .inr value

end BinaryOp

namespace UnaryOp

variable {op : UnaryOp}

/-- An operator of a number computes in the promoted type. -/
theorem reference_integral (typed : v.primitive? = some p) (number : v.integer? = some i) :
    Reference.unary? op v =
      match op with
      | .neg => Value.ofInteger? (-i) p.promoted
      | .compl => Value.ofInteger? (-i - 1) p.promoted
      | .pos => Value.ofInteger? i p.promoted
      | _ => none := by
  cases v <;> simp only [Value.integer?, reduceCtorEq, Option.some.injEq] at number
  all_goals
    simp only [Value.primitive?, Option.some.injEq] at typed
    subst typed number
    cases op <;> simp only [Reference.unary?, Reference.integer?, Value.reference_ofInteger] <;> rfl

/-- On a promoted operand an operator computes what the reference computes. -/
theorem apply_exact (typed : v.primitive? = some t) (exact : op.exactTy? t = some t)
    (noStep : op.isStep = false) :
    ∃ u, op.apply v = some u ∧ Reference.unary? op v = some u ∧ u.primitive? = some t := by
  cases op <;> simp [exactTy?, isStep] at exact noStep
  case not =>
    obtain ⟨rfl, -⟩ := exact
    obtain ⟨b, rfl⟩ := Value.exists_bool typed
    exact ⟨_, rfl, rfl, rfl⟩
  all_goals
    obtain ⟨i, number⟩ := Value.exists_integer typed exact.1
    have reference (op : UnaryOp) : Reference.unary? op v = _ := reference_integral typed number
    rw [exact.2] at reference
    have computed : t = .int ∨ t = .long := exact.2 ▸ t.promoted_cases
    rcases computed with rfl | rfl
    all_goals
      cases v <;> simp only [Value.primitive?, reduceCtorEq, Option.some.injEq] at typed
      cases number
      refine ⟨_, rfl, ?_, rfl⟩
      simp [reference, Value.ofInteger?, Int32.not_eq_neg_sub, Int32.ofInt_sub, Int32.ofInt_neg,
        Int64.not_eq_neg_sub, Int64.ofInt_sub, Int64.ofInt_neg]

/-- Promoting the operand changes no result. -/
theorem reference_promote (typed : v.primitive? = some p) (exact : op.exactTy? p = some t)
    (noStep : op.isStep = false) (made : v.convert t = some w) :
    Reference.unary? op w = Reference.unary? op v := by
  cases op <;> simp [exactTy?, isStep] at exact noStep
  case not =>
    obtain ⟨rfl, rfl⟩ := exact
    rw [Value.convert_self typed] at made
    cases made
    rfl
  all_goals
    obtain ⟨integral, rfl⟩ := exact
    obtain ⟨i, number⟩ := Value.exists_integer typed integral
    obtain ⟨result, kept⟩ := Value.integer_of_convert made number p.isIntegral_promoted
      (p.holds_promoted (Value.holds_of_integer typed number))
    rw [reference_integral typed number, reference_integral result kept, p.promoted_promoted]

/-- Negating twice only promotes. -/
theorem reference_twice (typed : v.primitive? = some p) (exact : op.exactTy? p = some t)
    (double : op = .neg ∨ op = .not) :
    (Reference.unary? op v).bind (Reference.unary? op) = v.convert t := by
  rcases double with rfl | rfl
  · simp only [exactTy?, Option.ite_none_right_eq_some, Option.some.injEq] at exact
    obtain ⟨integral, rfl⟩ := exact
    obtain ⟨i, number⟩ := Value.exists_integer typed integral
    obtain ⟨u, made, negative⟩ := Value.exists_ofInteger p.isIntegral_promoted (-i)
    obtain ⟨k, opposite⟩ := Value.exists_integer negative p.isIntegral_promoted
    have low := Value.mod_of_ofInteger made opposite
    rw [reference_integral typed number, Value.convert_integral number p.isIntegral_promoted]
    simp only [made, Option.bind_some]
    rw [reference_integral negative opposite, p.promoted_promoted]
    apply Value.ofInteger?_congr
    rcases p.promoted_cases with wide | wide
    all_goals
      simp only [wide, Primitive.modulus] at low ⊢
      omega
  · simp only [exactTy?, Option.ite_none_right_eq_some, Option.some.injEq] at exact
    obtain ⟨rfl, rfl⟩ := exact
    obtain ⟨b, rfl⟩ := Value.exists_bool typed
    cases b <;> rfl

end UnaryOp

namespace BinaryOp

theorem exactTy?_operands (exact : op.exactTy? p q = some t) :
    (op.isShift = false ∧ p = .boolean ∧ q = .boolean) ∨ (p.isIntegral ∧ q.isIntegral) := by
  cases op <;> simp only [exactTy?, isShift] at exact ⊢
  all_goals grind

/-- Promoting the left operand changes no result. -/
theorem reference_promoteLeft (left : v.primitive? = some p) (right : w.primitive? = some q)
    (exact : op.exactTy? p q = some t) {u : Value}
    (made : v.convert (op.exactOperands p q).1 = some u) :
    Reference.binary? op u w = Reference.binary? op v w := by
  rcases exactTy?_operands exact with ⟨noShift, rfl, rfl⟩ | ⟨integral, other⟩
  · rw [exactOperands, if_neg (by simp [noShift]), if_pos rfl, Value.convert_self left] at made
    cases made
    rfl
  · obtain ⟨i, number⟩ := Value.exists_integer left integral
    obtain ⟨j, distance⟩ := Value.exists_integer right other
    have holds := Value.holds_of_integer left number
    rw [exactOperands] at made
    split at made
    · rename_i shift
      obtain ⟨result, kept⟩ := Value.integer_of_convert made number p.isIntegral_promoted
        (p.holds_promoted holds)
      rw [Reference.binary?_shift left number distance shift,
        Reference.binary?_shift result kept distance shift, p.promoted_promoted,
        p.computedBits_promoted]
    · rename_i noShift
      have noShift : op.isShift = false := by simpa using noShift
      rw [if_neg (by rintro rfl; contradiction)] at made
      obtain ⟨result, kept⟩ := Value.integer_of_convert made number (p.isIntegral_wider q)
        ((p.holds_wider q).1 holds)
      rw [Reference.binary?_integral left number right distance noShift,
        Reference.binary?_integral result kept right distance noShift, p.wider_wider_left q]

/-- Promoting the right operand changes no result. -/
theorem reference_promoteRight (left : v.primitive? = some p) (right : w.primitive? = some q)
    (exact : op.exactTy? p q = some t) {u : Value}
    (made : w.convert (op.exactOperands p q).2 = some u) :
    Reference.binary? op v u = Reference.binary? op v w := by
  rcases exactTy?_operands exact with ⟨noShift, rfl, rfl⟩ | ⟨integral, other⟩
  · rw [exactOperands, if_neg (by simp [noShift]), if_pos rfl, Value.convert_self right] at made
    cases made
    rfl
  · obtain ⟨i, number⟩ := Value.exists_integer left integral
    obtain ⟨j, distance⟩ := Value.exists_integer right other
    have holds := Value.holds_of_integer right distance
    rw [exactOperands] at made
    split at made
    · rename_i shift
      obtain ⟨-, kept⟩ := Value.integer_of_convert made distance q.isIntegral_promoted
        (q.holds_promoted holds)
      rw [Reference.binary?_shift left number distance shift,
        Reference.binary?_shift left number kept shift]
    · rename_i noShift
      have noShift : op.isShift = false := by simpa using noShift
      rw [if_neg (by rintro rfl; contradiction)] at made
      obtain ⟨result, kept⟩ := Value.integer_of_convert made distance (p.isIntegral_wider q)
        ((p.holds_wider q).2 holds)
      rw [Reference.binary?_integral left number right distance noShift,
        Reference.binary?_integral left number result kept noShift, p.wider_wider_right q]

end BinaryOp

end ConstFold
