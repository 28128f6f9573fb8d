import ConstFold.Operation
import ConstFold.Proofs.ExactTyping
import ConstFold.Reference
import Mathlib.Tactic.Common

/-! Constants of the exact types. An integral constant is the number it stands for, cut to the
width of its type, so conversions and operators on constants agree with exact arithmetic that
is wrapped at the end. -/
namespace ConstFold

namespace Primitive

/-- The numbers of an integral type. -/
def Holds : Primitive → Int → Prop
  | byte, i => -128 ≤ i ∧ i < 128
  | short, i => -32768 ≤ i ∧ i < 32768
  | char, i => 0 ≤ i ∧ i < 65536
  | int, i => -2147483648 ≤ i ∧ i < 2147483648
  | long, i => -9223372036854775808 ≤ i ∧ i < 9223372036854775808
  | _, _ => False

/-- The number of constants of an integral type. -/
def modulus : Primitive → Int
  | byte => 256
  | short | char => 65536
  | int => 4294967296
  | long => 18446744073709551616
  | boolean | float | double => 0

/-- A number of one type is one of every type that holds it losslessly. -/
theorem Holds.mono {p q : Primitive} {i : Int} (holds : p.Holds i)
    (wide : p = q ∨ q = long ∨ (q = int ∧ p ≠ long) ∨ (q = short ∧ p = byte)) : q.Holds i := by
  obtain rfl | rfl | ⟨rfl, narrow⟩ | ⟨rfl, rfl⟩ := wide
  · exact holds
  · cases p <;> simp only [Holds] at holds ⊢ <;> omega
  · cases p <;> simp only [Holds] at holds ⊢ <;> first | omega | contradiction
  · simp only [Holds] at holds ⊢
    omega

end Primitive

theorem toNat_ofInt_unit (i : Int) : ((UInt16.ofInt i).toNat : Int) = i % 65536 := by
  simp only [UInt16.ofInt, UInt16.toNat_ofNat']
  omega

namespace Value

variable {v w : Value} {p q : Primitive} {i j : Int}

theorem exists_bool (typed : v.primitive? = some .boolean) : ∃ b, v = .bool b := by
  cases v <;> simp_all [primitive?]

theorem exists_integer (typed : v.primitive? = some p) (integral : p.isIntegral) :
    ∃ i, v.integer? = some i := by
  cases v <;> simp_all [primitive?, integer?] <;> subst typed <;> contradiction

theorem integral_of_integer (typed : v.primitive? = some p) (number : v.integer? = some i) :
    p.isIntegral := by
  cases v <;> simp_all [primitive?, integer?] <;> subst typed <;> rfl

theorem holds_of_integer (typed : v.primitive? = some p) (number : v.integer? = some i) :
    p.Holds i := by
  cases v <;> simp only [primitive?, integer?, Option.some.injEq, reduceCtorEq] at typed number
  all_goals subst typed number
  · rename_i u
    exact ⟨Int.natCast_nonneg _, by have := u.toNat_lt; omega⟩
  · rename_i x
    exact ⟨x.le_toInt, x.toInt_lt⟩
  · rename_i x
    exact ⟨x.le_toInt, x.toInt_lt⟩
  · rename_i x
    exact ⟨x.le_toInt, x.toInt_lt⟩
  · rename_i x
    exact ⟨x.le_toInt, x.toInt_lt⟩

/-- An integral constant is the one of its type that stands for its number. -/
theorem ofInteger?_of_integer (typed : v.primitive? = some p) (number : v.integer? = some i) :
    ofInteger? i p = some v := by
  cases v <;> simp only [primitive?, integer?, Option.some.injEq, reduceCtorEq] at typed number
  all_goals subst typed number
  · rename_i u
    refine congrArg (fun u => some (Value.char u)) (UInt16.toNat_inj.mp ?_)
    have range := u.toNat_lt
    have number := toNat_ofInt_unit u.toNat
    omega
  all_goals simp [ofInteger?]

theorem exists_ofInteger (integral : p.isIntegral) (i : Int) :
    ∃ v, ofInteger? i p = some v ∧ v.primitive? = some p := by
  cases p <;> first | contradiction | exact ⟨_, rfl, rfl⟩

/-- A number that the type holds is kept. -/
theorem integer_of_ofInteger (made : ofInteger? i p = some v) (holds : p.Holds i) :
    v.integer? = some i := by
  cases p <;> simp only [ofInteger?, Option.some.injEq, reduceCtorEq] at made
  all_goals subst made
  · exact congrArg some (Int8.toInt_ofInt_of_le holds.1 holds.2)
  · exact congrArg some (Int16.toInt_ofInt_of_le holds.1 holds.2)
  · refine congrArg some ((toNat_ofInt_unit i).trans ?_)
    simp only [Primitive.Holds] at holds
    omega
  · exact congrArg some (Int32.toInt_ofInt_of_le holds.1 holds.2)
  · exact congrArg some (Int64.toInt_ofInt_of_le holds.1 holds.2)

/-- Only the low bits of a number count. -/
theorem ofInteger?_congr (same : i % p.modulus = j % p.modulus) :
    ofInteger? i p = ofInteger? j p := by
  cases p with
  | byte =>
    refine congrArg (fun x => some (Value.byte x)) (Int8.toBitVec_inj.mp (BitVec.eq_of_toNat_eq ?_))
    simpa [BitVec.toNat_ofInt, Primitive.modulus] using congrArg Int.toNat same
  | short =>
    refine congrArg (fun x => some (Value.short x)) (Int16.toBitVec_inj.mp (BitVec.eq_of_toNat_eq ?_))
    simpa [BitVec.toNat_ofInt, Primitive.modulus] using congrArg Int.toNat same
  | char => exact congrArg (fun n : Int => some (Value.char (UInt16.ofNat n.toNat))) same
  | int =>
    refine congrArg (fun x => some (Value.int x)) (Int32.toBitVec_inj.mp (BitVec.eq_of_toNat_eq ?_))
    simpa [BitVec.toNat_ofInt, Primitive.modulus] using congrArg Int.toNat same
  | long =>
    refine congrArg (fun x => some (Value.long x)) (Int64.toBitVec_inj.mp (BitVec.eq_of_toNat_eq ?_))
    simpa [BitVec.toNat_ofInt, Primitive.modulus] using congrArg Int.toNat same
  | boolean | float | double => rfl

theorem mod_of_ofInteger (made : ofInteger? i p = some v) (number : v.integer? = some j) :
    j % p.modulus = i % p.modulus := by
  cases p <;> simp only [ofInteger?, Option.some.injEq, reduceCtorEq] at made
  all_goals subst made
  all_goals simp only [integer?, Option.some.injEq] at number
  all_goals subst number
  · exact (congrArg (· % 256) Int8.toInt_ofInt).trans (Int.bmod_emod ..)
  · exact (congrArg (· % 65536) Int16.toInt_ofInt).trans (Int.bmod_emod ..)
  · rw [toNat_ofInt_unit]
    exact Int.emod_emod ..
  · exact (congrArg (· % 4294967296) Int32.toInt_ofInt).trans (Int.bmod_emod ..)
  · exact (congrArg (· % 18446744073709551616) Int64.toInt_ofInt).trans (Int.bmod_emod ..)

theorem convert_integral (number : v.integer? = some i) (integral : p.isIntegral) :
    v.convert p = ofInteger? i p := by
  cases v <;> simp only [integer?, Option.some.injEq, reduceCtorEq] at number
  all_goals subst number
  all_goals cases p <;> first | contradiction | rfl

/-- Cutting a number to a type and then to one that divides it is cutting it once. -/
theorem convert_of_ofInteger (made : ofInteger? i p = some w) (integral : p.isIntegral)
    (narrow : q.isIntegral) (divides : q.modulus ∣ p.modulus) : w.convert q = ofInteger? i q := by
  obtain ⟨u, again, typed⟩ := exists_ofInteger integral i
  obtain rfl : u = w := Option.some.inj (again.symm.trans made)
  obtain ⟨j, kept⟩ := exists_integer typed integral
  rw [convert_integral kept narrow]
  apply ofInteger?_congr
  rw [← Int.emod_emod_of_dvd j divides, mod_of_ofInteger made kept, Int.emod_emod_of_dvd i divides]

theorem convert_of_dvd (made : v.convert p = some w) (number : v.integer? = some i)
    (integral : p.isIntegral) (narrow : q.isIntegral) (divides : q.modulus ∣ p.modulus) :
    w.convert q = v.convert q := by
  rw [convert_integral number integral] at made
  rw [convert_integral number narrow, convert_of_ofInteger made integral narrow divides]

/-- A conversion to a type that holds the number keeps it for every further one. -/
theorem convert_of_holds (made : v.convert p = some w) (number : v.integer? = some i)
    (integral : p.isIntegral) (narrow : q.isIntegral) (holds : p.Holds i) :
    w.convert q = v.convert q := by
  rw [convert_integral number integral] at made
  rw [convert_integral (integer_of_ofInteger made holds) narrow, convert_integral number narrow]

theorem convert_self (typed : v.primitive? = some p) : v.convert p = some v := by
  cases v <;> simp only [primitive?, Option.some.injEq, reduceCtorEq] at typed
  all_goals subst typed
  case bool | float | double => rfl
  all_goals exact (convert_integral rfl rfl).trans (ofInteger?_of_integer rfl rfl)

/-- A conversion to a type that holds the number is to a constant for the same number. -/
theorem integer_of_convert (made : v.convert p = some w) (number : v.integer? = some i)
    (integral : p.isIntegral) (holds : p.Holds i) :
    w.primitive? = some p ∧ w.integer? = some i := by
  rw [convert_integral number integral] at made
  obtain ⟨u, again, typed⟩ := exists_ofInteger integral i
  obtain rfl : u = w := Option.some.inj (again.symm.trans made)
  exact ⟨typed, integer_of_ofInteger made holds⟩

theorem reference_ofInteger (i : Int) (p : Primitive) : Reference.ofInteger? i p = ofInteger? i p := by
  cases p with
  | char => rfl
  | byte => exact ofInteger?_congr (p := .byte) (Int.bmod_emod (m := 256))
  | short => exact ofInteger?_congr (p := .short) (Int.bmod_emod (m := 65536))
  | int => exact ofInteger?_congr (p := .int) (Int.bmod_emod (m := 4294967296))
  | long => exact ofInteger?_congr (p := .long) (Int.bmod_emod (m := 18446744073709551616))
  | boolean | float | double => rfl

theorem reference_integer (number : v.integer? = some i) :
    ∃ width, Reference.integer? v = some (i, width) := by
  cases v <;> simp only [integer?, Option.some.injEq, reduceCtorEq] at number
  all_goals subst number
  all_goals exact ⟨_, rfl⟩

/-- There is a conversion between exact types of one kind, and the reference performs it. -/
theorem convert_exact (typed : v.primitive? = some p) (casts : p.casts q) :
    ∃ w, v.convert q = some w ∧ Reference.cast v q = some w ∧ w.primitive? = some q := by
  simp only [Primitive.casts, Bool.or_eq_true, Bool.and_eq_true, decide_eq_true_eq] at casts
  rcases casts with ⟨rfl, rfl⟩ | ⟨integral, target⟩
  · obtain ⟨b, rfl⟩ := exists_bool typed
    exact ⟨.bool b, rfl, rfl, rfl⟩
  · obtain ⟨i, number⟩ := exists_integer typed integral
    obtain ⟨w, made, result⟩ := exists_ofInteger target i
    refine ⟨w, (convert_integral number target).trans made, ?_, result⟩
    rw [← made, ← reference_ofInteger]
    cases v <;> simp only [integer?, Option.some.injEq, reduceCtorEq] at number
    all_goals subst number
    all_goals cases q <;> first | contradiction | rfl

end Value

end ConstFold
