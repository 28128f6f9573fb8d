import ConstFold.Ty
import Mathlib.Data.List.Basic
import Mathlib.Logic.Relation

/-! The order that subtyping gives to types. It is the least preorder with the null type below every
reference type, `Object` above every reference type, and each class below the reference types that it
lists. A class is below itself, below `Object`, and below what is above its supertypes, which are
smaller than the class; so two types that are subtypes of each other are the same, unless a class lists
the null type, which is below every reference type. -/
namespace ConstFold.Ty

variable {a b c t : Ty} {name : Name} {supertypes : List Ty}

/-- Induction over the supertypes of classes. -/
@[induction_eliminator]
theorem supertypeInduction {P : Ty → Prop} (primitive : ∀ p, P (.primitive p))
    (boxed : ∀ p, P (.boxed p)) (string : P .string) (null : P .null) (object : P .object)
    (classType : ∀ name supertypes, (∀ t ∈ supertypes, P t) → P (.classType name supertypes))
    (t : Ty) : P t :=
  @Ty.rec P (fun ts => ∀ t ∈ ts, P t) primitive boxed string null object classType
    (List.forall_mem_nil P) (fun _ _ first others => List.forall_mem_cons.mpr ⟨first, others⟩) t

theorem anySubtype_iff {ts : List Ty} : anySubtype ts b ↔ ∃ t ∈ ts, t.isSubtype b := by
  induction ts with
  | nil => simp [anySubtype]
  | cons t rest ih => simp [anySubtype, ih]

theorem isSubtype_classType_iff :
    (classType name supertypes).isSubtype b ↔
      b = .classType name supertypes ∨ b = .object ∨
        b.isPrimitive = false ∧ ∃ t ∈ supertypes, t.isSubtype b := by
  simp [isSubtype, anySubtype_iff, or_assoc]

theorem eq_object_of_isSubtype (below : object.isSubtype b) : b = .object := by
  simpa [isSubtype] using below

/-! Reflexivity and transitivity. -/

/-- The supertypes that a class lists; other types list none. -/
def listed : Ty → List Ty
  | .classType _ supertypes => supertypes
  | .primitive _ | .boxed _ | .string | .null | .object => []

/-- Induction up the hierarchy. -/
theorem listedInduction {P : Ty → Prop} (step : ∀ a, (∀ t ∈ a.listed, P t) → P a) (a : Ty) :
    P a := by
  induction a with
  | classType name supertypes ih => exact step (.classType name supertypes) ih
  | primitive | boxed | string | null | object => exact step _ (List.forall_mem_nil P)

/-- A type is below itself; between reference types there are three more ways up. -/
theorem isSubtype_iff :
    a.isSubtype b ↔ b = a ∨ a.isPrimitive = false ∧ b.isPrimitive = false ∧
      (a = .null ∨ b = .object ∨ ∃ t ∈ a.listed, t.isSubtype b) := by
  cases a with
  | classType name supertypes =>
    rw [isSubtype_classType_iff]
    by_cases top : b = .object <;> simp [top, isPrimitive, listed]
  | null =>
    by_cases same : b = .null <;> simp [same, isSubtype, isPrimitive]
  | primitive | boxed | string | object =>
    by_cases top : b = .object <;> simp [top, isSubtype, isPrimitive, listed]

/-- Subtyping never leads from a primitive type to a reference type or back. -/
theorem isPrimitive_of_isSubtype (below : a.isSubtype b) : b.isPrimitive = a.isPrimitive := by
  rcases isSubtype_iff.mp below with rfl | ⟨lower, upper, -⟩
  · rfl
  · rw [lower, upper]

theorem isSubtype_refl (a : Ty) : a.isSubtype a := isSubtype_iff.mpr (.inl rfl)

theorem isSubtype_trans (below : a.isSubtype b) (above : b.isSubtype c) : a.isSubtype c := by
  induction a using listedInduction with
  | step a ih =>
    rcases isSubtype_iff.mp below with rfl | ⟨lower, upper, way⟩
    · exact above
    have reference : c.isPrimitive = false := (isPrimitive_of_isSubtype above).trans upper
    refine isSubtype_iff.mpr (.inr ⟨lower, reference, ?_⟩)
    rcases way with null | rfl | ⟨t, member, reaches⟩
    · exact .inl null
    · exact .inr (.inl (eq_object_of_isSubtype above))
    · exact .inr (.inr ⟨t, member, ih t member reaches⟩)

/-- One step up the hierarchy of reference types. -/
inductive IsDirectSubtype : Ty → Ty → Prop
  | null {t : Ty} (reference : t.isPrimitive = false) : IsDirectSubtype .null t
  | object {t : Ty} (reference : t.isPrimitive = false) : IsDirectSubtype t .object
  | listed {name : Name} {supertypes : List Ty} {t : Ty} (member : t ∈ supertypes)
      (reference : t.isPrimitive = false) : IsDirectSubtype (.classType name supertypes) t

theorem IsDirectSubtype.isSubtype (step : IsDirectSubtype a b) : a.isSubtype b := by
  cases step with
  | null reference => exact isSubtype_iff.mpr (.inr ⟨rfl, reference, .inl rfl⟩)
  | object reference => exact isSubtype_iff.mpr (.inr ⟨reference, rfl, .inr (.inl rfl)⟩)
  | listed member reference =>
    exact isSubtype_iff.mpr (.inr ⟨rfl, reference, .inr (.inr ⟨b, member, isSubtype_refl b⟩)⟩)

theorem IsDirectSubtype.of_mem_listed (member : t ∈ a.listed) (reference : t.isPrimitive = false) :
    IsDirectSubtype a t := by
  cases a with
  | classType name supertypes => exact .listed member reference
  | primitive | boxed | string | null | object => cases member

theorem reaches_of_isSubtype (below : a.isSubtype b) : Relation.ReflTransGen IsDirectSubtype a b := by
  induction a using listedInduction with
  | step a ih =>
    rcases isSubtype_iff.mp below with rfl | ⟨lower, upper, rfl | rfl | ⟨t, member, reaches⟩⟩
    · exact .refl
    · exact .single (.null upper)
    · exact .single (.object lower)
    · have reference := (isPrimitive_of_isSubtype reaches).symm.trans upper
      exact .head (.of_mem_listed member reference) (ih t member reaches)

theorem isSubtype_of_reaches (path : Relation.ReflTransGen IsDirectSubtype a b) : a.isSubtype b := by
  induction path with
  | refl => exact isSubtype_refl a
  | tail _ step below => exact isSubtype_trans below step.isSubtype

/-- Subtyping is reflexive and transitive whatever the classes list, and relates no more types than
this and the steps of the hierarchy ask for. -/
theorem isSubtype_preorder (a b c : Ty) :
    a.isSubtype a ∧ (a.isSubtype b → b.isSubtype c → a.isSubtype c) ∧
      (a.isSubtype b ↔ Relation.ReflTransGen IsDirectSubtype a b) :=
  ⟨isSubtype_refl a, isSubtype_trans, reaches_of_isSubtype, isSubtype_of_reaches⟩

/-- A class that lists the null type is below every reference type, and so is one that lists this
class, however often and beside whatever else. -/
theorem isSubtype_preorder_null :
    let bottom : Ty := .classType ⟨0⟩ [.null]
    let heir : Ty := .classType ⟨1⟩ [.int, bottom, bottom]
    heir.isSubtype bottom ∧ bottom.isSubtype .string ∧ heir.isSubtype .string := by
  intro bottom heir
  have first : heir.isSubtype bottom := by decide
  have second : bottom.isSubtype .string := by decide
  exact ⟨first, second, (isSubtype_preorder heir bottom .string).2.1 first second⟩

/-! Antisymmetry. -/

mutual

/-- No class in the type, at any depth, lists the null type among its supertypes. -/
def isProper : Ty → Bool
  | .classType _ supertypes => areProperSupertypes supertypes
  | .primitive _ | .boxed _ | .string | .null | .object => true

def areProperSupertypes : List Ty → Bool
  | [] => true
  | t :: rest => t ≠ .null && t.isProper && areProperSupertypes rest

end

theorem areProperSupertypes_iff {ts : List Ty} :
    areProperSupertypes ts ↔ ∀ t ∈ ts, t ≠ .null ∧ t.isProper := by
  induction ts with
  | nil => simp [areProperSupertypes]
  | cons t rest ih => simp [areProperSupertypes, ih]

theorem isProper_classType_iff :
    (classType name supertypes).isProper ↔ ∀ t ∈ supertypes, t ≠ .null ∧ t.isProper := by
  rw [isProper, areProperSupertypes_iff]

theorem isProper_of_isPrimitive (isPrimitive : t.isPrimitive) : t.isProper := by
  cases t with
  | primitive p => rfl
  | boxed | string | null | object | classType => cases isPrimitive

theorem isProper_unbox (proper : t.isProper) : t.unbox.isProper := by
  cases t with
  | boxed p => rfl
  | primitive | string | null | object | classType => exact proper

theorem sizeOf_lt_classType (listed : t ∈ supertypes) :
    sizeOf t < sizeOf (classType name supertypes) := by
  have smaller := List.sizeOf_lt_of_mem listed
  rw [classType.sizeOf_spec]
  omega

/-- From a proper type other than the null type, subtyping leads to the type itself, to `Object`, or
to a smaller type, and never to the null type. -/
theorem isSubtype_descends (proper : a.isProper) (notNull : a ≠ .null) (below : a.isSubtype b) :
    b ≠ .null ∧ (b = a ∨ b = .object ∨ sizeOf b < sizeOf a) := by
  induction a with
  | primitive p =>
    have same : b = .primitive p := by simpa [isSubtype] using below
    subst same
    exact ⟨notNull, .inl rfl⟩
  | boxed p =>
    have above : b = .boxed p ∨ b = .object := by simpa [isSubtype] using below
    refine ⟨?_, above.imp_right .inl⟩
    rintro rfl
    simp at above
  | string =>
    have above : b = .string ∨ b = .object := by simpa [isSubtype] using below
    refine ⟨?_, above.imp_right .inl⟩
    rintro rfl
    simp at above
  | null => contradiction
  | object =>
    have same : b = .object := by simpa [isSubtype] using below
    subst same
    exact ⟨notNull, .inl rfl⟩
  | classType name supertypes ih =>
    rcases isSubtype_classType_iff.mp below with rfl | rfl | ⟨-, t, listed, below⟩
    · exact ⟨notNull, .inl rfl⟩
    · exact ⟨by simp, .inr (.inl rfl)⟩
    · obtain ⟨notNull, proper⟩ := isProper_classType_iff.mp proper t listed
      obtain ⟨reached, same | top | smaller⟩ := ih t listed proper notNull below
      · subst same
        exact ⟨reached, .inr (.inr (sizeOf_lt_classType listed))⟩
      · exact ⟨reached, .inr (.inl top)⟩
      · exact ⟨reached, .inr (.inr (Nat.lt_trans smaller (sizeOf_lt_classType listed)))⟩

/-- Subtyping of proper types is antisymmetric. -/
theorem isSubtype_antisymm (left : a.isProper) (right : b.isProper) (below : a.isSubtype b)
    (above : b.isSubtype a) : a = b := by
  by_cases leftNull : a = .null
  · subst leftNull
    by_contra other
    exact (isSubtype_descends right (Ne.symm other) above).1 rfl
  by_cases rightNull : b = .null
  · subst rightNull
    exact absurd rfl (isSubtype_descends left leftNull below).1
  obtain ⟨-, same | top | smaller⟩ := isSubtype_descends left leftNull below
  · exact same.symm
  · subst top
    exact eq_object_of_isSubtype above
  obtain ⟨-, same | top | larger⟩ := isSubtype_descends right rightNull above
  · exact same
  · subst top
    exact (eq_object_of_isSubtype below).symm
  · omega

end ConstFold.Ty
