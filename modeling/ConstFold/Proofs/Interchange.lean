import ConstFold.Interchange.Decode
import ConstFold.Proofs.JsonLibrary
import ConstFold.Proofs.Traversal

/-! Expressions and declarations survive interchange through any library that behaves as documented.
Each reader undoes its writer as long as there is room for the nesting of the JSON, and fails if there
is not. -/
namespace ConstFold

open ConstFold.Json ConstFold.Library

theorem Json.depth_tagged (tag : String) (payload : Json) :
    (tagged tag payload).depth = payload.depth + 1 := by
  simp only [tagged, depth, depthMembers, Nat.max_zero]

theorem Primitive.ofTag?_tag (p : Primitive) : Primitive.ofTag? p.tag = some p := by
  cases p <;> rfl

theorem UnaryOp.ofTag?_tag (op : UnaryOp) : UnaryOp.ofTag? op.tag = some op := by
  cases op <;> rfl

theorem BinaryOp.ofTag?_tag (op : BinaryOp) : BinaryOp.ofTag? op.tag = some op := by
  cases op <;> rfl

theorem Ty.listToJson_eq (ts : List Ty) : listToJson ts = ts.map toJson := by
  induction ts with
  | nil => rfl
  | cons t rest ih => rw [listToJson, ih, List.map_cons]

theorem Expr.listToJson_eq (args : List Expr) : listToJson args = args.map toJson := by
  induction args with
  | nil => rfl
  | cons e rest ih => rw [listToJson, ih, List.map_cons]

theorem Ty.optionToJson_eq (t : Option Ty) : optionToJson t = t.elim .null toJson := by
  cases t <;> rfl

/-- The constant is a floating-point number. -/
def Value.isFloating : Value → Bool
  | float _ | double _ => true
  | _ => false

/-- A literal that is a floating-point number. -/
def Expr.isFloating : Expr → Bool
  | literal v _ => v.isFloating
  | _ => false

/-- No literal in the expression is a floating-point number. -/
def Expr.IsFloatFree (e : Expr) : Prop := e.Everywhere fun x => x.isFloating = false

/-- The initializer has no floating-point literals. -/
def Declaration.IsFloatFree (decl : Declaration) : Prop :=
  ∀ e ∈ decl.initializer, e.IsFloatFree

/-- No declaration has a floating-point literal in its initializer. -/
def DeclTable.IsFloatFree (table : DeclTable) : Prop :=
  ∀ decl ∈ table.decls, decl.IsFloatFree

section Readers

variable {lib : Library} {Shows : lib.Node → Json → Prop} (documented : lib.IsDocumented Shows)

include documented

theorem Name.decodes (name : Name) : lib.Decodes Shows (Name.ofNode? lib) name.toJson name := by
  obtain ⟨index, bound⟩ := name
  apply decodes_scalar rfl
  intro node shown
  have read : lib.integer? 1 4294967295 node = some ((index + 1 : Nat) : Int) :=
    documented.integer shown (by omega) (by omega) (by decide) (by decide)
  have same : (UInt32.ofNat index).toNat = index := UInt32.toNat_ofNat_of_lt' (by
    have : UInt32.size = 4294967296 := rfl
    omega)
  rw [Name.ofNode?, read, Option.map_some, Int.toNat_natCast, Nat.add_sub_cancel, Name.ofIndex]
  simp only [same, bound, dif_pos]

theorem VarId.decodes (id : VarId) : lib.Decodes Shows (VarId.ofNode? lib) id.toJson id := by
  have bound := id.index.toNat_lt
  apply decodes_scalar rfl
  intro node shown
  have read : lib.integer? 0 4294967295 node = some (id.index.toNat : Int) :=
    documented.integer shown (by omega) (by omega) (by decide) (by decide)
  rw [VarId.ofNode?, read, Option.map_some, Int.toNat_natCast, UInt32.ofNat_toNat]

/-! Constants. -/

omit documented in
theorem Value.ofNode?_eq {node : lib.Node} {tag : String} {payload : Option (lib.Part node)}
    (found : lib.case? node = some (tag, payload)) :
    Value.ofNode? lib node = Value.ofCase? lib tag payload := by
  rw [Value.ofNode?, found]
  rfl

/-- A constant with a scalar payload. -/
theorem Value.decodes_payload {tag : String} {payload : Json} {v : Value} (scalar : payload.depth = 0)
    (read : ∀ (node : lib.Node) (part : lib.Part node), Shows part.val payload →
      Value.ofCase? lib tag (some part) = some v) :
    lib.Decodes Shows (Value.ofNode? lib) (.tagged tag payload) v := by
  apply documented.decodes_payload
  · intro node none
    rw [Value.ofNode?, none]
    rfl
  · intro room node part found inside
    rw [scalar, if_pos (Nat.zero_le room), Value.ofNode?_eq found]
    exact read node part inside.1

/-- A constant that is an integer from `low` up to and including `high`. -/
theorem Value.decodes_integer (make : Int → Value) (tag : String) (low high : Int) {i : Int}
    (lower : low ≤ i) (upper : i ≤ high)
    (wide : -9223372036854775808 ≤ low ∧ high < 18446744073709551616)
    (read : ∀ (node : lib.Node) (part : lib.Part node),
      Value.ofCase? lib tag (some part) = (lib.integer? low high part.val).map make) :
    lib.Decodes Shows (Value.ofNode? lib) (.tagged tag (.ofInt i)) (make i) := by
  apply Value.decodes_payload documented rfl
  intro node part shown
  rw [read node part, documented.integer shown lower upper wide.1 wide.2, Option.map_some]

theorem Value.decodes {v : Value} (exact : v.isFloating = false) :
    lib.Decodes Shows (Value.ofNode? lib) v.toJson v := by
  cases v with
  | null =>
    apply decodes_scalar rfl
    intro node shown
    exact Value.ofNode?_eq (documented.tag shown)
  | bool b =>
    apply decodes_payload documented rfl
    intro node part shown
    exact congrArg (Option.map Value.bool) (documented.bool shown)
  | string s =>
    apply decodes_payload documented rfl
    intro node part shown
    exact congrArg (Option.map Value.string) (documented.string shown)
  | char u =>
    have bound := u.toNat_lt
    have decoded := decodes_integer documented (fun i => .char (UInt16.ofNat i.toNat)) "Char" 0 65535
      (Int.natCast_nonneg u.toNat) (by omega) (by decide) fun _ _ => rfl
    rwa [Int.toNat_natCast, UInt16.ofNat_toNat] at decoded
  | byte i =>
    have bound := i.toInt_lt
    have decoded := decodes_integer documented (fun i => .byte (Int8.ofInt i)) "Byte" (-128) 127
      i.le_toInt (by omega) (by decide) fun _ _ => rfl
    rwa [Int8.ofInt_toInt] at decoded
  | short i =>
    have bound := i.toInt_lt
    have decoded := decodes_integer documented (fun i => .short (Int16.ofInt i)) "Short" (-32768) 32767
      i.le_toInt (by omega) (by decide) fun _ _ => rfl
    rwa [Int16.ofInt_toInt] at decoded
  | int i =>
    have bound := i.toInt_lt
    have decoded := decodes_integer documented (fun i => .int (Int32.ofInt i)) "Int" (-2147483648)
      2147483647 i.le_toInt (by omega) (by decide) fun _ _ => rfl
    rwa [Int32.ofInt_toInt] at decoded
  | long i =>
    have bound := i.toInt_lt
    have decoded := decodes_integer documented (fun i => .long (Int64.ofInt i)) "Long"
      (-9223372036854775808) 9223372036854775807 i.le_toInt (by omega) (by decide) fun _ _ => rfl
    rwa [Int64.ofInt_toInt] at decoded
  | float | double => cases exact

/-! Types. -/

namespace Ty

omit documented in
theorem ofNode?_eq_none {node : lib.Node} (absent : lib.case? node = none) :
    Ty.ofNode? lib node = none := by
  rw [Ty.ofNode?, absent]
  rfl

/-- A primitive type or its wrapper. -/
theorem decodes_primitive (make : Primitive → Ty) (tag : String) (p : Primitive)
    (read : ∀ (node : lib.Node) part, lib.case? node = some (tag, some part) →
      Ty.ofNode? lib node = (lib.plain? Primitive.ofTag? part.val).map make) :
    lib.Decodes Shows (Ty.ofNode? lib) (.tagged tag (.string p.tag)) (make p) := by
  apply documented.decodes_payload fun node absent => ofNode?_eq_none absent
  intro room node part found inside
  rw [read node part found, documented.bareCase _ inside.1, p.ofTag?_tag, Option.map_some, depth,
    if_pos (Nat.zero_le room)]

/-- A class is read if its supertypes are. -/
theorem decodes_classType (name : Name) {supertypes : List Ty}
    (each : ∀ t ∈ supertypes, lib.Decodes Shows (Ty.ofNode? lib) t.toJson t) :
    lib.Decodes Shows (Ty.ofNode? lib) (classType name supertypes).toJson (classType name supertypes) := by
  rw [toJson, listToJson_eq]
  apply documented.decodes_payload fun node absent => ofNode?_eq_none absent
  intro room node part found inside
  rw [Ty.ofNode?, found, depth]
  simp only [Option.bind_eq_bind, Option.bind_some]
  cases room with
  | zero =>
    rw [documented.noFields _ inside]
    rfl
  | succ room =>
    obtain ⟨parts, fields, shown⟩ := documented.fields inside (by simp)
    obtain _ | ⟨nameShown, _ | ⟨supertypesShown, ⟨⟩⟩⟩ := shown
    simp only [List.map_cons, List.map_nil] at fields
    simp only [fields, (Name.decodes documented name).of_scalar rfl nameShown, Option.bind_some,
      documented.decodes_list each room _ supertypesShown, guarded_bind]
    refine if_congr ?_ rfl rfl
    simp [depth, depthMembers, Name.toJson, ofInt]

end Ty

end Readers

mutual

theorem Ty.decodes {lib : Library} {Shows : lib.Node → Json → Prop}
    (documented : lib.IsDocumented Shows) : ∀ t : Ty, lib.Decodes Shows (Ty.ofNode? lib) t.toJson t
  | .primitive p => by
    apply Ty.decodes_primitive documented .primitive "Primitive"
    intro node part found
    rw [Ty.ofNode?, found]
    rfl
  | .boxed p => by
    apply Ty.decodes_primitive documented .boxed "Boxed"
    intro node part found
    rw [Ty.ofNode?, found]
    rfl
  | .string | .null | .object => by
    apply decodes_scalar rfl
    intro node shown
    rw [Ty.ofNode?, documented.tag shown]
    rfl
  | .classType name supertypes =>
    Ty.decodes_classType documented name (Ty.decodesAll documented supertypes)

theorem Ty.decodesAll {lib : Library} {Shows : lib.Node → Json → Prop}
    (documented : lib.IsDocumented Shows) :
    ∀ ts : List Ty, ∀ t ∈ ts, lib.Decodes Shows (Ty.ofNode? lib) t.toJson t
  | [] => List.forall_mem_nil _
  | t :: rest => List.forall_mem_cons.mpr ⟨Ty.decodes documented t, Ty.decodesAll documented rest⟩

end

theorem Ty.toJson_ne_null (t : Ty) : t.toJson ≠ .null := by
  cases t <;> rw [toJson] <;> exact Json.noConfusion

theorem Expr.toJson_ne_null (e : Expr) : e.toJson ≠ .null := by
  cases e <;> rw [toJson] <;> exact Json.noConfusion

/-- The nesting of the static type and the casts of a node, below the node. -/
def Static.depth (s : Static) : Nat :=
  max (Ty.optionToJson s.ty).depth (Json.array (s.casts.map Cast.toJson)).depth

theorem Expr.depth_nodeToJson (kind : Json) (s : Static) :
    (nodeToJson kind s).depth = max kind.depth s.depth + 1 := by
  simp only [nodeToJson, depth, depthMembers, Static.depth, Nat.max_zero]

/-! Nodes. -/

/-- A node is opened: its static type and casts are read, and the case it is, down to the payload. -/
def Expr.Opens (lib : Library) (node payload : lib.Node) (tag : String) (s : Static) : Prop :=
  ∃ kind ty casts, ∃ part : lib.Part kind.val,
    lib.fields? ["kind", "ty", "casts"] node = some [some kind, ty, casts] ∧
      Static.ofParts? lib ty casts = some s ∧ lib.case? kind.val = some (tag, some part) ∧
      part.val = payload

namespace Expr

variable {lib : Library} {node payload : lib.Node} {s : Static}

theorem ofNode?_literal (opens : Opens lib node payload "Literal" s) :
    Expr.ofNode? lib node = (Value.ofNode? lib payload).map (literal · s) := by
  obtain ⟨kind, ty, casts, part, fields, static, case, rfl⟩ := opens
  rw [Expr.ofNode?]
  simp only [fields, static, case, Option.bind_eq_bind, Option.bind_some]

theorem ofNode?_typeRef (opens : Opens lib node payload "TypeAccess" s) :
    Expr.ofNode? lib node = (Ty.ofNode? lib payload).map (typeRef · s) := by
  obtain ⟨kind, ty, casts, part, fields, static, case, rfl⟩ := opens
  rw [Expr.ofNode?]
  simp only [fields, static, case, Option.bind_eq_bind, Option.bind_some]

theorem ofNode?_unary {op x : lib.Part payload} (opens : Opens lib node payload "Unary" s)
    (found : lib.fields? ["op", "operand"] payload = some [some op, some x]) :
    Expr.ofNode? lib node = (lib.plain? UnaryOp.ofTag? op.val).bind fun op =>
      (Expr.ofNode? lib x.val).bind fun x => some (unary op x s) := by
  obtain ⟨kind, ty, casts, part, fields, static, case, rfl⟩ := opens
  rw [Expr.ofNode?]
  simp only [fields, static, case, found, Option.bind_eq_bind, Option.bind_some]

theorem ofNode?_binary {op l r : lib.Part payload} (opens : Opens lib node payload "Binary" s)
    (found : lib.fields? ["op", "lhs", "rhs"] payload = some [some op, some l, some r]) :
    Expr.ofNode? lib node = (lib.plain? BinaryOp.ofTag? op.val).bind fun op =>
      (Expr.ofNode? lib l.val).bind fun l => (Expr.ofNode? lib r.val).bind fun r =>
        some (binary op l r s) := by
  obtain ⟨kind, ty, casts, part, fields, static, case, rfl⟩ := opens
  rw [Expr.ofNode?]
  simp only [fields, static, case, found, Option.bind_eq_bind, Option.bind_some]

theorem ofNode?_read {id name : lib.Part payload} (opens : Opens lib node payload "VariableRead" s)
    (found : lib.fields? ["var", "name"] payload = some [some id, some name]) :
    Expr.ofNode? lib node = (VarId.ofNode? lib id.val).bind fun id =>
      (Name.ofNode? lib name.val).bind fun name => some (read id name s) := by
  obtain ⟨kind, ty, casts, part, fields, static, case, rfl⟩ := opens
  rw [Expr.ofNode?]
  simp only [fields, static, case, found, Option.bind_eq_bind, Option.bind_some]

theorem ofNode?_call {name args : lib.Part payload} (opens : Opens lib node payload "Invocation" s)
    (found : lib.fields? ["name", "args"] payload = some [some name, some args]) :
    Expr.ofNode? lib node = (Name.ofNode? lib name.val).bind fun name =>
      (lib.list? args.val fun item => Expr.ofNode? lib item.val).bind fun args =>
        some (call name args s) := by
  obtain ⟨kind, ty, casts, part, fields, static, case, rfl⟩ := opens
  rw [Expr.ofNode?]
  simp only [fields, static, case, found, Option.bind_eq_bind, Option.bind_some]

/-- The cases whose payload is a structure. -/
def recordTags : List String := ["Unary", "Binary", "VariableRead", "Invocation"]

theorem ofNode?_refused {tag : String} (record : tag ∈ recordTags) (opens : Opens lib node payload tag s)
    (refused : ∀ names, lib.fields? names payload = none) : Expr.ofNode? lib node = none := by
  obtain ⟨kind, ty, casts, part, fields, static, case, rfl⟩ := opens
  rw [Expr.ofNode?]
  simp only [recordTags, List.mem_cons, List.not_mem_nil, or_false] at record
  rcases record with rfl | rfl | rfl | rfl <;>
    simp only [fields, static, case, refused, Option.bind_eq_bind, Option.bind_some]

end Expr

section Nodes

variable {lib : Library} {Shows : lib.Node → Json → Prop} (documented : lib.IsDocumented Shows)

include documented

theorem Cast.decodes (cast : Cast) : lib.Decodes Shows (Cast.ofNode? lib) cast.toJson cast := by
  apply documented.decodes_fields (by simp)
  · intro node absent
    simp only [List.map_cons, List.map_nil] at absent
    rw [Cast.ofNode?]
    simp only [absent]
  · intro room node parts found shown
    obtain _ | ⟨targetShown, _ | ⟨implicitShown, ⟨⟩⟩⟩ := shown
    simp only [List.map_cons, List.map_nil] at found
    rw [Cast.ofNode?]
    simp only [found, Ty.decodes documented cast.target room _ targetShown, Option.bind_eq_bind,
      Option.bind_some, documented.bool implicitShown.1, guarded_bind]
    refine if_congr ?_ rfl rfl
    simp [depth, depthMembers]

theorem Static.ofParts?_eq {room : Nat} {node : lib.Node} {ty casts : lib.Part node} {s : Static}
    (tyShown : lib.ShowsAt Shows room ty.val (Ty.optionToJson s.ty))
    (castsShown : lib.ShowsAt Shows room casts.val (.array (s.casts.map Cast.toJson))) :
    Static.ofParts? lib (some ty) (some casts) = if s.depth ≤ room then some s else none := by
  rw [Ty.optionToJson_eq] at tyShown
  have tyRead := documented.decodes_optional
    (fun t _ => ⟨Ty.decodes documented t, t.toJson_ne_null⟩) tyShown
  have castsRead := documented.decodes_list (fun cast _ => Cast.decodes documented cast) room casts.val
    castsShown
  rw [Static.ofParts?]
  simp only [tyRead, castsRead, Option.bind_eq_bind, guarded_bind]
  apply guarded_guarded
  rw [Static.depth, Ty.optionToJson_eq]
  exact Nat.max_le

namespace Expr

/-- A node is read if its static type and its payload are. -/
theorem decodes_node {tag : String} {payload : Json} {s : Static} {e : Expr}
    (read : ∀ room node part, Opens lib node part tag s → lib.ShowsAt Shows room part payload →
      Expr.ofNode? lib node = if payload.depth ≤ room then some e else none) :
    lib.Decodes Shows (Expr.ofNode? lib) (nodeToJson (.tagged tag payload) s) e := by
  apply documented.decodes_fields (by simp)
  · intro node absent
    simp only [List.map_cons, List.map_nil] at absent
    rw [Expr.ofNode?]
    simp only [absent]
  · intro room node parts found shown
    obtain _ | ⟨kindShown, _ | ⟨tyShown, _ | ⟨castsShown, ⟨⟩⟩⟩⟩ := shown
    simp only [List.map_cons, List.map_nil] at found
    have static := Static.ofParts?_eq documented tyShown castsShown
    have nested := depth_nodeToJson (.tagged tag payload) s
    rw [depth_tagged, nodeToJson, depth] at nested
    by_cases fits : s.depth ≤ room
    · rw [if_pos fits] at static
      obtain ⟨room, rfl⟩ : ∃ less, room = less + 1 := by
        simp only [Static.depth, depth] at fits
        exact ⟨room - 1, by omega⟩
      obtain ⟨part, case, inside⟩ := documented.payload kindShown
      rw [read room node part.val ⟨_, _, _, part, found, static, case, rfl⟩ inside]
      exact if_congr (by omega) rfl rfl
    · rw [if_neg fits] at static
      rw [Expr.ofNode?]
      simp only [found, static, Option.bind_eq_bind, Option.bind_none]
      rw [if_neg (by omega)]

/-- A node whose payload is a structure is read from the fields of that. -/
theorem decodes_record {tag : String} {members : List (String × Json)} {s : Static} {e : Expr}
    (record : tag ∈ recordTags) (distinct : (members.map Prod.fst).Nodup)
    (read : ∀ room node part (parts : List (lib.Part part)), Opens lib node part tag s →
      lib.fields? (members.map Prod.fst) part = some (parts.map some) →
      List.Forall₂ (fun part member => lib.ShowsAt Shows room part.val member.2) parts members →
      Expr.ofNode? lib node = if depthMembers members ≤ room then some e else none) :
    lib.Decodes Shows (Expr.ofNode? lib) (nodeToJson (.tagged tag (.object members)) s) e := by
  apply decodes_node documented
  intro room node part opens inside
  rw [depth]
  cases room with
  | zero =>
    rw [if_neg (by omega)]
    exact ofNode?_refused record opens fun names => documented.noFields names inside
  | succ room =>
    obtain ⟨parts, found, shown⟩ := documented.fields inside distinct
    rw [read room node part parts opens found shown]
    exact if_congr (by omega) rfl rfl

variable {x l r : Expr} {s : Static}

theorem decodes_read (id : VarId) (name : Name) :
    lib.Decodes Shows (Expr.ofNode? lib) (read id name s).toJson (read id name s) := by
  apply decodes_record documented (by simp [recordTags]) (by simp)
  intro room node part parts opens found shown
  obtain _ | ⟨idShown, _ | ⟨nameShown, ⟨⟩⟩⟩ := shown
  rw [ofNode?_read opens found, (VarId.decodes documented id).of_scalar rfl idShown,
    (Name.decodes documented name).of_scalar rfl nameShown,
    if_pos (by simp [depth, depthMembers, VarId.toJson, Name.toJson, ofInt])]
  rfl

theorem decodes_unary (op : UnaryOp) (operand : lib.Decodes Shows (Expr.ofNode? lib) x.toJson x) :
    lib.Decodes Shows (Expr.ofNode? lib) (unary op x s).toJson (unary op x s) := by
  apply decodes_record documented (by simp [recordTags]) (by simp)
  intro room node part parts opens found shown
  obtain _ | ⟨opShown, _ | ⟨operandShown, ⟨⟩⟩⟩ := shown
  rw [ofNode?_unary opens found, documented.bareCase _ opShown.1, op.ofTag?_tag, Option.bind_some,
    operand room _ operandShown, guarded_bind]
  refine if_congr ?_ rfl rfl
  simp [depth, depthMembers]

theorem decodes_binary (op : BinaryOp) (left : lib.Decodes Shows (Expr.ofNode? lib) l.toJson l)
    (right : lib.Decodes Shows (Expr.ofNode? lib) r.toJson r) :
    lib.Decodes Shows (Expr.ofNode? lib) (binary op l r s).toJson (binary op l r s) := by
  apply decodes_record documented (by simp [recordTags]) (by simp)
  intro room node part parts opens found shown
  obtain _ | ⟨opShown, _ | ⟨leftShown, _ | ⟨rightShown, ⟨⟩⟩⟩⟩ := shown
  rw [ofNode?_binary opens found, documented.bareCase _ opShown.1, op.ofTag?_tag, Option.bind_some,
    left room _ leftShown, right room _ rightShown, guarded_bind, guarded_bind]
  apply guarded_guarded
  simp only [depth, depthMembers]
  omega

theorem decodes_call (name : Name) {args : List Expr}
    (each : ∀ x ∈ args, lib.Decodes Shows (Expr.ofNode? lib) x.toJson x) :
    lib.Decodes Shows (Expr.ofNode? lib) (call name args s).toJson (call name args s) := by
  rw [toJson, listToJson_eq]
  apply decodes_record documented (by simp [recordTags]) (by simp)
  intro room node part parts opens found shown
  obtain _ | ⟨nameShown, _ | ⟨argsShown, ⟨⟩⟩⟩ := shown
  have argsRead := documented.decodes_list each room _ argsShown
  rw [ofNode?_call opens found, (Name.decodes documented name).of_scalar rfl nameShown]
  simp only [argsRead, Option.bind_some, guarded_bind]
  refine if_congr ?_ rfl rfl
  simp [depth, depthMembers, Name.toJson, ofInt]

theorem IsFloatFree.decodes {e : Expr} (floatFree : e.IsFloatFree) :
    lib.Decodes Shows (Expr.ofNode? lib) e.toJson e := by
  induction floatFree with
  | @literal v s node =>
    apply decodes_node documented
    intro room node' part opens inside
    rw [ofNode?_literal opens, Value.decodes documented node room part inside, guarded_map]
  | unary _ _ operand => exact decodes_unary documented _ operand
  | binary _ _ _ left right => exact decodes_binary documented _ left right
  | read => exact decodes_read documented _ _
  | call _ _ each => exact decodes_call documented _ each
  | @typeRef t s _ =>
    apply decodes_node documented
    intro room node part opens inside
    rw [ofNode?_typeRef opens, Ty.decodes documented t room part inside, guarded_map]

end Expr

/-! Declarations. -/

theorem DeclKind.decodes (kind : DeclKind) :
    lib.Decodes Shows (DeclKind.ofNode? lib) kind.toJson kind := by
  cases kind with
  | localVar | parameter =>
    apply decodes_scalar rfl
    intro node shown
    rw [DeclKind.ofNode?, documented.tag shown]
    rfl
  | field isStatic =>
    apply documented.decodes_payload
    · intro node absent
      rw [DeclKind.ofNode?, absent]
      rfl
    · intro room node part found inside
      rw [DeclKind.ofNode?, found, depth]
      simp only [Option.bind_eq_bind, Option.bind_some, DeclKind.ofCase?]
      cases room with
      | zero =>
        rw [documented.noFields _ inside]
        rfl
      | succ room =>
        obtain ⟨parts, fields, shown⟩ := documented.fields inside (by simp)
        obtain _ | ⟨staticShown, ⟨⟩⟩ := shown
        simp only [List.map_cons, List.map_nil] at fields
        simp only [fields, documented.bool staticShown.1, Option.map_some]
        rw [if_pos (by simp [depthMembers, depth])]

/-- A missing initializer is `null`. -/
theorem Declaration.IsFloatFree.decodes {decl : Declaration} (floatFree : decl.IsFloatFree) :
    lib.Decodes Shows (Declaration.ofNode? lib) decl.toJson decl := by
  have bound := decl.reassignments.toNat_lt
  apply documented.decodes_fields (by simp)
  · intro node absent
    simp only [List.map_cons, List.map_nil] at absent
    rw [Declaration.ofNode?]
    simp only [absent]
  · intro room node parts found shown
    obtain _ | ⟨nameShown, _ | ⟨tyShown, _ | ⟨kindShown, _ | ⟨finalShown, _ | ⟨countShown,
      _ | ⟨initialShown, ⟨⟩⟩⟩⟩⟩⟩⟩ := shown
    simp only [List.map_cons, List.map_nil] at found
    have count : lib.integer? 0 4294967295 _ = some (decl.reassignments.toNat : Int) :=
      documented.integer countShown.1 (by omega) (by omega) (by decide) (by decide)
    have initial := documented.decodes_optional
      (fun e member => ⟨(floatFree e member).decodes documented, e.toJson_ne_null⟩) initialShown
    rw [Declaration.ofNode?]
    -- Three of the fields can be too deep, each of them for a reader of its own.
    simp only [found, count, (Name.decodes documented decl.name).of_scalar rfl nameShown,
      Ty.decodes documented decl.ty room _ tyShown,
      DeclKind.decodes documented decl.kind room _ kindShown, documented.bool finalShown.1, initial,
      Option.bind_eq_bind, Option.bind_some, guarded_bind, Int.toNat_natCast, UInt32.ofNat_toNat]
    rw [← ite_and]
    apply guarded_guarded
    simp only [depth, depthMembers, Name.toJson, ofInt]
    omega

theorem DeclTable.IsFloatFree.decodes {table : DeclTable} (floatFree : table.IsFloatFree) :
    lib.Decodes Shows (DeclTable.ofNode? lib) table.toJson table := by
  apply documented.decodes_fields (by simp)
  · intro node absent
    simp only [List.map_cons, List.map_nil] at absent
    rw [DeclTable.ofNode?]
    simp only [absent]
  · intro room node parts found shown
    obtain _ | ⟨declsShown, ⟨⟩⟩ := shown
    simp only [List.map_cons, List.map_nil] at found
    rw [DeclTable.ofNode?]
    simp only [found, documented.decodes_list
      (fun decl member => (floatFree decl member).decodes documented) room _ declsShown,
      guarded_map]
    refine if_congr ?_ rfl rfl
    simp [depthMembers]

end Nodes

/-! What the writers produce can be read back. -/

namespace Json

/-- The digits of a number have no leading zero. -/
theorem toDigits_leading (n : Nat) (rest : List Char) (zero : Nat.toDigits 10 n = '0' :: rest) :
    rest = [] := by
  induction n using Nat.strongRecOn generalizing rest with
  | ind n ih =>
    rw [Nat.toDigits_eq_if (by decide)] at zero
    split at zero
    · exact (List.cons.inj zero).2.symm
    · rename_i large
      obtain ⟨d, ds, digits⟩ := List.exists_cons_of_ne_nil (Nat.toDigits_ne_nil (n := n / 10) (b := 10))
      rw [digits, List.cons_append, List.cons.injEq] at zero
      obtain ⟨rfl, -⟩ := zero
      cases ih (n / 10) (by omega) ds digits
      have value := natOfDigits_toDigits (n / 10)
      rw [digits] at value
      have small : n / 10 = 0 := value.symm
      omega

theorem isWellFormed_ofInt (i : Int) : (Numeral.ofInt i).IsWellFormed where
  nonempty := Nat.toDigits_ne_nil
  whole _ member := Nat.isDigit_of_mem_toDigits (by decide) (by decide) member
  zero := toDigits_leading i.natAbs
  fraction := nofun
  exponent := nofun

theorem isWritten_ofInt (i : Int) : (ofInt i).IsWritten := .number (isWellFormed_ofInt i)

theorem isWritten_fields {members : List (String × Json)}
    (each : (members.map Prod.snd).Forall IsWritten) : (object members).IsWritten := by
  apply IsWritten.object
  intro member present
  exact List.forall_iff_forall_mem.mp each _ (List.mem_map_of_mem present)

theorem isWritten_tagged (tag : String) {payload : Json} (written : payload.IsWritten) :
    (tagged tag payload).IsWritten := isWritten_fields written

theorem isWritten_map {α : Type} {encode : α → Json} {as : List α}
    (each : ∀ a ∈ as, (encode a).IsWritten) : (array (as.map encode)).IsWritten := by
  apply IsWritten.array
  intro item present
  obtain ⟨a, member, rfl⟩ := List.mem_map.mp present
  exact each a member

end Json

theorem Value.isWritten_toJson {v : Value} (exact : v.isFloating = false) : v.toJson.IsWritten := by
  cases v with
  | null => exact .string _
  | bool b => exact isWritten_tagged _ (.bool b)
  | string s => exact isWritten_tagged _ (.string s)
  | char | byte | short | int | long => exact isWritten_tagged _ (isWritten_ofInt _)
  | float | double => cases exact

mutual

theorem Ty.isWritten_toJson : ∀ t : Ty, t.toJson.IsWritten
  | .primitive p => isWritten_tagged _ (.string p.tag)
  | .boxed p => isWritten_tagged _ (.string p.tag)
  | .string | .null | .object => .string _
  | .classType name supertypes => by
    rw [Ty.toJson, Ty.listToJson_eq]
    apply isWritten_tagged
    exact isWritten_fields ⟨isWritten_ofInt _, isWritten_map (Ty.isWritten_toJson_all supertypes)⟩

theorem Ty.isWritten_toJson_all : ∀ ts : List Ty, ∀ t ∈ ts, t.toJson.IsWritten
  | [] => nofun
  | t :: rest => List.forall_mem_cons.mpr ⟨t.isWritten_toJson, Ty.isWritten_toJson_all rest⟩

end

theorem Ty.isWritten_optionToJson (t : Option Ty) : (Ty.optionToJson t).IsWritten := by
  cases t with
  | none => exact .null
  | some t => exact t.isWritten_toJson

theorem Cast.isWritten_toJson (cast : Cast) : cast.toJson.IsWritten :=
  isWritten_fields ⟨cast.target.isWritten_toJson, .bool _⟩

theorem Expr.isWritten_nodeToJson (tag : String) {payload : Json} (written : payload.IsWritten)
    (s : Static) : (nodeToJson (.tagged tag payload) s).IsWritten :=
  isWritten_fields ⟨isWritten_tagged tag written, Ty.isWritten_optionToJson s.ty,
    isWritten_map fun cast _ => cast.isWritten_toJson⟩

theorem Expr.IsFloatFree.isWritten {e : Expr} (floatFree : e.IsFloatFree) : e.toJson.IsWritten := by
  induction floatFree with
  | literal node => exact isWritten_nodeToJson _ (Value.isWritten_toJson node) _
  | unary _ _ operand =>
    apply isWritten_nodeToJson
    exact isWritten_fields ⟨.string _, operand⟩
  | binary _ _ _ left right =>
    apply isWritten_nodeToJson
    exact isWritten_fields ⟨.string _, left, right⟩
  | read =>
    apply isWritten_nodeToJson
    exact isWritten_fields ⟨isWritten_ofInt _, isWritten_ofInt _⟩
  | call _ _ each =>
    rw [Expr.toJson, Expr.listToJson_eq]
    apply isWritten_nodeToJson
    exact isWritten_fields ⟨isWritten_ofInt _, isWritten_map each⟩
  | typeRef => exact isWritten_nodeToJson _ (Ty.isWritten_toJson _) _

theorem DeclKind.isWritten_toJson (kind : DeclKind) : kind.toJson.IsWritten := by
  cases kind with
  | localVar | parameter => exact .string _
  | field isStatic => exact isWritten_tagged _ (isWritten_fields (.bool isStatic))

theorem Declaration.IsFloatFree.isWritten {decl : Declaration} (floatFree : decl.IsFloatFree) :
    decl.toJson.IsWritten := by
  have initial : (decl.initializer.elim .null Expr.toJson).IsWritten := by
    cases initialized : decl.initializer with
    | none => exact .null
    | some e => exact (floatFree e initialized).isWritten
  exact isWritten_fields ⟨isWritten_ofInt _, decl.ty.isWritten_toJson, decl.kind.isWritten_toJson,
    .bool _, isWritten_ofInt _, initial⟩

theorem DeclTable.IsFloatFree.isWritten {table : DeclTable} (floatFree : table.IsFloatFree) :
    table.toJson.IsWritten :=
  isWritten_fields (isWritten_map fun decl member => (floatFree decl member).isWritten)

/-- Without floating-point literals, expressions and declarations are read back as they were written,
through any library that behaves as documented, as long as their JSON nests no deeper than the library
allows; what is nested deeper is refused. -/
theorem interchange_round_trip {lib : Library} {Shows : lib.Node → Json → Prop}
    (documented : lib.IsDocumented Shows) :
    (∀ e : Expr, e.IsFloatFree →
      lib.read? (Expr.ofNode? lib) (lib.write e.toJson) =
        if e.toJson.depth ≤ lib.limit then some e else none) ∧
    (∀ table : DeclTable, table.IsFloatFree →
      lib.read? (DeclTable.ofNode? lib) (lib.write table.toJson) =
        if table.toJson.depth ≤ lib.limit then some table else none) := by
  constructor
  · intro e floatFree
    exact documented.read?_write floatFree.isWritten (floatFree.decodes documented)
  · intro table floatFree
    exact documented.read?_write floatFree.isWritten (floatFree.decodes documented)

namespace NestingSample

/-- The number one under so many minus signs. -/
def negations : Nat → Expr
  | 0 => .literal (.int 1) ⟨some .int, []⟩
  | n + 1 => .unary .neg (negations n) ⟨some .int, []⟩

theorem isFloatFree_negations (n : Nat) : (negations n).IsFloatFree := by
  induction n with
  | zero => exact .literal rfl
  | succ n ih => exact .unary rfl ih

theorem depth_negations (n : Nat) : (negations n).toJson.depth = 3 * n + 3 := by
  induction n with
  | zero => rfl
  | succ n ih =>
    rw [negations, Expr.toJson, Expr.depth_nodeToJson, depth_tagged]
    have static : Static.depth ⟨some .int, []⟩ = 1 := rfl
    simp only [depth, depthMembers, ih, static]
    omega

/-- A final field of a class type, with casts and text in its initializer. -/
def table : DeclTable :=
  let box : Ty := .classType (.ofIndex 4294967294) [.classType (.ofIndex 0) [.object], .boxed .char]
  let text : Expr := .literal (.string "\"\\\u0001é😀") ⟨none, [⟨.string, true⟩, ⟨box, false⟩]⟩
  { decls :=
      [{ name := .ofIndex 7, ty := box, kind := .field true, isFinal := true, reassignments := 4294967295
         initializer := some (.call (.ofIndex 3)
          [.binary .plus (.read ⟨4294967295⟩ (.ofIndex 1) ⟨none, []⟩) text ⟨some .string, []⟩,
            .binary .instanceOf (.literal .null ⟨some .null, []⟩) (.typeRef box ⟨none, []⟩)
              ⟨some .boolean, []⟩] ⟨some box, []⟩) }] }

theorem isFloatFree_table : table.IsFloatFree := by
  intro decl member
  cases List.mem_singleton.mp member
  rintro e ⟨⟩
  refine Expr.Everywhere.call rfl (List.forall_mem_cons.mpr ⟨?_, List.forall_mem_singleton.mpr ?_⟩)
  · exact .binary rfl (.read rfl) (.literal rfl)
  · exact .binary rfl (.literal rfl) (.typeRef rfl)

end NestingSample

/-- Forty-two minus signs are written but cannot be read back, and whatever the limit of a library is,
some expression is nested too deep for it. -/
theorem deep_expression_refused :
    ((NestingSample.negations 42).IsFloatFree ∧
      library.read? (Expr.ofNode? library) (library.write (NestingSample.negations 42).toJson) = none) ∧
    ∀ (lib : Library) (Shows : lib.Node → Json → Prop), lib.IsDocumented Shows →
      ∃ e : Expr, e.IsFloatFree ∧ lib.read? (Expr.ofNode? lib) (lib.write e.toJson) = none := by
  have refused {lib : Library} {Shows : lib.Node → Json → Prop} (documented : lib.IsDocumented Shows)
      {n : Nat} (deep : lib.limit < 3 * n + 3) :
      lib.read? (Expr.ofNode? lib) (lib.write (NestingSample.negations n).toJson) = none := by
    have floatFree := NestingSample.isFloatFree_negations n
    rw [documented.read?_write floatFree.isWritten (floatFree.decodes documented),
      NestingSample.depth_negations, if_neg (by omega)]
  constructor
  · exact ⟨NestingSample.isFloatFree_negations 42, refused library_isDocumented (by decide)⟩
  · intro lib Shows documented
    exact ⟨_, NestingSample.isFloatFree_negations lib.limit, refused documented (by omega)⟩

theorem interchange_round_trip_sample :
    library.IsDocumented Site.Shows ∧ (NestingSample.negations 41).IsFloatFree ∧
      NestingSample.table.IsFloatFree ∧
      library.read? (Expr.ofNode? library) (library.write (NestingSample.negations 41).toJson) =
        some (NestingSample.negations 41) ∧
      library.read? (DeclTable.ofNode? library) (library.write NestingSample.table.toJson) =
        some NestingSample.table := by
  have nested := NestingSample.isFloatFree_negations 41
  refine ⟨library_isDocumented, nested, NestingSample.isFloatFree_table, ?_, ?_⟩
  · rw [(interchange_round_trip library_isDocumented).1 _ nested, NestingSample.depth_negations]
    rfl
  · rw [(interchange_round_trip library_isDocumented).2 _ NestingSample.isFloatFree_table]
    rfl

end ConstFold
