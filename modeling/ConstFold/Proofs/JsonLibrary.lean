import ConstFold.Interchange.Library
import ConstFold.Proofs.JsonText
import Mathlib.Data.List.Forall2
import Mathlib.Data.List.Nodup

/-! What is documented of libraries for JSON texts, and what follows for readers of data. The laws are
about texts that the library has written itself: they say what a node gives if it shows some JSON, and
that entering an array or an object takes one level of the room for nesting. The library of the program
has these laws. -/
namespace ConstFold

namespace Json

mutual

/-- How deep arrays and objects are nested. -/
def depth : Json → Nat
  | array items => depthItems items + 1
  | object members => depthMembers members + 1
  | null | bool _ | number _ | string _ | unreadable => 0

def depthItems : List Json → Nat
  | [] => 0
  | item :: rest => max item.depth (depthItems rest)

def depthMembers : List (String × Json) → Nat
  | [] => 0
  | (_, value) :: rest => max value.depth (depthMembers rest)

end

end Json

namespace Library

/-- The node shows the JSON, with room for so many levels of nesting. -/
def ShowsAt (lib : Library) (Shows : lib.Node → Json → Prop) (room : Nat) (node : lib.Node)
    (json : Json) : Prop :=
  Shows node json ∧ lib.room node = room

/-- The documented behaviour of a library, where `Shows` says which JSON stands at a node. -/
structure IsDocumented (lib : Library) (Shows : lib.Node → Json → Prop) : Prop where
  /-- What has been written can be opened, with all the room there is. -/
  opened {json : Json} : json.IsWritten →
    ∃ node, lib.open? (lib.write json) = some node ∧ lib.ShowsAt Shows lib.limit node json
  null {node : lib.Node} {json : Json} : Shows node json → (lib.isNull node ↔ json = .null)
  bool {node : lib.Node} {b : Bool} : Shows node (.bool b) → lib.bool? node = some b
  /-- Integers of up to 64 bits are exact. -/
  integer {node : lib.Node} {low i high : Int} : Shows node (.ofInt i) → low ≤ i → i ≤ high →
    -9223372036854775808 ≤ low → high < 18446744073709551616 → lib.integer? low high node = some i
  string {node : lib.Node} {s : String} : Shows node (.string s) → lib.string? node = some s
  /-- The items of an array come in their order, and have one level less. -/
  items {node : lib.Node} {items : List Json} {room : Nat} :
    lib.ShowsAt Shows (room + 1) node (.array items) →
    ∃ parts, lib.items? node = some parts ∧
      List.Forall₂ (fun part item => lib.ShowsAt Shows room part.val item) parts items
  /-- The fields of a structure are found by their names, and have one level less. -/
  fields {node : lib.Node} {members : List (String × Json)} {room : Nat} :
    lib.ShowsAt Shows (room + 1) node (.object members) → (members.map Prod.fst).Nodup →
    ∃ parts, lib.fields? (members.map Prod.fst) node = some (parts.map some) ∧
      List.Forall₂ (fun part member => lib.ShowsAt Shows room part.val member.2) parts members
  /-- A string is the tag of a case without payload. -/
  tag {node : lib.Node} {tag : String} : Shows node (.string tag) → lib.case? node = some (tag, none)
  /-- An object with one member is a case with a payload, which has one level less. -/
  payload {node : lib.Node} {tag : String} {payload : Json} {room : Nat} :
    lib.ShowsAt Shows (room + 1) node (.object [(tag, payload)]) →
    ∃ part, lib.case? node = some (tag, some part) ∧ lib.ShowsAt Shows room part.val payload
  /-- Without room, neither an array nor an object is entered. -/
  noItems {node : lib.Node} {items : List Json} :
    lib.ShowsAt Shows 0 node (.array items) → lib.items? node = none
  noFields {node : lib.Node} {members : List (String × Json)} (names : List String) :
    lib.ShowsAt Shows 0 node (.object members) → lib.fields? names node = none
  noPayload {node : lib.Node} {tag : String} {payload : Json} :
    lib.ShowsAt Shows 0 node (.object [(tag, payload)]) → lib.case? node = none

/-- The reader gives what the JSON was made of, if there is room for all of its nesting, and fails
otherwise. -/
def Decodes (lib : Library) (Shows : lib.Node → Json → Prop) {α : Type} (decode : lib.Node → Option α)
    (json : Json) (a : α) : Prop :=
  ∀ room node, lib.ShowsAt Shows room node json →
    decode node = if json.depth ≤ room then some a else none

section Guarded

variable {α β : Type} {p q r : Prop} [Decidable p] [Decidable q] [Decidable r]

theorem guarded_bind (a : α) (f : α → Option β) :
    (if p then some a else none).bind f = if p then f a else none := by
  split <;> rfl

theorem guarded_map (a : α) (f : α → β) :
    (if p then some a else none).map f = if p then some (f a) else none := by
  split <;> rfl

theorem guarded_guarded {a : α} (both : r ↔ p ∧ q) :
    (if p then if q then some a else none else none) = if r then some a else none := by
  rw [← ite_and]
  exact if_congr both.symm rfl rfl

end Guarded

variable {lib : Library} {Shows : lib.Node → Json → Prop} {α : Type} {decode : lib.Node → Option α}
  {a : α}

theorem decodes_scalar {json : Json} (scalar : json.depth = 0)
    (decoded : ∀ node, Shows node json → decode node = some a) : lib.Decodes Shows decode json a := by
  intro room node shown
  rw [scalar, if_pos (Nat.zero_le room)]
  exact decoded node shown.1

theorem Decodes.of_scalar {json : Json} (decodes : lib.Decodes Shows decode json a)
    (scalar : json.depth = 0) {room : Nat} {node : lib.Node} (shown : lib.ShowsAt Shows room node json) :
    decode node = some a := by
  rw [decodes room node shown, scalar, if_pos (Nat.zero_le room)]

namespace IsDocumented

variable (documented : lib.IsDocumented Shows)

include documented

/-- A case with a payload is read if the payload is. -/
theorem decodes_payload {tag : String} {payload : Json}
    (refused : ∀ node, lib.case? node = none → decode node = none)
    (read : ∀ room node part, lib.case? node = some (tag, some part) →
      lib.ShowsAt Shows room part.val payload →
      decode node = if payload.depth ≤ room then some a else none) :
    lib.Decodes Shows decode (.object [(tag, payload)]) a := by
  intro room node shown
  have nested : (Json.object [(tag, payload)]).depth = payload.depth + 1 := by
    simp only [Json.depth, Json.depthMembers, Nat.max_zero]
  rw [nested]
  cases room with
  | zero => exact refused node (documented.noPayload shown)
  | succ room =>
    obtain ⟨part, found, inside⟩ := documented.payload shown
    rw [read room node part found inside]
    exact if_congr (by omega) rfl rfl

/-- A structure is read from its fields. -/
theorem decodes_fields {members : List (String × Json)} (distinct : (members.map Prod.fst).Nodup)
    (refused : ∀ node, lib.fields? (members.map Prod.fst) node = none → decode node = none)
    (read : ∀ room node (parts : List (lib.Part node)),
      lib.fields? (members.map Prod.fst) node = some (parts.map some) →
      List.Forall₂ (fun part member => lib.ShowsAt Shows room part.val member.2) parts members →
      decode node = if Json.depthMembers members ≤ room then some a else none) :
    lib.Decodes Shows decode (.object members) a := by
  intro room node shown
  rw [Json.depth]
  cases room with
  | zero => exact refused node (documented.noFields _ shown)
  | succ room =>
    obtain ⟨parts, found, inside⟩ := documented.fields shown distinct
    rw [read room node parts found inside]
    exact if_congr (by omega) rfl rfl

omit documented in
/-- Items are read one by one, all with the same room. -/
theorem mapM_decodes {encode : α → Json} {as : List α}
    (each : ∀ a ∈ as, lib.Decodes Shows decode (encode a) a) {room : Nat} {node : lib.Node}
    {parts : List (lib.Part node)}
    (inside : List.Forall₂ (fun part item => lib.ShowsAt Shows room part.val item) parts (as.map encode)) :
    (parts.mapM fun part => decode part.val) =
      if Json.depthItems (as.map encode) ≤ room then some as else none := by
  induction as generalizing parts with
  | nil =>
    cases inside
    rw [List.map_nil, Json.depthItems, if_pos (Nat.zero_le room)]
    rfl
  | cons a rest ih =>
    cases inside with
    | cons first others =>
      have remaining := ih (fun other member => each other (List.mem_cons_of_mem a member)) others
      rw [List.map_cons, List.mapM_cons, each a List.mem_cons_self room _ first, remaining]
      simp only [Option.bind_eq_bind, Option.pure_def, guarded_bind]
      apply guarded_guarded
      rw [Json.depthItems]
      exact Nat.max_le

/-- An array is read if its items are. -/
theorem decodes_list {encode : α → Json} {as : List α}
    (each : ∀ a ∈ as, lib.Decodes Shows decode (encode a) a) :
    lib.Decodes Shows (fun node => lib.list? node fun part => decode part.val) (.array (as.map encode))
      as := by
  intro room node shown
  rw [Json.depth]
  change (lib.items? node).bind _ = _
  cases room with
  | zero =>
    rw [documented.noItems shown]
    rfl
  | succ room =>
    obtain ⟨parts, found, inside⟩ := documented.items shown
    rw [found, Option.bind_some, mapM_decodes each inside]
    exact if_congr (by omega) rfl rfl

/-- A missing value is `null`, and no other value is. -/
theorem decodes_optional {encode : α → Json} {o : Option α}
    (each : ∀ a ∈ o, lib.Decodes Shows decode (encode a) a ∧ encode a ≠ .null) {room : Nat}
    {node : lib.Node} {part : lib.Part node}
    (shown : lib.ShowsAt Shows room part.val (o.elim .null encode)) :
    lib.optional? decode (some part) =
      if (o.elim .null encode).depth ≤ room then some o else none := by
  have null := documented.null shown.1
  cases o with
  | none => rw [optional?, if_pos (null.mpr rfl), Option.elim_none, Json.depth, if_pos (Nat.zero_le room)]
  | some a =>
    obtain ⟨decodes, present⟩ := each a rfl
    rw [optional?, if_neg (fun absent => present (null.mp absent)), Option.elim_some,
      decodes room part.val shown, guarded_map]

theorem bareCase {node : lib.Node} {tag : String} (ofTag? : String → Option α)
    (shown : Shows node (.string tag)) : lib.plain? ofTag? node = ofTag? tag := by
  rw [plain?, documented.tag shown]
  rfl

/-- Reading a text that has been written is reading the JSON it was written from. -/
theorem read?_write {json : Json} (written : json.IsWritten) (decodes : lib.Decodes Shows decode json a) :
    lib.read? decode (lib.write json) = if json.depth ≤ lib.limit then some a else none := by
  obtain ⟨node, opened, shown⟩ := documented.opened written
  rw [read?, opened, Option.bind_some]
  exact decodes lib.limit node shown

end IsDocumented

end Library

/-! The library of the program. -/

namespace Json

theorem natOfDigits_toDigits (n : Nat) : Numeral.natOfDigits (Nat.toDigits 10 n) = n := by
  have value : Nat.ofDigitChars 10 (Nat.toDigits 10 n) 0 = n :=
    Nat.ofDigitChars_toDigits (by decide) (by decide)
  conv_rhs => rw [← value]
  rw [Numeral.natOfDigits, Nat.ofDigitChars]
  congr 1
  funext sum c
  rw [Nat.mul_comm, Numeral.digitValue]

/-- An integer that fits 64 bits, with or without a sign, is read as it was written. -/
theorem integer?_ofInt {i : Int} (low : -9223372036854775808 ≤ i) (high : i < 18446744073709551616) :
    (ofInt i).integer? = some i := by
  change (Numeral.ofInt i).integer? = some i
  simp only [Numeral.integer?, Numeral.ofInt, natOfDigits_toDigits, Numeral.wordLimit]
  by_cases negative : i < 0
  · have fits : (1 ≤ i.natAbs && i.natAbs ≤ 9223372036854775808) = true := by
      simp only [Bool.and_eq_true, decide_eq_true_eq]
      omega
    simp only [negative, decide_true, fits, List.isEmpty_nil, Option.isNone_none, Bool.and_self,
      if_true, Option.some.injEq]
    omega
  · have fits : i.natAbs < 18446744073709551616 := by omega
    simp only [negative, decide_false, fits, List.isEmpty_nil, Option.isNone_none, Bool.and_self,
      if_true, Bool.false_eq_true, if_false, Option.some.injEq]
    omega

/-- A name that stands once among the keys has its value. -/
theorem member?_of_mem {members : List (String × Json)} (distinct : (members.map Prod.fst).Nodup)
    {name : String} {value : Json} (member : (name, value) ∈ members) :
    member? members name = some (some value) := by
  have only : members.filter (fun member => member.1 == name) = [(name, value)] := by
    induction members with
    | nil => cases member
    | cons first rest ih =>
      obtain ⟨fresh, others⟩ := List.nodup_cons.mp distinct
      rcases List.mem_cons.mp member with rfl | later
      · have none : rest.filter (fun member => member.1 == name) = [] := by
          rw [List.filter_eq_nil_iff]
          intro other present same
          have key : other.1 ∈ rest.map Prod.fst := List.mem_map_of_mem present
          rw [beq_iff_eq.mp same] at key
          exact fresh key
        rw [List.filter_cons, if_pos (beq_self_eq_true name), none]
      · have apart : ¬first.1 == name := by
          intro same
          have key : name ∈ rest.map Prod.fst := List.mem_map_of_mem later
          rw [← beq_iff_eq.mp same] at key
          exact fresh key
        rw [List.filter_cons, if_neg apart]
        exact ih others later
  rw [member?, only]

theorem fields?_object {members : List (String × Json)} (distinct : (members.map Prod.fst).Nodup) :
    (object members).fields? (members.map Prod.fst) = some (members.map fun member => some member.2) := by
  have each : ∀ chosen ⊆ members, (chosen.map Prod.fst).mapM (member? members) =
      some (chosen.map fun member => some member.2) := by
    intro chosen inside
    induction chosen with
    | nil => rfl
    | cons first rest ih =>
      obtain ⟨present, others⟩ := List.cons_subset.mp inside
      rw [List.map_cons, List.mapM_cons, member?_of_mem distinct present, ih others]
      rfl
  exact each members (List.Subset.refl members)

/-- The JSON that stands at a site. -/
def Site.Shows (site : Site) (json : Json) : Prop := site.json = json

theorem Site.eq_of_showsAt {room : Nat} {site : Site} {json : Json}
    (shown : library.ShowsAt Site.Shows room site json) : site = ⟨json, room⟩ := by
  obtain ⟨rfl, rfl⟩ := shown
  rfl

/-- What is inside has one level less. -/
theorem forall₂_inside {α : Type} (room : Nat) (value : α → Json) (as : List α) :
    List.Forall₂ (fun part a => library.ShowsAt Site.Shows room part.val (value a))
      (as.map fun a => inside room (value a)) as := by
  induction as with
  | nil => exact .nil
  | cons a rest ih => exact .cons ⟨rfl, rfl⟩ ih

/-- The library of the program behaves as documented. -/
theorem library_isDocumented : library.IsDocumented Site.Shows where
  opened {json} written := by
    refine ⟨⟨json, depthLimit⟩, ?_, rfl, rfl⟩
    change (parse? json.render).map _ = _
    rw [parse?_render written]
    rfl
  null {site json} shown := by
    obtain ⟨shows, room⟩ := site
    cases shown
    cases shows <;> simp [library]
  bool {site b} shown := by
    obtain ⟨shows, room⟩ := site
    cases shown
    rfl
  integer {site low i high} shown lower upper least greatest := by
    change site.json.integerIn? low high = some i
    rw [shown, integerIn?, integer?_ofInt (by omega) (by omega), Option.filter_some, if_pos]
    simp only [Bool.and_eq_true, decide_eq_true_eq]
    exact ⟨lower, upper⟩
  string {site s} shown := by
    obtain ⟨shows, room⟩ := site
    cases shown
    rfl
  items {site items room} shown := by
    cases Site.eq_of_showsAt shown
    exact ⟨_, rfl, forall₂_inside room id items⟩
  fields {site members room} shown distinct := by
    have found : ((object members).fields? (members.map Prod.fst)).map
        (fun values => values.map (·.map (inside room))) =
          some ((members.map fun member => inside room (Prod.snd member)).map some) := by
      rw [fields?_object distinct, Option.map_some, List.map_map, List.map_map]
      rfl
    cases Site.eq_of_showsAt shown
    exact ⟨_, found, forall₂_inside room Prod.snd members⟩
  tag {site tag} shown := by
    obtain ⟨shows, room⟩ := site
    cases shown
    rfl
  payload {site tag payload room} shown := by
    cases Site.eq_of_showsAt shown
    exact ⟨inside room payload, rfl, rfl, rfl⟩
  noItems {site items} shown := by
    cases Site.eq_of_showsAt shown
    rfl
  noFields {site members} names shown := by
    cases Site.eq_of_showsAt shown
    rfl
  noPayload {site tag payload} shown := by
    cases Site.eq_of_showsAt shown
    rfl

end Json

end ConstFold
