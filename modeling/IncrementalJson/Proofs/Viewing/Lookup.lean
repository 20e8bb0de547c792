import IncrementalJson.Proofs.Viewing.Addressable
import IncrementalJson.Proofs.Viewing.Indices
import IncrementalJson.Proofs.Viewing.Members

/-!
# Finding what is listed

A view lists its members, finds one by its name and counts them, each in its own
way.  In views that a value which was read leads to, or a record whose presence
was changed, the three agree, and a record says of the names that are found that
their members are there.
-/

set_option autoImplicit false

namespace IncrementalJson

variable {schema : Schema}

/-- Values that were read or that their shape starts from, and the records that come of them when
presence is changed and when they are brought back to their start. -/
inductive Obtained (schema : Schema) (shape : Shape) : Value → Prop where
  | read {limit : Option Nat} {chunks : List (List UInt8)} {value : Value}
      (read : ((Parser.create schema shape limit).feedAll chunks).finish = .ok value) :
      Obtained schema shape value
  | initial : Obtained schema shape (schema.initial shape)
  | setPresent {table : Table} {value : Value} (declared : schema.table? shape = some table)
      (obtained : Obtained schema shape value) (name : String) (present : Bool) :
      Obtained schema shape (table.setPresent value name present).1
  | setPresenceBit {value : Value} (obtained : Obtained schema shape value) (index : Nat)
      (isThere : Bool) : Obtained schema shape (value.setPresenceBit index isThere)
  | markAllPresent {table : Table} {value : Value} (declared : schema.table? shape = some table)
      (obtained : Obtained schema shape value) :
      Obtained schema shape (table.markAllPresent value)
  | reset {value : Value} (obtained : Obtained schema shape value) :
      Obtained schema shape (View.ofValue schema shape value).reset

theorem Obtained.addressable {shape : Shape} {value : Value}
    (obtained : Obtained schema shape value) : Addressable schema shape value := by
  induction obtained with
  | read read => exact .of_finish read
  | initial => exact .initial schema shape
  | @setPresent table _ _ _ name present ih => exact ih.setPresent table name present
  | setPresenceBit _ index isThere ih => exact ih.setPresenceBit index isThere
  | @markAllPresent table _ _ _ ih => exact ih.markAllPresent table
  | @reset value _ _ =>
    rw [View.reset, if_pos (View.matched_ofValue schema shape value)]
    exact .initial schema shape

namespace View

inductive Reaches : View → View → Prop where
  | here (view : View) : Reaches view view
  | member {view part last : View} {name : String} (among : (name, part) ∈ view.members)
      (further : Reaches part last) : Reaches view last

variable {view : View}

/-! ## What a view shows -/

theorem members_list {item : Shape} {items : List Value}
    (seen : view.resolve = .ofValue view.schema (.list item) (.list items)) :
    view.members = items.zipIdx.map fun (value, index) =>
      (toString index, ofValue view.schema item value) := by
  simp only [members, seen, if_pos (matched_ofValue _ _ _)]
  rfl

theorem names_list {item : Shape} {items : List Value}
    (seen : view.resolve = .ofValue view.schema (.list item) (.list items)) :
    view.members.map Prod.fst = (List.range items.length).map toString := by
  rw [members_list seen, List.map_map, List.range_eq_range', ← List.zipIdx_map_snd, List.map_map]
  rfl

theorem size_list {item : Shape} {items : List Value}
    (seen : view.resolve = .ofValue view.schema (.list item) (.list items)) :
    view.size = items.length := by
  simp only [size, seen, if_pos (matched_ofValue _ _ _)]
  rfl

theorem get?_list {item : Shape} {items : List Value}
    (seen : view.resolve = .ofValue view.schema (.list item) (.list items)) (name : String) :
    view.get? name = (indexOfName? name).bind fun index =>
      items[index]?.map fun value => ofValue view.schema item value := by
  simp only [get?, seen, if_pos (matched_ofValue _ _ _)]
  rfl

section Object

variable {shape : Shape} {table : Table} {stored : List Value} {presence : PresenceBits 64}
  {extras : Entries Value}

theorem members_object
    (seen : view.resolve = .ofValue view.schema shape (.object stored presence extras))
    (declared : view.schema.table? shape = some table) :
    view.members = (table.liveMembers stored presence extras).map fun (name, shape, value) =>
      (name, ofValue view.schema shape value) := by
  simp only [members, seen, if_pos (matched_ofValue _ _ _)]
  simp only [ofValue, declared]

theorem size_object
    (seen : view.resolve = .ofValue view.schema shape (.object stored presence extras))
    (declared : view.schema.table? shape = some table) :
    view.size = table.memberCount stored presence extras := by
  simp only [size, seen, if_pos (matched_ofValue _ _ _)]
  simp only [ofValue, declared]

theorem get?_object
    (seen : view.resolve = .ofValue view.schema shape (.object stored presence extras))
    (declared : view.schema.table? shape = some table) (name : String) :
    view.get? name = (table.member? stored presence extras name).map fun (shape, value) =>
      ofValue view.schema shape value := by
  simp only [get?, seen, if_pos (matched_ofValue _ _ _)]
  simp only [ofValue, declared, Option.bind_some]

end Object

theorem shows_leaf {shape : Shape} {value : Value} (leaf : value.isLeaf)
    (seen : view.resolve = .ofValue view.schema shape value) :
    view.members = [] ∧ view.size = 0 ∧ ∀ name, view.get? name = none := by
  simp only [members, size, get?, seen, if_pos (matched_ofValue _ _ _)]
  cases value with
  | list | object | held | present => cases leaf
  | _ => exact ⟨rfl, rfl, fun _ => rfl⟩

/-! ## Agreement -/

/-- Listing, finding and counting come to the same. -/
structure Agrees (view : View) : Prop where
  distinct : (view.members.map Prod.fst).Nodup
  size : view.size = view.members.length
  found : ∀ name part, view.get? name = some part ↔ (name, part) ∈ view.members

theorem agrees_leaf {shape : Shape} {value : Value} (leaf : value.isLeaf)
    (seen : view.resolve = .ofValue view.schema shape value) : view.Agrees := by
  obtain ⟨nothing, none', nowhere⟩ := shows_leaf leaf seen
  refine ⟨?_, ?_, ?_⟩
  · rw [nothing]
    exact List.nodup_nil
  · rw [nothing, none']
    rfl
  · intro name part
    rw [nothing, nowhere]
    exact iff_of_false nofun nofun

theorem agrees_list {item : Shape} {items : List Value}
    (seen : view.resolve = .ofValue view.schema (.list item) (.list items))
    (fits : items.length ≤ 2 ^ 64) : view.Agrees := by
  refine ⟨?_, ?_, ?_⟩
  · rw [names_list seen, List.Nodup, List.pairwise_map]
    apply List.nodup_range.imp
    intro index other differ same
    exact differ (toString_injective same)
  · rw [size_list seen, members_list seen, List.length_map, List.length_zipIdx]
  · intro name part
    rw [get?_list seen, members_list seen]
    constructor
    · intro found
      obtain ⟨index, isIndex, found⟩ := Option.bind_eq_some_iff.mp found
      obtain ⟨value, here, rfl⟩ := Option.map_eq_some_iff.mp found
      obtain ⟨rfl, -⟩ := (indexOfName?_eq_some_iff name index).mp isIndex
      exact List.mem_map.mpr ⟨(value, index), List.mk_mem_zipIdx_iff_getElem?.mpr here, rfl⟩
    · intro listed
      obtain ⟨⟨value, index⟩, inside, same⟩ := List.mem_map.mp listed
      cases same
      have here := List.mk_mem_zipIdx_iff_getElem?.mp inside
      obtain ⟨below, -⟩ := List.getElem?_eq_some_iff.mp here
      have isIndex := (indexOfName?_eq_some_iff _ index).mpr ⟨rfl, Nat.lt_of_lt_of_le below fits⟩
      rw [isIndex, Option.bind_some, here]
      rfl

/-- What is found under a name is seen, through views, among the members that their names lead
to. -/
theorem found_iff_open {table : Table} {stored : List Value} {presence : PresenceBits 64}
    {extras : Entries Value} (own : extras.names.Nodup) (schema : Schema) (name : String)
    (part : View) :
    ((table.member? stored presence extras name).map fun (shape, value) =>
        ofValue schema shape value) = some part ↔
      (name, part) ∈ (table.openMembers stored presence extras).map fun (name, shape, value) =>
        (name, ofValue schema shape value) := by
  constructor
  · intro found
    obtain ⟨⟨inner, value⟩, member, rfl⟩ := Option.map_eq_some_iff.mp found
    exact List.mem_map.mpr
      ⟨_, (Table.mem_openMembers_iff_member? own name inner value).mpr member, rfl⟩
  · intro listed
    obtain ⟨⟨name, inner, value⟩, inside, same⟩ := List.mem_map.mp listed
    cases same
    rw [(Table.mem_openMembers_iff_member? own name inner value).mp inside]
    rfl

theorem agrees_object {shape : Shape} {table : Table} {stored : List Value}
    {presence : PresenceBits 64} {extras : Entries Value}
    (seen : view.resolve = .ofValue view.schema shape (.object stored presence extras))
    (declared : view.schema.table? shape = some table)
    (findable : table.Findable stored presence extras) : view.Agrees := by
  refine ⟨?_, ?_, ?_⟩
  · rw [members_object seen declared, List.map_map]
    exact table.nodup_liveMembers findable
  · rw [size_object seen declared, members_object seen declared, List.length_map,
      Table.length_liveMembers]
  · intro name part
    rw [get?_object seen declared, members_object seen declared,
      found_iff_open findable.distinct]
    exact ⟨fun among => List.map_subset _ (fun _ => Table.mem_liveMembers_of_open) among,
      fun among => List.map_subset _ (fun _ => Table.mem_open_of_liveMembers findable) among⟩

theorem get?_list_isSome_iff {item : Shape} {items : List Value}
    (seen : view.resolve = .ofValue view.schema (.list item) (.list items))
    (fits : items.length ≤ 2 ^ 64) (name : String) :
    (view.get? name).isSome ↔ ∃ index < items.length, name = toString index := by
  rw [get?_list seen]
  constructor
  · intro found
    obtain ⟨part, found⟩ := Option.isSome_iff_exists.mp found
    obtain ⟨index, isIndex, found⟩ := Option.bind_eq_some_iff.mp found
    obtain ⟨value, here, -⟩ := Option.map_eq_some_iff.mp found
    obtain ⟨below, -⟩ := List.getElem?_eq_some_iff.mp here
    exact ⟨index, below, ((indexOfName?_eq_some_iff name index).mp isIndex).1⟩
  · intro found
    obtain ⟨index, below, isName⟩ := found
    have isIndex := (indexOfName?_eq_some_iff name index).mpr
      ⟨isName, Nat.lt_of_lt_of_le below fits⟩
    rw [isIndex, Option.bind_some, List.getElem?_eq_getElem below]
    rfl

end View

/-! ## Views of addressable values -/

namespace Addressable

variable {shape : Shape} {value : Value}

theorem listed (addressable : Addressable schema shape value) {name : String} {part : View}
    (among : (name, part) ∈ (View.ofValue schema shape value).members) :
    ∃ shape value, part = .ofValue schema shape value ∧ Addressable schema shape value := by
  obtain ⟨inner, core, seen, unboxed, inside, concrete⟩ := addressable.resolve
  cases inside with
  | leaf leaf =>
    rw [(View.shows_leaf leaf seen).1] at among
    cases among
  | list isList each =>
    rw [isList] at unboxed
    subst unboxed
    rw [View.members_list seen] at among
    obtain ⟨⟨item, index⟩, inside, same⟩ := List.mem_map.mp among
    cases same
    have among := List.mem_of_getElem? (List.mk_mem_zipIdx_iff_getElem?.mp inside)
    exact ⟨_, item, rfl, each item among⟩
  | @held _ held => exact absurd rfl (concrete held).1
  | @present _ _ present => exact absurd rfl (concrete present).2
  | object declared fields _ _ further =>
    rw [unboxed] at declared
    rw [View.members_object seen declared] at among
    obtain ⟨member, inside, same⟩ := List.mem_map.mp among
    cases same
    refine ⟨_, _, rfl, ?_⟩
    rcases Table.mem_liveMembers.mp inside with ⟨index, field, value, here, there, -, rfl⟩ |
      ⟨item, entry, admitted, extra, rfl⟩
    · exact fields index field value here there
    · exact further item admitted entry extra

theorem reaches {view last : View} (reached : view.Reaches last) {shape : Shape} {value : Value}
    (same : view = .ofValue schema shape value) (addressable : Addressable schema shape value) :
    ∃ shape value, last = .ofValue schema shape value ∧ Addressable schema shape value := by
  induction reached generalizing shape value with
  | here view => exact ⟨shape, value, same, addressable⟩
  | member among _ ih =>
    rw [same] at among
    obtain ⟨inner, part, isPart, inside⟩ := addressable.listed among
    exact ih isPart inside

end Addressable

/-- In every view that is reached from a value that was read, or from a record whose presence was
changed, the names that are listed differ from each other and are as many as are counted, every
name finds what is listed under it and nothing else, and a record says that just those names are
there.  The names of items are the decimal forms of the indices below the length, which for a list
in memory is a machine word. -/
theorem lookups_agree (distinct : schema.NamesDistinct) {shape : Shape} {value : Value}
    (obtained : Obtained schema shape value) {view : View}
    (reached : (View.ofValue schema shape value).Reaches view)
    (fits : ∀ items, view.resolve.value = .list items → items.length ≤ 2 ^ 64) :
    (view.members.map Prod.fst).Nodup ∧ view.size = view.members.length ∧
      (∀ name part, view.get? name = some part ↔ (name, part) ∈ view.members) ∧
      (∀ table, schema.table? view.resolve.shape = some table → ∀ name,
        table.has view.resolve.value name = (view.get? name).isSome) ∧
      ∀ items, view.resolve.value = .list items → ∀ name,
        (view.get? name).isSome ↔ ∃ index < items.length, name = toString index := by
  obtain ⟨shape, value, rfl, addressable⟩ :=
    Addressable.reaches reached rfl obtained.addressable
  obtain ⟨inner, core, seen, unboxed, inside, concrete⟩ := addressable.resolve
  cases inside with
  | @leaf _ core leaf =>
    obtain ⟨agrees, size, found⟩ := View.agrees_leaf leaf seen
    refine ⟨agrees, size, found, ?_, ?_⟩
    · intro table _ name
      rw [seen, (View.shows_leaf leaf seen).2.2 name]
      cases core with
      | object => cases leaf
      | _ => rfl
    · intro items isList
      rw [seen] at isList
      have isList : core = .list items := isList
      subst isList
      cases leaf
  | @list _ _ items isList each =>
    rw [isList] at unboxed
    subst unboxed
    have short : items.length ≤ 2 ^ 64 := fits items (by rw [seen]; rfl)
    obtain ⟨agrees, size, found⟩ := View.agrees_list seen short
    refine ⟨agrees, size, found, ?_, ?_⟩
    · intro table isTable
      rw [seen] at isTable
      cases isTable
    · intro items' isList
      rw [seen] at isList
      cases isList
      exact View.get?_list_isSome_iff seen short
  | @held _ held => exact absurd rfl (concrete held).1
  | @present _ _ present => exact absurd rfl (concrete present).2
  | @object _ table members presence extras declared _ own undeclared _ =>
    rw [unboxed] at declared
    have findable : table.Findable members presence extras :=
      Table.findable_of_distinct distinct declared own undeclared
    obtain ⟨agrees, size, found⟩ := View.agrees_object seen declared findable
    refine ⟨agrees, size, found, ?_, ?_⟩
    · intro table' isTable name
      rw [seen] at isTable ⊢
      have isTable : schema.table? inner = some table' := isTable
      rw [declared] at isTable
      cases isTable
      rw [View.get?_object seen declared, Option.isSome_map]
      exact table.has_iff members presence extras name
    · intro items isList
      rw [seen] at isList
      cases isList

def flagSchema : Schema := ⟨[⟨[⟨"a", .list .bool⟩, ⟨"b", .bool⟩], some .variant⟩], by decide⟩

/-- A record with an extra member, read in two chunks and then marked present as a whole, and the
list that its first member shows. -/
theorem lookups_agree_marked :
    let chunks := [Utf8.encodeString "\x7b\"x\":null,\"a\":[t", Utf8.encodeString "rue]\x7d"]
    let read := Value.object [.list [.bool true], .bool false] ⟨[1]⟩ [("x", .held .null)]
    let value := (flagSchema.record 0).markAllPresent read
    let view := View.ofValue flagSchema (.record 0) value
    let list := View.ofValue flagSchema (.list .bool) (.list [.bool true])
    ((Parser.create flagSchema (.record 0)).feedAll chunks).finish = .ok read ∧
      view.members.map Prod.fst = ["a", "b", "x"] ∧ view.size = view.members.length ∧
      (∀ name part, view.get? name = some part ↔ (name, part) ∈ view.members) ∧
      (∀ name, (flagSchema.record 0).has value name = (view.get? name).isSome) ∧
      ∀ name, (list.get? name).isSome ↔ ∃ index < 1, name = toString index := by
  intro chunks read value view list
  have distinct : flagSchema.NamesDistinct := by
    intro position
    cases position with
    | zero => decide
    | succ position => exact List.nodup_nil
  have isRead : ((Parser.create flagSchema (.record 0)).feedAll chunks).finish = .ok read := rfl
  have obtained : Obtained flagSchema (.record 0) value := .markAllPresent rfl (.read isRead)
  have reached : view.Reaches list := .member List.mem_cons_self (.here list)
  have whole := lookups_agree distinct obtained (.here view) nofun
  have inside := lookups_agree distinct obtained reached (by
    intro items isList
    cases isList
    decide)
  exact ⟨isRead, rfl, whole.2.1, whole.2.2.1, whole.2.2.2.1 _ rfl, inside.2.2.2.2 _ rfl⟩

/-- Of members with one name both are listed, and the second is not found when it alone is
there. -/
theorem lookups_disagree_twins :
    let both := (twinSchema.record 0).markAllPresent (twinSchema.initial (.record 0))
    let second := both.setPresenceBit 0 false
    Obtained twinSchema (.record 0) both ∧
      (View.ofValue twinSchema (.record 0) both).members.map Prod.fst = ["x", "x"] ∧
      Obtained twinSchema (.record 0) second ∧
      (View.ofValue twinSchema (.record 0) second).members.map Prod.fst = ["x"] ∧
      (View.ofValue twinSchema (.record 0) second).get? "x" = none ∧
      (twinSchema.record 0).has second "x" = false := by
  intro both second
  have marked : Obtained twinSchema (.record 0) both := .markAllPresent rfl .initial
  exact ⟨marked, rfl, .setPresenceBit marked 0 false, rfl, rfl, rfl⟩

end IncrementalJson
