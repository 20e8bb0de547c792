import IncrementalJson.Proofs.Reading.Members
import IncrementalJson.Proofs.Reading.Unambiguous
import IncrementalJson.Record

/-!
# Arrays and objects part by part

An array is parsed to the list of what its elements are parsed to by themselves.
An object is parsed exactly if each of its members is parsed by itself where its
name leads, and then the last member of a name counts, and it alone.
-/

set_option autoImplicit false

namespace IncrementalJson

def IsArrayOf (text : List Char) (texts : List (List Char)) : Prop :=
  ∃ elements, ArrayText text elements ∧ texts = elements.map Element.text

/-- The text of an object whose members have these names, unescaped, and values of these
texts. -/
def IsObjectOf (text : List Char) (pairs : List (String × List Char)) : Prop :=
  ∃ members, ObjectText text members ∧
    (members.map fun member => (textOf? member.name, member.value.text)) =
      pairs.map fun (name, text) => (some name, text)

/-- The shape that a table has for the member of a name: that of the declared member, and that of
further ones if the name is not declared. -/
def Table.Expects (table : Table) (name : String) (shape : Shape) : Prop :=
  (∃ field ∈ table.fields, field.name = name ∧ field.shape = shape) ∨
    (∀ field ∈ table.fields, field.name ≠ name) ∧ table.extra = some shape

structure Gathered (schema : Schema) (table : Table) (pairs : List (String × List Char))
    (value : Value) : Prop where
  /-- A declared member holds what its last occurrence is parsed to, or what it starts from. -/
  stored : ∀ index field, table.fields[index]? = some field →
    ∃ member, value.stored? index = some member ∧
      match last? pairs field.name with
      | some text => parse schema field.shape (Utf8.encode text) = .ok member
      | none => member = schema.initial field.shape
  /-- A member with a presence bit is there if it occurs. -/
  bits : ∀ field ∈ table.fields, field.shape.tellsPresence = false →
    (table.has value field.name = true ↔ field.name ∈ pairs.map Prod.fst)
  /-- An optional member is there if its last occurrence is not null. -/
  options : ∀ field ∈ table.fields, field.shape.tellsPresence = true →
    (table.has value field.name = true ↔
      ∃ text, last? pairs field.name = some text ∧ text ≠ ['n', 'u', 'l', 'l'])
  /-- The names that are not declared stand in the order of their first occurrence. -/
  names : value.extras.names = ((pairs.map Prod.fst).filter fun name =>
    table.fields.all fun field => field.name != name).eraseDups
  /-- Under each of them stands what its last occurrence is parsed to. -/
  extras : ∀ name text, (∀ field ∈ table.fields, field.name ≠ name) →
    last? pairs name = some text → ∃ item member, table.extra = some item ∧
      parse schema item (Utf8.encode text) = .ok member ∧ value.extras.find? name = some member

variable {schema : Schema}

/-- What the text of a value is parsed to by itself is what its tree means. -/
theorem Spells.parse_eq_ok_iff {text : List Char} {json : Json} (spells : Spells text json)
    (shape : Shape) (value : Value) :
    parse schema shape (Utf8.encode text) = .ok value ↔
      json.readAs schema shape = some value :=
  parse_document_eq_ok_iff schema shape spells.document value

theorem Spells.text_eq_null_iff {text : List Char} {json : Json} (spells : Spells text json) :
    text = ['n', 'u', 'l', 'l'] ↔ json = .null := by
  constructor
  · rintro rfl
    obtain ⟨byte, rest, encoded, -, -, null⟩ := spells.first
    cases encoded
    exact null.mp rfl
  · rintro rfl
    cases spells
    rfl

/-! ## Arrays -/

theorem readItems_eq_some_iff {elements : List Element}
    (spelled : ∀ element ∈ elements, Spells element.text element.json) (item : Shape)
    (values : List Value) :
    Json.readItems schema item (elements.map Element.json) = some values ↔
      (elements.map fun element => parse schema item (Utf8.encode element.text)) =
        values.map .ok := by
  induction elements generalizing values with
  | nil =>
    cases values with
    | nil => exact iff_of_true rfl rfl
    | cons value values => exact iff_of_false nofun nofun
  | cons element rest ih =>
    obtain ⟨first, others⟩ := List.forall_mem_cons.mp spelled
    rw [List.map_cons, List.map_cons]
    constructor
    · intro reads
      obtain ⟨value, values', means, later, rfl⟩ := Json.readItems_cons reads
      rw [(first.parse_eq_ok_iff item value).mpr means, (ih others values').mp later]
      rfl
    · intro parsed
      cases values with
      | nil => cases parsed
      | cons value values' =>
        obtain ⟨parsedFirst, parsedRest⟩ := List.cons.inj parsed
        rw [Json.readItems, (first.parse_eq_ok_iff item value).mp parsedFirst]
        simp only [(ih others values').mpr parsedRest, Option.map_some]

theorem parse_array_eq_ok_iff {text : List Char} {elements : List Element}
    (isArray : ArrayText text elements) (item : Shape) (value : Value) :
    parse schema (.list item) (Utf8.encode text) = .ok value ↔
      ∃ values, value = .list values ∧
        (elements.map fun element => parse schema item (Utf8.encode element.text)) =
          values.map .ok := by
  have spells : Spells text (.array (elements.map Element.json)) :=
    spells_array_iff.mpr ⟨elements, isArray, rfl⟩
  have means : (Json.array (elements.map Element.json)).readAs schema (.list item) =
      (Json.readItems schema item (elements.map Element.json)).map .list := rfl
  rw [spells.parse_eq_ok_iff, means, Option.map_eq_some_iff]
  constructor
  · rintro ⟨values, reads, rfl⟩
    exact ⟨values, rfl, (readItems_eq_some_iff isArray.spelled item values).mp reads⟩
  · rintro ⟨values, rfl, parsed⟩
    exact ⟨values, (readItems_eq_some_iff isArray.spelled item values).mpr parsed, rfl⟩

/-! ## Objects -/

abbrev Spelled := List (String × (List Char × Json))

namespace Spelled

def texts (spelled : Spelled) : List (String × List Char) :=
  spelled.map fun (name, part) => (name, part.1)

def trees (spelled : Spelled) : List (String × Json) :=
  spelled.map fun (name, part) => (name, part.2)

/-- What is parsed and what is read of the last under a name come from one text. -/
theorem last_cases {spelled : Spelled}
    (all : ∀ part ∈ spelled, Spells part.2.1 part.2.2) (name : String) :
    (last? spelled.texts name = none ∧ last? spelled.trees name = none) ∨
      ∃ text json, last? spelled.texts name = some text ∧ last? spelled.trees name = some json ∧
        Spells text json := by
  rw [texts, trees, last?_map, last?_map]
  cases last : last? spelled name with
  | none => exact .inl ⟨rfl, rfl⟩
  | some part => exact .inr ⟨part.1, part.2, rfl, rfl, all _ (mem_of_last? last)⟩

end Spelled

theorem exists_spelled {members : List Member} {pairs : List (String × List Char)}
    (spelled : ∀ member ∈ members, Spells member.value.text member.value.json)
    (names : (members.map fun member => (textOf? member.name, member.value.text)) =
      pairs.map fun (name, text) => (some name, text)) :
    ∃ spelled : Spelled, pairs = spelled.texts ∧
      Named (members.map Member.named) spelled.trees ∧
      ∀ part ∈ spelled, Spells part.2.1 part.2.2 := by
  induction members generalizing pairs with
  | nil =>
    cases pairs with
    | nil => exact ⟨[], rfl, rfl, List.forall_mem_nil _⟩
    | cons pair rest => cases names
  | cons member rest ih =>
    cases pairs with
    | nil => cases names
    | cons pair more =>
      obtain ⟨name, valueText⟩ := pair
      obtain ⟨first, others⟩ := List.forall_mem_cons.mp spelled
      obtain ⟨same, later⟩ := List.cons.inj names
      obtain ⟨isName, rfl⟩ := Prod.mk.inj same
      obtain ⟨parts, rfl, named, all⟩ := ih others later
      refine ⟨(name, member.value.text, member.value.json) :: parts, rfl, ?_, ?_⟩
      · have isName : textOf? member.name = some name := isName
        simp only [Named, Member.named, Spelled.trees, List.map_cons, isName] at named ⊢
        rw [named]
      · exact List.forall_mem_cons.mpr ⟨first, all⟩

theorem IsObjectOf.spelled {text : List Char} {pairs : List (String × List Char)}
    (isObject : IsObjectOf text pairs) :
    ∃ (members : List Member) (spelled : Spelled),
      Spells text (.object (members.map Member.named)) ∧ pairs = spelled.texts ∧
        Named (members.map Member.named) spelled.trees ∧
        ∀ part ∈ spelled, Spells part.2.1 part.2.2 := by
  obtain ⟨members, isObject, names⟩ := isObject
  have spells : Spells text (.object (members.map Member.named)) :=
    spells_object_iff.mpr ⟨members, isObject, rfl⟩
  obtain ⟨spelled, isPairs, named, all⟩ := exists_spelled isObject.spelled names
  exact ⟨members, spelled, spells, isPairs, named, all⟩

namespace Table

theorem isNone_lookup? (table : Table) (name : String) :
    (table.lookup? name).isNone = table.fields.all fun field => field.name != name := by
  rw [Bool.eq_iff_iff, Option.isNone_iff_eq_none, lookup?_eq_none_iff, List.all_eq_true]
  simp only [bne_iff_ne]

theorem expects_iff {table : Table} (distinct : (table.fields.map Field.name).Nodup)
    (name : String) (shape : Shape) :
    table.Expects name shape ↔
      ∃ slot, table.memberSlot? name = some slot ∧ slot.shape = shape := by
  constructor
  · rintro (⟨field, among, rfl, rfl⟩ | ⟨undeclared, admitted⟩)
    · obtain ⟨index, here⟩ := List.mem_iff_getElem?.mp among
      refine ⟨.field index field, ?_, rfl⟩
      rw [memberSlot?, lookup?_of_distinct distinct here]
    · refine ⟨.extra name shape, ?_, rfl⟩
      rw [memberSlot?, lookup?_eq_none undeclared, admitted]
      rfl
  · rintro ⟨slot, found, rfl⟩
    rcases memberSlot?_cases found with ⟨index, field, rfl, known⟩ | ⟨item, rfl, unknown, admitted⟩
    · obtain ⟨declared, named⟩ := lookup?_spec known
      exact .inl ⟨field, List.mem_of_getElem? declared, named, rfl⟩
    · exact .inr ⟨(lookup?_eq_none_iff ..).mp unknown, admitted⟩

theorem has_declared {table : Table} {name : String} {index : Nat} {field : Field}
    (found : table.lookup? name = some (index, field)) {members : List Value} {value : Value}
    (stored : members[index]? = some value) (bits : PresenceBits 64) (extras : Entries Value) :
    table.has (.object members bits extras) name = field.isLive index value bits := by
  simp only [has, found, stored]

end Table

theorem readAs_option_ne_absent {shape : Shape} (pointer : shape.tellsPresence = true)
    {json : Json} {value : Value} (means : json.readAs schema shape = some value) :
    value ≠ .absent ↔ json ≠ .null := by
  cases shape with
  | option item =>
    by_cases null : json = .null
    · subst null
      rw [Json.readAs_absent schema rfl] at means
      cases means
      exact iff_of_false (fun differ => differ rfl) fun differ => differ rfl
    · rw [Json.readAs_option item null] at means
      obtain ⟨inner, -, rfl⟩ := Option.map_eq_some_iff.mp means
      exact iff_of_true nofun null
  | _ => cases pointer

theorem Tally.filled {table : Table} (distinct : (table.fields.map Field.name).Nodup)
    {named : List (String × Json)} {read : MembersRead} (tally : Tally schema table named read)
    {index : Nat} {field : Field} (declared : table.fields[index]? = some field) :
    ∃ member, read.members[index]? = some member ∧
      table.lookup? field.name = some (index, field) ∧
        some member = match last? named field.name with
          | some json => json.readAs schema field.shape
          | none => some (schema.initial field.shape) := by
  have found := Table.lookup?_of_distinct distinct declared
  have inside : index < read.members.length := by
    rw [tally.complete]
    exact (List.getElem?_eq_some_iff.mp declared).1
  have stored := tally.stored _ _ _ found
  rw [List.getElem?_eq_getElem inside] at stored
  exact ⟨read.members[index], List.getElem?_eq_getElem inside, found, stored⟩

theorem Tally.gathered {table : Table} (distinct : (table.fields.map Field.name).Nodup)
    {spelled : Spelled} (all : ∀ part ∈ spelled, Spells part.2.1 part.2.2) {read : MembersRead}
    (tally : Tally schema table spelled.trees read)
    (each : ∀ pair ∈ spelled.trees, ∃ slot value,
      table.memberSlot? pair.1 = some slot ∧ pair.2.readAs schema slot.shape = some value) :
    Gathered schema table spelled.texts (.object read.members read.presence read.extras) where
  stored := by
    intro index field declared
    obtain ⟨member, here, -, holds⟩ := tally.filled distinct declared
    refine ⟨member, here, ?_⟩
    rcases Spelled.last_cases all field.name with
      ⟨noText, noTree⟩ | ⟨text, json, isText, isTree, spells⟩
    · rw [noTree] at holds
      rw [noText]
      exact Option.some.inj holds
    · rw [isTree] at holds
      rw [isText]
      exact (spells.parse_eq_ok_iff _ _).mpr holds.symm
  bits := by
    intro field among bit
    obtain ⟨index, declared⟩ := List.mem_iff_getElem?.mp among
    obtain ⟨member, here, found, -⟩ := tally.filled distinct declared
    rw [Table.has_declared found here, Field.isLive_bit bit, tally.bits _ _ _ found, bit,
      ← last?_isSome_iff]
    rcases Spelled.last_cases all field.name with
      ⟨noText, noTree⟩ | ⟨text, json, isText, isTree, spells⟩
    · simp [noText, noTree]
    · simp [isText, isTree]
  options := by
    intro field among pointer
    obtain ⟨index, declared⟩ := List.mem_iff_getElem?.mp among
    obtain ⟨member, here, found, holds⟩ := tally.filled distinct declared
    rw [Table.has_declared found here, Field.isLive_pointer pointer]
    rcases Spelled.last_cases all field.name with
      ⟨noText, noTree⟩ | ⟨text, json, isText, isTree, spells⟩
    · rw [noTree, Shape.initial_of_tellsPresence pointer] at holds
      simp [noText, Option.some.inj holds]
    · rw [isTree] at holds
      have kept : text ≠ ['n', 'u', 'l', 'l'] ↔ json ≠ .null := not_congr spells.text_eq_null_iff
      rw [readAs_option_ne_absent pointer holds.symm, isText, ← kept]
      simp
  names := by
    have sameNames : spelled.trees.map Prod.fst = spelled.texts.map Prod.fst := by
      simp [Spelled.trees, Spelled.texts]
    simp only [Value.extras, tally.names, Table.isNone_lookup?, sameNames]
  extras := by
    intro name text undeclared last
    have notFound := Table.lookup?_eq_none undeclared
    rcases Spelled.last_cases all name with
      ⟨noText, -⟩ | ⟨text', json, isText, isTree, spells⟩
    · rw [noText] at last
      cases last
    · rw [isText] at last
      cases last
      obtain ⟨slot, value, isSlot, means⟩ := each _ (mem_of_last? isTree)
      rcases Table.memberSlot?_cases isSlot with
        ⟨index, field, -, found⟩ | ⟨item, rfl, -, admitted⟩
      · rw [notFound] at found
        cases found
      · refine ⟨item, value, admitted, (spells.parse_eq_ok_iff _ _).mpr means, ?_⟩
        rw [Value.extras, tally.extras name item notFound admitted, isTree]
        exact means

theorem parse_object {shape : Shape} {table : Table} (isTable : schema.table? shape = some table)
    (distinct : (table.fields.map Field.name).Nodup) {text : List Char}
    {pairs : List (String × List Char)} (isObject : IsObjectOf text pairs) :
    ((∃ value, parse schema shape (Utf8.encode text) = .ok value) ↔
      ∀ pair ∈ pairs, ∃ expected value, table.Expects pair.1 expected ∧
        parse schema expected (Utf8.encode pair.2) = .ok value) ∧
    ∀ value, parse schema shape (Utf8.encode text) = .ok value →
      Gathered schema table pairs value := by
  obtain ⟨members, spelled, spells, rfl, named, all⟩ := isObject.spelled
  have means : (Json.object (members.map Member.named)).readAs schema shape =
      (Json.readMembers schema table (members.map Member.named) (.start schema table)).map
        fun read => .object read.members read.presence read.extras := by
    cases shape with
    | extras item =>
      cases isTable
      rfl
    | record position =>
      cases isTable
      rfl
    | _ => cases isTable
  have readable := readMembers_isSome_iff schema table named (.start schema table)
  constructor
  · have each : (∀ pair ∈ spelled.texts, ∃ expected value, table.Expects pair.1 expected ∧
        parse schema expected (Utf8.encode pair.2) = .ok value) ↔
        ∀ pair ∈ spelled.trees, ∃ slot value, table.memberSlot? pair.1 = some slot ∧
          pair.2.readAs schema slot.shape = some value := by
      simp only [Spelled.texts, Spelled.trees, List.forall_mem_map]
      apply forall_congr'
      intro part
      apply forall_congr'
      intro among
      simp only [(all part among).parse_eq_ok_iff, Table.expects_iff distinct]
      constructor
      · rintro ⟨_, value, ⟨slot, found, rfl⟩, read⟩
        exact ⟨slot, value, found, read⟩
      · rintro ⟨slot, value, found, read⟩
        exact ⟨_, value, ⟨slot, found, rfl⟩, read⟩
    rw [each, ← readable]
    simp only [spells.parse_eq_ok_iff, means, ← Option.isSome_iff_exists, Option.isSome_map]
  · intro value parsed
    rw [spells.parse_eq_ok_iff, means] at parsed
    obtain ⟨read, reads, rfl⟩ := Option.map_eq_some_iff.mp parsed
    have tally := (Tally.start schema table).run named reads
    exact Tally.gathered distinct all tally (readable.mp (by rw [reads]; rfl))

/-- Containers are parsed part by part, and the last member of a name wins. -/
theorem parse_container (schema : Schema) :
    (∀ item text texts, IsArrayOf text texts → ∀ value,
      parse schema (.list item) (Utf8.encode text) = .ok value ↔
        ∃ values, value = .list values ∧
          (texts.map fun text => parse schema item (Utf8.encode text)) = values.map .ok) ∧
    ∀ shape table, schema.table? shape = some table → (table.fields.map Field.name).Nodup →
      ∀ text pairs, IsObjectOf text pairs →
        ((∃ value, parse schema shape (Utf8.encode text) = .ok value) ↔
          ∀ pair ∈ pairs, ∃ expected value, table.Expects pair.1 expected ∧
            parse schema expected (Utf8.encode pair.2) = .ok value) ∧
        ∀ value, parse schema shape (Utf8.encode text) = .ok value →
          Gathered schema table pairs value := by
  constructor
  · rintro item text _ ⟨elements, isArray, rfl⟩ value
    rw [parse_array_eq_ok_iff isArray, List.map_map]
    rfl
  · intro shape table isTable distinct text pairs isObject
    exact parse_object isTable distinct isObject

/-- A switch that occurs twice, an option that is null, and a name that is not declared: the
object is parsed, and holds what its members leave. -/
theorem parse_container_switches :
    let fields : List Field := [⟨"a", .bool⟩, ⟨"b", .option .bool⟩]
    let schema : Schema := ⟨[⟨fields, some .bool⟩], by decide⟩
    let text := '{' :: commaSeparated [['"', 'a', '"', ':', 't', 'r', 'u', 'e'],
      ['"', 'x', '"', ':', 't', 'r', 'u', 'e'], ['"', 'b', '"', ':', 'n', 'u', 'l', 'l'],
      ['"', 'a', '"', ':', 'f', 'a', 'l', 's', 'e']] ++ ['}']
    let pairs := [("a", ['t', 'r', 'u', 'e']), ("x", ['t', 'r', 'u', 'e']),
      ("b", ['n', 'u', 'l', 'l']), ("a", ['f', 'a', 'l', 's', 'e'])]
    schema.table? (.record 0) = some ⟨fields, some .bool⟩ ∧ (fields.map Field.name).Nodup ∧
      IsObjectOf text pairs ∧
      ∃ value, parse schema (.record 0) (Utf8.encode text) = .ok value ∧
        Gathered schema ⟨fields, some .bool⟩ pairs value := by
  intro fields schema text pairs
  have isTable : schema.table? (.record 0) = some ⟨fields, some .bool⟩ := rfl
  have distinct : (fields.map Field.name).Nodup := by decide
  have isObject : IsObjectOf text pairs := by
    refine ⟨[⟨[], [.plain 'a' rfl], [], [], ['t', 'r', 'u', 'e'], .bool true, []⟩,
      ⟨[], [.plain 'x' rfl], [], [], ['t', 'r', 'u', 'e'], .bool true, []⟩,
      ⟨[], [.plain 'b' rfl], [], [], ['n', 'u', 'l', 'l'], .null, []⟩,
      ⟨[], [.plain 'a' rfl], [], [], ['f', 'a', 'l', 's', 'e'], .bool false, []⟩],
      ⟨?_, ?_, _, rfl, .inr ⟨List.cons_ne_nil _ _, rfl⟩⟩, rfl⟩
    · simp [Blank]
    · simp [Spells.trueText, Spells.falseText, Spells.null]
  have parsed := (parse_container schema).2 _ _ isTable distinct text pairs isObject
  have each : ∀ pair ∈ pairs, ∃ expected value,
      Table.Expects ⟨fields, some .bool⟩ pair.1 expected ∧
        parse schema expected (Utf8.encode pair.2) = .ok value := by
    simp only [pairs, List.forall_mem_cons]
    refine ⟨⟨.bool, .bool true, .inl ⟨_, List.mem_cons_self, rfl, rfl⟩, rfl⟩,
      ⟨.bool, .bool true, .inr ⟨by decide, rfl⟩, rfl⟩,
      ⟨.option .bool, .absent, .inl ⟨_, .tail _ List.mem_cons_self, rfl, rfl⟩, rfl⟩,
      ⟨.bool, .bool false, .inl ⟨_, List.mem_cons_self, rfl, rfl⟩, rfl⟩,
      List.forall_mem_nil _⟩
  obtain ⟨value, result⟩ := parsed.1.mpr each
  exact ⟨isTable, distinct, isObject, value, result, parsed.2 value result⟩

end IncrementalJson
