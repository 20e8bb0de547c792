import IncrementalJson.Proofs.Reading.Completeness
import IncrementalJson.Proofs.Reading.Tables

/-!
# Induction on what is read

What is read for a tree is an option without a value, or what the tree means in
its inner shape with the layers of the shape around it.  A property of all that
is read follows from four steps: options without a value, layers, leaves, and
containers whose parts were read.
-/

set_option autoImplicit false

namespace IncrementalJson

variable {schema : Schema}

/-! ## What members hold -/

/-- A declared member that is there holds what was read for it, and its name leads to it; any
other holds what its shape starts from.  Extras were read, and have names of their own that are
not declared. -/
structure MembersRead.Holds (schema : Schema) (table : Table) (part : Shape → Value → Prop)
    (read : MembersRead) : Prop where
  complete : read.members.length = table.fields.length
  words : read.presence.words.length = (table.fields.length + 63) / 64
  bits : ∀ index, read.presence.get index → ∃ field, table.fields[index]? = some field ∧
    field.shape.tellsPresence = false
  live : ∀ (index : Nat) (field : Field) (value : Value), table.fields[index]? = some field →
    read.members[index]? = some value → field.isLive index value read.presence →
      table.lookup? field.name = some (index, field) ∧ part field.shape value
  dead : ∀ (index : Nat) (field : Field) (value : Value), table.fields[index]? = some field →
    read.members[index]? = some value → field.isLive index value read.presence = false →
      value = schema.initial field.shape
  distinct : read.extras.names.Nodup
  extra : ∀ entry ∈ read.extras, table.lookup? entry.1 = none ∧
    ∃ item, table.extra = some item ∧ part item entry.2

namespace MembersRead.Holds

variable {table : Table} {part : Shape → Value → Prop} {read : MembersRead}

theorem start (schema : Schema) (table : Table) (part : Shape → Value → Prop) :
    Holds schema table part (.start schema table) where
  complete := List.length_map ..
  words := List.length_replicate
  bits index there := by
    simp [MembersRead.start] at there
  live index field value here there live := by
    simp only [MembersRead.start, List.getElem?_map, here, Option.map_some,
      Option.some.injEq] at there live
    subst there
    cases pointer : field.shape.tellsPresence with
    | false =>
      rw [Field.isLive_bit pointer, PresenceBits.get_forMembers] at live
      cases live
    | true =>
      rw [Field.isLive_pointer pointer] at live
      exact absurd (Shape.initial_of_tellsPresence pointer) live
  dead index field value here there _ := by
    simp only [MembersRead.start, List.getElem?_map, here, Option.map_some,
      Option.some.injEq] at there
    exact there.symm
  distinct := List.nodup_nil
  extra := nofun

theorem take_declared {presence : PresenceBits 64} {index : Nat} {field : Field} {value : Value}
    (held : Holds schema table part read) (found : table.lookup? field.name = some (index, field))
    (here : part field.shape value)
    (words : presence.words.length = read.presence.words.length)
    (bits : ∀ other, presence.get other → read.presence.get other ∨
      index = other ∧ field.shape.tellsPresence = false)
    (others : ∀ (other : Nat) (field : Field) (value : Value), index ≠ other →
      field.isLive other value presence = field.isLive other value read.presence)
    (gone : field.isLive index value presence = false → value = schema.initial field.shape) :
    Holds schema table part ⟨read.members.set index value, presence, read.extras⟩ := by
  have declared := (Table.lookup?_spec found).1
  have itself : ∀ (field' : Field) (value' : Value), table.fields[index]? = some field' →
      (read.members.set index value)[index]? = some value' → field' = field ∧ value' = value := by
    intro field' value' declared' stored
    rw [declared] at declared'
    rw [List.getElem?_set_self'] at stored
    obtain ⟨_, -, rfl⟩ := Option.map_eq_some_iff.mp stored
    exact ⟨(Option.some.inj declared').symm, rfl⟩
  refine ⟨?_, words.trans held.words, ?_, ?_, ?_, held.distinct, held.extra⟩
  · rw [List.length_set, held.complete]
  · intro other there
    rcases bits other there with there | ⟨rfl, bit⟩
    · exact held.bits other there
    · exact ⟨field, declared, bit⟩
  · intro other field' value' declared' stored live
    by_cases same : index = other
    · subst same
      obtain ⟨rfl, rfl⟩ := itself field' value' declared' stored
      exact ⟨found, here⟩
    · rw [List.getElem?_set_ne same] at stored
      rw [others other field' value' same] at live
      exact held.live other field' value' declared' stored live
  · intro other field' value' declared' stored dead
    by_cases same : index = other
    · subst same
      obtain ⟨rfl, rfl⟩ := itself field' value' declared' stored
      exact gone dead
    · rw [List.getElem?_set_ne same] at stored
      rw [others other field' value' same] at dead
      exact held.dead other field' value' declared' stored dead

theorem take_field {index : Nat} {field : Field} {value : Value}
    (held : Holds schema table part read) (found : table.lookup? field.name = some (index, field))
    (here : part field.shape value) :
    Holds schema table part (read.take value (.field index field)) := by
  cases pointer : field.shape.tellsPresence with
  | true =>
    simp only [MembersRead.take, pointer, if_true]
    apply held.take_declared found here rfl (fun other there => .inl there) fun _ _ _ _ => rfl
    intro dead
    rw [Shape.initial_of_tellsPresence pointer]
    by_cases absent : value = .absent
    · exact absent
    · rw [(Field.isLive_pointer pointer _ _ _).mpr absent] at dead
      cases dead
  | false =>
    have fits : index < read.presence.capacity := by
      obtain ⟨inside, -⟩ := List.getElem?_eq_some_iff.mp (Table.lookup?_spec found).1
      rw [PresenceBits.capacity, held.words]
      omega
    simp only [MembersRead.take, pointer, Bool.false_eq_true, if_false]
    apply held.take_declared found here
    · exact List.length_modify ..
    · intro other there
      rw [PresenceBits.get_set] at there
      split at there
      · rename_i same
        exact .inr ⟨same.1, pointer⟩
      · exact .inl there
    · intro other field' value' differ
      exact Field.isLive_set differ value' read.presence
    · intro dead
      rw [Field.isLive_bit pointer, PresenceBits.get_set, if_pos ⟨rfl, fits⟩] at dead
      cases dead

theorem take_extra {name : String} {item : Shape} {value : Value}
    (held : Holds schema table part read) (undeclared : table.lookup? name = none)
    (admitted : table.extra = some item) (here : part item value) :
    Holds schema table part (read.take value (.extra name item)) := by
  refine ⟨held.complete, held.words, held.bits, held.live, held.dead,
    Entries.nodup_insert held.distinct name value, ?_⟩
  intro entry among
  rcases Entries.mem_insert among with rfl | among
  · exact ⟨undeclared, item, admitted, here⟩
  · exact held.extra entry among

theorem take {name : String} {slot : MemberSlot} {value : Value}
    (held : Holds schema table part read) (found : table.memberSlot? name = some slot)
    (here : part slot.shape value) : Holds schema table part (read.take value slot) := by
  rcases Table.memberSlot?_cases found with ⟨index, field, rfl, declared⟩ |
    ⟨item, rfl, undeclared, admitted⟩
  · rw [← (Table.lookup?_spec declared).2] at declared
    exact held.take_field declared here
  · exact held.take_extra undeclared admitted here

theorem mono {part' : Shape → Value → Prop} (held : Holds schema table part read)
    (wider : ∀ shape value, part shape value → part' shape value) :
    Holds schema table part' read where
  complete := held.complete
  words := held.words
  bits := held.bits
  live index field value here there live :=
    (held.live index field value here there live).imp_right (wider _ _)
  dead := held.dead
  distinct := held.distinct
  extra entry among := by
    obtain ⟨undeclared, item, admitted, here⟩ := held.extra entry among
    exact ⟨undeclared, item, admitted, wider _ _ here⟩

theorem liveMember (held : Holds schema table part read) {member : String × Shape × Value}
    (among : member ∈ table.liveMembers read.members read.presence read.extras) :
    part member.2.1 member.2.2 := by
  rcases Table.mem_liveMembers.mp among with ⟨index, field, value, here, there, live, rfl⟩ |
    ⟨item, entry, admitted, inside, rfl⟩
  · exact (held.live index field value here there live).2
  · obtain ⟨-, item', admitted', here⟩ := held.extra entry inside
    rw [admitted] at admitted'
    cases admitted'
    exact here

end MembersRead.Holds

/-! ## The principle -/

namespace Json

def isLeaf : Json → Bool
  | array _ => false
  | object _ => false
  | _ => true

/-- A member of an object was read for a shape. -/
def MemberReads (motive : Json → Shape → Value → Prop) (table : Table)
    (members : List (List StringItem × Json)) (shape : Shape) (value : Value) : Prop :=
  ∃ name json slot, (name, json) ∈ members ∧ (textOf? name).bind table.memberSlot? = some slot ∧
    slot.shape = shape ∧ motive json shape value

/-- The steps of an induction on what is read. -/
structure ReadSteps (schema : Schema) (motive : Json → Shape → Value → Prop) : Prop where
  absent : ∀ shape : Shape, shape.hasOption → motive null shape .absent
  layers : ∀ (json : Json) (shape : Shape) (value : Value), (shape.hasOption → json ≠ null) →
    Means schema json (json.innerShape shape) value → motive json (json.innerShape shape) value →
      motive json shape (wrap shape value)
  leaf : ∀ (json : Json) (shape : Shape) (value : Value), json.isLeaf →
    Means schema json shape value → motive json shape value
  array : ∀ (items : List Json) (item : Shape) (values : List Value),
    (∀ value ∈ values, ∃ json ∈ items, motive json item value) →
      motive (array items) (.list item) (.list values)
  object : ∀ (members : List (List StringItem × Json)) (shape : Shape) (table : Table)
    (read : MembersRead), schema.table? shape = some table →
      read.Holds schema table (MemberReads motive table members) →
        motive (object members) shape (.object read.members read.presence read.extras)

namespace ReadSteps

variable {motive : Json → Shape → Value → Prop} {json : Json} {shape : Shape} {value : Value}

theorem of_inner (steps : ReadSteps schema motive)
    (inner : ∀ value, Means schema json (json.innerShape shape) value →
      motive json (json.innerShape shape) value)
    (means : json.readAs schema shape = some value) : motive json shape value := by
  by_cases option : shape.hasOption ∧ json = null
  · obtain ⟨option, rfl⟩ := option
    rw [readAs_absent schema option] at means
    cases means
    exact steps.absent shape option
  · have kept : shape.hasOption → json ≠ null := fun has null => option ⟨has, null⟩
    rw [readAs_inner schema shape json kept] at means
    obtain ⟨core, read, rfl⟩ := Option.map_eq_some_iff.mp means
    have meant := means_of_readAs kept read
    exact steps.layers json shape core kept meant (inner core meant)

mutual

/-- Whatever is read has a property that the steps keep. -/
theorem readAs (steps : ReadSteps schema motive) (json : Json) (shape : Shape) {value : Value}
    (means : json.readAs schema shape = some value) : motive json shape value := by
  match json with
  | .null => exact steps.of_inner (fun value => steps.leaf .null _ value rfl) means
  | .bool truth => exact steps.of_inner (fun value => steps.leaf (.bool truth) _ value rfl) means
  | .number literal =>
    exact steps.of_inner (fun value => steps.leaf (.number literal) _ value rfl) means
  | .string items =>
    exact steps.of_inner (fun value => steps.leaf (.string items) _ value rfl) means
  | .array items =>
    apply steps.of_inner _ means
    intro value meant
    generalize (Json.array items).innerShape shape = inner at meant ⊢
    cases meant with
    | array means => exact steps.array items _ _ (readItems steps items _ means)
  | .object members =>
    apply steps.of_inner _ means
    intro value meant
    generalize (Json.object members).innerShape shape = inner at meant ⊢
    cases meant with
    | object declared means =>
      refine steps.object members inner _ _ declared ?_
      apply readMembers steps members means _ (.start schema _ _)
      intro name json slot among found value reads
      exact ⟨name, json, slot, among, found, rfl, reads⟩

theorem readItems (steps : ReadSteps schema motive) (items : List Json) (item : Shape)
    {values : List Value} (means : Json.readItems schema item items = some values) :
    ∀ value ∈ values, ∃ json ∈ items, motive json item value := by
  match items with
  | [] =>
    cases means
    nofun
  | json :: rest =>
    obtain ⟨value, values', readFirst, readRest, rfl⟩ := readItems_cons means
    have first := readAs steps json item readFirst
    have others := readItems steps rest item readRest
    intro part among
    rcases List.mem_cons.mp among with rfl | among
    · exact ⟨json, List.mem_cons_self, first⟩
    · obtain ⟨other, inside, reads⟩ := others part among
      exact ⟨other, List.mem_cons_of_mem _ inside, reads⟩

theorem readMembers (steps : ReadSteps schema motive) (members : List (List StringItem × Json))
    {table : Table} {part : Shape → Value → Prop} {read read' : MembersRead}
    (means : Json.readMembers schema table members read = some read')
    (each : ∀ name json slot, (name, json) ∈ members →
      (textOf? name).bind table.memberSlot? = some slot →
        ∀ value, motive json slot.shape value → part slot.shape value)
    (held : read.Holds schema table part) : read'.Holds schema table part := by
  match members with
  | [] =>
    cases means
    exact held
  | (name, json) :: rest =>
    obtain ⟨text, slot, value, named, found, readFirst, readRest⟩ := readMembers_cons means
    have first : part slot.shape value := by
      apply each name json slot List.mem_cons_self
      · rw [named, Option.bind_some, found]
      · exact readAs steps json slot.shape readFirst
    apply readMembers steps rest readRest _ (held.take found first)
    intro name json slot among
    exact each name json slot (List.mem_cons_of_mem _ among)

end

end ReadSteps

end Json

end IncrementalJson
