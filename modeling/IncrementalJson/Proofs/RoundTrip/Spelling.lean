import IncrementalJson.Proofs.Reading.Soundness
import IncrementalJson.Proofs.RoundTrip.Restored
import IncrementalJson.Proofs.Writing.Generating
import IncrementalJson.Proofs.Writing.Quoting

/-!
# What is written spells what is restored

By induction on a value, its text is one of the grammar, and the tree that it
spells is read as the value restored.
-/

set_option autoImplicit false

namespace IncrementalJson

variable {schema : Schema}

/-! ## Layers of shapes -/

theorem written_box (item : Shape) (value : Value) (out : List UInt8) :
    Written schema (.box item) value out ↔ Written schema item value out := by
  have same : Emitter.start schema (.box item) value = Emitter.start schema item value := by
    rw [Emitter.start.eq_def, Emitter.start.eq_def schema item]
    rfl
  rw [Written, Written, same]

theorem written_held (value : Value) (out : List UInt8) :
    Written schema .variant (.held value) out ↔ Written schema value.heldShape value out := by
  have same : Emitter.start schema .variant (.held value) =
      Emitter.start schema value.heldShape value := rfl
  rw [Written, Written, same]

theorem written_present (item : Shape) (value : Value) (out : List UInt8) :
    Written schema (.option item) (.present value) out ↔ Written schema item value out := by
  have same : Emitter.start schema (.option item) (.present value) =
      Emitter.start schema item value := rfl
  rw [Written, Written, same]

theorem restored_box (item : Shape) (value : Value) :
    value.restored schema (.box item) = value.restored schema item := by
  cases value <;> rfl

/-! ## Null -/

/-- Whether the text of a value is null. -/
def Value.spellsNull : Value → Bool
  | .null => true
  | .absent => true
  | .held value => value.spellsNull
  | .present value => value.spellsNull
  | _ => false

theorem Value.spellsNull_restored (shape : Shape) : ∀ value : Value,
    (value.restored schema shape).spellsNull = value.spellsNull
  | .null | .bool _ | .string _ | .number _ | .unset | .absent => rfl
  | .list items => by
    rw [restored]
    split <;> rfl
  | .object members presence extras => by
    rw [restored]
    split <;> rfl
  | .held value => spellsNull_restored value.heldShape value
  | .present value => by
    rw [restored]
    split
    · exact spellsNull_restored _ value
    · rfl

theorem Shape.wrap_spellsNull (shape : Shape) (value : Value) :
    (shape.wrap value).spellsNull = value.spellsNull := by
  induction shape with
  | option item ih => exact ih
  | box item ih => exact ih
  | _ => rfl

theorem Json.heldShape_of_readAs {value read : Value} {json : Json}
    (means : json.readAs schema value.heldShape = some read) :
    json.heldShape = value.heldShape := by
  generalize held : value.heldShape = shape at means ⊢
  have known : shape = .null ∨ shape = .bool ∨ shape = .string ∨ shape = .number .any ∨
      shape = .list .variant ∨ shape = .map := by
    subst held
    cases value <;> simp [Value.heldShape]
  rcases known with rfl | rfl | rfl | rfl | rfl | rfl <;> cases json <;>
    first
    | rfl
    | simp [readAs, innerShape, Shape.core, Shape.item?, Schema.table?, Shape.hasOption] at means

theorem Json.spellsNull_of_readAs {shape : Shape} {value : Value}
    (means : Json.null.readAs schema shape = some value) : value.spellsNull := by
  rw [readAs] at means
  split at means
  · cases means
    rfl
  · split at means
    · cases means
      rw [wrap, Shape.wrap_spellsNull]
      split <;> rfl
    · cases means

/-! ## Scalars -/

theorem Literal.readAs_of_text? {type : NumberType} {value : NumberValue} {text : List Char}
    (typed : type.Holds value) (readsBack : value.ReadsBack) (written : value.text? = some text) :
    ∃ literal : Literal, literal.text = text ∧ literal.readAs type = some value.restored := by
  obtain ⟨literal, rfl, integer⟩ := NumberValue.literal_of_text? written
  refine ⟨literal, rfl, ?_⟩
  have float (format : FloatFormat) (bits : Nat)
      (reads : format.readFinite literal.bytes = .ok bits) :
      literal.float? format = some bits := by
    rw [Literal.float?, reads]
    rfl
  cases value with
  | any number =>
    cases type with
    | any =>
      cases number with
      | int value =>
        simp only [NumberType.Holds] at typed
        simp [Literal.readAs, Literal.number?, integer, NumberValue.integer?, typed,
          NumberValue.restored]
      | uint value =>
        simp only [NumberType.Holds] at typed
        have low : IntegerKind.signed64.least ≤ (value : Int) :=
          Int.le_trans (by decide) (Int.natCast_nonneg value)
        -- read without its type, an integer that fits 64 bits with a sign takes that arm
        by_cases small : (value : Int) ≤ IntegerKind.signed64.greatest
        · have holds : IntegerKind.signed64.holds value := by simp [IntegerKind.holds, low, small]
          simp [Literal.readAs, Literal.number?, integer, NumberValue.integer?, holds,
            NumberValue.restored, Number.ofInteger, small]
        · have large : IntegerKind.signed64.holds value = false := by
            simp [IntegerKind.holds, small]
          simp [Literal.readAs, Literal.number?, integer, NumberValue.integer?, large, typed,
            NumberValue.restored, Number.ofInteger, small]
      | float bits =>
        have reads := float _ _ (readsBack literal.text written)
        simp [Literal.readAs, Literal.number?, integer, NumberValue.integer?, reads,
          NumberValue.restored]
    | _ => exact typed.elim
  | integer value =>
    cases type with
    | integer kind =>
      simp only [NumberType.Holds] at typed
      simp [Literal.readAs, integer, NumberValue.integer?, typed, NumberValue.restored]
    | _ => exact typed.elim
  | single bits =>
    cases type with
    | single =>
      have reads := float _ _ (readsBack literal.text written)
      simp [Literal.readAs, reads, NumberValue.restored]
    | _ => exact typed.elim
  | double bits =>
    cases type with
    | double =>
      have reads := float _ _ (readsBack literal.text written)
      simp [Literal.readAs, reads, NumberValue.restored]
    | _ => exact typed.elim

/-! ## Items -/

/-- Every text of a value is one of the grammar, and read as the value restored. -/
def Restores (schema : Schema) (shape : Shape) (value : Value) : Prop :=
  ∀ out, Written schema shape value out → ∃ text json, out = Utf8.encode text ∧
    Spells text json ∧ json.readAs schema shape = some (value.restored schema shape)

theorem Blank.both : Blank [] ∧ Blank [] := ⟨Blank.nil, Blank.nil⟩

theorem elements_of_emits {item : Shape} {items : List Value} {rest : List EmitStep}
    {out : List UInt8} (restore : ∀ value ∈ items, Restores schema item value)
    (emits : Emits schema (items.map (.call [Ascii.comma] item) ++ rest) out) :
    ∃ elements more, Emits schema rest more ∧
      out = Utf8.encode (commaLed (elements.map Element.padded)) ++ more ∧
      ElementsMean schema item elements (restoredItems schema item items) := by
  induction items generalizing out with
  | nil => exact ⟨[], out, emits, rfl, .nil schema item⟩
  | cons value items ih =>
    obtain ⟨first, others⟩ := List.forall_mem_cons.mp restore
    rw [List.map_cons, List.cons_append, emits_call] at emits
    obtain ⟨inner, more, written, emits, rfl⟩ := emits
    obtain ⟨text, json, rfl, spells, means⟩ := first inner written
    obtain ⟨elements, more, behind, rfl, mean⟩ := ih others emits
    refine ⟨⟨[], text, json, []⟩ :: elements, more, behind, ?_,
      .cons Blank.both spells means mean⟩
    rw [List.map_cons, encode_commaLed_cons, Element.encode_padded]
    rfl

theorem emits_last (bytes text : List UInt8) :
    Emits schema [.token bytes] text ↔ text = bytes := by
  rw [emits_token]
  constructor
  · rintro ⟨more, nothing, rfl⟩
    rw [(emits_nil more).mp nothing, List.append_nil]
  · rintro rfl
    exact ⟨[], .nil, (List.append_nil _).symm⟩

theorem restores_list {item : Shape} {items : List Value}
    (restore : ∀ value ∈ items, Restores schema item value) :
    Restores schema (.list item) (.list items) := by
  rintro out ⟨emitter, started, emits⟩
  cases started
  cases items with
  | nil =>
    obtain ⟨more, behind, rfl⟩ := (emits_token _ _ _).mp emits
    rw [(emits_last _ _).mp behind]
    exact ⟨['[', ']'], .array [], by decide, .emptyArray Blank.nil, Json.readAs_items rfl⟩
  | cons first items =>
    obtain ⟨here, others⟩ := List.forall_mem_cons.mp restore
    obtain ⟨more, inside, rfl⟩ := (emits_token _ _ _).mp emits
    obtain ⟨inner, more, written, behind, rfl⟩ := (emits_call _ _ _ _ _).mp inside
    obtain ⟨text, json, rfl, spells, means⟩ := here inner written
    obtain ⟨elements, more, last, rfl, mean⟩ := elements_of_emits others behind
    rw [(emits_last _ _).mp last]
    have mean' : ElementsMean schema item (⟨[], text, json, []⟩ :: elements) _ :=
      .cons Blank.both spells means mean
    refine ⟨_, _, ?_, .array (List.cons_ne_nil _ _) mean'.blank mean'.spelled,
      Json.readAs_items mean'.means⟩
    have whole := encode_array [] ⟨[], text, json, []⟩ elements []
    rw [Element.encode_padded, List.append_nil] at whole
    exact whole

/-! ## Members -/

/-- What members come to that are written and read again, behind those that were read before. -/
inductive Takes (schema : Schema) (table : Table) :
    List (String × Shape × Value) → MembersRead → MembersRead → Prop where
  | nil (read : MembersRead) : Takes schema table [] read read
  | cons {name : String} (slot : MemberSlot) {value : Value}
      {members : List (String × Shape × Value)} {read read' : MembersRead}
      (found : table.memberSlot? name = some slot)
      (takes : Takes schema table members (read.take (value.restored schema slot.shape) slot)
        read') :
      Takes schema table ((name, slot.shape, value) :: members) read read'

theorem emits_tokens (tokens : List (List UInt8)) (rest : List EmitStep) (text : List UInt8) :
    Emits schema (tokens.map .token ++ rest) text ↔
      ∃ more, Emits schema rest more ∧ text = tokens.flatten ++ more := by
  induction tokens generalizing text with
  | nil => simp
  | cons token tokens ih =>
    rw [List.map_cons, List.cons_append, emits_token]
    constructor
    · rintro ⟨more, emits, rfl⟩
      obtain ⟨more, behind, rfl⟩ := (ih more).mp emits
      exact ⟨more, behind, by simp⟩
    · rintro ⟨more, behind, rfl⟩
      exact ⟨tokens.flatten ++ more, (ih _).mpr ⟨more, behind, rfl⟩, by simp⟩

def writtenMember (name : String) (text : List Char) (json : Json) : Member :=
  ⟨[], writtenItems name, [], ⟨[], text, json, []⟩⟩

theorem member_of_emits {name : String} {shape : Shape} {value : Value} {rest : List EmitStep}
    {out : List UInt8} (restores : Restores schema shape value)
    (emits : Emits schema (memberSteps (name, shape, value) ++ rest) out) :
    ∃ text json more, Emits schema rest more ∧
      out = Utf8.encode (writtenMember name text json).padded ++ more ∧
      (writtenMember name text json).Spelled ∧
      json.readAs schema shape = some (value.restored schema shape) := by
  rw [memberSteps, List.append_assoc, emits_tokens] at emits
  obtain ⟨more, emits, rfl⟩ := emits
  obtain ⟨inner, more, written, behind, rfl⟩ := (emits_call _ _ _ _ _).mp emits
  obtain ⟨text, json, rfl, spells, means⟩ := restores inner written
  refine ⟨text, json, more, behind, ?_,
    ⟨Blank.nil, Blank.nil, Blank.nil, Blank.nil, spells⟩, means⟩
  rw [Member.encode_padded, Element.encode_padded, writtenMember, encode_quoted_writtenItems]
  rfl

theorem members_of_emits {table : Table} {members : List (String × Shape × Value)}
    {read read' : MembersRead} (takes : Takes schema table members read read')
    {rest : List EmitStep} {out : List UInt8}
    (restore : ∀ member ∈ members, Restores schema member.2.1 member.2.2)
    (emits : Emits schema (laterMemberSteps members ++ rest) out) :
    ∃ list more, Emits schema rest more ∧
      out = Utf8.encode (commaLed (list.map Member.padded)) ++ more ∧
      MembersMean schema table list read read' := by
  induction takes generalizing out with
  | nil read => exact ⟨[], out, emits, rfl, .nil schema table read⟩
  | @cons name slot value members read read' found _ ih =>
    obtain ⟨first, others⟩ := List.forall_mem_cons.mp restore
    rw [laterMemberSteps, List.flatMap_cons, List.append_assoc, List.cons_append,
      emits_token] at emits
    obtain ⟨more, emits, rfl⟩ := emits
    obtain ⟨text, json, more, emits', rfl, spelled, means⟩ := member_of_emits first emits
    obtain ⟨list, more, behind, rfl, mean⟩ := ih others emits'
    refine ⟨writtenMember name text json :: list, more, behind, ?_,
      .cons spelled (textOf?_writtenItems name) found means mean⟩
    rw [List.map_cons, encode_commaLed_cons]
    rfl

theorem restores_members {shape : Shape} {table : Table} {members : List Value}
    {presence : PresenceBits 64} {extras : Entries Value} {read : MembersRead}
    (declared : schema.table? shape = some table)
    (takes : Takes schema table (table.liveMembers members presence extras)
      (.start schema table) read)
    (restore : ∀ member ∈ table.liveMembers members presence extras,
      Restores schema member.2.1 member.2.2) (out : List UInt8)
    (emits : Emits schema (objectSteps (table.liveMembers members presence extras)) out) :
    ∃ text json, out = Utf8.encode text ∧ Spells text json ∧
      json.readAs schema shape = some (.object read.members read.presence read.extras) := by
  obtain ⟨more, inside, rfl⟩ := (emits_token _ _ _).mp emits
  generalize table.liveMembers members presence extras = live at takes restore inside
  cases takes with
  | nil =>
    rw [(emits_last _ _).mp inside]
    exact ⟨['{', '}'], .object [], by decide, .emptyObject Blank.nil,
      Json.readAs_members declared rfl⟩
  | @cons name slot value live _ _ found takes =>
    obtain ⟨first, others⟩ := List.forall_mem_cons.mp restore
    rw [MembersWriter.nextSteps_first, List.append_eq, List.append_assoc] at inside
    obtain ⟨text, json, more, behind, rfl, spelled, means⟩ := member_of_emits first inside
    obtain ⟨list, more, last, rfl, mean⟩ := members_of_emits takes others behind
    rw [(emits_last _ _).mp last]
    have mean' := MembersMean.cons spelled (textOf?_writtenItems name) found means mean
    have blank : ∀ member ∈ writtenMember name text json :: list, Blank member.beforeName ∧
        Blank member.afterName ∧ Blank member.value.before ∧ Blank member.value.after := by
      intro member among
      have spelled := mean'.spelled member among
      exact ⟨spelled.beforeName, spelled.afterName, spelled.before, spelled.after⟩
    refine ⟨_, _, ?_, .object (List.cons_ne_nil _ _) blank
      (fun member among => (mean'.spelled member among).spells),
      Json.readAs_members declared mean'.means⟩
    have whole := encode_object [] (writtenMember name text json) list []
    rw [List.append_nil] at whole
    exact whole

theorem takes_fields {table : Table} (presence : PresenceBits 64) {extras : Entries Value}
    {later : List (String × Shape × Value)} {read' : MembersRead} {fields : List Field} :
    ∀ (values front : List Value) (marked : PresenceBits 64),
    values.length = fields.length →
    (∀ offset field value, fields[offset]? = some field → values[offset]? = some value →
      field.isLive (front.length + offset) value presence →
        table.lookup? field.name = some (front.length + offset, field)) →
    Takes schema table later
      ⟨front ++ restoredFields schema presence fields values front.length,
        Table.markLive presence fields values front.length marked, extras⟩ read' →
    Takes schema table (Table.liveFields presence fields values front.length ++ later)
      ⟨front ++ fields.map fun field => schema.initial field.shape, marked, extras⟩ read' := by
  induction fields with
  | nil =>
    intro values front marked length _ takes
    rw [List.length_nil, List.length_eq_zero_iff] at length
    subst length
    exact takes
  | cons field fields ih =>
    intro values front marked length named takes
    cases values with
    | nil => cases length
    | cons value values =>
      have first := named 0 field value rfl rfl
      have others : ∀ (last : Value) (offset : Nat) (field : Field) (value : Value),
          fields[offset]? = some field → values[offset]? = some value →
          field.isLive ((front ++ [last]).length + offset) value presence →
          table.lookup? field.name = some ((front ++ [last]).length + offset, field) := by
        intro last offset field value here there live
        have shifted : (front ++ [last]).length + offset = front.length + (offset + 1) := by
          simp only [List.length_append, List.length_singleton]
          omega
        rw [shifted] at live ⊢
        exact named (offset + 1) field value here there live
      have behind (last : Value) (marked : PresenceBits 64) :=
        ih values (front ++ [last]) marked (Nat.succ.inj length) (others last)
      simp only [List.length_append, List.length_singleton, List.append_assoc,
        List.singleton_append] at behind
      simp only [Table.liveFields, restoredFields, Table.markLive, List.map_cons] at takes ⊢
      by_cases live : field.isLive front.length value presence
      · have found : table.memberSlot? field.name = some (.field front.length field) := by
          rw [Table.memberSlot?, first live]
          rfl
        simp only [live, if_true] at takes ⊢
        refine .cons (.field front.length field) found ?_
        simp only [MembersRead.take, List.set_append_right, Nat.sub_self, Nat.le_refl,
          List.set_cons_zero, MemberSlot.shape]
        exact behind _ _ takes
      · simp only [live, if_false, Bool.false_eq_true] at takes ⊢
        exact behind _ _ takes

theorem Entries.insert_new {α : Type} {entries : Entries α} {name : String} (value : α)
    (new : name ∉ entries.names) : entries.insert name value = entries ++ [(name, value)] := by
  induction entries with
  | nil => rfl
  | cons entry entries ih =>
    obtain ⟨key, old⟩ := entry
    simp only [names, List.map_cons, List.mem_cons, not_or] at new
    rw [Entries.insert, if_neg (Ne.symm new.1), ih new.2]
    rfl

theorem takes_extras {table : Table} {item : Shape} (extra : table.extra = some item)
    {members : List Value} {presence : PresenceBits 64} {entries : Entries Value} :
    ∀ front : Entries Value, (front.names ++ entries.names).Nodup →
    (∀ name ∈ entries.names, table.lookup? name = none) →
    Takes schema table (entries.map fun (name, value) => (name, item, value))
      ⟨members, presence, front⟩
      ⟨members, presence, front ++ restoredEntries schema (some item) entries⟩ := by
  induction entries with
  | nil =>
    intro front _ _
    rw [restoredEntries, List.append_nil]
    exact .nil _
  | cons entry entries ih =>
    obtain ⟨name, value⟩ := entry
    intro front distinct undeclared
    have found : table.memberSlot? name = some (.extra name item) := by
      rw [Table.memberSlot?, undeclared name (by simp [Entries.names]), extra]
      rfl
    have moved : (Entries.names (front ++ [(name, value.restored schema item)]) ++
        Entries.names entries) = front.names ++ Entries.names ((name, value) :: entries) := by
      simp [Entries.names]
    have new : name ∉ front.names := by
      intro among
      rw [List.nodup_append] at distinct
      exact distinct.2.2 name among name (by simp [Entries.names]) rfl
    have undeclared' : ∀ name ∈ Entries.names entries, table.lookup? name = none := by
      intro other among
      exact undeclared other (List.mem_cons_of_mem _ among)
    refine .cons (.extra name item) found ?_
    have behind := ih (front ++ [(name, value.restored schema item)])
      (by rw [moved]; exact distinct) undeclared'
    simp only [MembersRead.take, Entries.insert_new _ new, restoredEntries, MemberSlot.shape]
    rw [List.append_assoc] at behind
    exact behind

/-! ## Values -/

/-- What it takes for a value to come back: no text of a number reads as another one, no option
holds what is written as null, and every member has the place that its name finds. -/
inductive Restorable (schema : Schema) : Shape → Value → Prop where
  | null : Restorable schema .null .null
  | bool (value : Bool) : Restorable schema .bool (.bool value)
  | string (text : String) : Restorable schema .string (.string text)
  | number {type : NumberType} {value : NumberValue} (typed : type.Holds value)
      (readsBack : value.ReadsBack) : Restorable schema (.number type) (.number value)
  | list {item : Shape} {items : List Value}
      (restorable : ∀ value ∈ items, Restorable schema item value) :
      Restorable schema (.list item) (.list items)
  | unset : Restorable schema .variant .unset
  | held {value : Value} (restorable : Restorable schema value.heldShape value) :
      Restorable schema .variant (.held value)
  | absent (item : Shape) : Restorable schema (.option item) .absent
  | present {item : Shape} {value : Value} (restorable : Restorable schema item value)
      (solid : value.spellsNull = false) : Restorable schema (.option item) (.present value)
  | box {item : Shape} {value : Value} (restorable : Restorable schema item value) :
      Restorable schema (.box item) value
  | object {shape : Shape} {table : Table} {members : List Value} {presence : PresenceBits 64}
      {extras : Entries Value} (declared : schema.table? shape = some table)
      (complete : members.length = table.fields.length) (distinct : extras.names.Nodup)
      (named : ∀ index field value, table.fields[index]? = some field →
        members[index]? = some value → field.isLive index value presence →
          table.lookup? field.name = some (index, field))
      (undeclared : ∀ item, table.extra = some item →
        ∀ name ∈ extras.names, table.lookup? name = none)
      (restorable : ∀ member ∈ table.liveMembers members presence extras,
        Restorable schema member.2.1 member.2.2) :
      Restorable schema shape (.object members presence extras)

theorem takes_liveMembers {table : Table} {members : List Value} {presence : PresenceBits 64}
    {extras : Entries Value} (complete : members.length = table.fields.length)
    (distinct : extras.names.Nodup)
    (named : ∀ index field value, table.fields[index]? = some field →
      members[index]? = some value → field.isLive index value presence →
        table.lookup? field.name = some (index, field))
    (undeclared : ∀ item, table.extra = some item →
      ∀ name ∈ extras.names, table.lookup? name = none) :
    Takes schema table (table.liveMembers members presence extras) (.start schema table)
      ⟨restoredFields schema presence table.fields members 0,
        Table.markLive presence table.fields members 0 (.forMembers table.fields.length),
        restoredEntries schema table.extra extras⟩ := by
  have named' : ∀ offset field value, table.fields[offset]? = some field →
      members[offset]? = some value → field.isLive (0 + offset) value presence →
        table.lookup? field.name = some (0 + offset, field) := by
    intro offset field value
    rw [Nat.zero_add]
    exact named offset field value
  apply takes_fields presence members [] _ complete named'
  cases extra : table.extra with
  | none =>
    have nothing : restoredEntries schema none extras = [] := by
      cases extras <;> rfl
    rw [nothing]
    exact .nil _
  | some item => exact takes_extras extra [] distinct (undeclared item extra)

/-- Whatever is written of a restorable value is read as the value restored. -/
theorem Restorable.restores {shape : Shape} {value : Value}
    (restorable : Restorable schema shape value) : Restores schema shape value := by
  induction restorable with
  | null =>
    rintro out ⟨emitter, started, emits⟩
    cases started
    rw [(emits_last _ _).mp emits]
    exact ⟨['n', 'u', 'l', 'l'], .null, by decide, .null, rfl⟩
  | bool value =>
    rintro out ⟨emitter, started, emits⟩
    cases started
    rw [(emits_last _ _).mp emits]
    cases value with
    | false => exact ⟨['f', 'a', 'l', 's', 'e'], .bool false, by decide, .falseText, rfl⟩
    | true => exact ⟨['t', 'r', 'u', 'e'], .bool true, by decide, .trueText, rfl⟩
  | string text =>
    rintro out ⟨emitter, started, emits⟩
    cases started
    rw [Emitter.steps_ofString, ← List.append_nil ((stringTokens text).map _), emits_tokens] at emits
    obtain ⟨more, nothing, rfl⟩ := emits
    rw [(emits_nil more).mp nothing, List.append_nil, ← encode_quoted_writtenItems]
    refine ⟨_, .string (writtenItems text), rfl, .string _, ?_⟩
    simp [Json.readAs, Json.innerShape, Shape.core, textOf?_writtenItems, Json.wrap, Shape.wrap,
      Value.restored]
  | @number type value typed readsBack =>
    rintro out ⟨emitter, started, emits⟩
    rw [Emitter.start_eq_ok_iff] at started
    cases started with
    | number unboxed written =>
      rw [(emits_last _ _).mp emits]
      obtain ⟨literal, rfl, means⟩ := Literal.readAs_of_text? typed readsBack written
      refine ⟨_, .number literal, rfl, .number literal, ?_⟩
      simp [Json.readAs, Json.innerShape, Shape.core, means, Json.wrap, Shape.wrap,
        Value.restored]
  | list _ ih => exact restores_list ih
  | unset =>
    rintro out ⟨emitter, started, -⟩
    cases started
  | @held value _ ih =>
    intro out written
    rw [written_held] at written
    obtain ⟨text, json, rfl, spells, means⟩ := ih out written
    refine ⟨text, json, rfl, spells, ?_⟩
    rw [Json.readAs_variant, Json.heldShape_of_readAs means, means]
    rfl
  | absent item =>
    rintro out ⟨emitter, started, emits⟩
    cases started
    rw [(emits_last _ _).mp emits]
    exact ⟨['n', 'u', 'l', 'l'], .null, by decide, .null, Json.readAs_absent schema rfl⟩
  | @present item value _ solid ih =>
    intro out written
    rw [written_present] at written
    obtain ⟨text, json, rfl, spells, means⟩ := ih out written
    have kept : json ≠ .null := by
      rintro rfl
      have null := Json.spellsNull_of_readAs means
      rw [Value.spellsNull_restored, solid] at null
      cases null
    refine ⟨text, json, rfl, spells, ?_⟩
    rw [Json.readAs_option item kept, means]
    rfl
  | box _ ih =>
    intro out written
    rw [written_box] at written
    obtain ⟨text, json, rfl, spells, means⟩ := ih out written
    refine ⟨text, json, rfl, spells, ?_⟩
    rw [Json.readAs_box, means, restored_box]
  | @object shape table members presence extras declared complete distinct named undeclared _ ih =>
    rintro out ⟨emitter, started, emits⟩
    rw [Emitter.start_eq_ok_iff] at started
    cases started with
    | object _ _ _ declared' =>
      rw [Schema.unbox_of_table? declared, declared] at declared'
      cases declared'
      have read := restores_members declared
        (takes_liveMembers complete distinct named undeclared) ih out emits
      simpa only [Value.restored, Schema.unbox_of_table? declared, declared] using read

end IncrementalJson
