import IncrementalJson.Proofs.Float.Literals
import IncrementalJson.Proofs.Reading.Induction
import IncrementalJson.Proofs.RoundTrip.Spelling

/-!
# Values that stay as they are

A value is settled if it can be written and comes back as it is.  Scalars that
were read are settled, the layers of a shape keep it so, and an object is settled
if its members are and nothing is stored beside them.
-/

set_option autoImplicit false

namespace IncrementalJson

variable {schema : Schema}

/-- The floats that are written with a value read back. -/
def FloatsReadBack (schema : Schema) (shape : Shape) (value : Value) : Prop :=
  ∀ type number, Live schema shape value (.number type) (.number number) → number.ReadsBack

/-- A value can be written, and reading restores it unchanged. -/
structure Settled (schema : Schema) (shape : Shape) (value : Value) : Prop where
  restorable : FloatsReadBack schema shape value → Restorable schema shape value
  written : ∃ out, Written schema shape value out
  same : value.restored schema shape = value

/-! ## Layers -/

theorem settled_box {item : Shape} {value : Value} (settled : Settled schema item value) :
    Settled schema (.box item) value where
  restorable floats := by
    apply Restorable.box
    apply settled.restorable
    intro type number live
    exact floats type number (.box live)
  written := by
    obtain ⟨out, written⟩ := settled.written
    exact ⟨out, (written_box item value out).mpr written⟩
  same := by rw [restored_box, settled.same]

theorem settled_present {item : Shape} {value : Value} (settled : Settled schema item value)
    (solid : value.spellsNull = false) : Settled schema (.option item) (.present value) where
  restorable floats := by
    refine Restorable.present (settled.restorable ?_) solid
    intro type number live
    exact floats type number (.present live)
  written := by
    obtain ⟨out, written⟩ := settled.written
    exact ⟨out, (written_present item value out).mpr written⟩
  same := congrArg Value.present settled.same

theorem settled_held {value : Value} (settled : Settled schema value.heldShape value) :
    Settled schema .variant (.held value) where
  restorable floats := by
    apply Restorable.held
    apply settled.restorable
    intro type number live
    exact floats type number (.held live)
  written := by
    obtain ⟨out, written⟩ := settled.written
    exact ⟨out, (written_held value out).mpr written⟩
  same := congrArg Value.held settled.same

theorem settled_absent {shape : Shape} (option : shape.hasOption) :
    Settled schema shape .absent := by
  induction shape with
  | option item _ => exact ⟨fun _ => .absent item, ⟨_, _, rfl, (emits_last _ _).mpr rfl⟩, rfl⟩
  | box item ih => exact settled_box (ih option)
  | _ => cases option

theorem settled_wrap {shape : Shape} {value : Value} (settled : Settled schema shape.core value)
    (solid : shape.hasOption → value.spellsNull = false) :
    Settled schema shape (shape.wrap value) := by
  induction shape with
  | option item ih =>
    have here : value.spellsNull = false := solid rfl
    apply settled_present (ih settled fun _ => here)
    rw [Shape.wrap_spellsNull, here]
  | box item ih => exact settled_box (ih settled solid)
  | _ => exact settled

/-! ## Scalars -/

theorem settled_null : Settled schema .null .null :=
  ⟨fun _ => .null, ⟨_, _, rfl, (emits_last _ _).mpr rfl⟩, rfl⟩

theorem settled_bool (value : Bool) : Settled schema .bool (.bool value) :=
  ⟨fun _ => .bool value, ⟨_, _, rfl, (emits_last _ _).mpr rfl⟩, rfl⟩

theorem settled_string (text : String) : Settled schema .string (.string text) where
  restorable _ := .string text
  written := by
    have tokens : Emits schema ((stringTokens text).map .token ++ [])
        ((stringTokens text).flatten ++ []) := (emits_tokens _ _ _).mpr ⟨[], .nil, rfl⟩
    rw [List.append_nil ((stringTokens text).map _)] at tokens
    exact ⟨_, _, rfl, tokens⟩
  same := rfl

theorem FloatFormat.text?_isSome {format : FloatFormat} (layout : FloatLayout) {bits : Nat}
    (finite : (format.decode bits).isFinite) : ∃ text, format.text? layout bits = some text := by
  rw [FloatFormat.text?]
  cases decoded : format.decode bits with
  | finite negative significand exponent => exact ⟨_, rfl⟩
  | infinite negative =>
    rw [decoded] at finite
    cases finite
  | nan =>
    rw [decoded] at finite
    cases finite

/-- What a literal is read to in a binary format has a text, if the word that holds the pattern
is as wide as the pattern. -/
theorem Literal.text_of_float? {literal : Literal} {format : FloatFormat} {width bits : Nat}
    (wide : format.signUnit * 2 = 2 ^ width) (layout : FloatLayout)
    (reads : literal.float? format = some bits) :
    ∃ text, format.text? layout (BitVec.ofNat width bits).toNat = some text := by
  apply FloatFormat.text?_isSome
  have same := format.decode_mod bits
  rw [wide] at same
  rw [BitVec.toNat_ofNat, same]
  exact finite_of_float? reads

theorem NumberValue.restored_uint {value : Int} (notSigned : ¬ IntegerKind.signed64.holds value)
    (holds : IntegerKind.unsigned64.holds value) :
    (value.toNat : Int) = value ∧
      NumberValue.restored (.any (.uint value.toNat)) = .any (.uint value.toNat) := by
  have positive : 0 ≤ value := by
    simp only [IntegerKind.holds, Bool.and_eq_true, decide_eq_true_eq] at holds
    exact holds.1
  have large : ¬ value ≤ IntegerKind.signed64.greatest := by
    intro small
    have low : IntegerKind.signed64.least ≤ value := Int.le_trans (by decide) positive
    exact notSigned (by simp [IntegerKind.holds, low, small])
  have same : (value.toNat : Int) = value := Int.toNat_of_nonneg positive
  exact ⟨same, by rw [NumberValue.restored, same, Number.ofInteger, if_neg large]⟩

/-- A number that a literal was read to is one of its type, has a text, and is in the form in
which it is read. -/
theorem Literal.number_of_readAs {literal : Literal} {type : NumberType} {value : NumberValue}
    (means : literal.readAs type = some value) :
    type.Holds value ∧ (∃ text, value.text? = some text) ∧ value.restored = value := by
  cases type with
  | any =>
    obtain ⟨number, reads, rfl⟩ := Option.map_eq_some_iff.mp means
    have double : ∀ {number : Number},
        (literal.float? binary64).map (fun bits => Number.float (BitVec.ofNat 64 bits)) =
          some number →
        NumberType.any.Holds (.any number) ∧ (∃ text, (NumberValue.any number).text? = some text) ∧
          (NumberValue.any number).restored = .any number := by
      intro number reads
      obtain ⟨bits, finite, rfl⟩ := Option.map_eq_some_iff.mp reads
      exact ⟨trivial, Literal.text_of_float? (by decide) .double finite, rfl⟩
    rw [Literal.number?] at reads
    cases integer : literal.integer? with
    | none =>
      simp only [integer] at reads
      exact double reads
    | some value =>
      simp only [integer] at reads
      split at reads
      · rename_i holds
        cases reads
        exact ⟨holds, ⟨_, rfl⟩, rfl⟩
      · split at reads
        · rename_i notSigned holds
          cases reads
          obtain ⟨same, restored⟩ := NumberValue.restored_uint notSigned holds
          have holds' : IntegerKind.unsigned64.holds (value.toNat : Int) := by rwa [same]
          exact ⟨holds', ⟨_, rfl⟩, restored⟩
        · exact double reads
  | integer kind =>
    obtain ⟨value, reads, rfl⟩ := Option.map_eq_some_iff.mp means
    obtain ⟨-, holds⟩ := Option.filter_eq_some_iff.mp reads
    exact ⟨holds, ⟨_, rfl⟩, rfl⟩
  | single =>
    obtain ⟨bits, reads, rfl⟩ := Option.map_eq_some_iff.mp means
    exact ⟨trivial, Literal.text_of_float? (by decide) .single reads, rfl⟩
  | double =>
    obtain ⟨bits, reads, rfl⟩ := Option.map_eq_some_iff.mp means
    exact ⟨trivial, Literal.text_of_float? (by decide) .double reads, rfl⟩

theorem settled_number {literal : Literal} {type : NumberType} {value : NumberValue}
    (means : literal.readAs type = some value) : Settled schema (.number type) (.number value) := by
  obtain ⟨typed, ⟨text, written⟩, same⟩ := Literal.number_of_readAs means
  refine ⟨?_, ?_, congrArg Value.number same⟩
  · intro floats
    exact .number typed (floats type value (.here _ _))
  · refine ⟨_, .token (Utf8.encode text), ?_, (emits_last (Utf8.encode text) _).mpr rfl⟩
    rw [Emitter.start_eq_ok_iff]
    exact .number rfl written

/-! ## Arrays -/

theorem restoredItems_same {item : Shape} {items : List Value}
    (same : ∀ value ∈ items, value.restored schema item = value) :
    restoredItems schema item items = items := by
  induction items with
  | nil => rfl
  | cons value items ih =>
    obtain ⟨first, others⟩ := List.forall_mem_cons.mp same
    rw [restoredItems, first, ih others]

theorem settled_list {item : Shape} {items : List Value}
    (settled : ∀ value ∈ items, Settled schema item value) :
    Settled schema (.list item) (.list items) where
  restorable floats := by
    apply Restorable.list
    intro value among
    apply (settled value among).restorable
    intro type number live
    exact floats type number (.item among live)
  written := by
    have calls : ∀ items : List Value, (∀ value ∈ items, Settled schema item value) →
        ∃ out, Emits schema (items.map (.call [Ascii.comma] item) ++
          [.token [Ascii.rightBracket]]) out := by
      intro items
      induction items with
      | nil =>
        intro _
        exact ⟨_, (emits_last _ _).mpr rfl⟩
      | cons value items ih =>
        intro settled
        obtain ⟨here, others⟩ := List.forall_mem_cons.mp settled
        obtain ⟨inner, written⟩ := here.written
        obtain ⟨more, emits⟩ := ih others
        exact ⟨_, (emits_call _ _ _ _ _).mpr ⟨inner, more, written, emits, rfl⟩⟩
    cases items with
    | nil => exact ⟨_, _, rfl, .token ((emits_last _ _).mpr rfl)⟩
    | cons first items =>
      obtain ⟨here, others⟩ := List.forall_mem_cons.mp settled
      obtain ⟨inner, written⟩ := here.written
      obtain ⟨more, emits⟩ := calls items others
      exact ⟨_, _, rfl, .token ((emits_call _ _ _ _ _).mpr ⟨inner, more, written, emits, rfl⟩)⟩
  same := congrArg Value.list (restoredItems_same fun value among => (settled value among).same)

/-! ## Presence -/

theorem PresenceBits.eq_of_get {bits bits' : PresenceBits 64}
    (length : bits.words.length = bits'.words.length)
    (same : ∀ index, bits.get index = bits'.get index) : bits = bits' := by
  obtain ⟨words⟩ := bits
  obtain ⟨words'⟩ := bits'
  congr 1
  apply List.ext_getElem length
  intro position inside inside'
  apply BitVec.eq_of_getLsbD_eq
  intro bit small
  have here := same (64 * position + bit)
  have quotient : (64 * position + bit) / 64 = position := by omega
  have remainder : (64 * position + bit) % 64 = bit := by omega
  simp only [get, quotient, remainder, List.getElem?_eq_getElem inside,
    List.getElem?_eq_getElem inside'] at here
  exact here

namespace Table

theorem length_markLive (bits : PresenceBits 64) (fields : List Field) :
    ∀ (values : List Value) (index : Nat) (marked : PresenceBits 64),
    (markLive bits fields values index marked).words.length = marked.words.length := by
  induction fields with
  | nil =>
    intro values index marked
    rfl
  | cons field fields ih =>
    intro values index marked
    cases values with
    | nil => rfl
    | cons value values =>
      rw [markLive, ih]
      split
      · split
        · rfl
        · exact List.length_modify ..
      · rfl

theorem get_mark {field : Field} {value : Value} {index : Nat} {marked : PresenceBits 64}
    (room : index < marked.capacity) (bits : PresenceBits 64) (other : Nat) :
    (if field.isLive index value bits then
        if field.shape.tellsPresence then marked else marked.set index true
      else marked).get other = true ↔ marked.get other = true ∨
        (other = index ∧ field.shape.tellsPresence = false ∧ field.isLive other value bits) := by
  split
  · rename_i live
    split
    · rename_i pointer
      simp [pointer]
    · rename_i bit
      rw [Bool.not_eq_true] at bit
      rw [PresenceBits.get_set]
      by_cases here : index = other
      · subst here
        simp [room, bit, live]
      · simp [here, Ne.symm here]
  · rename_i dead
    constructor
    · exact .inl
    · rintro (marked | ⟨rfl, -, live⟩)
      · exact marked
      · exact absurd live dead

theorem get_markLive (bits : PresenceBits 64) (fields : List Field) :
    ∀ (values : List Value) (index : Nat) (marked : PresenceBits 64),
    index + fields.length ≤ marked.capacity → ∀ other : Nat,
    ((markLive bits fields values index marked).get other = true ↔
      marked.get other = true ∨ ∃ offset field value, fields[offset]? = some field ∧
        values[offset]? = some value ∧ other = index + offset ∧
          field.shape.tellsPresence = false ∧ field.isLive other value bits) := by
  induction fields with
  | nil =>
    intro values index marked _ other
    simp [markLive]
  | cons field fields ih =>
    intro values index marked room other
    cases values with
    | nil => simp [markLive]
    | cons value values =>
      simp only [List.length_cons] at room
      rw [markLive, ih, get_mark (by omega), or_assoc]
      · apply or_congr Iff.rfl
        constructor
        · rintro (⟨rfl, bit, live⟩ | ⟨offset, declared, stored, here, there, same, bit, live⟩)
          · exact ⟨0, field, value, rfl, rfl, rfl, bit, live⟩
          · exact ⟨offset + 1, declared, stored, here, there, by omega, bit, live⟩
        · rintro ⟨offset, declared, stored, here, there, same, bit, live⟩
          cases offset with
          | zero =>
            cases here
            cases there
            exact .inl ⟨same, bit, live⟩
          | succ offset => exact .inr ⟨offset, declared, stored, here, there, by omega, bit, live⟩
      · split
        · split
          · omega
          · rw [PresenceBits.capacity_set]
            omega
        · omega

end Table

/-! ## Objects -/

theorem emits_objectSteps {members : List (String × Shape × Value)}
    (settled : ∀ member ∈ members, Settled schema member.2.1 member.2.2) :
    ∃ out, Emits schema (objectSteps members) out := by
  have one : ∀ (member : String × Shape × Value) (rest : List EmitStep) (more : List UInt8),
      Settled schema member.2.1 member.2.2 → Emits schema rest more →
        ∃ out, Emits schema (memberSteps member ++ rest) out := by
    rintro ⟨name, shape, value⟩ rest more settled emits
    obtain ⟨inner, written⟩ := settled.written
    have called : Emits schema (.call [Ascii.colon] shape value :: rest)
        ([Ascii.colon] ++ (inner ++ more)) :=
      (emits_call _ _ _ _ _).mpr ⟨inner, more, written, emits, rfl⟩
    rw [memberSteps, List.append_assoc]
    exact ⟨_, (emits_tokens _ _ _).mpr ⟨_, called, rfl⟩⟩
  have more : ∀ members : List (String × Shape × Value),
      (∀ member ∈ members, Settled schema member.2.1 member.2.2) →
      ∃ out, Emits schema (laterMemberSteps members ++ [.token [Ascii.rightBrace]]) out := by
    intro members
    induction members with
    | nil =>
      intro _
      exact ⟨_, (emits_last _ _).mpr rfl⟩
    | cons member members ih =>
      intro settled
      obtain ⟨here, others⟩ := List.forall_mem_cons.mp settled
      obtain ⟨out, emits⟩ := ih others
      obtain ⟨out, emits⟩ := one member _ out here emits
      rw [laterMemberSteps, List.flatMap_cons, List.append_assoc]
      exact ⟨_, .token emits⟩
  cases members with
  | nil => exact ⟨_, .token ((emits_last _ _).mpr rfl)⟩
  | cons member members =>
    obtain ⟨here, others⟩ := List.forall_mem_cons.mp settled
    obtain ⟨out, emits⟩ := more members others
    obtain ⟨out, emits⟩ := one member _ out here emits
    rw [← List.append_assoc] at emits
    exact ⟨_, .token emits⟩

theorem restoredFields_same {presence : PresenceBits 64} {fields : List Field} :
    ∀ {values : List Value} {index : Nat}, values.length = fields.length →
    (∀ (offset : Nat) (field : Field) (value : Value), fields[offset]? = some field →
      values[offset]? = some value → (if field.isLive (index + offset) value presence then value.restored schema field.shape
        else schema.initial field.shape) = value) →
    restoredFields schema presence fields values index = values := by
  induction fields with
  | nil =>
    intro values index length _
    rw [List.length_nil, List.length_eq_zero_iff] at length
    rw [length]
    rfl
  | cons field fields ih =>
    intro values index length same
    cases values with
    | nil => cases length
    | cons value values =>
      have first := same 0 field value rfl rfl
      have others : restoredFields schema presence fields values (index + 1) = values := by
        apply ih (Nat.succ.inj length)
        intro offset field value here there
        have shifted : index + 1 + offset = index + (offset + 1) := by omega
        rw [shifted]
        exact same (offset + 1) field value here there
      rw [Nat.add_zero] at first
      rw [restoredFields, first, others]

theorem restoredEntries_same {extra : Option Shape} {entries : Entries Value}
    (same : ∀ entry ∈ entries, ∃ item, extra = some item ∧
      entry.2.restored schema item = entry.2) :
    restoredEntries schema extra entries = entries := by
  induction entries with
  | nil => rfl
  | cons entry entries ih =>
    obtain ⟨name, value⟩ := entry
    obtain ⟨⟨item, rfl, first⟩, others⟩ := List.forall_mem_cons.mp same
    rw [restoredEntries, ih others]
    simp only at first ⊢
    rw [first]

theorem markLive_same {table : Table} {read : MembersRead}
    (settled : read.Holds schema table (Settled schema)) :
    Table.markLive read.presence table.fields read.members 0
      (.forMembers table.fields.length) = read.presence := by
  apply PresenceBits.eq_of_get
  · rw [Table.length_markLive, settled.words]
    exact List.length_replicate
  · intro index
    have room : 0 + table.fields.length ≤
        (PresenceBits.forMembers table.fields.length).capacity := by
      rw [Nat.zero_add]
      exact PresenceBits.le_capacity_forMembers _
    rw [Bool.eq_iff_iff, Table.get_markLive _ _ _ _ _ room]
    constructor
    · rintro (none' | ⟨offset, field, value, -, -, -, bit, live⟩)
      · rw [PresenceBits.get_forMembers] at none'
        cases none'
      · rwa [Field.isLive_bit bit] at live
    · intro marked
      obtain ⟨field, here, bit⟩ := settled.bits index marked
      obtain ⟨inside, -⟩ := List.getElem?_eq_some_iff.mp here
      rw [← settled.complete] at inside
      refine .inr ⟨index, field, read.members[index], here, List.getElem?_eq_getElem inside,
        (Nat.zero_add index).symm, bit, ?_⟩
      rwa [Field.isLive_bit bit]

theorem settled_object {shape : Shape} {table : Table} {read : MembersRead}
    (declared : schema.table? shape = some table)
    (settled : read.Holds schema table (Settled schema)) :
    Settled schema shape (.object read.members read.presence read.extras) where
  restorable floats := by
    refine .object declared settled.complete settled.distinct ?_ ?_ ?_
    · intro index field value here there live
      exact (settled.live index field value here there live).1
    · intro item _ name among
      obtain ⟨entry, inside, rfl⟩ := List.mem_map.mp among
      exact (settled.extra entry inside).1
    · intro member among
      apply (settled.liveMember among).restorable
      intro type number live
      exact floats type number (.member declared among live)
  written := by
    obtain ⟨out, emits⟩ := emits_objectSteps fun _ among => settled.liveMember among
    refine ⟨out, .ofObject table read.members read.presence read.extras, ?_, emits⟩
    rw [Emitter.start_eq_ok_iff]
    apply Starts.object
    rw [Schema.unbox_of_table? declared, declared]
  same := by
    have fields : restoredFields schema read.presence table.fields read.members 0 =
        read.members := by
      apply restoredFields_same settled.complete
      intro index field value here there
      rw [Nat.zero_add]
      split
      · rename_i live
        exact (settled.live index field value here there live).2.same
      · rename_i dead
        rw [Bool.not_eq_true] at dead
        exact (settled.dead index field value here there dead).symm
    have entries : restoredEntries schema table.extra read.extras = read.extras := by
      apply restoredEntries_same
      intro entry among
      obtain ⟨-, item, admitted, here⟩ := settled.extra entry among
      exact ⟨item, admitted, here.same⟩
    simp only [Value.restored, Schema.unbox_of_table? declared, declared, fields, entries,
      markLive_same settled]

end IncrementalJson
