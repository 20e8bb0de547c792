import IncrementalJson.Proofs.InternalErrors
import IncrementalJson.Proofs.RoundTrip.Canonical
import IncrementalJson.Proofs.Viewing.Addressable
import IncrementalJson.Proofs.Writing.Compact

/-!
# When writing fails

A value of a shape cannot be written if and only if some part of it that would be
written was never set, or is a float that is not finite; and what is reported is the
first of these in the order of the text.  If there is none, the text is one value
of the grammar without whitespace and without control characters.  What is stored
for members that are not there changes nothing.
-/

set_option autoImplicit false

namespace IncrementalJson

open Ascii Transcript

variable {schema : Schema} {limit : Option Nat} {depth : Nat}

/-! ## Parts in the order of the text -/

namespace Value

/-- The parts of a value that are written with it, itself first, in the order in which their texts
begin. -/
def parts (schema : Schema) (shape : Shape) (value : Value) : List Value :=
  value :: match value, shape.unbox with
    | .list items, .list item => items.attach.flatMap fun ⟨part, _⟩ => part.parts schema item
    | .held part, .variant => part.parts schema part.heldShape
    | .present part, .option item => part.parts schema item
    | .object members presence extras, shape =>
      match schema.table? shape with
      | some table =>
        (table.liveMembers members presence extras).attach.flatMap fun ⟨member, _⟩ =>
          member.2.2.parts schema member.2.1
      | none => []
    | _, _ => []
termination_by sizeOf value
decreasing_by
  · rename_i among
    have smaller := List.sizeOf_lt_of_mem among
    simp only [Value.list.sizeOf_spec]
    omega
  · simp only [Value.held.sizeOf_spec]
    omega
  · simp only [Value.present.sizeOf_spec]
    omega
  · rename_i among
    exact sizeOf_lt_of_mem_liveMembers among

theorem parts_box (item : Shape) (value : Value) :
    value.parts schema (.box item) = value.parts schema item := by
  rw [parts.eq_def, parts.eq_def schema item]
  rfl

theorem parts_list (item : Shape) (items : List Value) :
    (list items).parts schema (.list item) =
      list items :: items.flatMap fun part => part.parts schema item := by
  rw [parts.eq_def]
  simp only [Shape.unbox, List.flatMap_subtype, List.unattach_attach]

theorem parts_object {shape : Shape} {table : Table} (members : List Value)
    (presence : PresenceBits 64) (extras : Entries Value)
    (declared : schema.table? shape = some table) :
    (object members presence extras).parts schema shape =
      object members presence extras ::
        (table.liveMembers members presence extras).flatMap fun member =>
          member.2.2.parts schema member.2.1 := by
  rw [parts.eq_def]
  simp only [Schema.unbox_of_table? declared, declared, List.flatMap_subtype,
    List.unattach_attach]

theorem parts_held (value : Value) :
    (held value).parts schema .variant = held value :: value.parts schema value.heldShape := by
  rw [parts.eq_def]
  rfl

theorem parts_present (item : Shape) (value : Value) :
    (present value).parts schema (.option item) = present value :: value.parts schema item := by
  rw [parts.eq_def]
  rfl

theorem parts_leaf {value : Value} (leaf : value.isLeaf) (shape : Shape) :
    value.parts schema shape = [value] := by
  rw [parts.eq_def]
  cases value with
  | list | object | held | present => cases leaf
  | _ => rfl

end Value

theorem HasShape.mem_parts_iff {shape : Shape} {value : Value}
    (typed : HasShape schema shape value) (part : Value) :
    part ∈ value.parts schema shape ↔ ∃ inner, Live schema shape value inner part := by
  induction typed with
  | null | bool | string | number | unset | absent =>
    rw [Value.parts_leaf rfl, List.mem_singleton]
    constructor
    · rintro rfl
      exact ⟨_, .here _ _⟩
    · rintro ⟨inner, live⟩
      cases live
      rfl
  | @list item items typed ih =>
    rw [Value.parts_list, List.mem_cons, List.mem_flatMap]
    constructor
    · rintro (rfl | ⟨value, among, inside⟩)
      · exact ⟨_, .here _ _⟩
      · obtain ⟨inner, live⟩ := (ih value among).mp inside
        exact ⟨inner, .item among live⟩
    · rintro ⟨inner, live⟩
      cases live with
      | here => exact .inl rfl
      | item among live => exact .inr ⟨_, among, (ih _ among).mpr ⟨inner, live⟩⟩
  | held typed ih =>
    rw [Value.parts_held, List.mem_cons, ih]
    constructor
    · rintro (rfl | ⟨inner, live⟩)
      · exact ⟨_, .here _ _⟩
      · exact ⟨inner, .held live⟩
    · rintro ⟨inner, live⟩
      cases live with
      | here => exact .inl rfl
      | held live => exact .inr ⟨inner, live⟩
  | present typed ih =>
    rw [Value.parts_present, List.mem_cons, ih]
    constructor
    · rintro (rfl | ⟨inner, live⟩)
      · exact ⟨_, .here _ _⟩
      · exact ⟨inner, .present live⟩
    · rintro ⟨inner, live⟩
      cases live with
      | here => exact .inl rfl
      | present live => exact .inr ⟨inner, live⟩
  | @box item value typed ih =>
    rw [Value.parts_box, ih]
    constructor
    · rintro ⟨inner, live⟩
      exact ⟨inner, .box live⟩
    · rintro ⟨inner, live⟩
      cases live with
      | here => exact ⟨item, .here _ _⟩
      | box live => exact ⟨inner, live⟩
      | member declared => cases declared
  | @object shape table members presence extras declared complete distinct typed ih =>
    rw [Value.parts_object _ _ _ declared, List.mem_cons, List.mem_flatMap]
    constructor
    · rintro (rfl | ⟨member, among, inside⟩)
      · exact ⟨_, .here _ _⟩
      · obtain ⟨inner, live⟩ := (ih member among).mp inside
        exact ⟨inner, .member declared among live⟩
    · rintro ⟨inner, live⟩
      cases live with
      | here => exact .inl rfl
      | box => cases declared
      | member declared' among live =>
        rw [declared] at declared'
        cases declared'
        exact .inr ⟨_, among, (ih _ among).mpr ⟨inner, live⟩⟩

/-! ## What fails -/

instance (number : NumberValue) : Decidable number.IsFinite :=
  match number with
  | .any (.float bits) => inferInstanceAs (Decidable (binary64.decode bits.toNat).isFinite)
  | .single bits => inferInstanceAs (Decidable (binary32.decode bits.toNat).isFinite)
  | .double bits => inferInstanceAs (Decidable (binary64.decode bits.toNat).isFinite)
  | .any (.int _) | .any (.uint _) | .integer _ => isTrue trivial

/-- What is wrong with a part itself, so that it cannot be written. -/
def Value.fault? : Value → Option GenerateError
  | .unset => some .unsetVariant
  | .number value => if value.IsFinite then none else some .nonFiniteNumber
  | _ => none

theorem NumberValue.text?_eq_none_iff (number : NumberValue) :
    number.text? = none ↔ ¬ number.IsFinite := by
  constructor
  · intro nothing finite
    have written : ∃ text, number.text? = some text := by
      cases number with
      | any number =>
        cases number with
        | float bits => exact FloatFormat.text?_isSome _ finite
        | _ => exact ⟨_, rfl⟩
      | integer value => exact ⟨_, rfl⟩
      | single bits | double bits => exact FloatFormat.text?_isSome _ finite
    obtain ⟨text, written⟩ := written
    rw [nothing] at written
    cases written
  · intro infinite
    cases written : number.text? with
    | none => rfl
    | some text => exact absurd (isFinite_of_text? written) infinite

namespace Transcript

def failure? : Except GenerateError Transcript → Option GenerateError
  | .ok text => text.error
  | .error error => some error

theorem error_append (front back : Transcript) :
    (front ++ back).error = front.error.or back.error := by
  obtain ⟨bytes, error⟩ := front
  cases error <;> rfl

theorem error_led (lead : List UInt8) (part : Except GenerateError Transcript) :
    (led lead part).error = failure? part := by
  cases part <;> rfl

theorem error_bracketed (opening closing : List UInt8) (inside : Transcript) :
    (whole opening ++ (inside ++ whole closing)).error = inside.error := by
  rw [error_append, error_append]
  exact Option.none_or.trans Option.or_none

end Transcript

theorem error_items {item : Shape} {items : List Value}
    (each : ∀ value ∈ items, failure? (value.transcript schema limit depth item) =
      (value.parts schema item).findSome? Value.fault?) (lead : List UInt8) :
    (itemsTranscript schema limit depth item lead items).error =
      (items.flatMap fun value => value.parts schema item).findSome? Value.fault? := by
  induction items generalizing lead with
  | nil =>
    rw [itemsTranscript]
    rfl
  | cons value rest ih =>
    obtain ⟨here, others⟩ := List.forall_mem_cons.mp each
    rw [itemsTranscript, error_append, error_led, here, ih others, List.flatMap_cons,
      List.findSome?_append]

theorem error_members {members : List (String × Shape × Value)}
    (each : ∀ member ∈ members,
      failure? (member.2.2.transcript schema limit depth member.2.1) =
        (member.2.2.parts schema member.2.1).findSome? Value.fault?) :
    (separated (members.map (memberTranscript schema limit depth))).error =
      (members.flatMap fun member =>
        member.2.2.parts schema member.2.1).findSome? Value.fault? := by
  induction members with
  | nil => rfl
  | cons member rest ih =>
    obtain ⟨here, others⟩ := List.forall_mem_cons.mp each
    have first : (memberTranscript schema limit depth member).error =
        (member.2.2.parts schema member.2.1).findSome? Value.fault? := by
      rw [memberTranscript, named, error_append, error_led, here]
      exact Option.none_or
    rw [List.flatMap_cons, List.findSome?_append, ← first, ← ih others]
    cases rest with
    | nil =>
      rw [List.map_singleton]
      exact Option.or_none.symm
    | cons next rest =>
      rw [List.map_cons, List.map_cons, separated, error_append, error_append]
      exact congrArg _ Option.none_or

theorem HasShape.failure?_transcript {shape : Shape} {value : Value}
    (typed : HasShape schema shape value) (depth : Nat) :
    failure? (value.transcript schema none depth shape) =
      (value.parts schema shape).findSome? Value.fault? := by
  induction typed generalizing depth with
  | null | bool | string | unset | absent =>
    rw [Value.transcript.eq_def, Value.parts_leaf rfl]
    rfl
  | @number type number typed =>
    rw [Value.transcript.eq_def, Value.parts_leaf rfl, List.findSome?_singleton, Value.fault?]
    simp only [Shape.unbox]
    cases written : number.text? with
    | none =>
      rw [if_neg ((NumberValue.text?_eq_none_iff number).mp written)]
      rfl
    | some text =>
      rw [if_pos (NumberValue.isFinite_of_text? written)]
      rfl
  | list typed ih =>
    have inside := error_items (fun value among => ih value among (depth + 1)) []
    rw [Value.transcript.eq_def, Value.parts_list]
    exact (error_bracketed _ _ _).trans inside
  | held typed ih =>
    rw [Value.transcript.eq_def, Value.parts_held]
    exact ih depth
  | present typed ih =>
    rw [Value.transcript.eq_def, Value.parts_present]
    exact ih depth
  | @box item value typed ih =>
    rw [Value.transcript_box, Value.parts_box]
    exact ih depth
  | @object shape table members presence extras declared complete distinct typed ih =>
    rw [Value.transcript.eq_def, Value.parts_object _ _ _ declared]
    simp only [Schema.unbox_of_table? declared, declared, liveMembers_transcripts]
    have inside := error_members fun member among => ih member among (depth + 1)
    exact (error_bracketed _ _ _).trans inside

/-! ## What changes nothing -/

/-- Two values of a shape that differ at most in what is stored for members that are not there. -/
inductive SameWhereLive (schema : Schema) : Shape → Value → Value → Prop where
  | same (shape : Shape) (value : Value) : SameWhereLive schema shape value value
  | list {item : Shape} {items others : List Value} (length : items.length = others.length)
      (each : ∀ (index : Nat) (value other : Value), items[index]? = some value →
        others[index]? = some other → SameWhereLive schema item value other) :
      SameWhereLive schema (.list item) (.list items) (.list others)
  | held {value other : Value} (same : value.heldShape = other.heldShape)
      (alike : SameWhereLive schema value.heldShape value other) :
      SameWhereLive schema .variant (.held value) (.held other)
  | present {item : Shape} {value other : Value} (alike : SameWhereLive schema item value other) :
      SameWhereLive schema (.option item) (.present value) (.present other)
  | box {item : Shape} {value other : Value} (alike : SameWhereLive schema item value other) :
      SameWhereLive schema (.box item) value other
  | object {shape : Shape} {table : Table} {members members' : List Value}
      {presence presence' : PresenceBits 64} {extras extras' : Entries Value}
      (declared : schema.table? shape = some table)
      (kinds :
        (table.liveMembers members presence extras).map (fun member => (member.1, member.2.1)) =
          (table.liveMembers members' presence' extras').map fun member => (member.1, member.2.1))
      (each : ∀ (index : Nat) (member other : String × Shape × Value),
        (table.liveMembers members presence extras)[index]? = some member →
          (table.liveMembers members' presence' extras')[index]? = some other →
            SameWhereLive schema member.2.1 member.2.2 other.2.2) :
      SameWhereLive schema shape (.object members presence extras) (.object members' presence' extras')

theorem liveFields_set {bits : PresenceBits 64} {fields : List Field} {members : List Value}
    {index offset : Nat} {field : Field} {value stored : Value}
    (here : fields[offset]? = some field) (there : members[offset]? = some value)
    (absent : field.isLive (index + offset) value bits = false)
    (absent' : field.isLive (index + offset) stored bits = false) :
    Table.liveFields bits fields (members.set offset stored) index =
      Table.liveFields bits fields members index := by
  induction offset generalizing fields members index with
  | zero =>
    cases fields with
    | nil => cases here
    | cons first fields =>
      cases members with
      | nil => cases there
      | cons member members =>
        cases here
        cases there
        rw [Nat.add_zero] at absent absent'
        simp only [List.set_cons_zero, Table.liveFields, absent, absent', Bool.false_eq_true,
          if_false]
  | succ offset ih =>
    cases fields with
    | nil => cases here
    | cons first fields =>
      cases members with
      | nil => cases there
      | cons member members =>
        have shifted : index + (offset + 1) = index + 1 + offset := by omega
        rw [shifted] at absent absent'
        have behind := ih here there absent absent'
        simp only [List.set_cons_succ, Table.liveFields, behind]

/-- Storing another value for a member that is not there leaves the object the same as far as it is
written, unless the member is there with that value. -/
theorem SameWhereLive.of_set {shape : Shape} {table : Table} {members : List Value}
    {presence : PresenceBits 64} {extras : Entries Value} {index : Nat} {field : Field}
    {value : Value} (stored : Value) (declared : schema.table? shape = some table)
    (here : table.fields[index]? = some field) (there : members[index]? = some value)
    (absent : field.isLive index value presence = false)
    (absent' : field.isLive index stored presence = false) :
    SameWhereLive schema shape (.object members presence extras)
      (.object (members.set index stored) presence extras) := by
  have same : table.liveMembers (members.set index stored) presence extras =
      table.liveMembers members presence extras := by
    rw [← Nat.zero_add index] at absent absent'
    rw [Table.liveMembers, liveFields_set here there absent absent', Table.liveMembers]
  refine .object declared (by rw [same]) ?_
  intro position member other listed listed'
  rw [same, listed] at listed'
  cases listed'
  exact .same _ _

theorem itemsTranscript_congr {item : Shape} {items others : List Value}
    (length : items.length = others.length)
    (each : ∀ (index : Nat) (value other : Value), items[index]? = some value →
      others[index]? = some other → value.transcript schema limit depth item =
        other.transcript schema limit depth item) (lead : List UInt8) :
    itemsTranscript schema limit depth item lead items =
      itemsTranscript schema limit depth item lead others := by
  induction items generalizing others lead with
  | nil =>
    cases others with
    | nil => rfl
    | cons other others => cases length
  | cons value items ih =>
    cases others with
    | nil => cases length
    | cons other others =>
      have behind := ih (Nat.succ.inj length) (fun index => each (index + 1)) [comma]
      rw [itemsTranscript, itemsTranscript, each 0 value other rfl rfl, behind]

theorem SameWhereLive.transcript {shape : Shape} {value other : Value}
    (alike : SameWhereLive schema shape value other) (limit : Option Nat) (depth : Nat) :
    value.transcript schema limit depth shape = other.transcript schema limit depth shape := by
  induction alike generalizing depth with
  | same shape value => rfl
  | list length each ih =>
    have inside := itemsTranscript_congr length
      (fun index value other here there => ih index value other here there (depth + 1)) []
    rw [Value.transcript.eq_def, Value.transcript.eq_def]
    simp only [Shape.unbox, inside]
  | held same alike ih =>
    rw [Value.transcript.eq_def, Value.transcript.eq_def schema limit depth .variant (.held _)]
    have here := ih depth
    simp only [Shape.unbox]
    rw [← same]
    exact here
  | present alike ih =>
    rw [Value.transcript.eq_def, Value.transcript.eq_def schema limit depth (.option _) (.present _)]
    exact ih depth
  | box alike ih =>
    rw [Value.transcript_box, Value.transcript_box]
    exact ih depth
  | @object shape table members members' presence presence' extras extras' declared kinds _ ih =>
    have same : (table.liveMembers members presence extras).map
          (memberTranscript schema limit (depth + 1)) =
        (table.liveMembers members' presence' extras').map
          (memberTranscript schema limit (depth + 1)) := by
      have length := congrArg List.length kinds
      rw [List.length_map, List.length_map] at length
      apply List.ext_getElem
      · rw [List.length_map, List.length_map, length]
      · intro index here there
        rw [List.length_map] at here there
        have inside := ih index _ _ (List.getElem?_eq_getElem here)
          (List.getElem?_eq_getElem there) (depth + 1)
        have kind := List.getElem_of_eq kinds (by rwa [List.length_map])
        rw [List.getElem_map, List.getElem_map, Prod.mk.injEq] at kind
        rw [List.getElem_map, List.getElem_map]
        simp only [memberTranscript]
        rw [inside, kind.1, kind.2]
    rw [Value.transcript.eq_def, Value.transcript.eq_def]
    simp only [Schema.unbox_of_table? declared, declared, liveMembers_transcripts, same]

/-! ## Whole values -/

/-- Either a value of a shape is written without whitespace, or it has a faulty part, the first of
which is reported. -/
theorem HasShape.writeValue_cases {shape : Shape} {value : Value}
    (typed : HasShape schema shape value) :
    (∃ text json, writeValue schema shape value = .ok (String.ofList text) ∧ Compact text json ∧
      (value.parts schema shape).findSome? Value.fault? = none) ∨
    ∃ error, writeValue schema shape value = .error error ∧
      (value.parts schema shape).findSome? Value.fault? = some error := by
  have failure := typed.failure?_transcript 0
  have spellsOut := typed.spellsOut none 0
  have generated := writeBytes_eq schema shape value
  cases begins : value.transcript schema none 0 shape with
  | error error =>
    rw [begins] at failure generated
    refine .inr ⟨error, ?_, failure.symm⟩
    rw [writeValue, generated]
    rfl
  | ok text =>
    rw [begins] at failure generated
    obtain ⟨bytes, error⟩ := text
    cases error with
    | some error =>
      refine .inr ⟨error, ?_, failure.symm⟩
      rw [writeValue, generated]
      rfl
    | none =>
      obtain ⟨text, json, rfl, compact⟩ := spellsOut bytes begins
      refine .inl ⟨text, json, ?_, compact, failure.symm⟩
      rw [writeValue_eq_ok_iff, Utf8.encodeString_ofList]
      exact written_of_transcript value begins

theorem HasShape.faultless_iff {shape : Shape} {value : Value}
    (typed : HasShape schema shape value) :
    (value.parts schema shape).findSome? Value.fault? = none ↔
      (∀ inner, ¬ Live schema shape value inner .unset) ∧
        ∀ inner number, Live schema shape value inner (.number number) → number.IsFinite := by
  rw [List.findSome?_eq_none_iff]
  constructor
  · intro sound
    constructor
    · intro inner live
      have here := sound .unset ((typed.mem_parts_iff _).mpr ⟨inner, live⟩)
      cases here
    · intro inner number live
      have here := sound (.number number) ((typed.mem_parts_iff _).mpr ⟨inner, live⟩)
      by_cases finite : number.IsFinite
      · exact finite
      · rw [Value.fault?, if_neg finite] at here
        cases here
  · intro ⟨set, finite⟩ part among
    obtain ⟨inner, live⟩ := (typed.mem_parts_iff part).mp among
    cases part with
    | unset => exact absurd live (set inner)
    | number number => exact if_pos (finite inner number live)
    | _ => rfl

theorem Utf8.le_of_mem_encode {text : List Char} (printable : ∀ char ∈ text, 0x20 ≤ char.toNat)
    {byte : UInt8} (among : byte ∈ encode text) : 0x20 ≤ byte := by
  obtain ⟨char, inside, octet⟩ := List.mem_flatMap.mp among
  have large := printable char inside
  rcases encodeChar_cases char with ⟨-, small, bytes, same⟩ | ⟨-, lead, rest, bytes, high, behind⟩
  · rw [bytes, List.mem_singleton] at octet
    rw [octet, UInt8.le_iff_toNat_le, same]
    exact large
  · rw [bytes] at octet
    rcases List.mem_cons.mp octet with rfl | octet
    · exact UInt8.le_trans (by decide) high
    · exact UInt8.le_trans (by decide) (behind byte octet).1

/-- A value of a shape is written unless a part that would be written was never set or is a float
that is not finite, and the first of these is reported.  What is written is one value of the
grammar, without whitespace outside of strings and without control bytes.  Values that are stored
for members that are not there never matter. -/
theorem writeValue_fails_for_first_fault {shape : Shape} {value : Value}
    (typed : HasShape schema shape value) :
    ((∃ text, writeValue schema shape value = .ok text) ↔
      (∀ inner, ¬ Live schema shape value inner .unset) ∧
        ∀ inner number, Live schema shape value inner (.number number) → number.IsFinite) ∧
    (∀ error, writeValue schema shape value = .error error ↔
      ∃ before part after, value.parts schema shape = before ++ part :: after ∧
        part.fault? = some error ∧ ∀ sound ∈ before, sound.fault? = none) ∧
    (∀ text, writeValue schema shape value = .ok text →
      (∃ json, Spells text.toList json) ∧
        (∀ char ∈ outsideStrings .outside text.toList, isBlank char = false) ∧
        ∀ byte ∈ Utf8.encodeString text, 0x20 ≤ byte) ∧
    ∀ other, SameWhereLive schema shape value other →
      writeValue schema shape other = writeValue schema shape value := by
  refine ⟨?_, ?_, ?_, ?_⟩
  · rw [← typed.faultless_iff]
    rcases typed.writeValue_cases with ⟨text, json, written, -, sound⟩ | ⟨error, failed, fault⟩
    · exact iff_of_true ⟨_, written⟩ sound
    · simp [failed, fault]
  · intro error
    rw [← List.findSome?_eq_some_iff]
    rcases typed.writeValue_cases with ⟨text, json, written, -, sound⟩ | ⟨error', failed, fault⟩
    · simp [written, sound]
    · simp [failed, fault]
  · intro text written
    rcases typed.writeValue_cases with ⟨chars, json, written', compact, -⟩ | ⟨error, failed, -⟩
    · rw [written] at written'
      cases written'
      rw [Utf8.encodeString_ofList, String.toList_ofList]
      refine ⟨⟨json, compact.spells⟩, compact.neat.tight, ?_⟩
      intro byte among
      exact Utf8.le_of_mem_encode compact.neat.printable among
    · rw [written] at failed
      cases failed
  · intro other same
    rw [writeValue, writeValue, writeBytes_eq, writeBytes_eq, same.transcript none 0]

/-- A record whose first member, not there, is no number, and whose list ends in a variant that was
never set. -/
def faultySchema : Schema :=
  ⟨[⟨[⟨"low", .number .double⟩, ⟨"parts", .list .variant⟩], none⟩], by decide⟩

def faultyRecord : Value :=
  .object [.number (.double 0x7FF8000000000000), .list [.held (.string "\n"), .unset]] ⟨[2]⟩ []

theorem faultyRecord_typed : HasShape faultySchema (.record 0) faultyRecord := by
  refine .object rfl rfl List.nodup_nil ?_
  intro member among
  have only : member ∈ [("parts", Shape.list .variant,
      Value.list [.held (.string "\n"), .unset])] := among
  rw [List.mem_singleton.mp only]
  apply HasShape.list
  intro value inside
  rcases List.mem_cons.mp inside with rfl | last
  · exact .held (.string "\n")
  · rw [List.mem_singleton.mp last]
    exact .unset

/-- What is reported is the variant, and nothing is said of the member that is not there, whatever
is stored for it. -/
theorem writeValue_fails_for_first_fault_record :
    let other : Value := .object [.number (.double 0),
      .list [.held (.string "\n"), .unset]] ⟨[2]⟩ []
    writeValue faultySchema (.record 0) faultyRecord = .error .unsetVariant ∧
      writeValue faultySchema (.record 0) other = .error .unsetVariant ∧
      ∃ before part after, faultyRecord.parts faultySchema (.record 0) = before ++ part :: after ∧
        part.fault? = some .unsetVariant ∧ ∀ sound ∈ before, sound.fault? = none := by
  have failed : writeValue faultySchema (.record 0) faultyRecord = .error .unsetVariant := by
    decide +kernel
  obtain ⟨-, first, -, absent⟩ := writeValue_fails_for_first_fault faultyRecord_typed
  have same := absent _ (.of_set (.number (.double 0)) rfl List.getElem?_cons_zero
    List.getElem?_cons_zero rfl rfl)
  exact ⟨failed, same.trans failed, (first _).mp failed⟩

end IncrementalJson
