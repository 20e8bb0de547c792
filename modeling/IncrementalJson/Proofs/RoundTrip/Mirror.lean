import IncrementalJson.Proofs.RoundTrip.Settled
import IncrementalJson.Proofs.Viewing.Members

/-!
# The variant that a text is read to

What is written of a value can be read without knowing its shape.  The variant
that comes of it is the mirror of the value: boxes and options around what is
there leave no trace in it, objects keep the members that are there in their
order, and numbers lose their types.  A value and its mirror have the same text,
and reading restores the mirror as it is.
-/

set_option autoImplicit false

namespace IncrementalJson

variable {schema : Schema}

/-! ## Numbers -/

namespace Number

/-- A number in the form in which it is read: an integer that fits 64 bits with a sign takes that
form. -/
def settled : Number → Number
  | .uint value => .ofInteger value
  | number => number

theorem settled_ofInteger (value : Int) : (ofInteger value).settled = ofInteger value := by
  rw [ofInteger]
  split
  · rfl
  · rename_i large
    have positive : (0 : Int) ≤ IntegerKind.signed64.greatest := by decide
    have same : (value.toNat : Int) = value := by omega
    rw [settled, ofInteger, same, if_neg large]

theorem settled_settled (number : Number) : number.settled.settled = number.settled := by
  cases number with
  | uint value => exact settled_ofInteger value
  | _ => rfl

theorem text?_ofInteger (value : Int) : (ofInteger value).text? = some (toString value).toList := by
  rw [ofInteger]
  split
  · rfl
  · rename_i large
    have positive : (0 : Int) ≤ IntegerKind.signed64.greatest := by decide
    obtain ⟨size, rfl⟩ := Int.eq_ofNat_of_zero_le (a := value) (by omega)
    rfl

/-- Every integer of fixed width fits 64 bits, with a sign or without. -/
theorem holds_ofInteger {kind : IntegerKind} {value : Int} (typed : kind.holds value) :
    NumberType.any.Holds (.any (ofInteger value)) := by
  have least : IntegerKind.signed64.least ≤ kind.least := by
    obtain ⟨signed, width⟩ := kind
    cases signed <;> cases width <;> decide
  have greatest : kind.greatest ≤ IntegerKind.unsigned64.greatest := by
    obtain ⟨signed, width⟩ := kind
    cases signed <;> cases width <;> decide
  simp only [IntegerKind.holds, Bool.and_eq_true, decide_eq_true_eq] at typed
  rw [ofInteger]
  split
  · rename_i small
    have holds : IntegerKind.signed64.holds value := by
      simp only [IntegerKind.holds, Bool.and_eq_true, decide_eq_true_eq]
      omega
    exact holds
  · rename_i large
    have positive : (0 : Int) ≤ IntegerKind.signed64.greatest := by decide
    have holds : IntegerKind.unsigned64.holds value.toNat := by
      have zero : IntegerKind.unsigned64.least = 0 := rfl
      simp only [IntegerKind.holds, Bool.and_eq_true, decide_eq_true_eq]
      omega
    exact holds

theorem readsBack_ofInteger (value : Int) : (NumberValue.any (ofInteger value)).ReadsBack := by
  rw [ofInteger]
  split <;> trivial

end Number

def NumberValue.mirror (number : NumberValue) : NumberValue := .any number.toNumber.settled

namespace NumberValue

theorem mirror_integer (value : Int) : (integer value).mirror = .any (.ofInteger value) :=
  congrArg any (Number.settled_ofInteger value)

theorem mirror_restored (number : NumberValue) : number.mirror.restored = number.mirror := by
  have restored : ∀ number : Number, (any number).restored = any number.settled := by
    intro number
    cases number <;> rfl
  rw [mirror, restored, Number.settled_settled]

end NumberValue

namespace NumberType.Holds

variable {type : NumberType} {number : NumberValue}

theorem mirror (typed : type.Holds number) : any.Holds number.mirror := by
  cases number with
  | any number =>
    cases type with
    | any =>
      cases number with
      | int value => exact typed
      | uint value =>
        have typed : IntegerKind.unsigned64.holds value := typed
        exact Number.holds_ofInteger typed
      | float bits => trivial
    | _ => exact typed.elim
  | integer value =>
    cases type with
    | integer kind =>
      rw [NumberValue.mirror_integer]
      exact Number.holds_ofInteger typed
    | _ => exact typed.elim
  | single | double => trivial

/-- Only single precision has a text of its own. -/
theorem text?_mirror (typed : type.Holds number) (wide : type ≠ .single) :
    number.mirror.text? = number.text? := by
  cases number with
  | any number =>
    cases number with
    | uint value => exact Number.text?_ofInteger value
    | _ => rfl
  | integer value =>
    rw [NumberValue.mirror_integer]
    exact Number.text?_ofInteger value
  | single bits =>
    cases type with
    | single => exact absurd rfl wide
    | _ => exact typed.elim
  | double bits => rfl

theorem readsBack_mirror (typed : type.Holds number) (wide : type ≠ .single)
    (readsBack : number.ReadsBack) : number.mirror.ReadsBack := by
  cases number with
  | any number =>
    cases number with
    | int value => trivial
    | uint value => exact Number.readsBack_ofInteger value
    | float bits => exact readsBack
  | integer value =>
    rw [NumberValue.mirror_integer]
    exact Number.readsBack_ofInteger value
  | single bits =>
    cases type with
    | single => exact absurd rfl wide
    | _ => exact typed.elim
  | double bits => exact readsBack

end NumberType.Holds

/-! ## Values -/

mutual

/-- The variant that the text of a value of a shape is read to. -/
def Value.mirror (schema : Schema) (shape : Shape) : Value → Value
  | .null => .held .null
  | .bool value => .held (.bool value)
  | .string text => .held (.string text)
  | .number value => .held (.number value.mirror)
  | .list items =>
    match shape.unbox with
    | .list item => .held (.list (mirrorItems schema item items))
    | _ => .unset
  | .object members presence extras =>
    match schema.table? shape.unbox with
    | some table =>
      .held (.object [] (.forMembers 0)
        (mirrorFields schema presence table.fields members 0 ++
          mirrorExtras schema table.extra extras))
    | none => .unset
  | .unset => .unset
  | .held value => value.mirror schema value.heldShape
  | .absent => .held .null
  | .present value =>
    match shape.unbox with
    | .option item => value.mirror schema item
    | _ => .unset

def mirrorItems (schema : Schema) (item : Shape) : List Value → List Value
  | [] => []
  | value :: rest => value.mirror schema item :: mirrorItems schema item rest

def mirrorFields (schema : Schema) (bits : PresenceBits 64) (fields : List Field) :
    List Value → Nat → List (String × Value)
  | [], _ => []
  | value :: values, index =>
    match fields with
    | [] => []
    | field :: fields =>
      let rest := mirrorFields schema bits fields values (index + 1)
      if field.isLive index value bits then
        (field.name, value.mirror schema field.shape) :: rest
      else rest

def mirrorExtras (schema : Schema) (extra : Option Shape) :
    List (String × Value) → List (String × Value)
  | [] => []
  | (name, value) :: rest =>
    match extra with
    | some item => (name, value.mirror schema item) :: mirrorExtras schema extra rest
    | none => []

end

def mirrorMember (schema : Schema) : String × Shape × Value → String × Value
  | (name, shape, value) => (name, value.mirror schema shape)

theorem mirrorItems_eq (item : Shape) (items : List Value) :
    mirrorItems schema item items = items.map (Value.mirror schema item) := by
  induction items with
  | nil => rfl
  | cons value items ih => rw [mirrorItems, ih, List.map_cons]

theorem mirrorFields_eq (bits : PresenceBits 64) (fields : List Field) (values : List Value)
    (index : Nat) :
    mirrorFields schema bits fields values index =
      (Table.liveFields bits fields values index).map (mirrorMember schema) := by
  induction values generalizing fields index with
  | nil => cases fields <;> rfl
  | cons value values ih =>
    cases fields with
    | nil => rfl
    | cons field fields =>
      rw [mirrorFields, Table.liveFields, ih]
      split <;> rfl

theorem mirrorExtras_eq (item : Shape) (extras : Entries Value) :
    mirrorExtras schema (some item) extras =
      (extras.map fun (name, value) => (name, item, value)).map (mirrorMember schema) := by
  induction extras with
  | nil => rfl
  | cons entry extras ih =>
    rw [mirrorExtras, ih]
    rfl

theorem mirror_object {shape : Shape} {table : Table} (declared : schema.table? shape = some table)
    (members : List Value) (presence : PresenceBits 64) (extras : Entries Value) :
    (Value.object members presence extras).mirror schema shape =
      .held (.object [] (.forMembers 0)
        ((table.liveMembers members presence extras).map (mirrorMember schema))) := by
  simp only [Value.mirror, Schema.unbox_of_table? declared, declared, Table.liveMembers,
    mirrorFields_eq, List.map_append]
  cases table.extra with
  | some item => rw [mirrorExtras_eq]
  | none => cases extras <;> rfl

theorem mirror_list (item : Shape) (items : List Value) :
    (Value.list items).mirror schema (.list item) =
      .held (.list (items.map (Value.mirror schema item))) :=
  congrArg (fun copies => Value.held (.list copies)) (mirrorItems_eq item items)

theorem mirror_box (item : Shape) (value : Value) :
    value.mirror schema (.box item) = value.mirror schema item := by
  cases value <;> rfl

/-! ## One text for both -/

def WithoutSingles (schema : Schema) (shape : Shape) (value : Value) : Prop :=
  ∀ number, ¬ Live schema shape value (.number .single) (.number number)

section Clauses

open Transcript

variable (limit : Option Nat) (depth : Nat)

theorem transcript_box (item : Shape) (value : Value) :
    value.transcript schema limit depth (.box item) = value.transcript schema limit depth item := by
  rw [Value.transcript.eq_def, Value.transcript.eq_def schema limit depth item]
  rfl

theorem transcript_held (value : Value) :
    (Value.held value).transcript schema limit depth .variant =
      value.transcript schema limit depth value.heldShape := rfl

theorem transcript_number (type : NumberType) (number : NumberValue) :
    (Value.number number).transcript schema limit depth (.number type) =
      match number.text? with
      | some text => pushed limit depth (whole (Utf8.encode text))
      | none => .error .nonFiniteNumber := rfl

theorem transcript_list (item : Shape) (items : List Value) :
    (Value.list items).transcript schema limit depth (.list item) =
      pushed limit depth (whole [Ascii.leftBracket] ++
        (itemsTranscript schema limit (depth + 1) item [] items ++
          whole [Ascii.rightBracket])) := rfl

theorem transcript_object {shape : Shape} {table : Table}
    (declared : schema.table? shape = some table) (members : List Value)
    (presence : PresenceBits 64) (extras : Entries Value) :
    (Value.object members presence extras).transcript schema limit depth shape =
      pushed limit depth (whole [Ascii.leftBrace] ++
        (separated ((table.liveMembers members presence extras).map
          (memberTranscript schema limit (depth + 1))) ++ whole [Ascii.rightBrace])) := by
  rw [Value.transcript.eq_def]
  simp only [Schema.unbox_of_table? declared, declared, liveMembers_transcripts]

end Clauses

theorem itemsTranscript_mirror {limit : Option Nat} {depth : Nat} {item : Shape}
    {items : List Value}
    (same : ∀ value ∈ items, (value.mirror schema item).transcript schema limit depth .variant =
      value.transcript schema limit depth item) (lead : List UInt8) :
    itemsTranscript schema limit depth .variant lead (items.map (Value.mirror schema item)) =
      itemsTranscript schema limit depth item lead items := by
  induction items generalizing lead with
  | nil => rfl
  | cons value items ih =>
    obtain ⟨first, others⟩ := List.forall_mem_cons.mp same
    rw [List.map_cons, itemsTranscript, itemsTranscript, first, ih others]

theorem liveMembers_ofExtra (item : Shape) (presence : PresenceBits 64) (extras : Entries Value) :
    (Table.ofExtra item).liveMembers [] presence extras =
      extras.map fun (name, value) => (name, item, value) := rfl

/-- A value and its mirror are written alike, also where they cannot be written to the end. -/
theorem HasShape.transcript_mirror {shape : Shape} {value : Value}
    (typed : HasShape schema shape value) (wide : WithoutSingles schema shape value)
    (limit : Option Nat) (depth : Nat) :
    (value.mirror schema shape).transcript schema limit depth .variant =
      value.transcript schema limit depth shape := by
  -- a variant adds no frame, so that both sides have as many frames below them in every part
  induction typed generalizing depth with
  | null | bool | string | unset | absent => rfl
  | @number type number typed =>
    have notSingle : type ≠ .single := by
      intro single
      subst single
      exact wide number (.here _ _)
    have mirrored : (Value.number number.mirror).transcript schema limit depth (.number .any) = _ :=
      transcript_number limit depth .any number.mirror
    rw [typed.text?_mirror notSingle] at mirrored
    exact mirrored
  | @list item items _ ih =>
    have same := itemsTranscript_mirror (fun value among =>
      ih value among (fun number live => wide number (.item among live)) (depth + 1)) []
    rw [mirror_list, transcript_held, transcript_list limit depth item, ← same]
    exact transcript_list limit depth .variant _
  | held _ ih => exact ih (fun number live => wide number (.held live)) depth
  | present _ ih => exact ih (fun number live => wide number (.present live)) depth
  | box _ ih =>
    rw [mirror_box, transcript_box]
    exact ih (fun number live => wide number (.box live)) depth
  | @object shape table members presence extras declared _ _ _ ih =>
    have parts : ∀ member ∈ table.liveMembers members presence extras,
        memberTranscript schema limit (depth + 1)
          (member.1, .variant, member.2.2.mirror schema member.2.1) =
            memberTranscript schema limit (depth + 1) member := by
      intro member among
      have same := ih member among (fun number live => wide number (.member declared among live))
        (depth + 1)
      simp only [memberTranscript, same]
    have each : (table.liveMembers members presence extras).map
          (memberTranscript schema limit (depth + 1)) =
        ((Table.ofExtra .variant).liveMembers [] (.forMembers 0)
          ((table.liveMembers members presence extras).map (mirrorMember schema))).map
            (memberTranscript schema limit (depth + 1)) := by
      rw [liveMembers_ofExtra, List.map_map, List.map_map]
      exact List.map_congr_left fun member among => (parts member among).symm
    rw [mirror_object declared, transcript_held, transcript_object limit depth declared, each]
    exact transcript_object limit depth rfl ..

/-! ## What reading the text gives -/

/-- What it takes for the text of a value to be read without its shape: numbers in single precision
have texts of their own, and of two members of one name only the last is kept. -/
structure Portable (schema : Schema) (shape : Shape) (value : Value) : Prop where
  noClash : ∀ position members presence extras,
    Live schema shape value (.record position) (.object members presence extras) →
      ∀ field ∈ (schema.record position).fields, field.name ∉ Entries.names extras
  floats : FloatsReadBack schema shape value
  wide : WithoutSingles schema shape value

namespace Portable

variable {shape : Shape} {value : Value}

theorem inside {inner : Shape} {part : Value} (portable : Portable schema shape value)
    (wider : ∀ last rest, Live schema inner part last rest → Live schema shape value last rest) :
    Portable schema inner part where
  noClash position members presence extras live :=
    portable.noClash position members presence extras (wider _ _ live)
  floats type number live := portable.floats type number (wider _ _ live)
  wide number live := portable.wide number (wider _ _ live)

theorem nodup_names {table : Table} {members : List Value} {presence : PresenceBits 64}
    {extras : Entries Value} (distinct : schema.NamesDistinct)
    (declared : schema.table? shape = some table) (unique : extras.names.Nodup)
    (portable : Portable schema shape (.object members presence extras)) :
    ((table.liveMembers members presence extras).map Prod.fst).Nodup := by
  apply Table.nodup_liveMembers
  apply Table.findable_of_distinct distinct declared unique
  intro name among
  refine Schema.lookup?_of_noClash declared ?_ among
  intro position isRecord
  subst isRecord
  exact portable.noClash position members presence extras (.here _ _)

end Portable

theorem HasShape.restorable_mirror (distinct : schema.NamesDistinct) {shape : Shape} {value : Value}
    (typed : HasShape schema shape value) (portable : Portable schema shape value) :
    Restorable schema .variant (value.mirror schema shape) := by
  induction typed with
  | null | absent => exact .held .null
  | bool value => exact .held (.bool value)
  | string text => exact .held (.string text)
  | @number type number typed =>
    have notSingle : type ≠ .single := by
      intro single
      subst single
      exact portable.wide number (.here _ _)
    have readsBack := typed.readsBack_mirror notSingle (portable.floats type number (.here _ _))
    exact .held (.number typed.mirror readsBack)
  | @list item items _ ih =>
    rw [mirror_list]
    refine .held (.list ?_)
    intro copy among
    obtain ⟨value, inside, rfl⟩ := List.mem_map.mp among
    exact ih value inside (portable.inside fun _ _ live => .item inside live)
  | unset => exact .unset
  | held _ ih => exact ih (portable.inside fun _ _ live => .held live)
  | present _ ih => exact ih (portable.inside fun _ _ live => .present live)
  | box _ ih =>
    rw [mirror_box]
    exact ih (portable.inside fun _ _ live => .box live)
  | @object shape table members presence extras declared _ unique _ ih =>
    rw [mirror_object declared]
    apply Restorable.held
    refine .object rfl rfl ?_ nofun (fun _ _ _ _ => rfl) ?_
    · rw [Entries.names, List.map_map]
      exact portable.nodup_names distinct declared unique
    · intro copy among
      rw [liveMembers_ofExtra, List.map_map] at among
      obtain ⟨member, inside, rfl⟩ := List.mem_map.mp among
      exact ih member inside (portable.inside fun _ _ live => .member declared inside live)

theorem HasShape.restored_mirror {shape : Shape} {value : Value}
    (typed : HasShape schema shape value) :
    (value.mirror schema shape).restored schema .variant = value.mirror schema shape := by
  induction typed with
  | null | bool | string | unset | absent => rfl
  | @number type number typed =>
    exact congrArg (fun number => Value.held (.number number)) number.mirror_restored
  | @list item items _ ih =>
    rw [mirror_list]
    refine congrArg (fun items => Value.held (.list items)) (restoredItems_same ?_)
    intro copy among
    obtain ⟨value, inside, rfl⟩ := List.mem_map.mp among
    exact ih value inside
  | held _ ih => exact ih
  | present _ ih => exact ih
  | box _ ih =>
    rw [mirror_box]
    exact ih
  | @object shape table members presence extras declared _ _ _ ih =>
    rw [mirror_object declared]
    refine congrArg (fun extras => Value.held (.object [] (.forMembers 0) extras))
      (restoredEntries_same ?_)
    intro entry among
    obtain ⟨member, inside, rfl⟩ := List.mem_map.mp among
    exact ⟨.variant, rfl, ih member inside⟩

theorem HasShape.parse_mirror (distinct : schema.NamesDistinct) {shape : Shape} {value : Value}
    {out : List UInt8} (typed : HasShape schema shape value)
    (portable : Portable schema shape value) (written : Written schema shape value out) :
    parse schema .variant out = .ok (value.mirror schema shape) := by
  have text := transcript_of_written written
  rw [← typed.transcript_mirror portable.wide] at text
  have parsed := (typed.restorable_mirror distinct portable).parse (written_of_transcript _ text)
  rwa [typed.restored_mirror] at parsed

end IncrementalJson
