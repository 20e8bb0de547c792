import IncrementalJson.Proofs.Reading.DepthLimit
import IncrementalJson.Proofs.Reading.Induction
import IncrementalJson.Proofs.Reading.Places
import IncrementalJson.Record

/-!
# Values whose members have names of their own

In an addressable value no object holds two extras of one name, or an extra of a
declared name.  This is said of all that is stored, whether it is there or not, so
that presence bits make no difference to it.  Values that are read are
addressable, so are those that shapes start from, and a view that goes into such a
value comes to others.
-/

set_option autoImplicit false

namespace IncrementalJson

variable {schema : Schema}

/-- Whether a value has no parts. -/
def Value.isLeaf : Value → Bool
  | .list _ | .object .. | .held _ | .present _ => false
  | _ => true

/-- Whatever is stored in the objects of a value can be told apart by its name. -/
inductive Addressable (schema : Schema) : Shape → Value → Prop where
  | leaf {shape : Shape} {value : Value} (leaf : value.isLeaf) : Addressable schema shape value
  | list {shape item : Shape} {items : List Value} (unboxed : shape.unbox = .list item)
      (each : ∀ value ∈ items, Addressable schema item value) :
      Addressable schema shape (.list items)
  | held {shape : Shape} {value : Value} (unboxed : shape.unbox = .variant)
      (inside : Addressable schema value.heldShape value) : Addressable schema shape (.held value)
  | present {shape item : Shape} {value : Value} (unboxed : shape.unbox = .option item)
      (inside : Addressable schema item value) : Addressable schema shape (.present value)
  | object {shape : Shape} {table : Table} {members : List Value} {presence : PresenceBits 64}
      {extras : Entries Value} (declared : schema.table? shape.unbox = some table)
      (fields : ∀ (index : Nat) (field : Field) (value : Value),
        table.fields[index]? = some field → members[index]? = some value →
          Addressable schema field.shape value)
      (distinct : extras.names.Nodup)
      (undeclared : ∀ name ∈ extras.names, table.lookup? name = none)
      (further : ∀ item, table.extra = some item → ∀ entry ∈ extras,
        Addressable schema item entry.2) :
      Addressable schema shape (.object members presence extras)

namespace Addressable

variable {shape : Shape} {value : Value}

theorem box {item : Shape} (inside : Addressable schema item value) :
    Addressable schema (.box item) value := by
  cases inside with
  | leaf leaf => exact .leaf leaf
  | list unboxed each => exact .list unboxed each
  | held unboxed inside => exact .held unboxed inside
  | present unboxed inside => exact .present unboxed inside
  | object declared fields distinct undeclared further =>
    exact .object declared fields distinct undeclared further

/-! ## What shapes start from -/

theorem initialWith {record : Nat → Value} (shape : Shape)
    (records : ∀ held, shape.nested? = some held →
      Addressable schema (.record held) (record held)) :
    Addressable schema shape (shape.initialWith record) := by
  induction shape with
  | null | bool | string | number | «variant» | option => exact .leaf rfl
  | list item => exact .list rfl (List.forall_mem_nil _)
  | box item ih => exact (ih records).box
  | extras item =>
    refine .object rfl ?_ List.nodup_nil (List.forall_mem_nil _) fun _ _ => List.forall_mem_nil _
    intro index field value here
    cases here
  | record position => exact records position rfl

theorem initialRecord (schema : Schema) (position : Nat) :
    Addressable schema (.record position) (schema.initialRecord position) := by
  induction position using Nat.strongRecOn with
  | ind position ih =>
    rw [Schema.initialRecord_eq]
    refine .object rfl ?_ List.nodup_nil (List.forall_mem_nil _) fun _ _ => List.forall_mem_nil _
    intro index field value here there
    rw [List.getElem?_map, here] at there
    cases there
    exact initialWith field.shape fun held holds =>
      ih held (Schema.nested_lt (List.mem_of_getElem? here) holds)

theorem initial (schema : Schema) (shape : Shape) :
    Addressable schema shape (schema.initial shape) :=
  initialWith shape fun held _ => initialRecord schema held

/-! ## What is read -/

theorem wrap (inside : Addressable schema shape.core value) :
    Addressable schema shape (shape.wrap value) := by
  induction shape with
  | option item ih => exact .present rfl (ih inside)
  | box item ih => exact (ih inside).box
  | _ => exact inside

/-- Whatever is read is addressable. -/
theorem readSteps (schema : Schema) :
    Json.ReadSteps schema fun _ shape value => Addressable schema shape value where
  absent shape _ := .leaf rfl
  layers json shape value _ meant inside := by
    apply wrap
    rw [Json.innerShape] at inside
    split
    · rename_i isVariant
      rw [if_pos isVariant, ← meant.heldShape] at inside
      rw [isVariant]
      exact .held rfl inside
    · rename_i other
      rwa [if_neg other] at inside
  leaf json shape value leaf meant := by
    cases meant with
    | null | bool | number | string => exact .leaf rfl
    | array | object => cases leaf
  array items item values each := by
    refine .list rfl ?_
    intro value among
    obtain ⟨_, -, here⟩ := each value among
    exact here
  object members shape table read declared held := by
    rw [← Schema.unbox_of_table? declared] at declared
    refine .object declared ?_ held.distinct ?_ ?_
    · intro index field value here there
      -- what is not there is as it was in the beginning
      cases live : field.isLive index value read.presence with
      | true =>
        obtain ⟨-, _, _, _, -, -, -, here⟩ := held.live index field value here there live
        exact here
      | false =>
        rw [held.dead index field value here there live]
        exact initial schema field.shape
    · intro name among
      obtain ⟨entry, inside, rfl⟩ := List.mem_map.mp among
      exact (held.extra entry inside).1
    · intro item admitted entry among
      obtain ⟨-, item', admitted', _, _, _, -, -, -, here⟩ := held.extra entry among
      rw [admitted] at admitted'
      cases admitted'
      exact here

theorem of_finish {limit : Option Nat} {chunks : List (List UInt8)}
    (read : ((Parser.create schema shape limit).feedAll chunks).finish = .ok value) :
    Addressable schema shape value := by
  obtain ⟨text, json, -, -, means⟩ :=
    (parse_eq_ok_iff schema shape chunks.flatten value).mp (Parser.parse_of_finish read)
  exact (readSteps schema).readAs json shape means

/-! ## Changes of presence -/

theorem setPresenceBit (addressable : Addressable schema shape value) (index : Nat)
    (isThere : Bool) : Addressable schema shape (value.setPresenceBit index isThere) := by
  cases addressable with
  | object declared fields distinct undeclared further =>
    exact .object declared fields distinct undeclared further
  | list unboxed each => exact .list unboxed each
  | held unboxed inside => exact .held unboxed inside
  | present unboxed inside => exact .present unboxed inside
  | @leaf _ value leaf =>
    cases value with
    | object => cases leaf
    | _ => exact .leaf leaf

theorem setPresent (addressable : Addressable schema shape value) (table : Table) (name : String)
    (present : Bool) : Addressable schema shape (table.setPresent value name present).1 := by
  rw [Table.setPresent]
  split
  · split
    · exact addressable.setPresenceBit _ present
    · exact addressable
  · exact addressable

theorem markAllPresent (addressable : Addressable schema shape value) (table : Table) :
    Addressable schema shape (table.markAllPresent value) := by
  rw [Table.markAllPresent]
  generalize table.fields.zipIdx = fields
  induction fields generalizing value with
  | nil => exact addressable
  | cons place fields ih =>
    obtain ⟨field, index⟩ := place
    apply ih
    simp only
    split
    · exact addressable.setPresenceBit _ true
    · exact addressable

/-! ## Views -/

/-- A view of an addressable value sees an addressable value behind all layers. -/
theorem resolve (addressable : Addressable schema shape value) :
    ∃ inner core, (View.ofValue schema shape value).resolve = .ofValue schema inner core ∧
      inner.unbox = inner ∧ Addressable schema inner core ∧
      ∀ part, core ≠ .held part ∧ core ≠ .present part := by
  have unboxed_unbox (shape : Shape) : shape.unbox.unbox = shape.unbox := by
    induction shape with
    | box item ih => exact ih
    | _ => rfl
  induction addressable with
  | @leaf shape value leaf =>
    have seen : value.concrete shape = (shape.unbox, value) := by
      rw [Value.concrete.eq_def]
      split
      · cases leaf
      · cases leaf
      · rfl
    refine ⟨shape.unbox, value, by rw [View.resolve_ofValue, seen], unboxed_unbox shape, .leaf leaf, ?_⟩
    intro part
    constructor <;> rintro rfl <;> cases leaf
  | @list shape item items unboxed each _ =>
    have seen : (Value.list items).concrete shape = (.list item, .list items) := by
      rw [Value.concrete.eq_def, unboxed]
    exact ⟨.list item, .list items, by rw [View.resolve_ofValue, seen], rfl, .list rfl each,
      fun _ => ⟨nofun, nofun⟩⟩
  | @held shape value unboxed _ ih =>
    have seen : (Value.held value).concrete shape = value.concrete value.heldShape := by
      rw [Value.concrete.eq_def, unboxed]
    rw [View.resolve_ofValue, seen, ← View.resolve_ofValue]
    exact ih
  | @present shape item value unboxed _ ih =>
    have seen : (Value.present value).concrete shape = value.concrete item := by
      rw [Value.concrete.eq_def, unboxed]
    rw [View.resolve_ofValue, seen, ← View.resolve_ofValue]
    exact ih
  | @object shape table members presence extras declared fields distinct undeclared further _ _ =>
    have seen : (Value.object members presence extras).concrete shape =
        (shape.unbox, .object members presence extras) := by
      rw [Value.concrete.eq_def]
    have declared' : schema.table? shape.unbox.unbox = some table := by
      rw [unboxed_unbox, declared]
    exact ⟨shape.unbox, _, by rw [View.resolve_ofValue, seen], unboxed_unbox shape,
      .object declared' fields distinct undeclared further, fun _ => ⟨nofun, nofun⟩⟩

end Addressable

end IncrementalJson
