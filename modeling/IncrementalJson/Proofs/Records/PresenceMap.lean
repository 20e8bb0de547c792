import Mathlib.Data.List.Induction
import IncrementalJson.Proofs.Reading.Containers
import IncrementalJson.Proofs.Reading.Places
import IncrementalJson.Proofs.RoundTrip.Restored
import IncrementalJson.Record

/-!
# Presence as a map

A program that holds a record may say of its members that they are there or not,
by name, by number or of all at once, store values, and bring the record back to
its start.  Whatever it did, each presence bit is what was last written to it, no
two members share one, and to speak of one member leaves all others alone.
-/

set_option autoImplicit false

namespace IncrementalJson

/-! ## Presence sets -/

namespace PresenceBits

theorem get_of_capacity_le {bits : PresenceBits 64} {index : Nat} (beyond : bits.capacity ≤ index) :
    bits.get index = false := by
  have noWord : bits.words[index / 64]? = none := by
    rw [List.getElem?_eq_none_iff]
    simp only [capacity] at beyond
    omega
  simp only [get, noWord]

end PresenceBits

/-! ## Actions -/

inductive RecordAction where
  | setPresent (name : String) (present : Bool)
  | setPresenceBit (index : Nat) (isThere : Bool)
  | markAllPresent
  /-- Stores a value in a declared member. -/
  | store (index : Nat) (item : Value)
  | setExtras (entries : Entries Value)
  /-- Brings the record back to its start. -/
  | reset

def Table.bitField? (table : Table) (index : Nat) : Option Field :=
  table.fields[index]?.filter fun field => !field.shape.tellsPresence

def Table.bitNamed (table : Table) (index : Nat) (name : String) : Bool :=
  (table.bitField? index).any fun field => field.name = name

namespace RecordAction

def act (schema : Schema) (position : Nat) (value : Value) : RecordAction → Value
  | setPresent name present => ((schema.record position).setPresent value name present).1
  | setPresenceBit index isThere => value.setPresenceBit index isThere
  | markAllPresent => (schema.record position).markAllPresent value
  | store index item => value.store index item
  | setExtras entries => value.setExtras entries
  | reset => (View.ofValue schema (.record position) value).reset

def run (schema : Schema) (position : Nat) (actions : List RecordAction) : Value :=
  actions.foldl (act schema position) (schema.initial (.record position))

theorem run_concat (schema : Schema) (position : Nat) (actions : List RecordAction)
    (action : RecordAction) :
    run schema position (actions ++ [action]) =
      act schema position (run schema position actions) action := by
  rw [run, List.foldl_append]
  rfl

/-- What an action writes to a bit, if it touches it. -/
def writes? (table : Table) (index : Nat) : RecordAction → Option Bool
  | setPresent name present => if table.bitNamed index name then some present else none
  | setPresenceBit other isThere => if other = index then some isThere else none
  | markAllPresent => (table.bitField? index).map fun _ => true
  | store .. | setExtras .. => none
  | reset => some false

def lastWritten (table : Table) (index : Nat) (actions : List RecordAction) : Bool :=
  (actions.reverse.findSome? (writes? table index)).getD false

/-- Whatever is stored in a member is of its shape. -/
def Typed (schema : Schema) (table : Table) : RecordAction → Prop
  | store index item => ∀ field, table.fields[index]? = some field → HasShape schema field.shape item
  | _ => True

theorem lastWritten_concat (table : Table) (index : Nat) (actions : List RecordAction)
    (action : RecordAction) :
    lastWritten table index (actions ++ [action]) =
      (writes? table index action).getD (lastWritten table index actions) := by
  rw [lastWritten, List.reverse_append, List.reverse_singleton, List.singleton_append,
    List.findSome?_cons]
  cases writes? table index action <;> rfl

end RecordAction

/-! ## Records in hand -/

namespace Table

variable {table : Table} {value : Value} {index : Nat} {field : Field}

theorem bitField?_eq_some_iff (table : Table) (index : Nat) (field : Field) :
    table.bitField? index = some field ↔
      table.fields[index]? = some field ∧ field.shape.tellsPresence = false := by
  rw [bitField?, Option.filter_eq_some_iff]
  simp

theorem bitNamed_iff (table : Table) (index : Nat) (name : String) :
    table.bitNamed index name = true ↔ ∃ field, table.fields[index]? = some field ∧
      field.shape.tellsPresence = false ∧ field.name = name := by
  simp only [bitNamed, Option.any_eq_true, bitField?_eq_some_iff, decide_eq_true_eq, and_assoc]

theorem bitNamed_of_undeclared {name : String} (unknown : table.lookup? name = none) :
    table.bitNamed index name = false := by
  rw [← Bool.not_eq_true, bitNamed_iff]
  rintro ⟨field, declared, -, named⟩
  exact (lookup?_eq_none_iff ..).mp unknown field (List.mem_of_getElem? declared) named

theorem bitNamed_of_declared (distinct : (table.fields.map Field.name).Nodup) {other : Nat}
    (known : table.lookup? field.name = some (other, field)) :
    table.bitNamed index field.name =
      (other = index && !field.shape.tellsPresence) := by
  rw [Bool.eq_iff_iff, bitNamed_iff, Bool.and_eq_true, decide_eq_true_eq, Bool.not_eq_true']
  constructor
  · rintro ⟨field', declared, bit, named⟩
    have found := lookup?_of_distinct distinct declared
    rw [named, known] at found
    cases found
    exact ⟨rfl, bit⟩
  · rintro ⟨rfl, bit⟩
    exact ⟨field, (lookup?_spec known).1, bit, rfl⟩

end Table

/-- A record with a place for every declared member, words for its presence bits, and options in
its optional members. -/
inductive Table.InHand (table : Table) : Value → Prop where
  | object {members : List Value} {bits : PresenceBits 64} {extras : Entries Value}
      (complete : members.length = table.fields.length)
      (words : bits.capacity = 64 * ((table.fields.length + 63) / 64))
      (options : ∀ (index : Nat) (field : Field) (item : Value), table.fields[index]? = some field →
        field.shape.tellsPresence = true → members[index]? = some item →
          item ≠ .absent → ∃ inner, item = .present inner) :
      InHand table (.object members bits extras)

namespace Table

variable {table : Table} {value : Value} {index : Nat} {field : Field}

/-! ## What one write changes -/

@[simp] theorem stored?_setPresenceBit (value : Value) (index other : Nat) (isThere : Bool) :
    (value.setPresenceBit index isThere).stored? other = value.stored? other := by
  cases value <;> rfl

@[simp] theorem extras_setPresenceBit (value : Value) (index : Nat) (isThere : Bool) :
    (value.setPresenceBit index isThere).extras = value.extras := by
  cases value <;> rfl

namespace InHand

theorem presenceBit_beyond (inHand : table.InHand value)
    (beyond : 64 * ((table.fields.length + 63) / 64) ≤ index) : value.presenceBit index = false := by
  cases inHand with
  | object _ words _ => exact PresenceBits.get_of_capacity_le (words ▸ beyond)

theorem setPresenceBit (inHand : table.InHand value) (index : Nat) (isThere : Bool) :
    table.InHand (value.setPresenceBit index isThere) := by
  cases inHand with
  | object complete words options =>
    exact .object complete ((PresenceBits.capacity_set ..).trans words) options

theorem presenceBit_setPresenceBit (inHand : table.InHand value) (index other : Nat)
    (isThere : Bool) :
    (value.setPresenceBit index isThere).presenceBit other =
      if index = other ∧ other < 64 * ((table.fields.length + 63) / 64) then isThere
      else value.presenceBit other := by
  cases inHand with
  | object _ words _ =>
    rw [← words]
    refine (PresenceBits.get_set ..).trans (if_congr ?_ rfl rfl)
    constructor <;> rintro ⟨rfl, below⟩ <;> exact ⟨rfl, below⟩

/-- Whether a member is there depends on its own bit or value, and that of an extra on the
extras. -/
theorem has_congr {value' : Value} {name : String} (inHand : table.InHand value)
    (inHand' : table.InHand value')
    (bit : ∀ index field, table.lookup? name = some (index, field) →
      field.shape.tellsPresence = false → value'.presenceBit index = value.presenceBit index)
    (stored : ∀ index, value'.stored? index = value.stored? index)
    (extras : value'.extras = value.extras) : table.has value' name = table.has value name := by
  cases inHand with
  | @object members bits entries complete =>
  cases inHand' with
  | @object members' bits' entries' =>
    have sameMembers : members' = members := List.ext_getElem? stored
    have sameExtras : entries' = entries := extras
    subst sameMembers sameExtras
    cases known : table.lookup? name with
    | none => simp only [has, known]
    | some place =>
      obtain ⟨index, field⟩ := place
      simp only [has, known]
      cases members'[index]? with
      | none => rfl
      | some item =>
        cases pointer : field.shape.tellsPresence with
        | false =>
          simp only [Field.isLive_bit pointer]
          exact bit index field known pointer
        | true => rw [Bool.eq_iff_iff, Field.isLive_pointer pointer, Field.isLive_pointer pointer]

theorem has_bit (inHand : table.InHand value) (known : table.lookup? field.name = some (index, field))
    (bit : field.shape.tellsPresence = false) :
    table.has value field.name = value.presenceBit index := by
  cases inHand with
  | object complete words options =>
    obtain ⟨declared, -⟩ := lookup?_spec known
    obtain ⟨inside, -⟩ := List.getElem?_eq_some_iff.mp declared
    rw [has_declared known (List.getElem?_eq_getElem (complete ▸ inside)), Field.isLive_bit bit]
    rfl

theorem has_pointer_iff (inHand : table.InHand value)
    (known : table.lookup? field.name = some (index, field))
    (pointer : field.shape.tellsPresence = true) :
    table.has value field.name = true ↔ ∃ inner, value.stored? index = some (.present inner) := by
  cases inHand with
  | @object members bits extras complete words options =>
    obtain ⟨declared, -⟩ := lookup?_spec known
    obtain ⟨inside, -⟩ := List.getElem?_eq_some_iff.mp declared
    have room : index < members.length := complete ▸ inside
    have here : members[index]? = some members[index] := List.getElem?_eq_getElem room
    rw [has_declared known here, Field.isLive_pointer pointer]
    constructor
    · intro kept
      obtain ⟨inner, isPresent⟩ := options index field _ declared pointer here kept
      exact ⟨inner, here.trans (congrArg some isPresent)⟩
    · rintro ⟨inner, isPresent⟩ isAbsent
      have stored : members[index]? = some (.present inner) := isPresent
      rw [here, isAbsent] at stored
      cases stored

end InHand

/-! ## Saying that a member is there -/

theorem setPresent_of_bit (known : table.lookup? field.name = some (index, field))
    (bit : field.shape.tellsPresence = false) (value : Value) (present : Bool) :
    table.setPresent value field.name present = (value.setPresenceBit index present, true) := by
  simp only [setPresent, known, Field.presence, bit, Bool.false_eq_true, if_false]

theorem setPresent_of_pointer (known : table.lookup? field.name = some (index, field))
    (pointer : field.shape.tellsPresence = true) (value : Value) (present : Bool) :
    table.setPresent value field.name present = (value, true) := by
  simp only [setPresent, known, Field.presence, pointer, if_true]

theorem setPresent_of_undeclared {name : String} (unknown : table.lookup? name = none)
    (value : Value) (present : Bool) : table.setPresent value name present = (value, false) := by
  simp only [setPresent, unknown]

/-- One record differs from another in presence bits alone. -/
structure BitsApart (table : Table) (value value' : Value) : Prop where
  inHand : table.InHand value'
  stored : ∀ index, value'.stored? index = value.stored? index
  extras : value'.extras = value.extras

theorem InHand.bitsApart_setPresenceBit (inHand : table.InHand value) (index : Nat)
    (isThere : Bool) : table.BitsApart value (value.setPresenceBit index isThere) where
  inHand := inHand.setPresenceBit index isThere
  stored _ := stored?_setPresenceBit ..
  extras := extras_setPresenceBit ..

theorem InHand.bitsApart_refl (inHand : table.InHand value) : table.BitsApart value value :=
  ⟨inHand, fun _ => rfl, rfl⟩

theorem BitsApart.trans {value' value'' : Value} (first : table.BitsApart value value')
    (second : table.BitsApart value' value'') : table.BitsApart value value'' where
  inHand := second.inHand
  stored index := (second.stored index).trans (first.stored index)
  extras := second.extras.trans first.extras

theorem InHand.bitsApart_setPresent (inHand : table.InHand value) (name : String)
    (present : Bool) : table.BitsApart value (table.setPresent value name present).1 := by
  rw [setPresent]
  split
  · split
    · exact inHand.bitsApart_setPresenceBit _ present
    · exact inHand.bitsApart_refl
  · exact inHand.bitsApart_refl

def markField (value : Value) (place : Field × Nat) : Value :=
  match place.1.presence place.2 with
  | .bit bit => value.setPresenceBit bit true
  | .pointer => value

theorem markField_of_bit {place : Field × Nat} (bit : place.1.shape.tellsPresence = false)
    (value : Value) : markField value place = value.setPresenceBit place.2 true := by
  simp only [markField, Field.presence, bit, Bool.false_eq_true, if_false]

theorem markField_of_pointer {place : Field × Nat} (pointer : place.1.shape.tellsPresence = true)
    (value : Value) : markField value place = value := by
  simp only [markField, Field.presence, pointer, if_true]

theorem InHand.bitsApart_markFields (inHand : table.InHand value) (places : List (Field × Nat)) :
    table.BitsApart value (places.foldl markField value) := by
  induction places generalizing value with
  | nil => exact inHand.bitsApart_refl
  | cons place places ih =>
    have here : table.BitsApart value (markField value place) := by
      cases pointer : place.1.shape.tellsPresence with
      | false =>
        rw [markField_of_bit pointer]
        exact inHand.bitsApart_setPresenceBit _ true
      | true =>
        rw [markField_of_pointer pointer]
        exact inHand.bitsApart_refl
    exact here.trans (ih here.inHand)

theorem InHand.presenceBit_markFields (inHand : table.InHand value) (places : List (Field × Nat))
    {other : Nat} (below : other < 64 * ((table.fields.length + 63) / 64)) :
    (places.foldl markField value).presenceBit other =
      (places.any (fun place => place.2 = other && !place.1.shape.tellsPresence) ||
        value.presenceBit other) := by
  induction places generalizing value with
  | nil => rfl
  | cons place places ih =>
    rw [List.foldl_cons, List.any_cons]
    cases pointer : place.1.shape.tellsPresence with
    | false =>
      rw [markField_of_bit pointer, ih (inHand.setPresenceBit _ true),
        inHand.presenceBit_setPresenceBit]
      by_cases same : place.2 = other <;> simp [same, below]
    | true =>
      rw [markField_of_pointer pointer, ih inHand]
      simp

theorem InHand.bitsApart_markAllPresent (inHand : table.InHand value) :
    table.BitsApart value (table.markAllPresent value) :=
  inHand.bitsApart_markFields table.fields.zipIdx

theorem InHand.presenceBit_markAllPresent (inHand : table.InHand value) {other : Nat}
    (below : other < 64 * ((table.fields.length + 63) / 64)) :
    (table.markAllPresent value).presenceBit other =
      ((table.bitField? other).isSome || value.presenceBit other) := by
  have marked : table.fields.zipIdx.any
      (fun place => place.2 = other && !place.1.shape.tellsPresence) =
        (table.bitField? other).isSome := by
    rw [Bool.eq_iff_iff, List.any_eq_true, Option.isSome_iff_exists]
    constructor
    · rintro ⟨⟨field, index⟩, among, found⟩
      rw [List.mk_mem_zipIdx_iff_getElem?] at among
      simp only [Bool.and_eq_true, decide_eq_true_eq, Bool.not_eq_true'] at found
      obtain ⟨rfl, bit⟩ := found
      exact ⟨field, (bitField?_eq_some_iff ..).mpr ⟨among, bit⟩⟩
    · rintro ⟨field, found⟩
      obtain ⟨declared, bit⟩ := (bitField?_eq_some_iff ..).mp found
      exact ⟨(field, other), List.mk_mem_zipIdx_iff_getElem?.mpr declared, by simp [bit]⟩
  rw [← marked]
  exact inHand.presenceBit_markFields table.fields.zipIdx below

end Table

/-! ## Runs of actions -/

namespace RecordAction

variable {schema : Schema} {position : Nat} {table : Table} {value : Value}

theorem record_of_declared (declared : schema.records[position]? = some table) :
    schema.record position = table := by
  rw [Schema.record, declared]
  rfl

theorem initial_record (declared : schema.records[position]? = some table) :
    schema.initial (.record position) = table.initialWith schema.initialRecord := by
  rw [← record_of_declared declared]
  exact schema.initialRecord_eq position

theorem inHand_initial (declared : schema.records[position]? = some table) :
    table.InHand (schema.initial (.record position)) := by
  rw [initial_record declared]
  refine .object (List.length_map _) (PresenceBits.capacity_forMembers _) ?_
  intro index field item here pointer there kept
  rw [List.getElem?_map, here] at there
  cases there
  cases shape : field.shape with
  | option item =>
    simp only [shape] at kept
    exact absurd rfl kept
  | _ => simp [shape, Shape.tellsPresence] at pointer

theorem presenceBit_initial (declared : schema.records[position]? = some table) (index : Nat) :
    (schema.initial (.record position)).presenceBit index = false := by
  rw [initial_record declared]
  exact PresenceBits.get_empty ..

theorem inHand_store (inHand : table.InHand value) {index : Nat} {item : Value}
    (typed : (store index item).Typed schema table) : table.InHand (value.store index item) := by
  cases inHand with
  | @object members bits extras complete words options =>
    refine .object ((List.length_set ..).trans complete) words ?_
    intro other field part here pointer there kept
    by_cases same : index = other
    · subst same
      obtain ⟨inside, -⟩ := List.getElem?_eq_some_iff.mp there
      rw [List.getElem?_set_self (by simpa using inside)] at there
      cases there
      have hasShape := typed field here
      cases shape : field.shape with
      | option inner =>
        rw [shape] at hasShape
        cases hasShape with
        | absent => exact absurd rfl kept
        | present => exact ⟨_, rfl⟩
        | object isTable => cases isTable
      | _ => simp [shape, Shape.tellsPresence] at pointer
    · rw [List.getElem?_set_ne same] at there
      exact options other field part here pointer there kept

theorem inHand_act (declared : schema.records[position]? = some table)
    (inHand : table.InHand value) {action : RecordAction} (typed : action.Typed schema table) :
    table.InHand (act schema position value action) := by
  cases action with
  | setPresent name present =>
    rw [act, record_of_declared declared]
    exact (inHand.bitsApart_setPresent name present).inHand
  | setPresenceBit index isThere => exact inHand.setPresenceBit index isThere
  | markAllPresent =>
    rw [act, record_of_declared declared]
    exact inHand.bitsApart_markAllPresent.inHand
  | store index item => exact inHand_store inHand typed
  | setExtras entries =>
    cases inHand with
    | object complete words options => exact .object complete words options
  | reset =>
    rw [act, View.reset, if_pos (View.matched_ofValue ..)]
    exact inHand_initial declared

/-- An action writes to a bit what it is said to write, and else leaves it alone. -/
theorem presenceBit_act (declared : schema.records[position]? = some table)
    (distinct : (table.fields.map Field.name).Nodup) (inHand : table.InHand value)
    (action : RecordAction) {index : Nat}
    (below : index < 64 * ((table.fields.length + 63) / 64)) :
    (act schema position value action).presenceBit index =
      (writes? table index action).getD (value.presenceBit index) := by
  cases action with
  | setPresent name present =>
    rw [act, record_of_declared declared, writes?]
    cases known : table.lookup? name with
    | none =>
      rw [Table.setPresent_of_undeclared known, Table.bitNamed_of_undeclared known]
      rfl
    | some place =>
      obtain ⟨other, field⟩ := place
      obtain ⟨-, rfl⟩ := Table.lookup?_spec known
      rw [Table.bitNamed_of_declared distinct known]
      cases pointer : field.shape.tellsPresence with
      | false =>
        rw [Table.setPresent_of_bit known pointer, inHand.presenceBit_setPresenceBit]
        by_cases same : other = index <;> simp [same, below]
      | true =>
        rw [Table.setPresent_of_pointer known pointer]
        simp
  | setPresenceBit other isThere =>
    rw [act, inHand.presenceBit_setPresenceBit, writes?]
    by_cases same : other = index <;> simp [same, below]
  | markAllPresent =>
    rw [act, record_of_declared declared, inHand.presenceBit_markAllPresent below, writes?]
    cases table.bitField? index <;> rfl
  | store other item =>
    cases value <;> rfl
  | setExtras entries =>
    cases value <;> rfl
  | reset =>
    rw [act, View.reset, if_pos (View.matched_ofValue ..)]
    exact presenceBit_initial declared index

theorem inHand_run (declared : schema.records[position]? = some table)
    {actions : List RecordAction} (typed : ∀ action ∈ actions, action.Typed schema table) :
    table.InHand (run schema position actions) := by
  induction actions using List.reverseRecOn with
  | nil => exact inHand_initial declared
  | append_singleton actions action ih =>
    obtain ⟨before, last⟩ := List.forall_mem_append.mp typed
    rw [run_concat]
    exact inHand_act declared (ih before) (last action List.mem_cons_self)

theorem presenceBit_run (declared : schema.records[position]? = some table)
    (distinct : (table.fields.map Field.name).Nodup) {actions : List RecordAction}
    (typed : ∀ action ∈ actions, action.Typed schema table) (index : Nat) :
    (run schema position actions).presenceBit index =
      (index < 64 * ((table.fields.length + 63) / 64) && lastWritten table index actions) := by
  rcases Nat.lt_or_ge index (64 * ((table.fields.length + 63) / 64)) with below | beyond
  · rw [decide_eq_true below, Bool.true_and]
    induction actions using List.reverseRecOn with
    | nil => exact presenceBit_initial declared index
    | append_singleton actions action ih =>
      obtain ⟨before, last⟩ := List.forall_mem_append.mp typed
      rw [lastWritten_concat, ← ih before, run_concat]
      exact presenceBit_act declared distinct (inHand_run declared before) action below
  · rw [decide_eq_false (Nat.not_lt.mpr beyond), Bool.false_and]
    exact (inHand_run declared typed).presenceBit_beyond beyond

end RecordAction

/-! ## One member at a time -/

namespace Table.InHand

variable {table : Table} {value : Value}

/-- To say of one name that its member is there changes nothing for any other name. -/
theorem has_setPresent_other (inHand : table.InHand value) (name : String) (present : Bool)
    {other : String} (differ : other ≠ name) :
    table.has (table.setPresent value name present).1 other = table.has value other := by
  have apart := inHand.bitsApart_setPresent name present
  refine inHand.has_congr apart.inHand ?_ apart.stored apart.extras
  intro index field found bit
  obtain ⟨-, named⟩ := lookup?_spec found
  cases known : table.lookup? name with
  | none => rw [setPresent_of_undeclared known]
  | some place =>
    obtain ⟨index', field'⟩ := place
    obtain ⟨-, rfl⟩ := lookup?_spec known
    have elsewhere : index' ≠ index := by
      rintro rfl
      obtain ⟨here, -⟩ := lookup?_spec found
      obtain ⟨there, -⟩ := lookup?_spec known
      rw [here] at there
      cases there
      exact differ named.symm
    cases pointer : field'.shape.tellsPresence with
    | false =>
      rw [setPresent_of_bit known pointer, inHand.presenceBit_setPresenceBit,
        if_neg fun both => elsewhere both.1]
    | true => rw [setPresent_of_pointer known pointer]

theorem setPresent_known (table : Table) (value : Value) (name : String) (present : Bool) :
    (table.setPresent value name present).2 = true ↔ ∃ field ∈ table.fields, field.name = name := by
  cases known : table.lookup? name with
  | none =>
    rw [setPresent_of_undeclared known]
    have undeclared := (lookup?_eq_none_iff ..).mp known
    refine iff_of_false nofun ?_
    rintro ⟨field, among, named⟩
    exact undeclared field among named
  | some place =>
    obtain ⟨index, field⟩ := place
    obtain ⟨declared, rfl⟩ := lookup?_spec known
    refine iff_of_true ?_ ⟨field, List.mem_of_getElem? declared, rfl⟩
    cases pointer : field.shape.tellsPresence with
    | false => rw [setPresent_of_bit known pointer]
    | true => rw [setPresent_of_pointer known pointer]

theorem has_setPresent (inHand : table.InHand value) {index : Nat} {field : Field}
    (known : table.lookup? field.name = some (index, field))
    (bit : field.shape.tellsPresence = false) (present : Bool) :
    table.has (table.setPresent value field.name present).1 field.name = present := by
  have below : index < 64 * ((table.fields.length + 63) / 64) := by
    obtain ⟨inside, -⟩ := List.getElem?_eq_some_iff.mp (lookup?_spec known).1
    omega
  rw [setPresent_of_bit known bit, (inHand.setPresenceBit index present).has_bit known bit,
    inHand.presenceBit_setPresenceBit, if_pos ⟨rfl, below⟩]

theorem has_markAllPresent (inHand : table.InHand value) {index : Nat} {field : Field}
    (known : table.lookup? field.name = some (index, field)) :
    table.has (table.markAllPresent value) field.name =
      (!field.shape.tellsPresence || table.has value field.name) := by
  have apart := inHand.bitsApart_markAllPresent
  obtain ⟨declared, -⟩ := lookup?_spec known
  cases pointer : field.shape.tellsPresence with
  | false =>
    have below : index < 64 * ((table.fields.length + 63) / 64) := by
      obtain ⟨inside, -⟩ := List.getElem?_eq_some_iff.mp declared
      omega
    have isBit : table.bitField? index = some field :=
      (bitField?_eq_some_iff ..).mpr ⟨declared, pointer⟩
    rw [apart.inHand.has_bit known pointer, inHand.presenceBit_markAllPresent below, isBit]
    rfl
  | true =>
    rw [Bool.eq_iff_iff, apart.inHand.has_pointer_iff known pointer]
    simp only [apart.stored, Bool.not_true, Bool.false_or, inHand.has_pointer_iff known pointer]

end Table.InHand

/-- Presence is a map with a place for each member.  From its default on, whatever is said of the
members of a record, by name, by number or of all at once, whatever is stored in it and however
often it is reset: a bit holds what was last written to it, if it lies in the words of the record;
members with bits have different ones, inside the words; to say of a name whether its member is
there answers if it is declared, changes that bit and nothing else, or nothing at all if the member
is optional; and to mark all members sets all their bits and changes nothing else. -/
theorem presence_per_member {schema : Schema} {position : Nat} {table : Table}
    (declared : schema.records[position]? = some table)
    (distinct : (table.fields.map Field.name).Nodup) {actions : List RecordAction}
    (typed : ∀ action ∈ actions, action.Typed schema table) :
    let value := RecordAction.run schema position actions
    let words := (table.fields.length + 63) / 64
    (∀ index, value.presenceBit index =
      (index < 64 * words && RecordAction.lastWritten table index actions)) ∧
    (∀ (index index' : Nat) (field field' : Field) (bit : Nat), table.fields[index]? = some field →
      table.fields[index']? = some field' → field.presence index = .bit bit →
        field'.presence index' = .bit bit → index = index' ∧ bit < 64 * words) ∧
    (∀ name present,
      let after := (table.setPresent value name present).1
      ((table.setPresent value name present).2 = true ↔
        ∃ field ∈ table.fields, field.name = name) ∧
      (∀ other, other ≠ name → table.has after other = table.has value other) ∧
      (∀ index, after.stored? index = value.stored? index) ∧ after.extras = value.extras ∧
      ∀ (index : Nat) (field : Field), table.fields[index]? = some field → field.name = name →
        (field.shape.tellsPresence = false → table.has after name = present) ∧
        (field.shape.tellsPresence = true → after = value ∧
          (table.has after name = true ↔ ∃ inner, after.stored? index = some (.present inner)))) ∧
    let marked := table.markAllPresent value
    (∀ (index : Nat) (field : Field), table.fields[index]? = some field →
      (field.shape.tellsPresence = false → table.has marked field.name = true) ∧
      (field.shape.tellsPresence = true →
        table.has marked field.name = table.has value field.name)) ∧
      (∀ index, marked.stored? index = value.stored? index) ∧ marked.extras = value.extras := by
  intro value words
  have inHand : table.InHand value := RecordAction.inHand_run declared typed
  have apart := inHand.bitsApart_markAllPresent
  refine ⟨RecordAction.presenceBit_run declared distinct typed, ?_, ?_, ?_, apart.stored,
    apart.extras⟩
  · intro index index' field field' bit here there isBit isBit'
    obtain ⟨inside, -⟩ := List.getElem?_eq_some_iff.mp here
    rw [Field.presence] at isBit isBit'
    split at isBit
    · cases isBit
    · split at isBit'
      · cases isBit'
      · cases isBit
        cases isBit'
        exact ⟨rfl, by omega⟩
  · intro name present
    have changed := inHand.bitsApart_setPresent name present
    refine ⟨Table.InHand.setPresent_known table value name present,
      fun other differ => inHand.has_setPresent_other name present differ, changed.stored,
      changed.extras, ?_⟩
    rintro index field here rfl
    have known := Table.lookup?_of_distinct distinct here
    refine ⟨fun bit => inHand.has_setPresent known bit present, fun pointer => ?_⟩
    have same : (table.setPresent value field.name present).1 = value := by
      rw [Table.setPresent_of_pointer known pointer]
    refine ⟨same, ?_⟩
    rw [same]
    exact inHand.has_pointer_iff known pointer
  · intro index field here
    have known := Table.lookup?_of_distinct distinct here
    rw [inHand.has_markAllPresent known]
    constructor
    · intro bit
      rw [bit]
      rfl
    · intro pointer
      rw [pointer, Bool.not_true, Bool.false_or]

/-- A record of 66 members, the second of them optional, and further members. -/
def wideSchema : Schema :=
  ⟨[⟨(List.range 66).map fun index =>
    ⟨"m" ++ toString index, if index = 1 then .option .bool else .bool⟩, some .bool⟩],
    by decide +kernel⟩

/-- The last member has its bit in the second word, beside bits of no member. -/
theorem presence_per_member_wide :
    let table := wideSchema.record 0
    let actions : List RecordAction := [.markAllPresent, .setPresent "m65" false,
      .store 1 (.present (.bool true)), .setPresent "m1" false, .setPresenceBit 127 true,
      .setPresenceBit 128 true]
    let value := RecordAction.run wideSchema 0 actions
    (table.fields.map Field.name).Nodup ∧
      value.presenceBit 64 = true ∧ value.presenceBit 65 = false ∧
      value.presenceBit 127 = true ∧ value.presenceBit 128 = false ∧
      table.has (table.setPresent value "m65" true).1 "m65" = true ∧
      (table.has (table.setPresent value "m1" false).1 "m1" = true ↔
        ∃ inner, value.stored? 1 = some (.present inner)) ∧
      table.has (table.markAllPresent value) "m65" = true := by
  intro table actions value
  have distinct : (table.fields.map Field.name).Nodup := by decide +kernel
  have declared : wideSchema.records[0]? = some table := rfl
  have known : table.fields[65]? = some ⟨"m65", .bool⟩ := by decide +kernel
  have optional : table.fields[1]? = some ⟨"m1", .option .bool⟩ := by decide +kernel
  have typed : ∀ action ∈ actions, action.Typed wideSchema table := by
    have stored : (RecordAction.store 1 (.present (.bool true))).Typed wideSchema table := by
      intro field here
      rw [optional] at here
      cases here
      exact .present (.bool true)
    simp only [actions, List.forall_mem_cons]
    exact ⟨trivial, trivial, stored, trivial, trivial, trivial, List.forall_mem_nil _⟩
  obtain ⟨bits, -, named, marks, -⟩ := presence_per_member declared distinct typed
  obtain ⟨-, -, -, -, last⟩ := named "m65" true
  obtain ⟨-, -, stays, -, second⟩ := named "m1" false
  refine ⟨distinct, (bits 64).trans ?_, (bits 65).trans ?_, (bits 127).trans ?_,
    (bits 128).trans ?_, (last 65 _ known rfl).1 rfl, ?_, (marks 65 _ known).1 rfl⟩
  · decide +kernel
  · decide +kernel
  · decide +kernel
  · decide +kernel
  · rw [← stays 1]
    exact ((second 1 _ optional rfl).2 rfl).2

end IncrementalJson
