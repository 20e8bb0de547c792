import IncrementalJson.Proofs.Reading.Induction
import IncrementalJson.Proofs.Writing.Transcript

/-!
# How deep a value goes

`Value.height` counts the values that lie inside one another when a value is
written.  A scalar and a null count one, a container one more than the highest of
its items or of the members that are there.  Variants, options and boxes count
nothing.  A value that was read is no higher than the tree that it was read from:
what a later member replaced does not count, and variants count nothing.
-/

set_option autoImplicit false

namespace IncrementalJson

open Ascii

namespace Value

mutual

/-- How many values of those that are written lie inside one another, this one included. -/
def height (schema : Schema) (shape : Shape) (value : Value) : Nat :=
  match value, shape.unbox with
  | .list items, .list item => 1 + itemsHeight schema item items
  | .held value, .variant => value.height schema value.heldShape
  | .present value, .option item => value.height schema item
  | .object members presence extras, shape =>
    match schema.table? shape with
    | some table =>
      1 + max (fieldsHeight schema presence table.fields members 0)
        (extrasHeight schema table.extra extras)
    | none => 1
  | _, _ => 1

def itemsHeight (schema : Schema) (item : Shape) : List Value → Nat
  | [] => 0
  | value :: rest => max (value.height schema item) (itemsHeight schema item rest)

def fieldsHeight (schema : Schema) (bits : PresenceBits 64) (fields : List Field) :
    List Value → Nat → Nat
  | [], _ => 0
  | value :: values, index =>
    match fields with
    | [] => 0
    | field :: fields =>
      let rest := fieldsHeight schema bits fields values (index + 1)
      if field.isLive index value bits then max (value.height schema field.shape) rest else rest

def extrasHeight (schema : Schema) (extra : Option Shape) : List (String × Value) → Nat
  | [] => 0
  | (_, value) :: rest =>
    match extra with
    | some item => max (value.height schema item) (extrasHeight schema extra rest)
    | none => 0

end

def membersHeight (schema : Schema) : List (String × Shape × Value) → Nat
  | [] => 0
  | (_, shape, value) :: rest => max (value.height schema shape) (membersHeight schema rest)

end Value

variable {schema : Schema}

/-! ## Members that are there -/

namespace Value

theorem membersHeight_append (front back : List (String × Shape × Value)) :
    membersHeight schema (front ++ back) =
      max (membersHeight schema front) (membersHeight schema back) := by
  induction front with
  | nil => exact (Nat.zero_max _).symm
  | cons member rest ih => rw [List.cons_append, membersHeight, membersHeight, ih, Nat.max_assoc]

theorem fieldsHeight_eq (bits : PresenceBits 64) (fields : List Field) (values : List Value)
    (index : Nat) : fieldsHeight schema bits fields values index =
      membersHeight schema (Table.liveFields bits fields values index) := by
  induction values generalizing fields index with
  | nil =>
    rw [fieldsHeight]
    cases fields <;> rfl
  | cons value values ih =>
    rw [fieldsHeight.eq_def]
    cases fields with
    | nil => rfl
    | cons field fields =>
      simp only [Table.liveFields, ih]
      split <;> rfl

theorem extrasHeight_eq (item : Shape) (extras : Entries Value) :
    extrasHeight schema (some item) extras =
      membersHeight schema (extras.map fun (name, value) => (name, item, value)) := by
  induction extras with
  | nil =>
    rw [extrasHeight]
    rfl
  | cons entry rest ih =>
    rw [extrasHeight.eq_def]
    simp only [ih]
    rfl

theorem height_object {shape : Shape} {table : Table} (members : List Value)
    (presence : PresenceBits 64) (extras : Entries Value)
    (declared : schema.table? shape.unbox = some table) :
    (object members presence extras).height schema shape =
      1 + membersHeight schema (table.liveMembers members presence extras) := by
  rw [height.eq_def]
  simp only [declared]
  rw [Table.liveMembers, membersHeight_append, fieldsHeight_eq]
  cases table.extra with
  | some item => rw [extrasHeight_eq]
  | none => cases extras <;> rw [extrasHeight.eq_def] <;> rfl

theorem height_list {shape item : Shape} (items : List Value) (unboxed : shape.unbox = .list item) :
    (list items).height schema shape = 1 + itemsHeight schema item items := by
  rw [height.eq_def, unboxed]

theorem height_held {shape : Shape} (value : Value) (unboxed : shape.unbox = .variant) :
    (held value).height schema shape = value.height schema value.heldShape := by
  rw [height.eq_def, unboxed]

theorem height_present {shape item : Shape} (value : Value)
    (unboxed : shape.unbox = .option item) :
    (present value).height schema shape = value.height schema item := by
  rw [height.eq_def, unboxed]

theorem height_box (item : Shape) (value : Value) :
    value.height schema (.box item) = value.height schema item := by
  rw [height.eq_def, height.eq_def schema item]
  rfl

theorem itemsHeight_le {item : Shape} {items : List Value} {most : Nat}
    (each : ∀ value ∈ items, value.height schema item ≤ most) :
    itemsHeight schema item items ≤ most := by
  induction items with
  | nil => exact Nat.zero_le most
  | cons value rest ih =>
    obtain ⟨here, others⟩ := List.forall_mem_cons.mp each
    exact Nat.max_le.mpr ⟨here, ih others⟩

theorem membersHeight_le {members : List (String × Shape × Value)} {most : Nat}
    (each : ∀ member ∈ members, member.2.2.height schema member.2.1 ≤ most) :
    membersHeight schema members ≤ most := by
  induction members with
  | nil => exact Nat.zero_le most
  | cons member rest ih =>
    obtain ⟨here, others⟩ := List.forall_mem_cons.mp each
    exact Nat.max_le.mpr ⟨here, ih others⟩

end Value

/-! ## Steps of emitters -/

def stepsHeight (schema : Schema) : List EmitStep → Nat
  | [] => 0
  | .token _ :: rest => stepsHeight schema rest
  | .call _ shape value :: rest => max (value.height schema shape) (stepsHeight schema rest)
  | .fail _ _ :: rest => stepsHeight schema rest

theorem stepsHeight_append (front back : List EmitStep) :
    stepsHeight schema (front ++ back) =
      max (stepsHeight schema front) (stepsHeight schema back) := by
  induction front with
  | nil => exact (Nat.zero_max _).symm
  | cons step rest ih =>
    cases step with
    | token | fail => exact ih
    | call lead shape value =>
      rw [List.cons_append, stepsHeight, stepsHeight, ih, Nat.max_assoc]

theorem stepsHeight_tokens (tokens : List (List UInt8)) :
    stepsHeight schema (tokens.map .token) = 0 := by
  induction tokens with
  | nil => rfl
  | cons token rest ih => exact ih

theorem stepsHeight_items (item : Shape) (items : List Value) :
    stepsHeight schema (Emitter.ofItems item items).steps =
      Value.itemsHeight schema item items := by
  have later : ∀ items : List Value, stepsHeight schema (items.map (.call [comma] item)) =
      Value.itemsHeight schema item items := by
    intro items
    induction items with
    | nil => rfl
    | cons value rest ih => rw [List.map_cons, stepsHeight, ih, Value.itemsHeight]
  cases items with
  | nil => rfl
  | cons first rest =>
    rw [Value.itemsHeight, ← later rest]
    simp only [Emitter.ofItems, Emitter.steps, itemSteps, List.cons_append, stepsHeight,
      stepsHeight_append, Nat.max_zero]

theorem stepsHeight_member (member : String × Shape × Value) :
    stepsHeight schema (memberSteps member) =
      member.2.2.height schema member.2.1 := by
  obtain ⟨name, shape, value⟩ := member
  rw [memberSteps, stepsHeight_append, stepsHeight_tokens]
  simp only [stepsHeight, Nat.max_zero, Nat.zero_max]

theorem stepsHeight_members (members : List (String × Shape × Value)) :
    stepsHeight schema (objectSteps members) =
      Value.membersHeight schema members := by
  have later : ∀ members : List (String × Shape × Value),
      stepsHeight schema (laterMemberSteps members) = Value.membersHeight schema members := by
    intro members
    induction members with
    | nil => rfl
    | cons member rest ih =>
      rw [laterMemberSteps, List.flatMap_cons, List.cons_append, stepsHeight, stepsHeight_append,
        ← laterMemberSteps, ih, stepsHeight_member]
      rfl
  cases members with
  | nil => rfl
  | cons first rest =>
    simp only [objectSteps, MembersWriter.nextSteps, Bool.false_eq_true, if_false, List.nil_append,
      List.cons_append, stepsHeight, stepsHeight_append, later, stepsHeight_member, Nat.max_zero]
    rfl

/-- A value is one higher than what its emitter calls for. -/
theorem height_of_starts {shape : Shape} {value : Value} {emitter : Emitter}
    (starts : Starts schema shape value emitter) :
    value.height schema shape = 1 + stepsHeight schema emitter.steps := by
  induction starts with
  | null unboxed | bool value unboxed | absent unboxed | number unboxed written =>
    rw [Value.height.eq_def, unboxed]
    rfl
  | string text unboxed =>
    rw [Value.height.eq_def, unboxed, Emitter.steps_ofString, stepsHeight_tokens]
  | list items unboxed => rw [Value.height_list items unboxed, stepsHeight_items]
  | @held shape value emitter unboxed _ ih => rw [Value.height_held value unboxed, ih]
  | @present shape item value emitter unboxed _ ih => rw [Value.height_present value unboxed, ih]
  | object members presence extras declared =>
    rw [Value.height_object members presence extras declared, Emitter.steps_ofObject,
      stepsHeight_members]

/-! ## Trees -/

namespace Json

theorem height_le_itemsHeight {item : Shape} {items : List Json} {json : Json}
    (among : json ∈ items) : json.height schema item ≤ itemsHeight schema item items := by
  induction items with
  | nil => cases among
  | cons first rest ih =>
    rw [itemsHeight]
    rcases List.mem_cons.mp among with rfl | among
    · exact Nat.le_max_left _ _
    · exact Nat.le_trans (ih among) (Nat.le_max_right _ _)

theorem height_le_membersHeight {table : Table} {members : List (List StringItem × Json)}
    {name : List StringItem} {json : Json} {slot : MemberSlot} (among : (name, json) ∈ members)
    (found : (textOf? name).bind table.memberSlot? = some slot) :
    json.height schema slot.shape ≤ membersHeight schema table members := by
  induction members with
  | nil => cases among
  | cons first rest ih =>
    obtain ⟨other, tree⟩ := first
    rcases List.mem_cons.mp among with same | among
    · cases same
      simp only [membersHeight, found]
      exact Nat.le_max_left _ _
    · refine Nat.le_trans (ih among) ?_
      rw [membersHeight]
      split
      · exact Nat.le_max_right _ _
      · exact Nat.le_refl _

theorem height_pos (schema : Schema) (shape : Shape) (json : Json) :
    0 < json.height schema shape := by
  have layers : 0 < shape.layers := by
    rw [Shape.layers]
    split <;> decide
  cases json with
  | null =>
    rw [height]
    split
    · exact Nat.one_pos
    · exact layers
  | bool | number | string => exact layers
  | array | object =>
    rw [height]
    split <;> omega

end Json

theorem Value.height_layers (shape : Shape) (value : Value) :
    (shape.wrap value).height schema shape = value.height schema shape.core := by
  induction shape with
  | option item ih =>
    rw [Shape.wrap, height_present _ rfl]
    exact ih
  | box item ih =>
    rw [Shape.wrap, height_box]
    exact ih
  | _ => rfl

theorem Json.heightSteps (schema : Schema) :
    ReadSteps schema fun json shape value => value.height schema shape ≤ json.height schema shape where
  absent shape option := by
    obtain ⟨item, unboxed⟩ := Shape.unbox_of_hasOption option
    rw [Value.height.eq_def, unboxed]
    exact Json.height_pos schema shape null
  layers json shape value kept meant low := by
    have same : (wrap shape value).height schema shape =
        value.height schema (json.innerShape shape) := by
      rw [wrap, Value.height_layers, innerShape]
      split
      · rename_i variant
        rw [variant, Value.height_held value rfl, meant.heldShape]
      · rfl
    rw [same, Json.height_inner schema kept]
    exact Nat.le_add_right_of_le low
  leaf json shape value leaf meant := by
    have low : value.height schema shape = 1 := by
      cases meant with
      | null | bool | number | string => rfl
      | array | object => cases leaf
    rw [low]
    exact json.height_pos schema shape
  array items item values each := by
    rw [Value.height_list values rfl]
    apply Nat.add_le_add_left
    apply Value.itemsHeight_le
    intro value among
    obtain ⟨json, inside, low⟩ := each value among
    exact Nat.le_trans low (height_le_itemsHeight inside)
  object members shape table read declared held := by
    have unboxed := Schema.unbox_of_table? declared
    rw [Value.height_object _ _ _ (unboxed.symm ▸ declared)]
    have own : (object members).innerShape shape = shape := by
      cases shape <;> first | rfl | cases declared
    have isObject : schema.table? ((object members).innerShape shape) = some table := by
      rw [own, declared]
    have whole := Json.height_object isObject
    rw [own] at whole
    rw [whole]
    apply Nat.add_le_add_left
    apply Value.membersHeight_le
    intro member among
    obtain ⟨name, json, slot, inside, found, same, low⟩ := held.liveMember among
    rw [← same] at low ⊢
    exact Nat.le_trans low (height_le_membersHeight inside found)

end IncrementalJson
