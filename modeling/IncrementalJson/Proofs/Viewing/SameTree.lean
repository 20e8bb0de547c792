import IncrementalJson.Proofs.RoundTrip.Mirror
import IncrementalJson.Proofs.Viewing.Lookup

/-!
# What is shown is what is written

A view and another one show the same tree if they answer alike, list the same
names in the same order, and what they list under each name shows the same tree
again.  So it is with a value and the variant that its text is read to.
-/

set_option autoImplicit false

namespace IncrementalJson

variable {schema : Schema}

def Table.namesThere (table : Table) (members : List Value) (bits : PresenceBits 64) :
    List String :=
  (table.fields.zip members).zipIdx.filterMap fun ((field, value), index) =>
    if field.isLive index value bits then some field.name else none

theorem Table.names_liveMembers (table : Table) (members : List Value) (bits : PresenceBits 64)
    (extras : Entries Value) :
    (table.liveMembers members bits extras).map Prod.fst =
      table.namesThere members bits ++ if table.extra.isSome then extras.names else [] := by
  have declared : ∀ (fields : List Field) (values : List Value) (index : Nat),
      (liveFields bits fields values index).map Prod.fst =
        ((fields.zip values).zipIdx index).filterMap fun ((field, value), index) =>
          if field.isLive index value bits then some field.name else none := by
    intro fields
    induction fields with
    | nil =>
      intro values index
      rfl
    | cons field fields ih =>
      intro values index
      cases values with
      | nil => rfl
      | cons value values =>
        rw [liveFields, List.zip_cons_cons, List.zipIdx_cons, List.filterMap_cons, ← ih]
        cases live : field.isLive index value bits <;> simp [live]
  rw [liveMembers, List.map_append, declared, namesThere]
  cases table.extra with
  | none => rfl
  | some item =>
    rw [List.map_map]
    rfl

namespace View

def namesInOrder (view : View) : List String :=
  match view.resolve.value with
  | .list items => (List.range items.length).map toString
  | .object members presence extras =>
    match view.schema.table? view.resolve.shape with
    | some table =>
      table.namesThere members presence ++
        if table.extra.isSome then Entries.names extras else []
    | none => []
  | _ => []

/-- Two views answer alike: integers that fit 64 bits with a sign are the same in either form. -/
structure LooksLike (view other : View) : Prop where
  size : view.size = other.size
  names : view.members.map Prod.fst = other.members.map Prod.fst
  ordered : view.members.map Prod.fst = view.namesInOrder
  string : view.string? = other.string?
  bool : view.bool? = other.bool?
  number : view.number?.map Number.settled = other.number?.map Number.settled

/-- Two views answer alike, and so do all that they lead to by the same way. -/
inductive SameTree : View → View → Prop where
  | node {view other : View} (alike : view.LooksLike other)
      (parts : ∀ (index : Nat) (part part' : String × View), view.members[index]? = some part →
        other.members[index]? = some part' → SameTree part.2 part'.2) :
      SameTree view other

theorem resolve_box (item : Shape) (value : Value) :
    (ofValue schema (.box item) value).resolve = (ofValue schema item value).resolve := by
  have same : value.concrete (.box item) = value.concrete item := by
    rw [Value.concrete.eq_def, Value.concrete.eq_def item]
    rfl
  rw [resolve_ofValue, resolve_ofValue, same]

theorem resolve_held (value : Value) :
    (ofValue schema .variant (.held value)).resolve =
      (ofValue schema value.heldShape value).resolve := by
  rw [resolve_ofValue, resolve_ofValue, Value.concrete.eq_def]
  rfl

theorem resolve_present (item : Shape) (value : Value) :
    (ofValue schema (.option item) (.present value)).resolve =
      (ofValue schema item value).resolve := by
  rw [resolve_ofValue, resolve_ofValue, Value.concrete.eq_def]
  rfl

theorem resolve_leaf {value : Value} (leaf : value.isLeaf) (shape : Shape) :
    (ofValue schema shape value).resolve = ofValue schema shape.unbox value := by
  rw [resolve_ofValue, Value.concrete.eq_def]
  cases value with
  | list | object | held | present => cases leaf
  | _ => rfl

variable {view other : View}

theorem scalars_none {shape : Shape} {value : Value} (parts : value.isLeaf = false)
    (seen : view.resolve = ofValue view.schema shape value) :
    view.string? = none ∧ view.bool? = none ∧ view.number? = none := by
  simp only [string?, bool?, number?, seen, if_pos (matched_ofValue _ _ _)]
  cases value with
  | list | object | held | present => cases shape <;> exact ⟨rfl, rfl, rfl⟩
  | _ => cases parts

namespace SameTree

theorem leaf {shape shape' : Shape} {value value' : Value} (leaf : value.isLeaf)
    (seen : view.resolve = ofValue view.schema shape value) (leaf' : value'.isLeaf)
    (seen' : other.resolve = ofValue other.schema shape' value')
    (string : view.string? = other.string?) (bool : view.bool? = other.bool?)
    (number : view.number?.map Number.settled = other.number?.map Number.settled) :
    view.SameTree other := by
  obtain ⟨nothing, size, -⟩ := shows_leaf leaf seen
  obtain ⟨nothing', size', -⟩ := shows_leaf leaf' seen'
  have unnamed : view.namesInOrder = [] := by
    rw [namesInOrder, seen]
    cases value with
    | list | object | held | present => cases leaf
    | _ => rfl
  refine .node ⟨by rw [size, size'], by rw [nothing, nothing'], ?_, string, bool, number⟩ ?_
  · rw [nothing, unnamed]
    rfl
  · intro index part part' here
    rw [nothing] at here
    cases here

theorem of_parts {α : Type} {shape shape' : Shape} {value value' : Value} {parts : List α}
    {first second : α → String × View} (inner : value.isLeaf = false)
    (seen : view.resolve = ofValue view.schema shape value) (inner' : value'.isLeaf = false)
    (seen' : other.resolve = ofValue other.schema shape' value')
    (shown : view.members = parts.map first) (shown' : other.members = parts.map second)
    (size : view.size = other.size) (ordered : view.members.map Prod.fst = view.namesInOrder)
    (named : ∀ part ∈ parts, (first part).1 = (second part).1)
    (same : ∀ part ∈ parts, (first part).2.SameTree (second part).2) : view.SameTree other := by
  obtain ⟨string, bool, number⟩ := scalars_none inner seen
  obtain ⟨string', bool', number'⟩ := scalars_none inner' seen'
  have names : view.members.map Prod.fst = other.members.map Prod.fst := by
    rw [shown, shown', List.map_map, List.map_map]
    exact List.map_congr_left named
  refine .node ⟨size, names, ordered, by rw [string, string'], by rw [bool, bool'],
    by rw [number, number']⟩ ?_
  intro index part part' here here'
  rw [shown, List.getElem?_map] at here
  rw [shown', List.getElem?_map] at here'
  obtain ⟨source, isSource, rfl⟩ := Option.map_eq_some_iff.mp here
  rw [isSource] at here'
  cases here'
  exact same source (List.mem_of_getElem? isSource)

theorem list {item item' : Shape} {items : List Value} {copy : Value → Value}
    (seen : view.resolve = ofValue view.schema (.list item) (.list items))
    (seen' : other.resolve = ofValue other.schema (.list item') (.list (items.map copy)))
    (each : ∀ value ∈ items,
      (ofValue view.schema item value).SameTree (ofValue other.schema item' (copy value))) :
    view.SameTree other := by
  have copies : other.members = items.zipIdx.map fun part =>
      (toString part.2, ofValue other.schema item' (copy part.1)) := by
    rw [members_list seen', List.zipIdx_map, List.map_map]
    rfl
  refine of_parts rfl seen rfl seen' (members_list seen) copies ?_ ?_ (fun _ _ => rfl) ?_
  · rw [size_list seen, size_list seen', List.length_map]
  · rw [names_list seen, namesInOrder, seen]
    rfl
  · intro part among
    exact each part.1 (List.mem_of_getElem? (List.mk_mem_zipIdx_iff_getElem?.mp among))

theorem object {shape item : Shape} {table : Table} {members : List Value}
    {presence : PresenceBits 64} {extras : Entries Value} {copy : Shape → Value → Value}
    (seen : view.resolve = ofValue view.schema shape (.object members presence extras))
    (declared : view.schema.table? shape = some table)
    (seen' : other.resolve = ofValue other.schema (.extras item) (.object [] (.forMembers 0)
      ((table.liveMembers members presence extras).map fun (name, shape, value) =>
        (name, copy shape value))))
    (each : ∀ member ∈ table.liveMembers members presence extras,
      (ofValue view.schema member.2.1 member.2.2).SameTree
        (ofValue other.schema item (copy member.2.1 member.2.2))) :
    view.SameTree other := by
  have copies : other.members =
      (table.liveMembers members presence extras).map fun (name, shape, value) =>
        (name, ofValue other.schema item (copy shape value)) := by
    rw [members_object seen' rfl, liveMembers_ofExtra, List.map_map, List.map_map]
    rfl
  refine of_parts rfl seen rfl seen' (members_object seen declared) copies ?_ ?_ (fun _ _ => rfl) ?_
  · rw [size_object seen declared, size_object seen' rfl, ← Table.length_liveMembers,
      ← Table.length_liveMembers, liveMembers_ofExtra, List.length_map, List.length_map]
  · have names : view.namesInOrder =
        (table.liveMembers members presence extras).map Prod.fst := by
      rw [Table.names_liveMembers, namesInOrder, seen]
      simp only [ofValue, declared]
    rw [members_object seen declared, names, List.map_map]
    rfl
  · intro member among
    exact each member among

end SameTree

end View

theorem HasShape.sameTree {shape : Shape} {value : Value} (typed : HasShape schema shape value)
    {view : View} (sameSchema : view.schema = schema)
    (seen : view.resolve = (View.ofValue schema shape value).resolve) :
    view.SameTree (.ofValue schema .variant (value.mirror schema shape)) := by
  -- the view is kept general for the layers, which are gone once it is resolved
  induction typed generalizing view with
  | null | bool | string | unset | absent =>
    subst sameSchema
    rw [View.resolve_leaf rfl] at seen
    apply View.SameTree.leaf rfl seen rfl rfl
    · rw [View.string?, seen]
      rfl
    · rw [View.bool?, seen]
      rfl
    · rw [View.number?, seen, if_pos (View.matched_ofValue _ _ _)]
      rfl
  | @number type number =>
    subst sameSchema
    rw [View.resolve_leaf rfl] at seen
    apply View.SameTree.leaf rfl seen rfl rfl
    · rw [View.string?, seen]
      rfl
    · rw [View.bool?, seen]
      rfl
    · have shown : view.number? = some number.toNumber := by
        rw [View.number?, seen, if_pos (View.matched_ofValue _ _ _)]
        rfl
      rw [shown]
      exact congrArg some (Number.settled_settled _).symm
  | list _ ih =>
    subst sameSchema
    rw [mirror_list]
    refine .list (seen.trans (View.resolve_ofValue _ _ _)) (View.resolve_ofValue _ _ _) ?_
    intro value among
    exact ih value among rfl rfl
  | held _ ih => exact ih sameSchema (seen.trans (View.resolve_held _))
  | present _ ih => exact ih sameSchema (seen.trans (View.resolve_present _ _))
  | box _ ih =>
    rw [mirror_box]
    exact ih sameSchema (seen.trans (View.resolve_box _ _))
  | @object shape table members presence extras declared _ _ _ ih =>
    subst sameSchema
    have here : view.resolve = .ofValue view.schema shape (.object members presence extras) := by
      rw [seen, View.resolve_ofValue, Value.concrete.eq_def]
      simp only [Schema.unbox_of_table? declared]
    rw [mirror_object declared]
    refine .object here declared (View.resolve_ofValue _ _ _) ?_
    intro member among
    exact ih member among rfl rfl

/-- The text of a value is read by a variant, and the two show the same tree: provided that no extra
member has the name of a declared one, no number is written in single precision, and the text of a
float reads back. -/
theorem parse_variant_sameTree (distinct : schema.NamesDistinct) {shape : Shape} {value : Value}
    {text : String} (typed : HasShape schema shape value)
    (noClash : ∀ position members presence extras,
      Live schema shape value (.record position) (.object members presence extras) →
        ∀ field ∈ (schema.record position).fields, field.name ∉ Entries.names extras)
    (wide : ∀ number, ¬ Live schema shape value (.number .single) (.number number))
    (floats : ∀ type number, Live schema shape value (.number type) (.number number) →
      number.ReadsBack)
    (written : writeValue schema shape value = .ok text) :
    ∃ copy, parse schema .variant (Utf8.encodeString text) = .ok copy ∧
      (View.ofValue schema shape value).SameTree (.ofValue schema .variant copy) := by
  refine ⟨value.mirror schema shape, ?_, typed.sameTree rfl rfl⟩
  apply typed.parse_mirror distinct ⟨noClash, floats, wide⟩
  exact (writeValue_eq_ok_iff _ _ _).mp written

/-- The record shows four members of its own, and so does the variant that its text is read to. -/
theorem parse_variant_sameTree_sensor :
    let text := "\x7b\"id\":7,\"label\":\"a\\n\",\"value\":1.5,\"x\":null\x7d"
    let view := View.ofValue sensorSchema (.record 0) sensorReading
    writeValue sensorSchema (.record 0) sensorReading = .ok text ∧
      view.namesInOrder = ["id", "label", "value", "x"] ∧
      ∃ copy, parse sensorSchema .variant (Utf8.encodeString text) = .ok copy ∧
        view.SameTree (.ofValue sensorSchema .variant copy) := by
  have wide : ∀ number,
      ¬ Live sensorSchema (.record 0) sensorReading (.number .single) (.number number) := by
    intro number live
    rcases live_sensorReading live with here | here | here | here | here | here | here <;>
      cases here
  have same := parse_variant_sameTree sensorSchema_distinct sensorReading_typed
    sensorReading_noClash wide sensorReading_floats write_sensorReading
  exact ⟨write_sensorReading, rfl, same⟩

/-- Of members with one name the record shows both and the variant the last. -/
theorem parse_variant_sameTree_twins :
    let text := "\x7b\"x\":1,\"x\":2\x7d"
    let view := View.ofValue twinSchema (.record 0) twins
    HasShape twinSchema (.record 0) twins ∧ Faithful twinSchema (.record 0) twins ∧
      (∀ number, ¬ Live twinSchema (.record 0) twins (.number .single) (.number number)) ∧
      writeValue twinSchema (.record 0) twins = .ok text ∧
      view.namesInOrder = ["x", "x"] ∧ view.size = 2 ∧
      ∃ copy, parse twinSchema .variant (Utf8.encodeString text) = .ok copy ∧
        (View.ofValue twinSchema .variant copy).size = 1 ∧
          ¬ view.SameTree (.ofValue twinSchema .variant copy) := by
  have wide : ∀ number,
      ¬ Live twinSchema (.record 0) twins (.number .single) (.number number) := by
    intro number live
    rcases live_twins live with here | ⟨value, here⟩ <;> cases here
  refine ⟨twins_typed, twins_faithful, wide, write_twins, rfl, rfl, _, rfl, rfl, ?_⟩
  rintro ⟨alike⟩
  cases alike.size

end IncrementalJson
