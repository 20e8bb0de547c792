import IncrementalJson.Proofs.Reading.Layers
import IncrementalJson.Proofs.Reading.Tables
import IncrementalJson.Proofs.Reading.Completeness

/-!
# What the members of an object leave

Members are taken one after the other.  After each the object holds for every
name what the last member of that name gave, and the names that are not declared
in the order in which they first came.  `Tally` says so of the members taken so
far; taking one more keeps it, and so it holds of the whole object.
-/

set_option autoImplicit false

namespace IncrementalJson

/-! ## The last of a name -/

section Last

variable {α β : Type}

/-- What comes last under a name. -/
def last? (pairs : List (String × α)) (name : String) : Option α :=
  Entries.find? pairs.reverse name

@[simp] theorem last?_nil (name : String) : last? ([] : List (String × α)) name = none := rfl

theorem last?_concat (pairs : List (String × α)) (key name : String) (item : α) :
    last? (pairs ++ [(key, item)]) name = if key = name then some item else last? pairs name := by
  rw [last?, List.reverse_append]
  rfl

theorem find?_map (pairs : List (String × α)) (name : String) (f : α → β) :
    Entries.find? (pairs.map fun (key, item) => (key, f item)) name =
      (Entries.find? pairs name).map f := by
  induction pairs with
  | nil => rfl
  | cons pair rest ih =>
    obtain ⟨key, item⟩ := pair
    simp only [List.map_cons, Entries.find?]
    split
    · rfl
    · exact ih

theorem last?_map (pairs : List (String × α)) (name : String) (f : α → β) :
    last? (pairs.map fun (key, item) => (key, f item)) name = (last? pairs name).map f := by
  rw [last?, ← List.map_reverse, find?_map, last?]

theorem last?_isSome_iff (pairs : List (String × α)) (name : String) :
    (last? pairs name).isSome ↔ name ∈ pairs.map Prod.fst := by
  rw [last?, Entries.find?_isSome_iff, Entries.names, List.map_reverse, List.mem_reverse]

theorem mem_of_find? {pairs : List (String × α)} {name : String} {item : α}
    (found : Entries.find? pairs name = some item) : (name, item) ∈ pairs := by
  induction pairs with
  | nil => cases found
  | cons pair rest ih =>
    obtain ⟨key, other⟩ := pair
    rw [Entries.find?] at found
    split at found
    · rename_i same
      cases found
      rw [same]
      exact List.mem_cons_self
    · exact List.mem_cons_of_mem _ (ih found)

theorem mem_of_last? {pairs : List (String × α)} {name : String} {item : α}
    (last : last? pairs name = some item) : (name, item) ∈ pairs :=
  List.mem_reverse.mp (mem_of_find? last)

end Last

theorem eraseDups_concat (names : List String) (name : String) :
    (names ++ [name]).eraseDups =
      if name ∈ names.eraseDups then names.eraseDups else names.eraseDups ++ [name] := by
  rw [List.eraseDups_append]
  by_cases among : name ∈ names
  · rw [if_pos (List.mem_eraseDups.mpr among)]
    simp [List.removeAll, among]
  · rw [if_neg (fun here => among (List.mem_eraseDups.mp here))]
    simp [List.removeAll, among, List.eraseDups_cons]

/-! ## Taking members -/

section Tally

variable {schema : Schema} {table : Table}

/-- What is left of members that were taken in this order. -/
structure Tally (schema : Schema) (table : Table) (named : List (String × Json))
    (read : MembersRead) : Prop where
  complete : read.members.length = table.fields.length
  room : table.fields.length ≤ read.presence.capacity
  stored : ∀ name index field, table.lookup? name = some (index, field) →
    read.members[index]? = match last? named name with
      | some json => json.readAs schema field.shape
      | none => some (schema.initial field.shape)
  bits : ∀ name index field, table.lookup? name = some (index, field) →
    read.presence.get index = (!field.shape.tellsPresence && (last? named name).isSome)
  names : read.extras.names =
    ((named.map Prod.fst).filter fun name => (table.lookup? name).isNone).eraseDups
  extras : ∀ name item, table.lookup? name = none → table.extra = some item →
    read.extras.find? name = (last? named name).bind fun json => json.readAs schema item

namespace Tally

theorem start (schema : Schema) (table : Table) :
    Tally schema table [] (.start schema table) where
  complete := List.length_map ..
  room := PresenceBits.le_capacity_forMembers _
  stored := by
    intro name index field found
    simp [MembersRead.start, (Table.lookup?_spec found).1]
  bits := by
    intro name index field _
    simp [MembersRead.start]
  names := rfl
  extras := by
    intro name item _ _
    rfl

theorem take_field {named : List (String × Json)} {read : MembersRead}
    (tally : Tally schema table named read) {name : String} {index : Nat} {field : Field}
    (found : table.lookup? name = some (index, field)) {json : Json} {value : Value}
    (means : json.readAs schema field.shape = some value) :
    Tally schema table (named ++ [(name, json)]) (read.take value (.field index field)) := by
  have inside : index < table.fields.length :=
    (List.getElem?_eq_some_iff.mp (Table.lookup?_spec found).1).1
  have stays (other : String) (differ : name ≠ other) :
      last? (named ++ [(name, json)]) other = last? named other := by
    rw [last?_concat, if_neg differ]
  have comes : last? (named ++ [(name, json)]) name = some json := by
    rw [last?_concat, if_pos rfl]
  refine ⟨?_, ?_, ?_, ?_, ?_, ?_⟩
  · simp only [MembersRead.take, List.length_set, tally.complete]
  · simp only [MembersRead.take]
    split
    · exact tally.room
    · rw [PresenceBits.capacity_set]
      exact tally.room
  · intro other position field' found'
    simp only [MembersRead.take]
    by_cases same : index = position
    · subst same
      obtain ⟨rfl, rfl⟩ := Table.lookup?_injective found found'
      rw [List.getElem?_set_self (by rw [tally.complete]; exact inside), comes]
      exact means.symm
    · have differ := Table.ne_of_lookup? found found' (by simp [same])
      rw [List.getElem?_set_ne same, stays other differ]
      exact tally.stored other position field' found'
  · intro other position field' found'
    simp only [MembersRead.take]
    by_cases same : index = position
    · subst same
      obtain ⟨rfl, rfl⟩ := Table.lookup?_injective found found'
      rw [comes]
      cases pointer : field.shape.tellsPresence with
      | true => simpa [pointer] using tally.bits name index field found
      | false =>
        have fits : index < read.presence.capacity := Nat.lt_of_lt_of_le inside tally.room
        simp [PresenceBits.get_set, fits]
    · have differ := Table.ne_of_lookup? found found' (by simp [same])
      rw [stays other differ, ← tally.bits other position field' found']
      split
      · rfl
      · rw [PresenceBits.get_set, if_neg fun both => same both.1]
  · simp only [MembersRead.take, tally.names, List.map_append, List.filter_append]
    simp [found]
  · intro other item undeclared admitted
    rw [stays other (Table.ne_of_lookup? found undeclared (Option.some_ne_none _))]
    exact tally.extras other item undeclared admitted

theorem take_extra {named : List (String × Json)} {read : MembersRead}
    (tally : Tally schema table named read) {name : String} {item : Shape}
    (undeclared : table.lookup? name = none) (admitted : table.extra = some item) {json : Json}
    {value : Value} (means : json.readAs schema item = some value) :
    Tally schema table (named ++ [(name, json)]) (read.take value (.extra name item)) := by
  have stays (other : String) (index : Nat) (field : Field)
      (found : table.lookup? other = some (index, field)) :
      last? (named ++ [(name, json)]) other = last? named other := by
    have differ := Table.ne_of_lookup? undeclared found (Option.some_ne_none _).symm
    rw [last?_concat, if_neg differ]
  refine ⟨tally.complete, tally.room, ?_, ?_, ?_, ?_⟩
  · intro other index field found
    rw [stays other index field found]
    exact tally.stored other index field found
  · intro other index field found
    rw [stays other index field found]
    exact tally.bits other index field found
  · simp only [MembersRead.take, Entries.names_insert, tally.names, List.map_append,
      List.filter_append, List.map_cons, List.map_nil]
    rw [← eraseDups_concat]
    simp [undeclared]
  · intro other item' undeclared' admitted'
    rw [admitted] at admitted'
    cases admitted'
    simp only [MembersRead.take, Entries.find?_insert, last?_concat]
    split
    · exact means.symm
    · exact tally.extras other item undeclared' admitted

end Tally

/-- The names of members as they stand in a tree, with what stands under them. -/
def Named (members : List (List StringItem × Json)) (named : List (String × Json)) : Prop :=
  (members.map fun (name, json) => (textOf? name, json)) =
    named.map fun (name, json) => (some name, json)

theorem Named.of_nil {named : List (String × Json)} (isNamed : Named [] named) : named = [] := by
  cases named with
  | nil => rfl
  | cons pair rest => cases isNamed

theorem Named.of_cons {name : List StringItem} {json : Json}
    {members : List (List StringItem × Json)} {named : List (String × Json)}
    (isNamed : Named ((name, json) :: members) named) :
    ∃ text more, named = (text, json) :: more ∧ textOf? name = some text ∧ Named members more := by
  cases named with
  | nil => cases isNamed
  | cons pair more =>
    obtain ⟨text, json'⟩ := pair
    obtain ⟨first, later⟩ := List.cons.inj isNamed
    obtain ⟨isText, rfl⟩ := Prod.mk.inj first
    exact ⟨text, more, rfl, isText, later⟩

theorem exists_named {members : List (List StringItem × Json)} {read read' : MembersRead}
    (reads : Json.readMembers schema table members read = some read') :
    ∃ named, Named members named := by
  induction members generalizing read with
  | nil => exact ⟨[], rfl⟩
  | cons member rest ih =>
    obtain ⟨name, json⟩ := member
    obtain ⟨text, slot, value, isText, -, -, reads⟩ := Json.readMembers_cons reads
    obtain ⟨named, isNamed⟩ := ih reads
    refine ⟨(text, json) :: named, ?_⟩
    simp only [Named, List.map_cons, isText] at isNamed ⊢
    rw [isNamed]

theorem Tally.run {members : List (List StringItem × Json)} {before named : List (String × Json)}
    {read read' : MembersRead} (tally : Tally schema table before read)
    (isNamed : Named members named)
    (reads : Json.readMembers schema table members read = some read') :
    Tally schema table (before ++ named) read' := by
  -- the tally of what was taken before carries the induction over what is left
  induction members generalizing before named read with
  | nil =>
    cases reads
    rwa [isNamed.of_nil, List.append_nil]
  | cons member rest ih =>
    obtain ⟨name, json⟩ := member
    obtain ⟨text, more, rfl, isText, later⟩ := isNamed.of_cons
    obtain ⟨text', slot, value, isText', isSlot, means, reads⟩ := Json.readMembers_cons reads
    rw [isText] at isText'
    cases isText'
    have next : Tally schema table (before ++ [(text, json)]) (read.take value slot) := by
      rcases Table.memberSlot?_cases isSlot with
        ⟨index, field, rfl, found⟩ | ⟨item, rfl, undeclared, admitted⟩
      · exact tally.take_field found means
      · exact tally.take_extra undeclared admitted means
    simpa using ih next later reads

/-- Members can be read exactly if each can be read by itself where it belongs. -/
theorem readMembers_isSome_iff (schema : Schema) (table : Table)
    {members : List (List StringItem × Json)} {named : List (String × Json)}
    (isNamed : Named members named) (read : MembersRead) :
    (Json.readMembers schema table members read).isSome ↔ ∀ pair ∈ named, ∃ slot value,
      table.memberSlot? pair.1 = some slot ∧ pair.2.readAs schema slot.shape = some value := by
  induction members generalizing named read with
  | nil =>
    rw [isNamed.of_nil]
    exact iff_of_true rfl nofun
  | cons member rest ih =>
    obtain ⟨name, json⟩ := member
    obtain ⟨text, more, rfl, isText, later⟩ := isNamed.of_cons
    rw [List.forall_mem_cons]
    constructor
    · intro reads
      obtain ⟨read', reads⟩ := Option.isSome_iff_exists.mp reads
      obtain ⟨text', slot, value, isText', isSlot, means, reads⟩ :=
        Json.readMembers_cons reads
      rw [isText] at isText'
      cases isText'
      exact ⟨⟨slot, value, isSlot, means⟩, (ih later _).mp (by rw [reads]; rfl)⟩
    · rintro ⟨⟨slot, value, isSlot, means⟩, others⟩
      rw [Json.readMembers, isText, Option.bind_some, isSlot]
      simp only [means]
      exact (ih later _).mpr others

end Tally

end IncrementalJson
