import IncrementalJson.Proofs.RoundTrip.Reparsing
import IncrementalJson.Record

/-!
# Listing, finding and counting members

Members are listed by one function, found by their names by another and counted
by a third.  They agree if every member that is there is found under its name.
A member with the name of one declared before is not: it is listed, but in the
shadow of that one.  So is an extra with the name of a declared member.
-/

set_option autoImplicit false

namespace IncrementalJson

namespace Table

variable {table : Table} {members : List Value} {bits : PresenceBits 64} {extras : Entries Value}

/-- A declared name leads to the member that bears it, and every extra has a name of its own. -/
structure Findable (table : Table) (members : List Value) (bits : PresenceBits 64)
    (extras : Entries Value) : Prop where
  declared : ∀ (index : Nat) (field : Field) (value : Value), table.fields[index]? = some field →
    members[index]? = some value → field.isLive index value bits →
      table.lookup? field.name = some (index, field)
  distinct : extras.names.Nodup
  undeclared : ∀ name ∈ extras.names, table.lookup? name = none

theorem findable_of_distinct {schema : Schema} {shape : Shape} (distinct : schema.NamesDistinct)
    (declared : schema.table? shape = some table) (own : extras.names.Nodup)
    (undeclared : ∀ name ∈ extras.names, table.lookup? name = none) :
    table.Findable members bits extras where
  declared _ _ _ here _ _ := lookup?_of_distinct (distinct.table declared) here
  distinct := own
  undeclared := undeclared

theorem nodup_liveFields {fields : List Field} {values : List Value} {index : Nat}
    (found : ∀ (offset : Nat) (field : Field) (value : Value), fields[offset]? = some field →
      values[offset]? = some value → field.isLive (index + offset) value bits →
        table.lookup? field.name = some (index + offset, field)) :
    ((liveFields bits fields values index).map Prod.fst).Nodup := by
  induction fields generalizing values index with
  | nil => exact List.nodup_nil
  | cons first fields ih =>
    cases values with
    | nil => exact List.nodup_nil
    | cons stored values =>
      have later : ((liveFields bits fields values (index + 1)).map Prod.fst).Nodup := by
        apply ih
        intro offset field value here there live
        have shifted : index + 1 + offset = index + (offset + 1) := by omega
        rw [shifted] at live ⊢
        exact found (offset + 1) field value here there live
      rw [liveFields]
      split
      · rename_i live
        refine List.nodup_cons.mpr ⟨?_, later⟩
        intro among
        obtain ⟨member, inside, same⟩ := List.mem_map.mp among
        obtain ⟨offset, field, value, here, there, live', rfl⟩ := mem_liveFields.mp inside
        have firstFound := found 0 first stored rfl rfl live
        have shifted : index + 1 + offset = index + (offset + 1) := by omega
        rw [shifted] at live'
        have otherFound := found (offset + 1) field value here there live'
        have sameName : field.name = first.name := same
        rw [sameName, firstFound] at otherFound
        cases otherFound
      · exact later

theorem find?_eq_some_iff (distinct : extras.names.Nodup) (name : String) (value : Value) :
    extras.find? name = some value ↔ (name, value) ∈ extras := by
  induction extras with
  | nil => exact iff_of_false nofun nofun
  | cons entry rest ih =>
    obtain ⟨key, stored⟩ := entry
    obtain ⟨new, distinct⟩ := List.nodup_cons.mp distinct
    rw [Entries.find?, List.mem_cons, Prod.mk.injEq]
    by_cases same : key = name
    · subst same
      have absent : (key, value) ∉ rest := fun among => new (List.mem_map.mpr ⟨_, among, rfl⟩)
      simp [absent, eq_comm]
    · rw [if_neg same, ih distinct]
      simp [Ne.symm same]

/-! ## Members that their names lead to -/

/-- The members that are there and that their names lead to.  A name leads to the first declared
member that bears it, whether that is there or not, and to an extra if it is not declared. -/
def openMembers (table : Table) (members : List Value) (bits : PresenceBits 64)
    (extras : Entries Value) : List (String × Shape × Value) :=
  ((table.fields.zip members).zipIdx.filterMap fun ((field, value), index) =>
    if field.isLive index value bits ∧ table.lookup? field.name = some (index, field) then
      some (field.name, field.shape, value)
    else none) ++
    match table.extra with
    | some shape =>
      (extras.filter fun entry => (table.lookup? entry.1).isNone).map fun (name, value) =>
        (name, shape, value)
    | none => []

theorem mem_openMembers {member : String × Shape × Value} :
    member ∈ table.openMembers members bits extras ↔
      (∃ (index : Nat) (field : Field) (value : Value),
        table.lookup? field.name = some (index, field) ∧ members[index]? = some value ∧
          field.isLive index value bits ∧ member = (field.name, field.shape, value)) ∨
      ∃ (item : Shape) (entry : String × Value), table.extra = some item ∧ entry ∈ extras ∧
        table.lookup? entry.1 = none ∧ member = (entry.1, item, entry.2) := by
  rw [openMembers, List.mem_append, List.mem_filterMap]
  apply or_congr
  · constructor
    · rintro ⟨⟨⟨field, value⟩, index⟩, among, same⟩
      obtain ⟨-, there⟩ := List.getElem?_zip_eq_some.mp (List.mk_mem_zipIdx_iff_getElem?.mp among)
      obtain ⟨⟨live, known⟩, same⟩ := Option.ite_none_right_eq_some.mp same
      cases same
      exact ⟨index, field, value, known, there, live, rfl⟩
    · rintro ⟨index, field, value, known, there, live, rfl⟩
      have among : (table.fields.zip members)[index]? = some (field, value) :=
        List.getElem?_zip_eq_some.mpr ⟨(lookup?_spec known).1, there⟩
      exact ⟨((field, value), index), List.mk_mem_zipIdx_iff_getElem?.mpr among,
        if_pos ⟨live, known⟩⟩
  · cases table.extra with
    | none => simp
    | some item =>
      simp only [List.mem_map, List.mem_filter, Option.isNone_iff_eq_none]
      constructor
      · rintro ⟨entry, ⟨inside, new⟩, same⟩
        exact ⟨item, entry, rfl, inside, new, same.symm⟩
      · rintro ⟨_, entry, admitted, inside, new, same⟩
        cases admitted
        exact ⟨entry, ⟨inside, new⟩, same.symm⟩

/-- A member is found under its name exactly if the name leads to it. -/
theorem mem_openMembers_iff_member? (own : extras.names.Nodup) (name : String) (shape : Shape)
    (value : Value) :
    (name, shape, value) ∈ table.openMembers members bits extras ↔
      table.member? members bits extras name = some (shape, value) := by
  rw [mem_openMembers, member?]
  constructor
  · rintro (⟨index, field, stored, known, there, live, same⟩ |
      ⟨item, ⟨key, stored⟩, admitted, inside, new, same⟩)
    · cases same
      simp only [known, there, live, if_true]
    · cases same
      simp only [new, admitted, (find?_eq_some_iff own key stored).mpr inside, Option.map_some]
  · intro found
    split at found
    · rename_i index field known
      obtain ⟨-, rfl⟩ := lookup?_spec known
      split at found
      · rename_i stored there
        split at found
        · rename_i live
          cases found
          exact .inl ⟨index, field, value, known, there, live, rfl⟩
        · cases found
      · cases found
    · rename_i new
      split at found
      · rename_i item admitted
        obtain ⟨stored, isStored, same⟩ := Option.map_eq_some_iff.mp found
        cases same
        have inside := (find?_eq_some_iff own name value).mp isStored
        exact .inr ⟨shape, (name, value), admitted, inside, new, rfl⟩
      · cases found

theorem mem_liveMembers_of_open {member : String × Shape × Value}
    (among : member ∈ table.openMembers members bits extras) :
    member ∈ table.liveMembers members bits extras := by
  rw [mem_liveMembers]
  rcases mem_openMembers.mp among with ⟨index, field, value, known, there, live, same⟩ |
    ⟨item, entry, admitted, inside, -, same⟩
  · exact .inl ⟨index, field, value, (lookup?_spec known).1, there, live, same⟩
  · exact .inr ⟨item, entry, admitted, inside, same⟩

theorem mem_open_of_liveMembers (findable : table.Findable members bits extras)
    {member : String × Shape × Value}
    (among : member ∈ table.liveMembers members bits extras) :
    member ∈ table.openMembers members bits extras := by
  rw [mem_openMembers]
  rcases mem_liveMembers.mp among with ⟨index, field, value, here, there, live, same⟩ |
    ⟨item, entry, admitted, inside, same⟩
  · exact .inl ⟨index, field, value, findable.declared index field value here there live, there,
      live, same⟩
  · have new := findable.undeclared entry.1 (List.mem_map.mpr ⟨entry, inside, rfl⟩)
    exact .inr ⟨item, entry, admitted, inside, new, same⟩

/-! ## Listing and counting -/

theorem nodup_liveMembers (findable : table.Findable members bits extras) :
    ((table.liveMembers members bits extras).map Prod.fst).Nodup := by
  have declared : ((liveFields bits table.fields members 0).map Prod.fst).Nodup := by
    apply nodup_liveFields
    intro offset field value here there live
    rw [Nat.zero_add] at live ⊢
    exact findable.declared offset field value here there live
  rw [liveMembers, List.map_append, List.nodup_append]
  refine ⟨declared, ?_, ?_⟩
  · split
    · rw [List.map_map]
      exact findable.distinct
    · exact List.nodup_nil
  · intro name front other back same
    subst same
    obtain ⟨member, inside, rfl⟩ := List.mem_map.mp front
    obtain ⟨index, field, value, here, there, live, rfl⟩ := mem_liveFields.mp inside
    rw [Nat.zero_add] at live
    have known := findable.declared index field value here there live
    split at back
    · rw [List.map_map] at back
      have new := findable.undeclared _ back
      rw [new] at known
      cases known
    · cases back

theorem length_liveMembers (table : Table) (members : List Value) (bits : PresenceBits 64)
    (extras : Entries Value) :
    (table.liveMembers members bits extras).length = table.memberCount members bits extras := by
  have fields : ∀ (fields : List Field) (values : List Value) (index : Nat),
      (liveFields bits fields values index).length = countFields bits fields values index := by
    intro fields
    induction fields with
    | nil =>
      intro values index
      rfl
    | cons field fields ih =>
      intro values index
      cases values with
      | nil => rfl
      | cons value values =>
        rw [liveFields, countFields, ← ih]
        split <;> rfl
  rw [liveMembers, memberCount, List.length_append, fields]
  cases table.extra with
  | none => rfl
  | some item => simp

theorem has_iff (table : Table) (members : List Value) (bits : PresenceBits 64)
    (extras : Entries Value) (name : String) :
    table.has (.object members bits extras) name =
      (table.member? members bits extras name).isSome := by
  cases known : table.lookup? name with
  | some place =>
    simp only [has, member?, known]
    cases members[place.1]? with
    | none => rfl
    | some value => cases live : place.2.isLive place.1 value bits <;> simp [live]
  | none =>
    simp only [has, member?, known]
    cases table.extra with
    | none => rfl
    | some item =>
      have found := Entries.find?_isSome_iff extras name
      rw [Bool.eq_iff_iff]
      simp [found]

end Table

end IncrementalJson
