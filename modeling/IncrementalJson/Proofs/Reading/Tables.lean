import IncrementalJson.Proofs.Grammar.Meaning
import IncrementalJson.Value.Members

/-!
# Declared members

Where a name leads in a table, and when a declared member is there.
-/

set_option autoImplicit false

namespace IncrementalJson

namespace Table

/-- A name leads to the first declared member that has it. -/
theorem lookup?_eq_some_iff (table : Table) (name : String) (index : Nat) (field : Field) :
    table.lookup? name = some (index, field) ↔
      table.fields[index]? = some field ∧ field.name = name ∧
        ∀ earlier < index, ∀ other, table.fields[earlier]? = some other → other.name ≠ name := by
  rw [lookup?, Option.bind_eq_some_iff]
  constructor
  · rintro ⟨position, here, found⟩
    obtain ⟨declared, there, same⟩ := Option.map_eq_some_iff.mp found
    cases same
    rw [find?, List.findIdx?_eq_some_iff_getElem] at here
    obtain ⟨inside, matches', first⟩ := here
    obtain ⟨_, same⟩ := List.getElem?_eq_some_iff.mp there
    refine ⟨there, ?_, ?_⟩
    · rw [same] at matches'
      simpa using matches'
    · intro earlier less other stands
      obtain ⟨_, same⟩ := List.getElem?_eq_some_iff.mp stands
      have differs := first earlier less
      rw [same] at differs
      simpa using differs
  · rintro ⟨there, named, first⟩
    refine ⟨index, ?_, by rw [there]; rfl⟩
    obtain ⟨inside, same⟩ := List.getElem?_eq_some_iff.mp there
    rw [find?, List.findIdx?_eq_some_iff_getElem]
    refine ⟨inside, by simp [same, named], ?_⟩
    intro earlier less
    have differs := first earlier less _ (List.getElem?_eq_getElem (Nat.lt_trans less inside))
    simpa using differs

theorem lookup?_spec {table : Table} {name : String} {index : Nat} {field : Field}
    (found : table.lookup? name = some (index, field)) :
    table.fields[index]? = some field ∧ field.name = name := by
  obtain ⟨there, named, -⟩ := (lookup?_eq_some_iff table name index field).mp found
  exact ⟨there, named⟩

theorem lookup?_injective {table : Table} {name name' : String} {index : Nat}
    {field field' : Field} (found : table.lookup? name = some (index, field))
    (found' : table.lookup? name' = some (index, field')) : name = name' ∧ field = field' := by
  obtain ⟨declared, rfl⟩ := lookup?_spec found
  obtain ⟨declared', rfl⟩ := lookup?_spec found'
  rw [declared] at declared'
  cases declared'
  exact ⟨rfl, rfl⟩

theorem ne_of_lookup? {table : Table} {name name' : String} {place place' : Option (Nat × Field)}
    (found : table.lookup? name = place) (found' : table.lookup? name' = place')
    (differ : place ≠ place') : name ≠ name' := by
  intro same
  apply differ
  rw [← found, ← found', same]

theorem memberSlot?_cases {table : Table} {name : String} {slot : MemberSlot}
    (found : table.memberSlot? name = some slot) :
    (∃ index field, slot = .field index field ∧ table.lookup? name = some (index, field)) ∨
      ∃ item, slot = .extra name item ∧ table.lookup? name = none ∧ table.extra = some item := by
  rw [memberSlot?] at found
  cases known : table.lookup? name with
  | some place =>
    rw [known] at found
    cases found
    exact .inl ⟨_, _, rfl, rfl⟩
  | none =>
    rw [known] at found
    obtain ⟨item, admitted, rfl⟩ := Option.map_eq_some_iff.mp found
    exact .inr ⟨item, rfl, rfl, admitted⟩

theorem lookup?_of_distinct {table : Table}
    (distinct : (table.fields.map Field.name).Nodup) {index : Nat} {field : Field}
    (declared : table.fields[index]? = some field) :
    table.lookup? field.name = some (index, field) := by
  rw [lookup?_eq_some_iff]
  refine ⟨declared, rfl, ?_⟩
  intro earlier less other stands
  obtain ⟨inside, here⟩ := List.getElem?_eq_some_iff.mp declared
  obtain ⟨inside', there⟩ := List.getElem?_eq_some_iff.mp stands
  have differ := List.pairwise_iff_getElem.mp distinct earlier index (by simpa using inside')
    (by simpa using inside) less
  simpa [here, there] using differ

theorem lookup?_eq_none_iff (table : Table) (name : String) :
    table.lookup? name = none ↔ ∀ field ∈ table.fields, field.name ≠ name := by
  rw [lookup?, Option.bind_eq_none_iff]
  constructor
  · intro nowhere field among same
    cases found : table.find? name with
    | none =>
      rw [find?, List.findIdx?_eq_none_iff] at found
      simpa [same] using found field among
    | some index =>
      have missing := nowhere index found
      rw [find?, List.findIdx?_eq_some_iff_getElem] at found
      obtain ⟨inside, -⟩ := found
      simp [List.getElem?_eq_getElem inside] at missing
  · intro undeclared index found
    rw [find?, List.findIdx?_eq_some_iff_getElem] at found
    obtain ⟨inside, matches', -⟩ := found
    exact absurd (by simpa using matches') (undeclared _ (List.getElem_mem inside))

theorem lookup?_eq_none {table : Table} {name : String}
    (undeclared : ∀ field ∈ table.fields, field.name ≠ name) : table.lookup? name = none :=
  (lookup?_eq_none_iff table name).mpr undeclared

end Table

theorem Shape.initial_of_tellsPresence {schema : Schema} {shape : Shape}
    (pointer : shape.tellsPresence = true) : schema.initial shape = .absent := by
  cases shape with
  | option item => rfl
  | _ => cases pointer

namespace Field

theorem isLive_bit {field : Field} (bit : field.shape.tellsPresence = false) (index : Nat)
    (value : Value) (bits : PresenceBits 64) : field.isLive index value bits = bits.get index := by
  simp [isLive, presence, bit]

theorem isLive_pointer {field : Field} (pointer : field.shape.tellsPresence = true) (index : Nat)
    (value : Value) (bits : PresenceBits 64) :
    field.isLive index value bits = true ↔ value ≠ .absent := by
  cases value <;> simp [isLive, presence, pointer]

theorem isLive_set {field : Field} {index other : Nat} (differ : index ≠ other)
    (value : Value) (bits : PresenceBits 64) :
    field.isLive other value (bits.set index true) = field.isLive other value bits := by
  cases pointer : field.shape.tellsPresence with
  | false =>
    rw [isLive_bit pointer, isLive_bit pointer, PresenceBits.get_set, if_neg (by simp [differ])]
  | true => rw [Bool.eq_iff_iff, isLive_pointer pointer, isLive_pointer pointer]

end Field

end IncrementalJson
