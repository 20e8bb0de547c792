import IncrementalJson.Value.Basic

/-!
# Members that are there

A declared member is there if its presence bit is set or, where its own value
says so, if it is not absent.  `Table.liveMembers` lists the members of an
object that are there, `Table.memberCount` counts them and `Table.member?` finds
one by its name.
-/

set_option autoImplicit false

namespace IncrementalJson

inductive Presence where
  /-- By a bit of its own. -/
  | bit (index : Nat)
  /-- By the value of the member. -/
  | pointer
  deriving DecidableEq, Repr

namespace Field

def presence (field : Field) (index : Nat) : Presence :=
  if field.shape.tellsPresence then .pointer else .bit index

def isLive (field : Field) (index : Nat) (value : Value) (bits : PresenceBits 64) : Bool :=
  match field.presence index with
  | .bit index => bits.get index
  | .pointer =>
    match value with
    | .absent => false
    | _ => true

end Field

namespace Table

/-- The declared members that are there, in the order of their declaration, from a position
on. -/
def liveFields (bits : PresenceBits 64) :
    List Field → List Value → Nat → List (String × Shape × Value)
  | field :: fields, value :: values, index =>
    let rest := liveFields bits fields values (index + 1)
    if field.isLive index value bits then (field.name, field.shape, value) :: rest else rest
  | _, _, _ => []

def liveMembers (table : Table) (members : List Value) (bits : PresenceBits 64)
    (extras : Entries Value) : List (String × Shape × Value) :=
  liveFields bits table.fields members 0 ++
    match table.extra with
    | some shape => extras.map fun (name, value) => (name, shape, value)
    | none => []

def countFields (bits : PresenceBits 64) : List Field → List Value → Nat → Nat
  | field :: fields, value :: values, index =>
    let rest := countFields bits fields values (index + 1)
    if field.isLive index value bits then rest + 1 else rest
  | _, _, _ => 0

def memberCount (table : Table) (members : List Value) (bits : PresenceBits 64)
    (extras : Entries Value) : Nat :=
  countFields bits table.fields members 0 + if table.extra.isSome then extras.length else 0

/-- The member of a name, if it is there.  A declared name is never looked up among the
extras. -/
def member? (table : Table) (members : List Value) (bits : PresenceBits 64)
    (extras : Entries Value) (name : String) : Option (Shape × Value) :=
  match table.lookup? name with
  | some (index, field) =>
    match members[index]? with
    | some value => if field.isLive index value bits then some (field.shape, value) else none
    | none => none
  | none =>
    match table.extra with
    | some shape => (extras.find? name).map fun value => (shape, value)
    | none => none

theorem mem_liveFields {bits : PresenceBits 64} {fields : List Field} {values : List Value}
    {index : Nat} {member : String × Shape × Value} :
    member ∈ liveFields bits fields values index ↔
      ∃ (offset : Nat) (field : Field) (value : Value), fields[offset]? = some field ∧
        values[offset]? = some value ∧ field.isLive (index + offset) value bits ∧
          member = (field.name, field.shape, value) := by
  induction fields generalizing values index with
  | nil => simp [liveFields]
  | cons first fields ih =>
    cases values with
    | nil => simp [liveFields]
    | cons stored values =>
      have shifted (offset : Nat) : index + (offset + 1) = index + 1 + offset := by omega
      have listed : member ∈ liveFields bits (first :: fields) (stored :: values) index ↔
          (first.isLive index stored bits ∧ member = (first.name, first.shape, stored)) ∨
            member ∈ liveFields bits fields values (index + 1) := by
        rw [liveFields]
        cases first.isLive index stored bits <;> simp
      rw [listed, ih]
      constructor
      · intro found
        rcases found with ⟨live, same⟩ | ⟨offset, field, value, here, there, live, same⟩
        · exact ⟨0, first, stored, rfl, rfl, live, same⟩
        · exact ⟨offset + 1, field, value, here, there, shifted offset ▸ live, same⟩
      · intro found
        obtain ⟨offset, field, value, here, there, live, same⟩ := found
        cases offset with
        | zero =>
          cases here
          cases there
          exact .inl ⟨live, same⟩
        | succ offset =>
          exact .inr ⟨offset, field, value, here, there, shifted offset ▸ live, same⟩

theorem mem_liveMembers {table : Table} {members : List Value} {bits : PresenceBits 64}
    {extras : Entries Value} {member : String × Shape × Value} :
    member ∈ table.liveMembers members bits extras ↔
      (∃ (index : Nat) (field : Field) (value : Value), table.fields[index]? = some field ∧
        members[index]? = some value ∧ field.isLive index value bits ∧
          member = (field.name, field.shape, value)) ∨
      ∃ (item : Shape) (entry : String × Value), table.extra = some item ∧ entry ∈ extras ∧
        member = (entry.1, item, entry.2) := by
  rw [liveMembers, List.mem_append, mem_liveFields]
  simp only [Nat.zero_add]
  apply or_congr Iff.rfl
  cases table.extra with
  | none => simp
  | some item => simp [eq_comm]

end Table

end IncrementalJson
