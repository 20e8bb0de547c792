import IncrementalJson.Proofs.Reading.Members
import IncrementalJson.View

/-!
# What views show of a tree

A view of a value that was read shows the tree that it was read from: its leaves,
and below a name what stands there in the tree, the last of several members.  The
shape that the value was read in makes no difference but to the type of numbers.
-/

set_option autoImplicit false

namespace IncrementalJson

variable {schema : Schema}

namespace Json

/-- The members of an object whose names can be read. -/
def named (members : List (List StringItem × Json)) : List (String × Json) :=
  members.filterMap fun (name, json) => (textOf? name).map fun text => (text, json)

/-- The tree under a name: the last member of that name, or the element of that index. -/
def child? (json : Json) (name : String) : Option Json :=
  match json with
  | array items => (indexOfName? name).bind fun index => items[index]?
  | object members => last? (named members) name
  | _ => none

def text? : Json → Option String
  | string items => textOf? items
  | _ => none

def truth? : Json → Option Bool
  | bool value => some value
  | _ => none

def number? : Json → Option Number
  | number literal => literal.number?
  | _ => none

theorem named_of_names {members : List (List StringItem × Json)} {pairs : List (String × Json)}
    (isNamed : Named members pairs) : named members = pairs := by
  induction members generalizing pairs with
  | nil => exact isNamed.of_nil.symm
  | cons member rest ih =>
    obtain ⟨name, json⟩ := member
    obtain ⟨text, more, rfl, isText, later⟩ := isNamed.of_cons
    have tail : named rest = more := ih later
    rw [named, List.filterMap_cons]
    simp only [isText, Option.map_some]
    rw [← tail, named]

theorem getElem?_readItems {item : Shape} {items : List Json} {values : List Value}
    (reads : readItems schema item items = some values) (index : Nat) :
    values[index]? = items[index]?.bind fun json => json.readAs schema item := by
  induction items generalizing values index with
  | nil =>
    cases reads
    rfl
  | cons json rest ih =>
    obtain ⟨value, values', means, later, rfl⟩ := readItems_cons reads
    cases index with
    | zero => exact means.symm
    | succ index =>
      rw [List.getElem?_cons_succ, List.getElem?_cons_succ]
      exact ih later index

/-! ## What lies behind boxes, variants and options -/

theorem Means.unbox {json : Json} {inner : Shape} {core : Value}
    (means : Means schema json inner core) : inner.unbox = inner := by
  cases inner with
  | box item =>
    cases means with
    | object declared => cases declared
  | _ => rfl

theorem concrete_layers (shape : Shape) (value : Value) :
    (shape.wrap value).concrete shape = value.concrete shape.core := by
  induction shape with
  | option item ih =>
    have same (value : Value) : (Value.present value).concrete (.option item) =
        value.concrete item := by
      rw [Value.concrete.eq_def]
      rfl
    rw [Shape.wrap, same]
    exact ih
  | box item ih =>
    have same (value : Value) : value.concrete (.box item) = value.concrete item := by
      rw [Value.concrete.eq_def, Value.concrete.eq_def item value]
      rfl
    rw [Shape.wrap, same]
    exact ih
  | _ => rfl

theorem concrete_wrap {json : Json} {inner : Shape} {core : Value}
    (means : Means schema json inner core) (shape : Shape)
    (isInner : json.innerShape shape = inner) :
    (wrap shape core).concrete shape = (inner, core) := by
  have plain (shape : Shape) (same : shape.unbox = inner) :
      core.concrete shape = (inner, core) := by
    cases means <;> rw [Value.concrete.eq_def] <;> simp only [same]
  rw [wrap, concrete_layers]
  by_cases variant : shape.core = .variant
  · rw [innerShape, if_pos variant] at isInner
    have held : (Value.held core).concrete .variant = core.concrete core.heldShape := by
      rw [Value.concrete.eq_def]
      rfl
    rw [if_pos variant, variant, held, means.heldShape, isInner]
    exact plain inner means.unbox
  · rw [innerShape, if_neg variant] at isInner
    rw [if_neg variant, isInner]
    exact plain inner means.unbox

end Json

open Json

theorem View.matched_ofValue (schema : Schema) (shape : Shape) (value : Value) :
    (View.ofValue schema shape value).matched = true :=
  decide_eq_true rfl

theorem View.resolve_ofValue (schema : Schema) (shape : Shape) (value : Value) :
    (View.ofValue schema shape value).resolve =
      .ofValue schema (value.concrete shape).1 (value.concrete shape).2 :=
  if_pos (matched_ofValue schema shape value)

/-- A view of what was read for a tree sees an option without a value, or what the tree means in
the shape behind all layers. -/
theorem resolve_of_readAs {json : Json} {shape : Shape} {value : Value}
    (means : json.readAs schema shape = some value) :
    (json = .null ∧ ∃ item, (View.ofValue schema shape value).resolve =
        .ofValue schema (.option item) .absent) ∨
      ∃ core, Means schema json (json.innerShape shape) core ∧
        (View.ofValue schema shape value).resolve =
          .ofValue schema (json.innerShape shape) core := by
  by_cases option : shape.hasOption ∧ json = .null
  · obtain ⟨option, rfl⟩ := option
    rw [readAs_absent schema option] at means
    cases means
    refine .inl ⟨rfl, ?_⟩
    obtain ⟨item, same⟩ := Shape.unbox_of_hasOption option
    have behind : Value.absent.concrete shape = (.option item, .absent) := by
      rw [Value.concrete.eq_def, same]
    exact ⟨item, by rw [View.resolve_ofValue, behind]⟩
  · have kept : shape.hasOption → json ≠ .null := fun has null => option ⟨has, null⟩
    rw [readAs_inner schema shape json kept] at means
    obtain ⟨core, read, rfl⟩ := Option.map_eq_some_iff.mp means
    have means := means_of_readAs kept read
    exact .inr ⟨core, means, by rw [View.resolve_ofValue, concrete_wrap means shape rfl]⟩

/-! ## Leaves -/

theorem string?_of_readAs {json : Json} {shape : Shape} {value : Value}
    (means : json.readAs schema shape = some value) :
    (View.ofValue schema shape value).string? = json.text? := by
  rw [View.string?]
  rcases resolve_of_readAs means with ⟨rfl, item, seen⟩ | ⟨core, meant, seen⟩
  · rw [seen]
    rfl
  · rw [seen]
    generalize json.innerShape shape = inner at meant
    cases meant with
    | string isText => exact isText.symm
    | object declared => cases inner <;> rfl
    | _ => rfl

theorem bool?_of_readAs {json : Json} {shape : Shape} {value : Value}
    (means : json.readAs schema shape = some value) :
    (View.ofValue schema shape value).bool? = json.truth? := by
  rw [View.bool?]
  rcases resolve_of_readAs means with ⟨rfl, item, seen⟩ | ⟨core, meant, seen⟩
  · rw [seen]
    rfl
  · rw [seen]
    generalize json.innerShape shape = inner at meant
    cases meant with
    | object declared => cases inner <;> rfl
    | _ => rfl

/-- But for the types of floats, a number is read as the number of open type that it names. -/
theorem Literal.number?_of_readAs {literal : Literal} {type : NumberType} {value : NumberValue}
    (means : literal.readAs type = some value) (notSingle : type ≠ .single)
    (notDouble : type ≠ .double) : literal.number? = some value.toNumber := by
  cases type with
  | any =>
    obtain ⟨number, isNumber, rfl⟩ := Option.map_eq_some_iff.mp means
    exact isNumber
  | integer kind =>
    obtain ⟨integer, isInteger, rfl⟩ := Option.map_eq_some_iff.mp means
    obtain ⟨isInteger, holds⟩ := Option.filter_eq_some_iff.mp isInteger
    have bounds := IntegerKind.bounds_of_holds holds
    have greatest : IntegerKind.signed64.greatest = 2 ^ 63 - 1 := rfl
    rw [Literal.number?, isInteger, NumberValue.toNumber, Number.ofInteger, greatest]
    by_cases small : integer ≤ 2 ^ 63 - 1
    · have fits : IntegerKind.signed64.holds integer :=
        (IntegerKind.holds_signed64 integer).mpr (by omega)
      rw [if_pos small]
      simp only [if_pos fits]
    · have large : ¬ IntegerKind.signed64.holds integer := by
        rw [IntegerKind.holds_signed64]
        omega
      have fits : IntegerKind.unsigned64.holds integer :=
        (IntegerKind.holds_unsigned64 integer).mpr (by omega)
      rw [if_neg small]
      simp only [if_neg large, if_pos fits]
  | single => exact absurd rfl notSingle
  | double => exact absurd rfl notDouble

theorem number?_of_readAs {json : Json} {shape : Shape} {value : Value}
    (means : json.readAs schema shape = some value)
    (notSingle : (View.ofValue schema shape value).resolve.shape ≠ .number .single)
    (notDouble : (View.ofValue schema shape value).resolve.shape ≠ .number .double) :
    (View.ofValue schema shape value).number? = json.number? := by
  rw [View.number?]
  rcases resolve_of_readAs means with ⟨rfl, item, seen⟩ | ⟨core, meant, seen⟩
  · simp only [seen, if_pos (View.matched_ofValue _ _ _)]
    rfl
  · rw [seen] at notSingle notDouble
    simp only [seen, if_pos (View.matched_ofValue _ _ _)]
    generalize json.innerShape shape = inner at meant notSingle notDouble
    cases meant with
    | number isNumber =>
      exact (Literal.number?_of_readAs isNumber (fun same => notSingle (by rw [same]; rfl))
        fun same => notDouble (by rw [same]; rfl)).symm
    | _ => rfl

theorem number?_variant {json : Json} {held : Value}
    (means : json.readAs schema .variant = some held) :
    (View.ofValue schema .variant held).number? = json.number? := by
  have notFloat : (View.ofValue schema .variant held).resolve.shape ≠ .number .single ∧
      (View.ofValue schema .variant held).resolve.shape ≠ .number .double := by
    rcases resolve_of_readAs means with ⟨-, item, seen⟩ | ⟨core, -, seen⟩
    · rw [seen]
      exact ⟨nofun, nofun⟩
    · rw [seen]
      cases json <;> exact ⟨nofun, nofun⟩
  exact number?_of_readAs means notFloat.1 notFloat.2

/-! ## Places below -/

theorem Tally.member? {table : Table} {named : List (String × Json)} {read : MembersRead}
    (tally : Tally schema table named read) {name : String} {shape : Shape} {value : Value}
    (found : table.member? read.members read.presence read.extras name = some (shape, value)) :
    ∃ json, last? named name = some json ∧ json.readAs schema shape = some value := by
  rw [Table.member?] at found
  split at found
  · rename_i index field known
    have stored := tally.stored name index field known
    split at found
    · rename_i held here
      split at found
      · rename_i live
        cases found
        rw [here] at stored
        cases last : last? named name with
        | some json =>
          rw [last] at stored
          exact ⟨json, rfl, stored.symm⟩
        | none =>
          rw [last] at stored
          cases pointer : field.shape.tellsPresence with
          | false =>
            rw [Field.isLive_bit pointer, tally.bits name index field known, last] at live
            simp at live
          | true =>
            rw [Field.isLive_pointer pointer, Option.some.inj stored] at live
            exact absurd (Shape.initial_of_tellsPresence pointer) live
      · cases found
    · cases found
  · rename_i undeclared
    split at found
    · rename_i item admitted
      rw [tally.extras name item undeclared admitted] at found
      obtain ⟨member, means, same⟩ := Option.map_eq_some_iff.mp found
      cases same
      exact Option.bind_eq_some_iff.mp means
    · cases found

theorem Tally.member?_variant {named : List (String × Json)} {read : MembersRead}
    (tally : Tally schema (.ofExtra .variant) named read) {name : String} {json : Json}
    (last : last? named name = some json) :
    (Table.ofExtra .variant).member? read.members read.presence read.extras name =
      (json.readAs schema .variant).map fun value => (.variant, value) := by
  have undeclared : (Table.ofExtra .variant).lookup? name = none := rfl
  have found := tally.extras name .variant undeclared rfl
  rw [last] at found
  simp only [Table.member?, undeclared, found]
  rfl

/-- Below a name a view shows the tree under that name. -/
theorem get?_of_readAs {json : Json} {shape : Shape} {value : Value} {name : String}
    {place : View} (means : json.readAs schema shape = some value)
    (found : (View.ofValue schema shape value).get? name = some place) :
    ∃ child shape' value', json.child? name = some child ∧
      place = .ofValue schema shape' value' ∧ child.readAs schema shape' = some value' := by
  rw [View.get?] at found
  rcases resolve_of_readAs means with ⟨rfl, item, seen⟩ | ⟨core, meant, seen⟩
  · simp only [seen, if_pos (View.matched_ofValue _ _ _)] at found
    cases found
  · simp only [seen, if_pos (View.matched_ofValue _ _ _)] at found
    generalize json.innerShape shape = inner at meant found
    cases meant with
    | array reads =>
      obtain ⟨index, isIndex, found⟩ := Option.bind_eq_some_iff.mp found
      obtain ⟨value', here, rfl⟩ := Option.map_eq_some_iff.mp found
      rw [getElem?_readItems reads] at here
      obtain ⟨child, inside, meant⟩ := Option.bind_eq_some_iff.mp here
      refine ⟨child, _, value', ?_, rfl, meant⟩
      rw [child?, isIndex]
      exact inside
    | @object _ _ table _ declared reads =>
      obtain ⟨table', isTable, found⟩ := Option.bind_eq_some_iff.mp found
      have isTable : schema.table? inner = some table' := isTable
      rw [declared] at isTable
      cases isTable
      obtain ⟨⟨shape', value'⟩, member, rfl⟩ := Option.map_eq_some_iff.mp found
      obtain ⟨pairs, isNamed⟩ := exists_named reads
      have tally := (Tally.start schema table).run isNamed reads
      obtain ⟨child, last, meant⟩ := tally.member? member
      refine ⟨child, shape', value', ?_, rfl, meant⟩
      rw [child?, named_of_names isNamed]
      exact last
    | _ => cases found

theorem get?_variant {json : Json} {held : Value} {name : String} {child : Json} {value' : Value}
    (means : json.readAs schema .variant = some held) (below : json.child? name = some child)
    (means' : child.readAs schema .variant = some value') :
    (View.ofValue schema .variant held).get? name =
      some (.ofValue schema .variant value') := by
  rcases resolve_of_readAs means with ⟨rfl, -⟩ | ⟨core, meant, seen⟩
  · cases below
  · have inner : json.innerShape .variant = json.heldShape := rfl
    rw [inner] at meant seen
    rw [View.get?]
    simp only [seen, if_pos (View.matched_ofValue _ _ _)]
    cases json with
    | array items =>
      obtain ⟨index, isIndex, inside⟩ := Option.bind_eq_some_iff.mp below
      cases meant with
      | array reads =>
        have here := getElem?_readItems reads index
        rw [inside, Option.bind_some, means'] at here
        simp only [View.ofValue, heldShape, isIndex, Option.bind_some, here, Option.map_some]
    | object members =>
      cases meant with
      | object declared reads =>
        cases declared
        obtain ⟨pairs, isNamed⟩ := exists_named reads
        have tally := (Tally.start schema (.ofExtra .variant)).run isNamed reads
        rw [child?, named_of_names isNamed] at below
        have member := tally.member?_variant below
        simp only [View.ofValue, heldShape, Schema.table?, Option.bind_some, member, means',
          Option.map_some]
    | _ => cases below

end IncrementalJson
