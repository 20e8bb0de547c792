import IncrementalJson.Proofs.Grammar.Meaning

/-!
# How deep a syntax tree goes

`Json.height` counts the values that lie inside one another when a syntax tree is
read as a value of a shape.  A scalar counts one, a container one more than the
highest of its elements or members, those among the members that a later one of
the same name replaces included.  A value that is read as a variant counts one
more than as a value of its own type; options and boxes count nothing.
-/

set_option autoImplicit false

namespace IncrementalJson

def Shape.layers (shape : Shape) : Nat := if shape.core = .variant then 2 else 1

namespace Json

mutual

/-- How many values lie inside one another, this one included. -/
def height (schema : Schema) (shape : Shape) (json : Json) : Nat :=
  match json with
  | null => if shape.hasOption then 1 else shape.layers
  | bool _ => shape.layers
  | number _ => shape.layers
  | string _ => shape.layers
  | array items =>
    match (innerShape (array items) shape).item? with
    | some item => shape.layers + itemsHeight schema item items
    | none => shape.layers
  | object members =>
    match schema.table? (innerShape (object members) shape) with
    | some table => shape.layers + membersHeight schema table members
    | none => shape.layers

def itemsHeight (schema : Schema) (item : Shape) (items : List Json) : Nat :=
  match items with
  | [] => 0
  | json :: rest => max (json.height schema item) (itemsHeight schema item rest)

def membersHeight (schema : Schema) (table : Table)
    (members : List (List StringItem × Json)) : Nat :=
  match members with
  | [] => 0
  | (name, json) :: rest =>
    match (textOf? name).bind table.memberSlot? with
    | some slot =>
      max (json.height schema slot.shape) (membersHeight schema table rest)
    | none => membersHeight schema table rest

end

end Json

end IncrementalJson
