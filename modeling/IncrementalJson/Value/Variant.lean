import IncrementalJson.Value.Basic
import IncrementalJson.View

/-!
# Values of any type

Making variants and asking what they hold.
-/

set_option autoImplicit false

namespace IncrementalJson.Variant

def null : Value := .held .null

def ofBool (value : Bool) : Value := .held (.bool value)

def ofNumber (number : Number) : Value := .held (.number (.any number))

def ofString (text : String) : Value := .held (.string text)

def ofList (items : List Value) : Value := .held (.list items)

/-- An object with variants for members, held by nothing. -/
def mapOf (pairs : List (String × Value)) : Value :=
  .object [] (.forMembers 0) (Entries.ofList pairs)

def ofPairs (pairs : List (String × Value)) : Value := .held (mapOf pairs)

/-- Whether a variant was never given a value. -/
def isUnset : Value → Bool
  | .unset => true
  | _ => false

def bool? : Value → Option Bool
  | .held (.bool value) => some value
  | _ => none

def number? : Value → Option Number
  | .held (.number value) => some value.toNumber
  | _ => none

def string? : Value → Option String
  | .held (.string text) => some text
  | _ => none

def items? : Value → Option (List Value)
  | .held (.list items) => some items
  | _ => none

def entries? : Value → Option (Entries Value)
  | .held (.object _ _ extras) => some extras
  | _ => none

def view? (schema : Schema) : Value → Option View
  | .held value => some (.ofValue schema value.heldShape value)
  | _ => none

end IncrementalJson.Variant
