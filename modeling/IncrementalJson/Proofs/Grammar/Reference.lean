import IncrementalJson.Proofs.Grammar.Meaning

/-!
# The reference reading

Which values a JSON text stands for where a value of any type may stand, with
nothing taken from the machine that reads: strings unescaped, arrays in order,
objects with each name where it came first and the value that came last, and
numbers by their exact value, rounded to the nearest double where no integer of
64 bits will do.
-/

set_option autoImplicit false

namespace IncrementalJson

/-! ## Rounding -/

namespace FloatFormat

def grade (format : FloatFormat) (magnitude : Nat) : Nat :=
  match format.decode magnitude with
  | .finite _ significand exponent => significand * 2 ^ (exponent - format.minExponent).toNat
  | _ => 0

/-- How far a finite magnitude is from a quotient, as a multiple of the least positive number
over the denominator. -/
def distance (format : FloatFormat) (num den magnitude : Nat) : Nat :=
  Int.natAbs (↑(num * 2 ^ (-format.minExponent).toNat) - ↑(format.grade magnitude * den))

def IsMagnitude (format : FloatFormat) (magnitude : Nat) : Prop :=
  magnitude < format.topField * format.fieldUnit

/-- A finite magnitude nearest to a quotient, the one with an even significand of two. -/
structure Nearest (format : FloatFormat) (num den magnitude : Nat) : Prop where
  finite : format.IsMagnitude magnitude
  closest : ∀ other, format.IsMagnitude other →
    format.distance num den magnitude ≤ format.distance num den other
  even : ∀ other, format.IsMagnitude other → other ≠ magnitude →
    format.distance num den other = format.distance num den magnitude → magnitude % 2 = 0

end FloatFormat

namespace Literal

def numerator (literal : Literal) : Nat := literal.digits * 10 ^ literal.scale.toNat

def denominator (literal : Literal) : Nat := 10 ^ (-literal.scale).toNat

/-- Whether a number rounds to a finite double: infinity begins half way between the greatest
double and the next power of two. -/
def RoundsFinite (literal : Literal) : Prop :=
  literal.numerator < (2 ^ 1024 - 2 ^ 970) * literal.denominator

-- the exponents are variables, so that nothing tries to compute the powers
theorem roundsFinite_iff {literal : Literal} {top half : Nat} (isTop : top = 1024)
    (isHalf : half = 970) :
    literal.RoundsFinite ↔ literal.numerator < (2 ^ top - 2 ^ half) * literal.denominator := by
  subst isTop isHalf
  rfl

def NearestDouble (literal : Literal) (bits : Nat) : Prop :=
  ∃ magnitude, binary64.Nearest literal.numerator literal.denominator magnitude ∧
    bits = binary64.withSign literal.negative magnitude

/-- The number that a literal stands for: an integer of 64 bits, first with a sign, then
without, or else the nearest double. -/
def Denotes (literal : Literal) (number : Number) : Prop :=
  let double := ∃ bits, literal.NearestDouble bits ∧ number = .float (BitVec.ofNat 64 bits)
  match literal.integer? with
  | some value =>
    if -2 ^ 63 ≤ value ∧ value < 2 ^ 63 then number = .int value
    else if 2 ^ 63 ≤ value ∧ value < 2 ^ 64 then number = .uint value.toNat
    else double
  | none => double

/-- The reader of doubles rounds a literal to nearest, and refuses it exactly if that is not
finite. -/
def ReadsNearest (literal : Literal) : Prop :=
  ∀ bits, literal.float? binary64 = some bits ↔
    literal.RoundsFinite ∧ literal.NearestDouble bits

end Literal

/-! ## Members -/

namespace Entries

variable {α : Type}

def without : Entries α → String → Entries α
  | [], _ => []
  | (key, value) :: rest, name =>
    if key = name then without rest name else (key, value) :: without rest name

def merged : List (String × α) → Entries α
  | [] => []
  | (name, value) :: rest =>
    let later := merged rest
    (name, (later.find? name).getD value) :: later.without name

end Entries

/-! ## Trees -/

namespace Json

mutual

def strings : Json → List (List StringItem)
  | string items => [items]
  | array items => stringsOfItems items
  | object members => stringsOfMembers members
  | _ => []

def stringsOfItems : List Json → List (List StringItem)
  | [] => []
  | json :: rest => json.strings ++ stringsOfItems rest

def stringsOfMembers : List (List StringItem × Json) → List (List StringItem)
  | [] => []
  | (name, json) :: rest => name :: json.strings ++ stringsOfMembers rest

end

mutual

def literals : Json → List Literal
  | number literal => [literal]
  | array items => literalsOfItems items
  | object members => literalsOfMembers members
  | _ => []

def literalsOfItems : List Json → List Literal
  | [] => []
  | json :: rest => json.literals ++ literalsOfItems rest

def literalsOfMembers : List (List StringItem × Json) → List Literal
  | [] => []
  | (_, json) :: rest => json.literals ++ literalsOfMembers rest

end

def SurrogatesPaired (json : Json) : Prop := ∀ items ∈ json.strings, surrogatesPaired items

def NumbersFinite (json : Json) : Prop := ∀ literal ∈ json.literals, literal.RoundsFinite

mutual

/-- The values that a tree stands for where any value may stand. -/
def Denotes : Json → Value → Prop
  | null, value => value = .held .null
  | bool truth, value => value = .held (.bool truth)
  | number literal, value =>
    ∃ number, literal.Denotes number ∧ value = .held (.number (.any number))
  | string items, value => value = .held (.string (String.ofList (unescape items)))
  | array items, value => ∃ values, DenoteItems items values ∧ value = .held (.list values)
  | object members, value => ∃ pairs, DenoteMembers members pairs ∧
    value = .held (.object [] (.forMembers 0) (Entries.merged pairs))

def DenoteItems : List Json → List Value → Prop
  | [], values => values = []
  | json :: rest, values => ∃ value values', json.Denotes value ∧ DenoteItems rest values' ∧
    values = value :: values'

def DenoteMembers : List (List StringItem × Json) → List (String × Value) → Prop
  | [], pairs => pairs = []
  | (name, json) :: rest, pairs => ∃ value pairs', json.Denotes value ∧
    DenoteMembers rest pairs' ∧ pairs = (String.ofList (unescape name), value) :: pairs'

end

end Json

end IncrementalJson
