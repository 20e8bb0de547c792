import IncrementalJson.Float.Shortest

/-!
# Text of floating-point numbers

The shortest digits that read back are laid out by the position of the decimal
point, counted from in front of the first digit.  `FloatLayout` holds the
decisions: how far right the point may stand before the text turns to scientific
notation, and how many zeros may follow the point before the first digit.
-/

set_option autoImplicit false

namespace IncrementalJson

structure FloatLayout where
  /-- Greatest position of the point in positional notation. -/
  widest : Int
  /-- Positional notation needs a position above this one. -/
  deepest : Int
  deriving DecidableEq, Repr

def FloatLayout.single : FloatLayout := ⟨13, -6⟩

def FloatLayout.double : FloatLayout := ⟨16, -5⟩

/-- The text of a positive decimal.  A number without a fraction still ends in `.0`, so that
no text of a floating-point number reads as an integer. -/
def Decimal.layOut (layout : FloatLayout) (decimal : Decimal) : List Char :=
  let digits := Nat.toDigits 10 decimal.digits
  let position : Int := digits.length + decimal.exponent
  if 0 ≤ decimal.exponent ∧ position ≤ layout.widest then
    digits ++ List.replicate decimal.exponent.toNat '0' ++ ['.', '0']
  else if 0 < position ∧ position ≤ layout.widest then
    digits.take position.toNat ++ '.' :: digits.drop position.toNat
  else if layout.deepest < position ∧ position ≤ 0 then
    '0' :: '.' :: List.replicate (-position).toNat '0' ++ digits
  else
    let point := position - 1
    let tail := digits.drop 1
    digits.take 1 ++ (if tail.isEmpty then [] else '.' :: tail) ++ 'e' :: (toString point).toList

def FloatFormat.text? (format : FloatFormat) (layout : FloatLayout) (bits : Nat) :
    Option (List Char) :=
  match format.decode bits with
  | .finite negative significand exponent =>
    let body :=
      if significand = 0 then ['0', '.', '0']
      else (format.shortest significand exponent).layOut layout
    some (if negative then '-' :: body else body)
  | _ => none

end IncrementalJson
