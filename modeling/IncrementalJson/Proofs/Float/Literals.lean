import IncrementalJson.Proofs.Float.Nearest
import IncrementalJson.Proofs.Reading.Numbers

/-!
# Literals are read to nearest

The text of a literal is read as the decimal that it names, as long as the
exponent is not so large that the reader stops short of its end.  Then the
reader of doubles gives the nearest one.
-/

set_option autoImplicit false

namespace IncrementalJson

open Ascii

/-! ## Exponents -/

def exponentStep (value : Nat) (byte : UInt8) : Nat :=
  if value < exponentReach then value * 10 + digitValue byte else value

theorem foldl_exponentStep_of_reached (bytes : List UInt8) {value : Nat}
    (reached : exponentReach ≤ value) : bytes.foldl exponentStep value = value := by
  induction bytes with
  | nil => rfl
  | cons byte rest ih => rw [List.foldl_cons, exponentStep, if_neg (by omega), ih]

/-- An exponent is read exactly below ten times the reach, and if it has come that far, what is
read has come as far as the reach. -/
theorem foldl_exponentStep (digits : List Digit) (value : Nat) :
    let read := (digits.map Digit.byte).foldl exponentStep value
    let exact := digits.foldl (fun value digit => value * 10 + digit.val) value
    (exact < 10 * exponentReach → read = exact) ∧ (exponentReach ≤ exact → exponentReach ≤ read) := by
  induction digits generalizing value with
  | nil => simp
  | cons digit rest ih =>
    rcases Nat.lt_or_ge value exponentReach with short | reached
    · have step : exponentStep value digit.byte = value * 10 + digit.val := by
        rw [exponentStep, if_pos short, digit.byte_known.2.2.1]
      simp only [List.map_cons, List.foldl_cons, step]
      exact ih (value * 10 + digit.val)
    · rw [foldl_exponentStep_of_reached _ reached]
      have grows := le_foldl_digits rest (value * 10 + digit.val)
      simp only [List.foldl_cons]
      exact ⟨fun small => by omega, fun _ => reached⟩

theorem exponentOfDigits_map {digits : List Digit}
    (small : digitsValue digits < 10 * exponentReach) :
    exponentOfDigits (digits.map Digit.byte) = digitsValue digits :=
  (foldl_exponentStep digits 0).1 small

theorem le_exponentOfDigits_map {digits : List Digit} (reached : exponentReach ≤ digitsValue digits) :
    exponentReach ≤ exponentOfDigits (digits.map Digit.byte) :=
  (foldl_exponentStep digits 0).2 reached

/-- What is read of an exponent: its sign, and the magnitude as far as that is read. -/
theorem literalExponent_bytes (part : ExponentPart) :
    literalExponent part.bytes =
      if part.sign = some true then
        -↑(exponentOfDigits ((part.first :: part.rest).map Digit.byte))
      else ↑(exponentOfDigits ((part.first :: part.rest).map Digit.byte)) := by
  obtain ⟨upper, sign, first, rest⟩ := part
  have notSign : ∀ digit : Digit, digit.byte ≠ Ascii.minus ∧ digit.byte ≠ plus := by decide
  have signs : plus ≠ Ascii.minus := by decide
  rcases sign with _ | _ | _
  · simp [ExponentPart.bytes, literalExponent, notSign first]
  · simp [ExponentPart.bytes, literalExponent, signs]
  · simp [ExponentPart.bytes, literalExponent]

/-! ## Decimals -/

theorem isDigit_bytes (digits : List Digit) : ∀ byte ∈ digits.map Digit.byte, isDigit byte := by
  intro byte among
  obtain ⟨digit, -, rfl⟩ := List.mem_map.mp among
  exact digit.byte_known.2.1

theorem digitsValue_lt (digits : List Digit) : digitsValue digits < 10 ^ digits.length := by
  have behind (value : Nat) : digits.foldl (fun value digit => value * 10 + digit.val) value <
      (value + 1) * 10 ^ digits.length := by
    induction digits generalizing value with
    | nil => simp
    | cons digit rest ih =>
      have next := digit.isLt
      calc (digit :: rest).foldl (fun value digit => value * 10 + digit.val) value
        _ < (value * 10 + digit.val + 1) * 10 ^ rest.length := ih _
        _ ≤ ((value + 1) * 10) * 10 ^ rest.length := Nat.mul_le_mul_right _ (by omega)
        _ = (value + 1) * 10 ^ (digit :: rest).length := by
          rw [List.length_cons, Nat.pow_succ', Nat.mul_assoc]
  have whole := behind 0
  rwa [Nat.zero_add, Nat.one_mul] at whole

theorem natOfDigits_map (digits : List Digit) :
    natOfDigits (digits.map Digit.byte) = digitsValue digits := by
  rw [natOfDigits_eq, appendDigits_map]

/-- Neither a digit nor the point comes next. -/
def EndsDigits (text : List UInt8) : Prop :=
  ∀ byte ∈ text.head?, isDigit byte = false ∧ byte ≠ Ascii.point

theorem EndsDigits.takeWhile {text : List UInt8} (ends : EndsDigits text) (digits : List Digit) :
    (digits.map Digit.byte ++ text).takeWhile isDigit = digits.map Digit.byte ∧
      (digits.map Digit.byte ++ text).dropWhile isDigit = text := by
  rw [List.takeWhile_append_of_pos (isDigit_bytes digits),
    List.dropWhile_append_of_pos (isDigit_bytes digits)]
  cases text with
  | nil => simp
  | cons byte rest =>
    have other := (ends byte rfl).1
    simp [other]

theorem ofUnsigned_whole (whole : List Digit) {text : List UInt8} (ends : EndsDigits text) :
    Decimal.ofUnsigned (whole.map Digit.byte ++ text) =
      ⟨digitsValue whole, literalExponent text⟩ := by
  obtain ⟨front, back⟩ := ends.takeWhile whole
  rw [Decimal.ofUnsigned, front, back, natOfDigits_map]
  cases text with
  | nil => rfl
  | cons byte rest => simp only [if_neg (ends byte rfl).2]

theorem ofUnsigned_fraction (whole fraction : List Digit) {text : List UInt8}
    (ends : EndsDigits text) :
    Decimal.ofUnsigned (whole.map Digit.byte ++ Ascii.point :: (fraction.map Digit.byte ++ text)) =
      ⟨digitsValue (whole ++ fraction), literalExponent text - fraction.length⟩ := by
  have notDigit : isDigit Ascii.point = false := by decide
  obtain ⟨front, back⟩ := ends.takeWhile fraction
  rw [Decimal.ofUnsigned, List.takeWhile_append_of_pos (isDigit_bytes whole),
    List.dropWhile_append_of_pos (isDigit_bytes whole), List.takeWhile_cons, List.dropWhile_cons,
    notDigit]
  simp only [Bool.false_eq_true, if_false, if_true, List.append_nil, front, back,
    ← List.map_append, natOfDigits_map, List.length_map]

namespace Literal

def exponentMagnitude (literal : Literal) : Nat :=
  match literal.exponent with
  | some part => digitsValue (part.first :: part.rest)
  | none => 0

def decimal (literal : Literal) : Decimal := ⟨literal.digits, literal.scale⟩

theorem endsDigits_exponentBytes (literal : Literal) : EndsDigits literal.exponentBytes := by
  have marks : ∀ upper : Bool, isDigit (if upper then upperE else lowerE) = false ∧
      (if upper then upperE else lowerE) ≠ Ascii.point := by decide
  intro byte next
  obtain ⟨negative, whole, fraction, exponent⟩ := literal
  cases exponent with
  | none => cases next
  | some part =>
    cases next
    exact marks part.upper

def readDecimal (literal : Literal) : Decimal :=
  ⟨literal.digits, literalExponent literal.exponentBytes - literal.fractionDigits.length⟩

theorem ofUnsigned_bytes (literal : Literal) :
    Decimal.ofUnsigned (literal.whole.toDigits.map Digit.byte ++ (literal.fractionBytes ++
      literal.exponentBytes)) = literal.readDecimal := by
  have ends := literal.endsDigits_exponentBytes
  rw [readDecimal, digits, fractionDigits]
  obtain ⟨negative, whole, fraction, part⟩ := literal
  cases fraction with
  | none => simp [fractionBytes, ofUnsigned_whole _ ends]
  | some fraction =>
    obtain ⟨first, rest⟩ := fraction
    simp only [fractionBytes, List.cons_append, ofUnsigned_fraction _ _ ends]

theorem ofLiteral_bytes (format : FloatFormat) (literal : Literal) :
    format.ofLiteral literal.bytes = format.ofDecimal literal.negative literal.readDecimal.digits
      literal.readDecimal.exponent := by
  have decimal := literal.ofUnsigned_bytes
  have notSign : ∀ digit : Digit, digit.byte ≠ Ascii.minus := by decide
  obtain ⟨digit, rest, whole⟩ : ∃ digit rest, literal.whole.toDigits = digit :: rest := by
    cases literal.whole with
    | zero => exact ⟨0, [], rfl⟩
    | digits first rest => exact ⟨_, rest, rfl⟩
  rw [FloatFormat.ofLiteral, bytes_eq, List.append_assoc, List.append_assoc, signBytes]
  cases negative : literal.negative with
  | true => simp [decimal]
  | false =>
    rw [whole, List.map_cons, List.cons_append] at decimal
    simp [whole, notSign digit, decimal]

theorem readDecimal_eq {literal : Literal}
    (small : literal.exponentMagnitude < 10 * exponentReach) :
    literal.readDecimal = literal.decimal := by
  rw [readDecimal, decimal, scale, exponentBytes]
  rw [exponentMagnitude] at small
  cases part : literal.exponent with
  | none => simp [literalExponent]
  | some part' =>
    simp only [part] at small
    simp only [literalExponent_bytes, exponentOfDigits_map small, ExponentPart.value]

end Literal

/-! ## Doubles -/

theorem binary64_regular : binary64.Regular := ⟨by decide, by decide⟩

theorem binary32_regular : binary32.Regular := ⟨by decide, by decide⟩

/-- A cell is finite exactly below the half way from the greatest double to the next power of
two. -/
theorem binary64_finite_iff {number : ℚ} {magnitude : Nat}
    (cell : binary64.Cell (binary64.inSteps number) magnitude) :
    magnitude < binary64.finiteEnd ↔ number < 2 ^ 1024 - 2 ^ 970 := by
  have steps := binary64.steps_succ (binary64.finiteEnd - 1)
  have last : binary64.finiteEnd - 1 + 1 = binary64.finiteEnd := rfl
  have doublings : binary64.doublings (binary64.finiteEnd - 1) = 970 + 1 + 1074 := by decide
  have infinite := binary64_regular.steps_finiteEnd
  have width : 2 ^ (binary64.exponentWidth - 1) = 1024 := by decide
  have least : -binary64.minExponent = ((1074 : Nat) : Int) := by decide
  have gap : (0 : ℚ) < 2 ^ 1074 := by positivity
  rw [last] at steps
  rw [width, FloatFormat.inSteps, least, zpow_natCast] at infinite
  have steps' : (binary64.steps binary64.finiteEnd : ℚ) =
      binary64.steps (binary64.finiteEnd - 1) +
        2 ^ binary64.doublings (binary64.finiteEnd - 1) := by
    rw [steps, Nat.cast_add, Nat.cast_pow, Nat.cast_ofNat]
  rw [doublings, pow_add, pow_succ'] at steps'
  rw [cell.finite_iff binary64_regular, FloatFormat.inSteps, least, zpow_natCast]
  generalize (2 : ℚ) ^ 1074 = unit at *
  generalize (2 : ℚ) ^ 1024 = top at *
  generalize (2 : ℚ) ^ 970 = half at *
  have scaled : (binary64.steps (binary64.finiteEnd - 1) : ℚ) + binary64.steps binary64.finiteEnd =
      2 * (top - half) * unit := by
    linarith
  rw [scaled, ← mul_assoc, mul_lt_mul_iff_of_pos_right gap]
  constructor <;> intro less <;> linarith

namespace Literal

theorem fractionDigits_le (literal : Literal) :
    (literal.whole.toDigits ++ literal.fractionDigits).length ≤ literal.bytes.length := by
  have fraction : literal.fractionDigits.length ≤ literal.fractionBytes.length := by
    rw [fractionDigits, fractionBytes]
    cases literal.fraction with
    | none => simp
    | some fraction => simp
  simp only [bytes_eq, List.length_append, List.length_map]
  omega

theorem log2_digits_le (literal : Literal) (nonzero : literal.digits ≠ 0) :
    literal.digits.log2 ≤ 4 * literal.bytes.length := by
  have small : literal.digits < 2 ^ (4 * literal.bytes.length) := by
    calc literal.digits < 10 ^ (literal.whole.toDigits ++ literal.fractionDigits).length :=
          digitsValue_lt _
      _ ≤ 10 ^ literal.bytes.length :=
          Nat.pow_le_pow_right (by decide) literal.fractionDigits_le
      _ ≤ 16 ^ literal.bytes.length := Nat.pow_le_pow_left (by decide) _
      _ = 2 ^ (4 * literal.bytes.length) := by
          rw [Nat.pow_mul]
  exact ((Nat.log2_lt nonzero).mpr small).le

/-- However an exponent is read, a short number is read as the double that it names: beyond the
reach of the exponent nothing but infinity and zero is left. -/
theorem ofDecimal_readDecimal {literal : Literal}
    (short : 2 * literal.bytes.length ≤ exponentReach) :
    binary64.ofDecimal literal.negative literal.readDecimal.digits literal.readDecimal.exponent =
      binary64.ofDecimal literal.negative literal.decimal.digits literal.decimal.exponent := by
  rcases Nat.lt_or_ge literal.exponentMagnitude (10 * exponentReach) with small | large
  · rw [readDecimal_eq small]
  have least : binary64.minExponent = -1074 := by decide
  have top : (2 : Int) ^ (binary64.exponentWidth - 1) = 1024 := by decide
  simp only [readDecimal, decimal, scale, exponentBytes]
  by_cases zero : literal.digits = 0
  · rw [binary64.ofDecimal_vanishing _ (.inl zero), binary64.ofDecimal_vanishing _ (.inl zero)]
  have light := literal.log2_digits_le zero
  have behind : literal.fractionDigits.length ≤ literal.bytes.length := by
    have inside := literal.fractionDigits_le
    rw [List.length_append] at inside
    omega
  rw [exponentMagnitude] at large
  cases written : literal.exponent with
  | none => simp [written, exponentReach] at large
  | some part =>
    simp only [written] at large
    have reached : exponentReach ≤
        exponentOfDigits ((part.first :: part.rest).map Digit.byte) :=
      le_exponentOfDigits_map (by omega)
    simp only [literalExponent_bytes, ExponentPart.value]
    rw [exponentReach] at short large reached
    generalize exponentOfDigits _ = read at *
    generalize digitsValue _ = exact at *
    split
    · rw [binary64.ofDecimal_vanishing _ (.inr ⟨by omega, by omega⟩),
        binary64.ofDecimal_vanishing _ (.inr ⟨by omega, by omega⟩)]
    · rw [binary64.ofDecimal_overflowing _ zero ⟨by omega, by omega⟩,
        binary64.ofDecimal_overflowing _ zero ⟨by omega, by omega⟩]

/-- The reader of doubles rounds to nearest, unless the number is so long that it can bring an
exponent down again which was not read to its end. -/
theorem readsNearest {literal : Literal} (short : 2 * literal.bytes.length ≤ exponentReach) :
    literal.ReadsNearest := by
  have den : 0 < literal.denominator := Nat.pow_pos (by decide)
  have den' : (0 : ℚ) < literal.denominator := by exact_mod_cast den
  obtain ⟨magnitude, cell, rounded⟩ := FloatFormat.exists_cell_ofDecimal binary64_regular
    literal.negative literal.decimal
  have quotient : (literal.numerator : ℚ) / literal.denominator = literal.decimal.value :=
    Decimal.value_eq_div _ _
  have readable : literal.RoundsFinite ↔ magnitude < binary64.finiteEnd := by
    obtain ⟨top, isTop⟩ : ∃ top, top = 1024 := ⟨_, rfl⟩
    obtain ⟨half, isHalf⟩ : ∃ half, half = 970 := ⟨_, rfl⟩
    have less : 2 ^ half ≤ 2 ^ top := Nat.pow_le_pow_right (by decide) (by omega)
    have finite := binary64_finite_iff cell
    rw [← isTop, ← isHalf] at finite
    rw [finite, ← quotient, div_lt_iff₀ den', roundsFinite_iff isTop isHalf,
      ← Nat.cast_lt (α := ℚ), Nat.cast_mul, Nat.cast_sub less, Nat.cast_pow, Nat.cast_pow,
      Nat.cast_ofNat]
  have read : literal.float? binary64 =
      if magnitude < binary64.finiteEnd then
        some (binary64.withSign literal.negative magnitude)
      else none := by
    have finite := FloatFormat.isFinite_withSign_min binary64_regular literal.negative magnitude
    rw [float?, FloatFormat.readFinite, ofLiteral_bytes, ofDecimal_readDecimal short,
      rounded]
    simp only [finite]
    split
    · rename_i below
      rw [Nat.min_eq_left below.le]
      rfl
    · rfl
  intro bits
  rw [read, readable]
  constructor
  · intro some
    split at some
    · rename_i below
      cases some
      have nearest := FloatFormat.nearest_of_cell binary64_regular den (quotient ▸ cell) below
      exact ⟨below, magnitude, nearest, rfl⟩
    · cases some
  · rintro ⟨below, other, nearest', rfl⟩
    have nearest := FloatFormat.nearest_of_cell binary64_regular den (quotient ▸ cell) below
    rw [if_pos below, nearest.unique binary64_regular den nearest']

theorem finite_of_float? {literal : Literal} {format : FloatFormat} {bits : Nat}
    (reads : literal.float? format = some bits) : (format.decode bits).isFinite := by
  rw [Literal.float?, FloatFormat.readFinite] at reads
  split at reads
  · rename_i finite
    cases reads
    exact finite
  · cases reads

theorem float?_isSome_iff {format : FloatFormat} (regular : format.Regular) (literal : Literal) :
    (literal.float? format).isSome ↔ ∃ magnitude,
      format.Cell (format.inSteps literal.readDecimal.value) magnitude ∧
        magnitude < format.finiteEnd := by
  obtain ⟨magnitude, cell, rounded⟩ := FloatFormat.exists_cell_ofDecimal regular
    literal.negative literal.readDecimal
  have finite := FloatFormat.isFinite_withSign_min regular literal.negative magnitude
  rw [← rounded, ← ofLiteral_bytes] at finite
  have read : (literal.float? format).isSome ↔ magnitude < format.finiteEnd := by
    rw [← finite, float?, FloatFormat.readFinite]
    cases (format.decode (format.ofLiteral literal.bytes)).isFinite with
    | true => exact iff_of_true rfl rfl
    | false => exact iff_of_false Bool.false_ne_true Bool.false_ne_true
  rw [read]
  constructor
  · intro below
    exact ⟨magnitude, cell, below⟩
  · rintro ⟨other, cell', below⟩
    rwa [cell.unique cell']

theorem double_of_single {literal : Literal} (single : (literal.float? binary32).isSome) :
    (literal.float? binary64).isSome := by
  obtain ⟨magnitude, cell, finite⟩ := (float?_isSome_iff binary32_regular literal).mp single
  obtain ⟨magnitude', cell', -⟩ := FloatFormat.exists_cell_ofDecimal binary64_regular
    literal.negative literal.readDecimal
  apply (float?_isSome_iff binary64_regular literal).mpr
  refine ⟨magnitude', cell', (binary64_finite_iff cell').mpr ?_⟩
  have width : 2 ^ (binary32.exponentWidth - 1) = 128 := by decide
  have small := cell.lt_of_finite binary32_regular finite
  rw [width] at small
  have low : (2 : ℚ) ^ 128 ≤ 2 ^ 1023 := pow_le_pow_right₀ (by norm_num) (by decide)
  have half : (2 : ℚ) ^ 970 ≤ 2 ^ 1023 := pow_le_pow_right₀ (by norm_num) (by decide)
  have top : (2 : ℚ) ^ 1024 = 2 ^ 1023 + 2 ^ 1023 := (pow_succ 2 1023).trans (mul_two _)
  generalize (2 : ℚ) ^ 1024 = top at *
  generalize (2 : ℚ) ^ 1023 = middle at *
  generalize (2 : ℚ) ^ 970 = half at *
  generalize (2 : ℚ) ^ 128 = single at *
  linarith

end Literal

end IncrementalJson
