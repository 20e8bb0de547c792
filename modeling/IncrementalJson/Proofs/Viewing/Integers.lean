import IncrementalJson.Proofs.Float.Literals
import IncrementalJson.Proofs.Reading.AnyValue
import IncrementalJson.Proofs.Reading.Places
import IncrementalJson.Proofs.Reading.Unambiguous

/-!
# Integers of any size, seen through a variant

An integer literal that fits 64 bits with a sign is the same number whether it
is read as an integer of that type or as a variant that is then asked for one.
Beyond that range the type refuses the literal, while a variant holds the
nearest double.  It is seen as an integer of 64 bits only if it is `-2 ^ 63`
itself, to which the integers down to `-2 ^ 63 - 1024` are rounded.
-/

set_option autoImplicit false

namespace IncrementalJson

/-- Integers below the least one of 64 bits with a sign that are rounded to it in double
precision. -/
def JustBelowLeast (value : Int) : Prop := -2 ^ 63 - 1024 ≤ value ∧ value < -2 ^ 63

instance (value : Int) : Decidable (JustBelowLeast value) :=
  inferInstanceAs (Decidable (_ ∧ _))

theorem JustBelowLeast.magnitude {value : Int} (just : JustBelowLeast value) :
    (2 : ℚ) ^ 63 ≤ value.natAbs ∧ (value.natAbs : ℚ) ≤ 2 ^ 63 + 1024 := by
  obtain ⟨low, high⟩ := just
  have bounds : 2 ^ 63 ≤ value.natAbs ∧ value.natAbs ≤ 2 ^ 63 + 1024 := by omega
  exact_mod_cast bounds

/-! ## Rounding at `2 ^ 63` -/

namespace FloatFormat

theorem inSteps_of_toInt? {format : FloatFormat} (regular : format.Regular) (negative : Bool)
    {magnitude : Nat} (finite : magnitude < format.finiteEnd) {value : Int}
    (whole : (format.decode (format.withSign negative magnitude)).toInt? = some value) :
    format.inSteps value.natAbs = format.steps magnitude := by
  rw [decode_withSign regular negative finite] at whole
  simp only [FloatDatum.toInt?] at whole
  split at whole
  · rename_i exact
    have magnitudeOf : value.natAbs =
        (magnitude - format.doublings magnitude * format.fieldUnit) /
          2 ^ (-(format.minExponent + format.doublings magnitude)).toNat *
          2 ^ (format.minExponent + format.doublings magnitude).toNat := by
      cases negative <;> cases whole <;> simp only [Bool.false_eq_true, if_false, if_true,
        Int.natAbs_neg, Int.natAbs_natCast]
    rw [steps, magnitudeOf, inSteps]
    generalize magnitude - format.doublings magnitude * format.fieldUnit = significand at *
    generalize format.doublings magnitude = count at *
    generalize format.minExponent = least at *
    obtain ⟨quotient, rfl⟩ := Nat.dvd_of_mod_eq_zero exact
    rw [Nat.mul_div_cancel_left _ (Nat.pow_pos (by decide))]
    push_cast
    rw [← zpow_natCast, ← zpow_natCast, ← zpow_natCast, mul_assoc, mul_comm _ (quotient : ℚ),
      mul_assoc, ← zpow_add₀ (by norm_num), ← zpow_add₀ (by norm_num)]
    congr 2
    omega
  · cases whole

def leastDouble : BitVec 64 := 0xC3E0000000000000

def edge64 : Nat := 1085 * binary64.fieldUnit + binary64.fieldUnit

theorem inSteps64 (number : ℚ) : binary64.inSteps number = number * 2 ^ 1074 := by
  have least : -binary64.minExponent = ((1074 : Nat) : Int) := by decide
  rw [inSteps, least, zpow_natCast]

theorem steps_binade (count : Nat) :
    (binary64.steps (count * binary64.fieldUnit + binary64.fieldUnit) : ℚ) = 2 ^ 52 * 2 ^ count ∧
      (binary64.steps (count * binary64.fieldUnit + binary64.fieldUnit + 1) : ℚ) =
        (2 ^ 52 + 1) * 2 ^ count := by
  have unit : binary64.fieldUnit = 2 ^ 52 := rfl
  constructor
  · rw [binary64.steps_add (.inr le_rfl) (by omega), unit]
    push_cast
    rfl
  · rw [Nat.add_assoc, binary64.steps_add (.inr (Nat.le_succ _)) (by omega), unit]
    norm_num

theorem steps_edge64 : (binary64.steps edge64 : ℚ) = binary64.inSteps (2 ^ 63) ∧
    (binary64.steps (edge64 + 1) : ℚ) = binary64.inSteps (2 ^ 63 + 2048) := by
  obtain ⟨here, next⟩ := steps_binade 1085
  have power : (2 : ℚ) ^ 1085 = 2 ^ 11 * 2 ^ 1074 := pow_add 2 11 1074
  rw [edge64, here, next, inSteps64, inSteps64, power]
  generalize (2 : ℚ) ^ 1074 = step
  constructor
  · ring
  · ring

/-- From `2 ^ 63` half way to the next double, numbers are rounded to `2 ^ 63`. -/
theorem cell_edge64 {number : ℚ} (low : 2 ^ 63 ≤ number) (high : number ≤ 2 ^ 63 + 1024) :
    binary64.Cell (binary64.inSteps number) edge64 := by
  obtain ⟨here, next⟩ := steps_edge64
  have even : edge64 % 2 = 0 := by decide
  have positive : (0 : ℚ) < 2 ^ 1074 := by positivity
  have below : ∀ under, edge64 = under + 1 →
      (binary64.steps under : ℚ) < binary64.steps edge64 := by
    intro under isNext
    exact_mod_cast binary64.steps_strictMono (by omega : under < edge64)
  simp only [inSteps64] at here next ⊢
  generalize (2 : ℚ) ^ 1074 = step at *
  have scaled := mul_le_mul_of_nonneg_right low positive.le
  have scaled' := mul_le_mul_of_nonneg_right high positive.le
  refine ⟨fun under isNext => ?_, ?_, fun _ _ _ => even, fun _ => even⟩
  · have less := below under isNext
    linarith
  · rw [here, next]
    linarith

/-- Beyond the half way to the next double, numbers are not rounded to `2 ^ 63`. -/
theorem edge64_lt_of_cell {number : ℚ} {magnitude : Nat}
    (cell : binary64.Cell (binary64.inSteps number) magnitude)
    (beyond : 2 ^ 63 + 1024 < number) : edge64 < magnitude := by
  by_contra within
  obtain ⟨here, next⟩ := steps_edge64
  have positive : (0 : ℚ) < 2 ^ 1074 := by positivity
  have first : (binary64.steps magnitude : ℚ) ≤ binary64.steps edge64 := by
    exact_mod_cast binary64.steps_strictMono.monotone (not_lt.mp within)
  have second : (binary64.steps (magnitude + 1) : ℚ) ≤ binary64.steps (edge64 + 1) := by
    exact_mod_cast binary64.steps_strictMono.monotone (Nat.succ_le_succ (not_lt.mp within))
  have high := cell.high
  simp only [inSteps64] at here next high
  generalize (2 : ℚ) ^ 1074 = step at *
  have scaled := mul_lt_mul_of_pos_right beyond positive
  linarith

end FloatFormat

/-! ## Integer literals -/

namespace Literal

open FloatFormat

variable {literal : Literal} {value : Int}

theorem value_of_integer? (integer : literal.integer? = some value) :
    literal.readDecimal.value = value.natAbs ∧ (value < 0 → literal.negative = true) := by
  obtain ⟨negative, whole, rfl, magnitude, below⟩ := eq_of_integer? integer
  refine ⟨?_, below⟩
  simp [Decimal.value, readDecimal, digits, fractionDigits, exponentBytes, literalExponent,
    magnitude]

theorem exists_cell_of_float? (integer : literal.integer? = some value) {bits : Nat}
    (reads : literal.float? binary64 = some bits) :
    ∃ magnitude, binary64.Cell (binary64.inSteps value.natAbs) magnitude ∧
      magnitude < binary64.finiteEnd ∧ bits = binary64.withSign literal.negative magnitude := by
  obtain ⟨magnitude, cell, rounded⟩ := exists_cell_ofDecimal binary64_regular
    literal.negative literal.readDecimal
  have finite := finite_of_float? reads
  have isBits : bits = binary64.ofLiteral literal.bytes := by
    rw [float?, readFinite] at reads
    split at reads
    · cases reads
      rfl
    · cases reads
  rw [ofLiteral_bytes, rounded] at isBits
  rw [isBits, isFinite_withSign_min binary64_regular] at finite
  rw [(value_of_integer? integer).1] at cell
  rw [Nat.min_eq_left finite.le] at isBits
  exact ⟨magnitude, cell, finite, isBits⟩

/-- A double that an integer beyond 64 bits was rounded to is seen as an integer of 64 bits only
just below the least one. -/
theorem toInt64?_of_float? (integer : literal.integer? = some value)
    (beyond : value < -2 ^ 63 ∨ 2 ^ 64 ≤ value) {bits : Nat}
    (reads : literal.float? binary64 = some bits) :
    (Number.float (BitVec.ofNat 64 bits)).toInt64? =
      if JustBelowLeast value then some (-2 ^ 63) else none := by
  obtain ⟨magnitude, cell, finite, rfl⟩ := exists_cell_of_float? integer reads
  have unit : binary64.signUnit * 2 = 2 ^ 64 := by decide
  have width := binary64.decode_mod (binary64.withSign literal.negative magnitude)
  rw [unit] at width
  simp only [Number.toInt64?, BitVec.toNat_ofNat, width]
  split
  · rename_i just
    have negative := (value_of_integer? integer).2 (Int.lt_trans just.2 (by decide))
    obtain ⟨low, high⟩ := just.magnitude
    rw [cell.unique (cell_edge64 low high), negative]
    decide
  · rename_i notJust
    have far : (2 : ℚ) ^ 63 + 1024 < value.natAbs := by
      have : 2 ^ 63 + 1024 < value.natAbs := by
        rw [JustBelowLeast] at notJust
        omega
      exact_mod_cast this
    have large := binary64.steps_strictMono (edge64_lt_of_cell cell far)
    rw [Option.filter_eq_none_iff]
    intro seen whole holds
    have away := inSteps_of_toInt? binary64_regular literal.negative finite whole
    have bounds := (IntegerKind.holds_signed64 seen).mp holds
    have less : (binary64.steps edge64 : ℚ) < binary64.steps magnitude := by exact_mod_cast large
    rw [steps_edge64.1, ← away, inSteps64, inSteps64] at less
    have less' : (2 : ℚ) ^ 63 < seen.natAbs := lt_of_mul_lt_mul_right less (by positivity)
    have less'' : 2 ^ 63 < seen.natAbs := by exact_mod_cast less'
    omega

theorem toInt64?_of_number? (integer : literal.integer? = some value) {number : Number}
    (reads : literal.number? = some number) :
    number.toInt64? =
      if IntegerKind.signed64.holds value then some value
      else if JustBelowLeast value then some (-2 ^ 63) else none := by
  rw [number?, integer] at reads
  simp only at reads
  split at reads
  · rename_i fits
    cases reads
    rw [if_pos fits]
    rfl
  · rename_i large
    rw [if_neg large]
    rw [IntegerKind.holds_signed64] at large
    split at reads
    · rename_i fits
      have bounds := (IntegerKind.holds_unsigned64 value).mp fits
      have just : ¬ JustBelowLeast value := by
        rw [JustBelowLeast]
        omega
      have same : ((value.toNat : Nat) : Int) = value := Int.toNat_of_nonneg bounds.1
      have large' : ¬ IntegerKind.signed64.holds value := by rwa [IntegerKind.holds_signed64]
      cases reads
      simp only [Number.toInt64?, same, if_neg large', if_neg just]
    · rename_i beyond
      rw [IntegerKind.holds_unsigned64] at beyond
      obtain ⟨bits, isBits, rfl⟩ := Option.map_eq_some_iff.mp reads
      exact toInt64?_of_float? integer (by omega) isBits

theorem float?_of_justBelow (integer : literal.integer? = some value)
    (just : JustBelowLeast value) : literal.float? binary64 = some leastDouble.toNat := by
  obtain ⟨low, high⟩ := just.magnitude
  have finite : edge64 < binary64.finiteEnd := by decide
  have readable : (literal.float? binary64).isSome := by
    rw [float?_isSome_iff binary64_regular, (value_of_integer? integer).1]
    exact ⟨edge64, cell_edge64 low high, finite⟩
  obtain ⟨bits, reads⟩ := Option.isSome_iff_exists.mp readable
  obtain ⟨magnitude, cell, -, isBits⟩ := exists_cell_of_float? integer reads
  have negative := (value_of_integer? integer).2 (Int.lt_trans just.2 (by decide))
  rw [cell.unique (cell_edge64 low high), negative] at isBits
  rw [reads, isBits]
  decide

theorem nearestDouble_of_justBelow (integer : literal.integer? = some value)
    (just : JustBelowLeast value) : literal.NearestDouble leastDouble.toNat := by
  obtain ⟨low, high⟩ := just.magnitude
  obtain ⟨magnitude, negative⟩ := value_of_integer? integer
  have whole : literal.readDecimal = literal.decimal := by
    obtain ⟨negative, digits, rfl, -⟩ := eq_of_integer? integer
    exact readDecimal_eq (Nat.zero_lt_succ _)
  have quotient : (literal.numerator : ℚ) / literal.denominator = value.natAbs := by
    rw [← magnitude, whole]
    exact Decimal.value_eq_div _ _
  refine ⟨edge64, ?_, ?_⟩
  · have someDen : 0 < literal.denominator := Nat.pow_pos (by decide)
    have finite : edge64 < binary64.finiteEnd := by decide
    exact nearest_of_cell binary64_regular someDen (quotient ▸ cell_edge64 low high) finite
  · rw [negative (Int.lt_trans just.2 (by decide))]
    decide

theorem number?_of_justBelow (integer : literal.integer? = some value)
    (just : JustBelowLeast value) : literal.number? = some (.float leastDouble) := by
  have below := just.2
  have notSigned : ¬ IntegerKind.signed64.holds value := by
    rw [IntegerKind.holds_signed64]
    omega
  have notUnsigned : ¬ IntegerKind.unsigned64.holds value := by
    rw [IntegerKind.holds_unsigned64]
    omega
  rw [number?, integer]
  simp only [if_neg notSigned, if_neg notUnsigned, float?_of_justBelow integer just,
    Option.map_some, BitVec.ofNat_toNat, BitVec.setWidth_eq]

end Literal

/-! ## Both ways of reading -/

section Parsing

variable (schema : Schema) {literal : Literal} {value : Int}

theorem parse_integer_eq_ok_iff (kind : IntegerKind) (integer : literal.integer? = some value)
    (read : Value) :
    parse schema (.number (.integer kind)) literal.bytes = .ok read ↔
      kind.holds value ∧ read = .number (.integer value) := by
  have means : (Json.number literal).readAs schema (.number (.integer kind)) =
      ((some value).filter kind.holds).map fun value => .number (.integer value) := by
    rw [← integer]
    exact Option.map_map ..
  rw [Literal.bytes, parse_document_eq_ok_iff schema _ (Spells.number literal).document, means]
  constructor
  · intro isRead
    obtain ⟨seen, filtered, rfl⟩ := Option.map_eq_some_iff.mp isRead
    obtain ⟨⟨⟩, holds⟩ := Option.filter_eq_some_iff.mp filtered
    exact ⟨holds, rfl⟩
  · rintro ⟨holds, rfl⟩
    rw [Option.filter_some_pos holds]
    rfl

theorem parse_variant_number_eq_ok_iff (held : Value) :
    parse schema .variant literal.bytes = .ok held ↔
      ∃ number, literal.number? = some number ∧ held = .held (.number (.any number)) := by
  rw [Literal.bytes, parse_document_eq_ok_iff schema _ (Spells.number literal).document,
    Json.readAs_variant_number, Option.map_eq_some_iff]
  simp only [eq_comm]

theorem int64?_of_parse (integer : literal.integer? = some value) {held : Value}
    (parsed : parse schema .variant literal.bytes = .ok held) :
    (View.ofValue schema .variant held).int64? =
      if IntegerKind.signed64.holds value then some value
      else if JustBelowLeast value then some (-2 ^ 63) else none := by
  obtain ⟨number, isNumber, rfl⟩ := (parse_variant_number_eq_ok_iff schema held).mp parsed
  exact Literal.toInt64?_of_number? integer isNumber

/-- Read as an integer of 64 bits with a sign, and read as a variant that is then asked for such
an integer, an integer literal of any size comes to the same.  Only the literals just below the
least integer of 64 bits, which the type refuses, are seen as that integer through a variant. -/
theorem parse_int64_iff_viewed (integer : literal.integer? = some value) :
    (¬ JustBelowLeast value →
      (∀ number : Int,
        parse schema (.number (.integer .signed64)) literal.bytes =
            .ok (.number (.integer number)) ↔
          ∃ held, parse schema .variant literal.bytes = .ok held ∧
            (View.ofValue schema .variant held).int64? = some number) ∧
      ∀ held, parse schema .variant literal.bytes = .ok held →
        (View.ofValue schema .variant held).int64? =
          if IntegerKind.signed64.holds value then some value else none) ∧
    (JustBelowLeast value →
      let held := Value.held (.number (.any (.float FloatFormat.leastDouble)))
      (∀ read, parse schema (.number (.integer .signed64)) literal.bytes ≠ .ok read) ∧
        literal.NearestDouble FloatFormat.leastDouble.toNat ∧
        parse schema .variant literal.bytes = .ok held ∧
        (View.ofValue schema .variant held).int64? = some (-2 ^ 63)) := by
  constructor
  · intro elsewhere
    have seen {held : Value} (parsed : parse schema .variant literal.bytes = .ok held) :
        (View.ofValue schema .variant held).int64? =
          if IntegerKind.signed64.holds value then some value else none := by
      rw [int64?_of_parse schema integer parsed, if_neg elsewhere]
    refine ⟨fun number => ?_, fun held parsed => seen parsed⟩
    rw [parse_integer_eq_ok_iff schema .signed64 integer]
    constructor
    · rintro ⟨holds, same⟩
      cases same
      obtain ⟨open_, isNumber⟩ : ∃ open_, literal.number? = some open_ := by
        rw [Literal.number?, integer]
        simp only [if_pos holds]
        exact ⟨_, rfl⟩
      have parsed := (parse_variant_number_eq_ok_iff schema _).mpr ⟨open_, isNumber, rfl⟩
      exact ⟨_, parsed, by rw [seen parsed, if_pos holds]⟩
    · rintro ⟨held, parsed, isSeen⟩
      rw [seen parsed] at isSeen
      split at isSeen
      · rename_i holds
        cases isSeen
        exact ⟨holds, rfl⟩
      · cases isSeen
  · intro just
    have outside : ¬ IntegerKind.signed64.holds value := by
      have below := just.2
      rw [IntegerKind.holds_signed64]
      omega
    have parsed := (parse_variant_number_eq_ok_iff schema _).mpr
      ⟨_, Literal.number?_of_justBelow integer just, rfl⟩
    refine ⟨fun read isRead => ?_, Literal.nearestDouble_of_justBelow integer just, parsed, ?_⟩
    · exact outside ((parse_integer_eq_ok_iff schema .signed64 integer read).mp isRead).1
    · rw [int64?_of_parse schema integer parsed, if_neg outside, if_pos just]

/-- The literal `-9223372036854776833`, the first one below `-2 ^ 63` that is not rounded to it. -/
theorem parse_int64_iff_viewed_first :
    let literal : Literal :=
      ⟨true, .digits 8 [2, 2, 3, 3, 7, 2, 0, 3, 6, 8, 5, 4, 7, 7, 6, 8, 3, 3], none, none⟩
    literal.integer? = some (-9223372036854776833) ∧
      (∀ number : Int,
        parse .empty (.number (.integer .signed64)) literal.bytes = .ok (.number (.integer number)) ↔
          ∃ held, parse .empty .variant literal.bytes = .ok held ∧
            (View.ofValue .empty .variant held).int64? = some number) ∧
      ∀ held, parse .empty .variant literal.bytes = .ok held →
        (View.ofValue .empty .variant held).int64? = none := by
  intro literal
  have integer : literal.integer? = some (-9223372036854776833) := by decide
  obtain ⟨agree, unseen⟩ := (parse_int64_iff_viewed .empty integer).1 (by decide)
  exact ⟨integer, agree, unseen⟩

/-- The literal `-9223372036854775809` is refused as an integer of 64 bits, but as a variant it
is seen as `-9223372036854775808`. -/
theorem parse_int64_below_least :
    ¬ ∀ (literal : Literal) (number : Int), literal.fraction = none → literal.exponent = none →
      (parse .empty (.number (.integer .signed64)) literal.bytes = .ok (.number (.integer number)) ↔
        ∃ held, parse .empty .variant literal.bytes = .ok held ∧
          (View.ofValue .empty .variant held).int64? = some number) := by
  intro agree
  have both := agree
    ⟨true, .digits 8 [2, 2, 3, 3, 7, 2, 0, 3, 6, 8, 5, 4, 7, 7, 5, 8, 0, 9], none, none⟩
    (-9223372036854775808) rfl rfl
  have refused : parse .empty (.number (.integer .signed64)) [0x2D, 0x39, 0x32, 0x32, 0x33, 0x33,
      0x37, 0x32, 0x30, 0x33, 0x36, 0x38, 0x35, 0x34, 0x37, 0x37, 0x35, 0x38, 0x30, 0x39] =
      .error .numericOverflow := by
    rfl
  have viewed : ∃ held, parse .empty .variant [0x2D, 0x39, 0x32, 0x32, 0x33, 0x33,
      0x37, 0x32, 0x30, 0x33, 0x36, 0x38, 0x35, 0x34, 0x37, 0x37, 0x35, 0x38, 0x30, 0x39] =
      .ok held ∧ (View.ofValue .empty .variant held).int64? = some (-9223372036854775808) :=
    ⟨.held (.number (.any (.float 0xC3E0000000000000))), by rfl, by decide⟩
  exact nomatch refused.symm.trans (both.mpr viewed)

end Parsing

end IncrementalJson
