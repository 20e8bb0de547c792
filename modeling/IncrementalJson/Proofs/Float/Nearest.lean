import IncrementalJson.Float.Shortest
import IncrementalJson.Proofs.Float.Rounding
import IncrementalJson.Proofs.Grammar.Reference

/-!
# Decimals are rounded to nearest

`ofDecimal` gives the magnitude of the cell that a decimal lies in: so the double
that a number names is the nearest one, and the number is refused exactly if it
rounds to infinity.
-/

set_option autoImplicit false

namespace IncrementalJson

def Decimal.value (decimal : Decimal) : ℚ := decimal.digits * 10 ^ decimal.exponent

theorem Decimal.value_eq_div (digits : Nat) (exponent : Int) :
    ((digits * 10 ^ exponent.toNat : Nat) : ℚ) / ((10 ^ (-exponent).toNat : Nat) : ℚ) =
      (⟨digits, exponent⟩ : Decimal).value := by
  have raised := raised_div 10 digits 1 (-exponent) (by decide)
  simpa [Decimal.value] using raised

namespace FloatFormat

variable (format : FloatFormat)

def inSteps (number : ℚ) : ℚ := number * 2 ^ (-format.minExponent)

def finiteEnd : Nat := format.topField * format.fieldUnit

variable {format}

theorem Cell.reaches {number : ℚ} {magnitude reached : Nat} (cell : format.Cell number magnitude)
    (large : (format.steps reached : ℚ) ≤ number) : reached ≤ magnitude := by
  by_contra less
  have first : format.steps magnitude < format.steps (magnitude + 1) :=
    format.steps_strictMono (Nat.lt_succ_self magnitude)
  have second : format.steps (magnitude + 1) ≤ format.steps reached :=
    format.steps_strictMono.monotone (by omega)
  have first' : (format.steps magnitude : ℚ) < format.steps (magnitude + 1) := by
    exact_mod_cast first
  have second' : (format.steps (magnitude + 1) : ℚ) ≤ format.steps reached := by
    exact_mod_cast second
  have high := cell.high
  linarith

theorem Regular.top_eq (regular : format.Regular) :
    2 ^ format.exponentWidth = 2 * 2 ^ (format.exponentWidth - 1) ∧
      2 ≤ 2 ^ (format.exponentWidth - 1) := by
  obtain ⟨width, equal⟩ : ∃ count, format.exponentWidth = count + 2 :=
    ⟨format.exponentWidth - 2, by have := regular.width; omega⟩
  have one : 1 ≤ 2 ^ width := Nat.one_le_two_pow
  rw [equal]
  simp only [Nat.pow_succ, show width + 2 - 1 = width + 1 from rfl]
  omega

/-- Infinity begins, in steps, at a power of two. -/
theorem Regular.steps_finiteEnd (regular : format.Regular) :
    (format.steps format.finiteEnd : ℚ) =
      format.inSteps (2 ^ (2 ^ (format.exponentWidth - 1))) := by
  obtain ⟨doubled, large⟩ := regular.top_eq
  have precision := regular.precision
  have parts : format.finiteEnd =
      (2 ^ format.exponentWidth - 2) * format.fieldUnit + format.fieldUnit := by
    have top : format.topField = (2 ^ format.exponentWidth - 2) + 1 := by
      rw [topField]
      omega
    rw [finiteEnd, top, Nat.succ_mul]
  rw [parts, format.steps_add (.inr le_rfl) (by omega), inSteps, fieldUnit, ← Nat.pow_add]
  have least : format.minExponent =
      3 - ((2 ^ (format.exponentWidth - 1) : Nat) : Int) - format.precision := by
    rw [minExponent]
    push_cast
    rfl
  rw [least, doubled]
  generalize 2 ^ (format.exponentWidth - 1) = half at *
  rw [← zpow_natCast 2 half, ← zpow_add₀ (by norm_num), Nat.cast_pow, Nat.cast_ofNat,
    ← zpow_natCast]
  congr 1
  omega

end FloatFormat

/-! ## Decimals -/

theorem eight_zpow_le {exponent : Int} (up : 0 ≤ exponent) :
    (2 : ℚ) ^ (3 * exponent) ≤ 10 ^ exponent := by
  rw [zpow_mul]
  exact zpow_le_zpow_left₀ up (by norm_num) (by norm_num)

theorem Decimal.le_value {decimal : Decimal} (nonzero : decimal.digits ≠ 0)
    (up : 0 ≤ decimal.exponent) :
    (2 : ℚ) ^ (decimal.digits.log2 + 3 * decimal.exponent) ≤ decimal.value := by
  have digits : (2 : ℚ) ^ decimal.digits.log2 ≤ decimal.digits := by
    exact_mod_cast Nat.log2_self_le nonzero
  rw [zpow_add₀ (by norm_num), zpow_natCast, value]
  have power := eight_zpow_le up
  gcongr

theorem Decimal.value_lt {decimal : Decimal} (down : decimal.exponent ≤ 0) :
    decimal.value < (2 : ℚ) ^ (decimal.digits.log2 + 3 * decimal.exponent + 1) := by
  have digits : (decimal.digits : ℚ) < 2 ^ (decimal.digits.log2 + 1) := by
    exact_mod_cast Nat.lt_log2_self
  have power : (10 : ℚ) ^ decimal.exponent ≤ 2 ^ (3 * decimal.exponent) := by
    have inverse := eight_zpow_le (Int.neg_nonneg_of_nonpos down)
    rw [Int.mul_neg, zpow_neg, zpow_neg] at inverse
    exact (inv_le_inv₀ (by positivity) (by positivity)).mp inverse
  have order : (decimal.digits.log2 : Int) + 3 * decimal.exponent + 1 =
      ((decimal.digits.log2 + 1 : Nat) : Int) + 3 * decimal.exponent := by
    push_cast
    ring
  rw [order, zpow_add₀ (by norm_num), zpow_natCast, value]
  calc (decimal.digits : ℚ) * 10 ^ decimal.exponent
    _ ≤ decimal.digits * 2 ^ (3 * decimal.exponent) := by gcongr
    _ < 2 ^ (decimal.digits.log2 + 1) * 2 ^ (3 * decimal.exponent) := by gcongr

namespace FloatFormat

variable {format : FloatFormat}

theorem ofDecimal_vanishing (format : FloatFormat) (negative : Bool) {digits : Nat}
    {exponent : Int} (vanishes : digits = 0 ∨
      exponent < 0 ∧ digits.log2 + 3 * exponent + 2 ≤ format.minExponent) :
    format.ofDecimal negative digits exponent = format.withSign negative 0 :=
  if_pos vanishes

theorem ofDecimal_overflowing (format : FloatFormat) (negative : Bool) {digits : Nat}
    {exponent : Int} (nonzero : digits ≠ 0) (overflows : 0 ≤ exponent ∧
      2 ^ (format.exponentWidth - 1) ≤ digits.log2 + 3 * exponent) :
    format.ofDecimal negative digits exponent = format.withSign negative format.finiteEnd := by
  have stays : ¬ (digits = 0 ∨
      exponent < 0 ∧ digits.log2 + 3 * exponent + 2 ≤ format.minExponent) := by
    omega
  exact (if_neg stays).trans (if_pos overflows)

/-- A decimal is rounded to the magnitude of the cell it lies in. -/
theorem exists_cell_ofDecimal (regular : format.Regular) (negative : Bool) (decimal : Decimal) :
    ∃ magnitude, format.Cell (format.inSteps decimal.value) magnitude ∧
      format.ofDecimal negative decimal.digits decimal.exponent =
        format.withSign negative (min magnitude format.finiteEnd) := by
  have den : 0 < 10 ^ (-decimal.exponent).toNat := by positivity
  obtain ⟨magnitude, cell, rounded⟩ :=
    exists_cell regular (decimal.digits * 10 ^ decimal.exponent.toNat) den
  rw [Decimal.value_eq_div] at cell
  refine ⟨magnitude, cell, ?_⟩
  rw [ofDecimal]
  split
  · rename_i vanishes
    have small : 2 * format.inSteps decimal.value < 1 := by
      rcases vanishes with zero | ⟨down, tiny⟩
      · simp [inSteps, Decimal.value, zero]
      · have below := @Decimal.value_lt decimal (by omega)
        have gap : (0 : ℚ) < 2 ^ (-format.minExponent) := by positivity
        rw [inSteps, ← mul_assoc]
        calc 2 * decimal.value * 2 ^ (-format.minExponent)
          _ < 2 * 2 ^ (decimal.digits.log2 + 3 * decimal.exponent + 1) *
              2 ^ (-format.minExponent) := by gcongr
          _ = 2 ^ (decimal.digits.log2 + 3 * decimal.exponent + 2 - format.minExponent) := by
            rw [← zpow_one_add₀ (by norm_num), ← zpow_add₀ (by norm_num)]
            congr 1
            ring
          _ ≤ 2 ^ (0 : Int) := zpow_le_zpow_right₀ (by norm_num) (by omega)
          _ = 1 := zpow_zero _
    rw [cell.unique (cell_zero small), Nat.zero_min]
  · rename_i stays
    split
    · rename_i overflows
      have large := @Decimal.le_value decimal (by omega) overflows.1
      have reaches : format.finiteEnd ≤ magnitude := by
        apply cell.reaches
        simp only [regular.steps_finiteEnd, inSteps]
        have power : (2 : ℚ) ^ 2 ^ (format.exponentWidth - 1) ≤
            2 ^ (decimal.digits.log2 + 3 * decimal.exponent) := by
          rw [← zpow_natCast]
          exact zpow_le_zpow_right₀ (by norm_num) (by exact_mod_cast overflows.2)
        gcongr
        exact power.trans large
      rw [Nat.min_eq_right reaches, finiteEnd]
    · rw [ofRatio, rounded, finiteEnd]

/-! ## Bit patterns -/

theorem finiteEnd_lt (regular : format.Regular) : format.finiteEnd < format.signUnit := by
  obtain ⟨doubled, large⟩ := regular.top_eq
  rw [finiteEnd, topField, signUnit]
  exact Nat.mul_lt_mul_of_pos_right (by omega) format.fieldUnit_pos

theorem fields_withSign (negative : Bool) {magnitude : Nat}
    (below : magnitude < format.signUnit) :
    format.withSign negative magnitude % format.fieldUnit = magnitude % format.fieldUnit ∧
      format.withSign negative magnitude / format.fieldUnit % 2 ^ format.exponentWidth =
        magnitude / format.fieldUnit ∧
      (format.withSign negative magnitude / format.signUnit % 2 = 1 ↔ negative = true) := by
  have positive := format.fieldUnit_pos
  have field : magnitude / format.fieldUnit < 2 ^ format.exponentWidth :=
    Nat.div_lt_of_lt_mul (by rwa [Nat.mul_comm])
  cases negative with
  | false =>
    simp only [withSign, Bool.false_eq_true, if_false, Nat.mod_eq_of_lt field,
      Nat.div_eq_of_lt below]
    simp
  | true =>
    have raised : format.signUnit + magnitude =
        magnitude + 2 ^ format.exponentWidth * format.fieldUnit := by
      rw [signUnit, Nat.add_comm]
    have sign : 0 < format.signUnit := by omega
    simp only [withSign, if_true]
    refine ⟨?_, ?_, ?_⟩
    · rw [raised, Nat.add_mul_mod_self_right]
    · rw [raised, Nat.add_mul_div_right _ _ positive, Nat.add_mod_right, Nat.mod_eq_of_lt field]
    · rw [Nat.add_div_left _ sign, Nat.div_eq_of_lt below]
      simp

theorem decode_withSign (regular : format.Regular) (negative : Bool) {magnitude : Nat}
    (finite : magnitude < format.finiteEnd) :
    format.decode (format.withSign negative magnitude) =
      .finite negative (magnitude - format.doublings magnitude * format.fieldUnit)
        (format.minExponent + format.doublings magnitude) := by
  have below := Nat.lt_trans finite (finiteEnd_lt regular)
  obtain ⟨fraction, field, sign⟩ := format.fields_withSign negative below
  have whole := Nat.div_add_mod' magnitude format.fieldUnit
  have notTop : magnitude / format.fieldUnit < format.topField :=
    Nat.div_lt_of_lt_mul (by rwa [Nat.mul_comm])
  simp only [decode, fraction, field, sign, if_neg notTop.ne, doublings, Bool.decide_eq_true]
  generalize magnitude / format.fieldUnit = exponent at *
  cases exponent with
  | zero =>
    rw [Nat.zero_mul, Nat.zero_add] at whole
    simp [whole]
  | succ exponent =>
    rw [Nat.succ_mul] at whole
    have significand : format.fieldUnit + magnitude % format.fieldUnit =
        magnitude - exponent * format.fieldUnit := by
      omega
    have raised : format.minExponent + ((exponent + 1 : Nat) : Int) - 1 =
        format.minExponent + exponent := by
      omega
    rw [if_neg (Nat.succ_ne_zero exponent), significand, raised]
    rfl

theorem decode_withSign_finiteEnd (regular : format.Regular) (negative : Bool) :
    format.decode (format.withSign negative format.finiteEnd) = .infinite negative := by
  obtain ⟨fraction, field, sign⟩ := format.fields_withSign negative (finiteEnd_lt regular)
  have positive := format.fieldUnit_pos
  have exact : format.finiteEnd % format.fieldUnit = 0 := Nat.mul_mod_left _ _
  have top : format.finiteEnd / format.fieldUnit = format.topField :=
    Nat.mul_div_cancel _ positive
  simp only [decode, fraction, field, sign, exact, top, if_true, Bool.decide_eq_true]

theorem isFinite_withSign_min (regular : format.Regular) (negative : Bool) (magnitude : Nat) :
    (format.decode (format.withSign negative (min magnitude format.finiteEnd))).isFinite ↔
      magnitude < format.finiteEnd := by
  rcases Nat.lt_or_ge magnitude format.finiteEnd with finite | infinite
  · rw [Nat.min_eq_left finite.le, decode_withSign regular negative finite]
    simp [FloatDatum.isFinite, finite]
  · rw [Nat.min_eq_right infinite, decode_withSign_finiteEnd regular negative]
    simp [FloatDatum.isFinite, infinite]

theorem decode_mod (format : FloatFormat) (bits : Nat) :
    format.decode (bits % (format.signUnit * 2)) = format.decode bits := by
  have unit : format.signUnit = format.fieldUnit * 2 ^ format.exponentWidth := Nat.mul_comm _ _
  have fraction : bits % (format.signUnit * 2) % format.fieldUnit = bits % format.fieldUnit := by
    apply Nat.mod_mod_of_dvd
    rw [unit, Nat.mul_assoc]
    exact Nat.dvd_mul_right _ _
  have field : bits % (format.signUnit * 2) / format.fieldUnit % 2 ^ format.exponentWidth =
      bits / format.fieldUnit % 2 ^ format.exponentWidth := by
    rw [unit, Nat.mul_assoc, Nat.mod_mul_right_div_self]
    exact Nat.mod_mod_of_dvd _ (Nat.dvd_mul_right _ _)
  have sign : bits % (format.signUnit * 2) / format.signUnit % 2 = bits / format.signUnit % 2 := by
    rw [Nat.mod_mul_right_div_self, Nat.mod_mod]
  simp only [decode, fraction, field, sign]

theorem finiteEnd_pos (regular : format.Regular) : 0 < format.finiteEnd := by
  obtain ⟨doubled, large⟩ := regular.top_eq
  have top : 0 < format.topField := by
    rw [topField]
    omega
  exact Nat.mul_pos top format.fieldUnit_pos

/-- A cell is finite exactly below the half way from the greatest finite magnitude to the next
one: the greatest one is odd. -/
theorem Cell.finite_iff (regular : format.Regular) {number : ℚ} {magnitude : Nat}
    (cell : format.Cell number magnitude) :
    magnitude < format.finiteEnd ↔
      2 * number < format.steps (format.finiteEnd - 1) + format.steps format.finiteEnd := by
  have even : format.finiteEnd % 2 = 0 := by
    rw [finiteEnd, Nat.mul_mod, regular.fieldUnit_even, Nat.mul_zero]
  have positive := finiteEnd_pos regular
  generalize format.finiteEnd = finiteEnd at *
  have order := format.steps_strictMono
  constructor
  · intro finite
    have first : (format.steps magnitude : ℚ) ≤ format.steps (finiteEnd - 1) := by
      exact_mod_cast order.monotone (by omega : magnitude ≤ finiteEnd - 1)
    have second : (format.steps (magnitude + 1) : ℚ) ≤ format.steps finiteEnd := by
      exact_mod_cast order.monotone finite
    apply lt_of_le_of_ne (cell.high.trans (by linarith))
    intro exact
    have high := cell.high
    have same : format.steps magnitude = format.steps (finiteEnd - 1) := by
      have : (format.steps magnitude : ℚ) = format.steps (finiteEnd - 1) := by linarith
      exact_mod_cast this
    have last : magnitude = finiteEnd - 1 := order.injective same
    have evenHere := cell.highEven (by linarith)
    omega
  · intro below
    by_contra infinite
    obtain ⟨under, rfl⟩ : ∃ under, magnitude = under + 1 := ⟨magnitude - 1, by omega⟩
    have first : (format.steps (finiteEnd - 1) : ℚ) ≤ format.steps under := by
      exact_mod_cast order.monotone (by omega : finiteEnd - 1 ≤ under)
    have second : (format.steps finiteEnd : ℚ) ≤ format.steps (under + 1) := by
      exact_mod_cast order.monotone (by omega : finiteEnd ≤ under + 1)
    have low := cell.low under rfl
    linarith

theorem Cell.lt_of_finite (regular : format.Regular) {number : ℚ} {magnitude : Nat}
    (cell : format.Cell (format.inSteps number) magnitude)
    (finite : magnitude < format.finiteEnd) : number < 2 ^ 2 ^ (format.exponentWidth - 1) := by
  have below := (cell.finite_iff regular).mp finite
  have last : (format.steps (format.finiteEnd - 1) : ℚ) ≤ format.steps format.finiteEnd := by
    exact_mod_cast format.steps_strictMono.monotone (Nat.sub_le _ _)
  have less : format.inSteps number < format.inSteps (2 ^ 2 ^ (format.exponentWidth - 1)) := by
    rw [← regular.steps_finiteEnd]
    linarith
  have gap : (0 : ℚ) < 2 ^ (-format.minExponent) := by positivity
  rw [inSteps, inSteps] at less
  exact lt_of_mul_lt_mul_right less gap.le

/-! ## The nearest magnitude -/

/-- No magnitude is nearer than that of the cell, and it is even if another is as near. -/
theorem Cell.closest {number : ℚ} {magnitude : Nat} (cell : format.Cell number magnitude)
    (other : Nat) :
    |number - format.steps magnitude| ≤ |number - format.steps other| ∧
      (other ≠ magnitude → |number - format.steps other| = |number - format.steps magnitude| →
        magnitude % 2 = 0) := by
  have order := format.steps_strictMono
  rcases Nat.lt_trichotomy other magnitude with less | rfl | more
  · obtain ⟨below, rfl⟩ : ∃ below, magnitude = below + 1 := ⟨magnitude - 1, by omega⟩
    have strict : (format.steps other : ℚ) < format.steps (below + 1) := by
      exact_mod_cast order less
    have least : (format.steps other : ℚ) ≤ format.steps below := by
      exact_mod_cast order.monotone (by omega : other ≤ below)
    have low := cell.low below rfl
    have beyond : number - format.steps other ≤ |number - format.steps other| := le_abs_self _
    constructor
    · rw [abs_le]
      constructor <;> linarith
    · intro _ same
      apply cell.lowEven below rfl
      rcases abs_eq_abs.mp same with equal | opposite <;> linarith
  · exact ⟨le_rfl, fun differs => absurd rfl differs⟩
  · have strict : (format.steps magnitude : ℚ) < format.steps other := by
      exact_mod_cast order more
    have least : (format.steps (magnitude + 1) : ℚ) ≤ format.steps other := by
      exact_mod_cast order.monotone more
    have high := cell.high
    have beyond : -(number - format.steps other) ≤ |number - format.steps other| :=
      neg_le_abs _
    constructor
    · rw [abs_le]
      constructor <;> linarith
    · intro _ same
      apply cell.highEven
      rcases abs_eq_abs.mp same with equal | opposite <;> linarith

theorem grade_eq_steps (regular : format.Regular) {magnitude : Nat}
    (finite : format.IsMagnitude magnitude) : format.grade magnitude = format.steps magnitude := by
  have decoded := decode_withSign regular false finite
  have raised : (format.minExponent + format.doublings magnitude - format.minExponent).toNat =
      format.doublings magnitude := by
    omega
  rw [withSign, if_neg Bool.false_ne_true] at decoded
  simp only [grade, decoded, raised, steps]

theorem minExponent_neg (regular : format.Regular) : format.minExponent < 0 := by
  have large := regular.top_eq.2
  have precision := regular.precision
  have large' : (2 : Int) ≤ 2 ^ (format.exponentWidth - 1) := by exact_mod_cast large
  rw [minExponent]
  omega

theorem distance_eq (regular : format.Regular) (num : Nat) {den : Nat} (someDen : 0 < den)
    {magnitude : Nat} (finite : format.IsMagnitude magnitude) :
    (format.distance num den magnitude : ℚ) =
      den * |format.inSteps (num / den) - format.steps magnitude| := by
  have den' : (0 : ℚ) < den := by exact_mod_cast someDen
  have down := minExponent_neg regular
  have power : (2 : ℚ) ^ (-format.minExponent) = 2 ^ (-format.minExponent).toNat := by
    rw [← zpow_natCast]
    congr 1
    omega
  rw [distance, grade_eq_steps regular finite, Nat.cast_natAbs, inSteps, power]
  push_cast
  rw [← abs_of_pos den', ← abs_mul, abs_of_pos den']
  congr 1
  field_simp

theorem nearest_of_cell (regular : format.Regular) {num den magnitude : Nat} (someDen : 0 < den)
    (cell : format.Cell (format.inSteps (num / den)) magnitude)
    (finite : format.IsMagnitude magnitude) : format.Nearest num den magnitude := by
  have den' : (0 : ℚ) < den := by exact_mod_cast someDen
  refine ⟨finite, ?_, ?_⟩
  · intro other finite'
    rw [← Nat.cast_le (α := ℚ), distance_eq regular num someDen finite,
      distance_eq regular num someDen finite']
    exact mul_le_mul_of_nonneg_left (cell.closest other).1 den'.le
  · intro other finite' differs same
    rw [← Nat.cast_inj (R := ℚ), distance_eq regular num someDen finite,
      distance_eq regular num someDen finite'] at same
    exact (cell.closest other).2 differs (mul_left_cancel₀ den'.ne' same)

theorem Nearest.le_of (regular : format.Regular) {num den magnitude magnitude' : Nat}
    (someDen : 0 < den) (nearest : format.Nearest num den magnitude)
    (nearest' : format.Nearest num den magnitude') : magnitude' ≤ magnitude := by
  by_contra less
  have order := format.steps_strictMono
  have same : format.distance num den magnitude' = format.distance num den magnitude :=
    Nat.le_antisymm (nearest'.closest _ nearest.finite) (nearest.closest _ nearest'.finite)
  have even := nearest.even magnitude' nearest'.finite (by omega) same
  have even' := nearest'.even magnitude nearest.finite (by omega) same.symm
  have finite : format.IsMagnitude (magnitude + 1) :=
    Nat.lt_of_le_of_lt (by omega) nearest'.finite
  have closest := nearest.closest _ finite
  rw [distance, distance, grade_eq_steps regular nearest.finite, grade_eq_steps regular finite]
    at closest
  rw [distance, distance, grade_eq_steps regular nearest.finite,
    grade_eq_steps regular nearest'.finite] at same
  have first : format.steps magnitude * den < format.steps (magnitude + 1) * den :=
    Nat.mul_lt_mul_of_pos_right (order (Nat.lt_succ_self magnitude)) someDen
  have second : format.steps (magnitude + 1) * den < format.steps magnitude' * den :=
    Nat.mul_lt_mul_of_pos_right (order (by omega)) someDen
  omega

theorem Nearest.unique (regular : format.Regular) {num den magnitude magnitude' : Nat}
    (someDen : 0 < den) (nearest : format.Nearest num den magnitude)
    (nearest' : format.Nearest num den magnitude') : magnitude = magnitude' :=
  Nat.le_antisymm (nearest'.le_of regular someDen nearest) (nearest.le_of regular someDen nearest')

end FloatFormat

end IncrementalJson
