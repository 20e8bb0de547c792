import IncrementalJson.Float.Format
import Mathlib.Algebra.Order.Field.Power
import Mathlib.Algebra.Order.Field.Rat
import Mathlib.Tactic.FieldSimp
import Mathlib.Tactic.Linarith
import Mathlib.Tactic.NormNum
import Mathlib.Tactic.Positivity
import Mathlib.Tactic.Ring

/-!
# Rounding to a binary format

The finite magnitudes of a format are numbered in their order, and `steps` says
how many of the least one the magnitude of a number is.  `Cell` holds of a
number and of the magnitude that it rounds to: the number lies between the half
ways to the neighbours, and on one of them only if the magnitude is even.  Cells
do not overlap, and `roundMagnitude` finds the one that a quotient lies in.
-/

set_option autoImplicit false

namespace IncrementalJson

/-! ## Quotients -/

theorem raised_div (base num den : Nat) (exponent : Int) (positive : 0 < base) :
    ((num * base ^ (-exponent).toNat : Nat) : ℚ) / ((den * base ^ exponent.toNat : Nat) : ℚ) =
      num / den * (base : ℚ) ^ (-exponent) := by
  have nonzero : (base : ℚ) ≠ 0 := by positivity
  push_cast
  rcases Int.le_total 0 exponent with up | down
  · obtain ⟨count, rfl⟩ := Int.eq_ofNat_of_zero_le up
    simp only [Int.toNat_neg_natCast, Int.toNat_natCast, pow_zero, mul_one, zpow_neg,
      zpow_natCast]
    field_simp
  · obtain ⟨count, raised⟩ := Int.eq_ofNat_of_zero_le (Int.neg_nonneg_of_nonpos down)
    have flat : exponent.toNat = 0 := by omega
    simp only [raised, flat, Int.toNat_natCast, pow_zero, mul_one, zpow_natCast]
    ring

theorem zpow_le_div_iff (base num den : Nat) (exponent : Int) (positive : 0 < base)
    (someDen : 0 < den) :
    den * base ^ exponent.toNat ≤ num * base ^ (-exponent).toNat ↔
      (base : ℚ) ^ exponent ≤ num / den := by
  have below : (0 : ℚ) < ((den * base ^ exponent.toNat : Nat) : ℚ) := by positivity
  have power : (0 : ℚ) < (base : ℚ) ^ exponent := by positivity
  rw [← Nat.cast_le (α := ℚ), ← one_le_div below, raised_div base num den exponent positive,
    zpow_neg, ← div_eq_mul_inv, one_le_div power]

theorem reached_power (base num den : Nat) (front back : Nat) (some : 1 < base)
    (numLow : base ^ front ≤ num) (numHigh : num < base ^ (front + 1))
    (denLow : base ^ back ≤ den) (denHigh : den < base ^ (back + 1)) :
    let estimate : Int := front - back
    let reached :=
      if den * base ^ estimate.toNat ≤ num * base ^ (-estimate).toNat then estimate
      else estimate - 1
    (base : ℚ) ^ reached ≤ num / den ∧ (num : ℚ) / den < (base : ℚ) ^ (reached + 1) := by
  intro estimate reached
  have positive : 0 < base := by omega
  have someDen : 0 < den := Nat.lt_of_lt_of_le (Nat.pow_pos positive) denLow
  have nonzero : (base : ℚ) ≠ 0 := by positivity
  have den' : (0 : ℚ) < den := by exact_mod_cast someDen
  have numLow' : (base : ℚ) ^ front ≤ num := by exact_mod_cast numLow
  have numHigh' : (num : ℚ) < (base : ℚ) ^ (front + 1) := by exact_mod_cast numHigh
  have denLow' : (base : ℚ) ^ back ≤ den := by exact_mod_cast denLow
  have denHigh' : (den : ℚ) < (base : ℚ) ^ (back + 1) := by exact_mod_cast denHigh
  have high : (num : ℚ) / den < (base : ℚ) ^ (estimate + 1) := by
    rw [div_lt_iff₀ den']
    calc (num : ℚ) < (base : ℚ) ^ (front + 1) := numHigh'
      _ = (base : ℚ) ^ (estimate + 1) * (base : ℚ) ^ back := by
        rw [← zpow_natCast, ← zpow_natCast, ← zpow_add₀ nonzero]
        congr 1
        push_cast
        omega
      _ ≤ (base : ℚ) ^ (estimate + 1) * den := by gcongr
  have low : (base : ℚ) ^ (estimate - 1) ≤ num / den := by
    rw [le_div_iff₀ den']
    calc (base : ℚ) ^ (estimate - 1) * den
      _ ≤ (base : ℚ) ^ (estimate - 1) * (base : ℚ) ^ (back + 1) := by gcongr
      _ = (base : ℚ) ^ front := by
        rw [← zpow_natCast, ← zpow_natCast, ← zpow_add₀ nonzero]
        congr 1
        push_cast
        omega
      _ ≤ num := numLow'
  have test := zpow_le_div_iff base num den estimate positive someDen
  by_cases reaches : den * base ^ estimate.toNat ≤ num * base ^ (-estimate).toNat
  · have here : reached = estimate := if_pos reaches
    rw [here]
    exact ⟨test.mp reaches, high⟩
  · have here : reached = estimate - 1 := if_neg reaches
    have short : (num : ℚ) / den < (base : ℚ) ^ estimate := not_le.mp (test.not.mp reaches)
    rw [here]
    exact ⟨low, by simpa using short⟩

theorem binaryExponent_spec {num den : Nat} (someNum : 0 < num) (someDen : 0 < den) :
    (2 : ℚ) ^ binaryExponent num den ≤ num / den ∧
      (num : ℚ) / den < (2 : ℚ) ^ (binaryExponent num den + 1) := by
  have reached := reached_power 2 num den num.log2 den.log2 (by decide)
    (Nat.log2_self_le (by omega)) Nat.lt_log2_self (Nat.log2_self_le (by omega)) Nat.lt_log2_self
  simpa only [binaryExponent, Nat.cast_ofNat] using reached

theorem roundHalfEven_spec (num : Nat) {den : Nat} (someDen : 0 < den) :
    |(num : ℚ) / den - roundHalfEven num den| ≤ 1 / 2 ∧
      (|(num : ℚ) / den - roundHalfEven num den| = 1 / 2 → roundHalfEven num den % 2 = 0) := by
  have den' : (0 : ℚ) < den := by exact_mod_cast someDen
  have parts : (num : ℚ) / den = (num / den : Nat) + (num % den : Nat) / den := by
    rw [div_eq_iff den'.ne', add_mul, div_mul_cancel₀ _ den'.ne']
    exact_mod_cast (Nat.div_add_mod' num den).symm
  have small : (num % den : Nat) < den := Nat.mod_lt num someDen
  have nonneg : (0 : ℚ) ≤ (num % den : Nat) / den := by positivity
  rw [parts, roundHalfEven]
  generalize num / den = quotient at *
  generalize num % den = rest at *
  have half : (rest : ℚ) / den < 1 / 2 ↔ 2 * rest < den := by
    rw [div_lt_div_iff₀ den' (by norm_num)]
    norm_cast
    omega
  have half' : 1 / 2 < (rest : ℚ) / den ↔ den < 2 * rest := by
    rw [div_lt_div_iff₀ (by norm_num) den']
    norm_cast
    omega
  have one : (rest : ℚ) / den < 1 := by
    rw [div_lt_one den']
    exact_mod_cast small
  split
  · rename_i less
    have less' := half.mpr less
    rw [add_sub_cancel_left, abs_of_nonneg nonneg]
    exact ⟨less'.le, fun exact => absurd exact less'.ne⟩
  · rename_i notLess
    split
    · rename_i more
      have more' := half'.mpr more
      have below : (quotient : ℚ) + rest / den - (quotient + 1 : Nat) = rest / den - 1 := by
        push_cast
        ring
      rw [below, abs_of_nonpos (by linarith)]
      exact ⟨by linarith, fun exact => by linarith⟩
    · rename_i notMore
      have middle : (rest : ℚ) / den = 1 / 2 :=
        le_antisymm (not_lt.mp (half'.not.mpr notMore)) (not_lt.mp (half.not.mpr notLess))
      rw [middle]
      rcases Nat.mod_two_eq_zero_or_one quotient with even | odd
      · rw [even, Nat.add_zero, add_sub_cancel_left]
        exact ⟨by norm_num, fun _ => even⟩
      · rw [odd]
        push_cast
        refine ⟨?_, fun _ => by omega⟩
        rw [abs_le]
        constructor <;> linarith

/-! ## Steps -/

namespace FloatFormat

variable (format : FloatFormat)

theorem fieldUnit_pos : 0 < format.fieldUnit :=
  Nat.pow_pos (by decide)

def doublings (magnitude : Nat) : Nat := magnitude / format.fieldUnit - 1

/-- A magnitude as a multiple of the least one; they go on beyond the finite ones. -/
def steps (magnitude : Nat) : Nat :=
  (magnitude - format.doublings magnitude * format.fieldUnit) * 2 ^ format.doublings magnitude

theorem steps_add {count significand : Nat} (least : count = 0 ∨ format.fieldUnit ≤ significand)
    (most : significand ≤ 2 * format.fieldUnit) :
    format.steps (count * format.fieldUnit + significand) = significand * 2 ^ count := by
  have positive := format.fieldUnit_pos
  have field : (count * format.fieldUnit + significand) / format.fieldUnit =
      count + significand / format.fieldUnit := by
    rw [Nat.add_comm, Nat.add_mul_div_right _ _ positive, Nat.add_comm]
  rw [steps, doublings, field]
  rcases Nat.lt_or_ge significand format.fieldUnit with short | long
  · have none : count = 0 := by omega
    simp [none, Nat.div_eq_of_lt short]
  · rcases Nat.lt_or_eq_of_le most with within | carry
    · have one : significand / format.fieldUnit = 1 := by
        rw [Nat.div_eq_iff positive]
        omega
      simp [one]
    · have two : significand / format.fieldUnit = 2 := by
        rw [carry, Nat.mul_div_cancel _ positive]
      have more : count + 2 - 1 = count + 1 := rfl
      have left : count * format.fieldUnit + 2 * format.fieldUnit -
          (count + 1) * format.fieldUnit = format.fieldUnit := by
        rw [Nat.add_mul]
        omega
      rw [two, more, carry, left]
      ring

theorem exists_significand (magnitude : Nat) : ∃ significand,
    magnitude = format.doublings magnitude * format.fieldUnit + significand ∧
      (format.doublings magnitude = 0 ∨ format.fieldUnit ≤ significand) ∧
      significand < 2 * format.fieldUnit := by
  have positive := format.fieldUnit_pos
  have whole := Nat.div_add_mod' magnitude format.fieldUnit
  have part := Nat.mod_lt magnitude positive
  rw [doublings]
  generalize magnitude / format.fieldUnit = field at *
  cases field with
  | zero => exact ⟨magnitude, by simp, .inl rfl, by omega⟩
  | succ field =>
    rw [Nat.succ_mul] at whole
    refine ⟨format.fieldUnit + magnitude % format.fieldUnit, ?_, ?_, ?_⟩
    · simp only [Nat.add_sub_cancel]
      omega
    · omega
    · omega

theorem steps_succ (magnitude : Nat) :
    format.steps (magnitude + 1) = format.steps magnitude + 2 ^ format.doublings magnitude := by
  obtain ⟨significand, parts, least, most⟩ := format.exists_significand magnitude
  generalize format.doublings magnitude = count at *
  subst parts
  rw [Nat.add_assoc, format.steps_add (by omega) (by omega), format.steps_add least (by omega)]
  ring

theorem steps_strictMono : StrictMono format.steps := by
  apply strictMono_nat_of_lt_succ
  intro magnitude
  have gap : 0 < 2 ^ format.doublings magnitude := by positivity
  rw [steps_succ]
  omega

/-! ## Cells -/

/-- A number, counted in steps, that rounds to a magnitude: it lies between the half ways to
the neighbours, and on one of them only if the magnitude is even. -/
structure Cell (number : ℚ) (magnitude : Nat) : Prop where
  low : ∀ below, magnitude = below + 1 →
    (format.steps below : ℚ) + format.steps magnitude ≤ 2 * number
  high : 2 * number ≤ format.steps magnitude + format.steps (magnitude + 1)
  lowEven : ∀ below, magnitude = below + 1 →
    (format.steps below : ℚ) + format.steps magnitude = 2 * number → magnitude % 2 = 0
  highEven : 2 * number = format.steps magnitude + format.steps (magnitude + 1) →
    magnitude % 2 = 0

variable {format}

theorem Cell.le_of {number : ℚ} {magnitude magnitude' : Nat} (cell : format.Cell number magnitude)
    (cell' : format.Cell number magnitude') : magnitude' ≤ magnitude := by
  by_contra less
  obtain ⟨below, rfl⟩ : ∃ below, magnitude' = below + 1 := ⟨magnitude' - 1, by omega⟩
  have first : format.steps magnitude ≤ format.steps below :=
    format.steps_strictMono.monotone (by omega)
  have second : format.steps (magnitude + 1) ≤ format.steps (below + 1) :=
    format.steps_strictMono.monotone (by omega)
  have first' : (format.steps magnitude : ℚ) ≤ format.steps below := by exact_mod_cast first
  have second' : (format.steps (magnitude + 1) : ℚ) ≤ format.steps (below + 1) := by
    exact_mod_cast second
  have high := cell.high
  have low := cell'.low below rfl
  have same : format.steps magnitude = format.steps below := by
    have : (format.steps magnitude : ℚ) = format.steps below := by linarith
    exact_mod_cast this
  have next : magnitude = below := format.steps_strictMono.injective same
  have even := cell.highEven (by linarith)
  have even' := cell'.lowEven below rfl (by linarith)
  omega

theorem Cell.unique {number : ℚ} {magnitude magnitude' : Nat}
    (cell : format.Cell number magnitude) (cell' : format.Cell number magnitude') :
    magnitude = magnitude' :=
  Nat.le_antisymm (cell'.le_of cell) (cell.le_of cell')

theorem cell_zero {number : ℚ} (small : 2 * number < 1) : format.Cell number 0 := by
  have first : format.steps 0 = 0 := by simp [steps]
  have second : format.steps 1 = 1 := by
    rw [format.steps_succ, first]
    simp [doublings]
  refine ⟨nofun, ?_, nofun, fun _ => rfl⟩
  rw [first, second]
  push_cast
  linarith

/-- Up to the next magnitude it is at least as far as the gap that belongs to the significand. -/
theorem le_steps_succ {count significand : Nat} (least : count = 0 ∨ format.fieldUnit ≤ significand)
    (most : significand ≤ 2 * format.fieldUnit) :
    ((significand : ℚ) + 1) * 2 ^ count ≤
      format.steps (count * format.fieldUnit + significand + 1) := by
  have doubled : count ≤ format.doublings (count * format.fieldUnit + significand) := by
    rcases least with none | long
    · omega
    · have field : count + 1 ≤ (count * format.fieldUnit + significand) / format.fieldUnit := by
        rw [Nat.le_div_iff_mul_le format.fieldUnit_pos, Nat.add_mul]
        omega
      rw [doublings]
      omega
  have more : 2 ^ count ≤ 2 ^ format.doublings (count * format.fieldUnit + significand) :=
    Nat.pow_le_pow_right (by decide) doubled
  rw [steps_succ, format.steps_add least most]
  have more' : (2 : ℚ) ^ count ≤ 2 ^ format.doublings (count * format.fieldUnit + significand) := by
    exact_mod_cast more
  push_cast
  linarith

/-- Down to the magnitude below it is as far as that gap too, except from a power of two: there
the gap below is half as wide. -/
theorem steps_below {count significand below : Nat}
    (least : count = 0 ∨ format.fieldUnit ≤ significand) (most : significand ≤ 2 * format.fieldUnit)
    (next : count * format.fieldUnit + significand = below + 1) :
    (format.steps below : ℚ) ≤ (significand - 1) * 2 ^ count ∨
      (format.steps below : ℚ) < significand * 2 ^ count ∧ count ≠ 0 ∧
        significand = format.fieldUnit := by
  by_cases bottom : count ≠ 0 ∧ significand = format.fieldUnit
  · have less : format.steps below < format.steps (below + 1) :=
      format.steps_strictMono (Nat.lt_succ_self below)
    rw [← next, format.steps_add least most] at less
    exact .inr ⟨by exact_mod_cast less, bottom⟩
  · have positive := format.fieldUnit_pos
    obtain ⟨less, rfl⟩ : ∃ less, significand = less + 1 := by
      refine ⟨significand - 1, ?_⟩
      rcases least with none | long
      · subst none
        omega
      · omega
    have same : below = count * format.fieldUnit + less := by omega
    left
    rw [same, format.steps_add (by omega) (by omega)]
    push_cast
    linarith

theorem cell_of_rounded (regular : format.fieldUnit % 2 = 0) {number : ℚ}
    {count significand : Nat} (least : count = 0 ∨ format.fieldUnit ≤ significand)
    (most : significand ≤ 2 * format.fieldUnit)
    (normal : count = 0 ∨ (format.fieldUnit : ℚ) ≤ number / 2 ^ count)
    (near : |number / 2 ^ count - significand| ≤ 1 / 2)
    (even : |number / 2 ^ count - significand| = 1 / 2 → significand % 2 = 0) :
    format.Cell number (count * format.fieldUnit + significand) := by
  have gap : (0 : ℚ) < 2 ^ count := by positivity
  have parity : (count * format.fieldUnit + significand) % 2 = significand % 2 := by
    rw [Nat.add_mod, Nat.mul_mod, regular, Nat.mul_zero]
    simp
  have scaled : number = number / 2 ^ count * 2 ^ count := (div_mul_cancel₀ _ gap.ne').symm
  generalize number / 2 ^ count = quotient at *
  subst scaled
  obtain ⟨above, under⟩ := abs_le.mp near
  have here : (format.steps (count * format.fieldUnit + significand) : ℚ) =
      significand * 2 ^ count := by
    exact_mod_cast format.steps_add least most
  have wide := le_steps_succ least most
  -- below a power of two the gap is half as wide, but there nothing was rounded up
  have lower : ∀ below, count * format.fieldUnit + significand = below + 1 →
      (format.steps below : ℚ) ≤ (significand - 1) * 2 ^ count ∨
        (format.steps below : ℚ) < significand * 2 ^ count ∧ (significand : ℚ) ≤ quotient := by
    intro below next
    rcases steps_below least most next with far | ⟨close, some, rfl⟩
    · exact .inl far
    · exact .inr ⟨close, normal.resolve_left some⟩
  refine ⟨?_, ?_, ?_, ?_⟩
  · intro below next
    rcases lower below next with far | ⟨near, reached⟩
    · rw [here]
      nlinarith
    · rw [here]
      nlinarith
  · rw [here]
    nlinarith
  · intro below next half
    rw [parity]
    rw [here] at half
    rcases lower below next with far | ⟨near, reached⟩
    · apply even
      have exact : quotient - significand = -(1 / 2) := by nlinarith
      rw [exact]
      norm_num
    · nlinarith
  · intro half
    rw [parity]
    apply even
    rw [here] at half
    have exact : quotient - significand = 1 / 2 := by nlinarith
    rw [exact]
    norm_num

variable (format)

/-- What rounding needs of a format: a fraction and an exponent field. -/
structure Regular : Prop where
  precision : 2 ≤ format.precision
  width : 2 ≤ format.exponentWidth

variable {format}

theorem Regular.fieldUnit_even (regular : format.Regular) : format.fieldUnit % 2 = 0 := by
  obtain ⟨precision, equal⟩ : ∃ count, format.precision = count + 2 :=
    ⟨format.precision - 2, by have := regular.precision; omega⟩
  rw [fieldUnit, equal]
  simp [Nat.pow_succ]

theorem Regular.fieldUnit_eq (regular : format.Regular) :
    (format.fieldUnit : ℚ) = 2 ^ ((format.precision : Int) - 1) := by
  have precision := regular.precision
  have equal : ((format.precision : Int) - 1) = ((format.precision - 1 : Nat) : Int) := by omega
  rw [equal, zpow_natCast, fieldUnit]
  push_cast
  rfl

theorem Regular.two_mul_fieldUnit (regular : format.Regular) :
    (2 * format.fieldUnit : ℚ) = 2 ^ (format.precision : Int) := by
  rw [regular.fieldUnit_eq, ← zpow_one_add₀ (by norm_num)]
  congr 1
  omega

/-- At the gap that belongs to it a quotient takes the bits of a significand and no more, and all
of them unless it is too small for the gap to shrink with it. -/
theorem Regular.scaled_bounds (regular : format.Regular) {quotient : ℚ} {top exponent : Int}
    (reached : 2 ^ top ≤ quotient) (short : quotient < 2 ^ (top + 1))
    (least : top - (format.precision - 1) ≤ exponent) :
    quotient * 2 ^ (-exponent) < 2 * format.fieldUnit ∧
      (exponent = top - (format.precision - 1) →
        (format.fieldUnit : ℚ) ≤ quotient * 2 ^ (-exponent)) := by
  constructor
  · calc quotient * 2 ^ (-exponent)
      _ < 2 ^ (top + 1) * 2 ^ (-exponent) := by gcongr
      _ = 2 ^ (top + 1 - exponent) := by
        rw [← zpow_add₀ (by norm_num), ← sub_eq_add_neg]
      _ ≤ 2 ^ (format.precision : Int) := zpow_le_zpow_right₀ (by norm_num) (by omega)
      _ = 2 * format.fieldUnit := regular.two_mul_fieldUnit.symm
  · intro exact
    calc (format.fieldUnit : ℚ) = 2 ^ top * 2 ^ (-exponent) := by
          rw [regular.fieldUnit_eq, ← zpow_add₀ (by norm_num)]
          congr 1
          omega
      _ ≤ quotient * 2 ^ (-exponent) := by gcongr

theorem exists_cell (regular : format.Regular) (num : Nat) {den : Nat} (someDen : 0 < den) :
    ∃ magnitude, format.Cell (num / den * 2 ^ (-format.minExponent)) magnitude ∧
      format.roundMagnitude num den = min magnitude (format.topField * format.fieldUnit) := by
  by_cases zero : num = 0
  · subst zero
    exact ⟨0, cell_zero (by simp), by simp [roundMagnitude]⟩
  obtain ⟨reached, short⟩ := binaryExponent_spec (Nat.pos_of_ne_zero zero) someDen
  rw [roundMagnitude, if_neg zero]
  generalize binaryExponent num den = top at *
  generalize chosen : max format.minExponent (top - (format.precision - 1)) = exponent
  simp only
  obtain ⟨count, above⟩ : ∃ count : Nat, exponent = format.minExponent + count :=
    ⟨(exponent - format.minExponent).toNat, by omega⟩
  have counted : (exponent - format.minExponent).toNat = count := by omega
  have den' : 0 < den * 2 ^ exponent.toNat := by positivity
  obtain ⟨near, even⟩ := roundHalfEven_spec (num * 2 ^ (-exponent).toNat) den'
  rw [raised_div 2 num den exponent (by decide), Nat.cast_ofNat] at near even
  generalize roundHalfEven _ _ = significand at *
  have quotient : (num : ℚ) / den * 2 ^ (-format.minExponent) / 2 ^ count =
      num / den * 2 ^ (-exponent) := by
    rw [mul_div_assoc, ← zpow_natCast, ← zpow_sub₀ (by norm_num)]
    congr 2
    omega
  have narrow : top - (format.precision - 1) ≤ exponent := by omega
  obtain ⟨below, large⟩ := regular.scaled_bounds reached short narrow
  have normal : count = 0 ∨ (format.fieldUnit : ℚ) ≤ num / den * 2 ^ (-exponent) := by
    by_cases none : count = 0
    · exact .inl none
    · exact .inr (large (by omega))
  obtain ⟨notLess, notMore⟩ := abs_le.mp near
  have most : significand ≤ 2 * format.fieldUnit := by
    have : (significand : ℚ) < (2 * format.fieldUnit + 1 : Nat) := by
      push_cast
      linarith
    have := Nat.cast_lt.mp this
    omega
  have least : count = 0 ∨ format.fieldUnit ≤ significand := by
    refine normal.imp_right fun large => ?_
    have : (format.fieldUnit : ℚ) < (significand + 1 : Nat) := by
      push_cast
      linarith
    have := Nat.cast_lt.mp this
    omega
  refine ⟨count * format.fieldUnit + significand, ?_, by rw [counted]⟩
  rw [← quotient] at near even normal
  exact cell_of_rounded regular.fieldUnit_even least most normal near even

end FloatFormat

end IncrementalJson
