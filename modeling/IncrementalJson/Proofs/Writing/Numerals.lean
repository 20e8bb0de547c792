import IncrementalJson.Proofs.Reading.Numbers
import IncrementalJson.Value.Text

/-!
# Texts of numbers

The text of an integer and the text of a finite float are number literals.  That
of an integer names the integer; that of a float has a fraction or an exponent,
so that it never reads as an integer.
-/

set_option autoImplicit false

namespace IncrementalJson

/-! ## Integers -/

theorem Digit.char_ofNat : ∀ digit : Digit, digit.char = Nat.digitChar digit.val := by
  decide

theorem Digit.char_zero : Digit.char 0 = '0' := by decide

/-- The digits of a natural number make up a whole part. -/
theorem exists_whole (value : Nat) : ∃ whole : WholePart,
    whole.toDigits.map Digit.char = Nat.toDigits 10 value ∧ digitsValue whole.toDigits = value := by
  induction value using Nat.strongRecOn with
  | ind value ih =>
    by_cases small : value < 10
    · rw [Nat.toDigits_of_lt_base small]
      by_cases zero : value = 0
      · subst zero
        exact ⟨.zero, by decide, by decide⟩
      · refine ⟨.digits ⟨value - 1, by omega⟩ [], ?_, ?_⟩
        · have here : value - 1 + 1 = value := by omega
          simp only [WholePart.toDigits, List.map_cons, List.map_nil, Digit.char_ofNat, here]
        · simp only [WholePart.toDigits, digitsValue, List.foldl_cons, List.foldl_nil]
          omega
    · obtain ⟨whole, front, value'⟩ := ih (value / 10) (by omega)
      have split : Nat.toDigits 10 value =
          Nat.toDigits 10 (value / 10) ++ [Nat.digitChar (value % 10)] :=
        Nat.toDigits_of_base_le (by decide) (by omega)
      cases whole with
      | zero =>
        have : digitsValue WholePart.zero.toDigits = 0 := rfl
        omega
      | digits first rest =>
        let last : Digit := ⟨value % 10, Nat.mod_lt value (by decide)⟩
        have longer : (WholePart.digits first (rest ++ [last])).toDigits =
            (WholePart.digits first rest).toDigits ++ [last] := rfl
        refine ⟨.digits first (rest ++ [last]), ?_, ?_⟩
        · rw [longer, List.map_append, front, split, List.map_singleton, Digit.char_ofNat]
        · rw [longer, digitsValue_append, value']
          simp only [last]
          omega

theorem exists_integer (value : Int) : ∃ (negative : Bool) (whole : WholePart),
    (⟨negative, whole, none, none⟩ : Literal).text = (toString value).toList ∧
      (⟨negative, whole, none, none⟩ : Literal).integer? = some value := by
  cases value with
  | ofNat magnitude =>
    obtain ⟨whole, digits, value⟩ := exists_whole magnitude
    refine ⟨false, whole, ?_, ?_⟩
    · have here : toString (Int.ofNat magnitude) = magnitude.repr := rfl
      rw [here, Nat.toList_repr, ← digits]
      simp [Literal.text]
    · simp [Literal.integer?, value]
  | negSucc magnitude =>
    obtain ⟨whole, digits, value⟩ := exists_whole (magnitude + 1)
    refine ⟨true, whole, ?_, ?_⟩
    · have here : toString (Int.negSucc magnitude) = "-" ++ (magnitude + 1).repr := rfl
      rw [here, String.toList_append, Nat.toList_repr, ← digits]
      simp [Literal.text]
    · simp only [Literal.integer?, value, if_true]
      rfl

/-! ## Floats -/

theorem RoundingInterval.holds_zero {interval : RoundingInterval} (low : 0 < interval.low)
    (num : 0 < interval.num) (exponent : Int) : interval.holds exponent 0 = false := by
  have up : 0 < interval.low * (interval.num * 10 ^ (-exponent).toNat) :=
    Nat.mul_pos low (Nat.mul_pos num (Nat.pow_pos (by decide)))
  simp only [holds]
  split
  · simp only [Nat.zero_mul, Bool.and_eq_false_iff, decide_eq_false_iff_not]
    omega
  · simp only [Nat.zero_mul, Bool.and_eq_false_iff, decide_eq_false_iff_not]
    omega

theorem RoundingInterval.holds_nearest? {interval : RoundingInterval} {exponent : Int}
    {point : Nat} (found : interval.nearest? exponent = some point) :
    interval.holds exponent point := by
  simp only [nearest?] at found
  generalize roundHalfEven _ _ = rounded at found
  generalize (if rounded = _ then _ else _) = other at found
  split at found
  · rename_i inside
    cases found
    exact inside
  · split at found
    · rename_i inside
      cases found
      exact inside
    · cases found

namespace Decimal

/-- Zero stands without an exponent. -/
def Plain (decimal : Decimal) : Prop := decimal.digits = 0 → decimal.exponent = 0

theorem plain_trim (fuel : Nat) {decimal : Decimal} (plain : decimal.Plain) :
    (Decimal.trim fuel decimal).Plain := by
  induction fuel generalizing decimal with
  | zero => exact plain
  | succ fuel ih =>
    rw [Decimal.trim]
    split
    · rename_i trailing
      apply ih
      intro zero
      simp only at zero
      omega
    · exact plain

end Decimal

theorem FloatFormat.plain_shortest (format : FloatFormat) {significand : Nat} (exponent : Int)
    (positive : 0 < significand) : (format.shortest significand exponent).Plain := by
  have low : 0 < (format.roundingInterval significand exponent).low := by
    simp only [roundingInterval]
    split <;> omega
  have num : 0 < (format.roundingInterval significand exponent).num :=
    Nat.pow_pos (by decide)
  apply Decimal.plain_trim
  intro zero
  simp only at zero ⊢
  generalize hit : List.findSome? _ _ = found at zero ⊢
  cases found with
  | none => rfl
  | some decimal =>
    obtain ⟨count, -, near⟩ := List.exists_of_findSome?_eq_some hit
    obtain ⟨point, here, rfl⟩ := Option.map_eq_some_iff.mp near
    have inside := RoundingInterval.holds_nearest? here
    have nothing : point = 0 := zero
    rw [nothing, RoundingInterval.holds_zero low num] at inside
    cases inside

theorem exists_exponent (value : Int) :
    ∃ part : ExponentPart, part.text = 'e' :: (toString value).toList := by
  obtain ⟨negative, whole, text, -⟩ := exists_integer value
  have filled : ∃ first rest, whole.toDigits = first :: rest := by
    cases whole with
    | zero => exact ⟨0, [], rfl⟩
    | digits first rest => exact ⟨_, rest, rfl⟩
  obtain ⟨first, rest, digits⟩ := filled
  refine ⟨⟨false, if negative then some true else none, first, rest⟩, ?_⟩
  rw [← text]
  simp only [Literal.text, digits, ExponentPart.text]
  cases negative <;> simp

/-- A text is a literal without a sign, and no integer. -/
def SpellsFraction (text : List Char) : Prop :=
  ∃ (whole : WholePart) (fraction : Option (Digit × List Digit)) (exponent : Option ExponentPart),
    (⟨false, whole, fraction, exponent⟩ : Literal).text = text ∧
      (fraction.isSome ∨ exponent.isSome)

theorem spellsFraction_point (whole : WholePart) (first : Digit) (rest : List Digit) :
    SpellsFraction (whole.toDigits.map Digit.char ++ '.' :: (first :: rest).map Digit.char) :=
  ⟨whole, some (first, rest), none, by simp [Literal.text], .inl rfl⟩

theorem spellsFraction_zeros (count : Nat) (digits : List Digit) (filled : digits ≠ []) :
    SpellsFraction ('0' :: '.' :: List.replicate count '0' ++ digits.map Digit.char) := by
  have zeros : List.replicate count '0' ++ digits.map Digit.char =
      (List.replicate count 0 ++ digits).map Digit.char := by
    rw [List.map_append, List.map_replicate, Digit.char_zero]
  have long : List.replicate count 0 ++ digits ≠ [] := by simp [filled]
  obtain ⟨first, rest, digits'⟩ := List.exists_cons_of_ne_nil long
  have spells := spellsFraction_point .zero first rest
  rw [← digits', ← zeros] at spells
  exact spells

theorem spellsFraction_exponent (first : Fin 9) (rest : List Digit) (value : Int) :
    SpellsFraction (((WholePart.digits first []).toDigits.map Digit.char) ++
      (if (rest.map Digit.char).isEmpty then [] else '.' :: rest.map Digit.char) ++
      'e' :: (toString value).toList) := by
  obtain ⟨part, text⟩ := exists_exponent value
  rw [← text]
  cases rest with
  | nil => exact ⟨.digits first [], none, some part, by simp [Literal.text], .inr rfl⟩
  | cons next rest =>
    exact ⟨.digits first [], some (next, rest), some part, by simp [Literal.text], .inl rfl⟩

/-- However the digits are laid out, they spell a literal. -/
theorem Decimal.spells_layOut {decimal : Decimal} (layout : FloatLayout)
    (plain : decimal.Plain) (wide : 0 < layout.widest) :
    SpellsFraction (decimal.layOut layout) := by
  obtain ⟨whole, digits, value⟩ := exists_whole decimal.digits
  rw [layOut, ← digits]
  cases whole with
  | zero =>
    have zero : decimal.exponent = 0 := plain value.symm
    have one : 1 ≤ layout.widest := by omega
    have spells := spellsFraction_point .zero 0 []
    simpa [zero, WholePart.toDigits, one, Digit.char_zero] using spells
  | digits first rest =>
    simp only [List.length_map]
    split
    · -- the digits, filled up with zeros in front of the point
      rename_i right
      have spells := spellsFraction_point
        (.digits first (rest ++ List.replicate decimal.exponent.toNat 0)) 0 []
      simpa [WholePart.toDigits, Digit.char_zero] using spells
    · rename_i notRight
      split
      · -- the point among the digits
        rename_i among
        have length : (WholePart.digits first rest).toDigits.length = rest.length + 1 := rfl
        obtain ⟨front, position⟩ : ∃ front : Nat,
            ↑(WholePart.digits first rest).toDigits.length + decimal.exponent = (front : Int) + 1 :=
          ⟨(↑(WholePart.digits first rest).toDigits.length + decimal.exponent - 1).toNat, by omega⟩
        have short : front < rest.length := by omega
        have filled : rest.drop front ≠ [] := by
          simp only [ne_eq, List.drop_eq_nil_iff]
          omega
        obtain ⟨next, later, behind⟩ := List.exists_cons_of_ne_nil filled
        have spells := spellsFraction_point (.digits first (rest.take front)) next later
        rw [← behind] at spells
        have cut : (↑(WholePart.digits first rest).toDigits.length + decimal.exponent).toNat =
            front + 1 := by
          rw [position]
          rfl
        rw [cut]
        simpa [WholePart.toDigits, List.map_take, List.map_drop] using spells
      · split
        · exact spellsFraction_zeros _ _ (by simp [WholePart.toDigits])
        · -- one digit in front of the point, and an exponent
          have spells := spellsFraction_exponent first rest
            (↑(WholePart.digits first rest).toDigits.length + decimal.exponent - 1)
          simpa [WholePart.toDigits] using spells

theorem FloatFormat.literal_of_text? {format : FloatFormat} {layout : FloatLayout} {bits : Nat}
    {text : List Char} (wide : 0 < layout.widest) (written : format.text? layout bits = some text) :
    ∃ literal : Literal, literal.text = text ∧ literal.integer? = none := by
  rw [FloatFormat.text?] at written
  cases decoded : format.decode bits with
  | infinite negative => simp [decoded] at written
  | nan => simp [decoded] at written
  | finite negative significand exponent =>
    simp only [decoded, Option.some.injEq] at written
    have spells : SpellsFraction (if significand = 0 then ['0', '.', '0']
        else (format.shortest significand exponent).layOut layout) := by
      split
      · exact spellsFraction_point .zero 0 []
      · rename_i positive
        exact Decimal.spells_layOut layout
          (format.plain_shortest exponent (Nat.pos_of_ne_zero positive)) wide
    obtain ⟨whole, fraction, exponent, text', broken⟩ := spells
    refine ⟨⟨negative, whole, fraction, exponent⟩, ?_, ?_⟩
    · rw [← written, ← text']
      cases negative <;> simp [Literal.text]
    · cases fraction <;> cases exponent <;> simp_all [Literal.integer?]

def NumberValue.integer? : NumberValue → Option Int
  | .any (.int value) => some value
  | .any (.uint value) => some ↑value
  | .any (.float _) => none
  | .integer value => some value
  | .single _ => none
  | .double _ => none

/-- The text of a number is a literal, and names an integer exactly if the number is held as
one. -/
theorem NumberValue.literal_of_text? {value : NumberValue} {text : List Char}
    (written : value.text? = some text) :
    ∃ literal : Literal, literal.text = text ∧ literal.integer? = value.integer? := by
  have ofInteger : ∀ integer : Int, (toString integer).toList = text →
      ∃ literal : Literal, literal.text = text ∧ literal.integer? = some integer := by
    rintro integer rfl
    obtain ⟨negative, whole, text, value⟩ := exists_integer integer
    exact ⟨⟨negative, whole, none, none⟩, text, value⟩
  cases value with
  | any number =>
    cases number with
    | int integer => exact ofInteger integer (Option.some.inj written)
    | uint natural => exact ofInteger natural (Option.some.inj written)
    | float bits => exact FloatFormat.literal_of_text? (by decide) written
  | integer integer => exact ofInteger integer (Option.some.inj written)
  | single bits => exact FloatFormat.literal_of_text? (by decide) written
  | double bits => exact FloatFormat.literal_of_text? (by decide) written

theorem Literal.text_ne_nil (literal : Literal) : literal.text ≠ [] := by
  obtain ⟨negative, whole, fraction, exponent⟩ := literal
  cases whole <;> simp [text, WholePart.toDigits]

def Literal.chars : List Char :=
  ['-', '+', '.', 'e', 'E', '0', '1', '2', '3', '4', '5', '6', '7', '8', '9']

theorem Literal.mem_chars_of_mem_text (literal : Literal) {char : Char}
    (among : char ∈ literal.text) : char ∈ chars := by
  have ofDigit : ∀ digit : Digit, digit.char ∈ chars := by decide
  have ofDigits {digits : List Digit} (among : char ∈ digits.map Digit.char) : char ∈ chars := by
    obtain ⟨digit, -, rfl⟩ := List.mem_map.mp among
    exact ofDigit digit
  obtain ⟨negative, whole, fraction, exponent⟩ := literal
  simp only [text, List.mem_append] at among
  rcases among with ((sign | digits) | behind) | behind
  · cases negative <;> simp at sign
    subst sign
    decide
  · exact ofDigits digits
  · cases fraction with
    | none => cases behind
    | some fraction =>
      rcases List.mem_cons.mp behind with rfl | digits
      · decide
      · exact ofDigits digits
  · cases exponent with
    | none => cases behind
    | some part =>
      obtain ⟨upper, sign, first, rest⟩ := part
      simp only [ExponentPart.text, List.cons_append, List.mem_cons, List.mem_append] at behind
      rcases behind with rfl | sign' | digits
      · cases upper with
        | false => exact show 'e' ∈ chars by decide
        | true => exact show 'E' ∈ chars by decide
      · rcases sign with _ | _ | _ <;> simp at sign' <;> subst sign' <;> decide
      · exact ofDigits digits

theorem Literal.ascii_text (literal : Literal) : ∀ char ∈ literal.text, char.toNat < 0x80 := by
  have known : chars.all (fun char => decide (char.toNat < 0x80)) = true := by decide
  intro char among
  exact of_decide_eq_true (List.all_eq_true.mp known char (literal.mem_chars_of_mem_text among))

theorem length_encode_ascii {text : List Char} (ascii : ∀ char ∈ text, char.toNat < 0x80) :
    (Utf8.encode text).length = text.length := by
  induction text with
  | nil => rfl
  | cons char text ih =>
    have small := ascii char List.mem_cons_self
    rw [Utf8.encode, List.flatMap_cons, Utf8.encodeChar_one (by omega), List.length_append,
      ← Utf8.encode, ih (fun char among => ascii char (List.mem_cons_of_mem _ among))]
    simp [Nat.add_comm]

end IncrementalJson
