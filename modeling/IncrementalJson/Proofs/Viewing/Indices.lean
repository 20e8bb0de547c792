import IncrementalJson.View

/-!
# Names of items

The items of a list go by the decimal forms of their indices.  A text is the name
of an index exactly if it is the one that printing gives: without a sign, without
a leading zero, and of a number that a machine word holds.
-/

set_option autoImplicit false

namespace IncrementalJson

theorem digitChar_of_digit {char : Char} (low : '0' ≤ char) (high : char ≤ '9') :
    ∃ digit < 10, Nat.digitChar digit = char ∧ char.toNat - '0'.toNat = digit := by
  have known : ∀ digit < 10, Nat.digitChar digit = Char.ofNat ('0'.toNat + digit) := by decide
  have above : '0'.toNat ≤ char.toNat := low
  have below : char.toNat ≤ '9'.toNat := high
  have nine : '9'.toNat = '0'.toNat + 9 := rfl
  refine ⟨char.toNat - '0'.toNat, by omega, ?_, rfl⟩
  rw [known _ (by omega), Nat.add_sub_cancel' above, Char.ofNat_toNat]

/-- Digits without a leading zero are those of the number that they spell. -/
theorem toDigits_ofDigitChars (chars : List Char)
    (digits : ∀ char ∈ chars, '0' ≤ char ∧ char ≤ '9') (leading : chars.head? ≠ some '0')
    (some : chars ≠ []) : Nat.toDigits 10 (Nat.ofDigitChars 10 chars 0) = chars := by
  rcases List.eq_nil_or_concat chars with rfl | ⟨front, last, rfl⟩
  · exact absurd rfl some
  obtain ⟨low, high⟩ := digits last (by simp)
  obtain ⟨digit, small, rfl, value⟩ := digitChar_of_digit low high
  rw [List.concat_eq_append, Nat.ofDigitChars_append,
    Nat.ofDigitChars_cons_digitChar_of_lt_ten small, Nat.ofDigitChars_nil]
  by_cases alone : front = []
  · subst alone
    rw [Nat.ofDigitChars_nil, Nat.mul_zero, Nat.zero_add, Nat.toDigits_of_lt_base small]
    rfl
  · have head : front.head? = (front.concat (Nat.digitChar digit)).head? := by
      cases front with
      | nil => exact absurd rfl alone
      | cons first rest => rfl
    have shorter : front.length < (front.concat (Nat.digitChar digit)).length := by simp
    have fronts := toDigits_ofDigitChars front
      (fun char among => digits char (by simp [among])) (head ▸ leading) alone
    have positive : Nat.ofDigitChars 10 front 0 ≠ 0 := by
      intro zero
      rw [zero] at fronts
      rw [← head, ← fronts] at leading
      exact leading rfl
    rw [Nat.toDigits_of_base_le (by decide) (by omega)]
    have upper : (10 * Nat.ofDigitChars 10 front 0 + digit) / 10 = Nat.ofDigitChars 10 front 0 := by
      omega
    have lower : (10 * Nat.ofDigitChars 10 front 0 + digit) % 10 = digit := by omega
    rw [upper, lower, fronts]
termination_by chars.length

theorem head_toDigits {index : Nat} (positive : index ≠ 0) :
    (Nat.toDigits 10 index).head? ≠ some '0' := by
  induction index using Nat.strongRecOn with
  | ind index ih =>
    by_cases small : index < 10
    · have known : ∀ digit < 10, digit ≠ 0 → Nat.digitChar digit ≠ '0' := by decide
      rw [Nat.toDigits_of_lt_base small]
      simpa using known index small positive
    · have front := ih (index / 10) (by omega) (by omega)
      rw [Nat.toDigits_of_base_le (by decide) (by omega)]
      cases digits : Nat.toDigits 10 (index / 10) with
      | nil => exact absurd digits Nat.toDigits_ne_nil
      | cons first rest =>
        rw [digits] at front
        exact front

theorem digits_toDigits (index : Nat) :
    ∀ char ∈ Nat.toDigits 10 index, '0' ≤ char ∧ char ≤ '9' := by
  intro char among
  have digit := Nat.isDigit_of_mem_toDigits (by decide) (by decide) among
  simpa [Char.isDigit, Char.le_def] using digit

/-- Only the decimal form of an index is its name. -/
theorem indexOfName?_eq_some_iff (name : String) (index : Nat) :
    indexOfName? name = some index ↔ name = toString index ∧ index < 2 ^ 64 := by
  have printed : name = toString index ↔ name.toList = Nat.toDigits 10 index := by
    rw [Nat.toString_eq_repr, ← Nat.toList_repr, String.toList_inj]
  rw [printed, indexOfName?]
  generalize name.toList = chars
  split
  · exact iff_of_false nofun fun both => Nat.toDigits_ne_nil both.1.symm
  · constructor
    · intro zero
      cases zero
      exact ⟨rfl, by decide⟩
    · rintro ⟨digits, -⟩
      have value := @Nat.ofDigitChars_ten_toDigits index
      rw [← digits] at value
      exact congrArg some value
  · rename_i more
    refine iff_of_false nofun fun both => ?_
    by_cases zero : index = 0
    · subst zero
      exact more (List.cons.inj both.1).2
    · exact head_toDigits zero (both.1 ▸ rfl)
  · rename_i more _ nonzero
    have leading : chars.head? ≠ some '0' := by
      cases chars with
      | nil => nofun
      | cons first rest =>
        intro zero
        cases zero
        exact nonzero rest rfl
    have value : chars.foldl (fun value char => value * 10 + (char.toNat - '0'.toNat)) 0 =
        Nat.ofDigitChars 10 chars 0 := by
      simp only [Nat.ofDigitChars_eq_foldl, Nat.mul_comm]
    simp only [value, List.all_eq_true, Bool.and_eq_true, decide_eq_true_eq]
    constructor
    · intro found
      split at found
      · rename_i digits
        split at found
        · rename_i fits
          cases found
          exact ⟨(toDigits_ofDigitChars chars digits leading more).symm, fits⟩
        · cases found
      · cases found
    · rintro ⟨rfl, fits⟩
      rw [if_pos (digits_toDigits index), Nat.ofDigitChars_ten_toDigits, if_pos fits]

theorem toString_injective {index other : Nat} (same : toString index = toString other) :
    index = other := by
  rw [Nat.toString_eq_repr, Nat.toString_eq_repr, ← String.toList_inj, Nat.toList_repr,
    Nat.toList_repr] at same
  rw [← @Nat.ofDigitChars_ten_toDigits index, same, Nat.ofDigitChars_ten_toDigits]

end IncrementalJson
