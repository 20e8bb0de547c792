import IncrementalJson.Text.Utf8

/-!
# Decoding undoes encoding

`Utf8.decode` gives back the characters that `Utf8.encode` was given, and it
accepts nothing else: what it accepts is the encoding of what it gives.
-/

set_option autoImplicit false

namespace IncrementalJson.Utf8

@[simp] theorem encode_nil : encode [] = [] := rfl

@[simp] theorem encode_cons (char : Char) (chars : List Char) :
    encode (char :: chars) = encodeChar char ++ encode chars := rfl

@[simp] theorem encode_append (front back : List Char) :
    encode (front ++ back) = encode front ++ encode back :=
  List.flatMap_append

/-- The octets of a scalar value behind the first, for so many of them. -/
def continuation (value : Nat) : Nat → List UInt8
  | 0 => []
  | due + 1 => UInt8.ofNat (value / 64 ^ due % 64 + 0x80) :: continuation value due

theorem encodeChar_one {char : Char} (small : char.toNat ≤ 0x7F) :
    encodeChar char = [UInt8.ofNat char.toNat] := by
  have small' : char.val.toNat ≤ 0x7F := small
  simp only [encodeChar, String.utf8EncodeChar, if_pos small']
  rfl

theorem encodeChar_two {char : Char} (low : 0x7F < char.toNat) (high : char.toNat ≤ 0x7FF) :
    encodeChar char =
      UInt8.ofNat (char.toNat / 64 + 0xC0) :: continuation char.toNat 1 := by
  have low' : ¬ char.val.toNat ≤ 0x7F := by
    have : char.val.toNat = char.toNat := rfl
    omega
  have high' : char.val.toNat ≤ 0x7FF := high
  have front : char.val.toNat / 64 % 0x20 = char.toNat / 64 := by
    have : char.val.toNat = char.toNat := rfl
    omega
  simp only [encodeChar, String.utf8EncodeChar, if_neg low', if_pos high', front]
  simp only [continuation, Nat.pow_zero, Nat.div_one]
  rfl

theorem encodeChar_three {char : Char} (low : 0x7FF < char.toNat) (high : char.toNat ≤ 0xFFFF) :
    encodeChar char =
      UInt8.ofNat (char.toNat / 4096 + 0xE0) :: continuation char.toNat 2 := by
  have same : char.val.toNat = char.toNat := rfl
  have low' : ¬ char.val.toNat ≤ 0x7F := by omega
  have low'' : ¬ char.val.toNat ≤ 0x7FF := by omega
  have high' : char.val.toNat ≤ 0xFFFF := high
  have front : char.val.toNat / 4096 % 0x10 = char.toNat / 4096 := by omega
  simp only [encodeChar, String.utf8EncodeChar, if_neg low', if_neg low'', if_pos high', front]
  simp only [continuation, Nat.pow_zero, Nat.pow_one, Nat.div_one]
  rfl

theorem encodeChar_four {char : Char} (low : 0xFFFF < char.toNat) :
    encodeChar char =
      UInt8.ofNat (char.toNat / 262144 + 0xF0) :: continuation char.toNat 3 := by
  have same : char.val.toNat = char.toNat := rfl
  have bound : char.toNat < 0x110000 := by
    rcases char.valid with small | ⟨-, small⟩
    · exact Nat.lt_trans small (by decide)
    · exact small
  have low' : ¬ char.val.toNat ≤ 0x7F := by omega
  have low'' : ¬ char.val.toNat ≤ 0x7FF := by omega
  have low''' : ¬ char.val.toNat ≤ 0xFFFF := by omega
  have front : char.val.toNat / 262144 % 0x08 = char.toNat / 262144 := by omega
  simp only [encodeChar, String.utf8EncodeChar, if_neg low', if_neg low'', if_neg low''', front]
  simp only [continuation, Nat.pow_zero, Nat.pow_one, Nat.div_one, Nat.reducePow]
  rfl

theorem toNat_ofNat (value : Nat) (valid : value.isValidChar) : (Char.ofNat value).toNat = value := by
  rw [Char.ofNat, dif_pos valid]
  rfl

theorem encodeChar_ascii {octet : UInt8} (small : octet < 0x80) :
    encodeChar (Char.ofNat octet.toNat) = [octet] := by
  have small' : octet.toNat < 0x80 := small
  have char := toNat_ofNat octet.toNat (.inl (by omega))
  rw [encodeChar_one (by omega), char, UInt8.ofNat_toNat]

abbrev readAll (reader : Reader) (octets : List UInt8) : Except Utf8Error Reader :=
  octets.foldlM Reader.step reader

theorem readAll_append (reader : Reader) (front back : List UInt8) :
    readAll reader (front ++ back) = (readAll reader front).bind (readAll · back) :=
  List.foldlM_append

theorem toNat_octet {value : Nat} (small : value < 256) : (UInt8.ofNat value).toNat = value := by
  rw [UInt8.toNat_ofNat']
  omega

theorem step_continuation {value due : Nat} {chars : List Char} {index read low high bits : Nat}
    (front : value / 64 ^ (due + 1) = bits)
    (inside : low ≤ value / 64 ^ due % 64 + 0x80 ∧ value / 64 ^ due % 64 + 0x80 ≤ high) :
    Reader.step ⟨chars, index, some ⟨read, due + 1, low, high, bits⟩⟩
        (UInt8.ofNat (value / 64 ^ due % 64 + 0x80)) =
      if due = 0 then .ok ⟨Char.ofNat value :: chars, index + read + 1, none⟩
      else .ok ⟨chars, index, some ⟨read + 1, due, 0x80, 0xBF, value / 64 ^ due⟩⟩ := by
  have octet : (UInt8.ofNat (value / 64 ^ due % 64 + 0x80)).toNat =
      value / 64 ^ due % 64 + 0x80 := toNat_octet (by omega)
  have further : bits * 64 + (value / 64 ^ due % 64 + 0x80 - 0x80) = value / 64 ^ due := by
    rw [← front, Nat.pow_succ, ← Nat.div_div_eq_div_mul]
    omega
  simp only [Reader.step, octet, if_pos inside, further]
  cases due with
  | zero => simp
  | succ due => simp

theorem readAll_continuation (value due : Nat) {chars : List Char}
    {index read low high bits : Nat} (front : value / 64 ^ (due + 1) = bits)
    (inside : low ≤ value / 64 ^ due % 64 + 0x80 ∧ value / 64 ^ due % 64 + 0x80 ≤ high) :
    readAll ⟨chars, index, some ⟨read, due + 1, low, high, bits⟩⟩ (continuation value (due + 1)) =
      .ok ⟨Char.ofNat value :: chars, index + read + due + 1, none⟩ := by
  induction due generalizing read low high bits with
  | zero =>
    rw [continuation, readAll, List.foldlM_cons, step_continuation front inside]
    rfl
  | succ due ih =>
    have rest : readAll ⟨chars, index, some ⟨read + 1, due + 1, 0x80, 0xBF, value / 64 ^ (due + 1)⟩⟩
        (continuation value (due + 1)) = _ :=
      ih rfl (by omega)
    rw [continuation, readAll, List.foldlM_cons, step_continuation front inside, if_neg (by omega)]
    simp only [bind, Except.bind, rest]
    congr 2
    omega

theorem lead?_two : ∀ front < 0x20, 2 ≤ front →
    Partial.lead? (front + 0xC0) = some ⟨1, 1, 0x80, 0xBF, front⟩ := by
  decide

theorem lead?_three : ∀ front < 0x10, Partial.lead? (front + 0xE0) =
    some ⟨1, 2, if front = 0 then 0xA0 else 0x80, if front = 0xD then 0x9F else 0xBF, front⟩ := by
  decide

theorem lead?_four : ∀ front < 5, Partial.lead? (front + 0xF0) =
    some ⟨1, 3, if front = 0 then 0x90 else 0x80, if front = 4 then 0x8F else 0xBF, front⟩ := by
  decide

theorem step_lead {chars : List Char} {index octet : Nat} {lead : Partial}
    (low : 0x80 ≤ octet) (high : octet < 256) (leads : Partial.lead? octet = some lead) :
    Reader.step ⟨chars, index, none⟩ (UInt8.ofNat octet) = .ok ⟨chars, index, some lead⟩ := by
  simp only [Reader.step, toNat_octet high, if_neg (show ¬ octet < 0x80 by omega), leads]

theorem readAll_encodeChar (char : Char) (chars : List Char) (index : Nat) :
    readAll ⟨chars, index, none⟩ (encodeChar char) =
      .ok ⟨char :: chars, index + (encodeChar char).length, none⟩ := by
  have valid : char.toNat < 0xD800 ∨ 0xDFFF < char.toNat ∧ char.toNat < 0x110000 := char.valid
  rcases Nat.lt_or_ge char.toNat 0x80 with small | large
  · rw [encodeChar_one (by omega)]
    simp only [readAll, List.foldlM_cons, Reader.step, toNat_octet (show char.toNat < 256 by omega),
      if_pos small, Char.ofNat_toNat]
    rfl
  rcases Nat.lt_or_ge char.toNat 0x800 with small | large
  · rw [encodeChar_two (by omega) (by omega), readAll, List.foldlM_cons,
      step_lead (by omega) (by omega) (lead?_two (char.toNat / 64) (by omega) (by omega))]
    refine (readAll_continuation char.toNat 0 rfl ?_).trans ?_
    · omega
    · rw [Char.ofNat_toNat]
      rfl
  rcases Nat.lt_or_ge char.toNat 0x10000 with small | large
  · rw [encodeChar_three (by omega) (by omega), readAll, List.foldlM_cons,
      step_lead (by omega) (by omega) (lead?_three (char.toNat / 4096) (by omega))]
    refine (readAll_continuation char.toNat 1 rfl ?_).trans ?_
    · split <;> split <;> omega
    · rw [Char.ofNat_toNat]
      rfl
  · rw [encodeChar_four (by omega), readAll, List.foldlM_cons,
      step_lead (by omega) (by omega) (lead?_four (char.toNat / 262144) (by omega))]
    refine (readAll_continuation char.toNat 2 rfl ?_).trans ?_
    · split <;> split <;> omega
    · rw [Char.ofNat_toNat]
      rfl

theorem readAll_encode (text : List Char) (chars : List Char) (index : Nat) :
    readAll ⟨chars, index, none⟩ (encode text) =
      .ok ⟨text.reverse ++ chars, index + (encode text).length, none⟩ := by
  induction text generalizing chars index with
  | nil => rfl
  | cons char rest ih =>
    rw [encode_cons, readAll_append, readAll_encodeChar]
    simp only [Except.bind, ih, List.reverse_cons, List.append_assoc, List.length_append,
      Nat.add_assoc]
    rfl

/-- Encoded characters are decoded to themselves. -/
theorem decode_encode (chars : List Char) : decode (encode chars) = .ok chars := by
  have read := readAll_encode chars [] 0
  simp only [readAll] at read
  rw [decode, read]
  simp [bind, Except.bind, Reader.finish]

/-- The octets begin every character that the part admits. -/
structure Partial.Begins (part : Partial) (octets : List UInt8) : Prop where
  due : 0 < part.due
  low : 0x80 ≤ part.low
  high : part.high ≤ 0xBF
  completes : ∀ value, value / 64 ^ part.due = part.bits →
    part.low ≤ value / 64 ^ (part.due - 1) % 64 + 0x80 →
    value / 64 ^ (part.due - 1) % 64 + 0x80 ≤ part.high →
    encodeChar (Char.ofNat value) = octets ++ continuation value part.due

/-- The octets that a reader has read spell the characters that it holds. -/
def Reader.Holds (reader : Reader) (octets : List UInt8) : Prop :=
  match reader.current with
  | none => octets = encode reader.chars.reverse
  | some part => ∃ front, octets = encode reader.chars.reverse ++ front ∧ part.Begins front

theorem begins_lead {octet : UInt8} {lead : Partial}
    (leads : Partial.lead? octet.toNat = some lead) : lead.Begins [octet] := by
  have back : UInt8.ofNat octet.toNat = octet := UInt8.ofNat_toNat
  have two (front value : Nat) (octet' : octet.toNat = front + 0xC0) (bits : value / 64 = front)
      (low : 2 ≤ front) (high : front < 0x20) :
      encodeChar (Char.ofNat value) = [octet] ++ continuation value 1 := by
    have char := toNat_ofNat value (.inl (by omega))
    rw [encodeChar_two (by omega) (by omega), char, bits, ← octet', back]
    rfl
  have three (front value : Nat) (octet' : octet.toNat = front + 0xE0)
      (bits : value / 4096 = front) (low : 0x800 ≤ value) (high : value ≤ 0xFFFF)
      (valid : value < 0xD800 ∨ 0xDFFF < value) :
      encodeChar (Char.ofNat value) = [octet] ++ continuation value 2 := by
    have char := toNat_ofNat value (by
      rcases valid with below | above
      · exact .inl below
      · exact .inr ⟨above, by omega⟩)
    rw [encodeChar_three (by omega) (by omega), char, bits, ← octet', back]
    rfl
  have four (front value : Nat) (octet' : octet.toNat = front + 0xF0)
      (bits : value / 262144 = front) (low : 0xFFFF < value) (high : value < 0x110000) :
      encodeChar (Char.ofNat value) = [octet] ++ continuation value 3 := by
    have char := toNat_ofNat value (.inr ⟨by omega, by omega⟩)
    rw [encodeChar_four (by omega), char, bits, ← octet', back]
    rfl
  revert leads
  unfold Partial.lead?
  repeat' split
  all_goals
    intro leads
    cases leads
  all_goals
    refine ⟨by simp, by simp, by simp, fun value bits low high => ?_⟩
    simp only [Nat.reducePow, Nat.reduceSub, Nat.pow_zero, Nat.pow_one, Nat.div_one] at bits low high
  · exact two (octet.toNat - 0xC0) value (by omega) bits (by omega) (by omega)
  · exact three 0 value (by omega) bits (by omega) (by omega) (by omega)
  · exact three 0xD value (by omega) bits (by omega) (by omega) (by omega)
  · exact three (octet.toNat - 0xE0) value (by omega) bits (by omega) (by omega) (by omega)
  · exact four 0 value (by omega) bits (by omega) (by omega)
  · exact four (octet.toNat - 0xF0) value (by omega) bits (by omega) (by omega)
  · exact four 4 value (by omega) bits (by omega) (by omega)

theorem holds_step {reader later : Reader} {octets : List UInt8} {octet : UInt8}
    (holds : reader.Holds octets) (stepped : reader.step octet = .ok later) :
    later.Holds (octets ++ [octet]) := by
  obtain ⟨chars, index, current⟩ := reader
  have back : UInt8.ofNat octet.toNat = octet := UInt8.ofNat_toNat
  cases current with
  | none =>
    have held : octets = encode chars.reverse := holds
    simp only [Reader.step] at stepped
    split at stepped
    · rename_i small
      cases stepped
      have octet' : encodeChar (Char.ofNat octet.toNat) = [octet] := encodeChar_ascii small
      simp only [Reader.Holds, List.reverse_cons, encode_append, encode_cons, encode_nil, octet',
        held, List.append_nil]
    · split at stepped
      · rename_i lead leads
        cases stepped
        exact ⟨[octet], by rw [held], begins_lead leads⟩
      · cases stepped
  | some part =>
    obtain ⟨front, held, begins⟩ := holds
    obtain ⟨read, due, low, high, bits⟩ := part
    obtain ⟨some, lowest, highest, completes⟩ := begins
    cases due with
    | zero => exact absurd some (Nat.lt_irrefl 0)
    | succ due =>
      simp only [Nat.add_sub_cancel] at completes lowest highest
      simp only [Reader.step] at stepped
      split at stepped
      · rename_i inside
        -- the six bits of the octet are the next ones of every scalar value that begins as those
        -- that were read
        have octet' (value : Nat) (further : value / 64 ^ due = bits * 64 + (octet.toNat - 0x80)) :
            value / 64 ^ (due + 1) = bits ∧ value / 64 ^ due % 64 + 0x80 = octet.toNat := by
          rw [Nat.pow_succ, ← Nat.div_div_eq_div_mul]
          omega
        split at stepped
        · have last : due = 0 := by omega
          subst last
          cases stepped
          have further : (bits * 64 + (octet.toNat - 0x80)) / 64 ^ 0 =
              bits * 64 + (octet.toNat - 0x80) := Nat.div_one _
          obtain ⟨above, here⟩ := octet' _ further
          have char := completes _ above (by omega) (by omega)
          simp only [continuation, here, back] at char
          simp only [Reader.Holds, List.reverse_cons, encode_append, encode_cons, encode_nil, char,
            held, List.append_nil, List.append_assoc]
        · cases stepped
          refine ⟨front ++ [octet], by rw [held, List.append_assoc], by simp only; omega,
            Nat.le_refl _, Nat.le_refl _, fun value further low' high' => ?_⟩
          simp only [Nat.add_sub_cancel] at further ⊢
          obtain ⟨above, here⟩ := octet' value further
          rw [completes value above (by omega) (by omega), continuation, here, back]
          simp
      · cases stepped

theorem encode_of_decode {octets : List UInt8} {chars : List Char}
    (decoded : decode octets = .ok chars) : octets = encode chars := by
  have run (octets : List UInt8) {reader later : Reader} {before : List UInt8}
      (holds : reader.Holds before) (read : readAll reader octets = .ok later) :
      later.Holds (before ++ octets) := by
    induction octets generalizing reader before with
    | nil =>
      cases read
      rw [List.append_nil]
      exact holds
    | cons octet rest ih =>
      rw [readAll, List.foldlM_cons] at read
      rcases stepped : reader.step octet with error | next
      · rw [stepped] at read
        cases read
      · rw [stepped] at read
        have after := ih (holds_step holds stepped) read
        rwa [List.append_assoc] at after
  rw [decode] at decoded
  rcases read : readAll {} octets with error | later
  · rw [readAll] at read
    rw [read] at decoded
    cases decoded
  · have start : Reader.Holds {} [] := rfl
    have holds := run octets start read
    rw [readAll] at read
    rw [read] at decoded
    obtain ⟨held, index, current⟩ := later
    cases current with
    | none =>
      cases decoded
      exact holds
    | some part => cases decoded

/-- Octets are decoded exactly if they spell characters. -/
theorem decode_eq_ok_iff (octets : List UInt8) (chars : List Char) :
    decode octets = .ok chars ↔ octets = encode chars := by
  constructor
  · exact encode_of_decode
  · rintro rfl
    exact decode_encode chars

theorem encode_injective {chars chars' : List Char} (same : encode chars = encode chars') :
    chars = chars' := by
  have decoded := decode_encode chars
  rw [same, decode_encode] at decoded
  exact (Except.ok.inj decoded).symm

theorem decodeString_eq_ok_iff (octets : List UInt8) (text : String) :
    decodeString octets = .ok text ↔ octets = encodeString text := by
  rw [decodeString, encodeString, ← decode_eq_ok_iff]
  rcases decode octets with error | chars
  · simp [Except.map]
  · simp only [Except.map, Except.ok.injEq]
    constructor
    · rintro rfl
      exact String.toList_ofList.symm
    · rintro rfl
      exact String.ofList_toList

theorem continuation_bounds {value due : Nat} {octet : UInt8}
    (among : octet ∈ continuation value due) : 0x80 ≤ octet ∧ octet < 0xC0 := by
  induction due with
  | zero => cases among
  | succ due ih =>
    rw [continuation, List.mem_cons] at among
    rcases among with rfl | among
    · have small : value / 64 ^ due % 64 + 0x80 < 256 := by omega
      have here := toNat_octet small
      constructor
      · exact show 0x80 ≤ (UInt8.ofNat (value / 64 ^ due % 64 + 0x80)).toNat by omega
      · exact show (UInt8.ofNat (value / 64 ^ due % 64 + 0x80)).toNat < 0xC0 by omega
    · exact ih among

/-- The first octet of a character tells that it is the first. -/
theorem encodeChar_cases (char : Char) :
    (char.toNat < 0x80 ∧ ∃ octet : UInt8, encodeChar char = [octet] ∧
        octet.toNat = char.toNat) ∨
      (0x80 ≤ char.toNat ∧ ∃ (lead : UInt8) (rest : List UInt8),
        encodeChar char = lead :: rest ∧ 0xC0 ≤ lead ∧
          ∀ octet ∈ rest, 0x80 ≤ octet ∧ octet < 0xC0) := by
  have valid : char.toNat < 0xD800 ∨ 0xDFFF < char.toNat ∧ char.toNat < 0x110000 := char.valid
  have lead (value : Nat) (low : 0xC0 ≤ value) (high : value < 256) :
      (0xC0 : UInt8) ≤ UInt8.ofNat value := by
    have here := toNat_octet high
    exact show 0xC0 ≤ (UInt8.ofNat value).toNat by omega
  rcases Nat.lt_or_ge char.toNat 0x80 with small | large
  · exact .inl ⟨small, _, encodeChar_one (by omega), toNat_octet (by omega)⟩
  rcases Nat.lt_or_ge char.toNat 0x800 with small | large
  · exact .inr ⟨by omega, _, _, encodeChar_two (by omega) (by omega),
      lead _ (by omega) (by omega), fun _ => continuation_bounds⟩
  rcases Nat.lt_or_ge char.toNat 0x10000 with small | large
  · exact .inr ⟨by omega, _, _, encodeChar_three (by omega) (by omega),
      lead _ (by omega) (by omega), fun _ => continuation_bounds⟩
  · exact .inr ⟨by omega, _, _, encodeChar_four (by omega), lead _ (by omega) (by omega),
      fun _ => continuation_bounds⟩

theorem chars_suffix {octets : List UInt8} {reader later : Reader}
    (read : readAll reader octets = .ok later) : ∃ added, later.chars = added ++ reader.chars := by
  induction octets generalizing reader with
  | nil =>
    cases read
    exact ⟨[], rfl⟩
  | cons octet rest ih =>
    rw [readAll, List.foldlM_cons] at read
    rcases stepped : reader.step octet with error | next
    · rw [stepped] at read
      cases read
    · rw [stepped] at read
      obtain ⟨added, chars⟩ := ih read
      have step : ∃ more, next.chars = more ++ reader.chars := by
        revert stepped
        unfold Reader.step
        dsimp only
        repeat' split
        all_goals
          intro stepped
          cases stepped
        all_goals first
          | exact ⟨[], rfl⟩
          | exact ⟨[_], rfl⟩
      obtain ⟨more, chars'⟩ := step
      exact ⟨added ++ more, by rw [chars, chars', List.append_assoc]⟩

theorem encodeChar_append_inj {char char' : Char} {rest : List UInt8} {chars : List Char}
    (same : encodeChar char ++ rest = encodeChar char' ++ encode chars) :
    char = char' ∧ rest = encode chars := by
  have whole := readAll_encode (char' :: chars) [] 0
  rw [encode_cons, ← same, readAll_append, readAll_encodeChar] at whole
  obtain ⟨added, read⟩ := chars_suffix whole
  have last : char = char' := by
    have last' := congrArg List.getLast? read
    simpa using last'.symm
  subst last
  exact ⟨rfl, List.append_cancel_left same⟩

end IncrementalJson.Utf8
