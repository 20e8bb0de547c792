import IncrementalJson.Proofs.Grammar.Syntax
import IncrementalJson.Proofs.Text.Utf8
import IncrementalJson.Scan

/-!
# Strings are read as the grammar spells them

`Unescapes` says in bytes what a lexer does between two quotes: plain bytes stand
for themselves, an escape stands for the encoding of a character.  The scan of a
string follows it to the closing quote.  If the octets of the string are UTF-8,
the bytes between its quotes are the text of string items, and conversely.
-/

set_option autoImplicit false

namespace IncrementalJson

open Ascii

/-! ## Characters and bytes of escapes -/

theorem encode_hexDigit (digit : HexDigit) :
    ∃ byte, Utf8.encodeChar digit.char = [byte] ∧ Escape.hexValue? byte = some digit.value.val := by
  have known : ∀ (value : Fin 16) (upper : Bool),
      let char := HexDigit.char ⟨value, upper⟩
      Utf8.encodeChar char = [UInt8.ofNat char.toNat] ∧
        Escape.hexValue? (UInt8.ofNat char.toNat) = some value.val := by
    decide
  exact ⟨_, known digit.value digit.upper⟩

theorem hexDigit_of_value {byte : UInt8} {value : Nat}
    (known : Escape.hexValue? byte = some value) :
    ∃ digit : HexDigit, Utf8.encodeChar digit.char = [byte] ∧ digit.value.val = value := by
  have spelled (digit : HexDigit) (small : byte < 0x80)
      (char : digit.char = Char.ofNat byte.toNat) : Utf8.encodeChar digit.char = [byte] := by
    rw [char, Utf8.encodeChar_ascii small]
  unfold Escape.hexValue? at known
  repeat' split at known
  · rename_i inside
    cases known
    have low : 0x30 ≤ byte.toNat := inside.1
    have high : byte.toNat ≤ 0x39 := inside.2
    refine ⟨⟨⟨byte.toNat - 0x30, by omega⟩, false⟩, spelled _ ?_ ?_, rfl⟩
    · exact show byte.toNat < 0x80 by omega
    · simp only [HexDigit.char]
      rw [if_pos (by omega)]
      congr 1
      omega
  · rename_i inside
    cases known
    have low : 0x61 ≤ byte.toNat := inside.1
    have high : byte.toNat ≤ 0x66 := inside.2
    refine ⟨⟨⟨byte.toNat - 0x61 + 10, by omega⟩, false⟩, spelled _ ?_ ?_, rfl⟩
    · exact show byte.toNat < 0x80 by omega
    · simp only [HexDigit.char]
      rw [if_neg (by omega), if_neg (by decide)]
      congr 1
      omega
  · rename_i inside
    cases known
    have low : 0x41 ≤ byte.toNat := inside.1
    have high : byte.toNat ≤ 0x46 := inside.2
    refine ⟨⟨⟨byte.toNat - 0x41 + 10, by omega⟩, true⟩, spelled _ ?_ ?_, rfl⟩
    · exact show byte.toNat < 0x80 by omega
    · simp only [HexDigit.char]
      rw [if_neg (by omega), if_pos trivial]
      congr 1
      omega
  · cases known

theorem unescape_letter (escape : ShortEscape) :
    ∃ byte octet, Utf8.encodeChar escape.letter = [byte] ∧ Utf8.encodeChar escape.char = [octet] ∧
      Escape.unescape? byte = some octet ∧ byte ≠ lowerU := by
  cases escape
  all_goals exact ⟨_, _, rfl, rfl, rfl, by decide⟩

theorem shortEscape_of_letter {byte octet : UInt8} (known : Escape.unescape? byte = some octet) :
    ∃ escape : ShortEscape, Utf8.encodeChar escape.letter = [byte] ∧
      Utf8.encodeChar escape.char = [octet] := by
  unfold Escape.unescape? at known
  repeat' split at known
  all_goals cases known
  all_goals subst byte
  · exact ⟨.quote, rfl, rfl⟩
  · exact ⟨.backslash, rfl, rfl⟩
  · exact ⟨.slash, rfl, rfl⟩
  · exact ⟨.backspace, rfl, rfl⟩
  · exact ⟨.formFeed, rfl, rfl⟩
  · exact ⟨.lineFeed, rfl, rfl⟩
  · exact ⟨.carriageReturn, rfl, rfl⟩
  · exact ⟨.tab, rfl, rfl⟩

/-! ## Scanning without offsets -/

namespace StringLexer

/-- The octets that a lexer adds up to the closing quote, and the bytes behind it. -/
def contents? : StringLexer → List UInt8 → Option (List UInt8 × List UInt8)
  | _, [] => none
  | lexer, byte :: rest =>
    match lexer.step byte 0 with
    | .ok .plain => (contents? lexer rest).map fun (octets, rest) => (byte :: octets, rest)
    | .ok (.more lexer added) =>
      (contents? lexer rest).map fun (octets, rest) => (added ++ octets, rest)
    | .ok .closed => some ([], rest)
    | .error _ => none

theorem step_offset (lexer : StringLexer) (byte : UInt8) (offset : Nat) :
    (lexer.step byte offset).toOption = (lexer.step byte 0).toOption := by
  obtain ⟨part, pending⟩ := lexer
  cases part with
  | body =>
    simp only [step]
    repeat' split
    all_goals rfl
  | escape | unicode => rfl

theorem contents?_of_scanBytes {closed : Bool} {lexer : StringLexer}
    {octets run octets' tail : Array UInt8} {offset : Nat} {bytes : List UInt8} {input : Input}
    (scanned : lexer.scanBytes closed octets run offset bytes = .ok (.closed octets' tail input)) :
    input.closed = closed ∧ ∃ added, lexer.contents? bytes = some (added, input.bytes) ∧
      octets'.toList ++ tail.toList = octets.toList ++ run.toList ++ added := by
  induction bytes generalizing lexer octets run offset with
  | nil =>
    rw [scanBytes] at scanned
    split at scanned <;> cases scanned
  | cons byte rest ih =>
    have same := step_offset lexer byte offset
    rw [scanBytes] at scanned
    rw [contents?]
    rcases stepped : lexer.step byte offset with error | step
    · simp only [stepped] at scanned
      cases scanned
    · rw [stepped] at same
      rcases here : lexer.step byte 0 with error | step'
      · rw [here] at same
        cases same
      · rw [here] at same
        cases same
        simp only [stepped] at scanned
        cases step with
        | plain =>
          obtain ⟨closedEq, added, rest, total⟩ := ih scanned
          refine ⟨closedEq, byte :: added, by simp only [rest, Option.map_some], ?_⟩
          rw [total, Array.toList_push, List.append_assoc, List.append_assoc, List.append_assoc]
          rfl
        | more lexer bytes =>
          obtain ⟨closedEq, added, rest, total⟩ := ih scanned
          refine ⟨closedEq, bytes ++ added, by simp only [rest, Option.map_some], ?_⟩
          simpa using total
        | closed =>
          cases scanned
          exact ⟨rfl, [], rfl, (List.append_nil _).symm⟩

theorem scanBytes_not_pending {lexer later : StringLexer} {octets run octets' : Array UInt8}
    {offset : Nat} {bytes : List UInt8} {input : Input} :
    lexer.scanBytes true octets run offset bytes ≠ .ok (.pending later octets' input) := by
  induction bytes generalizing lexer octets run offset with
  | nil => nofun
  | cons byte rest ih =>
    rw [scanBytes]
    cases lexer.step byte offset with
    | error error => nofun
    | ok step =>
      cases step with
      | plain => exact ih
      | more lexer added => exact ih
      | closed => nofun

theorem scanBytes_of_contents? (closed : Bool) {lexer : StringLexer}
    (octets run : Array UInt8) (offset : Nat) {bytes added rest : List UInt8}
    (contents : lexer.contents? bytes = some (added, rest)) :
    ∃ octets' tail offset', lexer.scanBytes closed octets run offset bytes =
        .ok (.closed octets' tail ⟨rest, offset', closed⟩) ∧
      octets'.toList ++ tail.toList = octets.toList ++ run.toList ++ added := by
  induction bytes generalizing lexer octets run offset added with
  | nil => cases contents
  | cons byte more ih =>
    have same := step_offset lexer byte offset
    rw [contents?] at contents
    rw [scanBytes]
    rcases here : lexer.step byte 0 with error | step'
    · simp only [here] at contents
      cases contents
    · rw [here] at same
      rcases stepped : lexer.step byte offset with error | step
      · rw [stepped] at same
        cases same
      · rw [stepped] at same
        cases same
        simp only [here] at contents
        cases step' with
        | plain =>
          cases found : lexer.contents? more with
          | none =>
            rw [found] at contents
            cases contents
          | some pair =>
            rw [found] at contents
            cases contents
            obtain ⟨octets', tail, offset', scanned, total⟩ :=
              ih octets (run.push byte) (offset + 1) found
            refine ⟨octets', tail, offset', scanned, ?_⟩
            rw [total, Array.toList_push, List.append_assoc, List.append_assoc, List.append_assoc]
            rfl
        | more lexer bytes =>
          cases found : lexer.contents? more with
          | none =>
            simp only [found] at contents
            cases contents
          | some pair =>
            simp only [found] at contents
            cases contents
            obtain ⟨octets', tail, offset', scanned, total⟩ :=
              ih (octets ++ run ++ bytes) #[] (offset + 1) found
            refine ⟨octets', tail, offset', scanned, ?_⟩
            simpa using total
        | closed =>
          cases contents
          exact ⟨_, _, _, rfl, (List.append_nil _).symm⟩

theorem contents?_silent {lexer later : StringLexer} {byte : UInt8}
    (stepped : lexer.step byte 0 = .ok (.more later [])) (rest : List UInt8) :
    lexer.contents? (byte :: rest) = later.contents? rest := by
  simp only [contents?, stepped]
  cases later.contents? rest <;> rfl

theorem step_backslash (pending : Option Nat) :
    step ⟨.body, pending⟩ 0x5C 0 = .ok (.more ⟨.escape, pending⟩ []) :=
  rfl

theorem step_lowerU (pending : Option Nat) :
    step ⟨.escape, pending⟩ 0x75 0 = .ok (.more ⟨.unicode 0 0, pending⟩ []) :=
  rfl

theorem step_digit {pending : Option Nat} {count value digit : Nat} {byte : UInt8}
    (known : Escape.hexValue? byte = some digit) (more : count < 3) :
    step ⟨.unicode count value, pending⟩ byte 0 =
      .ok (.more ⟨.unicode (count + 1) (value * 16 + digit), pending⟩ []) := by
  simp only [step, known, if_pos more]

theorem contents?_short (escape : ShortEscape) (rest : List UInt8) :
    contents? {} (Utf8.encode (StringItem.short escape).text ++ rest) =
      (contents? {} rest).map fun (octets, rest) =>
        (Utf8.encodeChar escape.char ++ octets, rest) := by
  obtain ⟨byte, octet, letter, char, known, notUnicode⟩ := unescape_letter escape
  have bytes : Utf8.encode (StringItem.short escape).text ++ rest = 0x5C :: byte :: rest := by
    simp only [StringItem.text, Utf8.encode_cons, letter]
    rfl
  rw [bytes, contents?_silent (step_backslash none), contents?, char]
  simp [step, notUnicode, known]

theorem takeUnit_cases (pending : Option Nat) (unit : Nat) :
    (∃ lexer added, takeUnit pending unit = .ok (.more lexer added)) ∨
      ∃ error, takeUnit pending unit = .error error := by
  unfold takeUnit
  repeat' split
  all_goals first
    | exact .inl ⟨_, _, rfl⟩
    | exact .inr ⟨_, rfl⟩

theorem contents?_digits (pending : Option Nat) (first second third fourth : HexDigit)
    (rest : List UInt8) :
    contents? ⟨.body, pending⟩
        (Utf8.encode (StringItem.unit first second third fourth).text ++ rest) =
      match takeUnit pending (StringItem.unitValue first second third fourth) with
      | .ok (.more lexer added) =>
        (contents? lexer rest).map fun (octets, rest) => (added ++ octets, rest)
      | .ok .plain | .ok .closed | .error _ => none := by
  obtain ⟨byte₁, spelled₁, known₁⟩ := encode_hexDigit first
  obtain ⟨byte₂, spelled₂, known₂⟩ := encode_hexDigit second
  obtain ⟨byte₃, spelled₃, known₃⟩ := encode_hexDigit third
  obtain ⟨byte₄, spelled₄, known₄⟩ := encode_hexDigit fourth
  have bytes : Utf8.encode (StringItem.unit first second third fourth).text ++ rest =
      0x5C :: 0x75 :: byte₁ :: byte₂ :: byte₃ :: byte₄ :: rest := by
    simp only [StringItem.text, Utf8.encode_cons, spelled₁, spelled₂, spelled₃, spelled₄]
    rfl
  have last (value : Nat) : step ⟨.unicode 3 value, pending⟩ byte₄ 0 =
      takeUnit pending (value * 16 + fourth.value.val) := by
    simp only [step, known₄, Nat.lt_irrefl, if_false, if_true]
  rw [bytes, contents?_silent (step_backslash pending), contents?_silent (step_lowerU pending),
    contents?_silent (step_digit known₁ (by omega)),
    contents?_silent (step_digit known₂ (by omega)),
    contents?_silent (step_digit known₃ (by omega)), contents?, last]
  simp only [StringItem.unitValue, Nat.zero_mul, Nat.zero_add]
  rcases takeUnit_cases pending (((first.value.val * 16 + second.value.val) * 16 +
    third.value.val) * 16 + fourth.value.val) with ⟨lexer, added, taken⟩ | ⟨error, taken⟩
  · simp only [taken]
  · simp only [taken]

theorem digit_of_contents? {pending : Option Nat} {count value : Nat} {bytes : List UInt8}
    {result : List UInt8 × List UInt8}
    (contents : contents? ⟨.unicode count value, pending⟩ bytes = some result) :
    ∃ (digit : HexDigit) (byte : UInt8) (rest : List UInt8), bytes = byte :: rest ∧
      Utf8.encodeChar digit.char = [byte] ∧ Escape.hexValue? byte = some digit.value.val := by
  cases bytes with
  | nil => cases contents
  | cons byte rest =>
    simp only [contents?, step] at contents
    cases known : Escape.hexValue? byte with
    | none =>
      rw [known] at contents
      cases contents
    | some value =>
      obtain ⟨digit, spelled, rfl⟩ := hexDigit_of_value known
      exact ⟨digit, byte, rest, rfl, spelled, known⟩

theorem digits_of_contents? {pending : Option Nat} {bytes : List UInt8}
    {result : List UInt8 × List UInt8}
    (contents : contents? ⟨.unicode 0 0, pending⟩ bytes = some result) :
    ∃ first second third fourth rest, (0x5C :: 0x75 :: bytes : List UInt8) =
      Utf8.encode (StringItem.unit first second third fourth).text ++ rest := by
  obtain ⟨first, byte₁, rest, rfl, spelled₁, known₁⟩ := digit_of_contents? contents
  rw [contents?_silent (step_digit known₁ (by omega))] at contents
  obtain ⟨second, byte₂, rest, rfl, spelled₂, known₂⟩ := digit_of_contents? contents
  rw [contents?_silent (step_digit known₂ (by omega))] at contents
  obtain ⟨third, byte₃, rest, rfl, spelled₃, known₃⟩ := digit_of_contents? contents
  rw [contents?_silent (step_digit known₃ (by omega))] at contents
  obtain ⟨fourth, byte₄, rest, rfl, spelled₄, known₄⟩ := digit_of_contents? contents
  refine ⟨first, second, third, fourth, rest, ?_⟩
  simp only [StringItem.text, Utf8.encode_cons, spelled₁, spelled₂, spelled₃, spelled₄]
  rfl

/-- Behind a backslash stands a letter or, in a string that ends, a unicode escape. -/
theorem escape_of_contents? {pending : Option Nat} {bytes : List UInt8}
    {result : List UInt8 × List UInt8}
    (contents : contents? ⟨.body, pending⟩ (0x5C :: bytes) = some result) :
    (pending = none ∧ ∃ escape rest, (0x5C :: bytes : List UInt8) =
        Utf8.encode (StringItem.short escape).text ++ rest) ∨
      ∃ first second third fourth rest, (0x5C :: bytes : List UInt8) =
        Utf8.encode (StringItem.unit first second third fourth).text ++ rest := by
  rw [contents?_silent (step_backslash pending)] at contents
  cases bytes with
  | nil => cases contents
  | cons byte rest =>
    by_cases unicode : byte = 0x75
    · subst unicode
      rw [contents?_silent (step_lowerU pending)] at contents
      exact .inr (digits_of_contents? contents)
    · simp only [contents?, step, if_neg unicode] at contents
      cases pending with
      | some high => cases contents
      | none =>
        simp only [Option.isSome_none, Bool.false_eq_true, if_false] at contents
        cases known : Escape.unescape? byte with
        | none =>
          rw [known] at contents
          cases contents
        | some octet =>
          obtain ⟨escape, letter, -⟩ := shortEscape_of_letter known
          refine .inl ⟨rfl, escape, rest, ?_⟩
          simp only [StringItem.text, Utf8.encode_cons, letter]
          rfl

end StringLexer

/-! ## Strings in bytes -/

/-- An escape, or two that make up a surrogate pair, and the character that is meant. -/
inductive IsEscape : List StringItem → Char → Prop where
  | short (escape : ShortEscape) : IsEscape [.short escape] escape.char
  | unit {first second third fourth : HexDigit}
      (notLeading : isLeading (StringItem.unitValue first second third fourth) = false)
      (notTrailing : isTrailing (StringItem.unitValue first second third fourth) = false) :
      IsEscape [.unit first second third fourth]
        (Char.ofNat (StringItem.unitValue first second third fourth))
  | pair {first second third fourth first' second' third' fourth' : HexDigit}
      (leading : isLeading (StringItem.unitValue first second third fourth))
      (trailing : isTrailing (StringItem.unitValue first' second' third' fourth')) :
      IsEscape [.unit first second third fourth, .unit first' second' third' fourth']
        (pairedChar (StringItem.unitValue first second third fourth)
          (StringItem.unitValue first' second' third' fourth'))

/-- The bytes between two quotes, and the octets that they stand for. -/
inductive Unescapes : List UInt8 → List UInt8 → Prop where
  | nil : Unescapes [] []
  | plain {byte : UInt8} {text octets : List UInt8}
      (unescaped : ¬ byte < 0x20 ∧ byte ≠ Ascii.quote ∧ byte ≠ Ascii.backslash)
      (rest : Unescapes text octets) : Unescapes (byte :: text) (byte :: octets)
  | escape {items : List StringItem} {char : Char} {text octets : List UInt8}
      (spelled : IsEscape items char) (rest : Unescapes text octets) :
      Unescapes (Utf8.encode (items.flatMap StringItem.text) ++ text)
        (Utf8.encodeChar char ++ octets)

namespace StringLexer

theorem takeUnit_leading {unit : Nat} (leading : isLeading unit) :
    takeUnit none unit = .ok (.more ⟨.body, some unit⟩ []) := by
  simp only [takeUnit, show Escape.isHighSurrogate unit = true from leading, if_true]

theorem takeUnit_single {unit : Nat} (notLeading : isLeading unit = false)
    (notTrailing : isTrailing unit = false) :
    takeUnit none unit = .ok (.more {} (Utf8.encodeChar (Char.ofNat unit))) := by
  simp only [takeUnit, show Escape.isHighSurrogate unit = false from notLeading,
    show Escape.isLowSurrogate unit = false from notTrailing, Bool.false_eq_true, if_false]

theorem takeUnit_trailing {leading unit : Nat} (trailing : isTrailing unit) :
    takeUnit (some leading) unit = .ok (.more {} (Utf8.encodeChar (pairedChar leading unit))) := by
  simp only [takeUnit, show Escape.isLowSurrogate unit = true from trailing, if_true]
  rfl

theorem contents?_escape {items : List StringItem} {char : Char} (spelled : IsEscape items char)
    (rest : List UInt8) :
    contents? {} (Utf8.encode (items.flatMap StringItem.text) ++ rest) =
      (contents? {} rest).map fun (octets, rest) => (Utf8.encodeChar char ++ octets, rest) := by
  cases spelled with
  | short escape =>
    simp only [List.flatMap_cons, List.flatMap_nil, List.append_nil]
    exact contents?_short escape rest
  | unit notLeading notTrailing =>
    simp only [List.flatMap_cons, List.flatMap_nil, List.append_nil]
    rw [contents?_digits, takeUnit_single notLeading notTrailing]
  | pair leading trailing =>
    simp only [List.flatMap_cons, List.flatMap_nil, List.append_nil, Utf8.encode_append,
      List.append_assoc]
    rw [contents?_digits, takeUnit_leading leading]
    simp only [List.nil_append, Option.map_id']
    rw [contents?_digits, takeUnit_trailing trailing]

theorem contents?_of_unescapes {text octets : List UInt8} (unescapes : Unescapes text octets)
    (rest : List UInt8) : contents? {} (text ++ Ascii.quote :: rest) = some (octets, rest) := by
  induction unescapes with
  | nil => rfl
  | plain unescaped _ ih =>
    obtain ⟨notControl, notQuote, notBackslash⟩ := unescaped
    simp only [List.cons_append, contents?, step, if_neg notControl, if_neg notQuote,
      if_neg notBackslash, Option.isSome_none, Bool.false_eq_true, if_false, ih, Option.map_some]
  | escape spelled _ ih =>
    rw [List.append_assoc, contents?_escape spelled, ih]
    rfl

theorem trailing_of_contents? {leading : Nat} {bytes : List UInt8}
    {result : List UInt8 × List UInt8}
    (contents : contents? ⟨.body, some leading⟩ bytes = some result) :
    ∃ first second third fourth rest,
      bytes = Utf8.encode (StringItem.unit first second third fourth).text ++ rest ∧
        isTrailing (StringItem.unitValue first second third fourth) := by
  cases bytes with
  | nil => cases contents
  | cons byte more =>
    by_cases backslash : byte = 0x5C
    · subst backslash
      rcases escape_of_contents? contents with
        ⟨impossible, -⟩ | ⟨first, second, third, fourth, rest, spelled⟩
      · cases impossible
      · refine ⟨first, second, third, fourth, rest, spelled, ?_⟩
        rw [spelled, contents?_digits] at contents
        by_cases trailing : isTrailing (StringItem.unitValue first second third fourth)
        · exact trailing
        · simp only [takeUnit, show Escape.isLowSurrogate (StringItem.unitValue first second third
            fourth) = false from Bool.eq_false_iff.mpr trailing, Bool.false_eq_true,
            if_false] at contents
          cases contents
    · simp only [contents?, step, if_neg backslash, Option.isSome_some, if_true] at contents
      cases contents

theorem isEscape_of_contents? {bytes : List UInt8} {result : List UInt8 × List UInt8}
    (contents : contents? {} (0x5C :: bytes) = some result) :
    ∃ items char rest, IsEscape items char ∧
      (0x5C :: bytes : List UInt8) = Utf8.encode (items.flatMap StringItem.text) ++ rest := by
  rcases escape_of_contents? contents with
    ⟨-, escape, rest, spelled⟩ | ⟨first, second, third, fourth, rest, spelled⟩
  · exact ⟨[.short escape], escape.char, rest, .short escape, by simpa using spelled⟩
  · by_cases leading : isLeading (StringItem.unitValue first second third fourth)
    · rw [spelled, contents?_digits, takeUnit_leading leading] at contents
      cases further : contents? ⟨.body, some (StringItem.unitValue first second third fourth)⟩
          rest with
      | none =>
        simp only [further] at contents
        cases contents
      | some result' =>
        obtain ⟨first', second', third', fourth', rest', rfl, trailing⟩ :=
          trailing_of_contents? further
        exact ⟨_, _, rest', .pair leading trailing, by simpa using spelled⟩
    · by_cases trailing : isTrailing (StringItem.unitValue first second third fourth)
      · rw [spelled, contents?_digits] at contents
        simp only [takeUnit, show Escape.isHighSurrogate (StringItem.unitValue first second third
          fourth) = false from Bool.eq_false_iff.mpr leading, show Escape.isLowSurrogate
          (StringItem.unitValue first second third fourth) = true from trailing,
          Bool.false_eq_true, if_false, if_true] at contents
        cases contents
      · exact ⟨_, _, rest, .unit (Bool.eq_false_iff.mpr leading) (Bool.eq_false_iff.mpr trailing),
          by simpa using spelled⟩

theorem length_isEscape {items : List StringItem} {char : Char} (spelled : IsEscape items char) :
    0 < (Utf8.encode (items.flatMap StringItem.text)).length := by
  have backslash (rest : List Char) : 0 < (Utf8.encode ('\\' :: rest)).length := by
    rw [Utf8.encode_cons, List.length_append]
    exact Nat.lt_of_lt_of_le Nat.zero_lt_one (Nat.le_add_right _ _)
  cases spelled <;> exact backslash _

theorem unescapes_of_contents? {bytes octets rest : List UInt8}
    (contents : contents? {} bytes = some (octets, rest)) :
    ∃ text, Unescapes text octets ∧ bytes = text ++ Ascii.quote :: rest := by
  -- an escape takes several bytes at once: the induction is on how many there are
  induction size : bytes.length using Nat.strongRecOn generalizing bytes octets with
  | ind length ih =>
    cases bytes with
    | nil => cases contents
    | cons byte more =>
      by_cases backslash : byte = 0x5C
      · subst backslash
        obtain ⟨items, char, later, spelled, split⟩ := isEscape_of_contents? contents
        rw [split, contents?_escape spelled] at contents
        cases further : contents? {} later with
        | none =>
          rw [further] at contents
          cases contents
        | some result =>
          rw [further] at contents
          cases contents
          have shorter : later.length < length := by
            have positive := length_isEscape spelled
            rw [← size, split, List.length_append]
            omega
          obtain ⟨text, unescapes, ends⟩ := ih later.length shorter further rfl
          refine ⟨_, .escape spelled unescapes, ?_⟩
          rw [split, ends, List.append_assoc]
      · simp only [contents?, step, if_neg backslash, Option.isSome_none, Bool.false_eq_true,
          if_false] at contents
        by_cases quote : byte = Ascii.quote
        · rw [if_pos quote] at contents
          cases contents
          exact ⟨[], .nil, by rw [quote]; rfl⟩
        · by_cases control : byte < 0x20
          · rw [if_neg quote, if_pos control] at contents
            cases contents
          · rw [if_neg quote, if_neg control] at contents
            cases further : contents? {} more with
            | none =>
              simp only [further] at contents
              cases contents
            | some result =>
              simp only [further] at contents
              cases contents
              obtain ⟨text, unescapes, ends⟩ := ih more.length (by
                rw [← size, List.length_cons]
                omega) further rfl
              exact ⟨_, .plain ⟨control, quote, backslash⟩ unescapes, by rw [ends]; rfl⟩

end StringLexer

/-! ## Strings in characters -/

theorem isUnescaped_bytes {char : Char} (unescaped : isUnescaped char) {byte : UInt8}
    (among : byte ∈ Utf8.encodeChar char) :
    ¬ byte < 0x20 ∧ byte ≠ Ascii.quote ∧ byte ≠ Ascii.backslash := by
  simp only [isUnescaped, Bool.and_eq_true, decide_eq_true_eq, bne_iff_ne] at unescaped
  obtain ⟨⟨printable, notQuote⟩, notBackslash⟩ := unescaped
  rcases Utf8.encodeChar_cases char with
    ⟨-, octet, encoded, value⟩ | ⟨-, lead, rest, encoded, high, rest'⟩
  · rw [encoded, List.mem_singleton] at among
    subst among
    refine ⟨fun control => ?_, ?_, ?_⟩
    · have control' : byte.toNat < 0x20 := control
      omega
    · rintro rfl
      exact notQuote (Char.toNat_inj.mp value.symm)
    · rintro rfl
      exact notBackslash (Char.toNat_inj.mp value.symm)
  · have large : 0x80 ≤ byte := by
      rw [encoded, List.mem_cons] at among
      rcases among with rfl | among
      · exact UInt8.le_trans (by decide) high
      · exact (rest' byte among).1
    have large' : 0x80 ≤ byte.toNat := large
    refine ⟨fun control => ?_, ?_, ?_⟩
    · have control' : byte.toNat < 0x20 := control
      omega
    · rintro rfl
      exact absurd large (by decide)
    · rintro rfl
      exact absurd large (by decide)

theorem Unescapes.plainBytes {bytes text octets : List UInt8}
    (unescaped : ∀ byte ∈ bytes, ¬ byte < 0x20 ∧ byte ≠ Ascii.quote ∧ byte ≠ Ascii.backslash)
    (rest : Unescapes text octets) : Unescapes (bytes ++ text) (bytes ++ octets) := by
  induction bytes with
  | nil => exact rest
  | cons byte more ih =>
    exact .plain (unescaped byte List.mem_cons_self)
      (ih fun other among => unescaped other (List.mem_cons_of_mem _ among))

/-- A string whose surrogates are paired stands for the encoding of its characters. -/
theorem unescapes_of_items {items : List StringItem} (paired : surrogatesPaired items) :
    Unescapes (Utf8.encode (items.flatMap StringItem.text)) (Utf8.encode (unescape items)) := by
  induction size : items.length using Nat.strongRecOn generalizing items with
  | ind length ih =>
    cases items with
    | nil => exact .nil
    | cons item rest =>
      have shorter : rest.length < length := by
        rw [← size, List.length_cons]
        omega
      rw [List.flatMap_cons, Utf8.encode_append]
      cases item with
      | plain char unescaped =>
        have rest' := @ih rest.length shorter rest paired rfl
        simp only [StringItem.text, Utf8.encode_cons, Utf8.encode_nil, List.append_nil, unescape]
        exact .plainBytes (fun byte => isUnescaped_bytes unescaped) rest'
      | short escape =>
        have rest' := @ih rest.length shorter rest paired rfl
        have whole := Unescapes.escape (.short escape) rest'
        simpa [unescape] using whole
      | unit first second third fourth =>
        rw [surrogatesPaired.eq_def] at paired
        simp only [StringItem.unit?] at paired
        by_cases leading : isLeading (StringItem.unitValue first second third fourth)
        · rw [if_pos leading] at paired
          cases rest with
          | nil => cases paired
          | cons next rest =>
            cases next with
            | plain | short => cases paired
            | unit first' second' third' fourth' =>
              obtain ⟨trailing, paired⟩ := Bool.and_eq_true_iff.mp paired
              rw [List.length_cons] at shorter
              have rest' := @ih rest.length (by omega) rest paired rfl
              have whole := Unescapes.escape (.pair leading trailing) rest'
              simpa [unescape, leading, StringItem.unit?] using whole
        · rw [if_neg leading] at paired
          simp only [Bool.and_eq_true, Bool.not_eq_true'] at paired
          have rest' := @ih rest.length shorter rest paired.2 rfl
          have whole := Unescapes.escape (.unit (Bool.eq_false_iff.mpr leading) paired.1) rest'
          rw [unescape.eq_def]
          simpa [leading] using whole

theorem Unescapes.strip {rest octets text : List UInt8}
    (inner : ∀ octet ∈ rest, 0x80 ≤ octet ∧ octet < 0xC0)
    (unescapes : Unescapes text (rest ++ octets)) :
    ∃ text', text = rest ++ text' ∧ Unescapes text' octets := by
  induction rest generalizing text with
  | nil => exact ⟨text, rfl, unescapes⟩
  | cons octet more ih =>
    obtain ⟨low, high⟩ := inner octet List.mem_cons_self
    generalize total : octet :: more ++ octets = all at unescapes
    cases unescapes with
    | nil => cases total
    | plain unescaped later =>
      simp only [List.cons_append, List.cons.injEq] at total
      obtain ⟨rfl, rfl⟩ := total
      obtain ⟨text', rfl, later'⟩ :=
        ih (fun other among => inner other (List.mem_cons_of_mem _ among)) later
      exact ⟨text', rfl, later'⟩
    | @escape items char _ _ spelled later =>
      exfalso
      have low' : 0x80 ≤ octet.toNat := low
      have high' : octet.toNat < 0xC0 := high
      rcases Utf8.encodeChar_cases char with
        ⟨small, first, encoded, value⟩ | ⟨-, lead, rest, encoded, large, -⟩
      · simp only [encoded, List.cons_append, List.cons.injEq] at total
        obtain ⟨rfl, -⟩ := total
        omega
      · simp only [encoded, List.cons_append, List.cons.injEq] at total
        obtain ⟨rfl, -⟩ := total
        have large' : 0xC0 ≤ octet.toNat := large
        omega

theorem encodeChar_ne_nil (char : Char) : Utf8.encodeChar char ≠ [] := by
  rcases Utf8.encodeChar_cases char with ⟨-, octet, encoded, -⟩ | ⟨-, lead, rest, encoded, -⟩
  · rw [encoded]
    exact List.cons_ne_nil _ _
  · rw [encoded]
    exact List.cons_ne_nil _ _

/-- The other way round from `isUnescaped_bytes`: the first byte decides, since none of a character
that takes more of them has a meaning of its own. -/
theorem isUnescaped_of_byte {char : Char} {byte : UInt8} {rest : List UInt8}
    (encoded : Utf8.encodeChar char = byte :: rest)
    (unescaped : ¬ byte < 0x20 ∧ byte ≠ Ascii.quote ∧ byte ≠ Ascii.backslash) :
    isUnescaped char := by
  obtain ⟨notControl, notQuote, notBackslash⟩ := unescaped
  simp only [isUnescaped, Bool.and_eq_true, decide_eq_true_eq, bne_iff_ne]
  rcases Utf8.encodeChar_cases char with ⟨-, octet, encoded', value⟩ | ⟨large, -⟩
  · rw [encoded] at encoded'
    cases encoded'
    refine ⟨⟨?_, ?_⟩, ?_⟩
    · have notControl' : ¬ byte.toNat < 0x20 := notControl
      omega
    · rintro rfl
      exact notQuote (UInt8.toNat_inj.mp value)
    · rintro rfl
      exact notBackslash (UInt8.toNat_inj.mp value)
  · refine ⟨⟨by omega, ?_⟩, ?_⟩
    · rintro rfl
      exact absurd large (by decide)
    · rintro rfl
      exact absurd large (by decide)

theorem Unescapes.eq_nil {text : List UInt8} (unescapes : Unescapes text []) : text = [] := by
  generalize total : [] = octets at unescapes
  cases unescapes with
  | nil => rfl
  | plain => cases total
  | @escape _ char => exact absurd (List.append_eq_nil_iff.mp total.symm).1 (encodeChar_ne_nil char)

/-- The octets of a character come from the character itself, or from an escape that means it. -/
theorem Unescapes.first {char : Char} {octets text : List UInt8}
    (unescapes : Unescapes text (Utf8.encodeChar char ++ octets))
    (others : ∃ chars, octets = Utf8.encode chars) :
    ∃ items text', text = Utf8.encode (items.flatMap StringItem.text) ++ text' ∧
      Unescapes text' octets ∧
      ((∃ unescaped, items = [.plain char unescaped]) ∨ IsEscape items char) := by
  obtain ⟨chars, rfl⟩ := others
  generalize total : Utf8.encodeChar char ++ Utf8.encode chars = all at unescapes
  cases unescapes with
  | nil => exact absurd (List.append_eq_nil_iff.mp total).1 (encodeChar_ne_nil char)
  | @plain byte later _ unescaped later' =>
    obtain ⟨rest, encoded, inner⟩ : ∃ rest, Utf8.encodeChar char = byte :: rest ∧
        ∀ octet ∈ rest, 0x80 ≤ octet ∧ octet < 0xC0 := by
      rcases Utf8.encodeChar_cases char with
        ⟨-, octet, encoded, -⟩ | ⟨-, lead, rest, encoded, -, inner⟩
      · rw [encoded] at total
        cases total
        exact ⟨[], encoded, nofun⟩
      · rw [encoded] at total
        cases total
        exact ⟨rest, encoded, inner⟩
    rw [encoded] at total
    cases total
    obtain ⟨text', rfl, later''⟩ := Unescapes.strip inner later'
    refine ⟨[.plain char (isUnescaped_of_byte encoded unescaped)], text', ?_, later'', .inl ⟨_, rfl⟩⟩
    simp only [List.flatMap_cons, List.flatMap_nil, StringItem.text, List.append_nil,
      Utf8.encode_cons, Utf8.encode_nil, encoded, List.cons_append]
  | @escape items char' text' octets' spelled later' =>
    obtain ⟨rfl, rfl⟩ := Utf8.encodeChar_append_inj total.symm
    exact ⟨items, text', rfl, later', .inr spelled⟩

theorem IsEscape.append {front items : List StringItem} {char : Char} (spelled : IsEscape front char)
    (paired : surrogatesPaired items) :
    surrogatesPaired (front ++ items) ∧ unescape (front ++ items) = char :: unescape items := by
  cases spelled with
  | short => exact ⟨paired, by simp [unescape]⟩
  | unit notLeading notTrailing =>
    rw [List.singleton_append, surrogatesPaired.eq_def, unescape.eq_def]
    simp [StringItem.unit?, notLeading, notTrailing, paired]
  | pair leading trailing =>
    simp [surrogatesPaired, unescape, StringItem.unit?, leading, trailing, paired]

/-- If the octets of a string are the encoding of some characters, the bytes between its quotes
are the text of string items. -/
theorem items_of_unescapes {chars : List Char} {text : List UInt8}
    (unescapes : Unescapes text (Utf8.encode chars)) :
    ∃ items, text = Utf8.encode (items.flatMap StringItem.text) ∧ surrogatesPaired items ∧
      unescape items = chars := by
  induction chars generalizing text with
  | nil =>
    rw [unescapes.eq_nil]
    exact ⟨[], rfl, rfl, rfl⟩
  | cons char chars ih =>
    rw [Utf8.encode_cons] at unescapes
    obtain ⟨front, text', rfl, later, means⟩ := unescapes.first ⟨chars, rfl⟩
    obtain ⟨items, rfl, paired, stands⟩ := ih later
    refine ⟨front ++ items, by rw [List.flatMap_append, Utf8.encode_append], ?_⟩
    rcases means with ⟨unescaped, rfl⟩ | spelled
    · exact ⟨paired, by rw [List.singleton_append, unescape, stands]⟩
    · rw [← stands]
      exact spelled.append paired

/-- A string that is read to its end and is UTF-8 is spelled by string items. -/
theorem contents?_eq_some_iff (bytes rest : List UInt8) (chars : List Char) :
    StringLexer.contents? {} bytes = some (Utf8.encode chars, rest) ↔
      ∃ items, bytes = Utf8.encode (items.flatMap StringItem.text) ++ Ascii.quote :: rest ∧
        surrogatesPaired items ∧ unescape items = chars := by
  constructor
  · intro contents
    obtain ⟨text, unescapes, rfl⟩ := StringLexer.unescapes_of_contents? contents
    obtain ⟨items, rfl, paired, stands⟩ := items_of_unescapes unescapes
    exact ⟨items, rfl, paired, stands⟩
  · rintro ⟨items, rfl, paired, rfl⟩
    exact StringLexer.contents?_of_unescapes (unescapes_of_items paired) rest

end IncrementalJson
