import IncrementalJson.Proofs.Reading.Strings
import IncrementalJson.Proofs.Reading.Turns

/-!
# Strings are decoded from left to right

`decodeQuoted` says what stands between two quotes as one would read it aloud:
each escape as a whole, a pair of surrogates as one character, and the first
offence as the answer.  It knows no states and no chunks.  The machine, which
takes one byte at a time and sets runs of plain bytes aside, answers the same.
-/

set_option autoImplicit false

namespace IncrementalJson

open Ascii

/-! ## The reference -/

def shortEscapes : List ShortEscape :=
  [.quote, .backslash, .slash, .backspace, .formFeed, .lineFeed, .carriageReturn, .tab]

def escapedChar? (letter : UInt8) : Option Char :=
  (shortEscapes.find? fun escape => escape.letter.toNat = letter.toNat).map ShortEscape.char

def hexDigit? (byte : UInt8) : Option Nat :=
  "0123456789abcdef".toList.idxOf? (Char.ofNat byte.toNat).toLower

/-- The unit that so many hexadecimal digits spell behind those read before, and the bytes behind
them. -/
def spelledUnit : Nat → Nat → List UInt8 → Except ParseError (Nat × List UInt8)
  | 0, value, bytes => .ok (value, bytes)
  | _ + 1, _, [] => .error .endOfData
  | due + 1, value, byte :: rest =>
    match hexDigit? byte with
    | none => .error .invalidUnicodeHex
    | some digit => spelledUnit due (value * 16 + digit) rest

/-- The second half of a surrogate pair, which must be spelled by an escape at once. -/
def trailingUnit : List UInt8 → Except ParseError (Nat × List UInt8)
  | [] => .error .endOfData
  | byte :: rest =>
    if byte = backslash then
      match rest with
      | [] => .error .endOfData
      | letter :: rest =>
        if letter = lowerU then
          match spelledUnit 4 0 rest with
          | .error error => .error error
          | .ok (unit, rest) =>
            if isTrailing unit then .ok (unit, rest) else .error .invalidUnicodeCodepoint
        else .error .invalidUnicodeCodepoint
    else .error .invalidUnicodeCodepoint

/-- A string read to its closing quote: its octets, and the bytes behind the quote with the offset
of the first of them. -/
structure Quoted where
  octets : List UInt8
  rest : List UInt8
  offset : Nat
  deriving DecidableEq, Repr

def Quoted.lead (added : List UInt8) (quoted : Quoted) : Quoted :=
  { quoted with octets := added ++ quoted.octets }

theorem split_spelledUnit {due value unit : Nat} {bytes rest : List UInt8}
    (spelled : spelledUnit due value bytes = .ok (unit, rest)) :
    ∃ front, bytes = front ++ rest ∧ front.length = due := by
  induction due generalizing value bytes with
  | zero =>
    cases spelled
    exact ⟨[], rfl, rfl⟩
  | succ due ih =>
    cases bytes with
    | nil => cases spelled
    | cons byte bytes =>
      rw [spelledUnit] at spelled
      split at spelled
      · cases spelled
      · obtain ⟨front, rfl, length⟩ := ih spelled
        exact ⟨byte :: front, rfl, congrArg (· + 1) length⟩

theorem split_trailingUnit {unit : Nat} {bytes rest : List UInt8}
    (spelled : trailingUnit bytes = .ok (unit, rest)) :
    ∃ front, bytes = front ++ rest ∧ front.length = 6 := by
  unfold trailingUnit at spelled
  repeat' split at spelled
  all_goals cases spelled
  rename_i digits
  obtain ⟨front, rfl, length⟩ := split_spelledUnit digits
  exact ⟨_ :: _ :: front, rfl, congrArg (· + 2) length⟩

/-- The string that begins behind an opening quote. -/
def decodeQuoted (offset : Nat) : List UInt8 → Except ParseError Quoted
  | [] => .error .endOfData
  | byte :: rest =>
    if byte = quote then .ok ⟨[], rest, offset + 1⟩
    else if byte = backslash then
      match rest with
      | [] => .error .endOfData
      | letter :: rest =>
        if letter = lowerU then
          match spelled : spelledUnit 4 0 rest with
          | .error error => .error error
          | .ok (unit, rest) =>
            if isTrailing unit then .error .invalidUnicodeCodepoint
            else if isLeading unit then
              match paired : trailingUnit rest with
              | .error error => .error error
              | .ok (trailing, rest) =>
                (decodeQuoted (offset + 12) rest).map
                  (.lead (Utf8.encodeChar (pairedChar unit trailing)))
            else (decodeQuoted (offset + 6) rest).map (.lead (Utf8.encodeChar (Char.ofNat unit)))
        else
          match escapedChar? letter with
          | none => .error .invalidEscapeSequence
          | some char => (decodeQuoted (offset + 2) rest).map (.lead (Utf8.encodeChar char))
    else if byte < 0x20 then .error (.unescapedControlCharacter byte offset)
    else (decodeQuoted (offset + 1) rest).map (.lead [byte])
  termination_by bytes => bytes.length
  decreasing_by
    · obtain ⟨front, rfl, -⟩ := split_spelledUnit spelled
      obtain ⟨back, rfl, -⟩ := split_trailingUnit paired
      simp only [List.length_cons, List.length_append]
      omega
    · obtain ⟨front, rfl, -⟩ := split_spelledUnit spelled
      simp only [List.length_cons, List.length_append]
      omega
    · simp only [List.length_cons]
      omega
    · simp only [List.length_cons]
      omega

theorem Quoted.of_lead {added : List UInt8} {result : Except ParseError Quoted} {quoted : Quoted}
    (led : result.map (.lead added) = .ok quoted) :
    ∃ inner, result = .ok inner ∧ inner.rest = quoted.rest ∧ inner.offset = quoted.offset := by
  cases result with
  | error error => cases led
  | ok inner =>
    cases led
    exact ⟨inner, rfl, rfl, rfl⟩

theorem split_decodeQuoted {offset : Nat} {bytes : List UInt8} {quoted : Quoted}
    (decoded : decodeQuoted offset bytes = .ok quoted) :
    ∃ front, bytes = front ++ quoted.rest ∧ quoted.offset = offset + front.length := by
  fun_induction decodeQuoted offset bytes generalizing quoted with
  | case1 | case3 | case4 | case5 | case6 | case9 | case11 => cases decoded
  | case2 =>
    cases decoded
    exact ⟨[_], rfl, rfl⟩
  | case7 offset rest unit behind spelled _ _ trailing back paired _ ih =>
    obtain ⟨front, rfl, four⟩ := split_spelledUnit spelled
    obtain ⟨middle, rfl, six⟩ := split_trailingUnit paired
    obtain ⟨inner, here, same, same'⟩ := Quoted.of_lead decoded
    obtain ⟨front', rfl, total⟩ := ih here
    refine ⟨backslash :: lowerU :: (front ++ (middle ++ front')), by simp [same], ?_⟩
    simp only [← same', total, List.length_cons, List.length_append]
    omega
  | case8 offset rest unit behind spelled _ _ _ ih =>
    obtain ⟨front, rfl, four⟩ := split_spelledUnit spelled
    obtain ⟨inner, here, same, same'⟩ := Quoted.of_lead decoded
    obtain ⟨front', rfl, total⟩ := ih here
    refine ⟨backslash :: lowerU :: (front ++ front'), by simp [same], ?_⟩
    simp only [← same', total, List.length_cons, List.length_append]
    omega
  | case10 offset letter rest _ char _ _ ih =>
    obtain ⟨inner, here, same, same'⟩ := Quoted.of_lead decoded
    obtain ⟨front, rfl, total⟩ := ih here
    refine ⟨backslash :: letter :: front, by simp [same], ?_⟩
    simp only [← same', total, List.length_cons]
    omega
  | case12 offset byte rest _ _ _ ih =>
    obtain ⟨inner, here, same, same'⟩ := Quoted.of_lead decoded
    obtain ⟨front, rfl, total⟩ := ih here
    refine ⟨byte :: front, by simp [same], ?_⟩
    simp only [← same', total, List.length_cons]
    omega

theorem split_quoted {offset : Nat} {before bytes : List UInt8} {quoted : Quoted}
    (decoded : decodeQuoted (offset + before.length + 1) bytes = .ok quoted) :
    ∃ front, before ++ quote :: bytes = front ++ quoted.rest ∧
      quoted.offset = offset + front.length := by
  obtain ⟨front, split, position⟩ := split_decodeQuoted decoded
  refine ⟨before ++ quote :: front, by simp [split], ?_⟩
  simp only [List.length_append, List.length_cons, position]
  omega

/-- What a string is read to, given the bytes behind its opening quote: the text that its octets
spell, if they are UTF-8, and nothing but whitespace behind it. -/
def readQuoted (offset : Nat) (bytes : List UInt8) : Except ParseError Value := do
  let quoted ← decodeQuoted offset bytes
  let text ← (Utf8.decodeString quoted.octets).mapError .invalidUtf8
  Input.onlySpaces ⟨quoted.rest, quoted.offset, true⟩
  return .string text

/-! ## The tables -/

theorem escapedChar?_eq (letter : UInt8) :
    (escapedChar? letter).map Utf8.encodeChar =
      (Escape.unescape? letter).map fun octet => [octet] := by
  have known : ∀ code < 256, (escapedChar? (UInt8.ofNat code)).map Utf8.encodeChar =
      (Escape.unescape? (UInt8.ofNat code)).map fun octet => [octet] := by
    decide +kernel
  have here := known letter.toNat letter.toNat_lt
  rwa [UInt8.ofNat_toNat] at here

theorem hexDigit?_eq (byte : UInt8) : hexDigit? byte = Escape.hexValue? byte := by
  have known : ∀ code < 256,
      hexDigit? (UInt8.ofNat code) = Escape.hexValue? (UInt8.ofNat code) := by
    decide +kernel
  have here := known byte.toNat byte.toNat_lt
  rwa [UInt8.ofNat_toNat] at here

/-! ## The machine -/

namespace StringLexer

/-- The scan for the end of a string, without regard to which of the octets were set aside. -/
def scanned (closed : Bool) (lexer : StringLexer) (before : Array UInt8) (offset : Nat)
    (bytes : List UInt8) : Except ParseError StringScan :=
  (lexer.scanBytes closed before #[] offset bytes).map StringScan.joined

theorem scanned_cons (closed : Bool) (lexer : StringLexer) (before : Array UInt8) (offset : Nat)
    (byte : UInt8) (rest : List UInt8) :
    scanned closed lexer before offset (byte :: rest) =
      match lexer.step byte offset with
      | .error error => .error error
      | .ok .plain => scanned closed lexer (before ++ [byte]) (offset + 1) rest
      | .ok (.more later added) => scanned closed later (before ++ added) (offset + 1) rest
      | .ok .closed => .ok (.closed before #[] ⟨rest, offset + 1, closed⟩) := by
  rw [scanned, scanBytes]
  rcases lexer.step byte offset with error | step
  · rfl
  · cases step with
    | plain => exact scanBytes_joined closed lexer (by simp) (offset + 1) rest
    | more later added => exact scanBytes_joined closed later (by simp) (offset + 1) rest
    | closed => simp [Except.map, StringScan.joined]

theorem scanned_spelledUnit {pending : Option Nat} {count due : Nat} (four : count + due = 4)
    (some : 0 < due) (value : Nat) (before : Array UInt8) (offset : Nat) (bytes : List UInt8) :
    scanned true ⟨.unicode count value, pending⟩ before offset bytes =
      match spelledUnit due value bytes with
      | .error error => .error error
      | .ok (unit, rest) =>
        match takeUnit pending unit with
        | .ok (.more later added) => scanned true later (before ++ added) (offset + due) rest
        | .ok .plain | .ok .closed => .error .endOfData
        | .error error => .error error := by
  induction bytes generalizing count due value offset with
  | nil =>
    obtain ⟨due, rfl⟩ := Nat.exists_eq_succ_of_ne_zero (Nat.ne_of_gt some)
    rfl
  | cons byte rest ih =>
    obtain ⟨due, rfl⟩ := Nat.exists_eq_succ_of_ne_zero (Nat.ne_of_gt some)
    rw [scanned_cons, spelledUnit, step, hexDigit?_eq]
    cases Escape.hexValue? byte with
    | none => rfl
    | some digit =>
      by_cases last : due = 0
      · subst last
        have third : count = 3 := by omega
        subst third
        simp only [Nat.lt_irrefl, if_false, if_true, spelledUnit]
        rcases takeUnit_cases pending (value * 16 + digit) with ⟨later, added, taken⟩ |
          ⟨error, taken⟩
        · simp only [taken]
        · simp only [taken]
      · simp only [if_pos (show count < 3 by omega), Array.appendList_nil]
        have left : count + 1 + due = 4 := by omega
        have behind : offset + 1 + due = offset + (due + 1) := by omega
        rw [ih left (Nat.pos_of_ne_zero last), behind]

theorem takeUnit_lone {unit : Nat} (trailing : isTrailing unit) :
    takeUnit none unit = .error .invalidUnicodeCodepoint := by
  have notLeading : Escape.isHighSurrogate unit = false := by
    simp only [isTrailing, Escape.isHighSurrogate, Bool.and_eq_true, Bool.and_eq_false_iff,
      decide_eq_true_eq, decide_eq_false_iff_not] at trailing ⊢
    omega
  simp only [takeUnit, notLeading, show Escape.isLowSurrogate unit = true from trailing,
    Bool.false_eq_true, if_false, if_true]

theorem takeUnit_unpaired (leading : Nat) {unit : Nat} (notTrailing : isTrailing unit = false) :
    takeUnit (some leading) unit = .error .invalidUnicodeCodepoint := by
  simp only [takeUnit, show Escape.isLowSurrogate unit = false from notTrailing,
    Bool.false_eq_true, if_false]

theorem scanned_lowerU (pending : Option Nat) (before : Array UInt8) (offset : Nat)
    (rest : List UInt8) :
    scanned true ⟨.body, pending⟩ before offset (backslash :: lowerU :: rest) =
      scanned true ⟨.unicode 0 0, pending⟩ before (offset + 2) rest := by
  have first : step ⟨.body, pending⟩ backslash offset = .ok (.more ⟨.escape, pending⟩ []) := rfl
  have second : step ⟨.escape, pending⟩ lowerU (offset + 1) =
      .ok (.more ⟨.unicode 0 0, pending⟩ []) := rfl
  rw [scanned_cons, first]
  simp only [Array.appendList_nil]
  rw [scanned_cons, second]
  simp only [Array.appendList_nil]

theorem scanned_leading (leading : Nat) (before : Array UInt8) (offset : Nat)
    (bytes : List UInt8) :
    scanned true { pending := some leading } before offset bytes =
      match trailingUnit bytes with
      | .error error => .error error
      | .ok (unit, rest) =>
        scanned true {} (before ++ Utf8.encodeChar (pairedChar leading unit)) (offset + 6)
          rest := by
  fun_cases trailingUnit bytes with
  | case1 => rfl
  | case2 => rfl
  | case3 rest error refused =>
    rw [scanned_lowerU, scanned_spelledUnit (Nat.zero_add 4) (by omega), refused]
  | case4 rest unit behind spelled trailing =>
    rw [scanned_lowerU, scanned_spelledUnit (Nat.zero_add 4) (by omega), spelled]
    simp only [takeUnit_trailing trailing]
  | case5 rest unit behind spelled other =>
    rw [scanned_lowerU, scanned_spelledUnit (Nat.zero_add 4) (by omega), spelled]
    simp only [takeUnit_unpaired leading (Bool.not_eq_true _ ▸ other)]
  | case6 letter rest other =>
    have first : step ⟨.body, some leading⟩ backslash offset =
        .ok (.more ⟨.escape, some leading⟩ []) := rfl
    have refused : step ⟨.escape, some leading⟩ letter (offset + 1) =
        .error .invalidUnicodeCodepoint := by
      simp [step, other]
    rw [scanned_cons, first]
    simp only [scanned_cons, refused]
  | case7 byte rest other =>
    have refused : step { pending := some leading } byte offset =
        .error .invalidUnicodeCodepoint := by
      simp [step, other]
    rw [scanned_cons, refused]

def atEnd (before : Array UInt8) (closed : Bool) (quoted : Quoted) : StringScan :=
  .closed (before ++ quoted.octets) #[] ⟨quoted.rest, quoted.offset, closed⟩

theorem map_atEnd_lead (before : Array UInt8) (closed : Bool) (added : List UInt8)
    (result : Except ParseError Quoted) :
    (result.map (.lead added)).map (atEnd before closed) =
      result.map (atEnd (before ++ added) closed) := by
  cases result with
  | error error => rfl
  | ok quoted =>
    have joined : before ++ (added ++ quoted.octets) = before ++ added ++ quoted.octets := by
      apply Array.ext'
      simp
    simp only [Except.map, atEnd, Quoted.lead, joined]

/-- The machine answers what the reference does. -/
theorem scanned_eq_decodeQuoted (before : Array UInt8) (offset : Nat) (bytes : List UInt8) :
    scanned true {} before offset bytes = (decodeQuoted offset bytes).map (atEnd before true) := by
  have behind (offset : Nat) : step {} backslash offset = .ok (.more { part := .escape } []) := rfl
  fun_induction decodeQuoted offset bytes generalizing before with
  | case1 => rfl
  | case2 offset rest =>
    have ends : step {} quote offset = .ok .closed := rfl
    rw [scanned_cons, ends]
    simp [Except.map, atEnd]
  | case3 => rfl
  | case4 offset rest error refused =>
    rw [scanned_lowerU, scanned_spelledUnit (Nat.zero_add 4) (by omega), refused]
    rfl
  | case5 offset rest unit behind spelled trailing =>
    rw [scanned_lowerU, scanned_spelledUnit (Nat.zero_add 4) (by omega), spelled]
    simp only [takeUnit_lone trailing]
    rfl
  | case6 offset rest unit behind spelled _ leading error refused =>
    rw [scanned_lowerU, scanned_spelledUnit (Nat.zero_add 4) (by omega), spelled]
    simp only [takeUnit_leading leading, scanned_leading, refused]
    rfl
  | case7 offset rest unit behind spelled _ leading trailing back paired _ ih =>
    rw [scanned_lowerU, scanned_spelledUnit (Nat.zero_add 4) (by omega), spelled, map_atEnd_lead,
      ← ih]
    simp only [takeUnit_leading leading, scanned_leading, paired, Array.appendList_nil]
  | case8 offset rest unit behind spelled notTrailing notLeading _ ih =>
    rw [scanned_lowerU, scanned_spelledUnit (Nat.zero_add 4) (by omega), spelled, map_atEnd_lead,
      ← ih]
    simp only [takeUnit_single (Bool.not_eq_true _ ▸ notLeading) (Bool.not_eq_true _ ▸ notTrailing)]
  | case9 offset letter rest other unknown =>
    have refused : step { part := .escape } letter (offset + 1) =
        .error .invalidEscapeSequence := by
      have table := escapedChar?_eq letter
      rw [unknown, Option.map_none, eq_comm, Option.map_eq_none_iff] at table
      simp [step, other, table]
    rw [scanned_cons, behind]
    simp only [scanned_cons, refused]
    rfl
  | case10 offset letter rest other char known _ ih =>
    have taken : step { part := .escape } letter (offset + 1) =
        .ok (.more {} (Utf8.encodeChar char)) := by
      have table := escapedChar?_eq letter
      rw [known, Option.map_some, eq_comm, Option.map_eq_some_iff] at table
      obtain ⟨octet, table, encoded⟩ := table
      simp [step, other, table, encoded]
    rw [scanned_cons, behind, map_atEnd_lead, ← ih]
    simp only [scanned_cons, taken, Array.appendList_nil]
  | case11 offset byte rest notQuote notBackslash control =>
    have refused : step {} byte offset = .error (.unescapedControlCharacter byte offset) := by
      simp [step, notQuote, notBackslash, control]
    rw [scanned_cons, refused]
    rfl
  | case12 offset byte rest notQuote notBackslash notControl ih =>
    have plain : step {} byte offset = .ok .plain := by
      simp [step, notQuote, notBackslash, notControl]
    rw [scanned_cons, plain, map_atEnd_lead, ← ih]

theorem decodeQuoted_of_scanned_error {offset : Nat} {bytes : List UInt8} {error : ParseError}
    (refused : scanned true {} #[] offset bytes = .error error) :
    decodeQuoted offset bytes = .error error := by
  rw [scanned_eq_decodeQuoted] at refused
  cases decoded : decodeQuoted offset bytes with
  | error error =>
    rw [decoded] at refused
    cases refused
    rfl
  | ok quoted =>
    rw [decoded] at refused
    cases refused

theorem decodeQuoted_of_scanned_closed {offset position : Nat} {bytes rest : List UInt8}
    {octets : Array UInt8}
    (ends : scanned true {} #[] offset bytes = .ok (.closed octets #[] ⟨rest, position, true⟩)) :
    decodeQuoted offset bytes = .ok ⟨octets.toList, rest, position⟩ := by
  rw [scanned_eq_decodeQuoted] at ends
  cases decoded : decodeQuoted offset bytes with
  | error error =>
    rw [decoded] at ends
    cases ends
  | ok quoted =>
    rw [decoded] at ends
    cases ends
    simp

theorem scanned_opened (lexer : StringLexer) (before : Array UInt8) (offset : Nat)
    (bytes : List UInt8) :
    scanned true lexer before offset bytes =
      match scanned false lexer before offset bytes with
      | .error error => .error error
      | .ok (.pending ..) => .error .endOfData
      | .ok (.closed octets tail ⟨rest, position, _⟩) =>
        .ok (.closed octets tail ⟨rest, position, true⟩) := by
  have appended := scanBytes_append true lexer before #[] offset bytes []
  rw [List.append_nil] at appended
  rw [scanned, appended, scanned]
  rcases lexer.scanBytes false before #[] offset bytes with error | scan
  · rfl
  · cases scan with
    | pending => rfl
    | closed octets tail input => simp [Except.map, StringScan.joined]

theorem closed_of_scanned {closed : Bool} {lexer : StringLexer} {before octets tail : Array UInt8}
    {offset : Nat} {bytes : List UInt8} {input : Input}
    (ends : scanned closed lexer before offset bytes = .ok (.closed octets tail input)) :
    input.closed = closed := by
  rw [scanned] at ends
  rcases scan : lexer.scanBytes closed before #[] offset bytes with
    error | ⟨later, octets', input'⟩ | ⟨octets', tail', input'⟩
  all_goals rw [scan] at ends
  all_goals cases ends
  exact (contents?_of_scanBytes scan).1

theorem scanned_of_decoded (closed : Bool) (before : Array UInt8) {offset : Nat}
    {bytes : List UInt8} {quoted : Quoted} (decoded : decodeQuoted offset bytes = .ok quoted) :
    scanned closed {} before offset bytes = .ok (atEnd before closed quoted) := by
  have whole := scanned_eq_decodeQuoted before offset bytes
  rw [decoded] at whole
  cases closed with
  | true => exact whole
  | false =>
    rw [scanned_opened] at whole
    rcases scan : scanned false {} before offset bytes with
      error | ⟨lexer, octets, input⟩ | ⟨octets, tail, ⟨rest, position, opened⟩⟩
    all_goals rw [scan] at whole
    · cases whole
    · cases whole
    · cases closed_of_scanned scan
      cases whole
      rfl

theorem scanned_of_refused (closed : Bool) (before : Array UInt8) {offset : Nat}
    {bytes : List UInt8} {error : ParseError} (refused : decodeQuoted offset bytes = .error error)
    (offence : closed = true ∨ error ≠ .endOfData) :
    scanned closed {} before offset bytes = .error error := by
  have whole := scanned_eq_decodeQuoted before offset bytes
  rw [refused] at whole
  cases closed with
  | true => exact whole
  | false =>
    have known := offence.resolve_left Bool.false_ne_true
    rw [scanned_opened] at whole
    rcases scan : scanned false {} before offset bytes with
      error | ⟨lexer, octets, input⟩ | ⟨octets, tail, input⟩
    all_goals rw [scan] at whole
    · exact whole
    · cases whole
      exact absurd rfl known
    · cases whole

theorem step_ne_endOfData (lexer : StringLexer) (byte : UInt8) (offset : Nat) :
    lexer.step byte offset ≠ .error .endOfData := by
  obtain ⟨part, pending⟩ := lexer
  cases part <;>
    · simp only [step, takeUnit]
      repeat' split
      all_goals simp

theorem scanned_ne_endOfData (lexer : StringLexer) (before : Array UInt8) (offset : Nat)
    (bytes : List UInt8) : scanned false lexer before offset bytes ≠ .error .endOfData := by
  induction bytes generalizing lexer before offset with
  | nil => simp [scanned, scanBytes, Except.map]
  | cons byte rest ih =>
    rw [scanned_cons]
    rcases stepped : lexer.step byte offset with error | step
    · intro endless
      cases endless
      exact step_ne_endOfData lexer byte offset stepped
    · intro endless
      cases step with
      | plain => exact ih _ _ _ endless
      | more => exact ih _ _ _ endless
      | closed => cases endless

theorem scanned_of_endless (before : Array UInt8) {offset : Nat} {bytes : List UInt8}
    (endless : decodeQuoted offset bytes = .error .endOfData) :
    ∃ lexer octets input,
      scanned false {} before offset bytes = .ok (.pending lexer octets input) := by
  have whole := scanned_eq_decodeQuoted before offset bytes
  rw [endless, scanned_opened] at whole
  rcases scan : scanned false {} before offset bytes with
    error | ⟨lexer, octets, input⟩ | ⟨octets, tail, input⟩
  all_goals rw [scan] at whole
  · cases whole
    exact absurd scan (scanned_ne_endOfData {} before offset bytes)
  · exact ⟨lexer, octets, input, rfl⟩
  · cases whole

end StringLexer

/-! ## Strings -/

theorem Frame.resume_string (schema : Schema) {before : List UInt8}
    (blank : ∀ byte ∈ before, isSpace byte) (offset : Nat) (closed : Bool) (bytes : List UInt8) :
    (start schema .string).resume schema ⟨before ++ quote :: bytes, offset, closed⟩ #[] =
      match StringLexer.scanned closed {} #[] (offset + before.length + 1) bytes with
      | .error error => .error error
      | .ok (.pending lexer octets rest) =>
        .ok ⟨.core .string (.string (some lexer) octets), rest, #[], .pause⟩
      | .ok (.closed octets tail rest) =>
        .ok ⟨.core .string (.string (some {}) (octets ++ tail)), rest, #[], .complete⟩ := by
  have first : start schema .string = .core .string (.string none #[]) := rfl
  have same : (StringLexer.scan {} #[] ⟨bytes, offset + before.length + 1, closed⟩).map
      StringScan.joined =
      StringLexer.scanned closed {} #[] (offset + before.length + 1) bytes := rfl
  rw [first, resume, FrameBody.resume, Input.significant_spaces blank rfl, if_pos rfl,
    FrameBody.resumeString_joined, Input.next, List.tail_cons, same]
  rcases StringLexer.scanned closed {} #[] (offset + before.length + 1) bytes with error | scan
  · rfl
  · cases scan <;> rfl

def Frame.ofQuoted (quoted : Quoted) : Frame :=
  .core .string (.string (some {}) quoted.octets.toArray)

theorem Frame.result_ofQuoted (quoted : Quoted) :
    (ofQuoted quoted).result =
      ((Utf8.decodeString quoted.octets).mapError .invalidUtf8).map .string := by
  simp only [result, ofQuoted, shape, deliver, FrameBody.result]
  cases Utf8.decodeString quoted.octets <;> rfl

theorem Frame.resume_string_decoded (schema : Schema) {before : List UInt8}
    (blank : ∀ byte ∈ before, isSpace byte) (offset : Nat) (closed : Bool) {bytes : List UInt8}
    {quoted : Quoted} (decoded : decodeQuoted (offset + before.length + 1) bytes = .ok quoted) :
    (start schema .string).resume schema ⟨before ++ quote :: bytes, offset, closed⟩ #[] =
      .ok ⟨ofQuoted quoted, ⟨quoted.rest, quoted.offset, closed⟩, #[], .complete⟩ := by
  have octets : (#[] : Array UInt8) ++ quoted.octets ++ (#[] : Array UInt8) =
      quoted.octets.toArray := by
    simp
  rw [Frame.resume_string schema blank, StringLexer.scanned_of_decoded closed #[] decoded]
  simp only [StringLexer.atEnd, octets, ofQuoted]

theorem parse_eq_readQuoted (schema : Schema) {limit : Option Nat} (room : limit ≠ some 0)
    {before : List UInt8} (blank : ∀ byte ∈ before, isSpace byte) (bytes : List UInt8) :
    parse schema .string (before ++ quote :: bytes) limit =
      readQuoted (before.length + 1) bytes := by
  have start : 0 + before.length + 1 = before.length + 1 := by omega
  rw [readQuoted, ← start]
  cases decoded : decodeQuoted (0 + before.length + 1) bytes with
  | error error =>
    have turn := Frame.resume_string schema blank 0 true bytes
    rw [StringLexer.scanned_of_refused true #[] decoded (.inl rfl)] at turn
    exact parse_of_error room turn
  | ok quoted =>
    rw [parse_of_complete room (Frame.resume_string_decoded schema blank 0 true decoded),
      Frame.deliver_eq, Frame.result_ofQuoted]
    simp only [bind, Except.bind]
    cases Utf8.decodeString quoted.octets with
    | error => rfl
    | ok text => cases Input.onlySpaces ⟨quoted.rest, quoted.offset, true⟩ <;> rfl

/-- A string that was called for is read to its closing quote and handed over with its octets, or
is refused at its first offence, or waits for more. -/
theorem Parser.feed_eq_decodeQuoted {parser : Parser} (awaits : parser.Awaits .string)
    {before : List UInt8} (blank : ∀ byte ∈ before, isSpace byte) (bytes : List UInt8) :
    match decodeQuoted (parser.offset + before.length + 1) bytes with
    | .error .endOfData => (parser.feed (before ++ quote :: bytes)).error? = none ∧
        (parser.feed (before ++ quote :: bytes)).finish = .error .endOfData
    | .error error => (parser.feed (before ++ quote :: bytes)).error? = some error
    | .ok quoted => (parser.feed (before ++ quote :: bytes)).SameState
        ((parser.handOver (.ofQuoted quoted) (quoted.offset - parser.offset)).feed
          quoted.rest) := by
  obtain ⟨below, fresh, limit, newest⟩ := awaits.newest
  have opened := Frame.resume_string parser.schema blank parser.offset false bytes
  cases decoded : decodeQuoted (parser.offset + before.length + 1) bytes with
  | error error =>
    by_cases endless : error = .endOfData
    · subst endless
      obtain ⟨lexer, octets, input, waits⟩ := StringLexer.scanned_of_endless #[] decoded
      rw [waits] at opened
      have closed := Frame.resume_string parser.schema blank parser.offset true bytes
      rw [StringLexer.scanned_of_refused true #[] decoded (.inl rfl)] at closed
      exact ⟨error?_feed_of_pause awaits.live newest opened,
        finish_feed_of_error awaits.live awaits.tidy newest closed⟩
    · rw [StringLexer.scanned_of_refused false #[] decoded (.inr endless)] at opened
      have known := error?_feed_of_error awaits.live newest opened
      split
      · rename_i same
        exact absurd (Except.error.inj same) endless
      · rename_i same
        rw [known, Except.error.inj same]
      · rename_i same
        cases same
  | ok quoted =>
    obtain ⟨front, whole, behind⟩ := split_quoted decoded
    have turn := Frame.resume_string_decoded parser.schema blank parser.offset false decoded
    rw [whole, behind] at turn
    have fed := feed_of_complete awaits.live newest turn
    have count : quoted.offset - parser.offset = front.length := by omega
    rw [← whole, ← count] at fed
    exact fed

/-- A string is decoded from left to right, and its first offence is the answer: in a document of
its own and wherever a frame was called for a string, in whatever chunks.  Its octets are taken for
UTF-8 only at the closing quote. -/
theorem string_eq_decodeQuoted {before bytes : List UInt8} {chunks : List (List UInt8)}
    (blank : ∀ byte ∈ before, isSpace byte) (whole : chunks.flatten = before ++ quote :: bytes) :
    (∀ (schema : Schema) (limit : Option Nat), limit ≠ some 0 →
      ((Parser.create schema .string limit).feedAll chunks).finish =
        readQuoted (before.length + 1) bytes) ∧
    ∀ parser : Parser, parser.Awaits .string →
      match decodeQuoted (parser.offset + before.length + 1) bytes with
      | .error .endOfData => (parser.feedAll chunks).error? = none ∧
          (parser.feedAll chunks).finish = .error .endOfData
      | .error error => (parser.feedAll chunks).error? = some error
      | .ok quoted => ∃ done : Frame, done.shape = .string ∧
          done.result = ((Utf8.decodeString quoted.octets).mapError .invalidUtf8).map .string ∧
          (parser.feedAll chunks).SameState
            ((parser.handOver done (quoted.offset - parser.offset)).feed quoted.rest) := by
  refine ⟨?_, ?_⟩
  · intro schema limit room
    rw [Parser.finish_feedAll, whole]
    exact parse_eq_readQuoted schema room blank bytes
  · intro parser awaits
    have same := Parser.feedAll_of_flatten awaits.live awaits.tidy (by simp) whole
    have fed := Parser.feed_eq_decodeQuoted awaits blank bytes
    rw [same.error?, same.finish]
    split at fed
    · exact fed
    · exact fed
    · exact ⟨_, rfl, Frame.result_ofQuoted _, same.trans fed⟩

/-- Behind a pair of surrogates, which the chunks cut, a high surrogate has no partner. -/
theorem string_eq_decodeQuoted_unpaired :
    let chunks := [[0x20, quote, 0x5C, 0x75, 0x64, 0x38], [0x33, 0x44, 0x5C, 0x75, 0x44, 0x65],
      [0x30, 0x30, 0x5C, 0x75, 0x64, 0x38, 0x33, 0x64, quote]]
    ((Parser.create .empty .string).feedAll chunks).finish = .error .invalidUnicodeCodepoint ∧
      (((Parser.create .empty (.extras .string)).feed
        [leftBrace, quote, quote, colon]).feedAll chunks).error? =
          some .invalidUnicodeCodepoint := by
  let bytes : List UInt8 := [0x5C, 0x75, 0x64, 0x38, 0x33, 0x44, 0x5C, 0x75, 0x44, 0x65, 0x30, 0x30,
    0x5C, 0x75, 0x64, 0x38, 0x33, 0x64, quote]
  let chunks : List (List UInt8) := [[0x20, quote, 0x5C, 0x75, 0x64, 0x38],
    [0x33, 0x44, 0x5C, 0x75, 0x44, 0x65], [0x30, 0x30, 0x5C, 0x75, 0x64, 0x38, 0x33, 0x64, quote]]
  have blank : ∀ byte ∈ ([0x20] : List UInt8), isSpace byte := List.forall_mem_singleton.mpr rfl
  have whole : chunks.flatten = [0x20] ++ quote :: bytes := rfl
  obtain ⟨document, member⟩ := string_eq_decodeQuoted blank whole
  have refused (offset : Nat) : decodeQuoted offset bytes = .error .invalidUnicodeCodepoint :=
    StringLexer.decodeQuoted_of_scanned_error rfl
  have awaits : ((Parser.create .empty (.extras .string)).feed
      [leftBrace, quote, quote, colon]).Awaits .string :=
    ⟨rfl, _, _, _, rfl⟩
  refine ⟨?_, ?_⟩
  · rw [document .empty none (by simp), readQuoted, refused]
    rfl
  · have inside := member _ awaits
    rw [refused] at inside
    exact inside

end IncrementalJson
