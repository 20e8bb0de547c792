import IncrementalJson.Proofs.Reading.Tokens
import IncrementalJson.Proofs.Reading.Turns

/-!
# Integers are exact

A literal becomes the integer that it names, or is refused, for what it is as a
whole: it does not matter how many digits there are, where they are cut and what
ends the literal.  The digits are folded into 64 bits one at a time, and what
stands there once they have not sufficed is no longer the number; so the flag
that says so must come up exactly then, and stay up.
-/

set_option autoImplicit false

namespace IncrementalJson

open Ascii

/-! ## The flag -/

def wholeBytes (bytes : List UInt8) : List UInt8 :=
  (bytes.dropWhile (· = minus)).takeWhile isDigit

def wholeValue (bytes : List UInt8) : Nat := appendDigits 0 (wholeBytes bytes)

theorem wholeValue_eq (negative : Bool) (whole : WholePart) {rest : List UInt8}
    (behind : ∀ byte ∈ rest.head?, isDigit byte = false) :
    wholeValue (signBytes negative ++ whole.toDigits.map Digit.byte ++ rest) =
      digitsValue whole.toDigits := by
  have digits : ∀ byte ∈ whole.toDigits.map Digit.byte, isDigit byte := by
    intro byte among
    obtain ⟨digit, -, rfl⟩ := List.mem_map.mp among
    exact digit.byte_known.2.1
  have nothingMore : rest.takeWhile isDigit = [] := by
    cases rest with
    | nil => rfl
    | cons byte rest => simp [behind byte rfl]
  have first : ∃ byte more, whole.toDigits.map Digit.byte = byte :: more := by
    cases whole with
    | zero => exact ⟨_, _, rfl⟩
    | digits first rest => exact ⟨_, _, rfl⟩
  have unsigned : (signBytes negative ++ whole.toDigits.map Digit.byte ++ rest).dropWhile
      (· = minus) = whole.toDigits.map Digit.byte ++ rest := by
    obtain ⟨byte, more, split⟩ := first
    have notMinus : byte ≠ minus := by
      rintro rfl
      have isDigit := digits minus (by rw [split]; exact List.mem_cons_self)
      cases isDigit
    rw [split]
    cases negative <;> simp [signBytes, notMinus]
  rw [wholeValue, wholeBytes, unsigned, List.takeWhile_append_of_pos digits, nothingMore,
    List.append_nil, appendDigits_map]

namespace NumberLexer

/-- The flag is up exactly if the digits of the integer part come to what 64 bits cannot hold, and
until then the mantissa is what they denote. -/
def Counts (lexer : NumberLexer) (value : Nat) : Prop :=
  (lexer.overflow = true ↔ 2 ^ 64 ≤ value) ∧ (lexer.overflow = false → lexer.mantissa = value)

theorem counts_lexerAt (literal : Literal) (part : LiteralPart) :
    (literal.lexerAt part).Counts (digitsValue literal.whole.toDigits) := by
  have spec := countDigits_spec literal.whole.toDigits
  rw [Counts, Literal.lexerAt]
  split at spec
  · rename_i small
    rw [spec]
    exact ⟨iff_of_false Bool.false_ne_true (Nat.not_le.mpr small), fun _ => rfl⟩
  · rename_i large
    refine ⟨iff_of_true spec (Nat.not_lt.mp large), ?_⟩
    intro down
    rw [spec] at down
    cases down

theorem counts_of_lexes {lexer : NumberLexer} {bytes : List UInt8} (lexes : Lexes lexer bytes) :
    lexer.Counts (wholeValue bytes) := by
  have behindWhole (literal : Literal) (part : LiteralPart) {more rest : List UInt8}
      (split : literal.fractionBytes ++ literal.exponentBytes ++ more = rest)
      (behind : ∀ byte ∈ rest.head?, isDigit byte = false) :
      (literal.lexerAt part).Counts (wholeValue (literal.bytes ++ more)) := by
    have bytes : literal.bytes ++ more =
        signBytes literal.negative ++ literal.whole.toDigits.map Digit.byte ++ rest := by
      rw [literal.bytes_eq, ← split]
      simp only [List.append_assoc]
    rw [bytes, wholeValue_eq _ _ behind]
    exact counts_lexerAt literal part
  cases lexes with
  | nothing => exact ⟨iff_of_false Bool.false_ne_true (by decide), fun _ => rfl⟩
  | minus => exact ⟨iff_of_false Bool.false_ne_true (by decide), fun _ => rfl⟩
  | literal literal =>
    rw [← List.append_nil literal.bytes]
    apply behindWhole literal literal.part rfl
    obtain ⟨negative, whole, fraction, exponent⟩ := literal
    intro byte first
    cases fraction with
    | some digits => cases first; rfl
    | none =>
      cases exponent with
      | none => cases first
      | some part =>
        obtain ⟨upper, sign, digit, digits⟩ := part
        cases upper <;> cases first <;> rfl
  | point negative whole =>
    apply behindWhole ⟨negative, whole, none, none⟩ .point rfl
    intro byte first
    cases first
    rfl
  | mark negative whole fraction upper =>
    apply behindWhole ⟨negative, whole, fraction, none⟩ .exponentMark rfl
    intro byte first
    cases fraction with
    | some digits => cases first; rfl
    | none => cases upper <;> cases first <;> rfl
  | sign negative whole fraction upper below =>
    apply behindWhole ⟨negative, whole, fraction, none⟩ .exponentSign rfl
    intro byte first
    cases fraction with
    | some digits => cases first; rfl
    | none => cases upper <;> cases first <;> rfl

theorem overflow_addDigit {lexer : NumberLexer} (up : lexer.overflow = true) (byte : UInt8) :
    (lexer.addDigit byte).overflow = true := by
  rw [addDigit]
  split
  · exact up
  · rfl

theorem overflow_next? {lexer later : NumberLexer} (up : lexer.overflow = true) {byte : UInt8}
    (next : lexer.next? byte = some later) : later.overflow = true := by
  rw [next?] at next
  repeat' split at next
  all_goals cases next
  all_goals first
    | exact up
    | exact overflow_addDigit up byte

theorem overflow_readAll? {lexer later : NumberLexer} (up : lexer.overflow = true)
    {bytes : List UInt8} (read : lexer.readAll? bytes = some later) : later.overflow = true := by
  induction bytes generalizing lexer with
  | nil =>
    cases read
    exact up
  | cons byte rest ih =>
    cases next : lexer.next? byte with
    | none => simp [readAll?, List.foldlM_cons, next] at read
    | some between =>
      rw [readAll?_cons next] at read
      exact ih (overflow_next? up next) read

theorem integer_ne_ok {lexer : NumberLexer} (up : lexer.overflow = true) (value : Int) :
    lexer.integer ≠ .ok value := by
  rw [integer, up]
  split <;> simp

/-! ## The scan of a literal, with its offsets -/

theorem scanBytes_readAll? {lexer later : NumberLexer} {front : List UInt8}
    (read : lexer.readAll? front = some later) (closed : Bool) (before : Array UInt8)
    (offset : Nat) (rest : List UInt8) :
    lexer.scanBytes closed before offset (front ++ rest) =
      later.scanBytes closed (before ++ front.toArray) (offset + front.length) rest := by
  induction front generalizing lexer before offset with
  | nil =>
    cases read
    simp
  | cons byte front ih =>
    cases next : lexer.next? byte with
    | none => simp [readAll?, List.foldlM_cons, next] at read
    | some between =>
      rw [readAll?_cons next] at read
      have text : before.push byte ++ front.toArray = before ++ (byte :: front).toArray := by
        simp
      rw [List.cons_append, scanBytes, step, next, List.length_cons, ← text,
        Nat.add_comm front.length, ← Nat.add_assoc]
      exact ih read (before.push byte) (offset + 1)

theorem scanBytes_stopped {lexer : NumberLexer} (canEnd : lexer.canEnd) (closed : Bool)
    (text : Array UInt8) (offset : Nat) {rest : List UInt8} (stops : lexer.Stops rest) :
    lexer.scanBytes closed text offset rest =
      .ok ⟨lexer, text, ⟨rest, offset, closed⟩, closed || !rest.isEmpty⟩ := by
  cases rest with
  | nil => simp [scanBytes]
  | cons byte rest =>
    have ends : lexer.next? byte = none := stops
    simp [scanBytes, step, ends, canEnd]

end NumberLexer

theorem Frame.resume_number (schema : Schema) (type : NumberType) (literal : Literal)
    {before : List UInt8} (blank : ∀ byte ∈ before, isSpace byte) (offset : Nat) (closed : Bool)
    {rest : List UInt8} (stops : literal.lexer.Stops rest)
    (ends : (closed || !rest.isEmpty) = true) :
    (start schema (.number type)).resume schema
        ⟨before ++ literal.bytes ++ rest, offset, closed⟩ #[] =
      (literal.outcome type).map fun value =>
        ⟨.core (.number type) (.number type literal.lexer false (some value)),
          ⟨rest, offset + (before ++ literal.bytes).length, closed⟩, #[], .complete⟩ := by
  obtain ⟨byte, more, bytes, begins⟩ := literal.bytes_head
  have scanned : NumberLexer.scan {} ⟨literal.bytes ++ rest, offset + before.length, closed⟩ =
      .ok ⟨literal.lexer, literal.bytes.toArray,
        ⟨rest, offset + before.length + literal.bytes.length, closed⟩, true⟩ := by
    rw [NumberLexer.scan, NumberLexer.scanBytes_readAll? (NumberLexer.readAll?_bytes literal),
      NumberLexer.scanBytes_stopped literal.canEnd_lexer _ _ _ stops, ends, Array.empty_append]
  have body : (FrameBody.number type {} false none).resume schema
      ⟨before ++ literal.bytes ++ rest, offset, closed⟩ #[] =
      FrameBody.endNumber type literal.lexer literal.bytes.toArray
        ⟨rest, offset + before.length + literal.bytes.length, closed⟩ #[] := by
    rw [FrameBody.resume, FrameBody.startNumber, if_pos rfl, bytes, List.append_assoc,
      List.cons_append, Input.significant_spaces blank (solid_of_number begins), if_pos begins,
      ← List.cons_append, ← bytes, FrameBody.resumeNumber, scanned]
    rfl
  have first : start schema (.number type) =
      .core (.number type) (.number type {} false none) := rfl
  rw [first, resume, body, FrameBody.endNumber, type.read_lexer, List.length_append,
    ← Nat.add_assoc]
  cases literal.outcome type <;> rfl

theorem readDouble_cases (text : List UInt8) :
    (∃ bits, readDouble text = .ok (.float bits)) ∨ readDouble text = .error .numericOverflow := by
  rw [readDouble, FloatFormat.readFinite]
  split
  · exact .inl ⟨_, rfl⟩
  · exact .inr rfl

namespace Literal

variable {type : NumberType}

theorem parse_eq_outcome (schema : Schema) (literal : Literal) {limit : Option Nat}
    (room : limit ≠ some 0) {before after : List UInt8}
    (blank : ∀ byte ∈ before ++ after, isSpace byte) :
    parse schema (.number type) (before ++ literal.bytes ++ after) limit =
      (literal.outcome type).map .number := by
  obtain ⟨blankBefore, blankAfter⟩ := List.forall_mem_append.mp blank
  have delimits : Delimits after := by
    cases after with
    | nil => trivial
    | cons byte rest => exact .inl (blankAfter byte List.mem_cons_self)
  have turn := Frame.resume_number schema type literal blankBefore 0 true
    (delimits.stops literal) rfl
  cases outcome : literal.outcome type with
  | error error =>
    rw [outcome] at turn
    exact parse_of_error room turn
  | ok value =>
    rw [outcome] at turn
    have spaces (offset : Nat) : Input.onlySpaces ⟨after, offset, true⟩ = .ok () :=
      (Input.onlySpaces_eq_ok_iff _).mpr blankAfter
    rw [parse_of_complete room turn, spaces]
    simp only [Frame.deliver, FrameBody.result, Frame.deliverInto, if_true]
    rfl

/-- A literal that a byte ends is read by the frame that was called for a number, and the frame
beneath is given what it becomes. -/
theorem feed_eq_outcome (literal : Literal) {parser : Parser}
    (awaits : parser.Awaits (.number type)) {before : List UInt8}
    (blank : ∀ byte ∈ before, isSpace byte) {byte : UInt8} {rest : List UInt8}
    (stops : literal.lexer.Stops (byte :: rest)) :
    match literal.outcome type with
    | .error error =>
      (parser.feed (before ++ literal.bytes ++ byte :: rest)).error? = some error
    | .ok value => ∃ done : Frame, done.shape = .number type ∧ done.result = .ok (.number value) ∧
        (parser.feed (before ++ literal.bytes ++ byte :: rest)).SameState
          ((parser.handOver done (before ++ literal.bytes).length).feed (byte :: rest)) := by
  obtain ⟨below, fresh, limit, newest⟩ := awaits.newest
  have turn := Frame.resume_number parser.schema type literal blank parser.offset false stops rfl
  cases outcome : literal.outcome type with
  | error error =>
    rw [outcome] at turn
    exact Parser.error?_feed_of_error awaits.live newest turn
  | ok value =>
    rw [outcome] at turn
    exact ⟨_, rfl, Frame.result_around (.number type) _,
      Parser.feed_of_complete awaits.live newest turn⟩

/-- A literal becomes exactly the integer that it names, or is refused as what it is: in a document
of its own, at its end or in front of whitespace, and wherever a number is called for, in front of a
byte that does not go on with it; and in whatever chunks.  What is no integer of 64 bits is a float
or too large.  The flag of the accumulator is up exactly if the digits of the integer part so far
come to what 64 bits cannot hold, and then no integer comes of the literal any more. -/
theorem read_exactly (literal : Literal) (type : NumberType) :
    (∀ (schema : Schema) (limit : Option Nat) (chunks : List (List UInt8))
        (before after : List UInt8), limit ≠ some 0 →
      (∀ byte ∈ before ++ after, isSpace byte) →
      chunks.flatten = before ++ literal.bytes ++ after →
        ((Parser.create schema (.number type) limit).feedAll chunks).finish =
          (literal.outcome type).map .number) ∧
    (∀ (parser : Parser) (chunks : List (List UInt8)) (before : List UInt8) (byte : UInt8)
        (rest : List UInt8), parser.Awaits (.number type) → (∀ byte ∈ before, isSpace byte) →
      literal.lexer.next? byte = none →
      chunks.flatten = before ++ literal.bytes ++ byte :: rest →
        match literal.outcome type with
        | .error error => (parser.feedAll chunks).error? = some error
        | .ok value => ∃ done : Frame, done.shape = .number type ∧
            done.result = .ok (.number value) ∧
            (parser.feedAll chunks).SameState
              ((parser.handOver done (before ++ literal.bytes).length).feed (byte :: rest))) ∧
    ((∃ bits, readDouble literal.bytes = .ok (.float bits)) ∨
      readDouble literal.bytes = .error .numericOverflow) ∧
    ∀ (bytes : List UInt8) (lexer : NumberLexer), NumberLexer.readAll? {} bytes = some lexer →
      (lexer.overflow = true ↔ 2 ^ 64 ≤ wholeValue bytes) ∧
      (lexer.overflow = false → lexer.mantissa = wholeValue bytes) ∧
      (lexer.overflow = true → ∀ (more : List UInt8) (later : NumberLexer),
        lexer.readAll? more = some later →
          later.overflow = true ∧ ∀ value, later.integer ≠ .ok value) := by
  refine ⟨?_, ?_, readDouble_cases _, ?_⟩
  · intro schema limit chunks before after room blank whole
    rw [Parser.finish_feedAll, whole]
    exact parse_eq_outcome schema literal room blank
  · intro parser chunks before byte rest awaits blank stops whole
    have same := Parser.feedAll_of_flatten awaits.live awaits.tidy (by simp) whole
    have stops' : literal.lexer.Stops (byte :: rest) := stops
    have fed := literal.feed_eq_outcome awaits blank stops'
    cases outcome : literal.outcome type with
    | error error =>
      simp only [outcome] at fed
      rw [same.error?, fed]
    | ok value =>
      simp only [outcome] at fed
      obtain ⟨done, shape, result, goesOn⟩ := fed
      exact ⟨done, shape, result, same.trans goesOn⟩
  · intro bytes lexer read
    have lexes := NumberLexer.lexes_of_readAll? .nothing read
    obtain ⟨flag, exact'⟩ := NumberLexer.counts_of_lexes lexes
    refine ⟨flag, exact', ?_⟩
    intro up more later read
    have stays := NumberLexer.overflow_readAll? up read
    exact ⟨stays, NumberLexer.integer_ne_ok stays⟩

/-- The least number that 64 bits cannot hold, cut between its digits: in a document of its own, as
a member of an object, and as the lexer counts it, also if a fraction comes behind it. -/
theorem read_exactly_beyond :
    let literal : Literal :=
      ⟨false, .digits 0 [8, 4, 4, 6, 7, 4, 4, 0, 7, 3, 7, 0, 9, 5, 5, 1, 6, 1, 6], none, none⟩
    let shape : Shape := .number (.integer .unsigned64)
    let front := literal.bytes.take 7
    let back := literal.bytes.drop 7
    ((Parser.create .empty shape).feedAll [0x20 :: front, back]).finish = .error .numericOverflow ∧
      (((Parser.create .empty (.extras shape)).feed [leftBrace, quote, quote, colon]).feedAll
        [front, back ++ [rightBrace]]).error? = some .numericOverflow ∧
      literal.lexer.overflow = true ∧
      ∃ later, literal.lexer.readAll? [point, nine] = some later ∧ later.overflow = true := by
  let literal : Literal :=
    ⟨false, .digits 0 [8, 4, 4, 6, 7, 4, 4, 0, 7, 3, 7, 0, 9, 5, 5, 1, 6, 1, 6], none, none⟩
  obtain ⟨document, inside, -, flag⟩ := literal.read_exactly (.integer .unsigned64)
  have tooLarge : literal.outcome (.integer .unsigned64) = .error .numericOverflow := rfl
  have awaits : ((Parser.create .empty (.extras (.number (.integer .unsigned64)))).feed
      [leftBrace, quote, quote, colon]).Awaits (.number (.integer .unsigned64)) :=
    ⟨rfl, _, _, _, rfl⟩
  obtain ⟨up, -, stays⟩ := flag literal.bytes literal.lexer (NumberLexer.readAll?_bytes literal)
  have isUp : literal.lexer.overflow = true := up.mpr (by decide)
  refine ⟨?_, ?_, isUp, _, rfl, (stays isUp [point, nine] _ rfl).1⟩
  · have blank : ∀ byte ∈ ([0x20] : List UInt8), isSpace byte := List.forall_mem_singleton.mpr rfl
    rw [document .empty none [0x20 :: literal.bytes.take 7, literal.bytes.drop 7] [0x20] [] (by simp)
      blank (by decide), tooLarge]
    rfl
  · have refused := inside _ [literal.bytes.take 7, literal.bytes.drop 7 ++ [rightBrace]] []
      rightBrace [] awaits (List.forall_mem_nil _) rfl (by decide)
    rw [tooLarge] at refused
    exact refused

end Literal

end IncrementalJson
