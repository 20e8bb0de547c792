import IncrementalJson.Proofs.Reading.Cutting
import IncrementalJson.Proofs.Reading.Numbers
import IncrementalJson.Proofs.Reading.Strings

/-!
# Tokens of a whole document

How the bodies of null, truth values, strings and numbers, and whitespace in
front of anything, are read from an input that holds the rest of the document.
-/

set_option autoImplicit false

namespace IncrementalJson

open Ascii

/-! ## Whitespace -/

theorem encodeChar_blank {char : Char} (blank : isBlank char) :
    ∃ byte, Utf8.encodeChar char = [byte] ∧ isSpace byte := by
  simp only [isBlank, Bool.or_eq_true, beq_iff_eq] at blank
  rcases blank with ((rfl | rfl) | rfl) | rfl
  · exact ⟨_, rfl, rfl⟩
  · exact ⟨_, rfl, rfl⟩
  · exact ⟨_, rfl, rfl⟩
  · exact ⟨_, rfl, rfl⟩

theorem blank_of_space {byte : UInt8} (space : isSpace byte) :
    ∃ char, Utf8.encodeChar char = [byte] ∧ isBlank char := by
  simp only [isSpace, Bool.or_eq_true, beq_iff_eq] at space
  rcases space with ((rfl | rfl) | rfl) | rfl
  · exact ⟨' ', rfl, rfl⟩
  · exact ⟨'\t', rfl, rfl⟩
  · exact ⟨'\n', rfl, rfl⟩
  · exact ⟨'\r', rfl, rfl⟩

theorem Blank.nil : Blank [] := nofun

theorem Blank.cons {char : Char} {text : List Char} (blank : Blank (char :: text)) :
    isBlank char ∧ Blank text :=
  ⟨blank char List.mem_cons_self, fun other among => blank other (List.mem_cons_of_mem _ among)⟩

theorem blank_of_spaces {bytes : List UInt8} (spaces : ∀ byte ∈ bytes, isSpace byte) :
    ∃ text, Blank text ∧ bytes = Utf8.encode text := by
  induction bytes with
  | nil => exact ⟨[], .nil, rfl⟩
  | cons byte rest ih =>
    obtain ⟨text, blank, rfl⟩ := ih fun other among => spaces other (List.mem_cons_of_mem _ among)
    obtain ⟨char, encoded, isBlank⟩ := blank_of_space (spaces byte List.mem_cons_self)
    refine ⟨char :: text, ?_, by rw [Utf8.encode_cons, encoded]; rfl⟩
    intro other among
    rcases List.mem_cons.mp among with rfl | among
    · exact isBlank
    · exact blank other among

theorem spaces_of_blank {text : List Char} (blank : Blank text) :
    ∀ byte ∈ Utf8.encode text, isSpace byte := by
  induction text with
  | nil => nofun
  | cons char rest ih =>
    obtain ⟨isBlank, blank⟩ := blank.cons
    obtain ⟨byte, encoded, space⟩ := encodeChar_blank isBlank
    intro other among
    rw [Utf8.encode_cons, encoded] at among
    rcases List.mem_cons.mp among with rfl | among
    · exact space
    · exact ih blank other among

namespace Input

theorem behindSpaces_blank {text : List Char} (blank : Blank text) {byte : UInt8}
    (solid : isSpace byte = false) (closed : Bool) (offset : Nat) (rest : List UInt8) :
    ∃ offset', behindSpaces closed offset (Utf8.encode text ++ byte :: rest) =
      ⟨byte :: rest, offset', closed⟩ := by
  induction text generalizing offset with
  | nil => exact ⟨offset, by simp [behindSpaces, solid]⟩
  | cons char more ih =>
    obtain ⟨isBlank, blank⟩ := blank.cons
    obtain ⟨space, encoded, isSpace⟩ := encodeChar_blank isBlank
    obtain ⟨offset', behind⟩ := ih blank (offset + 1)
    refine ⟨offset', ?_⟩
    rw [Utf8.encode_cons, encoded]
    simp only [List.cons_append, List.nil_append, behindSpaces, isSpace, if_true, behind]

theorem significant_blank {α : Type} {text : List Char} (blank : Blank text) {byte : UInt8}
    (solid : isSpace byte = false) (offset : Nat) (rest : List UInt8) :
    ∃ offset', ∀ (wait : Input → α) (act : UInt8 → Input → Except ParseError α),
      significant ⟨Utf8.encode text ++ byte :: rest, offset, true⟩ wait act =
        act byte ⟨byte :: rest, offset', true⟩ := by
  obtain ⟨offset', behind⟩ := behindSpaces_blank blank solid true offset rest
  exact ⟨offset', fun wait act => by simp only [significant, skipSpaces, behind]⟩

theorem significant_solid {α : Type} {byte : UInt8} (solid : isSpace byte = false) (offset : Nat)
    (rest : List UInt8) (wait : Input → α) (act : UInt8 → Input → Except ParseError α) :
    significant ⟨byte :: rest, offset, true⟩ wait act = act byte ⟨byte :: rest, offset, true⟩ := by
  simp [significant, skipSpaces, behindSpaces, solid]

theorem blank_of_behindSpaces {closed closed' : Bool} {offset offset' : Nat}
    {bytes rest : List UInt8} {byte : UInt8}
    (behind : behindSpaces closed offset bytes = ⟨byte :: rest, offset', closed'⟩) :
    isSpace byte = false ∧ ∃ text, Blank text ∧ bytes = Utf8.encode text ++ byte :: rest := by
  induction bytes generalizing offset with
  | nil => cases behind
  | cons first more ih =>
    rw [behindSpaces] at behind
    split at behind
    · rename_i space
      obtain ⟨solid, text, blank, rfl⟩ := ih behind
      obtain ⟨char, encoded, isBlank⟩ := blank_of_space space
      refine ⟨solid, char :: text, ?_, by rw [Utf8.encode_cons, encoded]; rfl⟩
      intro other among
      rcases List.mem_cons.mp among with rfl | among
      · exact isBlank
      · exact blank other among
    · rename_i solid
      cases behind
      exact ⟨Bool.eq_false_iff.mpr solid, [], .nil, rfl⟩

theorem blank_of_significant {α : Type} {input : Input} {wait : Input → α}
    {act : UInt8 → Input → Except ParseError α} {result : α} (closed : input.closed = true)
    (acted : input.significant wait act = .ok result) :
    ∃ text byte rest offset, Blank text ∧ isSpace byte = false ∧
      input.bytes = Utf8.encode text ++ byte :: rest ∧
        act byte ⟨byte :: rest, offset, true⟩ = .ok result := by
  rw [significant] at acted
  rcases skipped : input.skipSpaces with ⟨bytes, offset, closed'⟩
  have closedEq : closed' = true := by
    rw [← closed, ← closed_skipSpaces, skipped]
  subst closedEq
  rw [skipped] at acted
  cases bytes with
  | nil => cases acted
  | cons byte rest =>
    obtain ⟨solid, text, blank, split⟩ := blank_of_behindSpaces skipped
    exact ⟨text, byte, rest, offset, blank, solid, split, acted⟩

/-! ## Literals -/

theorem matchLiteral_spelled (literal rest : List UInt8) (offset : Nat) :
    ∃ offset', matchLiteral ⟨literal ++ rest, offset, true⟩ literal =
      .ok ([], ⟨rest, offset', true⟩) := by
  refine ⟨offset + literal.length, ?_⟩
  simp [matchLiteral, advance]

theorem spelled_of_matchBytes {literal left : List UInt8} {offset : Nat} {bytes : List UInt8}
    {later : Input} (matched : matchBytes true literal offset bytes = .ok (left, later)) :
    left = [] ∧ later.closed = true ∧ bytes = literal ++ later.bytes := by
  induction literal generalizing offset bytes with
  | nil =>
    cases matched
    exact ⟨rfl, rfl, rfl⟩
  | cons expected more ih =>
    cases bytes with
    | nil => cases matched
    | cons byte bytes =>
      rw [matchBytes] at matched
      split at matched
      · rename_i same
        obtain ⟨nothing, closed, rfl⟩ := ih matched
        exact ⟨nothing, closed, by rw [same]; rfl⟩
      · cases matched

/-- A literal that is matched in a closed input is there to its end. -/
theorem spelled_of_matchLiteral {β : Type} (wrap : List UInt8 → β) {literal bytes : List UInt8}
    {offset : Nat} {scratch : Scratch} {advance : Advance β}
    (acted : (matchLiteral ⟨bytes, offset, true⟩ literal).map
      (fun (left, input) => (⟨wrap left, input, scratch, literalStep left⟩ : Advance β)) =
        .ok advance) :
    ∃ later : Input, later.closed = true ∧ bytes = literal ++ later.bytes ∧
      advance = ⟨wrap [], later, scratch, .complete⟩ := by
  rw [matchLiteral_eq] at acted
  obtain ⟨⟨left, later⟩, matched, rfl⟩ := map_eq_ok_iff.mp acted
  obtain ⟨rfl, closed, spelled⟩ := spelled_of_matchBytes matched
  exact ⟨later, closed, spelled, rfl⟩

end Input

/-! ## What may follow a value -/

/-- The bytes end a number in front of them. -/
def Delimits : List UInt8 → Prop
  | [] => True
  | byte :: _ => isSpace byte ∨ byte = comma ∨ byte = rightBracket ∨ byte = rightBrace

theorem Delimits.blank_append {text : List Char} (blank : Blank text) {rest : List UInt8}
    (delimits : Delimits rest) : Delimits (Utf8.encode text ++ rest) := by
  cases text with
  | nil => exact delimits
  | cons char more =>
    obtain ⟨isBlank, -⟩ := blank.cons
    obtain ⟨byte, encoded, space⟩ := encodeChar_blank isBlank
    rw [Utf8.encode_cons, encoded]
    exact .inl space

theorem Delimits.stops {rest : List UInt8} (delimits : Delimits rest) (literal : Literal) :
    literal.lexer.Stops rest := by
  cases rest with
  | nil => trivial
  | cons byte more =>
    have notDigit : isDigit byte = false ∧ byte ≠ Ascii.point ∧ byte ≠ lowerE ∧ byte ≠ upperE := by
      rcases delimits with space | rfl | rfl | rfl
      · simp only [isSpace, Bool.or_eq_true, beq_iff_eq] at space
        rcases space with ((rfl | rfl) | rfl) | rfl <;> decide
      · decide
      · decide
      · decide
    obtain ⟨notDigit, notPoint, notLower, notUpper⟩ := notDigit
    obtain ⟨negative, whole, fraction, exponent⟩ := literal
    cases exponent with
    | some part =>
      simp [NumberLexer.Stops, NumberLexer.next?, Literal.lexer, Literal.lexerAt, Literal.part,
        notDigit]
    | none =>
      cases fraction with
      | some digits =>
        simp [NumberLexer.Stops, NumberLexer.next?, Literal.lexer, Literal.lexerAt, Literal.part,
          notDigit, notLower, notUpper]
      | none =>
        cases whole <;>
          simp [NumberLexer.Stops, NumberLexer.next?, Literal.lexer, Literal.lexerAt,
            Literal.part, WholePart.part, notDigit, notPoint, notLower, notUpper]

theorem Literal.bytes_head (literal : Literal) :
    ∃ byte rest, literal.bytes = byte :: rest ∧ (byte = Ascii.minus ∨ isDigit byte) := by
  obtain ⟨negative, whole, fraction, exponent⟩ := literal
  rw [Literal.bytes_eq]
  cases negative with
  | true => exact ⟨_, _, rfl, .inl rfl⟩
  | false =>
    cases whole with
    | zero => exact ⟨_, _, rfl, .inr rfl⟩
    | digits first rest =>
      exact ⟨_, _, rfl, .inr (Digit.byte_known _).2.1⟩

theorem solid_of_number {byte : UInt8} (begins : byte = Ascii.minus ∨ isDigit byte) :
    isSpace byte = false := by
  rcases begins with rfl | isDigit
  · rfl
  · obtain ⟨digit, rfl⟩ := Digit.of_isDigit isDigit
    have solid : ∀ digit : Digit, isSpace digit.byte = false := by decide
    exact solid digit

/-! ## Between quotes -/

theorem encode_quotedText (items : List StringItem) :
    Utf8.encode (quotedText items) =
      Ascii.quote :: (Utf8.encode (items.flatMap StringItem.text) ++ [Ascii.quote]) := by
  have quote : Utf8.encodeChar '"' = [Ascii.quote] := rfl
  rw [quotedText, List.cons_append, Utf8.encode_cons, Utf8.encode_append]
  simp [quote]

theorem StringLexer.scan_items {items : List StringItem} (paired : surrogatesPaired items)
    (offset : Nat) (rest : List UInt8) :
    ∃ octets tail offset', StringLexer.scan {} #[]
        ⟨Utf8.encode (items.flatMap StringItem.text) ++ Ascii.quote :: rest, offset, true⟩ =
          .ok (.closed octets tail ⟨rest, offset', true⟩) ∧
      octets.toList ++ tail.toList = Utf8.encode (unescape items) := by
  have contents := (contents?_eq_some_iff (Utf8.encode (items.flatMap StringItem.text) ++
    Ascii.quote :: rest) rest (unescape items)).mpr ⟨items, rfl, paired, rfl⟩
  obtain ⟨octets, tail, offset', scanned, total⟩ :=
    StringLexer.scanBytes_of_contents? true #[] #[] offset contents
  exact ⟨octets, tail, offset', scanned, by simpa using total⟩

theorem StringLexer.items_of_scan {bytes : List UInt8} {offset : Nat} {octets tail : Array UInt8}
    {later : Input} {text : String}
    (scanned : StringLexer.scan {} #[] ⟨bytes, offset, true⟩ = .ok (.closed octets tail later))
    (decoded : Utf8.decodeString (octets.toList ++ tail.toList) = .ok text) :
    later.closed = true ∧ ∃ items, textOf? items = some text ∧
      Ascii.quote :: bytes = Utf8.encode (quotedText items) ++ later.bytes := by
  obtain ⟨closed, added, contents, total⟩ := StringLexer.contents?_of_scanBytes scanned
  have spelled := (Utf8.decodeString_eq_ok_iff _ _).mp decoded
  have added' : added = Utf8.encode text.toList := by
    rw [← Utf8.encodeString, ← spelled, total]
    rfl
  rw [added'] at contents
  obtain ⟨items, split, paired, stands⟩ := (contents?_eq_some_iff bytes _ _).mp contents
  refine ⟨closed, items, ?_, ?_⟩
  · rw [textOf?, if_pos paired, stands, String.ofList_toList]
  · rw [encode_quotedText, split]
    simp

/-! ## Bodies of scalars -/

namespace FrameBody

variable {schema : Schema}

theorem resume_nullText (schema : Schema) (offset : Nat) (rest : List UInt8) :
    ∃ offset', (start schema .null).resume schema ⟨nullText ++ rest, offset, true⟩ #[] =
      .ok ⟨.null (some []), ⟨rest, offset', true⟩, #[], .complete⟩ := by
  obtain ⟨offset', matched⟩ := Input.matchLiteral_spelled nullText rest offset
  refine ⟨offset', ?_⟩
  simp only [start, resume]
  rw [nullText, List.cons_append, Input.significant_solid rfl, if_pos rfl, resumeNull]
  rw [nullText, List.cons_append] at matched
  rw [matched]
  rfl

theorem resume_boolText (schema : Schema) (value : Bool) (offset : Nat) (rest : List UInt8) :
    ∃ offset', (start schema .bool).resume schema
        ⟨(if value then trueText else falseText) ++ rest, offset, true⟩ #[] =
      .ok ⟨.bool value (some []), ⟨rest, offset', true⟩, #[], .complete⟩ := by
  cases value with
  | true =>
    obtain ⟨offset', matched⟩ := Input.matchLiteral_spelled trueText rest offset
    refine ⟨offset', ?_⟩
    simp only [start, resume, if_true]
    rw [trueText, List.cons_append, Input.significant_solid rfl, if_pos rfl, resumeBool]
    rw [trueText, List.cons_append] at matched
    rw [matched]
    rfl
  | false =>
    obtain ⟨offset', matched⟩ := Input.matchLiteral_spelled falseText rest offset
    refine ⟨offset', ?_⟩
    simp only [start, resume, Bool.false_eq_true, if_false]
    rw [falseText, List.cons_append, Input.significant_solid rfl, if_neg (by decide), if_pos rfl,
      resumeBool]
    rw [falseText, List.cons_append] at matched
    rw [matched]
    rfl

theorem resume_literal {type : NumberType} {literal : Literal} {value : NumberValue}
    (read : literal.readAs type = some value) (offset : Nat) {rest : List UInt8}
    (delimits : Delimits rest) :
    ∃ offset', (start schema (.number type)).resume schema
        ⟨literal.bytes ++ rest, offset, true⟩ #[] =
      .ok ⟨.number type literal.lexer false (some value), ⟨rest, offset', true⟩, #[],
        .complete⟩ := by
  obtain ⟨byte, more, bytes, begins⟩ := literal.bytes_head
  obtain ⟨text, offset', scanned, total⟩ :=
    NumberLexer.scan_literal literal offset (delimits.stops literal)
  have value' : type.read literal.lexer literal.bytes = .ok value := by
    have option := type.read_literal literal
    rw [read] at option
    cases ends : type.read literal.lexer literal.bytes with
    | error error =>
      rw [ends] at option
      cases option
    | ok value =>
      rw [ends] at option
      cases option
      rfl
  refine ⟨offset', ?_⟩
  rw [bytes, List.cons_append] at scanned
  simp only [start, resume, startNumber, if_true]
  rw [bytes, List.cons_append, Input.significant_solid (solid_of_number begins), if_pos begins,
    resumeNumber, scanned]
  simp only [Bool.false_eq_true, if_false, endNumber, total, value', Except.map]

theorem resume_quotedText (schema : Schema) {items : List StringItem}
    (paired : surrogatesPaired items) (offset : Nat) (rest : List UInt8) :
    ∃ octets offset', (start schema .string).resume schema
        ⟨Utf8.encode (quotedText items) ++ rest, offset, true⟩ #[] =
      .ok ⟨.string (some {}) octets, ⟨rest, offset', true⟩, #[], .complete⟩ ∧
        octets.toList = Utf8.encode (unescape items) := by
  obtain ⟨octets, tail, offset', scanned, total⟩ :=
    StringLexer.scan_items paired (offset + 1) rest
  refine ⟨octets ++ tail, offset', ?_, ?_⟩
  · simp only [start, resume]
    rw [encode_quotedText, List.cons_append, List.append_assoc, Input.significant_solid rfl,
      if_pos rfl, resumeString]
    simp only [Input.next, List.tail_cons, List.singleton_append]
    rw [scanned]
  · simpa using total

/-- What a body reads at once: a text behind whitespace, whose meaning is the value of the
body. -/
structure Token (schema : Schema) (core : Shape) (input : Input) (advance : Advance FrameBody) :
    Prop where
  completes : advance.step = .complete
  closed : advance.input.closed = true
  empty : advance.scratch = #[]
  spelled : ∀ value, advance.body.result = .ok value →
    ∃ blank text json, Blank blank ∧ Spells text json ∧
      input.bytes = Utf8.encode blank ++ Utf8.encode text ++ advance.input.bytes ∧
      json.readAs schema core = some value

theorem token_null {input : Input} {advance : Advance FrameBody} (closed : input.closed = true)
    (resumed : (start schema .null).resume schema input #[] = .ok advance) :
    Token schema .null input advance := by
  simp only [start, resume] at resumed
  obtain ⟨blank, byte, rest, offset, isBlank, -, split, acted⟩ :=
    Input.blank_of_significant closed resumed
  by_cases begins : byte = lowerN
  · rw [if_pos begins] at acted
    obtain ⟨later, closed', spelled, rfl⟩ :=
      Input.spelled_of_matchLiteral (fun left => null (some left)) acted
    refine ⟨rfl, closed', rfl, fun value result => ?_⟩
    cases result
    refine ⟨blank, _, _, isBlank, .null, ?_, rfl⟩
    rw [split, spelled, List.append_assoc]
    rfl
  · rw [if_neg begins] at acted
    cases acted

theorem token_bool {input : Input} {advance : Advance FrameBody} (closed : input.closed = true)
    (resumed : (start schema .bool).resume schema input #[] = .ok advance) :
    Token schema .bool input advance := by
  simp only [start, resume] at resumed
  obtain ⟨blank, byte, rest, offset, isBlank, -, split, acted⟩ :=
    Input.blank_of_significant closed resumed
  have literal (truth : Bool) (text : List Char) (bytes : List UInt8)
      (bytes' : bytes = Utf8.encode text) (spells : Spells text (.bool truth))
      (acted : resumeBool truth bytes ⟨byte :: rest, offset, true⟩ #[] = .ok advance) :
      Token schema .bool input advance := by
    obtain ⟨later, closed', spelled, rfl⟩ :=
      Input.spelled_of_matchLiteral (fun left => bool truth (some left)) acted
    refine ⟨rfl, closed', rfl, fun value result => ?_⟩
    cases result
    refine ⟨blank, text, _, isBlank, spells, ?_, rfl⟩
    rw [split, spelled, List.append_assoc, bytes']
  by_cases isTrue : byte = lowerT
  · rw [if_pos isTrue] at acted
    exact literal true _ trueText rfl .trueText acted
  · by_cases isFalse : byte = lowerF
    · rw [if_neg isTrue, if_pos isFalse] at acted
      exact literal false _ falseText rfl .falseText acted
    · rw [if_neg isTrue, if_neg isFalse] at acted
      cases acted

theorem token_number {type : NumberType} {input : Input} {advance : Advance FrameBody}
    (closed : input.closed = true)
    (resumed : (start schema (.number type)).resume schema input #[] = .ok advance) :
    Token schema (.number type) input advance := by
  simp only [start, resume, startNumber, if_true] at resumed
  obtain ⟨blank, byte, rest, offset, isBlank, -, split, acted⟩ :=
    Input.blank_of_significant closed resumed
  by_cases begins : byte = Ascii.minus ∨ isDigit byte
  · rw [if_pos begins, resumeNumber] at acted
    cases scanned : NumberLexer.scan {} ⟨byte :: rest, offset, true⟩ with
    | error error =>
      simp only [scanned] at acted
      cases acted
    | ok scan =>
      obtain ⟨lexer, text, later, ended⟩ := scan
      cases ended with
      | false =>
        exfalso
        exact NumberLexer.scanBytes_ended scanned
      | true =>
        simp only [scanned, Bool.false_eq_true, if_false, endNumber] at acted
        obtain ⟨number, read, rfl⟩ := map_eq_ok_iff.mp acted
        have canEnd : lexer.canEnd := by
          by_cases canEnd : lexer.canEnd
          · exact canEnd
          · simp only [NumberType.read, Bool.eq_false_iff.mpr canEnd, Bool.not_false,
              if_true] at read
            cases read
        obtain ⟨closed', literal, rfl, total, bytes⟩ := NumberLexer.literal_of_scan scanned canEnd
        have readAs := type.read_literal literal
        rw [← total, read] at readAs
        refine ⟨rfl, closed', rfl, fun value result => ?_⟩
        cases result
        refine ⟨blank, _, _, isBlank, .number literal, ?_, ?_⟩
        · have bytes' : byte :: rest = literal.bytes ++ later.bytes := bytes
          rw [split, bytes', List.append_assoc]
          rfl
        · simp only [Json.readAs, Json.innerShape, Shape.core, reduceCtorEq, if_false, ← readAs]
          rfl
  · rw [if_neg begins] at acted
    cases acted

theorem token_string {input : Input} {advance : Advance FrameBody} (closed : input.closed = true)
    (resumed : (start schema .string).resume schema input #[] = .ok advance) :
    Token schema .string input advance := by
  simp only [start, resume] at resumed
  obtain ⟨blank, byte, rest, offset, isBlank, -, split, acted⟩ :=
    Input.blank_of_significant closed resumed
  by_cases begins : byte = Ascii.quote
  · rw [if_pos begins, resumeString] at acted
    cases scanned : StringLexer.scan {} #[] (Input.next ⟨byte :: rest, offset, true⟩) with
    | error error =>
      rw [scanned] at acted
      cases acted
    | ok scan =>
      rw [scanned] at acted
      cases scan with
      | pending lexer octets later =>
        exfalso
        exact StringLexer.scanBytes_not_pending scanned
      | closed octets tail later =>
        obtain ⟨closed', -⟩ := StringLexer.contents?_of_scanBytes scanned
        cases acted
        refine ⟨rfl, closed', rfl, fun value result => ?_⟩
        simp only [FrameBody.result, Array.toList_append] at result
        cases decoded : Utf8.decodeString (octets.toList ++ tail.toList) with
        | error error =>
          rw [decoded] at result
          cases result
        | ok string =>
          rw [decoded] at result
          cases result
          obtain ⟨-, items, stands, spelled⟩ := StringLexer.items_of_scan scanned decoded
          refine ⟨blank, _, _, isBlank, .string items, ?_, ?_⟩
          · rw [split, begins, List.append_assoc]
            exact congrArg _ spelled
          · simp [Json.readAs, Json.innerShape, Shape.core, stands, Json.wrap, Shape.wrap]
  · rw [if_neg begins] at acted
    cases acted

end FrameBody

end IncrementalJson
