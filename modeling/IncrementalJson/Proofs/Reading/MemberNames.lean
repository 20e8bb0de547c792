import IncrementalJson.Proofs.Reading.Layers
import IncrementalJson.Proofs.Reading.Tables
import IncrementalJson.Proofs.Reading.Unescaping

/-!
# Names of members

The octets of a name go through the scratch bytes and a tail that is not copied,
those of a string value into its frame.  Both decode alike: what is no string
between quotes is no name either, for the same reason.  A name then leads to the
declared member that is spelled by the same octets, if there is one.
-/

set_option autoImplicit false

namespace IncrementalJson

open Ascii

variable {schema : Schema}

/-! ## Bytes between quotes -/

/-- Whether every quote among bytes is escaped, read from left to right; `escaped` tells whether a
backslash is in front of the first of them. -/
def quoteFree : (escaped : Bool) → List UInt8 → Bool
  | _, [] => true
  | true, _ :: rest => quoteFree false rest
  | false, byte :: rest =>
    if byte = backslash then quoteFree true rest else byte ≠ quote ∧ quoteFree false rest

def ParseError.moved (count : Nat) : ParseError → ParseError
  | .unexpectedByte byte offset => .unexpectedByte byte (offset + count)
  | .unescapedControlCharacter byte offset => .unescapedControlCharacter byte (offset + count)
  | .typeMismatch expected offset => .typeMismatch expected (offset + count)
  | error => error

namespace StringLexer

theorem step_moved (lexer : StringLexer) (byte : UInt8) (offset count : Nat) :
    lexer.step byte (offset + count) = (lexer.step byte offset).mapError (.moved count) := by
  obtain ⟨part, pending⟩ := lexer
  cases part with
  | body | escape =>
    simp only [step]
    repeat' split
    all_goals rfl
  | unicode read value =>
    simp only [step, takeUnit]
    repeat' split
    all_goals rfl

def escapes (lexer : StringLexer) : Bool := lexer.part = .escape

theorem takeUnit_escapes {pending : Option Nat} {unit : Nat} {step : Unescaped}
    (taken : takeUnit pending unit = .ok step) :
    ∃ later added, step = .more later added ∧ later.escapes = false := by
  unfold takeUnit at taken
  repeat' split at taken
  all_goals cases taken
  all_goals exact ⟨_, _, rfl, rfl⟩

theorem quoteFree_step {lexer : StringLexer} {byte : UInt8} {rest : List UInt8}
    (free : quoteFree lexer.escapes (byte :: rest)) {offset : Nat} {step : Unescaped}
    (stepped : lexer.step byte offset = .ok step) :
    match step with
    | .plain => quoteFree lexer.escapes rest
    | .more later _ => quoteFree later.escapes rest
    | .closed => False := by
  obtain ⟨part, pending⟩ := lexer
  cases part with
  | body =>
    have open_ : escapes ⟨.body, pending⟩ = false := rfl
    rw [open_, quoteFree] at free
    simp only [StringLexer.step] at stepped
    by_cases behind : byte = backslash
    · rw [if_pos behind] at free stepped
      cases stepped
      exact free
    · rw [if_neg behind] at free stepped
      obtain ⟨notQuote, free⟩ := of_decide_eq_true free
      rw [if_neg notQuote] at stepped
      split at stepped
      · cases stepped
      · split at stepped
        · cases stepped
        · cases stepped
          exact free
  | escape =>
    have free' : quoteFree false rest := free
    simp only [StringLexer.step] at stepped
    repeat' split at stepped
    all_goals cases stepped
    all_goals exact free'
  | unicode count value =>
    have open_ : escapes ⟨.unicode count value, pending⟩ = false := rfl
    rw [open_, quoteFree] at free
    simp only [StringLexer.step] at stepped
    by_cases behind : byte = backslash
    · subst behind
      cases stepped
    · rw [if_neg behind] at free
      obtain ⟨-, free⟩ := of_decide_eq_true free
      split at stepped
      · cases stepped
      · split at stepped
        · cases stepped
          exact free
        · split at stepped
          · obtain ⟨later, added, rfl, notEscaped⟩ := takeUnit_escapes stepped
            show quoteFree later.escapes rest = true
            rw [notEscaped]
            exact free
          · cases stepped

theorem step_quote {lexer : StringLexer} {offset : Nat} {step : Unescaped}
    (stepped : lexer.step quote offset = .ok step) :
    step = .closed ∨ step = .more {} [quote] := by
  obtain ⟨part, pending⟩ := lexer
  cases part with
  | body =>
    cases pending <;> cases stepped
    exact .inl rfl
  | escape =>
    cases pending <;> cases stepped
    exact .inr rfl
  | unicode => cases stepped

/-- The quote behind bytes that leave no quote unescaped ends the string, unless there is an
offence up to it, or a backslash in front of it.  In the last case what is behind the quote goes
on with the string, and does not end it either. -/
theorem scanned_between {back : List UInt8}
    (endless : ∀ (before : Array UInt8) (offset : Nat),
      scanned true {} before offset back = .error .endOfData)
    {name : List UInt8} (lexer : StringLexer) (free : quoteFree lexer.escapes name)
    (before : Array UInt8) (offset : Nat) :
    (∃ error, scanned true lexer before offset (name ++ [quote]) = .error error ∧
      scanned true lexer before (offset + 1) (name ++ quote :: back) = .error (error.moved 1)) ∨
    ∃ octets, scanned true lexer before offset (name ++ [quote]) =
        .ok (.closed octets #[] ⟨[], offset + name.length + 1, true⟩) ∧
      scanned true lexer before (offset + 1) (name ++ quote :: back) =
        .ok (.closed octets #[] ⟨back, offset + 1 + name.length + 1, true⟩) := by
  induction name generalizing lexer before offset with
  | nil =>
    simp only [List.nil_append, scanned_cons, step_moved, List.length_nil, Nat.add_zero]
    rcases stepped : lexer.step quote offset with error | step
    · exact .inl ⟨error, rfl, rfl⟩
    · cases step with
      | plain =>
        have impossible := step_quote stepped
        simp at impossible
      | more later added =>
        obtain ⟨rfl, rfl⟩ : later = {} ∧ added = [quote] := by
          simpa using step_quote stepped
        have refused := endless (before ++ [quote]) (offset + 1 + 1)
        exact .inl ⟨.endOfData, rfl, refused⟩
      | closed => exact .inr ⟨before, rfl, rfl⟩
  | cons byte name ih =>
    have longer (start : Nat) : start + (byte :: name).length = start + 1 + name.length := by
      rw [List.length_cons]
      omega
    simp only [List.cons_append, scanned_cons, step_moved, longer]
    rcases stepped : lexer.step byte offset with error | step
    · exact .inl ⟨error, rfl, rfl⟩
    · have free := quoteFree_step free stepped
      cases step with
      | plain => exact ih lexer free (before ++ [byte]) (offset + 1)
      | more later added => exact ih later free (before ++ added) (offset + 1)
      | closed => exact free.elim

end StringLexer

/-- Bytes that leave no quote unescaped decode between the quotes of a name as they do between those
of a document, one byte further on. -/
theorem decodeQuoted_between {back : List UInt8}
    (endless : ∀ (before : Array UInt8) (offset : Nat),
      StringLexer.scanned true {} before offset back = .error .endOfData)
    {name : List UInt8} (free : quoteFree false name) (offset : Nat) :
    (∃ error, decodeQuoted offset (name ++ [quote]) = .error error ∧
      decodeQuoted (offset + 1) (name ++ quote :: back) = .error (error.moved 1)) ∨
    ∃ octets, decodeQuoted offset (name ++ [quote]) =
        .ok ⟨octets, [], offset + name.length + 1⟩ ∧
      decodeQuoted (offset + 1) (name ++ quote :: back) =
        .ok ⟨octets, back, offset + 1 + name.length + 1⟩ := by
  rcases StringLexer.scanned_between endless {} free #[] offset with
    ⟨error, first, second⟩ | ⟨octets, first, second⟩
  · exact .inl ⟨error, StringLexer.decodeQuoted_of_scanned_error first,
      StringLexer.decodeQuoted_of_scanned_error second⟩
  · exact .inr ⟨octets.toList, StringLexer.decodeQuoted_of_scanned_closed first,
      StringLexer.decodeQuoted_of_scanned_closed second⟩

/-! ## An object with one member -/

namespace FrameBody

variable {table : Table} {target : Option Target} {members : List Value}
  {presence : PresenceBits 64} {extras : Entries Value} {offset : Nat} {bytes : List UInt8}

theorem objectInName_refused (closed : Bool) {error : ParseError}
    (refused : decodeQuoted offset bytes = .error error)
    (offence : closed = true ∨ error ≠ .endOfData) :
    objectInName schema table {} target members presence extras ⟨bytes, offset, closed⟩ #[] =
      .error error := by
  have scan : (StringLexer.scan {} #[] ⟨bytes, offset, closed⟩).map StringScan.joined =
      .error error := StringLexer.scanned_of_refused closed #[] refused offence
  rw [objectInName_joined, scan]

theorem objectInName_decoded (closed : Bool) {quoted : Quoted}
    (decoded : decodeQuoted offset bytes = .ok quoted) :
    objectInName schema table {} target members presence extras ⟨bytes, offset, closed⟩ #[] =
      match table.resolve schema extras quoted.octets [] with
      | .error error => .error error
      | .ok (target, extras) =>
        objectColon schema table (some target) members presence extras
          ⟨quoted.rest, quoted.offset, closed⟩ #[] := by
  have scan : (StringLexer.scan {} #[] ⟨bytes, offset, closed⟩).map StringScan.joined =
      .ok (StringLexer.atEnd #[] closed quoted) :=
    StringLexer.scanned_of_decoded closed #[] decoded
  have same : table.resolve schema extras ((#[] : Array UInt8) ++ quoted.octets).toList
      (#[] : Array UInt8).toList = table.resolve schema extras quoted.octets [] := by
    simp
  rw [objectInName_joined, scan]
  cases found : table.resolve schema extras quoted.octets [] <;>
    simp only [StringLexer.atEnd, same, found]

theorem objectName_spaces (first : Bool) {before : List UInt8}
    (blank : ∀ byte ∈ before, isSpace byte) (offset : Nat) (closed : Bool) (bytes : List UInt8)
    (scratch : Scratch) :
    objectName schema table first target members presence extras
        ⟨before ++ quote :: bytes, offset, closed⟩ scratch =
      objectInName schema table {} target members presence extras
        ⟨bytes, offset + before.length + 1, closed⟩ scratch := by
  rw [objectName, Input.significant_spaces blank rfl, if_pos rfl]
  rfl

end FrameBody

theorem Table.resolve_ofExtra (schema : Schema) (item : Shape) (octets : List UInt8) :
    (ofExtra item).resolve schema [] octets [] =
      ((Utf8.decodeString octets).mapError .invalidUtf8).map fun name =>
        (.extra 0, [(name, schema.initial item)]) := by
  have undeclared : (ofExtra item).findSplit? octets [] = none := rfl
  simp only [resolve, undeclared, List.append_nil]
  cases Utf8.decodeString octets <;> rfl

theorem Frame.resume_member (schema : Schema) (closed : Bool) (bytes : List UInt8) :
    (start schema (.extras .bool)).resume schema ⟨leftBrace :: quote :: bytes, 0, closed⟩ #[] =
      (FrameBody.objectInName schema (.ofExtra .bool) {} none [] (.forMembers 0) []
        ⟨bytes, 2, closed⟩ #[]).map (.map (.core (.extras .bool))) := rfl

theorem parse_member_of_refused (schema : Schema) {limit : Option Nat} (room : limit ≠ some 0)
    {bytes : List UInt8} {error : ParseError} (refused : decodeQuoted 2 bytes = .error error) :
    parse schema (.extras .bool) (leftBrace :: quote :: bytes) limit = .error error := by
  apply parse_of_error room
  rw [Frame.resume_member, FrameBody.objectInName_refused true refused (.inl rfl)]
  rfl

theorem Stack.push_second {limit : Option Nat} (room : ∀ most, limit = some most → 2 ≤ most)
    (top child : Frame) (scratch : Scratch) :
    Stack.push ⟨[top], 1, limit, scratch⟩ child = .ok ⟨[child, top], 2, limit, scratch⟩ := by
  cases limit with
  | none => rfl
  | some most =>
    have enough := room most rfl
    rw [push, if_neg]
    simp only [List.length_cons, List.length_nil]
    omega

theorem ne_zero_of_room {limit : Option Nat} (room : ∀ most, limit = some most → 2 ≤ most) :
    limit ≠ some 0 := by
  rintro rfl
  exact absurd (room 0 rfl) (by omega)

theorem parse_member_of_decoded (schema : Schema) {limit : Option Nat}
    (room : ∀ most, limit = some most → 2 ≤ most) {bytes octets : List UInt8} {offset : Nat}
    (decoded : decodeQuoted 2 bytes = .ok ⟨octets, colon :: trueText ++ [rightBrace], offset⟩) :
    parse schema (.extras .bool) (leftBrace :: quote :: bytes) limit =
      ((Utf8.decodeString octets).mapError .invalidUtf8).map fun name =>
        .object [] (.forMembers 0) [(name, .bool true)] := by
  have some := ne_zero_of_room room
  have turn := Frame.resume_member schema true bytes
  rw [FrameBody.objectInName_decoded true decoded, Table.resolve_ofExtra] at turn
  cases text : Utf8.decodeString octets with
  | error error =>
    rw [text] at turn
    exact parse_of_error some turn
  | ok name =>
    rw [text] at turn
    let shape : Shape := .extras .bool
    let unread := schema.initial shape
    let whole : Value := .object [] (.forMembers 0) [(name, .bool true)]
    let waits : Frame := .core shape (.object (.ofExtra .bool) .pending
      (Option.some (.extra 0)) [] (.forMembers 0) [(name, .bool false)])
    let read : Frame := .core .bool (.bool true (Option.some []))
    let behind : Frame := .core shape (.object (.ofExtra .bool) .comma none []
      (.forMembers 0) [(name, .bool true)])
    have calls : (readDriver schema shape).resume
        ⟨⟨leftBrace :: quote :: bytes, 0, true⟩, unread⟩ (.start schema shape) #[] =
        ⟨⟨⟨trueText ++ [rightBrace], offset + 1, true⟩, unread⟩, waits, #[],
          .ok (.call (.start schema .bool))⟩ := readDriver_resume_ok shape turn
    have reads : (readDriver schema shape).resume
        ⟨⟨trueText ++ [rightBrace], offset + 1, true⟩, unread⟩ (.start schema .bool) #[] =
        ⟨⟨⟨[rightBrace], offset + 5, true⟩, unread⟩, read, #[], .ok .complete⟩ :=
      readDriver_resume_ok shape rfl
    have taken : waits.accept read = .ok behind := by
      simp [waits, read, behind, Frame.accept, FrameBody.accept, Table.ofExtra, Frame.deliver,
        Frame.deliverInto, FrameBody.result, Except.map]
    have accepted : Stack.handOver (readDriver schema shape)
        ⟨⟨[rightBrace], offset + 5, true⟩, unread⟩ read ⟨[waits], 1, limit, #[]⟩ =
        (⟨⟨[rightBrace], offset + 5, true⟩, unread⟩, ⟨[behind], 1, limit, #[]⟩, .ok ()) := by
      simp only [Stack.handOver, readDriver, taken]
    have closes : (readDriver schema shape).resume ⟨⟨[rightBrace], offset + 5, true⟩, unread⟩
        behind #[] = ⟨⟨⟨[], offset + 6, true⟩, unread⟩, behind, #[], .ok .complete⟩ :=
      readDriver_resume_ok shape rfl
    have finished : Stack.handOver (readDriver schema shape) ⟨⟨[], offset + 6, true⟩, unread⟩
        behind ⟨[], 0, limit, #[]⟩ =
        (⟨⟨[], offset + 6, true⟩, whole⟩, ⟨[], 0, limit, #[]⟩, .ok ()) := rfl
    exact parse_eq_answer schema shape some (.call calls (Stack.push_second room _ _ _)
      (.complete reads accepted (.complete closes finished .empty)))

theorem parse_string_or_member (schema : Schema) {limit : Option Nat}
    (room : ∀ most, limit = some most → 2 ≤ most) {name : List UInt8}
    (free : quoteFree false name) :
    (∃ error, parse schema .string (quote :: (name ++ [quote])) limit = .error error ∧
      parse schema (.extras .bool)
        (leftBrace :: quote :: (name ++ quote :: colon :: trueText ++ [rightBrace])) limit =
          .error (error.moved 1)) ∨
    ∃ text, parse schema .string (quote :: (name ++ [quote])) limit = .ok (.string text) ∧
      parse schema (.extras .bool)
        (leftBrace :: quote :: (name ++ quote :: colon :: trueText ++ [rightBrace])) limit =
          .ok (.object [] (.forMembers 0) [(text, .bool true)]) := by
  have some := ne_zero_of_room room
  have whole : name ++ quote :: colon :: trueText ++ [rightBrace] =
      name ++ quote :: (colon :: trueText ++ [rightBrace]) := by
    simp
  have document := parse_eq_readQuoted schema some (List.forall_mem_nil _) (name ++ [quote])
  simp only [List.nil_append, List.length_nil, Nat.zero_add] at document
  rw [document, whole, readQuoted]
  have endless (before : Array UInt8) (offset : Nat) : StringLexer.scanned true {} before offset
      (colon :: trueText ++ [rightBrace]) = .error .endOfData := rfl
  rcases decodeQuoted_between endless free 1 with
    ⟨error, first, second⟩ | ⟨octets, first, second⟩
  · rw [first, parse_member_of_refused schema some second]
    exact .inl ⟨error, rfl, rfl⟩
  · rw [first, parse_member_of_decoded schema room second]
    simp only [bind, Except.bind]
    cases Utf8.decodeString octets with
    | error error => exact .inl ⟨.invalidUtf8 error, rfl, rfl⟩
    | ok text => exact .inr ⟨text, rfl, rfl⟩

/-! ## Names of declared members -/

namespace Table

variable (schema : Schema) (table : Table) (extras : Entries Value) (octets : List UInt8)

theorem resolve_eq_field_iff (index : Nat) :
    table.resolve schema extras octets [] = .ok (.field index, extras) ↔
      ∃ field, table.fields[index]? = some field ∧ Utf8.encodeString field.name = octets ∧
        ∀ earlier < index, ∀ other, table.fields[earlier]? = some other →
          other.name ≠ field.name := by
  rw [resolve_eq_ok_iff, List.append_nil]
  constructor
  · rintro ⟨name, slot, spelled, found, same⟩
    obtain ⟨_, field, rfl, known⟩ | ⟨_, rfl, -⟩ := memberSlot?_cases found
    · cases same
      obtain ⟨there, rfl, first⟩ := (lookup?_eq_some_iff table name index field).mp known
      exact ⟨field, there, spelled.symm, first⟩
    · cases same
  · rintro ⟨field, there, spelled, first⟩
    have found := (lookup?_eq_some_iff table field.name index field).mpr ⟨there, rfl, first⟩
    exact ⟨field.name, .field index field, spelled.symm, by rw [memberSlot?, found], rfl⟩

theorem exists_resolve_field_iff {field : Field} (declared : field ∈ table.fields) :
    (∃ index selected, table.resolve schema extras octets [] = .ok (.field index, extras) ∧
      table.fields[index]? = some selected ∧ selected.name = field.name) ↔
        Utf8.encodeString field.name = octets := by
  constructor
  · rintro ⟨index, selected, found, there, same⟩
    obtain ⟨field', there', spelled, -⟩ := (resolve_eq_field_iff _ _ _ _ index).mp found
    cases there.symm.trans there'
    rw [← same]
    exact spelled
  · intro spelled
    cases found : table.lookup? field.name with
    | none =>
      rw [lookup?_eq_none_iff] at found
      exact absurd rfl (found field declared)
    | some place =>
      obtain ⟨index, selected⟩ := place
      obtain ⟨there, same, first⟩ := (lookup?_eq_some_iff _ _ _ _).mp found
      rw [← same] at first
      refine ⟨index, selected, ?_, there, same⟩
      exact (resolve_eq_field_iff _ _ _ _ index).mpr ⟨selected, there, same ▸ spelled, first⟩

end Table

/-- The newest frame of a parser is an object of a table in front of a name. -/
structure Parser.AwaitsName (parser : Parser) (table : Table) (extras : Entries Value) :
    Prop where
  live : parser.Live
  newest : ∃ top below fresh limit first target members presence,
    parser.stack = ⟨top :: below, fresh, limit, #[]⟩ ∧
      top.body? = some (.object table (.name first) target members presence extras)

def FrameBody.named (target : Target) (extras : Entries Value) : FrameBody → FrameBody
  | .object table _ _ members presence _ =>
    .object table .colon (some target) members presence extras
  | body => body

def Frame.named (target : Target) (extras : Entries Value) (frame : Frame) : Frame :=
  match frame.body? with
  | some body => frame.within (body.named target extras)
  | none => frame

/-- A name that has been read leads on as if its target had been known before the bytes behind
it. -/
theorem Frame.resume_name (schema : Schema) {frame : Frame} {table : Table} {first : Bool}
    {target : Option Target} {members : List Value} {presence : PresenceBits 64}
    {extras : Entries Value}
    (works : frame.body? = some (.object table (.name first) target members presence extras))
    {before : List UInt8} (blank : ∀ byte ∈ before, isSpace byte)
    (closed : Bool) {offset : Nat} {bytes : List UInt8} {quoted : Quoted}
    (decoded : decodeQuoted (offset + before.length + 1) bytes = .ok quoted) :
    frame.resume schema ⟨before ++ quote :: bytes, offset, closed⟩ #[] =
      match table.resolve schema extras quoted.octets [] with
      | .error error => .error error
      | .ok (target, extras) =>
        (frame.named target extras).resume schema ⟨quoted.rest, quoted.offset, closed⟩ #[] := by
  rw [resume_of_body? works, FrameBody.resume, FrameBody.resumeObject,
    FrameBody.objectName_spaces first blank, FrameBody.objectInName_decoded closed decoded]
  cases table.resolve schema extras quoted.octets [] with
  | error error => rfl
  | ok found =>
    simp only [named, works]
    rw [resume_of_body? (body?_within works _)]
    simp only [within_within]
    rfl

def Parser.named (parser : Parser) (target : Target) (extras : Entries Value) (count : Nat) :
    Parser :=
  match parser.stack.frames with
  | [] => parser
  | top :: _ => parser.advanced (top.named target extras) count

namespace Parser

variable {parser : Parser} {table : Table} {extras : Entries Value}

theorem AwaitsName.tidy (awaits : parser.AwaitsName table extras) : parser.stack.Tidy := by
  obtain ⟨top, below, fresh, limit, first, target, members, presence, frames, -⟩ := awaits.newest
  rw [frames]
  exact Stack.tidy_empty rfl

theorem feed_of_name (awaits : parser.AwaitsName table extras) {before : List UInt8}
    (blank : ∀ byte ∈ before, isSpace byte) {bytes : List UInt8} {quoted : Quoted}
    (decoded : decodeQuoted (parser.offset + before.length + 1) bytes = .ok quoted) :
    match table.resolve parser.schema extras quoted.octets [] with
    | .error error => (parser.feed (before ++ quote :: bytes)).error? = some error
    | .ok (target, extras) => parser.feed (before ++ quote :: bytes) =
        (parser.named target extras (quoted.offset - parser.offset)).feed quoted.rest := by
  obtain ⟨top, below, fresh, limit, first, before', members, presence, frames, works⟩ :=
    awaits.newest
  have turn := Frame.resume_name parser.schema works blank false decoded
  cases found : table.resolve parser.schema extras quoted.octets [] with
  | error error =>
    rw [found] at turn
    exact error?_feed_of_error awaits.live frames turn
  | ok resolved =>
    obtain ⟨target, extras'⟩ := resolved
    rw [found] at turn
    obtain ⟨front, whole, behind⟩ := split_quoted decoded
    have count : quoted.offset - parser.offset = front.length := by omega
    have named : parser.named target extras' front.length =
        parser.advanced (top.named target extras') front.length := by
      simp only [named, frames]
    rw [whole, behind] at turn
    show parser.feed (before ++ quote :: bytes) = _
    rw [whole, count, named]
    exact feed_eq_of_resume_eq awaits.live frames turn

end Parser

/-- Names of members decode as strings do: bytes that leave no quote unescaped are a text between
quotes exactly if they are a name, and are refused alike, one byte further on; an index into the
text itself stays.  And the member of an object that a name leads to is the declared one that its
octets spell, the first one should several be declared by that name; however the octets were
escaped, cut into chunks, or divided between the scratch bytes and a tail. -/
theorem names_decode_as_strings :
    (∀ (schema : Schema) (limit : Option Nat) (name : List UInt8)
        (chunks chunks' : List (List UInt8)), (∀ most, limit = some most → 2 ≤ most) →
      quoteFree false name → chunks.flatten = quote :: (name ++ [quote]) →
      chunks'.flatten =
        leftBrace :: quote :: (name ++ quote :: colon :: trueText ++ [rightBrace]) →
      let value := ((Parser.create schema .string limit).feedAll chunks).finish
      let object := ((Parser.create schema (.extras .bool) limit).feedAll chunks').finish
      (∀ text, value = .ok (.string text) ↔
        object = .ok (.object [] (.forMembers 0) [(text, .bool true)])) ∧
      ∀ error', object = .error error' ↔
        ∃ error, value = .error error ∧ error' = error.moved 1) ∧
    ∀ (parser : Parser) (table : Table) (extras : Entries Value) (chunks : List (List UInt8))
        (before bytes : List UInt8) (quoted : Quoted), parser.AwaitsName table extras →
      (∀ byte ∈ before, isSpace byte) → chunks.flatten = before ++ quote :: bytes →
      decodeQuoted (parser.offset + before.length + 1) bytes = .ok quoted →
      let resolve := table.resolve parser.schema extras
      (match resolve quoted.octets [] with
        | .error error => (parser.feedAll chunks).error? = some error
        | .ok (target, extras) => (parser.feedAll chunks).SameState
            ((parser.named target extras (quoted.offset - parser.offset)).feed quoted.rest)) ∧
      (∀ front back, front ++ back = quoted.octets →
        resolve front back = resolve quoted.octets []) ∧
      (∀ field ∈ table.fields,
        (∃ index selected, resolve quoted.octets [] = .ok (.field index, extras) ∧
          table.fields[index]? = some selected ∧ selected.name = field.name) ↔
            Utf8.encodeString field.name = quoted.octets) ∧
      ∀ index, resolve quoted.octets [] = .ok (.field index, extras) ↔
        ∃ field, table.fields[index]? = some field ∧
          Utf8.encodeString field.name = quoted.octets ∧
          ∀ earlier < index, ∀ other, table.fields[earlier]? = some other →
            other.name ≠ field.name := by
  refine ⟨?_, ?_⟩
  · intro schema limit name chunks chunks' room free whole whole' value object
    have first : value = parse schema .string (quote :: (name ++ [quote])) limit := by
      rw [← whole]
      exact Parser.finish_feedAll schema .string limit chunks
    have second : object = parse schema (.extras .bool)
        (leftBrace :: quote :: (name ++ quote :: colon :: trueText ++ [rightBrace])) limit := by
      rw [← whole']
      exact Parser.finish_feedAll schema (.extras .bool) limit chunks'
    rcases parse_string_or_member schema room free with
      ⟨error, refused, refused'⟩ | ⟨text, read, read'⟩
    · rw [first, second, refused, refused']
      simp [eq_comm]
    · rw [first, second, read, read']
      simp
  · intro parser table extras chunks before bytes quoted awaits blank whole decoded resolve
    refine ⟨?_, ?_, fun field declared => table.exists_resolve_field_iff _ _ _ declared,
      table.resolve_eq_field_iff _ _ _⟩
    · have same := Parser.feedAll_of_flatten awaits.live awaits.tidy (by simp) whole
      have fed := Parser.feed_of_name awaits blank decoded
      simp only [resolve]
      cases found : table.resolve parser.schema extras quoted.octets [] with
      | error error =>
        rw [found] at fed
        rw [same.error?]
        exact fed
      | ok resolved =>
        rw [found] at fed
        simp only at fed ⊢
        exact fed ▸ same
    · intro front back octets
      simp only [resolve]
      rw [table.resolve_append, octets]

/-- The name `ab`, its first letter escaped, cut inside the escape: as a text, as a member of an
object of any names, and in a record that declares `a` as well. -/
theorem names_decode_as_strings_escaped :
    let name : List UInt8 := [0x5C, 0x75, 0x30, 0x30, 0x36, 0x31, 0x62]
    let schema : Schema := ⟨[⟨[⟨"a", .bool⟩, ⟨"ab", .bool⟩], none⟩], by decide⟩
    let parser := (Parser.create schema (.record 0)).feed [leftBrace]
    ((Parser.create schema .string).feedAll [[quote], name, [quote]]).finish =
        .ok (.string "ab") ∧
      ((Parser.create schema (.extras .bool)).feedAll [[leftBrace, quote, 0x5C, 0x75],
        name.drop 2 ++ [quote], colon :: trueText ++ [rightBrace]]).finish =
          .ok (.object [] (.forMembers 0) [("ab", .bool true)]) ∧
      (parser.feedAll [quote :: name.take 4, name.drop 4 ++ [quote]]).SameState
        ((parser.named (.field 1) [] 9).feed []) := by
  intro name schema parser
  obtain ⟨alike, selects⟩ := names_decode_as_strings
  have text : ((Parser.create schema .string).feedAll [[quote], name, [quote]]).finish =
      .ok (.string "ab") := rfl
  have awaits : parser.AwaitsName ⟨[⟨"a", .bool⟩, ⟨"ab", .bool⟩], none⟩ [] :=
    ⟨rfl, _, _, _, _, _, _, _, _, rfl, rfl⟩
  have decoded : decodeQuoted 2 (name ++ [quote]) = .ok ⟨Utf8.encodeString "ab", [], 10⟩ :=
    StringLexer.decodeQuoted_of_scanned_closed rfl
  obtain ⟨same, member⟩ := alike schema none name [[quote], name, [quote]]
    [[leftBrace, quote, 0x5C, 0x75], name.drop 2 ++ [quote], colon :: trueText ++ [rightBrace]]
    (by simp) (by decide) rfl rfl
  refine ⟨text, (same "ab").mp text, ?_⟩
  obtain ⟨state, -, -, found⟩ := selects parser _ _ [quote :: name.take 4, name.drop 4 ++ [quote]] []
    (name ++ [quote]) _ awaits (by simp) rfl decoded
  have second := (found 1).mpr ⟨⟨"ab", .bool⟩, rfl, rfl, by decide⟩
  rw [second] at state
  exact state

end IncrementalJson
