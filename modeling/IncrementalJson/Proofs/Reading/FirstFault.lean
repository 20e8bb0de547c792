import Mathlib.Data.List.Induction
import IncrementalJson.Proofs.Reading.Chunking

/-!
# Where a document goes wrong

An error that names a place names one of the input at hand, and what a turn
leaves of the input stands where it stood.  A document that is refused has a
first byte that cannot stand where it does: all that comes before it is read
without a fault, all documents that go on from it are refused with the same
error, and an error that names a place names that byte.
-/

set_option autoImplicit false

namespace IncrementalJson

open Ascii

/-! ## Places of an input -/

/-- A byte stands in an input at an offset of the document. -/
def Input.At (input : Input) (offset : Nat) (byte : UInt8) : Prop :=
  ∃ index, input.bytes[index]? = some byte ∧ offset = input.offset + index

def Input.Behind (later input : Input) : Prop :=
  ∃ front, input.bytes = front ++ later.bytes ∧ later.offset = input.offset + front.length

/-- An error names no place, or one of an input and the byte that stands there. -/
def ParseError.Within (input : Input) : ParseError → Prop
  | .unexpectedByte byte offset | .unescapedControlCharacter byte offset => input.At offset byte
  | .typeMismatch _ offset => ∃ byte, input.At offset byte
  | _ => True

def ParseError.Placeless : ParseError → Prop
  | .unexpectedByte .. | .unescapedControlCharacter .. | .typeMismatch .. => False
  | _ => True

theorem ParseError.Placeless.within {error : ParseError} (placeless : error.Placeless)
    (input : Input) : error.Within input := by
  cases error with
  | unexpectedByte | unescapedControlCharacter | typeMismatch => exact placeless.elim
  | _ => trivial

namespace Input

variable {input later here : Input} {byte : UInt8}

theorem Behind.refl (input : Input) : input.Behind input :=
  ⟨[], rfl, rfl⟩

theorem Behind.trans (behind : here.Behind later) (behind' : later.Behind input) :
    here.Behind input := by
  obtain ⟨front, bytes, offset⟩ := behind
  obtain ⟨front', bytes', offset'⟩ := behind'
  refine ⟨front' ++ front, by rw [bytes', bytes, List.append_assoc], ?_⟩
  rw [offset, offset', List.length_append, Nat.add_assoc]

theorem At.behind {offset : Nat} (stands : later.At offset byte) (behind : later.Behind input) :
    input.At offset byte := by
  obtain ⟨index, stands, rfl⟩ := stands
  obtain ⟨front, bytes, offset⟩ := behind
  refine ⟨front.length + index, ?_, by rw [offset, Nat.add_assoc]⟩
  rw [bytes, List.getElem?_append_right (Nat.le_add_right ..), Nat.add_sub_cancel_left, stands]

theorem at_head (first : input.bytes.head? = some byte) : input.At input.offset byte :=
  ⟨0, by rw [← List.head?_eq_getElem?, first], rfl⟩

theorem behind_next (first : input.bytes.head? = some byte) : input.next.Behind input := by
  obtain ⟨bytes, offset, closed⟩ := input
  cases bytes with
  | nil => cases first
  | cons byte rest => exact ⟨[byte], rfl, rfl⟩

theorem behind_skipSpaces (input : Input) : input.skipSpaces.Behind input := by
  have spaces (offset : Nat) (bytes : List UInt8) :
      (behindSpaces input.closed offset bytes).Behind ⟨bytes, offset, input.closed⟩ := by
    induction bytes generalizing offset with
    | nil => exact .refl _
    | cons byte rest ih =>
      rw [behindSpaces]
      split
      · exact (ih (offset + 1)).trans ⟨[byte], rfl, rfl⟩
      · exact .refl _
  exact spaces input.offset input.bytes

end Input

theorem ParseError.Within.behind {error : ParseError} {input later : Input}
    (within : error.Within later) (behind : later.Behind input) : error.Within input := by
  cases error with
  | unexpectedByte | unescapedControlCharacter => exact Input.At.behind within behind
  | typeMismatch =>
    obtain ⟨byte, stands⟩ := within
    exact ⟨byte, stands.behind behind⟩
  | _ => trivial

/-! ## Turns -/

/-- A turn fails at a place of its input, or leaves a part of it. -/
def Locates {β : Type} (input : Input) : Except ParseError (Advance β) → Prop
  | .error error => error.Within input
  | .ok advance => advance.input.Behind input

section Turns

variable {β : Type} {input : Input} {scratch : Scratch}

theorem Locates.behind {later : Input} {result : Except ParseError (Advance β)}
    (locates : Locates later result) (behind : later.Behind input) : Locates input result := by
  cases result with
  | error error => exact ParseError.Within.behind locates behind
  | ok advance => exact Input.Behind.trans locates behind

/-- A turn that begins behind whitespace fails at a place of its input if it does so with the
input that begins with the byte behind the whitespace. -/
theorem Locates.significant {body : β} {act : UInt8 → Input → Except ParseError (Advance β)}
    (acts : ∀ byte here, here.bytes.head? = some byte → Locates here (act byte here)) :
    Locates input (input.significant (fun rest => ⟨body, rest, scratch, .pause⟩) act) := by
  have behind := input.behind_skipSpaces
  rw [Input.significant]
  rcases skipped : input.skipSpaces with ⟨bytes, offset, closed⟩
  rw [skipped] at behind
  cases bytes with
  | cons byte rest => exact (acts byte _ rfl).behind behind
  | nil =>
    cases closed with
    | true => trivial
    | false => exact behind

theorem Locates.map {γ : Type} {around : β → γ} {result : Except ParseError (Advance β)}
    (locates : Locates input result) : Locates input (result.map (.map around)) := by
  cases result with
  | error error => exact locates
  | ok advance => exact locates

theorem Locates.next {result : Except ParseError (Advance β)} {byte : UInt8}
    (locates : Locates input.next result) (first : input.bytes.head? = some byte) :
    Locates input result :=
  locates.behind (Input.behind_next first)

theorem Locates.literal (wrap : List UInt8 → β) (rest : List UInt8) :
    Locates input ((input.matchLiteral rest).map fun (left, input) =>
      ⟨wrap left, input, scratch, literalStep left⟩) := by
  have matches_ (expected : List UInt8) (offset : Nat) (bytes : List UInt8) :
      Locates ⟨bytes, offset, input.closed⟩
        ((Input.matchBytes input.closed expected offset bytes).map fun (left, input) =>
          ⟨wrap left, input, scratch, literalStep left⟩) := by
    induction expected generalizing offset bytes with
    | nil => exact .refl _
    | cons expected more ih =>
      cases bytes with
      | nil =>
        rw [Input.matchBytes]
        split
        · trivial
        · exact .refl _
      | cons byte bytes =>
        rw [Input.matchBytes]
        split
        · exact (ih (offset + 1) bytes).behind ⟨[byte], rfl, rfl⟩
        · exact Input.at_head rfl
  rw [Input.matchLiteral_eq]
  exact matches_ rest input.offset input.bytes

end Turns

theorem StringLexer.within_step {lexer : StringLexer} {byte : UInt8} {offset : Nat}
    {error : ParseError} (refused : lexer.step byte offset = .error error) (rest : List UInt8)
    (closed : Bool) : error.Within ⟨byte :: rest, offset, closed⟩ := by
  revert refused
  unfold step takeUnit
  repeat' split
  all_goals
    intro refused
    cases refused
  all_goals first
    | trivial
    | exact Input.at_head rfl

theorem StringLexer.locates_scan (lexer : StringLexer) (octets : Array UInt8) (input : Input) :
    match lexer.scan octets input with
    | .error error => error.Within input
    | .ok (.pending _ _ rest) | .ok (.closed _ _ rest) => rest.Behind input := by
  have scans (lexer : StringLexer) (octets run : Array UInt8) (offset : Nat)
      (bytes : List UInt8) :
      match lexer.scanBytes input.closed octets run offset bytes with
      | .error error => error.Within ⟨bytes, offset, input.closed⟩
      | .ok (.pending _ _ rest) | .ok (.closed _ _ rest) =>
        rest.Behind ⟨bytes, offset, input.closed⟩ := by
    induction bytes generalizing lexer octets run offset with
    | nil =>
      cases closed : input.closed with
      | true => trivial
      | false => exact .refl _
    | cons byte rest ih =>
      have further (lexer : StringLexer) (octets run : Array UInt8) :
          match lexer.scanBytes input.closed octets run (offset + 1) rest with
          | .error error => error.Within ⟨byte :: rest, offset, input.closed⟩
          | .ok (.pending _ _ rest') | .ok (.closed _ _ rest') =>
            rest'.Behind ⟨byte :: rest, offset, input.closed⟩ := by
        have one : Input.Behind ⟨rest, offset + 1, input.closed⟩
            ⟨byte :: rest, offset, input.closed⟩ := ⟨[byte], rfl, rfl⟩
        have located := ih lexer octets run (offset + 1)
        split at located
        · exact located.behind one
        · exact located.trans one
        · exact located.trans one
      rw [scanBytes]
      cases stepped : lexer.step byte offset with
      | error error => exact within_step stepped rest input.closed
      | ok unescaped =>
        cases unescaped with
        | plain => exact further lexer octets _
        | more later added => exact further later _ _
        | closed => exact ⟨[byte], rfl, rfl⟩
  exact scans lexer octets #[] input.offset input.bytes

/-- Reading for the end of a number leaves a part of its input, and fails without naming a
place. -/
theorem NumberLexer.locates_scan (lexer : NumberLexer) (input : Input) :
    match lexer.scan input with
    | .error error => error.Placeless
    | .ok scan => scan.input.Behind input := by
  have scans (lexer : NumberLexer) (text : Array UInt8) (offset : Nat) (bytes : List UInt8) :
      match lexer.scanBytes input.closed text offset bytes with
      | .error error => error.Placeless
      | .ok scan => scan.input.Behind ⟨bytes, offset, input.closed⟩ := by
    induction bytes generalizing lexer text offset with
    | nil => exact .refl _
    | cons byte rest ih =>
      rw [scanBytes]
      cases lexer.step byte with
      | more later =>
        have located := ih later (text.push byte) (offset + 1)
        simp only
        split at located
        · exact located
        · exact located.trans ⟨[byte], rfl, rfl⟩
      | finished => exact .refl _
      | invalid => trivial
  exact scans lexer #[] input.offset input.bytes

/-! ## Errors without a place -/

def Unplaced {α : Type} (result : Except ParseError α) : Prop :=
  ∀ error, result = .error error → error.Placeless

theorem Unplaced.ok {α : Type} (value : α) : Unplaced (.ok value : Except ParseError α) := nofun

theorem Unplaced.of_error {α : Type} {error : ParseError} (placeless : error.Placeless) :
    Unplaced (.error error : Except ParseError α) := by
  rintro _ ⟨⟩
  exact placeless

theorem Unplaced.map {α β : Type} {result : Except ParseError α} (unplaced : Unplaced result)
    (f : α → β) : Unplaced (result.map f) := by
  cases result with
  | error error => exact .of_error (unplaced error rfl)
  | ok value => exact .ok _

theorem NumberType.unplaced_read (type : NumberType) (lexer : NumberLexer) (text : List UInt8) :
    Unplaced (type.read lexer text) := by
  have finite (format : FloatFormat) : Unplaced (format.readFinite text) := by
    rw [FloatFormat.readFinite]
    split
    · exact .ok _
    · exact .of_error trivial
  have double : Unplaced (readDouble text) := (finite binary64).map _
  unfold NumberType.read
  split
  · exact .of_error trivial
  · cases type with
    | any =>
      refine Unplaced.map ?_ _
      unfold NumberLexer.readNumber
      repeat' split
      all_goals first
        | exact .ok _
        | exact double
    | integer kind =>
      refine Unplaced.map ?_ _
      unfold NumberLexer.readInteger NumberLexer.integer
      repeat' split
      all_goals
        simp only [bind, Except.bind]
        repeat' split
      all_goals first
        | exact .of_error trivial
        | exact .ok _
    | single => exact (finite binary32).map _
    | double => exact (finite binary64).map _

theorem Table.unplaced_resolve (schema : Schema) (table : Table) (extras : Entries Value)
    (front back : List UInt8) : Unplaced (table.resolve schema extras front back) := by
  unfold resolve
  repeat' split
  all_goals first
    | exact .ok _
    | exact .of_error trivial

theorem FrameBody.unplaced_result (body : FrameBody) : Unplaced body.result := by
  unfold result
  repeat' split
  all_goals first
    | exact .ok _
    | exact .of_error trivial

theorem Frame.unplaced_deliverInto (slot shape : Shape) (value : Value) :
    Unplaced (deliverInto slot shape value) := by
  unfold deliverInto
  split
  · exact .ok _
  · exact .of_error trivial

theorem Frame.unplaced_deliver (slot : Shape) (frame : Frame) : Unplaced (frame.deliver slot) := by
  induction frame generalizing slot with
  | core shape body =>
    rw [deliver]
    split
    · exact unplaced_deliverInto _ _ _
    · rename_i failed
      exact .of_error (body.unplaced_result _ failed)
  | box item inner ih | present item inner ih =>
    rw [deliver]
    split
    · exact unplaced_deliverInto _ _ _
    · rename_i failed
      exact .of_error (ih item _ failed)
  | undecided | absent => exact unplaced_deliverInto _ _ _

theorem Frame.unplaced_accept (parent child : Frame) : Unplaced (parent.accept child) := by
  have body (body : FrameBody) : Unplaced (body.accept child) := by
    rcases body.accept_cases child with ⟨state, stray⟩ | ⟨slot, take, same, -⟩
    · exact stray ▸ .of_error trivial
    · exact same ▸ (unplaced_deliver slot child).map take
  induction parent with
  | core shape own => exact (body own).map _
  | box item inner ih | present item inner ih => exact ih.map _
  | undecided | absent => exact Unplaced.of_error (α := Frame) trivial

/-! ## Frames -/

namespace FrameBody

variable {schema : Schema} {input : Input} {scratch : Scratch}

theorem locates_resumeNumber (type : NumberType) (lexer : NumberLexer) (spilled : Bool)
    (value : Option NumberValue) :
    Locates input (resumeNumber type lexer spilled value input scratch) := by
  have located := lexer.locates_scan input
  have ends (lexer : NumberLexer) (text : Array UInt8) {rest : Input} (scratch : Scratch)
      (behind : rest.Behind input) :
      Locates input (endNumber type lexer text rest scratch) := by
    have unplaced := type.unplaced_read lexer text.toList
    rw [endNumber]
    cases read : type.read lexer text.toList with
    | error error => exact (unplaced error read).within input
    | ok value => exact behind
  rw [resumeNumber]
  rcases scanned : lexer.scan input with error | ⟨later, text, rest, ended⟩
  all_goals rw [scanned] at located
  · exact located.within input
  · cases ended with
    | false => exact located
    | true =>
      cases spilled with
      | true => exact ends later _ _ located
      | false => exact ends later _ _ located

theorem locates_resumeString (lexer : StringLexer) (octets : Array UInt8) :
    Locates input (resumeString lexer octets input scratch) := by
  have located := lexer.locates_scan octets input
  rw [resumeString]
  rcases scanned : lexer.scan octets input with
    error | ⟨later, octets', rest⟩ | ⟨octets', tail, rest⟩
  all_goals
    rw [scanned] at located
    exact located

theorem locates_arrayElement (item : Shape) (items : Array Value) :
    Locates input (arrayElement schema item items input scratch) := by
  refine Locates.significant fun byte here first => ?_
  split
  · exact Input.behind_next first
  · exact .refl here

theorem locates_resumeArray (item : Shape) (phase : ArrayPhase) (items : Array Value) :
    Locates input (resumeArray schema item phase items input scratch) := by
  cases phase with
  | opening =>
    simp only [resumeArray]
    refine Locates.significant fun byte here first => ?_
    split
    · exact (locates_arrayElement item items).next first
    · exact ⟨byte, Input.at_head first⟩
  | element => exact locates_arrayElement item items
  | comma =>
    simp only [resumeArray]
    refine Locates.significant fun byte here first => ?_
    split
    · exact (locates_arrayElement item items).next first
    · split
      · exact Input.behind_next first
      · exact Input.at_head first
  | pending =>
    simp only [resumeArray]
    exact Locates.significant fun _ _ _ => trivial

section Objects

variable (table : Table) (target : Option Target) (members : List Value)
  (presence : PresenceBits 64) (extras : Entries Value)

theorem locates_objectColon : Locates input
    (objectColon schema table target members presence extras input scratch) := by
  refine Locates.significant fun byte here first => ?_
  split
  · cases target with
    | none => trivial
    | some target =>
      simp only
      split
      · exact Input.behind_next first
      · trivial
  · exact Input.at_head first

theorem locates_objectInName (lexer : StringLexer) : Locates input
    (objectInName schema table lexer target members presence extras input scratch) := by
  have located := lexer.locates_scan scratch input
  rw [objectInName]
  rcases scanned : lexer.scan scratch input with
    error | ⟨later, octets, rest⟩ | ⟨octets, tail, rest⟩
  all_goals rw [scanned] at located
  · exact located
  · exact located
  · have unplaced := table.unplaced_resolve schema extras octets.toList tail.toList
    simp only
    cases found : table.resolve schema extras octets.toList tail.toList with
    | error error => exact (unplaced error found).within input
    | ok target => exact (locates_objectColon _ _ _ _ _).behind located

theorem locates_objectName (first : Bool) : Locates input
    (objectName schema table first target members presence extras input scratch) := by
  refine Locates.significant fun byte here begins => ?_
  split
  · exact (locates_objectInName _ _ _ _ _ _).next begins
  · split
    · exact Input.behind_next begins
    · exact Input.at_head begins

theorem locates_resumeObject (phase : ObjectPhase) : Locates input
    (resumeObject schema table phase target members presence extras input scratch) := by
  cases phase with
  | opening =>
    simp only [resumeObject]
    refine Locates.significant fun byte here first => ?_
    split
    · exact (locates_objectName _ _ _ _ _ _).next first
    · exact ⟨byte, Input.at_head first⟩
  | name first => exact locates_objectName _ _ _ _ _ _
  | inName lexer => exact locates_objectInName _ _ _ _ _ _
  | colon => exact locates_objectColon _ _ _ _ _
  | comma =>
    simp only [resumeObject]
    refine Locates.significant fun byte here first => ?_
    split
    · exact (locates_objectName _ _ _ _ _ _).next first
    · split
      · exact Input.behind_next first
      · exact Input.at_head first
  | pending =>
    simp only [resumeObject]
    exact Locates.significant fun _ _ _ => trivial

end Objects

theorem locates_resume (body : FrameBody) :
    Locates input (body.resume schema input scratch) := by
  cases body with
  | null rest =>
    have literal (rest : List UInt8) (here : Input) :
        Locates here (resumeNull rest here scratch) :=
      Locates.literal (fun left => null (some left)) rest
    cases rest with
    | none =>
      simp only [resume]
      refine Locates.significant fun byte here first => ?_
      split
      · exact literal nullText here
      · exact ⟨byte, Input.at_head first⟩
    | some rest => exact literal rest input
  | bool value rest =>
    have literal (value : Bool) (rest : List UInt8) (here : Input) :
        Locates here (resumeBool value rest here scratch) :=
      Locates.literal (fun left => bool value (some left)) rest
    cases rest with
    | none =>
      simp only [resume]
      refine Locates.significant fun byte here first => ?_
      split
      · exact literal true trueText here
      · split
        · exact literal false falseText here
        · exact ⟨byte, Input.at_head first⟩
    | some rest => exact literal value rest input
  | string lexer octets =>
    cases lexer with
    | none =>
      simp only [resume]
      refine Locates.significant fun byte here first => ?_
      split
      · exact (locates_resumeString {} octets).next first
      · exact ⟨byte, Input.at_head first⟩
    | some lexer => exact locates_resumeString lexer octets
  | number type lexer spilled value =>
    simp only [resume, startNumber]
    split
    · refine Locates.significant fun byte here first => ?_
      split
      · exact locates_resumeNumber type lexer spilled value
      · exact ⟨byte, Input.at_head first⟩
    · exact locates_resumeNumber type lexer spilled value
  | array item phase items => exact locates_resumeArray item phase items
  | object table phase target members presence extras =>
    exact locates_resumeObject table target members presence extras phase
  | variant held =>
    cases held with
    | some value => exact .refl input
    | none =>
      simp only [resume]
      refine Locates.significant fun byte here first => ?_
      cases heldShapeOf? byte with
      | none => exact Input.at_head first
      | some shape => exact .refl here

end FrameBody

theorem Frame.locates_resume (schema : Schema) (frame : Frame) (input : Input)
    (scratch : Scratch) : Locates input (frame.resume schema input scratch) := by
  induction frame using Frame.induction schema generalizing input with
  | core shape body => exact .map body.locates_resume
  | box item inner ih | present item inner ih => exact .map (ih input)
  | absent item rest => exact Locates.literal (fun left => Frame.absent item left) rest
  | undecided item ih =>
    rw [resume_undecided]
    refine Locates.significant fun byte here first => ?_
    split
    · exact Locates.literal (fun left => Frame.absent item left) nullText
    · exact .map (ih here)

/-! ## Runs -/

variable {schema : Schema} {shape : Shape}

theorem locates_turn {reading reading' : Reading} {top top' : Frame} {scratch scratch' : Scratch}
    {result : Except ParseError (Step Frame)}
    (resumed : (readDriver schema shape).resume reading top scratch =
      ⟨reading', top', scratch', result⟩) :
    match result with
    | .error error => error.Within reading.input
    | .ok _ => reading'.input.Behind reading.input := by
  have located := top.locates_resume schema reading.input scratch
  simp only [readDriver] at resumed
  split at resumed
  · rename_i advanced
    cases resumed
    rw [advanced] at located
    exact located
  · rename_i failed
    cases resumed
    rw [failed] at located
    exact located

theorem Stack.unplaced_handOver {reading reading' : Reading} {done : Frame}
    {stack stack' : Stack Frame} {result : Except ParseError Unit}
    (handed : stack.handOver (readDriver schema shape) reading done = (reading', stack', result)) :
    Unplaced result := by
  obtain ⟨frames, fresh, limit, scratch⟩ := stack
  cases frames with
  | nil =>
    have delivered := done.unplaced_deliver shape
    simp only [handOver, readDriver] at handed
    split at handed
    · cases handed
      exact .ok _
    · rename_i failed
      cases handed
      exact .of_error (delivered _ failed)
  | cons parent below =>
    have accepted := parent.unplaced_accept done
    simp only [handOver, readDriver] at handed
    split at handed
    · cases handed
      exact .ok _
    · rename_i failed
      cases handed
      exact .of_error (accepted _ failed)

theorem Runs.locates {reading : Reading} {stack : Stack Frame} {run : Run Reading Frame ParseError}
    (runs : Runs (readDriver schema shape) reading stack run) :
    match run.outcome with
    | .failed error => error.Within reading.input
    | _ => run.context.input.Behind reading.input := by
  induction runs with
  | empty => exact .refl _
  | fail resumed => exact locates_turn resumed
  | pause resumed => exact locates_turn resumed
  | refuse => trivial
  | call resumed pushed _ ih =>
    have behind := locates_turn resumed
    split at ih
    · exact ih.behind behind
    · exact ih.trans behind
  | reject resumed handed => exact (Stack.unplaced_handOver handed _ rfl).within _
  | complete resumed handed _ ih =>
    have behind := locates_turn resumed
    rw [(Stack.handOver_frame handed).1] at ih
    split at ih
    · exact ih.behind behind
    · exact ih.trans behind

/-! ## Parsers -/

namespace Parser

variable {parser : Parser} {error : ParseError}

theorem within_of_feed (live : parser.Live) {chunk : List UInt8}
    (failed : (parser.feed chunk).error? = some error) :
    error.Within ⟨chunk, parser.offset, false⟩ := by
  obtain ⟨run, runs, ends⟩ := exists_runs parser.schema parser.shape parser.stack
    ⟨chunk, parser.offset, false⟩ parser.value
  have located := runs.locates
  rw [feed_of_runs parser live runs] at failed
  obtain ⟨⟨input, value⟩, stack, outcome⟩ := run
  cases outcome with
  | failed error' =>
    cases failed
    exact located
  | stalled => exact absurd rfl ends
  | paused => cases failed
  | done =>
    have behind := input.behind_skipSpaces
    simp only [settle] at failed
    split at failed
    · rename_i byte rest position closed skipped
      rw [skipped] at behind
      cases failed
      exact Input.At.behind (Input.at_head rfl) (behind.trans located)
    · cases failed

theorem error?_eq_some_iff : parser.error? = some error ↔ parser.status = .failed error := by
  obtain ⟨schema, shape, stack, value, offset, status⟩ := parser
  cases status <;> simp [error?]

/-- A refused chunk has a first byte up to which it is refused, and with the same error. -/
theorem exists_fault (live : parser.Live) (neat : parser.stack.Tidy)
    (waits : (parser.feed []).error? = none) {chunk : List UInt8}
    (failed : (parser.feed chunk).error? = some error) :
    ∃ front byte back, chunk = front ++ byte :: back ∧ (parser.feed front).error? = none ∧
      (parser.feed (front ++ [byte])).error? = some error := by
  induction chunk using List.reverseRecOn with
  | nil =>
    rw [waits] at failed
    cases failed
  | append_singleton front byte ih =>
    cases before : (parser.feed front).error? with
    | none => exact ⟨front, byte, [], rfl, before, failed⟩
    | some earlier =>
      have same := (feed_append live neat front [byte]).error?
      rw [feed_of_failed (error?_eq_some_iff.mp before), before, failed] at same
      obtain ⟨front', byte', back, rfl, passes, refused⟩ := ih (before.trans same)
      exact ⟨front', byte', back ++ [byte], by simp, passes, refused⟩

theorem error?_feed_append (live : parser.Live) (neat : parser.stack.Tidy) {chunk : List UInt8}
    (failed : (parser.feed chunk).error? = some error) (more : List UInt8) :
    (parser.feed (chunk ++ more)).error? = some error := by
  rw [← (feed_append live neat chunk more).error?, feed_of_failed (error?_eq_some_iff.mp failed),
    failed]

theorem error?_feed_of_append (live : parser.Live) (neat : parser.stack.Tidy)
    {front back : List UInt8} (passes : (parser.feed (front ++ back)).error? = none) :
    (parser.feed front).error? = none := by
  cases before : (parser.feed front).error? with
  | none => rfl
  | some error =>
    rw [error?_feed_append live neat before back] at passes
    cases passes

/-! ## The first fault of a document -/

/-- Whether chunks are refused, and with which error, is settled by the document that they make
up. -/
theorem error?_feedAll_create (schema : Schema) (shape : Shape) {limit : Option Nat}
    (room : limit ≠ some 0) (chunks : List (List UInt8)) :
    ((create schema shape limit).feedAll chunks).error? =
      ((create schema shape limit).feed chunks.flatten).error? := by
  cases chunks with
  | nil =>
    rw [List.flatten_nil, feed_nil_create schema shape room, feedAll, List.foldl_nil,
      create_of_room schema shape room]
    rfl
  | cons chunk rest =>
    exact (sameState_feedAll_create schema shape limit (List.cons_ne_nil chunk rest)).error?

/-- A document that is refused, however it is cut, has a first byte that cannot stand where it
does.  What comes before it is read without a fault, what goes on from it is refused with the
same error, and an error that names a place names the place of that byte. -/
theorem feedAll_first_fault (schema : Schema) (shape : Shape) (limit : Option Nat)
    (room : limit ≠ some 0) (document : List UInt8) (chunks : List (List UInt8))
    (whole : chunks.flatten = document) {error : ParseError}
    (failed : ((create schema shape limit).feedAll chunks).error? = some error) :
    ∃ front byte back, document = front ++ byte :: back ∧
      (∀ chunks' : List (List UInt8), chunks'.flatten <+: front →
        ((create schema shape limit).feedAll chunks').error? = none) ∧
      (∀ (chunks' : List (List UInt8)) (more : List UInt8),
        chunks'.flatten = front ++ byte :: more →
        ((create schema shape limit).feedAll chunks').error? = some error) ∧
      (∀ found offset,
        error = .unexpectedByte found offset ∨ error = .unescapedControlCharacter found offset →
        offset = front.length ∧ found = byte) ∧
      (∀ expected offset, error = .typeMismatch expected offset → offset = front.length) := by
  have live : (create schema shape limit).Live := by
    rw [create_of_room schema shape room]
    rfl
  have neat := tidy_create schema shape limit live
  have waits : ((create schema shape limit).feed []).error? = none := by
    rw [feed_nil_create schema shape room]
    rfl
  rw [error?_feedAll_create schema shape room, whole] at failed
  obtain ⟨front, byte, back, rfl, passes, refused⟩ := exists_fault live neat waits failed
  have same := error?_feed_append live neat refused back
  rw [List.append_assoc, List.singleton_append, failed] at same
  cases same
  have within : error.Within ⟨[byte], front.length, false⟩ := by
    have fed : ((create schema shape limit).feed front).offset = front.length := by
      have total : ((create schema shape limit).feedAll [front]).offset = _ :=
        feedAll_offset passes
      rw [create_of_room schema shape room, List.flatten_singleton, Nat.zero_add] at total
      rw [create_of_room schema shape room]
      exact total
    rw [← fed]
    refine within_of_feed passes ?_
    rw [(feed_append live neat front [byte]).error?, refused]
  have stands {found : UInt8} {offset : Nat}
      (stands : Input.At ⟨[byte], front.length, false⟩ offset found) :
      offset = front.length ∧ found = byte := by
    obtain ⟨index, found', rfl⟩ := stands
    cases index with
    | zero =>
      cases found'
      exact ⟨rfl, rfl⟩
    | succ index => cases found'
  refine ⟨front, byte, back, rfl, fun chunks' part => ?_, fun chunks' more goesOn => ?_, ?_, ?_⟩
  · obtain ⟨more, rfl⟩ := part
    rw [error?_feedAll_create schema shape room]
    exact error?_feed_of_append live neat passes
  · rw [error?_feedAll_create schema shape room, goesOn, ← List.singleton_append,
      ← List.append_assoc]
    exact error?_feed_append live neat refused more
  · rintro found offset (rfl | rfl)
    all_goals exact stands within
  · rintro expected offset rfl
    obtain ⟨found, within⟩ := within
    exact (stands within).1

/-- The text `[tru1,2]`, cut inside the literal: the fault is the `1`, the fifth byte. -/
theorem feedAll_first_fault_in_literal :
    (none : Option Nat) ≠ some 0 ∧
    [[0x5B, 0x74], [0x72, 0x75, 0x31, 0x2C], [0x32, 0x5D]].flatten =
      [0x5B, 0x74, 0x72, 0x75, 0x31, 0x2C, 0x32, 0x5D] ∧
    ((create .empty .variant).feedAll
      [[0x5B, 0x74], [0x72, 0x75, 0x31, 0x2C], [0x32, 0x5D]]).error? =
        some (.unexpectedByte 0x31 4) ∧
    ∃ front byte back,
      [0x5B, 0x74, 0x72, 0x75, 0x31, 0x2C, 0x32, 0x5D] = front ++ byte :: back ∧
      (∀ chunks' : List (List UInt8), chunks'.flatten <+: front →
        ((create .empty .variant).feedAll chunks').error? = none) ∧
      (∀ (chunks' : List (List UInt8)) (more : List UInt8),
        chunks'.flatten = front ++ byte :: more →
        ((create .empty .variant).feedAll chunks').error? = some (.unexpectedByte 0x31 4)) ∧
      front.length = 4 ∧ byte = 0x31 := by
  have failed : ((create .empty .variant).feedAll
      [[0x5B, 0x74], [0x72, 0x75, 0x31, 0x2C], [0x32, 0x5D]]).error? =
        some (.unexpectedByte 0x31 4) := rfl
  obtain ⟨front, byte, back, split, before, after, place, -⟩ :=
    feedAll_first_fault .empty .variant none (by decide)
      [0x5B, 0x74, 0x72, 0x75, 0x31, 0x2C, 0x32, 0x5D]
      [[0x5B, 0x74], [0x72, 0x75, 0x31, 0x2C], [0x32, 0x5D]] rfl failed
  obtain ⟨offset, found⟩ := place _ _ (.inl rfl)
  exact ⟨by decide, rfl, failed, front, byte, back, split, before, after, offset.symm, found.symm⟩

end Parser

end IncrementalJson
