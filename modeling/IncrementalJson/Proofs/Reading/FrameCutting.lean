import IncrementalJson.Proofs.Reading.Cutting
import IncrementalJson.Proofs.Reading.Forwarding

/-!
# Cutting the input of any frame

`FrameBody.resume` and `Frame.resume` are cuttable from every state in which the
scratch region is tidy, and they leave it tidy.
-/

set_option autoImplicit false

namespace IncrementalJson

open Ascii

/-- Only a number that has been spilled and an object inside a name keep bytes in the scratch
region. -/
def FrameBody.Tidy : FrameBody → Scratch → Prop
  | .number _ _ true _, _ => True
  | .object _ (.inName _) .., _ => True
  | _, scratch => scratch = #[]

/-- Only a body at work may keep bytes in the scratch region. -/
def Frame.Tidy : Frame → Scratch → Prop
  | .core _ body, scratch => body.Tidy scratch
  | .box _ inner, scratch | .present _ inner, scratch => inner.Tidy scratch
  | .undecided _, scratch | .absent _ _, scratch => scratch = #[]

namespace FrameBody

variable {schema : Schema} {input : Input} {scratch : Scratch}

/-- How a body is resumed, in the order in which `Cuttable` has it. -/
abbrev resumes (schema : Schema) (body : FrameBody) (input : Input) (scratch : Scratch) :
    Except ParseError (Advance FrameBody) :=
  body.resume schema input scratch

theorem tidy_empty (body : FrameBody) : body.Tidy #[] := by
  unfold Tidy
  split <;> trivial

theorem cuttable_resumeNull {rest : List UInt8} (opened : input.closed = false) :
    Cuttable (resumes schema) FrameBody.Tidy (fun later => resumeNull rest later #[]) input :=
  Cuttable.literal opened (fun left => FrameBody.null (some left)) rest (fun _ => rfl) rfl
    fun _ _ => rfl

theorem cuttable_resumeBool {value : Bool} {rest : List UInt8} (opened : input.closed = false) :
    Cuttable (resumes schema) FrameBody.Tidy (fun later => resumeBool value rest later #[])
      input :=
  Cuttable.literal opened (fun left => FrameBody.bool value (some left)) rest (fun _ => rfl) rfl
    fun _ _ => rfl

theorem cutsTo_endNumber {act : Input → Except ParseError (Advance FrameBody)}
    {type : NumberType} {lexer : NumberLexer} {text : Array UInt8} {rest : Input}
    (opened : rest.closed = false) (limit : rest.limit = input.limit)
    (empty : scratch = #[]) (ends : ∀ more closed, act (input.extend more closed) =
      endNumber type lexer text (rest.extend more closed) scratch) :
    CutsTo (resumes schema) FrameBody.Tidy act input (endNumber type lexer text rest scratch) := by
  rcases read : type.read lexer text.toList with error | value
  · simp only [endNumber, read, Except.map] at ends ⊢
    exact ends
  · simp only [endNumber, read, Except.map] at ends ⊢
    exact ⟨opened, limit, empty, ends⟩

theorem cuttable_resumeNumber {type : NumberType} {lexer : NumberLexer} {spilled : Bool}
    {result : Option NumberValue} (opened : input.closed = false)
    (begun : lexer.part ≠ .nothing ∨ input.bytes ≠ [])
    (tidy : spilled = false → scratch = #[]) :
    Cuttable (resumes schema) FrameBody.Tidy
      (fun later => resumeNumber type lexer spilled result later scratch) input := by
  obtain ⟨bytes, offset, closed⟩ := input
  cases opened
  have extended (more : List UInt8) (closed : Bool) :=
    lexer.scanBytes_append closed #[] offset bytes more
  unfold Cuttable
  rcases scanned : lexer.scanBytes false #[] offset bytes with error | ⟨later, text, rest, ended⟩
  · simp only [resumeNumber, NumberLexer.scan, scanned]
    intro more closed
    simp only [Input.extend, extended, scanned]
  · obtain ⟨opened, limit, waits⟩ := NumberLexer.scanBytes_open scanned
    obtain ⟨bytes', offset', closed'⟩ := rest
    cases opened
    cases ended with
    | true =>
      cases spilled with
      | true =>
        simp only [resumeNumber, NumberLexer.scan, scanned]
        refine cutsTo_endNumber rfl limit rfl fun more closed => ?_
        simp only [Input.extend, extended, scanned]
        rfl
      | false =>
        simp only [resumeNumber, NumberLexer.scan, scanned]
        refine cutsTo_endNumber rfl limit (tidy rfl) fun more closed => ?_
        simp only [Input.extend, extended, scanned]
        rfl
    | false =>
      obtain ⟨used, goesOn⟩ := waits rfl
      cases used
      have offsetEq : offset' = Input.limit ⟨bytes, offset, false⟩ := limit
      subst offsetEq
      simp only [resumeNumber, NumberLexer.scan, scanned]
      refine ⟨rfl, trivial, fun more closed => ?_⟩
      simp only [Input.extend, extended, scanned, resumes, FrameBody.resume, startNumber,
        if_neg (goesOn begun), resumeNumber, NumberLexer.scan]
      rw [NumberLexer.scanBytes_text closed later text]
      rcases later.scanBytes closed #[] _ more with error | ⟨last, text', rest, ended⟩
      · rfl
      · cases ended with
        | false => simp [Except.map]
        | true =>
          cases spilled with
          | true => simp [Except.map]
          | false => simp [Except.map, tidy rfl]

/-- A string does not depend on where its last run of plain bytes began. -/
theorem resumeString_joined (lexer : StringLexer) (octets : Array UInt8) (input : Input)
    (scratch : Scratch) :
    resumeString lexer octets input scratch =
      match (lexer.scan octets input).map StringScan.joined with
      | .error error => .error error
      | .ok (.pending lexer octets rest) => .ok ⟨.string (some lexer) octets, rest, scratch, .pause⟩
      | .ok (.closed octets tail rest) =>
        .ok ⟨.string (some {}) (octets ++ tail), rest, scratch, .complete⟩ := by
  rcases scanned : lexer.scan octets input with error | scan
  · simp only [resumeString, scanned, Except.map]
  · cases scan <;> simp [resumeString, scanned, Except.map, StringScan.joined]

theorem cuttable_resumeString {lexer : StringLexer} {octets : Array UInt8}
    (opened : input.closed = false) :
    Cuttable (resumes schema) FrameBody.Tidy (fun later => resumeString lexer octets later #[]) input := by
  obtain ⟨bytes, offset, closed⟩ := input
  cases opened
  have extended (more : List UInt8) (closed : Bool) :
      (lexer.scan octets ⟨bytes ++ more, offset, closed⟩).map StringScan.joined = _ :=
    lexer.scanBytes_append closed octets #[] offset bytes more
  rcases scanned : lexer.scanBytes false octets #[] offset bytes with error | scan
  · have now : resumeString lexer octets ⟨bytes, offset, false⟩ #[] = .error error := by
      simp only [resumeString, StringLexer.scan, scanned]
    refine Cuttable.of_result now fun more closed => ?_
    simp only [resumeString_joined, Input.extend, extended, scanned]
  · rcases StringLexer.scanBytes_open scanned with
      ⟨later, octets', rfl⟩ | ⟨octets', tail, rest, rfl, opened, limit⟩
    · have now : resumeString lexer octets ⟨bytes, offset, false⟩ #[] =
          .ok ⟨.string (some later) octets', ⟨[], offset + bytes.length, false⟩, #[],
            .pause⟩ := by
        simp only [resumeString, StringLexer.scan, scanned]
      refine Cuttable.of_result now ⟨rfl, rfl, fun more closed => ?_⟩
      simp only [FrameBody.resume, resumeString_joined, Input.extend, extended, scanned]
      rfl
    · obtain ⟨bytes', offset', closed'⟩ := rest
      cases opened
      have now : resumeString lexer octets ⟨bytes, offset, false⟩ #[] =
          .ok ⟨.string (some {}) (octets' ++ tail), ⟨bytes', offset', false⟩, #[],
            .complete⟩ := by
        simp only [resumeString, StringLexer.scan, scanned]
      refine Cuttable.of_result now ⟨rfl, limit, rfl, fun more closed => ?_⟩
      simp only [resumeString_joined, Input.extend, extended, scanned, Array.append_empty]

theorem cuttable_arrayElement {item : Shape} {items : Array Value}
    (opened : input.closed = false) :
    Cuttable (resumes schema) FrameBody.Tidy (fun later => arrayElement schema item items later #[])
      input := by
  refine Cuttable.significant opened rfl (fun later => rfl) fun byte here opened filled => ?_
  by_cases ends : byte = rightBracket ∧ items.isEmpty
  · simp only [if_pos ends]
    exact Cuttable.next filled (Cuttable.complete (show here.next.closed = false from opened) _)
  · simp only [if_neg ends]
    exact Cuttable.call opened _ _

theorem cuttable_objectColon {table : Table} {target : Option Target} {members : List Value}
    {presence : PresenceBits 64} {extras : Entries Value} (opened : input.closed = false) :
    Cuttable (resumes schema) FrameBody.Tidy (fun later =>
      objectColon schema table target members presence extras later #[]) input := by
  refine Cuttable.significant opened rfl (fun later => rfl) fun byte here opened filled => ?_
  by_cases behind : byte = colon
  · simp only [if_pos behind]
    cases target with
    | none => exact Cuttable.fail fun _ => .unexpected .resumedAfterCompletion
    | some target =>
      cases known : table.memberShape? target with
      | none =>
        simp only [known]
        exact Cuttable.fail fun _ => .unexpected .slotTypeMismatch
      | some shape =>
        simp only [known]
        exact Cuttable.next filled (Cuttable.call (show here.next.closed = false from opened) _ _)
  · simp only [if_neg behind]
    exact Cuttable.fail _

theorem objectInName_joined (table : Table) (lexer : StringLexer) (target : Option Target)
    (members : List Value) (presence : PresenceBits 64) (extras : Entries Value)
    (input : Input) (scratch : Scratch) :
    objectInName schema table lexer target members presence extras input scratch =
      match (lexer.scan scratch input).map StringScan.joined with
      | .error error => .error error
      | .ok (.pending lexer scratch rest) =>
        .ok ⟨.object table (.inName lexer) target members presence extras, rest, scratch, .pause⟩
      | .ok (.closed scratch tail rest) =>
        match table.resolve schema extras scratch.toList tail.toList with
        | .error error => .error error
        | .ok (target, extras) =>
          objectColon schema table (some target) members presence extras rest #[] := by
  rcases scanned : lexer.scan scratch input with error | scan
  · simp only [objectInName, scanned, Except.map]
  · cases scan with
    | pending => simp only [objectInName, scanned, Except.map, StringScan.joined]
    | closed octets tail rest =>
      have joined : table.resolve schema extras octets.toList tail.toList =
          table.resolve schema extras (octets ++ tail).toList [] := by
        rw [Table.resolve_append, Array.toList_append]
      cases found : table.resolve schema extras (octets ++ tail).toList [] <;>
        simp only [objectInName, scanned, Except.map, StringScan.joined, joined, found]

theorem cuttable_objectInName {table : Table} {lexer : StringLexer} {before : Option Target}
    {members : List Value} {presence : PresenceBits 64} {extras : Entries Value}
    (opened : input.closed = false) :
    Cuttable (resumes schema) FrameBody.Tidy (fun later =>
      objectInName schema table lexer before members presence extras later scratch) input := by
  obtain ⟨bytes, offset, closed⟩ := input
  cases opened
  have extended (more : List UInt8) (closed : Bool) :
      (lexer.scan scratch ⟨bytes ++ more, offset, closed⟩).map StringScan.joined = _ :=
    lexer.scanBytes_append closed scratch #[] offset bytes more
  rcases scanned : lexer.scanBytes false scratch #[] offset bytes with error | scan
  · have now : objectInName schema table lexer before members presence extras
        ⟨bytes, offset, false⟩ scratch = .error error := by
      simp only [objectInName, StringLexer.scan, scanned]
    refine Cuttable.of_result now fun more closed => ?_
    simp only [objectInName_joined, Input.extend, extended, scanned]
  · rcases StringLexer.scanBytes_open scanned with
      ⟨later, octets, rfl⟩ | ⟨octets, tail, rest, rfl, opened, limit⟩
    · have now : objectInName schema table lexer before members presence extras
          ⟨bytes, offset, false⟩ scratch =
          .ok ⟨.object table (.inName later) before members presence extras,
            ⟨[], offset + bytes.length, false⟩, octets, .pause⟩ := by
        simp only [objectInName, StringLexer.scan, scanned]
      refine Cuttable.of_result now ⟨rfl, trivial, fun more closed => ?_⟩
      simp only [FrameBody.resume, resumeObject, objectInName_joined, Input.extend, extended,
        scanned]
      rfl
    · obtain ⟨bytes', offset', closed'⟩ := rest
      cases opened
      -- the name ends here; with more input its parts may be others, but they are parts of one
      -- name, and that is what is looked up
      cases found : table.resolve schema extras octets.toList tail.toList with
      | error error =>
        have now : objectInName schema table lexer before members presence extras
            ⟨bytes, offset, false⟩ scratch = .error error := by
          simp only [objectInName, StringLexer.scan, scanned, found]
        refine Cuttable.of_result now fun more closed => ?_
        rw [Table.resolve_append] at found
        simp only [objectInName_joined, Input.extend, extended, scanned, Array.toList_append,
          found]
      | ok resolved =>
        obtain ⟨target, extras'⟩ := resolved
        have now : objectInName schema table lexer before members presence extras
            ⟨bytes, offset, false⟩ scratch =
            objectColon schema table (some target) members presence extras'
              ⟨bytes', offset', false⟩ #[] := by
          simp only [objectInName, StringLexer.scan, scanned, found]
        refine Cuttable.of_result now (CutsTo.transfer limit (fun more closed => ?_)
          (cuttable_objectColon rfl))
        rw [Table.resolve_append] at found
        simp only [objectInName_joined, Input.extend, extended, scanned, Array.toList_append,
          found]

theorem cuttable_objectName {table : Table} {first : Bool} {target : Option Target}
    {members : List Value} {presence : PresenceBits 64} {extras : Entries Value}
    (opened : input.closed = false) :
    Cuttable (resumes schema) FrameBody.Tidy (fun later =>
      objectName schema table first target members presence extras later #[]) input := by
  refine Cuttable.significant opened rfl (fun later => rfl) fun byte here opened filled => ?_
  by_cases name : byte = Ascii.quote
  · simp only [if_pos name]
    exact Cuttable.next filled (cuttable_objectInName (show here.next.closed = false from opened))
  · by_cases ends : byte = rightBrace ∧ first
    · simp only [if_neg name, if_pos ends]
      exact Cuttable.next filled (Cuttable.complete (show here.next.closed = false from opened) _)
    · simp only [if_neg name, if_neg ends]
      exact Cuttable.fail _

theorem cuttable_resumeObject {table : Table} {phase : ObjectPhase} {target : Option Target}
    {members : List Value} {presence : PresenceBits 64} {extras : Entries Value}
    (opened : input.closed = false) :
    Cuttable (resumes schema) FrameBody.Tidy (fun later =>
      resumeObject schema table phase target members presence extras later #[]) input := by
  cases phase with
  | opening =>
    simp only [resumeObject]
    refine Cuttable.significant opened rfl (fun later => rfl) fun byte here opened filled => ?_
    by_cases brace : byte = leftBrace
    · simp only [if_pos brace]
      exact Cuttable.next filled (cuttable_objectName (show here.next.closed = false from opened))
    · simp only [if_neg brace]
      exact Cuttable.fail _
  | name first => exact cuttable_objectName opened
  | inName lexer => exact cuttable_objectInName opened
  | colon => exact cuttable_objectColon opened
  | comma =>
    simp only [resumeObject]
    refine Cuttable.significant opened rfl (fun later => rfl) fun byte here opened filled => ?_
    by_cases goesOn : byte = comma
    · simp only [if_pos goesOn]
      exact Cuttable.next filled (cuttable_objectName (show here.next.closed = false from opened))
    · by_cases ends : byte = rightBrace
      · simp only [if_neg goesOn, if_pos ends]
        exact Cuttable.next filled (Cuttable.complete (show here.next.closed = false from opened) _)
      · simp only [if_neg goesOn, if_neg ends]
        exact Cuttable.fail _
  | pending =>
    simp only [resumeObject]
    refine Cuttable.significant opened rfl (fun later => rfl) fun byte here opened filled => ?_
    exact Cuttable.fail fun _ => .unexpected .resumedAfterCompletion

theorem cuttable_resumeArray {item : Shape} {phase : ArrayPhase} {items : Array Value}
    (opened : input.closed = false) :
    Cuttable (resumes schema) FrameBody.Tidy (fun later => resumeArray schema item phase items later #[])
      input := by
  cases phase with
  | opening =>
    simp only [resumeArray]
    refine Cuttable.significant opened rfl (fun later => rfl) fun byte here opened filled => ?_
    by_cases bracket : byte = leftBracket
    · simp only [if_pos bracket]
      exact Cuttable.next filled (cuttable_arrayElement (show here.next.closed = false from opened))
    · simp only [if_neg bracket]
      exact Cuttable.fail _
  | element => exact cuttable_arrayElement opened
  | comma =>
    simp only [resumeArray]
    refine Cuttable.significant opened rfl (fun later => rfl) fun byte here opened filled => ?_
    by_cases goesOn : byte = comma
    · simp only [if_pos goesOn]
      exact Cuttable.next filled (cuttable_arrayElement (show here.next.closed = false from opened))
    · by_cases ends : byte = rightBracket
      · simp only [if_neg goesOn, if_pos ends]
        exact Cuttable.next filled (Cuttable.complete (show here.next.closed = false from opened) _)
      · simp only [if_neg goesOn, if_neg ends]
        exact Cuttable.fail _
  | pending =>
    simp only [resumeArray]
    refine Cuttable.significant opened rfl (fun later => rfl) fun byte here opened filled => ?_
    exact Cuttable.fail fun _ => .unexpected .resumedAfterCompletion

theorem cuttable_null {rest : Option (List UInt8)} (opened : input.closed = false) :
    Cuttable (resumes schema) FrameBody.Tidy
      (fun later => (null rest).resume schema later #[]) input := by
  cases rest with
  | none =>
    simp only [resume]
    refine Cuttable.significant opened rfl (fun later => rfl) fun byte here opened filled => ?_
    by_cases begins : byte = lowerN
    · simp only [if_pos begins]
      exact cuttable_resumeNull opened
    · simp only [if_neg begins]
      exact Cuttable.fail _
  | some rest => exact cuttable_resumeNull opened

theorem cuttable_bool {value : Bool} {rest : Option (List UInt8)} (opened : input.closed = false) :
    Cuttable (resumes schema) FrameBody.Tidy
      (fun later => (bool value rest).resume schema later #[]) input := by
  cases rest with
  | none =>
    simp only [resume]
    refine Cuttable.significant opened rfl (fun later => rfl) fun byte here opened filled => ?_
    by_cases begins : byte = lowerT
    · simp only [if_pos begins]
      exact cuttable_resumeBool opened
    · by_cases begins' : byte = lowerF
      · simp only [if_neg begins, if_pos begins']
        exact cuttable_resumeBool opened
      · simp only [if_neg begins, if_neg begins']
        exact Cuttable.fail _
  | some rest => exact cuttable_resumeBool opened

theorem cuttable_string {lexer : Option StringLexer} {octets : Array UInt8}
    (opened : input.closed = false) :
    Cuttable (resumes schema) FrameBody.Tidy
      (fun later => (string lexer octets).resume schema later #[]) input := by
  cases lexer with
  | none =>
    simp only [resume]
    refine Cuttable.significant opened rfl (fun later => rfl) fun byte here opened filled => ?_
    by_cases begins : byte = Ascii.quote
    · simp only [if_pos begins]
      exact Cuttable.next filled
        (cuttable_resumeString (show here.next.closed = false from opened))
    · simp only [if_neg begins]
      exact Cuttable.fail _
  | some lexer => exact cuttable_resumeString opened

theorem cuttable_number {type : NumberType} {lexer : NumberLexer} {spilled : Bool}
    {result : Option NumberValue} (opened : input.closed = false)
    (neat : (number type lexer spilled result).Tidy scratch) :
    Cuttable (resumes schema) FrameBody.Tidy
      (fun later => (number type lexer spilled result).resume schema later scratch) input := by
  have empty : spilled = false → scratch = #[] := by
    rintro rfl
    exact neat
  by_cases begun : lexer.part = .nothing
  · simp only [resume, startNumber, if_pos begun]
    refine Cuttable.significant opened neat (fun later => ?_) fun byte here opened filled => ?_
    · simp only [resumes, resume, startNumber, if_pos begun]
    · by_cases begins : byte = Ascii.minus ∨ isDigit byte
      · simp only [if_pos begins]
        exact cuttable_resumeNumber opened (.inr filled) empty
      · simp only [if_neg begins]
        exact Cuttable.fail _
  · simp only [resume, startNumber, if_neg begun]
    exact cuttable_resumeNumber opened (.inl begun) empty

theorem cuttable_variant {held : Option Value} (opened : input.closed = false) :
    Cuttable (resumes schema) FrameBody.Tidy
      (fun later => (variant held).resume schema later #[]) input := by
  cases held with
  | some value => exact Cuttable.complete opened _
  | none =>
    simp only [resume]
    refine Cuttable.significant opened rfl (fun later => rfl) fun byte here opened filled => ?_
    cases heldShapeOf? byte with
    | none => exact Cuttable.fail _
    | some shape => exact Cuttable.call opened _ _

/-- Every body can be cut. -/
theorem cuttable_resume (body : FrameBody) (opened : input.closed = false)
    (neat : body.Tidy scratch) :
    Cuttable (resumes schema) FrameBody.Tidy (fun later => body.resume schema later scratch)
      input := by
  cases body with
  | null rest =>
    cases neat
    exact cuttable_null opened
  | bool value rest =>
    cases neat
    exact cuttable_bool opened
  | string lexer octets =>
    cases neat
    exact cuttable_string opened
  | number type lexer spilled result => exact cuttable_number opened neat
  | array item phase items =>
    cases neat
    exact cuttable_resumeArray opened
  | object table phase target members presence extras =>
    cases phase with
    | inName lexer => exact cuttable_objectInName opened
    | opening | name | colon | pending | comma =>
      cases neat
      simp only [resume]
      exact cuttable_resumeObject opened
  | variant held =>
    cases neat
    exact cuttable_variant opened

end FrameBody

namespace Frame

variable {schema : Schema} {input : Input} {scratch : Scratch}

abbrev resumes (schema : Schema) (frame : Frame) (input : Input) (scratch : Scratch) :
    Except ParseError (Advance Frame) :=
  frame.resume schema input scratch

/-- What is put around an activity does not show where its input is cut. -/
theorem cuttable_map {β γ : Type} {resume : β → Input → Scratch → Except ParseError (Advance β)}
    {resume' : γ → Input → Scratch → Except ParseError (Advance γ)} {tidy : β → Scratch → Prop}
    {tidy' : γ → Scratch → Prop} {act : Input → Except ParseError (Advance β)} {around : β → γ}
    (forwards : ∀ body input scratch, resume' (around body) input scratch =
      (resume body input scratch).map (.map around))
    (keeps : ∀ body scratch, tidy body scratch → tidy' (around body) scratch)
    (cuttable : Cuttable resume tidy act input) :
    Cuttable resume' tidy' (fun later => (act later).map (.map around)) input := by
  unfold Cuttable at cuttable
  rcases done : act input with error | ⟨body, rest, scratch, step⟩
  · rw [done] at cuttable
    have now : (act input).map (Advance.map around) = .error error := by rw [done]; rfl
    refine Cuttable.of_result now fun more closed => ?_
    simp only [cuttable more closed]
    rfl
  · rw [done] at cuttable
    have now : (act input).map (Advance.map around) = .ok ⟨around body, rest, scratch, step⟩ := by
      rw [done]
      rfl
    refine Cuttable.of_result now ?_
    cases step with
    | pause =>
      obtain ⟨used, neat, goesOn⟩ := cuttable
      refine ⟨used, keeps _ _ neat, fun more closed => ?_⟩
      simp only [goesOn more closed, forwards]
    | call child =>
      obtain ⟨opened, limit, empty, goesOn⟩ := cuttable
      refine ⟨opened, limit, empty, fun more closed => ?_⟩
      simp only [goesOn more closed]
      rfl
    | complete =>
      obtain ⟨opened, limit, empty, goesOn⟩ := cuttable
      refine ⟨opened, limit, empty, fun more closed => ?_⟩
      simp only [goesOn more closed]
      rfl

theorem tidy_empty (frame : Frame) : frame.Tidy #[] := by
  induction frame with
  | core shape body => exact body.tidy_empty
  | box item inner ih | present item inner ih => exact ih
  | undecided | absent => rfl

theorem cuttable_resumeAbsent {item : Shape} {rest : List UInt8} (opened : input.closed = false) :
    Cuttable (resumes schema) Frame.Tidy (fun later => resumeAbsent item rest later #[]) input :=
  Cuttable.literal opened (fun left => Frame.absent item left) rest (fun _ => rfl) rfl
    fun _ _ => rfl

theorem cuttable_resume (frame : Frame) (opened : input.closed = false)
    (neat : frame.Tidy scratch) :
    Cuttable (resumes schema) Frame.Tidy (fun later => frame.resume schema later scratch)
      input := by
  induction frame using Frame.induction schema generalizing input scratch with
  | core shape body =>
    exact cuttable_map (fun _ _ _ => rfl) (fun _ _ => id) (body.cuttable_resume opened neat)
  | box item inner ih | present item inner ih =>
    exact cuttable_map (fun _ _ _ => rfl) (fun _ _ => id) (ih opened neat)
  | absent item rest =>
    cases neat
    exact cuttable_resumeAbsent opened
  | undecided item ih =>
    cases neat
    simp only [resume_undecided]
    refine Cuttable.significant opened rfl (resume_undecided schema item · #[])
      fun byte here opened filled => ?_
    by_cases begins : byte = lowerN
    · simp only [if_pos begins]
      exact cuttable_resumeAbsent opened
    · simp only [if_neg begins]
      exact cuttable_map (fun _ _ _ => rfl) (fun _ _ => id) (ih opened (tidy_empty _))

end Frame

end IncrementalJson
