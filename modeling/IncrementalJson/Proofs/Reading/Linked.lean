import IncrementalJson.Proofs.Reading.Chunking
import IncrementalJson.Proofs.Reading.Soundness

/-!
# Frames that fit together

Every frame on the stack of a parser but the last is awaited by the frame beneath
it, for a value of its own shape; the last reads the shape of the document; and
the newest can be resumed.  A turn keeps this up, whatever bytes come, and so no
run of a parser ends in an error that reports a broken invariant.
-/

set_option autoImplicit false

namespace IncrementalJson

open Ascii

/-! ## Errors that lie with the document -/

/-- An error, if there is one, reports no broken invariant. -/
def Clean {α : Type} (result : Except ParseError α) : Prop :=
  ∀ error, result = .error error → error.kind ≠ .internal

theorem Clean.ok {α : Type} (value : α) : Clean (.ok value : Except ParseError α) := nofun

theorem Clean.of_kind {α : Type} {error : ParseError} (regular : error.kind ≠ .internal) :
    Clean (.error error : Except ParseError α) := by
  intro error' same
  cases same
  exact regular

theorem Clean.map {α β : Type} {result : Except ParseError α} (clean : Clean result) (f : α → β) :
    Clean (result.map f) := by
  cases result with
  | error error => exact Clean.of_kind (clean error rfl)
  | ok value => exact Clean.ok _

namespace StringLexer

/-- Fewer than four digits of a unicode escape have come. -/
def Short (lexer : StringLexer) : Prop :=
  ∀ count value, lexer.part = .unicode count value → count ≤ 3

theorem short_body (pending : Option Nat) : Short ⟨.body, pending⟩ := nofun

theorem short_escape (pending : Option Nat) : Short ⟨.escape, pending⟩ := nofun

theorem short_unicode {count : Nat} (few : count ≤ 3) (value : Nat) (pending : Option Nat) :
    Short ⟨.unicode count value, pending⟩ := by
  intro count' value' same
  cases same
  exact few

def Steps : Except ParseError Unescaped → Prop
  | .error error => error.kind ≠ .internal
  | .ok (.more later _) => later.Short
  | .ok _ => True

theorem steps_takeUnit (pending : Option Nat) (unit : Nat) : Steps (takeUnit pending unit) := by
  unfold takeUnit
  repeat' split
  all_goals first
    | exact short_body _
    | nofun

/-- A byte finds no escape that has its digits already, and leaves none. -/
theorem steps_step {lexer : StringLexer} (short : lexer.Short) (byte : UInt8) (offset : Nat) :
    Steps (lexer.step byte offset) := by
  obtain ⟨part, pending⟩ := lexer
  cases part with
  | body =>
    simp only [step]
    repeat' split
    all_goals first
      | exact short_escape _
      | trivial
      | rintro ⟨⟩
  | escape =>
    simp only [step]
    repeat' split
    all_goals first
      | exact short_unicode (Nat.zero_le 3) _ _
      | exact short_body _
      | rintro ⟨⟩
  | unicode count value =>
    have few := short count value rfl
    simp only [step]
    split
    · rintro ⟨⟩
    · split
      · rename_i more
        exact short_unicode more _ _
      · rw [if_pos (by omega)]
        exact steps_takeUnit _ _

def Scans : Except ParseError StringScan → Prop
  | .error error => error.kind ≠ .internal
  | .ok (.pending later _ _) => later.Short
  | .ok (.closed ..) => True

theorem scans_scan {lexer : StringLexer} (short : lexer.Short) (octets : Array UInt8)
    (input : Input) : Scans (lexer.scan octets input) := by
  obtain ⟨bytes, offset, closed⟩ := input
  have reads (run : Array UInt8) : Scans (lexer.scanBytes closed octets run offset bytes) := by
    induction bytes generalizing lexer octets run offset with
    | nil =>
      cases closed with
      | true => nofun
      | false => exact short
    | cons byte rest ih =>
      have steps := steps_step short byte offset
      rw [scanBytes]
      rcases stepped : lexer.step byte offset with error | _ | ⟨later, added⟩ | _
      all_goals rw [stepped] at steps
      · exact steps
      · exact ih short _ _ _
      · exact ih steps _ _ _
      · trivial
  exact reads #[]

end StringLexer

/-! ## Numbers -/

theorem NumberLexer.scan_clean (lexer : NumberLexer) (input : Input) : Clean (lexer.scan input) := by
  have bytes (text : Array UInt8) (offset : Nat) (bytes : List UInt8) (lexer : NumberLexer) :
      Clean (lexer.scanBytes input.closed text offset bytes) := by
    induction bytes generalizing lexer text offset with
    | nil => exact Clean.ok _
    | cons byte rest ih =>
      rw [scanBytes]
      split
      · exact ih _ _ _
      · exact Clean.ok _
      · exact Clean.of_kind (by rintro ⟨⟩)
  exact bytes _ _ _ _

theorem FloatFormat.readFinite_clean (format : FloatFormat) (text : List UInt8) :
    Clean (format.readFinite text) := by
  rw [readFinite]
  split
  · exact Clean.ok _
  · exact Clean.of_kind nofun

theorem NumberLexer.integer_clean (lexer : NumberLexer) : Clean lexer.integer := by
  unfold integer
  repeat' split
  all_goals nofun

theorem NumberLexer.readInteger_clean (lexer : NumberLexer) (kind : IntegerKind) :
    Clean (lexer.readInteger kind) := by
  have clean := lexer.integer_clean
  unfold readInteger
  cases whole : lexer.integer with
  | error error => exact Clean.of_kind (clean error whole)
  | ok value =>
    simp only [bind, Except.bind]
    split
    · exact Clean.ok _
    · exact Clean.of_kind nofun

theorem NumberLexer.readNumber_clean (lexer : NumberLexer) (text : List UInt8) :
    Clean (lexer.readNumber text) := by
  have double : Clean (readDouble text) := (binary64.readFinite_clean text).map _
  unfold readNumber
  repeat' split
  all_goals first
    | exact Clean.ok _
    | exact double

theorem NumberType.read_clean (type : NumberType) (lexer : NumberLexer) (text : List UInt8) :
    Clean (type.read lexer text) := by
  unfold NumberType.read
  split
  · exact Clean.of_kind nofun
  · cases type with
    | any => exact (lexer.readNumber_clean text).map _
    | integer kind => exact (lexer.readInteger_clean kind).map _
    | single => exact (binary32.readFinite_clean text).map _
    | double => exact (binary64.readFinite_clean text).map _

/-! ## Turns -/

/-- The target is a declared member, or an extra one that has a place among the entries. -/
def Target.Within (table : Table) (extras : Entries Value) : Target → Prop
  | .field index => index < table.fields.length
  | .extra index => table.extra.isSome ∧ index < extras.length

namespace FrameBody

/-- A body that can be resumed: nothing is awaited, and a name that was read has its target. -/
def Ready : FrameBody → Prop
  | .string (some lexer) _ => lexer.Short
  | .array _ phase _ => phase ≠ .pending
  | .object _ (.inName lexer) _ _ _ _ => lexer.Short
  | .object table .colon (some target) _ _ extras => target.Within table extras
  | .object _ .colon none _ _ _ | .object _ .pending _ _ _ _ => False
  | _ => True

/-- The shape of the value that a body waits for. -/
def slot? : FrameBody → Option Shape
  | .array item .pending _ => some item
  | .object table .pending (some (.field index)) _ _ _ => table.fields[index]?.map Field.shape
  | .object table .pending (some (.extra index)) _ _ extras =>
    if index < extras.length then table.extra else none
  | .variant (some held) => some held.heldShape
  | _ => none

end FrameBody

namespace Frame

/-- Each frame that stands around another has one of its item inside. -/
def Nested : Frame → Prop
  | .core .. | .undecided _ | .absent .. => True
  | .box item inner | .present item inner => inner.shape = item ∧ inner.Nested

def Ready (frame : Frame) : Prop :=
  ∀ body, frame.body? = some body → body.Ready

def slot? (frame : Frame) : Option Shape := frame.body?.bind FrameBody.slot?

end Frame

theorem FrameBody.ready_start (schema : Schema) (shape : Shape) : (start schema shape).Ready := by
  cases shape <;> first
    | trivial
    | nofun

namespace Frame

theorem nested_start (schema : Schema) (shape : Shape) : (start schema shape).Nested := by
  induction shape with
  | box item ih => exact ⟨shape_start schema item, ih⟩
  | _ => trivial

theorem ready_start (schema : Schema) (shape : Shape) : (start schema shape).Ready := by
  induction shape with
  | box item ih => exact ih
  | option item =>
    intro body works
    cases works
  | null | bool | string | number | variant | list | extras | record =>
    intro body works
    cases works
    exact FrameBody.ready_start schema _

/-- A fresh frame may be called for what is awaited. -/
theorem calls_start {schema : Schema} {slot : Option Shape} {shape : Shape} (awaited : slot = some shape) :
    slot = some (start schema shape).shape ∧ (start schema shape).Nested ∧
      (start schema shape).Ready :=
  ⟨by rw [awaited, shape_start], nested_start schema shape, ready_start schema shape⟩

end Frame

/-- What a turn may lead to: a pause with what can be resumed, a call of what can be resumed and
is awaited, an end with a result that can be handed over. -/
def Proceeds {β : Type} (ready : β → Prop) (slot? : β → Option Shape)
    (result : β → Except ParseError Value) : Except ParseError (Advance β) → Prop
  | .error error => error.kind ≠ .internal
  | .ok ⟨body, _, _, .pause⟩ => ready body
  | .ok ⟨body, _, _, .call child⟩ => slot? body = some child.shape ∧ child.Nested ∧ child.Ready
  | .ok ⟨body, _, _, .complete⟩ => Clean (result body)

section Turns

variable {β : Type} {ready : β → Prop} {slot? : β → Option Shape}
  {result : β → Except ParseError Value}

theorem Proceeds.significant {input : Input} {body : β} {scratch : Scratch}
    {act : UInt8 → Input → Except ParseError (Advance β)} (waits : ready body)
    (acts : ∀ byte here, Proceeds ready slot? result (act byte here)) :
    Proceeds ready slot? result
      (input.significant (fun rest => ⟨body, rest, scratch, .pause⟩) act) := by
  rw [Input.significant]
  rcases input.skipSpaces with ⟨bytes, offset, closed⟩
  cases bytes with
  | cons byte rest => exact acts byte _
  | nil =>
    cases closed with
    | true => rintro ⟨⟩
    | false => exact waits

theorem Input.matchLiteral_clean (input : Input) (rest : List UInt8) :
    Clean (input.matchLiteral rest) := by
  have bytes (expected : List UInt8) (offset : Nat) (bytes : List UInt8) :
      Clean (Input.matchBytes input.closed expected offset bytes) := by
    induction expected generalizing offset bytes with
    | nil => exact Clean.ok _
    | cons byte more ih =>
      cases bytes with
      | nil =>
        rw [matchBytes]
        split
        · exact Clean.of_kind (by rintro ⟨⟩)
        · exact Clean.ok _
      | cons byte' bytes =>
        rw [matchBytes]
        split
        · exact ih _ _
        · exact Clean.of_kind (by rintro ⟨⟩)
  rw [matchLiteral]
  split
  · exact Clean.ok _
  · exact bytes _ _ _

theorem Proceeds.literal {input : Input} {scratch : Scratch} (wrap : List UInt8 → β)
    (rest : List UInt8) (waits : ∀ left, ready (wrap left))
    (ends : ∀ left, Clean (result (wrap left))) :
    Proceeds ready slot? result ((input.matchLiteral rest).map fun (left, input) =>
      ⟨wrap left, input, scratch, literalStep left⟩) := by
  have clean := input.matchLiteral_clean rest
  rcases matched : input.matchLiteral rest with error | ⟨left, later⟩
  · exact clean error matched
  · simp only [Except.map, literalStep]
    split
    · exact ends left
    · exact waits left

end Turns

theorem Proceeds.map {β γ : Type} {ready : β → Prop} {ready' : γ → Prop}
    {slot? : β → Option Shape} {slot?' : γ → Option Shape}
    {result : β → Except ParseError Value} {result' : γ → Except ParseError Value}
    {turn : Except ParseError (Advance β)} {f : β → γ}
    (proceeds : Proceeds ready slot? result turn)
    (readies : ∀ body, ready body → ready' (f body))
    (slots : ∀ body, slot?' (f body) = slot? body)
    (results : ∀ advance, turn = .ok advance → Clean (result advance.body) →
      Clean (result' (f advance.body))) :
    Proceeds ready' slot?' result' (turn.map (.map f)) := by
  rcases turn with error | ⟨body, input, scratch, step⟩
  · exact proceeds
  · cases step with
    | pause => exact readies body proceeds
    | call child => exact ⟨(slots body).trans proceeds.1, proceeds.2⟩
    | complete => exact results _ rfl proceeds

namespace FrameBody

variable {schema : Schema} {input : Input} {scratch : Scratch}

theorem result_clean {body : FrameBody} (begun : body ≠ .variant none) : Clean body.result := by
  unfold result
  repeat' split
  all_goals first
    | exact Clean.ok _
    | exact absurd rfl begun
    | exact Clean.of_kind nofun

theorem proceeds_endNumber (type : NumberType) (lexer : NumberLexer) (text : Array UInt8)
    (rest : Input) :
    Proceeds Ready slot? result (endNumber type lexer text rest scratch) := by
  have clean := type.read_clean lexer text.toList
  rw [endNumber]
  cases read : type.read lexer text.toList with
  | error error => exact clean error read
  | ok value => exact Clean.ok _

theorem proceeds_resumeNumber (type : NumberType) (lexer : NumberLexer) (spilled : Bool)
    (value : Option NumberValue) :
    Proceeds Ready slot? result (resumeNumber type lexer spilled value input scratch) := by
  have clean := lexer.scan_clean input
  rw [resumeNumber]
  rcases scanned : lexer.scan input with error | ⟨later, text, rest, ended⟩
  · exact clean error scanned
  · cases ended with
    | false => trivial
    | true =>
      cases spilled with
      | true => exact proceeds_endNumber _ _ _ _
      | false => exact proceeds_endNumber _ _ _ _

theorem proceeds_startNumber (type : NumberType) (lexer : NumberLexer) (spilled : Bool)
    (value : Option NumberValue) :
    Proceeds Ready slot? result (startNumber type lexer spilled value input scratch) := by
  rw [startNumber]
  split
  · apply Proceeds.significant trivial
    intro byte here
    split
    · exact proceeds_resumeNumber _ _ _ _
    · rintro ⟨⟩
  · exact proceeds_resumeNumber _ _ _ _

theorem proceeds_resumeString {lexer : StringLexer} (short : lexer.Short) (octets : Array UInt8) :
    Proceeds Ready slot? result (resumeString lexer octets input scratch) := by
  have scans := StringLexer.scans_scan short octets input
  rw [resumeString]
  rcases scanned : lexer.scan octets input with error | ⟨later, octets', rest⟩ | ⟨octets', tail, rest⟩
  all_goals rw [scanned] at scans
  · exact scans
  · exact scans
  · exact result_clean (by rintro ⟨⟩)

theorem proceeds_arrayElement (item : Shape) (items : Array Value) :
    Proceeds Ready slot? result (arrayElement schema item items input scratch) := by
  apply Proceeds.significant
  · nofun
  · intro byte here
    split
    · exact Clean.ok _
    · exact Frame.calls_start rfl

theorem proceeds_resumeArray (item : Shape) {phase : ArrayPhase} (ready : phase ≠ .pending)
    (items : Array Value) :
    Proceeds Ready slot? result (resumeArray schema item phase items input scratch) := by
  cases phase with
  | opening =>
    simp only [resumeArray]
    refine Proceeds.significant (by exact ready) ?_
    intro byte here
    split
    · exact proceeds_arrayElement _ _
    · rintro ⟨⟩
  | element => exact proceeds_arrayElement _ _
  | pending => exact absurd rfl ready
  | comma =>
    simp only [resumeArray]
    refine Proceeds.significant (by exact ready) ?_
    intro byte here
    repeat' split
    · exact proceeds_arrayElement _ _
    · exact Clean.ok _
    · rintro ⟨⟩

section Objects

variable (table : Table) (members : List Value) (presence : PresenceBits 64)
  (extras : Entries Value)

theorem proceeds_objectColon {target : Target} (within : target.Within table extras) :
    Proceeds Ready slot? result
      (objectColon schema table (some target) members presence extras input scratch) := by
  apply Proceeds.significant
  · exact within
  · intro byte here
    split
    · cases target with
      | field index =>
        simp only [Table.memberShape?, List.getElem?_eq_getElem within, Option.map_some]
        exact Frame.calls_start (by
          simp only [slot?, List.getElem?_eq_getElem within, Option.map_some])
      | extra index =>
        obtain ⟨admitted, inside⟩ := within
        obtain ⟨shape, extra⟩ := Option.isSome_iff_exists.mp admitted
        simp only [Table.memberShape?, extra, Option.getD_some]
        exact Frame.calls_start (by simp only [slot?, if_pos inside, extra])
    · rintro ⟨⟩

theorem resolve_clean (front back : List UInt8) :
    Clean (table.resolve schema extras front back) := by
  unfold Table.resolve
  repeat' split
  all_goals first
    | exact Clean.ok _
    | exact Clean.of_kind nofun

theorem within_of_resolve {front back : List UInt8} {target : Target} {extras' : Entries Value}
    (resolved : table.resolve schema extras front back = .ok (target, extras')) :
    target.Within table extras' := by
  unfold Table.resolve at resolved
  split at resolved
  · rename_i index declared
    cases resolved
    exact (List.findIdx?_eq_some_iff_getElem.mp declared).1
  · split at resolved
    · cases resolved
    · rename_i name _
      split at resolved
      · rename_i shape admitted
        cases resolved
        obtain ⟨value, stands⟩ := Entries.getElem?_reserve extras name (schema.initial shape)
        exact ⟨by rw [admitted]; rfl, (List.getElem?_eq_some_iff.mp stands).1⟩
      · cases resolved

theorem proceeds_objectInName {lexer : StringLexer} (short : lexer.Short)
    (target : Option Target) :
    Proceeds Ready slot? result
      (objectInName schema table lexer target members presence extras input scratch) := by
  have scans := StringLexer.scans_scan short scratch input
  rw [objectInName]
  rcases scanned : lexer.scan scratch input with error | ⟨later, octets, rest⟩ | ⟨octets, tail, rest⟩
  all_goals rw [scanned] at scans
  · exact scans
  · exact scans
  · have clean : Clean (table.resolve schema extras octets.toList tail.toList) :=
      resolve_clean table extras _ _
    simp only
    cases found : table.resolve schema extras octets.toList tail.toList with
    | error error => exact clean error found
    | ok resolved => exact proceeds_objectColon _ _ _ _ (within_of_resolve _ _ found)

theorem proceeds_objectName (first : Bool) (target : Option Target) :
    Proceeds Ready slot? result
      (objectName schema table first target members presence extras input scratch) := by
  apply Proceeds.significant trivial
  intro byte here
  repeat' split
  · exact proceeds_objectInName _ _ _ _ (StringLexer.short_body none) _
  · exact Clean.ok _
  · nofun

theorem proceeds_resumeObject (phase : ObjectPhase) (target : Option Target)
    (ready : Ready (.object table phase target members presence extras)) :
    Proceeds Ready slot? result
      (resumeObject schema table phase target members presence extras input scratch) := by
  cases phase with
  | opening =>
    simp only [resumeObject]
    refine Proceeds.significant (by exact ready) ?_
    intro byte here
    split
    · exact proceeds_objectName _ _ _ _ _ _
    · rintro ⟨⟩
  | name first => exact proceeds_objectName _ _ _ _ _ _
  | inName lexer => exact proceeds_objectInName _ _ _ _ ready _
  | colon =>
    cases target with
    | none => cases ready
    | some target => exact proceeds_objectColon _ _ _ _ ready
  | pending => exact ready.elim
  | comma =>
    simp only [resumeObject]
    refine Proceeds.significant (by exact ready) ?_
    intro byte here
    repeat' split
    · exact proceeds_objectName _ _ _ _ _ _
    · exact Clean.ok _
    · rintro ⟨⟩

end Objects

/-- Whatever a turn of a body meets, it proceeds. -/
theorem proceeds_resume {body : FrameBody} (ready : body.Ready) :
    Proceeds Ready slot? result (body.resume schema input scratch) := by
  cases body with
  | null rest =>
    cases rest with
    | none =>
      simp only [resume]
      refine Proceeds.significant (by trivial) ?_
      intro byte here
      split
      · exact Proceeds.literal (fun left => null (some left)) nullText (fun _ => trivial)
          (fun _ => Clean.ok _)
      · rintro ⟨⟩
    | some rest =>
      exact Proceeds.literal (fun left => null (some left)) rest (fun _ => trivial)
        (fun _ => Clean.ok _)
  | bool value rest =>
    have literal (value : Bool) (rest : List UInt8) (here : Input) :
        Proceeds Ready slot? result (resumeBool value rest here scratch) :=
      Proceeds.literal (fun left => bool value (some left)) rest (fun _ => trivial)
        (fun _ => Clean.ok _)
    cases rest with
    | none =>
      simp only [resume]
      refine Proceeds.significant (by trivial) ?_
      intro byte here
      repeat' split
      · exact literal true trueText here
      · exact literal false falseText here
      · rintro ⟨⟩
    | some rest => exact literal value rest input
  | string lexer octets =>
    cases lexer with
    | none =>
      simp only [resume]
      refine Proceeds.significant (by trivial) ?_
      intro byte here
      split
      · exact proceeds_resumeString (StringLexer.short_body none) _
      · rintro ⟨⟩
    | some lexer => exact proceeds_resumeString ready _
  | number type lexer spilled value => exact proceeds_startNumber _ _ _ _
  | array item phase items => exact proceeds_resumeArray _ ready _
  | object table phase target members presence extras =>
    exact proceeds_resumeObject _ _ _ _ _ _ ready
  | variant held =>
    cases held with
    | some held => exact result_clean (by rintro ⟨⟩)
    | none =>
      simp only [resume]
      refine Proceeds.significant (by trivial) ?_
      intro byte here
      cases known : heldShapeOf? byte with
      | none =>
        simp only
        rintro ⟨⟩
      | some shape =>
        exact Frame.calls_start (congrArg some (heldShape_initial_of_byte known))

end FrameBody

namespace Frame

variable {schema : Schema} {input : Input} {scratch : Scratch}

theorem shape_resume {frame : Frame} {advance : Advance Frame}
    (resumed : frame.resume schema input scratch = .ok advance) :
    advance.body.shape = frame.shape ∧ (frame.Nested → advance.body.Nested) := by
  induction frame using Frame.induction schema generalizing input advance with
  | core shape body =>
    obtain ⟨inner, -, rfl⟩ := map_eq_ok_iff.mp resumed
    exact ⟨rfl, fun _ => trivial⟩
  | box item inner ih | present item inner ih =>
    obtain ⟨inside, turn, rfl⟩ := map_eq_ok_iff.mp resumed
    obtain ⟨same, nested⟩ := ih turn
    exact ⟨rfl, fun outer => ⟨same.trans outer.1, nested outer.2⟩⟩
  | absent item rest =>
    obtain ⟨matched, -, rfl⟩ := map_eq_ok_iff.mp resumed
    exact ⟨rfl, fun _ => trivial⟩
  | undecided item ih =>
    rw [resume_undecided, Input.significant] at resumed
    repeat' split at resumed
    · obtain ⟨matched, -, rfl⟩ := map_eq_ok_iff.mp resumed
      exact ⟨rfl, fun _ => trivial⟩
    · obtain ⟨inside, turn, rfl⟩ := map_eq_ok_iff.mp resumed
      obtain ⟨same, nested⟩ := ih turn
      exact ⟨rfl, fun _ => ⟨same.trans (shape_start schema item),
        nested (nested_start schema item)⟩⟩
    · cases resumed
    · cases resumed
      exact ⟨rfl, fun _ => trivial⟩

theorem result_core (shape : Shape) (body : FrameBody) :
    (core shape body).result = body.result := by
  rw [result, deliver]
  cases body.result with
  | error error => rfl
  | ok value => exact if_pos rfl

theorem result_box {item : Shape} {inner : Frame} (same : inner.shape = item) :
    (box item inner).result = inner.result := by
  rw [result, deliver, result, same]
  cases inner.deliver item with
  | error error => rfl
  | ok value => exact if_pos rfl

theorem result_present {item : Shape} {inner : Frame} (same : inner.shape = item) :
    (present item inner).result = inner.result.map .present := by
  rw [result, deliver, result, same]
  cases inner.deliver item with
  | error error => rfl
  | ok value => exact if_pos rfl

theorem result_absent (item : Shape) (rest : List UInt8) :
    (absent item rest).result = .ok .absent :=
  if_pos rfl

theorem ready_of_body? {frame : Frame} {body : FrameBody} (works : frame.body? = some body)
    (ready : body.Ready) : frame.Ready := by
  intro other same
  cases works.symm.trans same
  exact ready

theorem proceeds_resume {frame : Frame} (ready : frame.Ready) (nested : frame.Nested) :
    Proceeds Ready slot? result (frame.resume schema input scratch) := by
  have absent (item : Shape) (rest : List UInt8) (here : Input) :
      Proceeds Ready slot? result (resumeAbsent item rest here scratch) := by
    refine Proceeds.literal (Frame.absent item) rest (fun left body works => ?_) fun left => ?_
    · cases works
    · rw [result_absent]
      exact Clean.ok _
  induction frame using Frame.induction schema generalizing input with
  | core shape body =>
    refine (FrameBody.proceeds_resume (ready body rfl)).map (fun later ready => ?_)
      (fun later => rfl) fun advance _ clean => ?_
    · exact ready_of_body? rfl ready
    · rw [result_core]
      exact clean
  | box item inner ih =>
    refine (ih ready nested.2).map (fun later ready => ready) (fun later => rfl)
      fun advance turn clean => ?_
    rw [result_box ((shape_resume turn).1.trans nested.1)]
    exact clean
  | present item inner ih =>
    refine (ih ready nested.2).map (fun later ready => ready) (fun later => rfl)
      fun advance turn clean => ?_
    rw [result_present ((shape_resume turn).1.trans nested.1)]
    exact clean.map _
  | absent item rest => exact absent item rest input
  | undecided item ih =>
    rw [resume_undecided]
    refine Proceeds.significant (fun body works => ?_) fun byte here => ?_
    · cases works
    · split
      · exact absent item nullText here
      · refine (ih (ready_start schema item) (nested_start schema item)).map
          (fun later ready => ready) (fun later => rfl) fun advance turn clean => ?_
        rw [result_present ((shape_resume turn).1.trans (shape_start schema item))]
        exact clean.map _

/-- What handing over a child may lead to. -/
def Accepts {β : Type} (ready : β → Prop) : Except ParseError β → Prop
  | .error error => error.kind ≠ .internal
  | .ok parent => ready parent

theorem accepts_body {child : Frame} {body : FrameBody} (awaited : body.slot? = some child.shape)
    (clean : Clean child.result) : Accepts FrameBody.Ready (body.accept child) := by
  have maps {slot : Shape} (same : some slot = some child.shape) {f : Value → FrameBody}
      (ready : ∀ value, (f value).Ready) :
      Accepts FrameBody.Ready ((child.deliver slot).map f) := by
    cases same
    cases given : child.deliver child.shape with
    | error error => exact clean error given
    | ok value => exact ready value
  unfold FrameBody.slot? at awaited
  split at awaited
  · exact maps awaited nofun
  · rename_i table index _ _ _
    cases declared : table.fields[index]? with
    | none =>
      rw [declared] at awaited
      cases awaited
    | some field =>
      rw [declared] at awaited
      simp only [FrameBody.accept, declared]
      exact maps awaited fun _ => trivial
  · rename_i table index _ _ extras
    split at awaited
    · rename_i inside
      simp only [FrameBody.accept, awaited, List.getElem?_eq_getElem inside]
      exact maps rfl fun _ => trivial
    · cases awaited
  · exact maps awaited fun _ => trivial
  · cases awaited

theorem accepts_accept {parent child : Frame} (nested : parent.Nested)
    (awaited : parent.slot? = some child.shape) (clean : Clean child.result) :
    Accepts (fun parent' : Frame =>
        parent'.Ready ∧ parent'.Nested ∧ parent'.shape = parent.shape)
      (parent.accept child) := by
  induction parent with
  | core shape body =>
    have accepts := accepts_body awaited clean
    rw [accept]
    cases taken : body.accept child with
    | error error =>
      rw [taken] at accepts
      exact accepts
    | ok body' =>
      rw [taken] at accepts
      exact ⟨ready_of_body? rfl accepts, trivial, rfl⟩
  | box item inner ih | present item inner ih =>
    have accepts := ih nested.2 awaited
    rw [accept]
    cases taken : inner.accept child with
    | error error =>
      rw [taken] at accepts
      exact accepts
    | ok inner' =>
      rw [taken] at accepts
      obtain ⟨ready, nested', same⟩ := accepts
      exact ⟨ready, ⟨same.trans nested.1, nested'⟩, rfl⟩
  | undecided | absent => cases awaited

end Frame

/-! ## Stacks -/

/-- Every frame is awaited by the one beneath it, and the last one reads the root. -/
def Linked (root : Shape) : List Frame → Prop
  | [] => True
  | [frame] => frame.Nested ∧ frame.shape = root
  | frame :: parent :: below =>
    frame.Nested ∧ parent.slot? = some frame.shape ∧ Linked root (parent :: below)

theorem Linked.nested {root : Shape} {top : Frame} {rest : List Frame}
    (linked : Linked root (top :: rest)) : top.Nested := by
  cases rest <;> exact linked.1

theorem Linked.replace {root : Shape} {top top' : Frame} {rest : List Frame}
    (linked : Linked root (top :: rest)) (nested : top'.Nested) (same : top'.shape = top.shape) :
    Linked root (top' :: rest) := by
  cases rest with
  | nil => exact ⟨nested, same.trans linked.2⟩
  | cons parent below =>
    obtain ⟨-, awaited, linked⟩ := linked
    exact ⟨nested, awaited.trans (congrArg some same.symm), linked⟩

/-- The frames are linked, and the newest can be resumed. -/
def Sound (root : Shape) : List Frame → Prop
  | [] => True
  | top :: rest => top.Ready ∧ Linked root (top :: rest)

variable {schema : Schema} {shape : Shape}

/-- Handing over the newest frame, whose end was reached. -/
theorem sound_handOver {done : Frame} {rest : List Frame} {fresh : Nat} {limit : Option Nat}
    {scratch : Scratch} {reading reading' : Reading} {stack : Stack Frame}
    {result : Except ParseError Unit} (linked : Linked shape (done :: rest))
    (clean : Clean done.result)
    (handed : Stack.handOver (readDriver schema shape) reading done ⟨rest, fresh, limit, scratch⟩ =
      (reading', stack, result)) :
    Clean result ∧ (result = .ok () → Sound shape stack.frames) := by
  cases rest with
  | nil =>
    have delivered : Clean (done.deliver shape) := linked.2 ▸ clean
    simp only [Stack.handOver, readDriver] at handed
    cases given : done.deliver shape with
    | error error =>
      simp only [given] at handed
      cases handed
      exact ⟨Clean.of_kind (delivered error given), by rintro ⟨⟩⟩
    | ok value =>
      simp only [given] at handed
      cases handed
      exact ⟨Clean.ok _, fun _ => trivial⟩
  | cons parent below =>
    obtain ⟨-, awaited, linked⟩ := linked
    have accepts := Frame.accepts_accept linked.nested awaited clean
    simp only [Stack.handOver, readDriver] at handed
    cases taken : parent.accept done with
    | error error =>
      rw [taken] at accepts
      simp only [taken] at handed
      cases handed
      exact ⟨Clean.of_kind accepts, by rintro ⟨⟩⟩
    | ok parent' =>
      rw [taken] at accepts
      simp only [taken] at handed
      cases handed
      exact ⟨Clean.ok _, fun _ => ⟨accepts.1, linked.replace accepts.2.1 accepts.2.2⟩⟩

theorem resume_sound {reading reading' : Reading} {top top' : Frame} {scratch scratch' : Scratch}
    {result : Except ParseError (Step Frame)} (ready : top.Ready) (nested : top.Nested)
    (resumed : (readDriver schema shape).resume reading top scratch =
      ⟨reading', top', scratch', result⟩) :
    match result with
    | .error error => error.kind ≠ .internal
    | .ok step => top'.Nested ∧ top'.shape = top.shape ∧
      match step with
      | .pause => top'.Ready
      | .call child => top'.slot? = some child.shape ∧ child.Nested ∧ child.Ready
      | .complete => Clean top'.result := by
  have proceeds : Proceeds Frame.Ready Frame.slot? Frame.result
      (top.resume schema reading.input scratch) := Frame.proceeds_resume ready nested
  simp only [readDriver] at resumed
  rcases turned : top.resume schema reading.input scratch with error | ⟨top'', input, scratch'', step⟩
  all_goals rw [turned] at proceeds
  · simp only [turned] at resumed
    cases resumed
    exact proceeds
  · simp only [turned] at resumed
    cases resumed
    obtain ⟨same, keeps⟩ := Frame.shape_resume turned
    refine ⟨keeps nested, same, ?_⟩
    cases step <;> exact proceeds

/-- A run over sound frames leaves sound frames, or fails with an error of the document. -/
theorem Runs.sound {reading : Reading} {stack : Stack Frame} {run : Run Reading Frame ParseError}
    (runs : Runs (readDriver schema shape) reading stack run) (sound : Sound shape stack.frames) :
    match run.outcome with
    | .failed error => error.kind ≠ .internal
    | _ => Sound shape run.stack.frames := by
  induction runs with
  | empty => trivial
  | fail resumed =>
    obtain ⟨ready, linked⟩ := sound
    exact resume_sound ready linked.nested resumed
  | pause resumed =>
    obtain ⟨ready, linked⟩ := sound
    obtain ⟨nested, same, ready'⟩ := resume_sound ready linked.nested resumed
    exact ⟨ready', linked.replace nested same⟩
  | refuse => nofun
  | call resumed pushed _ ih =>
    obtain ⟨ready, linked⟩ := sound
    obtain ⟨nested, same, awaited, childNested, childReady⟩ :=
      resume_sound ready linked.nested resumed
    apply ih
    rw [Stack.push_eq pushed]
    exact ⟨childReady, childNested, awaited, linked.replace nested same⟩
  | reject resumed handed =>
    obtain ⟨ready, linked⟩ := sound
    obtain ⟨nested, same, clean⟩ := resume_sound ready linked.nested resumed
    obtain ⟨regular, -⟩ := sound_handOver (linked.replace nested same) clean handed
    exact regular _ rfl
  | complete resumed handed _ ih =>
    obtain ⟨ready, linked⟩ := sound
    obtain ⟨nested, same, clean⟩ := resume_sound ready linked.nested resumed
    obtain ⟨-, sound'⟩ := sound_handOver (linked.replace nested same) clean handed
    exact ih (sound' rfl)

/-! ## Parsers -/

namespace Parser

/-- The frames of a parser are sound, and its error, if it has one, lies with the document. -/
structure Regular (parser : Parser) : Prop where
  sound : Sound parser.shape parser.stack.frames
  clean : ∀ error, parser.error? = some error → error.kind ≠ .internal

theorem regular_create (schema : Schema) (shape : Shape) (limit : Option Nat) :
    (create schema shape limit).Regular := by
  rw [create]
  split
  · rename_i stack pushed
    have frames : stack.frames = [.start schema shape] :=
      congrArg Stack.frames (Stack.push_eq pushed)
    refine ⟨?_, nofun⟩
    simp only [frames]
    exact ⟨Frame.ready_start schema shape, Frame.nested_start schema shape,
      Frame.shape_start schema shape⟩
  · refine ⟨trivial, ?_⟩
    intro error failed
    cases failed
    nofun

theorem Regular.feed {parser : Parser} (regular : parser.Regular) (chunk : List UInt8) :
    (parser.feed chunk).Regular := by
  by_cases live : parser.Live
  · obtain ⟨run, runs, ends⟩ := exists_runs parser.schema parser.shape parser.stack
      ⟨chunk, parser.offset, false⟩ parser.value
    rw [feed_of_runs parser live runs]
    have sound := runs.sound regular.sound
    obtain ⟨⟨input, value⟩, stack, outcome⟩ := run
    cases outcome with
    | failed error =>
      refine ⟨trivial, ?_⟩
      intro error' failed
      cases failed
      exact sound
    | stalled => exact absurd rfl ends
    | paused => exact ⟨sound, by rintro _ ⟨⟩⟩
    | done =>
      simp only [settle]
      split
      · refine ⟨trivial, ?_⟩
        intro error failed
        cases failed
        rintro ⟨⟩
      · exact ⟨sound, by rintro _ ⟨⟩⟩
  · obtain ⟨error, failed⟩ := failed_of_not_live live
    rw [feed_of_failed failed]
    exact regular

theorem Regular.feedAll {parser : Parser} (regular : parser.Regular)
    (chunks : List (List UInt8)) : (parser.feedAll chunks).Regular := by
  induction chunks generalizing parser with
  | nil => exact regular
  | cons chunk rest ih => exact ih (regular.feed chunk)

theorem Regular.finish {parser : Parser} (regular : parser.Regular) : Clean parser.finish := by
  obtain ⟨schema, shape, stack, value, offset, status⟩ := parser
  by_cases live : Parser.Live ⟨schema, shape, stack, value, offset, status⟩
  · have enough : (stack.run (readDriver schema shape) (turnsFor 0 stack.depth)
        ⟨⟨[], offset, true⟩, value⟩).outcome ≠ .stalled :=
      stack.run_readDriver_not_stalled schema shape ⟨[], offset, true⟩ value
    have sound := (Stack.runs_run _ _ _ _ enough).sound regular.sound
    cases status with
    | failed error => exact absurd live (not_live_of_failed rfl)
    | created | paused | finished =>
      simp only [Parser.finish, Parser.depth]
      split
      · exact Clean.ok _
      · split
        · exact Clean.ok _
        · exact Clean.of_kind (by rintro ⟨⟩)
        · rename_i failed
          rw [failed] at sound
          exact Clean.of_kind sound
        · rename_i stalled
          exact absurd stalled enough
  · obtain ⟨error, failed⟩ := failed_of_not_live live
    have clean := regular.clean error
    cases failed
    exact Clean.of_kind (clean rfl)

/-- No bytes in any chunks break an invariant of a parser: neither a chunk nor the end of the
document is answered with an internal error. -/
theorem feedAll_regular (schema : Schema) (shape : Shape) (limit : Option Nat)
    (chunks : List (List UInt8)) :
    (∀ error, ((create schema shape limit).feedAll chunks).error? = some error →
      error.kind ≠ .internal) ∧
    Clean ((create schema shape limit).feedAll chunks).finish := by
  have regular := (regular_create schema shape limit).feedAll chunks
  exact ⟨regular.clean, regular.finish⟩

end Parser

end IncrementalJson
