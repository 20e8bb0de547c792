import IncrementalJson.Proofs.Reading.FirstFault
import IncrementalJson.Proofs.Reading.MemberNames

/-!
# One byte at a time

`Holding` tells what the newest frame of a parser keeps bytes for in the scratch
region: a number literal, a member name, or nothing.  A byte that is fed goes on
with what is held, or begins it, or leaves nothing held; what is begun with a byte
is in the scratch region from that byte on, and a byte that ends a literal begins
none.
-/

set_option autoImplicit false

namespace IncrementalJson

open Ascii

/-- What a byte makes of a string that it does not close: the lexer behind it, and the octets that
it adds. -/
inductive StringLexer.Takes (lexer : StringLexer) (byte : UInt8) (offset : Nat) :
    StringLexer → List UInt8 → Prop
  | plain (stepped : lexer.step byte offset = .ok .plain) : Takes lexer byte offset lexer [byte]
  | more {later : StringLexer} {added : List UInt8}
      (stepped : lexer.step byte offset = .ok (.more later added)) :
      Takes lexer byte offset later added

/-! ## What is held -/

/-- What bytes are kept for in the scratch region. -/
inductive Holding where
  | nothing
  | literal (type : NumberType) (lexer : NumberLexer)
  | name (table : Table) (lexer : StringLexer)

namespace FrameBody

def holding : FrameBody → Holding
  | .number type lexer .. => if lexer.part = .nothing then .nothing else .literal type lexer
  | .object table (.inName lexer) .. => .name table lexer
  | _ => .nothing

/-- The body adds to the scratch region what it is given of a literal or a name. -/
inductive Collects : FrameBody → Holding → Prop
  | literal {type : NumberType} {lexer : NumberLexer} {result : Option NumberValue}
      (begun : lexer.part ≠ .nothing) :
      Collects (.number type lexer true result) (.literal type lexer)
  | name {table : Table} {lexer : StringLexer} {target : Option Target} {members : List Value}
      {presence : PresenceBits 64} {extras : Entries Value} :
      Collects (.object table (.inName lexer) target members presence extras) (.name table lexer)

/-- The body is inside no name, and inside no number that has begun. -/
def Idle : FrameBody → Prop
  | .number _ lexer spilled _ => lexer = {} ∧ spilled = false
  | .object _ (.inName _) .. => False
  | _ => True

/-- The body is an object of a table in front of a name. -/
def AtName (body : FrameBody) (table : Table) : Prop :=
  ∃ first target members presence extras,
    body = .object table (.name first) target members presence extras

theorem idle_start (schema : Schema) (shape : Shape) : (start schema shape).Idle := by
  cases shape <;> first
    | exact ⟨rfl, rfl⟩
    | trivial

theorem not_atName_start (schema : Schema) (shape : Shape) (table : Table) :
    ¬ (start schema shape).AtName table := by
  rintro ⟨first, target, members, presence, extras, same⟩
  cases shape <;> cases same

theorem holding_of_idle {body : FrameBody} (idle : body.Idle) : body.holding = .nothing := by
  unfold holding
  split
  · rw [idle.1]
    rfl
  · exact idle.elim
  · rfl

theorem Collects.holding {body : FrameBody} {held : Holding} (collects : body.Collects held) :
    body.holding = held := by
  cases collects with
  | literal begun => exact if_neg begun
  | name => rfl

end FrameBody

namespace Frame

def holding (frame : Frame) : Holding :=
  match frame.body? with
  | some body => body.holding
  | none => .nothing

def Idle (frame : Frame) : Prop :=
  ∀ body, frame.body? = some body → body.Idle

def AtName (frame : Frame) (table : Table) : Prop :=
  ∃ body, frame.body? = some body ∧ body.AtName table

def Collects (frame : Frame) (held : Holding) : Prop :=
  ∃ body, frame.body? = some body ∧ body.Collects held

structure Aside (frame : Frame) : Prop where
  idle : frame.Idle
  notAtName : ∀ table, ¬ frame.AtName table

theorem idle_of_no_body {frame : Frame} (none : frame.body? = none) : frame.Idle := by
  intro body works
  rw [none] at works
  cases works

theorem aside_start (schema : Schema) (shape : Shape) : (start schema shape).Aside := by
  induction shape with
  | box item ih => exact ⟨ih.idle, ih.notAtName⟩
  | option item =>
    refine ⟨idle_of_no_body rfl, ?_⟩
    rintro table ⟨body, works, -⟩
    cases works
  | null | bool | string | number | variant | list | extras | record =>
    refine ⟨fun body same => ?_, fun table ⟨body, same, atName⟩ => ?_⟩
    · cases same
      exact FrameBody.idle_start schema _
    · cases same
      exact FrameBody.not_atName_start schema _ table atName

theorem holding_of_idle {frame : Frame} (idle : frame.Idle) : frame.holding = .nothing := by
  unfold holding
  split
  · rename_i works
    exact FrameBody.holding_of_idle (idle _ works)
  · rfl

theorem Collects.holding {frame : Frame} {held : Holding} (collects : frame.Collects held) :
    frame.holding = held := by
  obtain ⟨body, works, collects⟩ := collects
  rw [Frame.holding, works]
  exact collects.holding

end Frame

/-! ## A turn over at most one byte -/

/-- What a turn may lead to: a call of some kind, a pause of some kind, an end, or an error. -/
def Rests {β : Type} (calls : Frame → Prop) (pauses : β → Scratch → Prop) :
    Except ParseError (Advance β) → Prop
  | .ok ⟨body, _, scratch, .pause⟩ => pauses body scratch
  | .ok ⟨_, _, _, .call child⟩ => calls child
  | _ => True

/-- What a body that keeps nothing leaves behind when it pauses behind some bytes, at most one. -/
inductive FrameBody.Left (body : FrameBody) (bytes : List UInt8) : FrameBody → Scratch → Prop
  | idle {later : FrameBody} (idle : later.Idle) : Left body bytes later #[]
  /-- The byte begins a number. -/
  | literal {type : NumberType} {lexer : NumberLexer} {result : Option NumberValue} {byte : UInt8}
      (first : bytes = [byte]) (begun : NumberLexer.next? {} byte = some lexer) :
      Left body bytes (.number type lexer true result) #[byte]
  /-- The byte is the quote in front of a name. -/
  | name {table : Table} {target : Option Target} {members : List Value}
      {presence : PresenceBits 64} {extras : Entries Value} (first : bytes = [quote])
      (before : body.AtName table) :
      Left body bytes (.object table (.inName {}) target members presence extras) #[]

section Turns

variable {β : Type} {calls : Frame → Prop} {pauses pauses' : β → Scratch → Prop} {input : Input}

theorem Rests.mono {result : Except ParseError (Advance β)} (rests : Rests calls pauses result)
    (weaker : ∀ body scratch, pauses body scratch → pauses' body scratch) :
    Rests calls pauses' result := by
  rcases result with error | ⟨body, rest, scratch, step⟩
  · trivial
  · cases step with
    | pause => exact weaker body scratch rests
    | call | complete => exact rests

theorem Rests.significant {body : β} {act : UInt8 → Input → Except ParseError (Advance β)}
    (single : input.bytes.length ≤ 1) (waits : pauses body #[])
    (acts : ∀ byte, input.bytes = [byte] → Rests calls pauses (act byte input)) :
    Rests calls pauses (input.significant (fun rest => ⟨body, rest, #[], .pause⟩) act) := by
  obtain ⟨bytes, offset, closed⟩ := input
  match bytes, single with
  | [], _ =>
    cases closed with
    | true => trivial
    | false => exact waits
  | [byte], _ =>
    by_cases space : isSpace byte
    · have skipped : Input.skipSpaces ⟨[byte], offset, closed⟩ = ⟨[], offset + 1, closed⟩ := by
        simp [Input.skipSpaces, Input.behindSpaces, space]
      rw [Input.significant, skipped]
      cases closed with
      | true => trivial
      | false => exact waits
    · have skipped : Input.skipSpaces ⟨[byte], offset, closed⟩ = ⟨[byte], offset, closed⟩ := by
        simp [Input.skipSpaces, Input.behindSpaces, space]
      rw [Input.significant, skipped]
      exact acts byte rfl

theorem Rests.starved {body : β} {act : UInt8 → Input → Except ParseError (Advance β)}
    (spent : input.bytes = []) (waits : pauses body #[]) :
    Rests calls pauses (input.significant (fun rest => ⟨body, rest, #[], .pause⟩) act) :=
  Rests.significant (by simp [spent]) waits fun byte first => by simp [spent] at first

theorem Rests.literal (wrap : List UInt8 → β) (rest : List UInt8)
    (waits : ∀ left, pauses (wrap left) #[]) :
    Rests calls pauses ((input.matchLiteral rest).map fun (left, input) =>
      ⟨wrap left, input, #[], literalStep left⟩) := by
  rcases input.matchLiteral rest with error | ⟨left, later⟩
  · trivial
  · simp only [Except.map, literalStep]
    split
    · trivial
    · exact waits left

end Turns

namespace FrameBody

variable {schema : Schema} {input : Input} {bytes : List UInt8} {body : FrameBody}

theorem Left.of_nil {later : FrameBody} {scratch : Scratch} (left : body.Left [] later scratch)
    (body' : FrameBody) (bytes : List UInt8) : body'.Left bytes later scratch := by
  cases left with
  | idle idle => exact .idle idle
  | literal first => cases first
  | name first => cases first

theorem rests_startNumber (type : NumberType) (result : Option NumberValue)
    (single : input.bytes.length ≤ 1) :
    Rests Frame.Aside (body.Left input.bytes) (startNumber type {} false result input #[]) := by
  rw [startNumber, if_pos rfl]
  apply Rests.significant single (.idle ⟨rfl, rfl⟩)
  intro byte first
  split
  · obtain ⟨bytes, offset, closed⟩ := input
    cases first
    rw [resumeNumber, NumberLexer.scan, NumberLexer.scanBytes, NumberLexer.step]
    cases begun : NumberLexer.next? {} byte with
    | none => trivial
    | some lexer =>
      cases closed with
      | true =>
        simp only [NumberLexer.scanBytes, Bool.false_eq_true, if_false, endNumber]
        cases type.read lexer _ <;> trivial
      | false => exact Left.literal rfl begun
  · trivial

theorem rests_resumeNull (rest : List UInt8) :
    Rests Frame.Aside (body.Left bytes) (resumeNull rest input #[]) :=
  Rests.literal (fun left => FrameBody.null (some left)) rest fun _ => Left.idle trivial

theorem rests_resumeBool (value : Bool) (rest : List UInt8) :
    Rests Frame.Aside (body.Left bytes) (resumeBool value rest input #[]) :=
  Rests.literal (fun left => FrameBody.bool value (some left)) rest fun _ => Left.idle trivial

theorem rests_resumeString (lexer : StringLexer) (octets : Array UInt8) :
    Rests Frame.Aside (body.Left bytes) (resumeString lexer octets input #[]) := by
  rw [resumeString]
  rcases lexer.scan octets input with error | scan
  · trivial
  · cases scan with
    | pending => exact .idle trivial
    | closed => trivial

theorem rests_arrayElement (item : Shape) (items : Array Value)
    (single : input.bytes.length ≤ 1) :
    Rests Frame.Aside (body.Left bytes) (arrayElement schema item items input #[]) := by
  apply Rests.significant single (.idle trivial)
  intro byte first
  split
  · trivial
  · exact Frame.aside_start schema item

theorem rests_resumeArray (item : Shape) (phase : ArrayPhase) (items : Array Value)
    (single : input.bytes.length ≤ 1) :
    Rests Frame.Aside (body.Left bytes) (resumeArray schema item phase items input #[]) := by
  have behind : ∀ byte, input.bytes = [byte] → input.next.bytes.length ≤ 1 := by
    intro byte first
    simp [Input.next, first]
  cases phase with
  | opening =>
    simp only [resumeArray]
    apply Rests.significant single (.idle trivial)
    intro byte first
    split
    · exact rests_arrayElement item items (behind byte first)
    · trivial
  | element => exact rests_arrayElement item items single
  | comma =>
    simp only [resumeArray]
    apply Rests.significant single (.idle trivial)
    intro byte first
    split
    · exact rests_arrayElement item items (behind byte first)
    · split <;> trivial
  | pending =>
    simp only [resumeArray]
    apply Rests.significant single (.idle trivial)
    intro byte first
    trivial

variable (table : Table) (target : Option Target) (members : List Value)
  (presence : PresenceBits 64) (extras : Entries Value)

theorem rests_objectColon (single : input.bytes.length ≤ 1) :
    Rests Frame.Aside (body.Left bytes)
      (objectColon schema table target members presence extras input #[]) := by
  apply Rests.significant single (.idle trivial)
  intro byte first
  split
  · cases target with
    | none => trivial
    | some target =>
      simp only
      split
      · exact Frame.aside_start schema _
      · trivial
  · trivial

theorem rests_objectName (first : Bool) (single : input.bytes.length ≤ 1)
    (before : input.bytes ≠ [] → body.AtName table) :
    Rests Frame.Aside (body.Left input.bytes)
      (objectName schema table first target members presence extras input #[]) := by
  apply Rests.significant single (.idle trivial)
  intro byte here
  split
  · rename_i isQuote
    obtain ⟨bytes, offset, closed⟩ := input
    cases here
    subst isQuote
    rw [objectInName, StringLexer.scan, Input.next, List.tail_cons, StringLexer.scanBytes]
    cases closed with
    | true => trivial
    | false => exact Left.name rfl (before (List.cons_ne_nil _ _))
  · split <;> trivial

theorem rests_resumeObject (phase : ObjectPhase)
    (idle : (object table phase target members presence extras).Idle)
    (single : input.bytes.length ≤ 1) :
    Rests Frame.Aside ((object table phase target members presence extras).Left input.bytes)
      (resumeObject schema table phase target members presence extras input #[]) := by
  have waits : ∀ byte first, input.bytes = [byte] →
      Rests Frame.Aside ((object table phase target members presence extras).Left input.bytes)
        (objectName schema table first target members presence extras input.next #[]) := by
    intro byte first here
    have spent : input.next.bytes = [] := by simp [Input.next, here]
    have rests : Rests Frame.Aside
        ((object table phase target members presence extras).Left input.next.bytes)
        (objectName schema table first target members presence extras input.next #[]) :=
      rests_objectName table target members presence extras first (by simp [spent])
        fun filled => absurd spent filled
    rw [spent] at rests
    exact rests.mono fun later scratch left => left.of_nil _ _
  cases phase with
  | opening =>
    simp only [resumeObject]
    apply Rests.significant single (.idle trivial)
    intro byte here
    split
    · exact waits byte true here
    · trivial
  | name first =>
    exact rests_objectName table target members presence extras first single
      (fun _ => ⟨first, target, members, presence, extras, rfl⟩)
  | inName lexer => exact idle.elim
  | colon => exact rests_objectColon table target members presence extras single
  | comma =>
    simp only [resumeObject]
    apply Rests.significant single (.idle trivial)
    intro byte here
    split
    · exact waits byte false here
    · split <;> trivial
  | pending =>
    simp only [resumeObject]
    apply Rests.significant single (.idle trivial)
    intro byte here
    trivial

/-- A body that keeps nothing keeps on behind a byte what the byte begins. -/
theorem rests_resume (body : FrameBody) (idle : body.Idle) (single : input.bytes.length ≤ 1) :
    Rests Frame.Aside (body.Left input.bytes) (body.resume schema input #[]) := by
  cases body with
  | null rest =>
    cases rest with
    | none =>
      simp only [resume]
      apply Rests.significant single (.idle trivial)
      intro byte first
      split
      · exact rests_resumeNull nullText
      · trivial
    | some rest => exact rests_resumeNull rest
  | bool value rest =>
    cases rest with
    | none =>
      simp only [resume]
      apply Rests.significant single (.idle trivial)
      intro byte first
      split
      · exact rests_resumeBool true trueText
      · split
        · exact rests_resumeBool false falseText
        · trivial
    | some rest => exact rests_resumeBool value rest
  | string lexer octets =>
    cases lexer with
    | none =>
      simp only [resume]
      apply Rests.significant single (.idle trivial)
      intro byte first
      split
      · exact rests_resumeString {} octets
      · trivial
    | some lexer => exact rests_resumeString lexer octets
  | number type lexer spilled result =>
    obtain ⟨rfl, rfl⟩ := idle
    exact rests_startNumber type result single
  | array item phase items => exact rests_resumeArray item phase items single
  | object table phase target members presence extras =>
    exact rests_resumeObject table target members presence extras phase idle single
  | variant held =>
    cases held with
    | some value => trivial
    | none =>
      simp only [resume]
      apply Rests.significant single (.idle trivial)
      intro byte first
      split
      · exact Frame.aside_start schema _
      · trivial

/-! ## Numbers and names that go on -/

/-- A number whose bytes are in the scratch region goes on with the byte, or ends in front of
it. -/
theorem rests_spilled {type : NumberType} {lexer : NumberLexer} (result : Option NumberValue)
    (begun : lexer.part ≠ .nothing) (opened : input.closed = false) {byte : UInt8}
    (first : input.bytes = [byte]) (scratch : Scratch) :
    Rests (fun _ => False)
      (fun later scratch' => ∃ lexer', lexer.next? byte = some lexer' ∧
        later.Collects (.literal type lexer') ∧ scratch' = scratch.push byte)
      (resume schema input scratch (.number type lexer true result)) := by
  obtain ⟨bytes, offset, closed⟩ := input
  cases first
  cases opened
  rw [resume, startNumber, if_neg begun, resumeNumber, NumberLexer.scan, NumberLexer.scanBytes,
    NumberLexer.step]
  cases next : lexer.next? byte with
  | some lexer' =>
    exact ⟨lexer', rfl, .literal (NumberLexer.part_ne_nothing_of_next? next), rfl⟩
  | none =>
    by_cases ends : lexer.canEnd
    · simp only [if_pos ends, if_true, endNumber]
      cases type.read lexer _ <;> trivial
    · simp only [if_neg ends]
      trivial

theorem rests_inName (lexer : StringLexer) (opened : input.closed = false) {byte : UInt8}
    (first : input.bytes = [byte]) (scratch : Scratch) :
    Rests (fun _ => False)
      (fun later scratch' => later.Idle ∧ scratch' = #[] ∨
        ∃ lexer' added, lexer.Takes byte input.offset lexer' added ∧
          later.Collects (.name table lexer') ∧ scratch' = scratch ++ added)
      (resume schema input scratch (.object table (.inName lexer) target members presence
        extras)) := by
  obtain ⟨bytes, offset, closed⟩ := input
  cases first
  cases opened
  rw [resume, resumeObject, objectInName, StringLexer.scan, StringLexer.scanBytes]
  rcases stepped : lexer.step byte offset with error | step
  · trivial
  · cases step with
    | plain => exact .inr ⟨lexer, [byte], .plain stepped, .name, by simp⟩
    | more lexer' added => exact .inr ⟨lexer', added, .more stepped, .name, by simp⟩
    | closed =>
      simp only
      cases table.resolve schema extras scratch.toList [] with
      | error error => trivial
      | ok resolved => exact Rests.starved rfl (.inl ⟨trivial, rfl⟩)

/-! ## Bodies that have taken a value over -/

/-- A body that has taken a value over begins nothing with the byte behind it. -/
theorem rests_received (received : body.Received) (single : input.bytes.length ≤ 1) :
    Rests (fun _ => False) (fun later scratch => later.Idle ∧ scratch = #[])
      (body.resume schema input #[]) := by
  have spent : ∀ byte, input.bytes = [byte] → input.next.bytes = [] := by
    intro byte first
    simp [Input.next, first]
  unfold Received at received
  split at received
  · simp only [resume, resumeArray]
    apply Rests.significant single ⟨trivial, rfl⟩
    intro byte first
    split
    · exact Rests.starved (spent byte first) ⟨trivial, rfl⟩
    · split <;> trivial
  · simp only [resume, resumeObject]
    apply Rests.significant single ⟨trivial, rfl⟩
    intro byte first
    split
    · exact Rests.starved (spent byte first) ⟨trivial, rfl⟩
    · split <;> trivial
  · trivial
  · exact received.elim

end FrameBody

/-! ## Frames -/

theorem Rests.map {β γ : Type} {calls : Frame → Prop} {pauses : β → Scratch → Prop}
    {pauses' : γ → Scratch → Prop} {result : Except ParseError (Advance β)} (f : β → γ)
    (rests : Rests calls pauses result)
    (wraps : ∀ body scratch, pauses body scratch → pauses' (f body) scratch) :
    Rests calls pauses' (result.map (.map f)) := by
  rcases result with error | ⟨body, rest, scratch, step⟩
  · trivial
  · cases step with
    | pause => exact wraps body scratch rests
    | call | complete => exact rests

namespace Frame

variable {schema : Schema} {input : Input} {bytes : List UInt8} {frame later : Frame}

/-- What a frame that keeps nothing leaves behind when it, or a frame that it calls, pauses behind
some bytes, at most one. -/
inductive Left (frame : Frame) (bytes : List UInt8) (later : Frame) : Scratch → Prop
  | idle (idle : later.Idle) : Left frame bytes later #[]
  /-- The byte begins a number. -/
  | literal {type : NumberType} {lexer : NumberLexer} {byte : UInt8} (first : bytes = [byte])
      (begun : NumberLexer.next? {} byte = some lexer)
      (collects : later.Collects (.literal type lexer)) : Left frame bytes later #[byte]
  /-- The byte is the quote in front of a name. -/
  | name {table : Table} (first : bytes = [quote]) (before : frame.AtName table)
      (collects : later.Collects (.name table {})) : Left frame bytes later #[]

/-- What a frame leaves behind that was called for a value is left behind by the one that called
it. -/
theorem Left.of_child {child top : Frame} {bytes' : List UInt8} {scratch : Scratch}
    (left : child.Left bytes' later scratch) (aside : child.Aside)
    (same : ∀ byte, bytes' = [byte] → bytes = [byte]) : top.Left bytes later scratch := by
  cases left with
  | idle idle => exact .idle idle
  | literal first begun collects => exact .literal (same _ first) begun collects
  | name first before collects => exact absurd before (aside.notAtName _)

theorem idle_of_body? {body : FrameBody} (works : frame.body? = some body) (idle : body.Idle) :
    frame.Idle := by
  intro other same
  cases works.symm.trans same
  exact idle

theorem left_of_body? {body body' : FrameBody} {scratch : Scratch}
    (left : body.Left bytes body' scratch) (works : frame.body? = some body)
    (works' : later.body? = some body') : frame.Left bytes later scratch := by
  cases left with
  | idle idle => exact .idle (idle_of_body? works' idle)
  | literal first begun =>
    exact .literal first begun
      ⟨_, works', .literal (NumberLexer.part_ne_nothing_of_next? begun)⟩
  | name first before => exact .name first ⟨_, works, before⟩ ⟨_, works', .name⟩

/-- A frame that keeps nothing keeps on behind a byte what the byte begins. -/
theorem rests_resume (idle : frame.Idle) (single : input.bytes.length ≤ 1) :
    Rests Aside (frame.Left input.bytes) (frame.resume schema input #[]) := by
  induction frame using Frame.induction schema with
  | core shape body =>
    refine (body.rests_resume (idle body rfl) single).map _ fun later scratch left => ?_
    exact left_of_body? left rfl rfl
  | box item inner ih | present item inner ih =>
    refine (ih idle).map _ fun later scratch left => ?_
    cases left with
    | idle idle => exact .idle idle
    | literal first begun collects => exact .literal first begun collects
    | name first before collects => exact .name first before collects
  | absent item rest =>
    exact Rests.literal (Frame.absent item) rest fun _ => .idle (idle_of_no_body rfl)
  | undecided item ih =>
    have aside := aside_start schema item
    rw [resume_undecided]
    apply Rests.significant single (.idle (idle_of_no_body rfl))
    intro byte first
    split
    · exact Rests.literal (Frame.absent item) nullText fun _ => .idle (idle_of_no_body rfl)
    · refine (ih aside.idle).map _ fun later scratch left => ?_
      cases left with
      | idle idle => exact .idle idle
      | literal first begun collects => exact .literal first begun collects
      | name first before collects => exact absurd before (aside.notAtName _)

def Received (frame : Frame) : Prop :=
  ∃ body, frame.body? = some body ∧ body.Received

theorem received_of_accept {parent parent' child : Frame}
    (accepted : parent.accept child = .ok parent') : parent'.Received := by
  obtain ⟨body, body', works, taken, rfl⟩ := body?_of_accept accepted
  exact ⟨body', body?_within works body', FrameBody.received_of_accept taken⟩

theorem rests_received (received : frame.Received) (single : input.bytes.length ≤ 1) :
    Rests (fun _ => False) (fun later scratch => later.Idle ∧ scratch = #[])
      (frame.resume schema input #[]) := by
  obtain ⟨body, works, received⟩ := received
  rw [resume_of_body? works]
  refine (FrameBody.rests_received received single).map _ ?_
  rintro later scratch ⟨idle, empty⟩
  exact ⟨idle_of_body? (body?_within works later) idle, empty⟩

theorem tidy_of_body? {body : FrameBody} (works : frame.body? = some body) {scratch : Scratch}
    (neat : body.Tidy scratch) : frame.Tidy scratch := by
  induction frame with
  | core shape inner =>
    cases works
    exact neat
  | box item inner ih | present item inner ih => exact ih works
  | undecided | absent => cases works

theorem tidy_of_collects {held : Holding} (collects : frame.Collects held) (scratch : Scratch) :
    frame.Tidy scratch := by
  obtain ⟨body, works, collects⟩ := collects
  refine tidy_of_body? works ?_
  cases collects <;> trivial

theorem rests_literal {type : NumberType} {lexer : NumberLexer}
    (collects : frame.Collects (.literal type lexer))
    (opened : input.closed = false) {byte : UInt8} (first : input.bytes = [byte])
    (scratch : Scratch) :
    Rests (fun _ => False)
      (fun later scratch' => ∃ lexer', lexer.next? byte = some lexer' ∧
        later.Collects (.literal type lexer') ∧ scratch' = scratch.push byte)
      (frame.resume schema input scratch) := by
  obtain ⟨body, works, ⟨begun⟩⟩ := collects
  rw [resume_of_body? works]
  refine (FrameBody.rests_spilled _ begun opened first scratch).map _ ?_
  rintro later scratch' ⟨lexer', next, collects, grown⟩
  exact ⟨lexer', next, ⟨later, body?_within works later, collects⟩, grown⟩

theorem rests_name {table : Table} {lexer : StringLexer}
    (collects : frame.Collects (.name table lexer)) (opened : input.closed = false)
    {byte : UInt8} (first : input.bytes = [byte]) (scratch : Scratch) :
    Rests (fun _ => False)
      (fun later scratch' => later.Idle ∧ scratch' = #[] ∨
        ∃ lexer' added, lexer.Takes byte input.offset lexer' added ∧
          later.Collects (.name table lexer') ∧ scratch' = scratch ++ added)
      (frame.resume schema input scratch) := by
  obtain ⟨body, works, ⟨⟩⟩ := collects
  rw [resume_of_body? works]
  refine (FrameBody.rests_inName table _ _ _ _ lexer opened first scratch).map _
    fun later scratch' goesOn => ?_
  rcases goesOn with ⟨idle, empty⟩ | ⟨lexer', added, takes, collects, grown⟩
  · exact .inl ⟨idle_of_body? (body?_within works later) idle, empty⟩
  · exact .inr ⟨lexer', added, takes, ⟨later, body?_within works later, collects⟩, grown⟩

end Frame

end IncrementalJson
