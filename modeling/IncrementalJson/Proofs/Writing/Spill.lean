import IncrementalJson.Proofs.Writing.Calls

/-!
# The spill holds the rest of one token

A text is a row of tokens: the marks of the grammar, the octets of strings that
stand for themselves, escape sequences, numbers and literals.  Only the last three
kinds are longer than a byte, and a buffer can end inside one of these; the spill
is then what is left of it.  As long as there is a spill, no emitter does anything.
-/

set_option autoImplicit false

namespace IncrementalJson

open Ascii

/-! ## Tokens -/

/-- A token of a text that is handed out. -/
inductive TextToken where
  /-- A bracket, a brace, a comma, a colon or a quote. -/
  | mark (byte : UInt8)
  /-- An octet of a string that stands for itself. -/
  | plain (octet : UInt8)
  | escape (sequence : List UInt8)
  | number (text : List Char)
  /-- One of `null`, `true` and `false`. -/
  | literal (word : List UInt8)
  deriving DecidableEq, Repr

namespace TextToken

def bytes : TextToken → List UInt8
  | .mark byte => [byte]
  | .plain octet => [octet]
  | .escape sequence => sequence
  | .number text => Utf8.encode text
  | .literal word => word

def text (tokens : List TextToken) : List UInt8 := tokens.flatMap bytes

/-- Whether the token is an escape sequence, a number or a literal. -/
def IsLong : TextToken → Prop
  | .mark _ | .plain _ => False
  | .escape _ | .number _ | .literal _ => True

def ofOctet (octet : UInt8) : TextToken :=
  match Escape.escape? octet with
  | some sequence => .escape sequence
  | none => .plain octet

def quoted (text : String) : List TextToken :=
  .mark quote :: (Utf8.encodeString text).map ofOctet ++ [.mark quote]

def separated : List (List TextToken) → List TextToken
  | [] => []
  | first :: rest => first ++ rest.flatMap (.mark comma :: ·)

@[simp] theorem text_append (front back : List TextToken) :
    text (front ++ back) = text front ++ text back :=
  List.flatMap_append

@[simp] theorem text_cons (token : TextToken) (rest : List TextToken) :
    text (token :: rest) = token.bytes ++ text rest :=
  List.flatMap_cons

@[simp] theorem text_nil : text [] = [] := rfl

theorem bytes_ofOctet (octet : UInt8) : (ofOctet octet).bytes = octetToken octet := by
  rw [ofOctet, octetToken]
  cases Escape.escape? octet <;> rfl

theorem map_bytes_quoted (text : String) : (quoted text).map bytes = stringTokens text := by
  have octets : bytes ∘ ofOctet = octetToken := funext bytes_ofOctet
  simp only [quoted, stringTokens, List.cons_append, List.map_cons, List.map_append, List.map_map,
    List.map_nil, octets]
  rfl

theorem isLong_of_lt {token : TextToken} (wide : 1 < token.bytes.length) : token.IsLong := by
  cases token with
  | mark | plain => exact absurd wide (Nat.lt_irrefl 1)
  | escape | number | literal => trivial

end TextToken

def Value.tokens (schema : Schema) (shape : Shape) (value : Value) : List TextToken :=
  match value, shape.unbox with
  | .null, .null => [.literal nullText]
  | .bool value, .bool => [.literal (boolText value)]
  | .string text, .string => TextToken.quoted text
  | .number value, .number _ => (value.text?.map .number).toList
  | .list items, .list item =>
    .mark leftBracket :: TextToken.separated (items.attach.map fun ⟨value, _⟩ =>
      value.tokens schema item) ++ [.mark rightBracket]
  | .held value, .variant => value.tokens schema value.heldShape
  | .absent, .option _ => [.literal nullText]
  | .present value, .option item => value.tokens schema item
  | .object members presence extras, shape =>
    match schema.table? shape with
    | some table =>
      .mark leftBrace :: TextToken.separated
        ((table.liveMembers members presence extras).attach.map fun ⟨(name, shape, value), _⟩ =>
          TextToken.quoted name ++ .mark colon :: value.tokens schema shape) ++ [.mark rightBrace]
    | none => []
  | _, _ => []
termination_by sizeOf value
decreasing_by
  · rename_i inside
    have := List.sizeOf_lt_of_mem inside
    simp only [Value.list.sizeOf_spec]
    omega
  · simp
  · simp
  · rename_i among
    exact sizeOf_lt_of_mem_liveMembers among

variable {schema : Schema}

theorem Value.tokens_list {shape item : Shape} (items : List Value)
    (unboxed : shape.unbox = .list item) :
    (Value.list items).tokens schema shape =
      .mark leftBracket :: TextToken.separated (items.map (Value.tokens schema item)) ++
        [.mark rightBracket] := by
  rw [Value.tokens.eq_def]
  simp only [unboxed]
  rw [List.attach_map_val (f := Value.tokens schema item)]

def TextToken.ofMember (schema : Schema) : String × Shape × Value → List TextToken
  | (name, shape, value) => TextToken.quoted name ++ .mark colon :: value.tokens schema shape

theorem Value.tokens_object {shape : Shape} {table : Table} (members : List Value)
    (presence : PresenceBits 64) (extras : Entries Value)
    (declared : schema.table? shape.unbox = some table) :
    (Value.object members presence extras).tokens schema shape =
      .mark leftBrace :: TextToken.separated
        ((table.liveMembers members presence extras).map (TextToken.ofMember schema)) ++
        [.mark rightBrace] := by
  rw [Value.tokens.eq_def]
  simp only [declared]
  rw [← List.attach_map_val (f := TextToken.ofMember schema)]
  rfl

/-! ## Steps as tokens -/

/-- Steps of an emitter that write these tokens, those of the parts that are called for
included. -/
inductive StepsWrite (schema : Schema) : List EmitStep → List TextToken → Prop
  | nil : StepsWrite schema [] []
  | token (token : TextToken) {rest : List EmitStep} {tokens : List TextToken}
      (more : StepsWrite schema rest tokens) :
      StepsWrite schema (.token token.bytes :: rest) (token :: tokens)
  | call (lead : Option UInt8) (shape : Shape) (value : Value) {rest : List EmitStep}
      {tokens : List TextToken} (more : StepsWrite schema rest tokens) :
      StepsWrite schema (.call lead.toList shape value :: rest)
        (lead.toList.map .mark ++ (value.tokens schema shape ++ tokens))

namespace StepsWrite

theorem append {front back : List EmitStep} {tokens tokens' : List TextToken}
    (first : StepsWrite schema front tokens) (second : StepsWrite schema back tokens') :
    StepsWrite schema (front ++ back) (tokens ++ tokens') := by
  induction first with
  | nil => exact second
  | token token _ ih => exact .token token ih
  | call lead shape value _ ih =>
    simp only [List.append_assoc]
    exact .call lead shape value ih

theorem mark (byte : UInt8) : StepsWrite schema [.token [byte]] [.mark byte] :=
  .token (.mark byte) .nil

theorem tokens (tokens : List TextToken) :
    StepsWrite schema ((tokens.map TextToken.bytes).map .token) tokens := by
  induction tokens with
  | nil => exact .nil
  | cons token rest ih => exact .token token ih

theorem quoted (text : String) :
    StepsWrite schema ((stringTokens text).map .token) (TextToken.quoted text) := by
  rw [← TextToken.map_bytes_quoted]
  exact tokens _

theorem calls (item : Shape) (items : List Value) :
    StepsWrite schema (items.map (.call [comma] item))
      ((items.map (Value.tokens schema item)).flatMap (.mark comma :: ·)) := by
  induction items with
  | nil => exact .nil
  | cons value rest ih => exact .call (some comma) item value ih

theorem items (item : Shape) (items : List Value) :
    StepsWrite schema (Emitter.ofItems item items).steps
      (.mark leftBracket :: TextToken.separated (items.map (Value.tokens schema item)) ++
        [.mark rightBracket]) := by
  refine .append (.token (.mark leftBracket) ?_) (mark rightBracket)
  cases items with
  | nil => exact .nil
  | cons value rest => exact .call none item value (calls item rest)

theorem member (member : String × Shape × Value) :
    StepsWrite schema (memberSteps member) (TextToken.ofMember schema member) := by
  obtain ⟨name, shape, value⟩ := member
  have part : StepsWrite schema [.call [colon] shape value]
      (.mark colon :: (value.tokens schema shape ++ [])) := .call (some colon) shape value .nil
  rw [List.append_nil] at part
  exact (quoted name).append part

theorem more (members : List (String × Shape × Value)) :
    StepsWrite schema (laterMemberSteps members)
      ((members.map (TextToken.ofMember schema)).flatMap (.mark comma :: ·)) := by
  induction members with
  | nil => exact .nil
  | cons first rest ih => exact .token (.mark comma) ((member first).append ih)

theorem members (members : List (String × Shape × Value)) :
    StepsWrite schema (objectSteps members)
      (.mark leftBrace :: TextToken.separated (members.map (TextToken.ofMember schema)) ++
        [.mark rightBrace]) := by
  refine .append (.token (.mark leftBrace) ?_) (mark rightBrace)
  cases members with
  | nil => exact .nil
  | cons first rest => exact (member first).append (more rest)

theorem of_starts {shape : Shape} {value : Value} {emitter : Emitter}
    (starts : Starts schema shape value emitter) :
    StepsWrite schema emitter.steps (value.tokens schema shape) := by
  induction starts with
  | null unboxed | absent unboxed =>
    rw [Value.tokens.eq_def, unboxed]
    exact .token (.literal nullText) .nil
  | bool value unboxed =>
    rw [Value.tokens.eq_def, unboxed]
    exact .token (.literal (boolText value)) .nil
  | string text unboxed =>
    rw [Value.tokens.eq_def, unboxed]
    exact quoted text
  | @number _ _ _ text unboxed written =>
    rw [Value.tokens.eq_def, unboxed]
    simp only [written]
    exact .token (.number text) .nil
  | list values unboxed =>
    rw [Value.tokens_list values unboxed]
    exact items _ values
  | held unboxed _ ih | present unboxed _ ih =>
    rw [Value.tokens.eq_def, unboxed]
    exact ih
  | object values presence extras declared =>
    rw [Value.tokens_object values presence extras declared]
    exact members _

theorem text_eq {steps : List EmitStep} {text : List UInt8} (emits : Emits schema steps text)
    {tokens : List TextToken} (spelled : StepsWrite schema steps tokens) :
    text = TextToken.text tokens := by
  induction emits generalizing tokens with
  | nil =>
    cases spelled
    rfl
  | token _ ih =>
    cases spelled with
    | token token more => rw [ih more, TextToken.text_cons]
  | call started _ _ ihInner ih =>
    cases spelled with
    | call lead shape value more =>
      have inner := of_starts ((Emitter.start_eq_ok_iff _ _ _ _).mp started)
      rw [ih more, ihInner inner]
      cases lead <;> simp [TextToken.text, TextToken.bytes]

end StepsWrite

theorem text_eq_of_written {shape : Shape} {value : Value} {text : List UInt8}
    (written : Written schema shape value text) :
    text = TextToken.text (value.tokens schema shape) := by
  obtain ⟨emitter, started, emits⟩ := written
  exact StepsWrite.text_eq emits (.of_starts ((Emitter.start_eq_ok_iff _ _ _ _).mp started))

/-! ## Where buffers cut -/

/-- What was handed out of tokens ends behind the last of them, or inside it; then the token is
a long one, and the rest of it is spilled. -/
inductive CutAt (handed : List UInt8) : List TextToken → Scratch → Prop
  | behind {tokens : List TextToken} (same : handed = TextToken.text tokens) :
      CutAt handed tokens #[]
  | inside {before : List TextToken} {token : TextToken} {front : List UInt8} {spill : Scratch}
      (long : token.IsLong) (begun : front ≠ []) (spilled : spill ≠ #[])
      (parts : token.bytes = front ++ spill.toList)
      (same : handed = TextToken.text before ++ front) :
      CutAt handed (before ++ [token]) spill

namespace CutAt

variable {handed : List UInt8} {tokens : List TextToken} {spill : Scratch}

theorem append_eq (cut : CutAt handed tokens spill) :
    handed ++ spill.toList = TextToken.text tokens := by
  cases cut with
  | behind same => rw [same, List.append_nil]
  | inside _ _ _ parts same =>
    rw [same, List.append_assoc, ← parts]
    simp

theorem drain (cut : CutAt handed tokens spill) (size : Nat) :
    CutAt (handed ++ spill.toList.take size) tokens (spill.toList.drop size).toArray := by
  by_cases all : spill.toList.drop size = []
  · have taken : spill.toList.take size = spill.toList :=
      List.take_of_length_le (List.drop_eq_nil_iff.mp all)
    rw [all, taken]
    exact .behind cut.append_eq
  · cases cut with
    | behind same => exact absurd List.drop_nil all
    | inside long begun spilled parts same =>
      rename_i token front
      have parts' : token.bytes =
          front ++ spill.toList.take size ++ (spill.toList.drop size).toArray.toList := by
        rw [List.append_assoc, List.take_append_drop, parts]
      refine .inside long ?_ ?_ parts' ?_
      · exact List.append_ne_nil_of_left_ne_nil begun _
      · intro empty
        exact all (congrArg Array.toList empty)
      · rw [same, List.append_assoc]

/-- A token that is put into a buffer with room is cut only if it is a long one. -/
theorem token {out : Output} (cut : CutAt (handed ++ out.bytes.toList) tokens out.spill)
    (notFull : out.isFull = false) (token : TextToken) :
    CutAt (handed ++ (out.token token.bytes).bytes.toList) (tokens ++ [token])
      (out.token token.bytes).spill := by
  have room := Output.left_pos notFull
  simp only [Output.isFull, Bool.or_eq_false_iff, Bool.not_eq_false', Array.isEmpty_iff,
    decide_eq_false_iff_not] at notFull
  obtain ⟨-, empty⟩ := notFull
  have written := cut.append_eq
  rw [empty, List.append_nil] at written
  have free : out.room = out.left := by
    simp [Output.room, Output.left, empty]
  have bytes : (out.token token.bytes).bytes.toList =
      out.bytes.toList ++ token.bytes.take out.left := by
    simp [Output.token, free]
  have spill : (out.token token.bytes).spill = (token.bytes.drop out.left).toArray := by
    simp [Output.token, free, empty]
  rw [bytes, spill, ← List.append_assoc, written]
  by_cases fits : token.bytes.length ≤ out.left
  · rw [List.drop_eq_nil_of_le fits, List.take_of_length_le fits]
    exact .behind (by simp)
  · rw [Nat.not_le] at fits
    refine .inside (TextToken.isLong_of_lt ?_) ?_ ?_ (List.take_append_drop _ _).symm rfl
    · omega
    · rw [ne_eq, List.take_eq_nil_iff]
      rintro (none' | nothing)
      · omega
      · rw [nothing] at fits
        exact absurd fits (Nat.not_lt_zero _)
    · intro nothing
      have := List.drop_eq_nil_iff.mp (congrArg Array.toList nothing)
      omega

theorem lead {out : Output} (cut : CutAt (handed ++ out.bytes.toList) tokens out.spill)
    (notFull : out.isFull = false) (lead : Option UInt8) :
    CutAt (handed ++ (out.token lead.toList).bytes.toList) (tokens ++ lead.toList.map .mark)
      (out.token lead.toList).spill := by
  cases lead with
  | some byte => exact cut.token notFull (.mark byte)
  | none => simpa [Output.token] using cut

end CutAt

/-! ## Turns and runs -/

/-- The tokens that a frame asks another to write. -/
def Step.Asks (schema : Schema) (tokens : List TextToken) : Step Emitter → Prop
  | .call child => StepsWrite schema child.steps tokens
  | .pause => tokens = []
  | .complete => tokens = []

theorem Emitter.advance_cutAt (steps : List EmitStep) (out : Output) {steps' : List EmitStep}
    {out' : Output} {step : Step Emitter} {handed : List UInt8} {done tokens : List TextToken}
    (spelled : StepsWrite schema steps tokens)
    (cut : CutAt (handed ++ out.bytes.toList) done out.spill)
    (advanced : advance schema steps out = (steps', out', .ok step)) :
    ∃ more asked tokens', tokens = more ++ (asked ++ tokens') ∧
      CutAt (handed ++ out'.bytes.toList) (done ++ more) out'.spill ∧
      step.Asks schema asked ∧ StepsWrite schema steps' tokens' ∧
      (step = .complete → tokens' = []) := by
  induction spelled generalizing out done with
  | nil =>
    cases advanced
    refine ⟨[], [], [], rfl, ?_, rfl, .nil, fun _ => rfl⟩
    rwa [List.append_nil]
  | token token more ih =>
    rw [advance.eq_def] at advanced
    simp only at advanced
    split at advanced
    · cases advanced
      refine ⟨[], [], _, rfl, ?_, rfl, .token token more, by simp⟩
      rwa [List.append_nil]
    · rename_i notFull
      rw [Bool.not_eq_true] at notFull
      obtain ⟨behind, asked, tokens', rfl, cut', asks, spelled', ends⟩ :=
        ih (out.token token.bytes) (cut.token notFull token) advanced
      refine ⟨token :: behind, asked, tokens', rfl, ?_, asks, spelled', ends⟩
      rwa [List.append_assoc] at cut'
  | call lead shape value more ih =>
    rw [advance.eq_def] at advanced
    simp only at advanced
    split at advanced
    · cases advanced
      refine ⟨[], [], _, rfl, ?_, rfl, .call lead shape value more, by simp⟩
      rwa [List.append_nil]
    · rename_i notFull
      rw [Bool.not_eq_true] at notFull
      cases started : start schema shape value with
      | error error =>
        rw [started] at advanced
        cases advanced
      | ok child =>
        rw [started] at advanced
        cases advanced
        have starts := (start_eq_ok_iff _ _ _ _).mp started
        exact ⟨_, _, _, rfl, cut.lead notFull lead, StepsWrite.of_starts starts, more, by simp⟩

inductive FramesWrite (schema : Schema) : List Emitter → List TextToken → Prop
  | nil : FramesWrite schema [] []
  | cons {emitter : Emitter} {frames : List Emitter} {tokens tokens' : List TextToken}
      (top : StepsWrite schema emitter.steps tokens) (rest : FramesWrite schema frames tokens') :
      FramesWrite schema (emitter :: frames) (tokens ++ tokens')

theorem resume_cutAt {out out' : Output} {emitter emitter' : Emitter} {spill spill' : Scratch}
    {step : Step Emitter} {handed : List UInt8} {done tokens : List TextToken}
    (writes : StepsWrite schema emitter.steps tokens)
    (cut : CutAt (handed ++ out.bytes.toList) done spill)
    (resumed : (writeDriver schema).resume out emitter spill = ⟨out', emitter', spill', .ok step⟩) :
    ∃ more asked tokens', tokens = more ++ (asked ++ tokens') ∧
      CutAt (handed ++ out'.bytes.toList) (done ++ more) spill' ∧
      step.Asks schema asked ∧
      (step ≠ .complete → StepsWrite schema emitter'.steps tokens') ∧
      (step = .complete → tokens' = []) := by
  rcases turn : emitter.resume schema { out with spill } with ⟨emitter'', out'', result⟩
  simp only [writeDriver, turn] at resumed
  cases resumed
  obtain ⟨steps, advanced, left⟩ := Emitter.advance_of_resume turn
  obtain ⟨more, asked, tokens', same, cut', asks, writes', ends⟩ :=
    Emitter.advance_cutAt _ _ writes cut advanced
  refine ⟨more, asked, tokens', same, cut', asks, ?_, ends⟩
  intro notComplete
  rw [left (by simpa using notComplete)]
  exact writes'

theorem run_cutAt {out : Output} {stack : Stack Emitter} {run : Run Output Emitter GenerateError}
    (runs : Runs (writeDriver schema) out stack run) {handed : List UInt8}
    {done tokens : List TextToken} (writes : FramesWrite schema stack.frames tokens)
    (cut : CutAt (handed ++ out.bytes.toList) done stack.scratch)
    (succeeds : ∀ error, run.outcome ≠ .failed error) :
    ∃ more tokens', tokens = more ++ tokens' ∧
      CutAt (handed ++ run.context.bytes.toList) (done ++ more) run.stack.scratch ∧
      FramesWrite schema run.stack.frames tokens' := by
  induction runs generalizing done tokens with
  | empty =>
    cases writes
    refine ⟨[], [], rfl, ?_, .nil⟩
    rwa [List.append_nil]
  | fail | refuse | reject => exact absurd rfl (succeeds _)
  | pause resumed =>
    cases writes with
    | cons top rest =>
      obtain ⟨more, _, tokens', rfl, cut', rfl, top', -⟩ := resume_cutAt top cut resumed
      refine ⟨more, _, ?_, cut', .cons (top' nofun) rest⟩
      rw [List.nil_append, List.append_assoc]
  | call resumed pushed _ ih =>
    cases writes with
    | cons top rest =>
      obtain ⟨more, asked, tokens', rfl, cut', asks, top', -⟩ := resume_cutAt top cut resumed
      rw [Stack.push_eq pushed] at ih
      obtain ⟨further, left, same, cut'', writes'⟩ :=
        ih (.cons asks (.cons (top' nofun) rest)) cut' succeeds
      refine ⟨more ++ further, left, ?_, ?_, writes'⟩
      · simp only [List.append_assoc, same]
      · rwa [← List.append_assoc]
  | @complete out out' out'' top top' rest fresh limit scratch scratch' stack run resumed handed' _
      ih =>
    have same : out'' = out' ∧ stack = ⟨rest, fresh - 1, limit, scratch'⟩ := by
      cases rest <;> cases handed' <;> exact ⟨rfl, rfl⟩
    obtain ⟨rfl, rfl⟩ := same
    cases writes with
    | cons top rest =>
      obtain ⟨more, _, tokens', rfl, cut', rfl, -, ends⟩ := resume_cutAt top cut resumed
      cases ends rfl
      obtain ⟨further, left, same, cut'', writes'⟩ := ih rest cut' succeeds
      refine ⟨more ++ further, left, ?_, ?_, writes'⟩
      · simp [same]
      · rwa [← List.append_assoc]

/-! ## Calls -/

namespace Generator

/-- Where the tokens of a value are cut by what a generator has handed out, and which of them
are left. -/
def CutIn (generator : Generator) (tokens : List TextToken) (handed : List UInt8) : Prop :=
  ∃ done left, tokens = done ++ left ∧ CutAt handed done generator.stack.scratch ∧
    FramesWrite generator.schema generator.stack.frames left

theorem generate_cutIn {generator later : Generator} {text : Transcript} {size : Nat}
    {bytes handed : List UInt8} {tokens : List TextToken} (remaining : generator.Remaining text)
    (cut : generator.CutIn tokens handed)
    (generated : generator.generate size = (later, .ok bytes)) :
    later.CutIn tokens (handed ++ bytes) := by
  obtain ⟨schema, ⟨frames, fresh, limit, scratch⟩, produced, error⟩ := generator
  obtain ⟨done, left, rfl, cut, writes⟩ := cut
  have drained := cut.drain size
  have stops := generate_stops remaining size
  simp only [Stops, Scratch.drain, generated] at stops
  split at stops
  · cases stops
    exact ⟨done, left, rfl, drained, writes⟩
  · obtain ⟨run, turns, stops, -, settled⟩ := stops
    obtain ⟨stack, sameSchema, rfl, succeeds⟩ := settle_eq_ok settled.symm
    obtain ⟨more, left', rfl, cut', writes'⟩ := run_cutAt stops.runs writes drained succeeds
    refine ⟨done ++ more, left', (List.append_assoc ..).symm, ?_, ?_⟩
    · rwa [stack]
    · rwa [stack, sameSchema]

theorem cutIn_create {shape : Shape} {value : Value} {limit : Option Nat}
    (noError : (create schema shape value limit).error = none) :
    (create schema shape value limit).CutIn (value.tokens schema shape) [] := by
  cases started : Emitter.start schema shape value with
  | error error =>
    rw [create, started] at noError
    cases noError
  | ok emitter =>
    have starts := (Emitter.start_eq_ok_iff _ _ _ _).mp started
    have writes := FramesWrite.cons (.of_starts starts) .nil
    rw [List.append_nil] at writes
    rw [create, started] at noError ⊢
    cases pushed : Stack.push ⟨[], 0, limit, #[]⟩ emitter with
    | error reached =>
      simp only [pushed] at noError
      cases noError
    | ok stack =>
      simp only [pushed]
      rw [Stack.push_eq pushed]
      exact ⟨[], _, rfl, .behind rfl, writes⟩

theorem fill_cutIn {generator last : Generator} {text : Transcript} {tokens : List TextToken}
    {before handed : List UInt8} (remaining : generator.Remaining text)
    (cut : generator.CutIn tokens before) (sizes : List Nat)
    (filled : generator.fill sizes = (last, handed)) :
    (∃ error, last.error = some error) ∨
      (∃ text, last.Remaining text) ∧ last.CutIn tokens (before ++ handed) := by
  induction sizes generalizing generator text before handed with
  | nil =>
    cases filled
    rw [List.append_nil]
    exact .inr ⟨⟨text, remaining⟩, cut⟩
  | cons size sizes ih =>
    rcases generated : generator.generate size with ⟨later, error | bytes⟩
    · obtain ⟨-, -, stays, -⟩ := generate_hands remaining generated
      simp only [fill, generated, fill_of_error stays] at filled
      cases filled
      exact .inl ⟨error, stays⟩
    · obtain ⟨-, -, remaining', -⟩ := generate_hands remaining generated
      rcases rest : later.fill sizes with ⟨last', handed'⟩
      simp only [fill, generated, rest] at filled
      cases filled
      have cut' := generate_cutIn remaining cut generated
      have ends := ih remaining' cut' rest
      rw [List.append_assoc] at ends
      exact ends

theorem full_of_spill {generator later : Generator} {text : Transcript} {size : Nat}
    {bytes : List UInt8} (remaining : generator.Remaining text)
    (generated : generator.generate size = (later, .ok bytes))
    (spilled : later.stack.scratch ≠ #[]) : bytes.length = size := by
  rcases full_or_finished remaining generated with finished | full
  · simp only [isFinished, Bool.and_eq_true, Array.isEmpty_iff] at finished
    exact absurd finished.2 spilled
  · exact full

/-- Whatever the buffers: behind a call that did not fail, what was handed out ends behind a
token of the value, or the call has filled its buffer and ended inside an escape sequence, a
number or a literal, of which the spill is the rest.  What was handed out and the spill are the
text of the tokens up to there; and while there is a spill, no emitter does anything. -/
theorem spill_rest_of_token (schema : Schema) (shape : Shape) (value : Value)
    (limit : Option Nat) (sizes : List Nat) (size : Nat) :
    let (generator, handed) := (create schema shape value limit).fill sizes
    (∀ later bytes, generator.generate size = (later, .ok bytes) →
      ∃ done left, value.tokens schema shape = done ++ left ∧
        handed ++ bytes ++ later.stack.scratch.toList = TextToken.text done ∧
        (later.stack.scratch = #[] ∨
          bytes.length = size ∧ ∃ before token front, done = before ++ [token] ∧ token.IsLong ∧
            handed ++ bytes = TextToken.text before ++ front ∧
            token.bytes = front ++ later.stack.scratch.toList ∧
            front ≠ [] ∧ later.stack.scratch ≠ #[])) ∧
    (∀ text, writeBytes schema shape value = .ok text →
      text = TextToken.text (value.tokens schema shape)) ∧
    ∀ (emitter : Emitter) (out : Output), out.spill ≠ #[] →
      emitter.resume schema out = (emitter, out, .ok .pause) := by
  rcases filling : (create schema shape value limit).fill sizes with ⟨generator, handed⟩
  refine ⟨?_, ?_, ?_⟩
  · intro later bytes generated
    cases begins : value.transcript schema limit 0 shape with
    | error error =>
      obtain ⟨failed, -⟩ := error_create begins
      rw [fill_of_error failed] at filling
      cases filling
      cases (generate_of_error failed size).symm.trans generated
    | ok text =>
      obtain ⟨remaining, -⟩ := remaining_create begins
      have cut := cutIn_create remaining.noError
      rcases fill_cutIn remaining cut sizes filling with
        ⟨error, failed⟩ | ⟨⟨text', remaining'⟩, cut'⟩
      · cases (generate_of_error failed size).symm.trans generated
      · obtain ⟨done, left, same, cutAt, -⟩ := generate_cutIn remaining' cut' generated
        refine ⟨done, left, same, cutAt.append_eq, ?_⟩
        have full := full_of_spill remaining' generated
        generalize later.stack.scratch = spill at cutAt full ⊢
        cases cutAt with
        | behind => exact .inl rfl
        | inside long begun spilled parts ends =>
          exact .inr ⟨full spilled, _, _, _, rfl, long, ends, parts, begun, spilled⟩
  · intro text written
    exact text_eq_of_written ((writeBytes_eq_ok_iff _ _ _ _).mp written)
  · intro emitter out spilled
    exact emitter.resume_of_spill schema spilled

/-- The text `["\n",-12]` in buffers of three bytes and of four: the first ends inside the
escape, the second inside the number. -/
theorem spill_rest_of_token_torn :
    let value : Value := .list [.held (.string "\n"), .held (.number (.any (.int (-12))))]
    let generator := create .empty (.list .variant) value (some 2)
    let (last, handed) := generator.fill [3]
    let (later, result) := last.generate 4
    handed = [0x5B, 0x22, 0x5C] ∧ last.stack.scratch = #[0x6E] ∧
      result = .ok [0x6E, 0x22, 0x2C, 0x2D] ∧ later.stack.scratch = #[0x31, 0x32] ∧
      ∃ (before : List TextToken) (token : TextToken) (front : List UInt8), token.IsLong ∧
        [0x5B, 0x22, 0x5C, 0x6E, 0x22, 0x2C, 0x2D] = TextToken.text before ++ front ∧
        token.bytes = front ++ [0x31, 0x32] ∧ front ≠ [] := by
  intro value generator
  have handed : (generator.fill [3]).2 = [0x5B, 0x22, 0x5C] := by decide +kernel
  have spilled : (generator.fill [3]).1.stack.scratch = #[0x6E] := by decide +kernel
  have result : ((generator.fill [3]).1.generate 4).2 = .ok [0x6E, 0x22, 0x2C, 0x2D] := by
    decide +kernel
  have spill : ((generator.fill [3]).1.generate 4).1.stack.scratch = #[0x31, 0x32] := by
    decide +kernel
  have cut := spill_rest_of_token .empty (.list .variant) value (some 2) [3] 4
  rw [show create .empty (.list .variant) value (some 2) = generator from rfl] at cut
  generalize generator.fill [3] = filled at *
  obtain ⟨last, front⟩ := filled
  simp only at handed spilled result spill cut ⊢
  generalize last.generate 4 = call at *
  obtain ⟨later, bytes⟩ := call
  simp only at result spill
  subst handed result
  obtain ⟨done, left, -, -, nothing | ⟨-, before, token, front, -, long, ends, parts, begun, -⟩⟩ :=
    cut.1 later _ rfl
  · rw [spill] at nothing
    cases nothing
  · rw [spill] at parts
    exact ⟨rfl, spilled, rfl, spill, before, token, front, long, ends, parts, begun⟩

end Generator

end IncrementalJson
