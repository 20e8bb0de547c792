import IncrementalJson.Generator
import Mathlib.Data.List.TakeWhile

/-!
# The steps of an emitter

What an emitter has yet to do is a list of steps: to write a token, or to write
one and call the emitter of a part of the value.  `advance` takes the steps one
after the other, each when there is room.  A turn of an emitter does the same,
although it cuts plain runs of strings as a whole and looks for the next member
only when it gets there.
-/

set_option autoImplicit false

namespace IncrementalJson

open Ascii

inductive EmitStep where
  /-- Writes a token. -/
  | token (bytes : List UInt8)
  /-- Writes a token, which may be empty, and lets another emitter write a value. -/
  | call (lead : List UInt8) (shape : Shape) (value : Value)
  /-- Writes a token and finds that there is nothing to call. -/
  | fail (lead : List UInt8) (error : GenerateError)

def StringWriter.tokens (writer : StringWriter) : List (List UInt8) :=
  match writer.phase with
  | .opening => [quote] :: writer.rest.map octetToken ++ [[quote]]
  | .body => writer.rest.map octetToken ++ [[quote]]
  | .closing => [[quote]]

def memberSteps : String × Shape × Value → List EmitStep
  | (name, shape, value) => (stringTokens name).map .token ++ [.call [colon] shape value]

def laterMemberSteps (members : List (String × Shape × Value)) : List EmitStep :=
  members.flatMap fun member => .token [comma] :: memberSteps member

def itemSteps (begun : Bool) (item : Shape) (items : List Value) : List EmitStep :=
  match items with
  | [] => []
  | first :: rest =>
    .call (if begun then [comma] else []) item first :: rest.map (.call [comma] item)

namespace MembersWriter

def members (writer : MembersWriter) : List (String × Shape × Value) :=
  Table.liveFields writer.presence writer.fields writer.values writer.index ++
    match writer.extra with
    | some shape => writer.extras.map fun (name, value) => (name, shape, value)
    | none => []

def nextSteps (begun : Bool) : List (String × Shape × Value) → List EmitStep
  | [] => []
  | first :: rest =>
    (if begun then [.token [comma]] else []) ++ memberSteps first ++ laterMemberSteps rest

theorem nextSteps_first (first : String × Shape × Value) (rest : List (String × Shape × Value)) :
    nextSteps false (first :: rest) = memberSteps first ++ laterMemberSteps rest := rfl

def pendingStep (writer : MembersWriter) : EmitStep :=
  match writer.pending with
  | some (shape, value) => .call [colon] shape value
  | none => .fail [colon] (.unexpected .resumedAfterCompletion)

/-- What is left behind the name that is being written. -/
def behindName (writer : MembersWriter) : List EmitStep :=
  writer.pendingStep :: laterMemberSteps writer.members ++ [.token [rightBrace]]

def steps (writer : MembersWriter) : List EmitStep :=
  match writer.phase with
  | .opening =>
    .token [leftBrace] :: nextSteps writer.wroteMember writer.members ++ [.token [rightBrace]]
  | .next => nextSteps writer.wroteMember writer.members ++ [.token [rightBrace]]
  | .name => writer.name.tokens.map .token ++ writer.behindName
  | .colon => writer.behindName
  | .closing => [.token [rightBrace]]

end MembersWriter

def objectSteps (members : List (String × Shape × Value)) : List EmitStep :=
  .token [leftBrace] :: MembersWriter.nextSteps false members ++ [.token [rightBrace]]

namespace Emitter

def steps : Emitter → List EmitStep
  | .token bytes => [.token bytes]
  | .string writer => writer.tokens.map .token
  | .array item .opening begun items =>
    .token [leftBracket] :: itemSteps begun item items ++ [.token [rightBracket]]
  | .array item .next begun items => itemSteps begun item items ++ [.token [rightBracket]]
  | .array _ .closing _ _ => [.token [rightBracket]]
  | .object writer => writer.steps

theorem steps_ofString (text : String) : (ofString text).steps = (stringTokens text).map .token :=
  rfl

theorem steps_ofObject (table : Table) (members : List Value) (presence : PresenceBits 64)
    (extras : Entries Value) :
    (ofObject table members presence extras).steps =
      objectSteps (table.liveMembers members presence extras) := rfl

/-- Takes steps while there is room: the steps left, the output, and what is called for. -/
def advance (schema : Schema) : List EmitStep → Output →
    List EmitStep × Output × Except GenerateError (Step Emitter)
  | [], out => ([], out, .ok .complete)
  | step :: rest, out =>
    if out.isFull then (step :: rest, out, .ok .pause)
    else match step with
      | .token bytes => advance schema rest (out.token bytes)
      | .call lead shape value =>
        (rest, out.token lead, (start schema shape value).map .call)
      | .fail lead error => (rest, out.token lead, .error error)

variable {schema : Schema}

theorem advance_full {out : Output} (full : out.isFull) (step : EmitStep)
    (rest : List EmitStep) :
    advance schema (step :: rest) out = (step :: rest, out, .ok .pause) := by
  rw [advance.eq_def]
  exact if_pos full

theorem advance_full_append {out : Output} (full : out.isFull) (front : List EmitStep)
    (last : EmitStep) :
    advance schema (front ++ [last]) out = (front ++ [last], out, .ok .pause) := by
  cases front with
  | nil => exact advance_full full last []
  | cons step rest => exact advance_full full step (rest ++ [last])

theorem advance_token {out : Output} (notFull : ¬ out.isFull) (bytes : List UInt8)
    (rest : List EmitStep) :
    advance schema (.token bytes :: rest) out = advance schema rest (out.token bytes) := by
  rw [advance.eq_def]
  exact if_neg notFull

theorem advance_call {out : Output} (notFull : ¬ out.isFull) (lead : List UInt8) (shape : Shape)
    (value : Value) (rest : List EmitStep) :
    advance schema (.call lead shape value :: rest) out =
      (rest, out.token lead, (start schema shape value).map .call) := by
  rw [advance.eq_def]
  exact if_neg notFull

theorem advance_fail {out : Output} (notFull : ¬ out.isFull) (lead : List UInt8)
    (error : GenerateError) (rest : List EmitStep) :
    advance schema (.fail lead error :: rest) out = (rest, out.token lead, .error error) := by
  rw [advance.eq_def]
  exact if_neg notFull

end Emitter

/-! ## Strings -/

namespace Output

theorem put_nil (out : Output) : out.put [] = out := by
  simp [put]

theorem room_token {out : Output} (notFull : ¬ out.isFull) (octet : UInt8) :
    (out.token [octet]).room = out.room - 1 := by
  have some_ := room_pos notFull
  have empty : out.spill.isEmpty := by
    rw [isFull_iff, room] at notFull
    cases empty : out.spill.isEmpty with
    | true => rfl
    | false => simp [empty] at notFull
  obtain ⟨less, more⟩ : ∃ less, out.room = less + 1 := ⟨out.room - 1, by omega⟩
  have later : (out.token [octet]).spill.isEmpty := by
    simpa [token, more] using empty
  have written : (out.token [octet]).written = out.written + 1 := by
    simp [token, written, more, Nat.add_assoc]
  have size : (out.token [octet]).size = out.size := rfl
  rw [room, if_pos later, written, size, room, if_pos empty]
  omega

/-- A run that is cut to the room that is left goes out octet by octet. -/
theorem put_cons {out : Output} (notFull : ¬ out.isFull) (octet : UInt8) (run : List UInt8) :
    out.put (octet :: run) = (out.token [octet]).put run := by
  have some_ := room_pos notFull
  obtain ⟨less, more⟩ : ∃ less, out.room = less + 1 := ⟨out.room - 1, by omega⟩
  rw [put, put, room_token notFull, more]
  simp [token, more]

end Output

namespace StringWriter

variable {schema : Schema}

theorem octetToken_of_plain {octet : UInt8} (plain : isPlain octet) :
    octetToken octet = [octet] := by
  rw [isPlain, Option.isNone_iff_eq_none] at plain
  rw [octetToken, plain]
  rfl

open Emitter in
theorem advance_run {run : List UInt8} (plain : ∀ octet ∈ run, isPlain octet) (out : Output)
    (rest : List EmitStep) :
    advance schema ((run.map octetToken).map .token ++ rest) out =
      advance schema
        (((run.drop (min run.length out.room)).map octetToken).map .token ++ rest)
        (out.put run) := by
  induction run generalizing out with
  | nil => simp [Output.put_nil]
  | cons octet run ih =>
    obtain ⟨here, later⟩ := List.forall_mem_cons.mp plain
    by_cases full : out.isFull
    · have none_ := out.isFull_iff.mp full
      simp [none_, Output.put]
    · have some_ := Output.room_pos full
      have goesOn := ih later (out.token [octet])
      rw [Output.room_token full] at goesOn
      obtain ⟨less, more⟩ : ∃ less, out.room = less + 1 := ⟨out.room - 1, by omega⟩
      rw [Output.put_cons full]
      simp only [List.map_cons, List.cons_append, octetToken_of_plain here]
      rw [advance_token full, goesOn, more]
      simp [Nat.add_min_add_right]

/-- What the steps of a string with others behind come to, by what the string itself does. -/
def behind (schema : Schema) (rest : List EmitStep) :
    StringWriter × Output × Bool → List EmitStep × Output × Except GenerateError (Step Emitter)
  | (writer, out, false) => (writer.tokens.map .token ++ rest, out, .ok .pause)
  | (_, out, true) => Emitter.advance schema rest out

theorem advance_closing (octets : List UInt8) (out : Output) (rest : List EmitStep) :
    Emitter.advance schema (.token [quote] :: rest) out =
      behind schema rest (emitClosing octets out) := by
  rw [emitClosing]
  by_cases full : out.isFull
  · rw [if_pos full, Emitter.advance_full full]
    rfl
  · rw [if_neg full, Emitter.advance_token full]
    rfl

theorem advance_body (octets : List UInt8) (out : Output) (rest : List EmitStep) :
    Emitter.advance schema ((octets.map octetToken).map .token ++ .token [quote] :: rest) out =
      behind schema rest (emitBody octets out) := by
  fun_induction emitBody octets out with
  | case1 octets out full =>
    have paused (step : EmitStep) (steps : List EmitStep) :
        Emitter.advance schema (step :: steps) out = (step :: steps, out, .ok .pause) :=
      Emitter.advance_full full step steps
    cases octets <;> simp [behind, tokens, paused]
  | case2 out full => exact advance_closing [] out rest
  | case3 out full first later sequence escaped ih =>
    have same : octetToken first = sequence := by rw [octetToken, escaped, Option.getD_some]
    rw [List.map_cons, List.map_cons, List.cons_append, Emitter.advance_token full, same, ih]
  | case4 out full first later plain run ih =>
    have whole : first :: later = run ++ later.dropWhile isPlain := by
      rw [List.cons_append, List.takeWhile_append_dropWhile]
    have cut : (first :: later).drop (min run.length out.room) =
        run.drop (min run.length out.room) ++ later.dropWhile isPlain := by
      rw [whole, List.drop_append_of_le_length (Nat.min_le_left _ _)]
    have allPlain : ∀ octet ∈ run, isPlain octet := by
      intro octet among
      rcases List.mem_cons.mp among with rfl | among
      · rw [isPlain, plain]
        rfl
      · exact List.mem_takeWhile_imp among
    rw [cut] at ih ⊢
    rw [whole, ← ih]
    simp only [List.map_append, List.append_assoc]
    exact advance_run allPlain out _

/-- A string that is written in plain runs takes the steps of its octets one after the other. -/
theorem advance_emit (writer : StringWriter) (out : Output) (rest : List EmitStep) :
    Emitter.advance schema (writer.tokens.map .token ++ rest) out =
      behind schema rest (writer.emit out) := by
  obtain ⟨phase, octets⟩ := writer
  have body (out : Output) (rest : List EmitStep) :
      Emitter.advance schema ((octets.map octetToken).map .token ++ .token [quote] :: rest) out =
        behind schema rest (emitBody octets out) := advance_body octets out rest
  cases phase with
  | opening =>
    simp only [emit, tokens, List.map_append, List.map_cons, List.cons_append, List.map_nil,
      List.append_assoc, List.nil_append]
    by_cases full : out.isFull
    · rw [if_pos full, Emitter.advance_full full]
      simp [behind, tokens]
    · rw [if_neg full, Emitter.advance_token full, body]
  | body =>
    simp only [emit, tokens, List.map_append, List.map_cons, List.map_nil, List.append_assoc,
      List.cons_append, List.nil_append]
    exact body out rest
  | closing => exact advance_closing octets out rest

end StringWriter

/-! ## Members -/

namespace MembersWriter

theorem liveFields_of_nextField? {presence : PresenceBits 64} {fields : List Field}
    {values : List Value} {index : Nat} :
    Table.liveFields presence fields values index =
      match nextField? presence fields values index with
      | some (field, value, fields, values, index) =>
        (field.name, field.shape, value) :: Table.liveFields presence fields values index
      | none => [] := by
  fun_induction nextField? presence fields values index with
  | case1 field fields value values index live => rw [Table.liveFields, if_pos live]
  | case2 field fields value values index dead ih =>
    rw [Table.liveFields, if_neg dead]
    exact ih
  | case3 fields values index none_ =>
    cases fields with
    | nil => rfl
    | cons field fields =>
      cases values with
      | nil => rfl
      | cons value values => exact absurd rfl (none_ field fields value values rfl)

theorem members_of_advance?_none {writer : MembersWriter} (none_ : writer.advance? = none) :
    writer.members = [] := by
  rw [advance?] at none_
  rw [members, liveFields_of_nextField?]
  cases found : nextField? writer.presence writer.fields writer.values writer.index with
  | some next =>
    simp only [found] at none_
    cases none_
  | none =>
    simp only [found] at none_ ⊢
    cases declared : writer.extra with
    | none => rfl
    | some item =>
      cases left : writer.extras with
      | nil => rfl
      | cons entry extras =>
        simp only [declared, left] at none_
        cases none_

/-- What is picked is the first of the members that are there and still to come. -/
theorem members_of_advance? {writer later : MembersWriter} (picked : writer.advance? = some later) :
    ∃ name shape value, writer.members = (name, shape, value) :: later.members ∧
      later.name = .ofText name ∧ later.pending = some (shape, value) ∧
      later.wroteMember = writer.wroteMember := by
  rw [advance?] at picked
  rw [members, liveFields_of_nextField?]
  cases found : nextField? writer.presence writer.fields writer.values writer.index with
  | some next =>
    obtain ⟨field, value, fields, values, index⟩ := next
    simp only [found] at picked ⊢
    cases picked
    exact ⟨field.name, field.shape, value, rfl, rfl, rfl, rfl⟩
  | none =>
    simp only [found] at picked ⊢
    cases declared : writer.extra with
    | none =>
      simp only [declared] at picked
      cases picked
    | some item =>
      cases left : writer.extras with
      | nil =>
        simp only [declared, left] at picked
        cases picked
      | cons entry extras =>
        simp only [declared, left] at picked
        cases picked
        exact ⟨entry.1, item, entry.2, rfl, rfl, rfl, rfl⟩

end MembersWriter

/-! ## Turns -/

namespace Emitter

variable {schema : Schema}

/-- What a turn of an emitter leaves of its steps: none, once it is complete. -/
def stepsLeft : Emitted → List EmitStep × Output × Except GenerateError (Step Emitter)
  | (_, out, .ok .complete) => ([], out, .ok .complete)
  | (emitter, out, .ok .pause) => (emitter.steps, out, .ok .pause)
  | (emitter, out, .ok (.call child)) => (emitter.steps, out, .ok (.call child))
  | (emitter, out, .error error) => (emitter.steps, out, .error error)

theorem stepsLeft_call (emitter : Emitter) (out : Output)
    (started : Except GenerateError Emitter) :
    stepsLeft (emitter, out, started.map .call) = (emitter.steps, out, started.map .call) := by
  cases started <;> rfl

theorem advance_resumeToken (bytes : List UInt8) (out : Output) :
    advance schema [.token bytes] out = stepsLeft (resumeToken bytes out) := by
  rw [resumeToken]
  by_cases full : out.isFull
  · rw [if_pos full, advance_full full]
    rfl
  · rw [if_neg full, advance_token full]
    rfl

theorem advance_resumeString (writer : StringWriter) (out : Output) :
    advance schema (writer.tokens.map .token) out = stepsLeft (resumeString writer out) := by
  have emitted : advance schema (writer.tokens.map .token ++ []) out = _ :=
    writer.advance_emit out []
  rw [List.append_nil] at emitted
  rw [emitted, resumeString]
  rcases writer.emit out with ⟨writer', out', _ | _⟩
  · exact congrArg (·, out', _) (List.append_nil _)
  · rfl

theorem advance_arrayClosing (item : Shape) (begun : Bool) (items : List Value) (out : Output) :
    advance schema [.token [rightBracket]] out =
      stepsLeft (arrayClosing item begun items out) := by
  rw [arrayClosing]
  by_cases full : out.isFull
  · rw [if_pos full, advance_full full]
    rfl
  · rw [if_neg full, advance_token full]
    rfl

theorem steps_next (item : Shape) (items : List Value) :
    (Emitter.array item .next true items).steps =
      items.map (.call [comma] item) ++ [.token [rightBracket]] := by
  cases items <;> rfl

theorem advance_arrayNext (item : Shape) (begun : Bool) (items : List Value) (out : Output) :
    advance schema (itemSteps begun item items ++ [.token [rightBracket]]) out =
      stepsLeft (arrayNext schema item begun items out) := by
  rw [arrayNext.eq_def]
  cases items with
  | nil =>
    by_cases full : out.isFull
    · rw [if_pos full]
      exact advance_full full _ _
    · rw [if_neg full]
      exact advance_arrayClosing item begun [] out
  | cons value rest =>
    by_cases full : out.isFull
    · rw [if_pos full]
      exact advance_full full _ _
    · have lead : out.token (if begun then [comma] else []) =
          if begun then out.token [comma] else out := by
        cases begun
        · simp [Output.token]
        · rfl
      rw [if_neg full, stepsLeft_call, steps_next, ← lead]
      exact advance_call full _ item value _

theorem advance_resumeArray (item : Shape) (phase : ItemsPhase) (begun : Bool)
    (items : List Value) (out : Output) :
    advance schema (Emitter.array item phase begun items).steps out =
      stepsLeft (resumeArray schema item phase begun items out) := by
  cases phase with
  | opening =>
    rw [resumeArray]
    by_cases full : out.isFull
    · rw [if_pos full]
      exact advance_full full _ _
    · rw [if_neg full, ← advance_arrayNext]
      exact advance_token full _ _
  | next => exact advance_arrayNext item begun items out
  | closing => exact advance_arrayClosing item begun items out

end Emitter

namespace MembersWriter

open Emitter

variable {schema : Schema}

theorem advance_resumeClosing (writer : MembersWriter) (out : Output) :
    advance schema [.token [rightBrace]] out = stepsLeft (writer.resumeClosing out) := by
  rw [resumeClosing]
  by_cases full : out.isFull
  · rw [if_pos full, advance_full full]
    rfl
  · rw [if_neg full, advance_token full]
    rfl

theorem nextSteps_true (members : List (String × Shape × Value)) :
    nextSteps true members = laterMemberSteps members := by
  cases members <;> rfl

theorem advance_resumeColon (writer : MembersWriter) (out : Output) :
    advance schema writer.behindName out = stepsLeft (writer.resumeColon schema out) := by
  rw [resumeColon]
  by_cases full : out.isFull
  · rw [if_pos full]
    exact advance_full full _ _
  · rw [if_neg full, behindName, pendingStep]
    obtain ⟨phase, presence, fields, values, index, extra, extras, wrote, name, pending⟩ := writer
    cases pending with
    | some part =>
      simp only [stepsLeft_call, List.cons_append]
      rw [advance_call full, Emitter.steps, steps, nextSteps_true]
      rfl
    | none =>
      simp only [List.cons_append]
      rw [advance_fail full, stepsLeft, Emitter.steps, steps, nextSteps_true]
      rfl

theorem advance_resumeName (writer : MembersWriter) (out : Output) :
    advance schema (writer.name.tokens.map .token ++ writer.behindName) out =
      stepsLeft (writer.resumeName schema out) := by
  rw [StringWriter.advance_emit, resumeName]
  rcases writer.name.emit out with ⟨name, out', _ | _⟩
  · rfl
  · exact advance_resumeColon { writer with name } out'

theorem advance_resumeNext (writer : MembersWriter) (out : Output) :
    advance schema (nextSteps writer.wroteMember writer.members ++ [.token [rightBrace]]) out =
      stepsLeft (writer.resumeNext schema out) := by
  rw [resumeNext]
  by_cases full : out.isFull
  · rw [if_pos full]
    exact advance_full_append full _ _
  · rw [if_neg full]
    cases picked : writer.advance? with
    | none =>
      rw [members_of_advance?_none picked]
      exact advance_resumeClosing writer out
    | some later =>
      obtain ⟨name, shape, value, members, named, pending, wrote⟩ := members_of_advance? picked
      rw [members]
      simp only [← advance_resumeName]
      have spelled : nextSteps writer.wroteMember ((name, shape, value) :: later.members) ++
          [.token [rightBrace]] = (if writer.wroteMember then [EmitStep.token [comma]] else []) ++
            (later.name.tokens.map .token ++ later.behindName) := by
        simp only [nextSteps, memberSteps, named, behindName, pendingStep, pending,
          List.append_assoc, List.cons_append, List.nil_append]
        rfl
      rw [spelled, wrote]
      cases writer.wroteMember with
      | true => exact advance_token full _ _
      | false => rfl

end MembersWriter

namespace Emitter

/-- A turn of an emitter comes to taking its steps. -/
theorem advance_steps {schema : Schema} (emitter : Emitter) (out : Output) :
    advance schema emitter.steps out = stepsLeft (emitter.resume schema out) := by
  cases emitter with
  | token bytes => exact advance_resumeToken bytes out
  | string writer => exact advance_resumeString writer out
  | array item phase begun items => exact advance_resumeArray item phase begun items out
  | object writer =>
    obtain ⟨phase, presence, fields, values, index, extra, extras, wrote, name, pending⟩ := writer
    cases phase with
    | opening =>
      rw [Emitter.resume, MembersWriter.resume]
      by_cases full : out.isFull
      · rw [if_pos full]
        exact advance_full full _ _
      · rw [if_neg full, ← MembersWriter.advance_resumeNext]
        exact advance_token full _ _
    | next => exact MembersWriter.advance_resumeNext _ out
    | name => exact MembersWriter.advance_resumeName _ out
    | colon => exact MembersWriter.advance_resumeColon _ out
    | closing => exact MembersWriter.advance_resumeClosing _ out

theorem advance_of_resume {schema : Schema} {emitter emitter' : Emitter} {out out' : Output}
    {result : Except GenerateError (Step Emitter)}
    (resumed : emitter.resume schema out = (emitter', out', result)) :
    ∃ steps, advance schema emitter.steps out = (steps, out', result) ∧
      (result ≠ .ok .complete → emitter'.steps = steps) := by
  rw [advance_steps, resumed]
  cases result with
  | error error => exact ⟨_, rfl, fun _ => rfl⟩
  | ok step =>
    cases step with
    | complete => exact ⟨_, rfl, fun notComplete => absurd rfl notComplete⟩
    | pause | call => exact ⟨_, rfl, fun _ => rfl⟩

/-- As long as there is a spill, an emitter does nothing. -/
theorem resume_of_spill (schema : Schema) (emitter : Emitter) {out : Output}
    (spilled : out.spill ≠ #[]) : emitter.resume schema out = (emitter, out, .ok .pause) := by
  have full : out.isFull = true := by simp [Output.isFull, spilled]
  have string (writer : StringWriter) : writer.emit out = (writer, out, false) := by
    obtain ⟨phase, rest⟩ := writer
    cases phase with
    | opening => exact if_pos full
    | body =>
      have body := StringWriter.emitBody.eq_def rest out
      rw [dif_pos full] at body
      exact body
    | closing => exact if_pos full
  cases emitter with
  | token bytes => exact if_pos full
  | string writer => rw [resume, resumeString, string]
  | array item phase begun items =>
    cases phase with
    | opening | closing => exact if_pos full
    | next =>
      rw [resume, resumeArray, arrayNext.eq_def]
      exact if_pos full
  | object writer =>
    obtain ⟨phase, presence, fields, values, index, extra, extras, wrote, name, pending⟩ := writer
    cases phase with
    | opening | next | colon | closing => exact if_pos full
    | name => rw [resume, MembersWriter.resume, MembersWriter.resumeName, string]

end Emitter

end IncrementalJson
