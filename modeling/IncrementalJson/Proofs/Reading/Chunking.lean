import IncrementalJson.Proofs.Reading.RunCutting

/-!
# Chunks do not matter

Feeding a document in one chunk or in many comes to the same: the same value or
the same error, and up to the end of the document the same state of the parser.
-/

set_option autoImplicit false

namespace IncrementalJson

theorem Runs.done_frames {driver : Driver Reading Frame ParseError} {reading : Reading}
    {stack : Stack Frame} {run : Run Reading Frame ParseError} (runs : Runs driver reading stack run)
    (done : run.outcome = .done) : run.stack.frames = [] ∧ run.stack.fresh = 0 := by
  induction runs with
  | empty => exact ⟨rfl, rfl⟩
  | fail | pause | refuse | reject => cases done
  | call _ _ _ ih | complete _ _ _ ih => exact ih done

theorem Alike.failed {run run' : Run Reading Frame ParseError} {error : ParseError}
    (alike : Alike run run') (failed : run.outcome = .failed error) :
    run'.outcome = .failed error := by
  unfold Alike at alike
  rw [failed] at alike
  exact alike.1

theorem Stack.tidy_of_frames {stack : Stack Frame} (empty : stack.frames = []) : stack.Tidy := by
  obtain ⟨frames, fresh, limit, scratch⟩ := stack
  subst empty
  trivial

namespace Parser

def Live (parser : Parser) : Prop := parser.error? = none

/-- Two parsers that nothing but the bytes they were fed tells apart. -/
def SameState (parser parser' : Parser) : Prop :=
  match parser.status with
  | .failed error => parser'.status = .failed error ∧ parser.depth = parser'.depth
  | _ => parser = parser'

theorem SameState.refl (parser : Parser) : SameState parser parser := by
  unfold SameState
  split
  · rename_i failed
    exact ⟨failed, rfl⟩
  · rfl

theorem SameState.status {parser parser' : Parser} (same : SameState parser parser') :
    parser.status = parser'.status := by
  unfold SameState at same
  split at same
  · rename_i failed
    rw [failed, same.1]
  · rw [same]

theorem SameState.depth {parser parser' : Parser} (same : SameState parser parser') :
    parser.depth = parser'.depth := by
  unfold SameState at same
  split at same
  · exact same.2
  · rw [same]

theorem SameState.finish {parser parser' : Parser} (same : SameState parser parser') :
    parser.finish = parser'.finish := by
  unfold SameState at same
  split at same
  · rename_i failed
    rw [Parser.finish, Parser.finish, failed, same.1]
  · rw [same]

theorem SameState.error? {parser parser' : Parser} (same : SameState parser parser') :
    parser.error? = parser'.error? := by
  rw [Parser.error?, Parser.error?, same.status]

theorem SameState.trans {parser parser' parser'' : Parser} (same : SameState parser parser')
    (same' : SameState parser' parser'') : SameState parser parser'' := by
  unfold SameState at same
  split at same
  · rename_i failed
    unfold SameState at same' ⊢
    rw [same.1] at same'
    rw [failed]
    exact ⟨same'.1, same.2.trans same'.2⟩
  · rw [same]
    exact same'

theorem not_live_of_failed {parser : Parser} {error : ParseError}
    (failed : parser.status = .failed error) : ¬ parser.Live := by
  simp [Live, error?, failed]

theorem failed_of_not_live {parser : Parser} (given : ¬ parser.Live) :
    ∃ error, parser.status = .failed error := by
  unfold Live error? at given
  split at given
  · exact ⟨_, by assumption⟩
  · exact absurd rfl given

theorem feed_of_failed {parser : Parser} {error : ParseError}
    (failed : parser.status = .failed error) (chunk : List UInt8) :
    parser.feed chunk = parser := by
  obtain ⟨schema, shape, stack, value, offset, status⟩ := parser
  cases failed
  rfl

theorem feedAll_of_failed {parser : Parser} {error : ParseError}
    (failed : parser.status = .failed error) (chunks : List (List UInt8)) :
    parser.feedAll chunks = parser := by
  induction chunks with
  | nil => rfl
  | cons chunk rest ih =>
    rw [feedAll, List.foldl_cons, feed_of_failed failed]
    exact ih

theorem feed_of_runs (parser : Parser) (live : parser.Live) {chunk : List UInt8}
    {run : Run Reading Frame ParseError}
    (runs : Runs (readDriver parser.schema parser.shape)
      ⟨⟨chunk, parser.offset, false⟩, parser.value⟩ parser.stack run) :
    parser.feed chunk =
      settle parser.schema parser.shape (parser.offset + chunk.length) run := by
  obtain ⟨schema, shape, stack, value, offset, status⟩ := parser
  have ends := Stack.run_eq_of_runs runs _
    (stack.run_readDriver_not_stalled schema shape ⟨chunk, offset, false⟩ value)
  cases status with
  | failed error => exact absurd live (not_live_of_failed rfl)
  | created | paused | finished =>
    rw [← ends]
    rfl

theorem exists_runs (schema : Schema) (shape : Shape) (stack : Stack Frame) (input : Input)
    (value : Value) : ∃ run, Runs (readDriver schema shape) ⟨input, value⟩ stack run ∧
      run.outcome ≠ .stalled :=
  have enough := stack.run_readDriver_not_stalled schema shape input value
  ⟨_, Stack.runs_run _ _ _ _ enough, enough⟩

theorem settle_alike (schema : Schema) (shape : Shape) (offset : Nat)
    {run run' : Run Reading Frame ParseError} (alike : Alike run run') :
    settle schema shape offset run = settle schema shape offset run' := by
  unfold Alike at alike
  split at alike
  · rename_i failed
    obtain ⟨⟨input, value⟩, ⟨frames, fresh, limit, scratch⟩, outcome⟩ := run
    obtain ⟨⟨input', value'⟩, ⟨frames', fresh', limit', scratch'⟩, outcome'⟩ := run'
    obtain ⟨failed', rfl, rfl⟩ := alike
    cases failed
    cases failed'
    rfl
  · rw [alike]

theorem settle_offset (schema : Schema) (shape : Shape) (offset : Nat)
    (run : Run Reading Frame ParseError) : (settle schema shape offset run).offset = offset := by
  obtain ⟨⟨input, value⟩, stack, outcome⟩ := run
  cases outcome with
  | done =>
    simp only [settle]
    split <;> rfl
  | paused | failed | stalled => rfl

theorem settle_failed (schema : Schema) (shape : Shape) (offset : Nat)
    {run : Run Reading Frame ParseError} {error : ParseError} (failed : run.outcome = .failed error) :
    (settle schema shape offset run).status = .failed error ∧
      (settle schema shape offset run).stack.frames = [] := by
  obtain ⟨⟨input, value⟩, stack, outcome⟩ := run
  cases failed
  exact ⟨rfl, rfl⟩

theorem settle_paused (schema : Schema) (shape : Shape) (offset : Nat)
    {run : Run Reading Frame ParseError} (paused : run.outcome = .paused) :
    settle schema shape offset run =
      ⟨schema, shape, run.stack, run.context.value, offset, .paused⟩ := by
  obtain ⟨⟨input, value⟩, stack, outcome⟩ := run
  cases paused
  rfl

theorem settle_done (schema : Schema) (shape : Shape) (offset : Nat)
    {run : Run Reading Frame ParseError} (done : run.outcome = .done) :
    settle schema shape offset run =
      match run.context.input.skipSpaces with
      | ⟨byte :: _, position, _⟩ =>
        ⟨schema, shape, run.stack.cleared, run.context.value, offset,
          .failed (.unexpectedByte byte position)⟩
      | ⟨[], _, _⟩ => ⟨schema, shape, run.stack, run.context.value, offset, .finished⟩ := by
  obtain ⟨⟨input, value⟩, stack, outcome⟩ := run
  cases done
  rfl

/-- The bytes behind a value are looked at in two parts as in one. -/
theorem sameState_settle_done (schema : Schema) (shape : Shape) {input : Input} {value : Value}
    {limit : Option Nat} {scratch : Scratch} (more : List UInt8) :
    SameState
      ((settle schema shape input.limit ⟨⟨input, value⟩, ⟨[], 0, limit, scratch⟩, .done⟩).feed
        more)
      (settle schema shape (input.limit + more.length)
        ⟨⟨input.extend more false, value⟩, ⟨[], 0, limit, scratch⟩, .done⟩) := by
  rw [settle_done schema shape _ rfl, settle_done schema shape _ rfl]
  have extended : (input.extend more false).skipSpaces = _ :=
    Input.behindSpaces_append input.closed false input.offset input.bytes more
  have skipped : Input.behindSpaces input.closed input.offset input.bytes = input.skipSpaces :=
    rfl
  have limitEq := input.limit_skipSpaces
  simp only [extended, skipped]
  rcases skipped' : input.skipSpaces with ⟨bytes, offset, closed⟩
  rw [skipped'] at limitEq
  cases bytes with
  | nil =>
    have offsetEq : offset = input.limit := limitEq
    subst offsetEq
    rw [feed_of_runs ⟨schema, shape, _, _, _, .finished⟩ rfl .empty,
      settle_done schema shape _ rfl]
    exact SameState.refl _
  | cons byte rest => exact ⟨rfl, rfl⟩

theorem feed_append {parser : Parser} (live : parser.Live) (neat : parser.stack.Tidy)
    (front back : List UInt8) :
    SameState ((parser.feed front).feed back) (parser.feed (front ++ back)) := by
  obtain ⟨run, runs, ends⟩ := exists_runs parser.schema parser.shape parser.stack
    ⟨front, parser.offset, false⟩ parser.value
  have cuts := runs.cut rfl neat back false
  have total : parser.offset + (front ++ back).length =
      parser.offset + front.length + back.length := by
    rw [List.length_append, Nat.add_assoc]
  rw [feed_of_runs parser live runs]
  unfold CutsRun at cuts
  split at cuts
  · rename_i error failed
    obtain ⟨run', runs', alike⟩ := cuts
    obtain ⟨status, frames⟩ :=
      settle_failed parser.schema parser.shape (parser.offset + front.length) failed
    obtain ⟨status', frames'⟩ :=
      settle_failed parser.schema parser.shape (parser.offset + (front ++ back).length)
        (alike.failed failed)
    rw [feed_of_failed status, feed_of_runs parser live runs']
    unfold SameState
    simp only [status, status', depth, Stack.depth, frames, frames', and_self]
  · rename_i done
    obtain ⟨-, limit, runs'⟩ := cuts
    obtain ⟨frames, fresh⟩ := runs.done_frames done
    obtain ⟨⟨input, value⟩, ⟨frames, fresh, limit, scratch⟩, outcome⟩ := run
    subst frames fresh done
    have limit' : input.limit = parser.offset + front.length := limit
    rw [feed_of_runs parser live runs', total, ← limit']
    exact sameState_settle_done _ _ back
  · rename_i paused
    obtain ⟨used, neat, goesOn⟩ := cuts
    obtain ⟨run', runs', -⟩ := exists_runs parser.schema parser.shape run.stack
      ⟨back, parser.offset + front.length, false⟩ run.context.value
    obtain ⟨run'', runs'', alike⟩ := goesOn run' runs'
    rw [settle_paused _ _ _ paused, feed_of_runs ⟨_, _, _, _, _, .paused⟩ rfl runs',
      feed_of_runs parser live runs'', total, settle_alike _ _ _ alike]
    exact SameState.refl _
  · contradiction

theorem tidy_feed {parser : Parser} (live : parser.Live) (neat : parser.stack.Tidy)
    (chunk : List UInt8) : (parser.feed chunk).stack.Tidy := by
  obtain ⟨run, runs, ends⟩ := exists_runs parser.schema parser.shape parser.stack
    ⟨chunk, parser.offset, false⟩ parser.value
  have cuts := runs.cut rfl neat [] false
  rw [feed_of_runs parser live runs]
  unfold CutsRun at cuts
  split at cuts
  · rename_i error failed
    obtain ⟨-, frames⟩ :=
      settle_failed parser.schema parser.shape (parser.offset + chunk.length) failed
    exact Stack.tidy_of_frames frames
  · rename_i done
    obtain ⟨frames, -⟩ := runs.done_frames done
    apply Stack.tidy_of_frames
    rw [settle_done _ _ _ done]
    split
    · rfl
    · exact frames
  · rename_i paused
    rw [settle_paused _ _ _ paused]
    exact cuts.2.1
  · contradiction

/-- Chunks come to the same as the document that they make up. -/
theorem feedAll_flatten {parser : Parser} (live : parser.Live) (neat : parser.stack.Tidy)
    {chunks : List (List UInt8)} (some : chunks ≠ []) :
    SameState (parser.feedAll chunks) (parser.feed chunks.flatten) := by
  induction chunks generalizing parser with
  | nil => exact absurd rfl some
  | cons chunk rest ih =>
    have appended := feed_append live neat chunk rest.flatten
    cases rest with
    | nil =>
      rw [List.flatten_cons, List.flatten_nil, List.append_nil]
      exact SameState.refl _
    | cons chunk' rest =>
      by_cases goesOn : (parser.feed chunk).Live
      · exact (ih goesOn (tidy_feed live neat chunk) (List.cons_ne_nil _ _)).trans appended
      · obtain ⟨error, failed⟩ := failed_of_not_live goesOn
        rw [feed_of_failed failed] at appended
        have stays : parser.feedAll (chunk :: chunk' :: rest) = parser.feed chunk :=
          feedAll_of_failed failed (chunk' :: rest)
        rw [stays]
        exact appended

theorem feedAll_of_flatten {parser : Parser} (live : parser.Live) (neat : parser.stack.Tidy)
    {chunks : List (List UInt8)} {bytes : List UInt8} (some : bytes ≠ [])
    (whole : chunks.flatten = bytes) : SameState (parser.feedAll chunks) (parser.feed bytes) := by
  subst whole
  apply feedAll_flatten live neat
  rintro rfl
  exact some rfl

theorem resume_start (schema : Schema) (shape : Shape) (offset : Nat) (closed : Bool)
    (scratch : Scratch) :
    (Frame.start schema shape).resume schema ⟨[], offset, closed⟩ scratch =
      if closed then .error .endOfData
      else .ok ⟨.start schema shape, ⟨[], offset, false⟩, scratch, .pause⟩ := by
  induction shape with
  | box item ih =>
    rw [Frame.start, Frame.resume, ih]
    cases closed <;> rfl
  | option item => cases closed <;> rfl
  | null | bool | string | number | variant | list | extras | record => cases closed <;> rfl

theorem create_of_room (schema : Schema) (shape : Shape) {limit : Option Nat}
    (room : limit ≠ some 0) :
    create schema shape limit = ⟨schema, shape, ⟨[.start schema shape], 1, limit, #[]⟩,
      schema.initial shape, 0, .created⟩ := by
  unfold create
  cases limit with
  | none => rfl
  | some limit =>
    cases limit with
    | zero => exact absurd rfl room
    | succ limit => rfl

theorem create_cases (schema : Schema) (shape : Shape) (limit : Option Nat) :
    (∃ error, (create schema shape limit).status = .failed error) ∨
      create schema shape limit = ⟨schema, shape, ⟨[.start schema shape], 1, limit, #[]⟩,
        schema.initial shape, 0, .created⟩ := by
  by_cases noRoom : limit = some 0
  · subst noRoom
    exact .inl ⟨_, rfl⟩
  · exact .inr (create_of_room schema shape noRoom)

theorem tidy_create (schema : Schema) (shape : Shape) (limit : Option Nat)
    (live : (create schema shape limit).Live) : (create schema shape limit).stack.Tidy := by
  rcases create_cases schema shape limit with ⟨error, failed⟩ | created
  · exact absurd live (not_live_of_failed failed)
  · rw [created]
    exact (Frame.start schema shape).tidy_empty

theorem feed_nil_create (schema : Schema) (shape : Shape) {limit : Option Nat}
    (room : limit ≠ some 0) :
    (create schema shape limit).feed [] = ⟨schema, shape,
      ⟨[.start schema shape], 0, limit, #[]⟩, schema.initial shape, 0, .paused⟩ := by
  have waits : (readDriver schema shape).resume ⟨⟨[], 0, false⟩, schema.initial shape⟩
      (.start schema shape) #[] =
      ⟨⟨⟨[], 0, false⟩, schema.initial shape⟩, .start schema shape, #[], .ok .pause⟩ := by
    simp only [readDriver, resume_start]
    rfl
  rw [create_of_room schema shape room]
  exact feed_of_runs ⟨_, _, _, _, _, .created⟩ rfl (.pause waits)

theorem finish_feed_nil (schema : Schema) (shape : Shape) (limit : Option Nat) :
    ((create schema shape limit).feed []).finish = (create schema shape limit).finish := by
  by_cases noRoom : limit = some 0
  · subst noRoom
    rw [feed_of_failed rfl]
  · have ends : (readDriver schema shape).resume ⟨⟨[], 0, true⟩, schema.initial shape⟩
        (.start schema shape) #[] =
        ⟨⟨⟨[], 0, true⟩, schema.initial shape⟩, .start schema shape, #[], .error .endOfData⟩ := by
      simp only [readDriver, resume_start]
      rfl
    rw [feed_nil_create schema shape noRoom, create_of_room schema shape noRoom]
    simp only [finish, Stack.isEmpty, depth, Stack.depth, turnsFor, List.length_cons,
      List.length_nil, Stack.run, ends]

theorem offset_feed {parser : Parser} (live : parser.Live) (chunk : List UInt8) :
    (parser.feed chunk).offset = parser.offset + chunk.length := by
  obtain ⟨run, runs, -⟩ := exists_runs parser.schema parser.shape parser.stack
    ⟨chunk, parser.offset, false⟩ parser.value
  rw [feed_of_runs parser live runs]
  exact settle_offset ..

theorem feedAll_offset {parser : Parser} {chunks : List (List UInt8)}
    (live : (parser.feedAll chunks).Live) :
    (parser.feedAll chunks).offset = parser.offset + chunks.flatten.length := by
  induction chunks generalizing parser with
  | nil => rfl
  | cons chunk rest ih =>
    by_cases goesOn : parser.Live
    · have all : (parser.feedAll (chunk :: rest)).offset =
          (parser.feed chunk).offset + rest.flatten.length :=
        ih live
      rw [all, offset_feed goesOn, List.flatten_cons, List.length_append, Nat.add_assoc]
    · obtain ⟨error, failed⟩ := failed_of_not_live goesOn
      rw [feedAll_of_failed failed] at live
      exact absurd live goesOn

/-- A fresh parser is left in the same state by the chunks of a document as by the document. -/
theorem sameState_feedAll_create (schema : Schema) (shape : Shape) (limit : Option Nat)
    {chunks : List (List UInt8)} (some : chunks ≠ []) :
    SameState ((create schema shape limit).feedAll chunks)
      ((create schema shape limit).feed chunks.flatten) := by
  by_cases live : (create schema shape limit).Live
  · exact feedAll_flatten live (tidy_create schema shape limit live) some
  · obtain ⟨error, failed⟩ := failed_of_not_live live
    rw [feedAll_of_failed failed, feed_of_failed failed]
    exact SameState.refl _

theorem finish_feedAll (schema : Schema) (shape : Shape) (limit : Option Nat)
    (chunks : List (List UInt8)) :
    ((create schema shape limit).feedAll chunks).finish =
      parse schema shape chunks.flatten limit := by
  cases chunks with
  | nil => exact (finish_feed_nil schema shape limit).symm
  | cons chunk rest =>
    exact (sameState_feedAll_create schema shape limit (List.cons_ne_nil chunk rest)).finish

/-- How a document is cut into chunks changes neither its value nor its error, and as long as
something has been fed it does not change the state of the parser either. -/
theorem feedAll_eq_of_flatten_eq (schema : Schema) (shape : Shape) (limit : Option Nat)
    (document : List UInt8) (chunks chunks' : List (List UInt8))
    (whole : chunks.flatten = document) (whole' : chunks'.flatten = document) :
    let parser := (create schema shape limit).feedAll chunks
    let parser' := (create schema shape limit).feedAll chunks'
    parser.finish = parser'.finish ∧
      (chunks ≠ [] → chunks' ≠ [] →
        parser.status = parser'.status ∧ parser.depth = parser'.depth) ∧
      (parser.error? = none → parser.offset = document.length) := by
  refine ⟨?_, fun some some' => ?_, fun live => ?_⟩
  · rw [finish_feedAll, finish_feedAll, whole, whole']
  · have same := sameState_feedAll_create schema shape limit some
    have same' := sameState_feedAll_create schema shape limit some'
    rw [whole] at same
    rw [whole'] at same'
    exact ⟨same.status.trans same'.status.symm, same.depth.trans same'.depth.symm⟩
  · have offset := feedAll_offset live
    rw [whole] at offset
    rw [offset]
    rcases create_cases schema shape limit with ⟨error, failed⟩ | created
    · rw [feedAll_of_failed failed] at live
      exact absurd live (not_live_of_failed failed)
    · rw [created]
      exact Nat.zero_add _

/-- The text `["\n"]`, at once and cut inside the escape, with an empty chunk there. -/
theorem feedAll_cut_in_escape :
    let parser := (create .empty .variant).feedAll
      [[0x5B, 0x22, 0x5C, 0x6E, 0x22, 0x5D]]
    let parser' := (create .empty .variant).feedAll [[0x5B, 0x22, 0x5C], [], [0x6E, 0x22, 0x5D]]
    parser.finish = .ok (.held (.list [.held (.string "\n")])) ∧
      parser.finish = parser'.finish ∧
      parser.status = parser'.status ∧ parser.depth = parser'.depth ∧ parser.offset = 6 := by
  have same := feedAll_eq_of_flatten_eq .empty .variant none [0x5B, 0x22, 0x5C, 0x6E, 0x22, 0x5D]
    [[0x5B, 0x22, 0x5C, 0x6E, 0x22, 0x5D]] [[0x5B, 0x22, 0x5C], [], [0x6E, 0x22, 0x5D]] rfl rfl
  obtain ⟨finish, state, offset⟩ := same
  obtain ⟨status, depth⟩ := state (by decide) (by decide)
  exact ⟨rfl, finish, status, depth, offset rfl⟩

end Parser

end IncrementalJson
