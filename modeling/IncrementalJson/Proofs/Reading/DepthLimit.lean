import IncrementalJson.Proofs.Reading.Unambiguous

/-!
# Reading under a limit

A parser under a limit goes the way of the parser without one, call by call and
turn by turn, until that one would come to more frames than the limit; there it
fails for good.  A document that is read without a limit is read under one if
its tree is no higher than the limit.
-/

set_option autoImplicit false

namespace IncrementalJson

variable {schema : Schema} {shape : Shape}

theorem Reads.unique {height height' : Nat} {frame frame₁ frame₂ : Frame}
    {input input₁ input₂ : Input} {scratch scratch₁ scratch₂ : Scratch}
    (reads : Reads schema height frame input scratch frame₁ input₁ scratch₁)
    (reads' : Reads schema height' frame input scratch frame₂ input₂ scratch₂) :
    height = height' ∧ frame₁ = frame₂ ∧ input₁ = input₂ ∧ scratch₁ = scratch₂ := by
  induction reads generalizing height' frame₂ input₂ scratch₂ with
  | complete resumed =>
    cases reads' with
    | complete resumed' =>
      cases resumed.symm.trans resumed'
      exact ⟨rfl, rfl, rfl, rfl⟩
    | call resumed' => cases resumed.symm.trans resumed'
  | call resumed inner accepted goesOn ihInner ihRest =>
    cases reads' with
    | complete resumed' => cases resumed.symm.trans resumed'
    | call resumed' inner' accepted' goesOn' =>
      cases resumed.symm.trans resumed'
      obtain ⟨rfl, rfl, rfl, rfl⟩ := ihInner inner'
      cases accepted.symm.trans accepted'
      obtain ⟨rfl, rfl, rfl, rfl⟩ := ihRest goesOn'
      exact ⟨rfl, rfl, rfl, rfl⟩

namespace Parser

def under (parser : Parser) (limit : Option Nat) : Parser :=
  { parser with stack := parser.stack.under limit }

def runOver (parser : Parser) (input : Input) (turns : Nat) : Run Reading Frame ParseError :=
  parser.stack.run (readDriver parser.schema parser.shape) turns ⟨input, parser.value⟩

def chunkInput (parser : Parser) (chunk : List UInt8) : Input := ⟨chunk, parser.offset, false⟩

def endInput (parser : Parser) : Input := ⟨[], parser.offset, true⟩

def RunsWithin (most : Nat) (parser : Parser) (input : Input) : Prop :=
  ∀ turns, (parser.runOver input turns).stack.depth ≤ most

/-- While it is fed chunks, a parser never has more than so many frames. -/
def FeedsWithin (most : Nat) (parser : Parser) : List (List UInt8) → Prop
  | [] => parser.depth ≤ most
  | chunk :: rest =>
    parser.RunsWithin most (parser.chunkInput chunk) ∧ (parser.feed chunk).FeedsWithin most rest

variable {parser : Parser} {most : Nat}

/-! ## One run -/

theorem runOver_under_of_fits (free : parser.stack.limit = none) {input : Input} (turns : Nat)
    (fits : ∀ earlier ≤ turns, (parser.runOver input earlier).stack.depth ≤ most) :
    (parser.under (some most)).runOver input turns =
      (parser.runOver input turns).under (some most) := by
  obtain ⟨schema, shape, ⟨frames, fresh, limit, scratch⟩, value, offset, status⟩ := parser
  cases free
  exact Stack.run_under_of_fits fits

theorem runOver_under_of_exceeds (free : parser.stack.limit = none) (small : parser.depth ≤ most)
    {input : Input} {turns : Nat} (exceeds : most < (parser.runOver input turns).stack.depth) :
    ((parser.under (some most)).runOver input turns).outcome =
      .failed (.maxDepthReached most) := by
  obtain ⟨schema, shape, ⟨frames, fresh, limit, scratch⟩, value, offset, status⟩ := parser
  cases free
  exact Stack.run_under_of_exceeds small (Nat.le_refl _) exceeds

theorem runOver_under_of_not_within (free : parser.stack.limit = none)
    (small : parser.depth ≤ most) {input : Input} (high : ¬ parser.RunsWithin most input)
    {fuel : Nat} (enough : ((parser.under (some most)).runOver input fuel).outcome ≠ .stalled) :
    ((parser.under (some most)).runOver input fuel).outcome =
      .failed (.maxDepthReached most) := by
  obtain ⟨turns, exceeds⟩ := not_forall.mp high
  have failed := runOver_under_of_exceeds free small (Nat.lt_of_not_le exceeds)
  have runs := Stack.runs_run (readDriver parser.schema parser.shape) turns ⟨input, parser.value⟩
    (parser.under (some most)).stack (by
      intro stalled
      cases failed.symm.trans stalled)
  have same : (parser.under (some most)).runOver input fuel =
      (parser.under (some most)).runOver input turns := Stack.run_eq_of_runs runs fuel enough
  rw [same, failed]

/-! ## One call -/

theorem settle_under (schema : Schema) (shape : Shape) (offset : Nat)
    (run : Run Reading Frame ParseError) (limit : Option Nat) :
    settle schema shape offset (run.under limit) =
      (settle schema shape offset run).under limit := by
  obtain ⟨⟨input, value⟩, stack, outcome⟩ := run
  cases outcome with
  | done =>
    simp only [settle, Run.under]
    split <;> rfl
  | paused | failed | stalled => rfl

theorem feed_eq_settle (live : parser.Live) (chunk : List UInt8) :
    parser.feed chunk = settle parser.schema parser.shape (parser.offset + chunk.length)
      (parser.runOver (parser.chunkInput chunk) (turnsFor chunk.length parser.depth)) := by
  obtain ⟨schema, shape, stack, value, offset, status⟩ := parser
  cases status with
  | failed error => exact absurd live (not_live_of_failed rfl)
  | created | paused | finished => rfl

theorem limit_feed (parser : Parser) (chunk : List UInt8) :
    (parser.feed chunk).stack.limit = parser.stack.limit := by
  by_cases live : parser.Live
  · rw [feed_eq_settle live]
    generalize isRun : parser.runOver (parser.chunkInput chunk) (turnsFor chunk.length parser.depth)
      = run
    have limit : run.stack.limit = parser.stack.limit := by
      rw [← isRun]
      exact Stack.limit_run (readDriver parser.schema parser.shape) _ _ parser.stack _
    have kept : run.under parser.stack.limit = run := by
      rw [← limit]
      rfl
    rw [← kept, settle_under]
    rfl
  · obtain ⟨error, failed⟩ := failed_of_not_live live
    rw [feed_of_failed failed]

def Cleared (parser : Parser) : Prop :=
  ∀ error, parser.status = .failed error → parser.stack.frames = []

theorem cleared_feed (cleared : parser.Cleared) (chunk : List UInt8) :
    (parser.feed chunk).Cleared := by
  by_cases live : parser.Live
  · rw [feed_eq_settle live]
    generalize parser.runOver (parser.chunkInput chunk) (turnsFor chunk.length parser.depth) = run
    obtain ⟨⟨input, value⟩, stack, outcome⟩ := run
    intro error
    cases outcome with
    | done =>
      simp only [settle]
      split
      · exact fun _ => rfl
      · intro failed
        cases failed
    | paused =>
      intro failed
      cases failed
    | failed | stalled => exact fun _ => rfl
  · obtain ⟨error, failed⟩ := failed_of_not_live live
    rw [feed_of_failed failed]
    exact cleared

theorem feed_under_of_within (free : parser.stack.limit = none) {chunk : List UInt8}
    (within : parser.RunsWithin most (parser.chunkInput chunk)) :
    (parser.under (some most)).feed chunk = (parser.feed chunk).under (some most) := by
  by_cases live : parser.Live
  · have live' : (parser.under (some most)).Live := live
    have same := runOver_under_of_fits free (turnsFor chunk.length parser.depth)
      fun earlier _ => within earlier
    rw [feed_eq_settle live, feed_eq_settle live', ← settle_under, ← same]
    rfl
  · obtain ⟨error, failed⟩ := failed_of_not_live live
    have failed' : (parser.under (some most)).status = .failed error := failed
    rw [feed_of_failed failed, feed_of_failed failed']

theorem depth_feed_le {chunk : List UInt8}
    (within : parser.RunsWithin most (parser.chunkInput chunk)) :
    (parser.feed chunk).depth ≤ most := by
  by_cases live : parser.Live
  · rw [feed_eq_settle live]
    have high := within (turnsFor chunk.length parser.depth)
    generalize parser.runOver (parser.chunkInput chunk) (turnsFor chunk.length parser.depth) = run
      at high ⊢
    obtain ⟨⟨input, value⟩, stack, outcome⟩ := run
    cases outcome with
    | done =>
      simp only [settle]
      split
      · exact Nat.zero_le most
      · exact high
    | paused => exact high
    | failed | stalled => exact Nat.zero_le most
  · obtain ⟨error, failed⟩ := failed_of_not_live live
    rw [feed_of_failed failed]
    exact within 0

theorem runsWithin_of_failed (cleared : parser.Cleared) {error : ParseError}
    (failed : parser.status = .failed error) (most : Nat) (input : Input) :
    parser.RunsWithin most input := by
  intro turns
  have frames := cleared error failed
  obtain ⟨schema, shape, ⟨frames, fresh, limit, scratch⟩, value, offset, status⟩ := parser
  cases frames
  cases turns <;> exact Nat.zero_le most

theorem enough_turns (parser : Parser) (input : Input) :
    (parser.runOver input (turnsFor input.bytes.length parser.depth)).outcome ≠ .stalled :=
  parser.stack.run_readDriver_not_stalled parser.schema parser.shape input parser.value

theorem feed_under_of_not_within (free : parser.stack.limit = none) (cleared : parser.Cleared)
    (small : parser.depth ≤ most) {chunk : List UInt8}
    (high : ¬ parser.RunsWithin most (parser.chunkInput chunk)) :
    ((parser.under (some most)).feed chunk).status = .failed (.maxDepthReached most) ∧
      ((parser.under (some most)).feed chunk).stack.frames = [] := by
  have live : (parser.under (some most)).Live := by
    refine Classical.byContradiction fun ended => ?_
    obtain ⟨error, failed⟩ := failed_of_not_live ended
    exact high (runsWithin_of_failed cleared failed most _)
  rw [feed_eq_settle live]
  exact settle_failed _ _ _ (runOver_under_of_not_within free small high
    ((parser.under (some most)).enough_turns (parser.chunkInput chunk)))

theorem finish_under_of_within (free : parser.stack.limit = none)
    (within : parser.RunsWithin most parser.endInput) :
    (parser.under (some most)).finish = parser.finish := by
  have same := runOver_under_of_fits free (turnsFor 0 parser.depth)
    fun earlier _ => within earlier
  obtain ⟨schema, shape, stack, value, offset, status⟩ := parser
  cases status with
  | failed error => rfl
  | created | paused | finished =>
    by_cases empty : stack.isEmpty
    · have empty' : (stack.under (some most)).isEmpty := empty
      simp only [finish, under, empty, empty', if_true]
    · have empty' : ¬ (stack.under (some most)).isEmpty := empty
      simp only [finish, under, empty, empty', Bool.false_eq_true, if_false]
      simp only [runOver, under, endInput] at same
      simp only [depth, Stack.depth_under] at same ⊢
      rw [same]
      rfl

theorem finish_under_of_not_within (free : parser.stack.limit = none) (cleared : parser.Cleared)
    (small : parser.depth ≤ most) (high : ¬ parser.RunsWithin most parser.endInput) :
    (parser.under (some most)).finish = .error (.maxDepthReached most) := by
  have failed := runOver_under_of_not_within free small high
    ((parser.under (some most)).enough_turns parser.endInput)
  have empties (frames : parser.stack.frames = []) : False := by
    refine high fun turns => ?_
    obtain ⟨schema, shape, ⟨frames, fresh, limit, scratch⟩, value, offset, status⟩ := parser
    cases frames
    cases turns <;> exact Nat.zero_le most
  obtain ⟨schema, shape, ⟨frames, fresh, limit, scratch⟩, value, offset, status⟩ := parser
  cases status with
  | failed error => exact (empties (cleared error rfl)).elim
  | created | paused | finished =>
    cases frames with
    | nil => exact (empties rfl).elim
    | cons top rest =>
      simp only [runOver, under, endInput, List.length_nil] at failed
      simp only [finish, under, Stack.under, Stack.isEmpty, List.isEmpty_cons, Bool.false_eq_true,
        if_false]
      simp only [depth, Stack.under] at failed ⊢
      rw [failed]

/-! ## All calls -/

theorem feedAll_under_of_within (free : parser.stack.limit = none)
    {chunks : List (List UInt8)} (within : parser.FeedsWithin most chunks) :
    (parser.under (some most)).feedAll chunks = (parser.feedAll chunks).under (some most) := by
  induction chunks generalizing parser with
  | nil => rfl
  | cons chunk rest ih =>
    obtain ⟨here, further⟩ := within
    have fed := feed_under_of_within free here
    have all := ih ((limit_feed parser chunk).trans free) further
    rw [feedAll, List.foldl_cons, fed]
    exact all

theorem feedAll_under_of_not_within (free : parser.stack.limit = none) (cleared : parser.Cleared)
    (small : parser.depth ≤ most) {chunks : List (List UInt8)}
    (high : ¬ parser.FeedsWithin most chunks) :
    ((parser.under (some most)).feedAll chunks).status = .failed (.maxDepthReached most) ∧
      ((parser.under (some most)).feedAll chunks).stack.frames = [] := by
  induction chunks generalizing parser with
  | nil => exact absurd small high
  | cons chunk rest ih =>
    by_cases here : parser.RunsWithin most (parser.chunkInput chunk)
    · have fed := feed_under_of_within free here
      rw [feedAll, List.foldl_cons, fed]
      exact ih ((limit_feed parser chunk).trans free) (cleared_feed cleared chunk)
        (depth_feed_le here) fun further => high ⟨here, further⟩
    · obtain ⟨failed, frames⟩ := feed_under_of_not_within free cleared small here
      have stays : (parser.under (some most)).feedAll (chunk :: rest) =
          (parser.under (some most)).feed chunk := feedAll_of_failed failed rest
      rw [stays]
      exact ⟨failed, frames⟩

theorem depth_le_of_feedsWithin {chunks : List (List UInt8)}
    (within : parser.FeedsWithin most chunks) : (parser.feedAll chunks).depth ≤ most := by
  induction chunks generalizing parser with
  | nil => exact within
  | cons chunk rest ih => exact ih within.2

theorem limit_create (schema : Schema) (shape : Shape) (limit : Option Nat) :
    (create schema shape limit).stack.limit = limit := by
  by_cases noRoom : limit = some 0
  · subst noRoom
    rfl
  · rw [create_of_room schema shape noRoom]

theorem limit_feedAll (parser : Parser) (chunks : List (List UInt8)) :
    (parser.feedAll chunks).stack.limit = parser.stack.limit := by
  induction chunks generalizing parser with
  | nil => rfl
  | cons chunk rest ih => exact (ih (parser.feed chunk)).trans (limit_feed parser chunk)

theorem cleared_feedAll (cleared : parser.Cleared) (chunks : List (List UInt8)) :
    (parser.feedAll chunks).Cleared := by
  induction chunks generalizing parser with
  | nil => exact cleared
  | cons chunk rest ih => exact ih (cleared_feed cleared chunk)

theorem runsWithin_of_limit (limited : parser.stack.limit = some most)
    (small : parser.depth ≤ most) (input : Input) : parser.RunsWithin most input := by
  obtain ⟨schema, shape, ⟨frames, fresh, limit, scratch⟩, value, offset, status⟩ := parser
  cases limited
  have kept := @Stack.depth_run_under_le _ _ _ (readDriver schema shape) ⟨input, value⟩
    ⟨frames, fresh, none, scratch⟩ most small
  exact kept

/-! ## A fresh parser -/

theorem cleared_create (schema : Schema) (shape : Shape) : (create schema shape).Cleared := by
  intro error failed
  cases failed

theorem pos_of_feedsWithin {chunks : List (List UInt8)}
    (within : (create schema shape).FeedsWithin most chunks) : 0 < most := by
  cases chunks with
  | nil => exact within
  | cons chunk rest => exact within.1 0

theorem create_under (schema : Schema) (shape : Shape) (room : 0 < most) :
    create schema shape (some most) = (create schema shape).under (some most) := by
  rw [create_of_room schema shape (by simpa using Nat.ne_of_gt room)]
  rfl

theorem created_under_of_within {chunks : List (List UInt8)}
    (within : (create schema shape).FeedsWithin most chunks) :
    (create schema shape (some most)).feedAll chunks =
      ((create schema shape).feedAll chunks).under (some most) := by
  rw [create_under schema shape (pos_of_feedsWithin within)]
  exact feedAll_under_of_within rfl within

theorem created_under_of_not_within {chunks : List (List UInt8)}
    (high : ¬ (create schema shape).FeedsWithin most chunks) :
    ((create schema shape (some most)).feedAll chunks).status = .failed (.maxDepthReached most) ∧
      ((create schema shape (some most)).feedAll chunks).depth = 0 := by
  rcases Nat.eq_zero_or_pos most with rfl | room
  · have failed : (create schema shape (some 0)).status = .failed (.maxDepthReached 0) := rfl
    rw [feedAll_of_failed failed]
    exact ⟨rfl, rfl⟩
  · obtain ⟨failed, frames⟩ :=
      feedAll_under_of_not_within rfl (cleared_create schema shape) room high
    rw [create_under schema shape room, depth, Stack.depth, frames]
    exact ⟨failed, rfl⟩

theorem created_depth_le (schema : Schema) (shape : Shape) (most : Nat)
    (chunks : List (List UInt8)) :
    ((create schema shape (some most)).feedAll chunks).depth ≤ most := by
  by_cases within : (create schema shape).FeedsWithin most chunks
  · rw [created_under_of_within within]
    exact depth_le_of_feedsWithin within
  · rw [(created_under_of_not_within within).2]
    exact Nat.zero_le most

/-- Under a limit a document ends as it does without one, or with the error of the limit. -/
theorem created_finish_cases (schema : Schema) (shape : Shape) (most : Nat)
    (chunks : List (List UInt8)) :
    ((create schema shape (some most)).feedAll chunks).finish =
        ((create schema shape).feedAll chunks).finish ∨
      ((create schema shape (some most)).feedAll chunks).finish =
        .error (.maxDepthReached most) := by
  by_cases within : (create schema shape).FeedsWithin most chunks
  · have free := limit_feedAll (create schema shape) chunks
    rw [created_under_of_within within]
    by_cases ends : ((create schema shape).feedAll chunks).RunsWithin most
      ((create schema shape).feedAll chunks).endInput
    · exact .inl (finish_under_of_within free ends)
    · exact .inr (finish_under_of_not_within free (cleared_feedAll (cleared_create schema shape) chunks)
        (depth_le_of_feedsWithin within) ends)
  · right
    rw [finish, (created_under_of_not_within within).1]

theorem parse_of_finish {limit : Option Nat} {chunks : List (List UInt8)} {value : Value}
    (read : ((create schema shape limit).feedAll chunks).finish = .ok value) :
    parse schema shape chunks.flatten = .ok value := by
  have free := finish_feedAll schema shape none chunks
  cases limit with
  | none => rw [← free, read]
  | some most =>
    rcases created_finish_cases schema shape most chunks with same | failed
    · rw [← free, ← same, read]
    · rw [read] at failed
      cases failed

/-- A document that is read without a limit is read under a limit that its tree is no higher
than. -/
theorem parse_under_eq_ok_iff {text : List Char} {json : Json} (document : Document text json)
    {value : Value} (parsed : parse schema shape (Utf8.encode text) = .ok value) :
    parse schema shape (Utf8.encode text) (some most) = .ok value ↔
      json.height schema shape ≤ most := by
  have means := (parse_document_eq_ok_iff schema shape document value).mp parsed
  obtain ⟨frame, input, reads, delivered, spaces⟩ := reads_of_document document means
  rw [parse_eq_ok_iff_reads]
  constructor
  · rintro ⟨height, frame', input', scratch', reads', -, -, fits⟩
    obtain ⟨rfl, -⟩ := reads.unique reads'
    exact fits most rfl
  · intro fits
    refine ⟨_, frame, input, #[], reads, delivered, spaces, ?_⟩
    rintro _ ⟨⟩
    exact fits

/-- The height of its tree decides how a document ends under a limit. -/
theorem created_finish_eq {text : List Char} {json : Json} (document : Document text json)
    {value : Value} (parsed : parse schema shape (Utf8.encode text) = .ok value)
    {chunks : List (List UInt8)} (whole : chunks.flatten = Utf8.encode text) (most : Nat) :
    ((create schema shape (some most)).feedAll chunks).finish =
      if json.height schema shape ≤ most then .ok value else .error (.maxDepthReached most) := by
  have limited := finish_feedAll schema shape (some most) chunks
  split
  · rename_i fits
    rw [limited, whole, parse_under_eq_ok_iff document parsed]
    exact fits
  · rename_i high
    rcases created_finish_cases schema shape most chunks with same | failed
    · rw [finish_feedAll schema shape none, whole, parsed] at same
      rw [limited, whole, parse_under_eq_ok_iff document parsed] at same
      exact absurd same high
    · exact failed

/-- A parser under a limit goes the way of the parser without one, call by call and turn by turn,
as long as that one has no more frames than the limit, and its first push beyond the limit ends
the document with an error, so that there are never more frames.  A document that is read without
a limit is read, to the same value, if its tree is no higher than the limit. -/
theorem feedAll_under_limit (schema : Schema) (shape : Shape) (most : Nat)
    (chunks : List (List UInt8)) :
    let free := (create schema shape).feedAll chunks
    let bound := (create schema shape (some most)).feedAll chunks
    ((create schema shape).FeedsWithin most chunks →
      bound = free.under (some most) ∧
        (free.RunsWithin most free.endInput → bound.finish = free.finish) ∧
        (¬ free.RunsWithin most free.endInput →
          bound.finish = .error (.maxDepthReached most)) ∧
        ∀ input turns,
          (∀ earlier ≤ turns, (free.runOver input earlier).stack.depth ≤ most) →
            bound.runOver input turns = (free.runOver input turns).under (some most) ∧
              (most < (free.runOver input (turns + 1)).stack.depth →
                (bound.runOver input (turns + 1)).outcome = .failed (.maxDepthReached most))) ∧
      (¬ (create schema shape).FeedsWithin most chunks →
        bound.status = .failed (.maxDepthReached most) ∧ bound.depth = 0) ∧
      bound.depth ≤ most ∧
      (∀ input, bound.RunsWithin most input) ∧
      ∀ value, parse schema shape chunks.flatten = .ok value →
        (∃ text json, chunks.flatten = Utf8.encode text ∧ Document text json) ∧
          ∀ text json, chunks.flatten = Utf8.encode text → Document text json →
            bound.finish = if json.height schema shape ≤ most then .ok value
              else .error (.maxDepthReached most) := by
  intro free bound
  have isFree : free.stack.limit = none := limit_feedAll (create schema shape) chunks
  have cleared : free.Cleared := cleared_feedAll (cleared_create schema shape) chunks
  have isBound : bound.stack.limit = some most :=
    (limit_feedAll (create schema shape (some most)) chunks).trans (limit_create ..)
  have low : bound.depth ≤ most := created_depth_le schema shape most chunks
  refine ⟨fun within => ?_, created_under_of_not_within, low,
    runsWithin_of_limit isBound low, fun value parsed => ⟨?_, fun text json whole document => ?_⟩⟩
  · have same : bound = free.under (some most) := created_under_of_within within
    have small : free.depth ≤ most := depth_le_of_feedsWithin within
    rw [same]
    exact ⟨rfl, finish_under_of_within isFree, finish_under_of_not_within isFree cleared small,
      fun input turns fits => ⟨runOver_under_of_fits isFree turns fits,
        runOver_under_of_exceeds isFree small⟩⟩
  · obtain ⟨text, json, whole, document, -⟩ :=
      (parse_eq_ok_iff schema shape chunks.flatten value).mp parsed
    exact ⟨text, json, whole, document⟩
  · rw [whole] at parsed
    exact created_finish_eq document parsed whole most

/-- The text `{"a":[true],"a":null}`, cut inside the word: the array that null replaces counts. -/
theorem feedAll_under_limit_replaced :
    let schema : Schema := ⟨[⟨[⟨"a", .option (.list .bool)⟩], none⟩], by decide⟩
    let chunks := [Utf8.encode ['{', '"', 'a', '"', ':', '[', 't', 'r'],
      Utf8.encode ['u', 'e', ']', ',', '"', 'a', '"', ':', 'n', 'u', 'l', 'l', '}']]
    let value := Value.object [.absent] (.forMembers 1) []
    parse schema (.record 0) chunks.flatten = .ok value ∧
      ((create schema (.record 0) (some 3)).feedAll chunks).finish = .ok value ∧
      ((create schema (.record 0) (some 2)).feedAll chunks).finish =
        .error (.maxDepthReached 2) := by
  intro schema chunks value
  have parsed : parse schema (.record 0) chunks.flatten = .ok value := rfl
  let elements : List Element := [⟨[], ['t', 'r', 'u', 'e'], .bool true, []⟩]
  have list : Spells ('[' :: commaSeparated (elements.map Element.padded) ++ [']'])
      (.array (elements.map Element.json)) :=
    .array (List.cons_ne_nil _ _) (by simp [elements, Blank])
      (List.forall_mem_singleton.mpr Spells.trueText)
  let members : List Member := [
    ⟨[], [.plain 'a' rfl], [], [], '[' :: commaSeparated [['t', 'r', 'u', 'e']] ++ [']'],
      .array [.bool true], []⟩,
    ⟨[], [.plain 'a' rfl], [], [], ['n', 'u', 'l', 'l'], .null, []⟩]
  have object : Spells _ (.object (members.map fun member => (member.name, member.value.json))) :=
    .object (List.cons_ne_nil _ _) (by simp [members, Blank])
      (List.forall_mem_cons.mpr ⟨list, List.forall_mem_singleton.mpr Spells.null⟩)
  have under (most : Nat) :=
    ((feedAll_under_limit schema (.record 0) most chunks).2.2.2.2 value parsed).2 _ _ rfl
      object.document
  exact ⟨parsed, under 3, under 2⟩

end Parser

end IncrementalJson
