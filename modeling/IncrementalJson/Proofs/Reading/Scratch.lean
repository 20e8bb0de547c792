import IncrementalJson.Proofs.Reading.OneByteRuns

/-!
# What the scratch region holds

Between two chunks the scratch region is empty, unless the newest frame is inside a
number literal or a member name.  Inside a literal it holds the bytes of the literal
so far, inside a name the octets that the name spells so far; an escape that has not
ended, and a high surrogate whose partner has not come, add none.
-/

set_option autoImplicit false

namespace IncrementalJson

open Ascii

/-! ## Names part way through -/

/-- The bytes that a place of a string has behind it: nothing among plain bytes, else an escape
up to there. -/
inductive StringPart.Begun : StringPart → List UInt8 → Prop
  | body : Begun .body []
  | escape : Begun .escape [backslash]
  | unicode {digits : List UInt8} {value : Nat} (few : digits.length < 4)
      (spelled : spelledUnit digits.length 0 digits = .ok (value, [])) :
      Begun (.unicode digits.length value) (backslash :: lowerU :: digits)

namespace StringLexer

/-- The bytes of a string that have added nothing to it yet: an escape that has not ended, and in
front of it the escape of a high surrogate whose partner has not come. -/
inductive Unfinished : StringLexer → List UInt8 → Prop
  | single {part : StringPart} {bytes : List UInt8} (begun : part.Begun bytes) :
      Unfinished ⟨part, none⟩ bytes
  | pair {part : StringPart} {high bytes : List UInt8} {unit : Nat}
      (spelled : spelledUnit 4 0 high = .ok (unit, [])) (leading : isLeading unit)
      (begun : part.Begun bytes) :
      Unfinished ⟨part, some unit⟩ (backslash :: lowerU :: high ++ bytes)

/-- A string that begins with some bytes is read by a lexer that has some octets once they are
behind it. -/
def Reaches (offset : Nat) (bytes : List UInt8) (lexer : StringLexer) (octets : Array UInt8) :
    Prop :=
  ∀ rest, scanned true {} #[] offset (bytes ++ rest) =
    scanned true lexer octets (offset + bytes.length) rest

theorem reaches_nil (offset : Nat) : Reaches offset [] {} #[] := fun _ => rfl

variable {lexer later : StringLexer} {byte : UInt8} {offset : Nat} {added bytes : List UInt8}

theorem Takes.scanned (takes : lexer.Takes byte offset later added) (closed : Bool)
    (before : Array UInt8) (rest : List UInt8) :
    StringLexer.scanned closed lexer before offset (byte :: rest) =
      StringLexer.scanned closed later (before ++ added) (offset + 1) rest := by
  rw [scanned_cons]
  cases takes with
  | plain stepped => rw [stepped]
  | more stepped => rw [stepped]

theorem Takes.eq_of_more {later' : StringLexer} {added' : List UInt8}
    (takes : lexer.Takes byte offset later added)
    (stepped : lexer.step byte offset = .ok (.more later' added')) :
    later = later' ∧ added = added' := by
  cases takes with
  | plain stepped' => cases stepped'.symm.trans stepped
  | more stepped' =>
    cases stepped'.symm.trans stepped
    exact ⟨rfl, rfl⟩

theorem Takes.not_refused (takes : lexer.Takes byte offset later added) {error : ParseError} :
    lexer.step byte offset ≠ .error error := by
  intro refused
  cases takes with
  | plain stepped => cases stepped.symm.trans refused
  | more stepped => cases stepped.symm.trans refused

theorem Reaches.step {octets : Array UInt8} (reaches : Reaches offset bytes lexer octets)
    (takes : lexer.Takes byte (offset + bytes.length) later added) :
    Reaches offset (bytes ++ [byte]) later (octets ++ added) := by
  intro rest
  rw [List.append_assoc, reaches, List.singleton_append, takes.scanned, List.length_append,
    List.length_singleton, Nat.add_assoc]

/-- Up to a place between two characters the closing quote would end the string. -/
theorem Reaches.decodeQuoted {octets : Array UInt8} (reaches : Reaches offset bytes {} octets) :
    decodeQuoted offset (bytes ++ [quote]) =
      .ok ⟨octets.toList, [], offset + bytes.length + 1⟩ := by
  apply decodeQuoted_of_scanned_closed
  rw [reaches]
  rfl

theorem spelledUnit_append {due value value' digit : Nat} {digits : List UInt8}
    (spelled : spelledUnit due value digits = .ok (value', []))
    (hex : Escape.hexValue? byte = some digit) :
    spelledUnit (due + 1) value (digits ++ [byte]) = .ok (value' * 16 + digit, []) := by
  induction digits generalizing due value with
  | nil =>
    cases due with
    | zero =>
      cases spelled
      rw [List.nil_append, spelledUnit, hexDigit?_eq, hex]
      rfl
    | succ due => cases spelled
  | cons first digits ih =>
    cases due with
    | zero => cases spelled
    | succ due =>
      rw [List.cons_append, spelledUnit]
      rw [spelledUnit] at spelled
      split at spelled
      · cases spelled
      · exact ih spelled

/-- Behind some bytes of an escape the escape goes on, or the high surrogate that it spells is
pending. -/
def Continues (bytes : List UInt8) (pending : Option Nat) (later : StringLexer) : Prop :=
  (∃ part, later = ⟨part, pending⟩ ∧ part.Begun bytes) ∨
    pending = none ∧ ∃ high unit, bytes = backslash :: lowerU :: high ∧
      spelledUnit 4 0 high = .ok (unit, []) ∧ isLeading unit ∧ later = { pending := some unit }

theorem continues_of_lastDigit {pending : Option Nat} {digits : List UInt8} {value digit : Nat}
    (hex : Escape.hexValue? byte = some digit)
    (longer : spelledUnit 4 0 (digits ++ [byte]) = .ok (value * 16 + digit, []))
    (takes : Takes ⟨.unicode 3 value, pending⟩ byte offset later added) :
    later = {} ∨
      added = [] ∧ Continues (backslash :: lowerU :: (digits ++ [byte])) pending later := by
  have stepped : StringLexer.step ⟨.unicode 3 value, pending⟩ byte offset =
      takeUnit pending (value * 16 + digit) := by
    simp [StringLexer.step, hex]
  cases pending with
  | some high =>
    simp only [takeUnit] at stepped
    split at stepped
    · exact .inl (takes.eq_of_more stepped).1
    · exact absurd stepped takes.not_refused
  | none =>
    simp only [takeUnit] at stepped
    split at stepped
    · rename_i leading
      obtain ⟨rfl, rfl⟩ := takes.eq_of_more stepped
      exact .inr ⟨rfl, .inr ⟨rfl, digits ++ [byte], _, rfl, longer, leading, rfl⟩⟩
    · split at stepped
      · exact absurd stepped takes.not_refused
      · exact .inl (takes.eq_of_more stepped).1

theorem continues_of_digit {pending : Option Nat} {digits : List UInt8} {value : Nat}
    (few : digits.length < 4) (spelled : spelledUnit digits.length 0 digits = .ok (value, []))
    (takes : Takes ⟨.unicode digits.length value, pending⟩ byte offset later added) :
    later = {} ∨
      added = [] ∧ Continues (backslash :: lowerU :: (digits ++ [byte])) pending later := by
  cases hex : Escape.hexValue? byte with
  | none =>
    have refused : StringLexer.step ⟨.unicode digits.length value, pending⟩ byte offset =
        .error .invalidUnicodeHex := by
      simp only [StringLexer.step, hex]
    exact absurd refused takes.not_refused
  | some digit =>
    have longer := spelledUnit_append spelled hex
    by_cases last : digits.length < 3
    · have stepped : StringLexer.step ⟨.unicode digits.length value, pending⟩ byte offset =
          .ok (.more ⟨.unicode (digits.length + 1) (value * 16 + digit), pending⟩ []) := by
        simp only [StringLexer.step, hex, if_pos last]
      obtain ⟨rfl, rfl⟩ := takes.eq_of_more stepped
      have count : (digits ++ [byte]).length = digits.length + 1 := List.length_append
      rw [← count] at longer ⊢
      exact .inr ⟨rfl, .inl ⟨_, rfl, .unicode (by omega) longer⟩⟩
    · have third : digits.length = 3 := by omega
      rw [third] at longer takes
      exact continues_of_lastDigit hex longer takes

theorem continues_of_begun {part : StringPart} {pending : Option Nat} (begun : part.Begun bytes)
    (takes : Takes ⟨part, pending⟩ byte offset later added) :
    later = {} ∨ added = [] ∧ Continues (bytes ++ [byte]) pending later := by
  cases begun with
  | body =>
    cases takes with
    | plain stepped =>
      left
      cases pending with
      | none => rfl
      | some unit =>
        simp only [StringLexer.step, Option.isSome_some, if_true] at stepped
        split at stepped <;> cases stepped
    | more stepped =>
      right
      simp only [StringLexer.step] at stepped
      repeat' split at stepped
      all_goals cases stepped
      rename_i isBackslash
      subst isBackslash
      exact ⟨rfl, .inl ⟨.escape, rfl, .escape⟩⟩
  | escape =>
    cases takes with
    | plain stepped =>
      simp only [StringLexer.step] at stepped
      repeat' split at stepped
      all_goals cases stepped
    | more stepped =>
      simp only [StringLexer.step] at stepped
      repeat' split at stepped
      all_goals cases stepped
      · rename_i isU
        subst isU
        have noDigit : StringPart.Begun (.unicode ([] : List UInt8).length 0)
            [backslash, lowerU] := .unicode (by decide) rfl
        exact .inr ⟨rfl, .inl ⟨_, rfl, noDigit⟩⟩
      · exact .inl rfl
  | unicode few spelled => exact continues_of_digit few spelled takes

theorem Unfinished.step (unfinished : lexer.Unfinished bytes)
    (takes : lexer.Takes byte offset later added) :
    later = {} ∨ added = [] ∧ later.Unfinished (bytes ++ [byte]) := by
  cases unfinished with
  | single begun =>
    rcases continues_of_begun begun takes with ends | ⟨none, ⟨part', rfl, begun'⟩ |
      ⟨-, high, unit, split, spelled, leading, rfl⟩⟩
    · exact .inl ends
    · exact .inr ⟨none, .single begun'⟩
    · refine .inr ⟨none, ?_⟩
      rw [split, ← List.append_nil high]
      exact .pair spelled leading .body
  | pair spelled leading begun =>
    rcases continues_of_begun begun takes with ends | ⟨none, ⟨part', rfl, begun'⟩ | ⟨impossible, -⟩⟩
    · exact .inl ends
    · refine .inr ⟨none, ?_⟩
      rw [List.append_assoc]
      exact .pair spelled leading begun'
    · cases impossible

end StringLexer

/-! ## Documents part way through -/

namespace Parser

/-- The document ends inside a literal of which a text has come: the frame that is newest since
the first byte of it is that of the literal. -/
structure EndsInLiteral (start : Parser) (document : List UInt8) (type : NumberType)
    (lexer : NumberLexer) (text : List UInt8) : Prop where
  nonempty : text ≠ []
  read : NumberLexer.readAll? {} text = some lexer
  since : ∃ before, document = before ++ text ∧
    (∀ type' lexer', (start.feed before).holding ≠ .literal type' lexer') ∧
    ∀ front, front ≠ [] → front <+: text →
      ∃ lexer', (start.feed (before ++ front)).holding = .literal type lexer'

/-- Behind some bytes and a quote a name has begun, of which no more than the unfinished bytes
have added nothing. -/
structure InName (start : Parser) (before whole unfinished : List UInt8) (table : Table)
    (lexer : StringLexer) : Prop where
  awaits : ∃ extras, (start.feed before).AwaitsName table extras
  since : ∀ front, front <+: whole ++ unfinished →
    ∃ lexer', (start.feed (before ++ quote :: front)).holding = .name table lexer'
  unfinished : lexer.Unfinished unfinished

/-- The document ends inside a name whose bytes, up to those that have added nothing, would spell
the octets if the name ended there. -/
def EndsInName (start : Parser) (document : List UInt8) (table : Table) (lexer : StringLexer)
    (octets : List UInt8) : Prop :=
  ∃ before whole unfinished, document = before ++ quote :: (whole ++ unfinished) ∧
    start.InName before whole unfinished table lexer ∧
    decodeQuoted (before.length + 1) (whole ++ [quote]) =
      .ok ⟨octets, [], before.length + 1 + whole.length + 1⟩

def ReadsName (start : Parser) (document : List UInt8) (table : Table) (lexer : StringLexer)
    (octets : Array UInt8) : Prop :=
  ∃ before whole unfinished, document = before ++ quote :: (whole ++ unfinished) ∧
    start.InName before whole unfinished table lexer ∧
    StringLexer.Reaches (before.length + 1) whole {} octets ∧
    StringLexer.Reaches (before.length + 1) (whole ++ unfinished) lexer octets

theorem ReadsName.endsInName {start : Parser} {document : List UInt8} {table : Table}
    {lexer : StringLexer} {octets : Array UInt8}
    (reads : start.ReadsName document table lexer octets) :
    start.EndsInName document table lexer octets.toList := by
  obtain ⟨before, whole, unfinished, split, inside, reaches, -⟩ := reads
  exact ⟨before, whole, unfinished, split, inside, reaches.decodeQuoted⟩

variable {start : Parser} {document text : List UInt8} {byte : UInt8} {type : NumberType}
  {table : Table}

theorem endsInLiteral_of_begun {lexer : NumberLexer}
    (idle : (start.feed document).holding = .nothing)
    (begun : NumberLexer.next? {} byte = some lexer)
    (held : (start.feed (document ++ [byte])).holding = .literal type lexer) :
    start.EndsInLiteral (document ++ [byte]) type lexer [byte] where
  nonempty := List.cons_ne_nil _ _
  read := NumberLexer.readAll?_cons begun []
  since := by
    refine ⟨document, rfl, ?_, ?_⟩
    · intro type' lexer' held'
      cases idle.symm.trans held'
    · intro front some part
      rcases List.prefix_cons_iff.mp part with none | ⟨rest, rfl, short⟩
      · exact absurd none some
      · cases List.prefix_nil.mp short
        exact ⟨lexer, held⟩

theorem EndsInLiteral.step {lexer lexer' : NumberLexer}
    (ends : start.EndsInLiteral document type lexer text) (next : lexer.next? byte = some lexer')
    (held : (start.feed (document ++ [byte])).holding = .literal type lexer') :
    start.EndsInLiteral (document ++ [byte]) type lexer' (text ++ [byte]) where
  nonempty := by simp
  read := by
    rw [NumberLexer.readAll?_append, ends.read]
    exact NumberLexer.readAll?_cons next []
  since := by
    obtain ⟨before, rfl, fresh, since⟩ := ends.since
    refine ⟨before, List.append_assoc .., fresh, ?_⟩
    intro front some part
    rcases List.prefix_concat_iff.mp part with rfl | part
    · rw [← List.append_assoc]
      exact ⟨lexer', held⟩
    · exact since front some part

theorem readsName_of_opened {extras : Entries Value}
    (awaits : (start.feed document).AwaitsName table extras)
    (held : (start.feed (document ++ [quote])).holding = .name table {}) :
    start.ReadsName (document ++ [quote]) table {} #[] := by
  refine ⟨document, [], [], rfl, ⟨⟨extras, awaits⟩, ?_, .single .body⟩,
    StringLexer.reaches_nil _, StringLexer.reaches_nil _⟩
  intro front part
  cases List.prefix_nil.mp part
  exact ⟨{}, held⟩

theorem ReadsName.step {lexer lexer' : StringLexer} {octets : Array UInt8} {added : List UInt8}
    (reads : start.ReadsName document table lexer octets)
    (takes : lexer.Takes byte document.length lexer' added)
    (held : (start.feed (document ++ [byte])).holding = .name table lexer') :
    start.ReadsName (document ++ [byte]) table lexer' (octets ++ added) := by
  obtain ⟨before, whole, unfinished, rfl, ⟨awaits, since, pending⟩, reaches, reaches'⟩ := reads
  have place : (before ++ quote :: (whole ++ unfinished)).length =
      before.length + 1 + (whole ++ unfinished).length := by
    rw [List.length_append, List.length_cons]
    omega
  have since' : ∀ front, front <+: whole ++ unfinished ++ [byte] →
      ∃ lexer', (start.feed (before ++ quote :: front)).holding = .name table lexer' := by
    intro front part
    rcases List.prefix_concat_iff.mp part with rfl | part
    · refine ⟨lexer', ?_⟩
      rwa [List.append_assoc] at held
    · exact since front part
  have longer := reaches'.step (place ▸ takes)
  rcases pending.step takes with rfl | ⟨rfl, pending'⟩
  · refine ⟨before, whole ++ unfinished ++ [byte], [], ?_, ⟨awaits, ?_, .single .body⟩, longer, ?_⟩
    · simp
    · rwa [List.append_nil]
    · rwa [List.append_nil]
  · refine ⟨before, whole, unfinished ++ [byte], ?_, ⟨awaits, ?_, pending'⟩, ?_, ?_⟩
    · simp
    · rwa [← List.append_assoc]
    · rwa [Array.appendList_nil]
    · rwa [← List.append_assoc]

def Keeps (start : Parser) (document : List UInt8) : Prop :=
  match (start.feed document).holding with
  | .nothing => (start.feed document).stack.scratch = #[]
  | .literal type lexer =>
    start.EndsInLiteral document type lexer (start.feed document).stack.scratch.toList
  | .name table lexer =>
    start.ReadsName document table lexer (start.feed document).stack.scratch

theorem Keeps.step (keeps : start.Keeps document)
    (fed : (start.feed document).Fed byte (start.feed (document ++ [byte])))
    (offset : (start.feed document).offset = document.length) :
    start.Keeps (document ++ [byte]) := by
  unfold Keeps at keeps ⊢
  cases fed with
  | idle held empty =>
    rw [held]
    exact empty
  | begins idle begun held scratch =>
    rw [held, scratch]
    exact endsInLiteral_of_begun idle begun held
  | lengthens held next held' scratch =>
    rw [held] at keeps
    rw [held', scratch, Array.toList_push]
    exact keeps.step next held'
  | opens awaits isQuote held empty =>
    subst isQuote
    rw [held, empty]
    exact readsName_of_opened awaits held
  | spells held takes held' scratch =>
    rw [held] at keeps
    rw [offset] at takes
    rw [held', scratch]
    exact keeps.step takes held'

theorem SameState.eq {parser parser' : Parser} (same : SameState parser parser')
    (live : parser'.Live) : parser = parser' := by
  unfold SameState at same
  split at same
  · exact absurd live (not_live_of_failed same.1)
  · exact same

theorem room_of_live {schema : Schema} {shape : Shape} {limit : Option Nat}
    (live : ((create schema shape limit).feed document).Live) : limit ≠ some 0 := by
  rintro rfl
  rw [feed_of_failed rfl] at live
  exact absurd live (not_live_of_failed rfl)

theorem keeps_create {schema : Schema} {shape : Shape} {limit : Option Nat}
    (live : ((create schema shape limit).feed document).Live) :
    ((create schema shape limit).feed document).stack.Stands Frame.Placed ∧
      (create schema shape limit).Keeps document := by
  have room := room_of_live live
  have fresh : (create schema shape limit).Live := by
    rw [create_of_room schema shape room]
    rfl
  have neat := tidy_create schema shape limit fresh
  induction document using List.reverseRecOn with
  | nil =>
    have idle := (Frame.aside_start schema shape).idle
    rw [Keeps, feed_nil_create schema shape room]
    refine ⟨.idle idle, ?_⟩
    rw [holding_of_frames rfl, Frame.holding_of_idle idle]
  | append_singleton document byte ih =>
    have before := error?_feed_of_append fresh neat live
    obtain ⟨placed, keeps⟩ := ih before
    have same := (feed_append fresh neat document [byte]).eq live
    have offset : ((create schema shape limit).feed document).offset = document.length := by
      rw [offset_feed fresh, create_of_room schema shape room, Nat.zero_add]
    rw [← same] at live
    obtain ⟨placed', fed⟩ := fed_feed before placed live
    rw [same] at placed' fed
    exact ⟨placed', keeps.step fed offset⟩

/-- Once chunks have been fed without an error, the scratch region is empty, unless the newest frame
is a number inside its literal or an object inside a name, with which the chunks end.  Of a literal
it holds the bytes that have come, and of a name the octets that they spell. -/
theorem scratch_feedAll (schema : Schema) (shape : Shape) (limit : Option Nat)
    (chunks : List (List UInt8))
    (live : ((create schema shape limit).feedAll chunks).error? = none) :
    let start := create schema shape limit
    let parser := start.feedAll chunks
    match parser.holding with
    | .nothing => parser.stack.scratch = #[]
    | .literal type lexer =>
      start.EndsInLiteral chunks.flatten type lexer parser.stack.scratch.toList
    | .name table lexer =>
      start.EndsInName chunks.flatten table lexer parser.stack.scratch.toList := by
  intro start parser
  cases chunks with
  | nil =>
    have room : limit ≠ some 0 := by
      rintro rfl
      cases live
    have created : parser = _ := create_of_room schema shape room
    have held : parser.holding = .nothing := by
      rw [created, holding_of_frames rfl,
        Frame.holding_of_idle (Frame.aside_start schema shape).idle]
    rw [held, created]
  | cons chunk rest =>
    have same := sameState_feedAll_create schema shape limit (List.cons_ne_nil chunk rest)
    have live' : (start.feed (chunk :: rest).flatten).Live := same.error?.symm.trans live
    have fed : parser = start.feed (chunk :: rest).flatten := same.eq live'
    obtain ⟨-, keeps⟩ := keeps_create live'
    rw [fed]
    unfold Keeps at keeps
    split at keeps
    · rename_i held
      rw [held]
      exact keeps
    · rename_i held
      rw [held]
      exact keeps
    · rename_i held
      rw [held]
      exact keeps.endsInName

/-- The name `ab` in front of an escape whose last digit has not come. -/
theorem scratch_feedAll_in_escape :
    let chunks : List (List UInt8) := [[leftBrace, quote, 0x61], [0x62, backslash, lowerU, 0x30],
      [0x30, 0x36]]
    let start := create .empty .map
    let parser := start.feedAll chunks
    parser.error? = none ∧ parser.stack.scratch = #[0x61, 0x62] ∧
      start.EndsInName chunks.flatten (.ofExtra .variant) ⟨.unicode 3 6, none⟩ [0x61, 0x62] := by
  intro chunks start parser
  have live : parser.error? = none := rfl
  have ends := scratch_feedAll .empty .map none chunks live
  exact ⟨live, rfl, ends⟩

end Parser

end IncrementalJson
