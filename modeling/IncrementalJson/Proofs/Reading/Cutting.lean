import IncrementalJson.Parser

/-!
# Cutting the input of a frame

An activity over an input is `Cuttable` if it makes no difference whether the
input comes in one piece or in two: where the first piece makes it fail, so does
the whole; where it stops within the first piece, it stops there with the whole
as well; and where it waits behind the first piece, resuming what it left with
the second piece comes to the same as the whole.

An activity that waits leaves the scratch region tidy in some sense, and one that
stops leaves it empty; all frames are cuttable where they find it tidy.
-/

set_option autoImplicit false

namespace IncrementalJson

open Ascii

section Cuttable

variable {β : Type} {resume : β → Input → Scratch → Except ParseError (Advance β)}
  {tidy : β → Scratch → Prop} {act : Input → Except ParseError (Advance β)} {input : Input}

def CutsTo (resume : β → Input → Scratch → Except ParseError (Advance β))
    (tidy : β → Scratch → Prop) (act : Input → Except ParseError (Advance β)) (input : Input) :
    Except ParseError (Advance β) → Prop
  | .error error => ∀ more closed, act (input.extend more closed) = .error error
  | .ok ⟨body, rest, scratch, .pause⟩ =>
    rest = ⟨[], input.limit, false⟩ ∧ tidy body scratch ∧ ∀ more closed,
      act (input.extend more closed) = resume body ⟨more, input.limit, closed⟩ scratch
  | .ok ⟨body, rest, scratch, .call child⟩ =>
    rest.closed = false ∧ rest.limit = input.limit ∧ scratch = #[] ∧ ∀ more closed,
      act (input.extend more closed) =
        .ok ⟨body, rest.extend more closed, scratch, .call child⟩
  | .ok ⟨body, rest, scratch, .complete⟩ =>
    rest.closed = false ∧ rest.limit = input.limit ∧ scratch = #[] ∧ ∀ more closed,
      act (input.extend more closed) = .ok ⟨body, rest.extend more closed, scratch, .complete⟩

/-- An activity comes to the same whether more input comes at once or later. -/
def Cuttable (resume : β → Input → Scratch → Except ParseError (Advance β))
    (tidy : β → Scratch → Prop) (act : Input → Except ParseError (Advance β)) (input : Input) :
    Prop :=
  CutsTo resume tidy act input (act input)

theorem Cuttable.of_result {result : Except ParseError (Advance β)} (now : act input = result)
    (cuts : CutsTo resume tidy act input result) : Cuttable resume tidy act input := by
  unfold Cuttable
  rw [now]
  exact cuts

theorem CutsTo.transfer {other : Input → Except ParseError (Advance β)} {here : Input}
    {result : Except ParseError (Advance β)} (limit : here.limit = input.limit)
    (same : ∀ more closed, act (input.extend more closed) = other (here.extend more closed))
    (cuts : CutsTo resume tidy other here result) : CutsTo resume tidy act input result := by
  rcases result with error | ⟨body, rest, scratch, step⟩
  · intro more closed
    rw [same]
    exact cuts more closed
  · cases step with
    | pause =>
      obtain ⟨rfl, neat, resumed⟩ := cuts
      refine ⟨by rw [limit], neat, fun more closed => ?_⟩
      rw [same, resumed, limit]
    | call child =>
      obtain ⟨opened, kept, neat, called⟩ := cuts
      exact ⟨opened, kept.trans limit, neat, fun more closed => by rw [same, called]⟩
    | complete =>
      obtain ⟨opened, kept, neat, completed⟩ := cuts
      exact ⟨opened, kept.trans limit, neat, fun more closed => by rw [same, completed]⟩

theorem Input.limit_next {here : Input} (filled : here.bytes ≠ []) :
    here.next.limit = here.limit := by
  obtain ⟨bytes, offset, closed⟩ := here
  cases bytes with
  | nil => exact absurd rfl filled
  | cons byte rest =>
    simp only [Input.limit, Input.next, List.tail_cons, List.length_cons]
    omega

theorem Input.extend_next {here : Input} (filled : here.bytes ≠ []) (more : List UInt8)
    (closed : Bool) : (here.extend more closed).next = here.next.extend more closed := by
  obtain ⟨bytes, offset, opened⟩ := here
  cases bytes with
  | nil => exact absurd rfl filled
  | cons byte rest => rfl

theorem Cuttable.next {here : Input} (filled : here.bytes ≠ [])
    (cuttable : Cuttable resume tidy act here.next) :
    Cuttable resume tidy (fun later => act later.next) here :=
  CutsTo.transfer (Input.limit_next filled)
    (fun more closed => by rw [Input.extend_next filled]) cuttable

theorem Cuttable.complete (opened : input.closed = false) (body : β) :
    Cuttable resume tidy (fun later => .ok ⟨body, later, #[], .complete⟩) input :=
  ⟨opened, rfl, rfl, fun _ _ => rfl⟩

theorem Cuttable.call (opened : input.closed = false) (body : β) (child : Frame) :
    Cuttable resume tidy (fun later => .ok ⟨body, later, #[], .call child⟩) input :=
  ⟨opened, rfl, rfl, fun _ _ => rfl⟩

theorem Cuttable.fail (error : Nat → ParseError) :
    Cuttable resume tidy (fun later => .error (error later.offset)) input :=
  fun _ _ => rfl

theorem Input.skipSpaces_extend_nil {input : Input} {position : Nat} {ended : Bool}
    (skipped : input.skipSpaces = ⟨[], position, ended⟩) (more : List UInt8) (closed : Bool) :
    (input.extend more closed).skipSpaces = Input.behindSpaces closed position more := by
  rw [skipSpaces] at skipped
  rw [skipSpaces, extend, behindSpaces_append input.closed, skipped]

theorem Input.skipSpaces_extend_cons {input : Input} {position : Nat} {ended : Bool}
    {byte : UInt8} {rest : List UInt8}
    (skipped : input.skipSpaces = ⟨byte :: rest, position, ended⟩) (more : List UInt8)
    (closed : Bool) :
    (input.extend more closed).skipSpaces = ⟨byte :: rest ++ more, position, closed⟩ := by
  rw [skipSpaces] at skipped
  rw [skipSpaces, extend, behindSpaces_append input.closed, skipped]

theorem Cuttable.significant {body : β} {scratch : Scratch}
    {act : UInt8 → Input → Except ParseError (Advance β)} (opened : input.closed = false)
    (neat : tidy body scratch) (waits : ∀ later, resume body later scratch =
      later.significant (fun rest => ⟨body, rest, scratch, .pause⟩) act)
    (acts : ∀ byte here, here.closed = false → here.bytes ≠ [] →
      Cuttable resume tidy (act byte) here) :
    Cuttable resume tidy
      (fun later => later.significant (fun rest => ⟨body, rest, scratch, .pause⟩) act) input := by
  rcases skipped : input.skipSpaces with ⟨bytes, offset, closed⟩
  have closedEq : closed = false := by
    rw [← opened, ← Input.closed_skipSpaces, skipped]
  have limitEq : offset + bytes.length = input.limit := by
    rw [← Input.limit_skipSpaces, skipped]
    rfl
  subst closedEq
  unfold Cuttable
  cases bytes with
  | nil =>
    simp only [List.length_nil, Nat.add_zero] at limitEq
    subst limitEq
    simp only [Input.significant, skipped]
    refine ⟨rfl, neat, fun more closed => ?_⟩
    rw [waits]
    simp only [Input.significant, Input.skipSpaces_extend_nil skipped]
    rfl
  | cons byte rest =>
    simp only [Input.significant, skipped]
    have cuts := acts byte ⟨byte :: rest, offset, false⟩ rfl (List.cons_ne_nil _ _)
    refine CutsTo.transfer ?_ (fun more closed => ?_) cuts
    · exact limitEq
    · simp only [Input.skipSpaces_extend_cons skipped]
      rfl

end Cuttable

/-! ## Literals -/

theorem Input.matchLiteral_eq (input : Input) (rest : List UInt8) :
    input.matchLiteral rest = matchBytes input.closed rest input.offset input.bytes := by
  obtain ⟨bytes, offset, closed⟩ := input
  rw [matchLiteral]
  split
  · rename_i begins
    induction rest generalizing offset bytes with
    | nil => rfl
    | cons expected more ih =>
      cases bytes with
      | nil => simp at begins
      | cons byte bytes =>
        simp only [List.isPrefixOf_cons_cons, Bool.and_eq_true, beq_iff_eq] at begins
        obtain ⟨rfl, begins⟩ := begins
        have tail := ih bytes (offset + 1) begins
        simp only [matchBytes, if_true, ← tail, advance, List.length_cons, List.drop_succ_cons]
        congr 3
        omega
  · rfl

theorem Input.matchBytes_append (closed : Bool) (rest : List UInt8) (offset : Nat)
    (front back : List UInt8) :
    matchBytes closed rest offset (front ++ back) =
      match matchBytes false rest offset front with
      | .error error => .error error
      | .ok ([], ⟨bytes, position, _⟩) => .ok ([], ⟨bytes ++ back, position, closed⟩)
      | .ok (left, ⟨_, position, _⟩) => matchBytes closed left position back := by
  induction rest generalizing offset front with
  | nil => rfl
  | cons expected more ih =>
    cases front with
    | nil => rfl
    | cons byte front =>
      by_cases same : byte = expected
      · simp only [List.cons_append, matchBytes, if_pos same]
        exact ih (offset + 1) front
      · simp only [List.cons_append, matchBytes, if_neg same]

/-- A literal that waits has used up its input, and one that is matched has left the rest. -/
theorem Input.limit_matchBytes {rest left : List UInt8} {offset : Nat} {bytes : List UInt8}
    {input : Input} (matched : matchBytes false rest offset bytes = .ok (left, input)) :
    input.closed = false ∧ input.limit = offset + bytes.length ∧
      (left ≠ [] → input.bytes = []) := by
  induction rest generalizing offset bytes with
  | nil =>
    cases matched
    exact ⟨rfl, rfl, fun nonempty => absurd rfl nonempty⟩
  | cons expected more ih =>
    cases bytes with
    | nil =>
      cases matched
      exact ⟨rfl, rfl, fun _ => rfl⟩
    | cons byte bytes =>
      rw [matchBytes] at matched
      split at matched
      · obtain ⟨opened, limit, used⟩ := ih matched
        refine ⟨opened, ?_, used⟩
        rw [limit, List.length_cons]
        omega
      · cases matched

theorem Cuttable.literal {β : Type} {resume : β → Input → Scratch → Except ParseError (Advance β)}
    {tidy : β → Scratch → Prop} {input : Input} {scratch : Scratch}
    (opened : input.closed = false) (wrap : List UInt8 → β) (rest : List UInt8)
    (neat : ∀ left, tidy (wrap left) scratch) (empty : scratch = #[])
    (resumes : ∀ left later, resume (wrap left) later scratch =
      (later.matchLiteral left).map fun (left, input) =>
        ⟨wrap left, input, scratch, literalStep left⟩) :
    Cuttable resume tidy (fun later => (later.matchLiteral rest).map fun (left, input) =>
      ⟨wrap left, input, scratch, literalStep left⟩) input := by
  obtain ⟨bytes, offset, closed⟩ := input
  cases opened
  unfold Cuttable
  have extended (more : List UInt8) (closed : Bool) :=
    Input.matchBytes_append closed rest offset bytes more
  rcases matched : Input.matchBytes false rest offset bytes with error | ⟨left, later⟩
  · simp only [Input.matchLiteral_eq, matched, Except.map]
    intro more closed
    simp only [Input.extend, extended, matched]
  · obtain ⟨opened, limit, used⟩ := Input.limit_matchBytes matched
    obtain ⟨bytes', offset', closed'⟩ := later
    cases opened
    simp only [Input.matchLiteral_eq, matched, Except.map]
    cases left with
    | nil =>
      refine ⟨rfl, limit, empty, fun more closed => ?_⟩
      simp only [Input.extend, extended, matched]
      rfl
    | cons byte left =>
      cases used (List.cons_ne_nil _ _)
      have offsetEq : offset' = Input.limit ⟨bytes, offset, false⟩ := limit
      subst offsetEq
      refine ⟨rfl, neat _, fun more closed => ?_⟩
      rw [resumes]
      simp only [Input.extend, extended, matched, Input.matchLiteral_eq]
      rfl

/-! ## Numbers -/

namespace NumberLexer

theorem scanBytes_text (closed : Bool) (lexer : NumberLexer) (text : Array UInt8) (offset : Nat)
    (bytes : List UInt8) :
    lexer.scanBytes closed text offset bytes =
      (lexer.scanBytes closed #[] offset bytes).map fun scan =>
        { scan with text := text ++ scan.text } := by
  induction bytes generalizing lexer text offset with
  | nil => simp [scanBytes, Except.map]
  | cons byte rest ih =>
    simp only [scanBytes]
    cases lexer.step byte with
    | more lexer =>
      simp only
      rw [ih lexer (text.push byte), ih lexer (#[].push byte)]
      cases lexer.scanBytes closed #[] (offset + 1) rest <;> simp [Except.map]
    | finished => simp [Except.map]
    | invalid => rfl

theorem scanBytes_append (closed : Bool) (lexer : NumberLexer) (text : Array UInt8)
    (offset : Nat) (front back : List UInt8) :
    lexer.scanBytes closed text offset (front ++ back) =
      match lexer.scanBytes false text offset front with
      | .error error => .error error
      | .ok ⟨lexer, text, ⟨bytes, position, _⟩, true⟩ =>
        .ok ⟨lexer, text, ⟨bytes ++ back, position, closed⟩, true⟩
      | .ok ⟨lexer, text, ⟨_, position, _⟩, false⟩ =>
        lexer.scanBytes closed text position back := by
  induction front generalizing lexer text offset with
  | nil => rfl
  | cons byte front ih =>
    simp only [List.cons_append, scanBytes]
    cases lexer.step byte with
    | more lexer => exact ih lexer (text.push byte) (offset + 1)
    | finished => rfl
    | invalid => rfl

@[simp] theorem part_addDigit (lexer : NumberLexer) (byte : UInt8) :
    (lexer.addDigit byte).part = .integer := by
  simp only [addDigit]
  split <;> rfl

theorem part_ne_nothing_of_next? {lexer later : NumberLexer} {byte : UInt8}
    (next : lexer.next? byte = some later) : later.part ≠ .nothing := by
  revert next
  unfold next?
  split <;> repeat' split
  all_goals
    intro next
    cases next <;> simp

/-- What scanning leaves: all of the input was used up unless the number has ended, and
something of the number has been read. -/
theorem scanBytes_open {lexer : NumberLexer} {text : Array UInt8} {offset : Nat}
    {bytes : List UInt8} {scan : NumberScan}
    (scanned : lexer.scanBytes false text offset bytes = .ok scan) :
    scan.input.closed = false ∧ scan.input.limit = offset + bytes.length ∧
      (scan.ended = false → scan.input.bytes = [] ∧
        (lexer.part ≠ .nothing ∨ bytes ≠ [] → scan.lexer.part ≠ .nothing)) := by
  induction bytes generalizing lexer text offset with
  | nil =>
    cases scanned
    exact ⟨rfl, rfl, fun _ => ⟨rfl, fun begun => begun.resolve_right (absurd rfl)⟩⟩
  | cons byte rest ih =>
    rw [scanBytes] at scanned
    cases stepped : lexer.step byte with
    | more later =>
      simp only [stepped] at scanned
      obtain ⟨opened, limit, waits⟩ := ih scanned
      have begun : later.part ≠ .nothing := by
        rw [step] at stepped
        split at stepped
        · rename_i next
          cases stepped
          exact part_ne_nothing_of_next? next
        · split at stepped <;> cases stepped
      refine ⟨opened, ?_, fun ended => ⟨(waits ended).1, fun _ => (waits ended).2 (.inl begun)⟩⟩
      rw [limit, List.length_cons]
      omega
    | finished =>
      simp only [stepped] at scanned
      cases scanned
      exact ⟨rfl, rfl, nofun⟩
    | invalid =>
      simp only [stepped] at scanned
      cases scanned

end NumberLexer

/-! ## Strings -/

namespace StringScan

/-- The outcome of a scan without regard to where the last run of plain bytes began. -/
def joined : StringScan → StringScan
  | pending lexer octets input => pending lexer octets input
  | closed octets tail input => closed (octets ++ tail) #[] input

end StringScan

namespace StringLexer

theorem scanBytes_joined (closed : Bool) (lexer : StringLexer) {octets run octets' run' : Array UInt8}
    (same : octets ++ run = octets' ++ run') (offset : Nat) (bytes : List UInt8) :
    (lexer.scanBytes closed octets run offset bytes).map StringScan.joined =
      (lexer.scanBytes closed octets' run' offset bytes).map StringScan.joined := by
  induction bytes generalizing lexer octets run octets' run' offset with
  | nil => simp only [scanBytes, same]
  | cons byte rest ih =>
    simp only [scanBytes]
    rcases lexer.step byte offset with error | step
    · rfl
    · cases step with
      | plain =>
        refine ih lexer ?_ (offset + 1)
        rw [← Array.push_append, ← Array.push_append, same]
      | more lexer added =>
        refine ih lexer ?_ (offset + 1)
        rw [same]
      | closed => simp only [Except.map, StringScan.joined, same]

theorem scanBytes_append (closed : Bool) (lexer : StringLexer) (octets run : Array UInt8)
    (offset : Nat) (front back : List UInt8) :
    (lexer.scanBytes closed octets run offset (front ++ back)).map StringScan.joined =
      match lexer.scanBytes false octets run offset front with
      | .error error => .error error
      | .ok (.closed octets tail ⟨bytes, position, _⟩) =>
        .ok (.closed (octets ++ tail) #[] ⟨bytes ++ back, position, closed⟩)
      | .ok (.pending lexer octets ⟨_, position, _⟩) =>
        (lexer.scanBytes closed octets #[] position back).map StringScan.joined := by
  induction front generalizing lexer octets run offset with
  | nil => exact scanBytes_joined closed lexer (by simp) offset back
  | cons byte front ih =>
    simp only [List.cons_append, scanBytes]
    rcases lexer.step byte offset with error | step
    · rfl
    · cases step with
      | plain => exact ih lexer octets (run.push byte) (offset + 1)
      | more lexer added => exact ih lexer (octets ++ run ++ added) #[] (offset + 1)
      | closed => rfl

/-- The input that scanning leaves; nothing of it if the string goes on. -/
theorem scanBytes_open {lexer : StringLexer} {octets run : Array UInt8} {offset : Nat}
    {bytes : List UInt8} {scan : StringScan}
    (scanned : lexer.scanBytes false octets run offset bytes = .ok scan) :
    (∃ lexer octets, scan = .pending lexer octets ⟨[], offset + bytes.length, false⟩) ∨
      ∃ octets tail input, scan = .closed octets tail input ∧ input.closed = false ∧
        input.limit = offset + bytes.length := by
  induction bytes generalizing lexer octets run offset with
  | nil =>
    cases scanned
    exact .inl ⟨_, _, rfl⟩
  | cons byte rest ih =>
    have shift : offset + 1 + rest.length = offset + (byte :: rest).length := by
      rw [List.length_cons]
      omega
    rw [scanBytes] at scanned
    rcases stepped : lexer.step byte offset with error | step
    · simp only [stepped] at scanned
      cases scanned
    · cases step with
      | plain =>
        simp only [stepped] at scanned
        exact shift ▸ ih scanned
      | more lexer added =>
        simp only [stepped] at scanned
        exact shift ▸ ih scanned
      | closed =>
        simp only [stepped] at scanned
        cases scanned
        exact .inr ⟨_, _, _, rfl, rfl, shift⟩

end StringLexer

/-! ## Names -/

/-- Where a name was cut makes no difference to the member it belongs to. -/
theorem Table.resolve_append (schema : Schema) (table : Table) (extras : Entries Value)
    (front back : List UInt8) :
    table.resolve schema extras front back = table.resolve schema extras (front ++ back) [] := by
  have found : table.findSplit? front back = table.findSplit? (front ++ back) [] := by
    simp only [findSplit?]
    congr 1
    funext field
    simp only [decide_eq_decide, List.length_append, List.length_nil, Nat.add_zero]
    constructor
    · rintro ⟨length, start, rest⟩
      have whole : Utf8.encodeString field.name = front ++ back := by
        rw [← List.take_append_drop front.length (Utf8.encodeString field.name), start, rest]
      rw [whole, ← List.length_append, List.take_length, List.drop_length]
      exact ⟨rfl, rfl, rfl⟩
    · rintro ⟨length, start, -⟩
      have whole : Utf8.encodeString field.name = front ++ back := by
        rw [← start, List.take_of_length_le (by omega)]
      simp [whole]
  rw [resolve, resolve, found, List.append_nil]

end IncrementalJson
