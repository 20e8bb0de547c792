import IncrementalJson.Proofs.RoundTrip.Spelling

/-!
# Text without whitespace

`Compact` is the grammar of JSON text without the whitespace that it may have
between its tokens.  A compact text is one of the grammar, has no control
character anywhere and no blank outside of its strings; and whatever is written of
a value of a shape to its end is compact.
-/

set_option autoImplicit false

namespace IncrementalJson

open Ascii Transcript

/-! ## Places in a text -/

/-- Where the next character of a text stands. -/
inductive Place where
  | outside
  | string
  /-- Behind the backslash that begins an escape. -/
  | escape
  deriving DecidableEq, Repr

def Place.next : Place → Char → Place
  | .outside, char => if char = '"' then .string else .outside
  | .string, char =>
    if char = '"' then .outside else if char = '\\' then .escape else .string
  | .escape, _ => .string

/-- The characters of a text that stand outside of its strings. -/
def outsideStrings : Place → List Char → List Char
  | _, [] => []
  | .outside, char :: rest => char :: outsideStrings (Place.outside.next char) rest
  | place, char :: rest => outsideStrings (place.next char) rest

theorem outsideStrings_append (front back : List Char) (place : Place) :
    outsideStrings place (front ++ back) =
      outsideStrings place front ++ outsideStrings (front.foldl Place.next place) back := by
  induction front generalizing place with
  | nil => rfl
  | cons char front ih =>
    cases place with
    | outside =>
      rw [List.cons_append, outsideStrings, outsideStrings, ih]
      rfl
    | string | escape => exact ih _

def isPlain (char : Char) : Bool :=
  char != '"' && !isBlank char && decide (0x20 ≤ char.toNat)

theorem printable_of_all {text : List Char}
    (each : text.all (fun char => decide (0x20 ≤ char.toNat)) = true) :
    ∀ char ∈ text, 0x20 ≤ char.toNat := by
  intro char among
  exact of_decide_eq_true (List.all_eq_true.mp each char among)

/-- A text whose strings are closed, without control characters, and without blanks outside of
its strings. -/
structure Neat (text : List Char) : Prop where
  closed : text.foldl Place.next .outside = .outside
  tight : ∀ char ∈ outsideStrings .outside text, isBlank char = false
  printable : ∀ char ∈ text, 0x20 ≤ char.toNat

namespace Neat

theorem nil : Neat [] := ⟨rfl, nofun, nofun⟩

theorem append {front back : List Char} (first : Neat front) (second : Neat back) :
    Neat (front ++ back) where
  closed := by rw [List.foldl_append, first.closed, second.closed]
  tight := by
    rw [outsideStrings_append, first.closed]
    intro char among
    rcases List.mem_append.mp among with here | behind
    · exact first.tight char here
    · exact second.tight char behind
  printable char among := by
    rcases List.mem_append.mp among with here | behind
    · exact first.printable char here
    · exact second.printable char behind

theorem single {char : Char} (notQuote : char ≠ '"') (solid : isBlank char = false)
    (printable : 0x20 ≤ char.toNat) : Neat [char] where
  closed := if_neg notQuote
  tight other among := by
    rw [List.mem_singleton.mp among]
    exact solid
  printable other among := by
    rw [List.mem_singleton.mp among]
    exact printable

theorem plain {text : List Char} (each : text.all isPlain = true) : Neat text := by
  induction text with
  | nil => exact nil
  | cons char text ih =>
    rw [List.all_cons, Bool.and_eq_true] at each
    obtain ⟨here, others⟩ := each
    simp only [isPlain, Bool.and_eq_true, bne_iff_ne, Bool.not_eq_true', decide_eq_true_eq] at here
    obtain ⟨⟨notQuote, solid⟩, printable⟩ := here
    exact (single notQuote solid printable).append (ih others)

theorem literal (literal : Literal) : Neat literal.text := by
  have known : Literal.chars.all isPlain = true := by decide
  apply plain
  apply List.all_eq_true.mpr
  intro char among
  exact List.all_eq_true.mp known char (literal.mem_chars_of_mem_text among)

/-- A piece of a string leaves the string open, and nothing of it stands outside. -/
theorem item (item : StringItem) :
    item.text.foldl Place.next .string = .string ∧ outsideStrings .string item.text = [] ∧
      ∀ char ∈ item.text, 0x20 ≤ char.toNat := by
  have hex : ∀ digit : HexDigit, Place.next .string digit.char = .string ∧
      0x20 ≤ digit.char.toNat := by
    rintro ⟨value, upper⟩
    revert value upper
    decide
  cases item with
  | plain char unescaped =>
    simp only [isUnescaped, Bool.and_eq_true, decide_eq_true_eq, bne_iff_ne] at unescaped
    obtain ⟨⟨printable, notQuote⟩, notBackslash⟩ := unescaped
    refine ⟨?_, rfl, ?_⟩
    · simp [StringItem.text, Place.next, notQuote, notBackslash]
    · intro other among
      rw [List.mem_singleton.mp among]
      exact printable
  | short escape => cases escape <;> exact ⟨rfl, rfl, printable_of_all rfl⟩
  | unit first second third fourth =>
    obtain ⟨first, firstPrints⟩ := hex first
    obtain ⟨second, secondPrints⟩ := hex second
    obtain ⟨third, thirdPrints⟩ := hex third
    obtain ⟨fourth, fourthPrints⟩ := hex fourth
    have letters : Place.next .escape 'u' = .string := rfl
    have backslash : Place.next .string '\\' = .escape := rfl
    refine ⟨?_, ?_, ?_⟩
    · simp only [StringItem.text, List.foldl_cons, List.foldl_nil, backslash, letters, first,
        second, third, fourth]
    · simp only [StringItem.text, outsideStrings, backslash, letters, first, second, third]
    · simp only [StringItem.text, List.forall_mem_cons]
      exact ⟨by decide, by decide, firstPrints, secondPrints, thirdPrints, fourthPrints,
        List.forall_mem_nil _⟩

theorem quoted (items : List StringItem) : Neat (quotedText items) := by
  have inside : ∀ items : List StringItem,
      (items.flatMap StringItem.text ++ ['"']).foldl Place.next .string = .outside ∧
      outsideStrings .string (items.flatMap StringItem.text ++ ['"']) = [] ∧
      ∀ char ∈ items.flatMap StringItem.text ++ ['"'], 0x20 ≤ char.toNat := by
    intro items
    induction items with
    | nil => exact ⟨rfl, rfl, printable_of_all rfl⟩
    | cons first items ih =>
      obtain ⟨closed, nothing, printable⟩ := ih
      obtain ⟨opened, silent, prints⟩ := item first
      rw [List.flatMap_cons, List.append_assoc]
      refine ⟨?_, ?_, ?_⟩
      · rw [List.foldl_append, opened, closed]
      · rw [outsideStrings_append, silent, opened, nothing]
        rfl
      · intro char among
        rcases List.mem_append.mp among with here | behind
        · exact prints char here
        · exact printable char behind
  obtain ⟨closed, nothing, printable⟩ := inside items
  refine ⟨closed, ?_, List.forall_mem_cons.mpr ⟨by decide, printable⟩⟩
  intro char among
  have quote : outsideStrings .outside (quotedText items) =
      '"' :: outsideStrings .string (items.flatMap StringItem.text ++ ['"']) := rfl
  rw [quote, nothing] at among
  rw [List.mem_singleton.mp among]
  rfl

theorem separated {texts : List (List Char)} (each : ∀ text ∈ texts, Neat text) :
    Neat (commaSeparated texts) := by
  have comma : Neat [','] := plain (by decide)
  cases texts with
  | nil => exact nil
  | cons text texts =>
    obtain ⟨first, others⟩ := List.forall_mem_cons.mp each
    rw [commaSeparated_cons]
    apply first.append
    induction texts with
    | nil => exact nil
    | cons next rest ih =>
      obtain ⟨here, others⟩ := List.forall_mem_cons.mp others
      have behind := ih (List.forall_mem_cons.mpr ⟨first, others⟩) others
      exact (comma.append here).append behind

end Neat

/-! ## The grammar without whitespace -/

/-- The text of a JSON value without whitespace. -/
inductive Compact : List Char → Json → Prop where
  | null : Compact ['n', 'u', 'l', 'l'] .null
  | trueText : Compact ['t', 'r', 'u', 'e'] (.bool true)
  | falseText : Compact ['f', 'a', 'l', 's', 'e'] (.bool false)
  | number (literal : Literal) : Compact literal.text (.number literal)
  | string (items : List StringItem) : Compact (quotedText items) (.string items)
  | array {parts : List (List Char × Json)} (spelled : ∀ part ∈ parts, Compact part.1 part.2) :
      Compact ('[' :: commaSeparated (parts.map Prod.fst) ++ [']']) (.array (parts.map Prod.snd))
  | object {members : List (List StringItem × List Char × Json)}
      (spelled : ∀ member ∈ members, Compact member.2.1 member.2.2) :
      Compact ('{' :: commaSeparated (members.map fun (name, text, _) =>
          quotedText name ++ ':' :: text) ++ ['}'])
        (.object (members.map fun (name, _, json) => (name, json)))

namespace Compact

theorem spells {text : List Char} {json : Json} (compact : Compact text json) :
    Spells text json := by
  induction compact with
  | null => exact .null
  | trueText => exact .trueText
  | falseText => exact .falseText
  | number literal => exact .number literal
  | string items => exact .string items
  | @array parts _ ih =>
    cases parts with
    | nil => exact .emptyArray Blank.nil
    | cons first rest =>
      let element (part : List Char × Json) : Element := ⟨[], part.1, part.2, []⟩
      have filled : (first :: rest).map element ≠ [] := List.cons_ne_nil _ _
      have whole := Spells.array filled
        (List.forall_mem_map.mpr fun _ _ => Blank.both) (List.forall_mem_map.mpr ih)
      have padded : Element.padded ∘ element = Prod.fst := by
        funext part
        exact List.append_nil part.1
      rwa [List.map_map, List.map_map, padded] at whole
  | @object members _ ih =>
    cases members with
    | nil => exact .emptyObject Blank.nil
    | cons first rest =>
      let member (part : List StringItem × List Char × Json) : Member :=
        ⟨[], part.1, [], ⟨[], part.2.1, part.2.2, []⟩⟩
      have filled : (first :: rest).map member ≠ [] := List.cons_ne_nil _ _
      have whole := Spells.object filled
        (List.forall_mem_map.mpr fun _ _ => ⟨Blank.nil, Blank.nil, Blank.nil, Blank.nil⟩)
        (List.forall_mem_map.mpr ih)
      have padded : Member.padded ∘ member = fun (name, text, _) =>
          quotedText name ++ ':' :: text := by
        funext ⟨name, text, json⟩
        simp [member, Member.padded, Element.padded]
      rwa [List.map_map, List.map_map, padded] at whole

theorem neat {text : List Char} {json : Json} (compact : Compact text json) : Neat text := by
  induction compact with
  | null | trueText | falseText => exact Neat.plain (by decide)
  | number literal => exact Neat.literal literal
  | string items => exact Neat.quoted items
  | array _ ih =>
    have opening : Neat ['['] := Neat.plain (by decide)
    have closing : Neat [']'] := Neat.plain (by decide)
    exact (opening.append (Neat.separated (List.forall_mem_map.mpr ih))).append closing
  | object _ ih =>
    have opening : Neat ['{'] := Neat.plain (by decide)
    have colon : Neat [':'] := Neat.plain (by decide)
    have closing : Neat ['}'] := Neat.plain (by decide)
    refine (opening.append (Neat.separated (List.forall_mem_map.mpr ?_))).append closing
    intro member among
    exact (Neat.quoted member.1).append (colon.append (ih member among))

end Compact

/-! ## What is written -/

variable {schema : Schema} {limit : Option Nat} {depth : Nat}

def SpellsOut (part : Except GenerateError Transcript) : Prop :=
  ∀ bytes, part = .ok (whole bytes) → ∃ text json, bytes = Utf8.encode text ∧ Compact text json

theorem spellsOut_pushed {text : Transcript}
    (inside : ∀ bytes, text = whole bytes → ∃ chars json, bytes = Utf8.encode chars ∧
      Compact chars json) : SpellsOut (pushed limit depth text) := by
  intro bytes begins
  apply inside
  cases limit with
  | none => exact Except.ok.inj begins
  | some most =>
    rw [pushed] at begins
    split at begins
    · cases begins
    · exact Except.ok.inj begins

theorem spellsOut_token {text : List Char} {json : Json} (compact : Compact text json) :
    SpellsOut (pushed limit depth (whole (Utf8.encode text))) := by
  apply spellsOut_pushed
  intro bytes same
  cases same
  exact ⟨text, json, rfl, compact⟩

theorem Transcript.bracketed_eq_whole {opening closing : UInt8} {inside : Transcript}
    {bytes : List UInt8}
    (isWhole : whole [opening] ++ (inside ++ whole [closing]) = whole bytes) :
    ∃ inner, inside = whole inner ∧ bytes = opening :: (inner ++ [closing]) := by
  obtain ⟨_, back, isOpening, more, rfl⟩ := append_eq_whole isWhole
  obtain ⟨inner, _, here, isClosing, rfl⟩ := append_eq_whole more
  cases isOpening
  cases isClosing
  exact ⟨inner, here, rfl⟩

theorem Transcript.separated_eq_whole {α : Type} {render : α → List Char} {Good : α → Prop}
    {texts : List Transcript}
    (each : ∀ text ∈ texts, ∀ bytes, text = whole bytes →
      ∃ part, Good part ∧ bytes = Utf8.encode (render part))
    {bytes : List UInt8} (isWhole : separated texts = whole bytes) :
    ∃ parts : List α, parts.length = texts.length ∧ (∀ part ∈ parts, Good part) ∧
      bytes = Utf8.encode (commaSeparated (parts.map render)) := by
  induction texts generalizing bytes with
  | nil =>
    cases isWhole
    exact ⟨[], rfl, nofun, rfl⟩
  | cons text texts ih =>
    obtain ⟨first, others⟩ := List.forall_mem_cons.mp each
    cases texts with
    | nil =>
      obtain ⟨part, good, rfl⟩ := first bytes isWhole
      exact ⟨[part], rfl, List.forall_mem_cons.mpr ⟨good, nofun⟩, rfl⟩
    | cons next rest =>
      obtain ⟨front, behind, here, led, rfl⟩ := append_eq_whole isWhole
      obtain ⟨_, back, isComma, more, rfl⟩ := append_eq_whole led
      cases isComma
      obtain ⟨part, good, rfl⟩ := first front here
      obtain ⟨parts, length, goods, rfl⟩ := ih others more
      refine ⟨part :: parts, congrArg Nat.succ length, List.forall_mem_cons.mpr ⟨good, goods⟩, ?_⟩
      cases parts with
      | nil => cases length
      | cons second parts =>
        simp only [List.map_cons, commaSeparated, Utf8.encode_append, Utf8.encode_cons]
        rfl

theorem separated_of_items {item : Shape} {items : List Value} {text : Transcript}
    {bytes : List UInt8}
    (isWhole : text ++ itemsTranscript schema limit depth item [comma] items = whole bytes) :
    separated (text :: items.map fun value =>
      led [] (value.transcript schema limit depth item)) = whole bytes := by
  induction items generalizing text bytes with
  | nil => rwa [itemsTranscript, append_whole_nil] at isWhole
  | cons value rest ih =>
    rw [itemsTranscript] at isWhole
    obtain ⟨front, behind, rfl, more, rfl⟩ := append_eq_whole isWhole
    obtain ⟨_, back, here, behind, rfl⟩ := append_eq_whole more
    obtain ⟨inner, begins, rfl⟩ := led_eq_whole here
    have others : separated (led [] (value.transcript schema limit depth item) ::
        rest.map fun value => led [] (value.transcript schema limit depth item)) =
          whole (inner ++ back) := by
      apply ih
      rw [begins, behind]
      rfl
    rw [List.map_cons, separated, others, whole_append_whole, whole_append_whole]
    simp only [List.append_assoc]

theorem spellsOut_items {item : Shape} {items : List Value}
    (each : ∀ value ∈ items, SpellsOut (value.transcript schema limit depth item))
    {bytes : List UInt8}
    (isWhole : itemsTranscript schema limit depth item [] items = whole bytes) :
    ∃ parts : List (List Char × Json), (∀ part ∈ parts, Compact part.1 part.2) ∧
      bytes = Utf8.encode (commaSeparated (parts.map Prod.fst)) := by
  cases items with
  | nil =>
    rw [itemsTranscript] at isWhole
    cases isWhole
    exact ⟨[], List.forall_mem_nil _, rfl⟩
  | cons first rest =>
    rw [itemsTranscript] at isWhole
    have parts : ∀ text ∈ (first :: rest).map fun value =>
          led [] (value.transcript schema limit depth item), ∀ bytes, text = whole bytes →
        ∃ part : List Char × Json, Compact part.1 part.2 ∧ bytes = Utf8.encode part.1 := by
      intro text among bytes same
      obtain ⟨value, inside, rfl⟩ := List.mem_map.mp among
      obtain ⟨_, begins, rfl⟩ := led_eq_whole same
      obtain ⟨chars, json, spelled, compact⟩ := each value inside _ begins
      exact ⟨(chars, json), compact, spelled⟩
    obtain ⟨parts, -, compact, same⟩ := separated_eq_whole parts (separated_of_items isWhole)
    exact ⟨parts, compact, same⟩

theorem spellsOut_members {members : List (String × Shape × Value)}
    (each : ∀ member ∈ members, SpellsOut (member.2.2.transcript schema limit depth member.2.1))
    {bytes : List UInt8}
    (isWhole : separated (members.map (memberTranscript schema limit depth)) = whole bytes) :
    ∃ parts : List (List StringItem × List Char × Json),
      (∀ part ∈ parts, Compact part.2.1 part.2.2) ∧
      bytes = Utf8.encode (commaSeparated (parts.map fun (name, text, _) =>
        quotedText name ++ ':' :: text)) := by
  have parts : ∀ text ∈ members.map (memberTranscript schema limit depth), ∀ bytes,
      text = whole bytes → ∃ part : List StringItem × List Char × Json,
        Compact part.2.1 part.2.2 ∧
          bytes = Utf8.encode (quotedText part.1 ++ ':' :: part.2.1) := by
    intro text among bytes same
    obtain ⟨⟨name, shape, value⟩, inside, rfl⟩ := List.mem_map.mp among
    obtain ⟨front, back, isName, behind, rfl⟩ := append_eq_whole same
    obtain ⟨inner, begins, rfl⟩ := led_eq_whole behind
    obtain ⟨chars, json, rfl, compact⟩ := each _ inside inner begins
    cases isName
    refine ⟨(writtenItems name, chars, json), compact, ?_⟩
    rw [Utf8.encode_append, encode_quoted_writtenItems]
    rfl
  obtain ⟨parts, -, compact, same⟩ := separated_eq_whole parts isWhole
  exact ⟨parts, compact, same⟩

theorem HasShape.spellsOut {shape : Shape} {value : Value} (typed : HasShape schema shape value)
    (limit : Option Nat) (depth : Nat) :
    SpellsOut (value.transcript schema limit depth shape) := by
  induction typed generalizing depth with
  | null | absent item =>
    rw [Value.transcript.eq_def]
    exact spellsOut_token .null
  | bool value =>
    rw [Value.transcript.eq_def]
    cases value with
    | true => exact spellsOut_token .trueText
    | false => exact spellsOut_token .falseText
  | string text =>
    rw [Value.transcript.eq_def]
    simp only [Shape.unbox, Transcript.quoted]
    rw [← encode_quoted_writtenItems]
    exact spellsOut_token (.string _)
  | @number type value typed =>
    rw [Value.transcript.eq_def]
    simp only [Shape.unbox]
    cases written : value.text? with
    | none => nofun
    | some text =>
      obtain ⟨literal, rfl, -⟩ := NumberValue.literal_of_text? written
      exact spellsOut_token (.number literal)
  | list typed ih =>
    rw [Value.transcript.eq_def]
    apply spellsOut_pushed
    intro bytes isWhole
    obtain ⟨inner, inside, rfl⟩ := bracketed_eq_whole isWhole
    obtain ⟨parts, compact, rfl⟩ := spellsOut_items (fun value among => ih value among _) inside
    refine ⟨_, _, ?_, .array compact⟩
    simp only [List.cons_append, Utf8.encode_cons, Utf8.encode_append]
    rfl
  | unset =>
    rw [Value.transcript.eq_def]
    nofun
  | held typed ih =>
    rw [Value.transcript.eq_def]
    exact ih depth
  | present typed ih =>
    rw [Value.transcript.eq_def]
    exact ih depth
  | @box item value typed ih =>
    rw [Value.transcript_box]
    exact ih depth
  | @object shape table members presence extras declared complete distinct typed ih =>
    rw [Value.transcript.eq_def]
    simp only [Schema.unbox_of_table? declared, declared, liveMembers_transcripts]
    apply spellsOut_pushed
    intro bytes isWhole
    obtain ⟨inner, inside, rfl⟩ := bracketed_eq_whole isWhole
    obtain ⟨parts, compact, rfl⟩ := spellsOut_members (fun member among => ih member among _) inside
    refine ⟨_, _, ?_, .object compact⟩
    simp only [List.cons_append, Utf8.encode_cons, Utf8.encode_append]
    rfl

end IncrementalJson
