import IncrementalJson.Proofs.Reading.Soundness

/-!
# A text has one meaning

Two trees that one text spells may differ in nothing but the case of a digit of
a unicode escape that is no letter, so they mean the same for every shape.  With
that the tree of a document settles what every parser makes of it, whether a
value or an error.
-/

set_option autoImplicit false

namespace IncrementalJson

open Ascii

/-! ## Strings -/

theorem HexDigit.value_of_char {digit digit' : HexDigit} (same : digit.char = digit'.char) :
    digit.value = digit'.value := by
  obtain ⟨byte, encoded, value⟩ := encode_hexDigit digit
  obtain ⟨byte', encoded', value'⟩ := encode_hexDigit digit'
  rw [same, encoded'] at encoded
  cases encoded
  rw [value'] at value
  exact Fin.ext (Option.some.inj value).symm

def HexDigit.lower (digit : HexDigit) : HexDigit := { digit with upper := false }

namespace StringItem

def folded : StringItem → StringItem
  | unit first second third fourth => unit first.lower second.lower third.lower fourth.lower
  | item => item

@[simp] theorem unit?_folded (item : StringItem) : item.folded.unit? = item.unit? := by
  cases item <;> rfl

theorem surrogatesPaired_folded (items : List StringItem) :
    surrogatesPaired (items.map folded) = surrogatesPaired items := by
  induction items using surrogatesPaired.induct with
  | case1 => rfl
  | case2 item rest plain ih =>
    rw [List.map_cons, surrogatesPaired.eq_def, surrogatesPaired.eq_def (item :: rest)]
    simp only [unit?_folded, plain, ih]
  | case3 item unit isUnit leading => simp [surrogatesPaired, isUnit, leading]
  | case4 item unit isUnit leading next rest trailing isTrailing ih =>
    simp [surrogatesPaired, isUnit, leading, isTrailing, ih]
  | case5 item unit isUnit leading next rest plain =>
    simp [surrogatesPaired, isUnit, leading, plain]
  | case6 item rest unit isUnit leading ih =>
    rw [List.map_cons, surrogatesPaired.eq_def, surrogatesPaired.eq_def (item :: rest)]
    simp only [unit?_folded, isUnit, leading, Bool.false_eq_true, if_false, ih]

theorem unescape_folded (items : List StringItem) :
    unescape (items.map folded) = unescape items := by
  induction items using unescape.induct with
  | case1 => rfl
  | case2 char unescaped rest ih => simpa [unescape, folded] using ih
  | case3 escape rest ih => simpa [unescape, folded] using ih
  | case4 first second third fourth unit leading => rfl
  | case5 first second third fourth unit leading next rest ih =>
    have value : unitValue first second third fourth = unit := rfl
    have lower : unitValue first.lower second.lower third.lower fourth.lower = unit := rfl
    rw [List.map_cons, List.map_cons, folded, unescape.eq_def,
      unescape.eq_def (.unit first second third fourth :: next :: rest)]
    simp only [value, lower, leading, if_true, ih, unit?_folded]
  | case6 first second third fourth rest unit leading ih =>
    have value : unitValue first second third fourth = unit := rfl
    have lower : unitValue first.lower second.lower third.lower fourth.lower = unit := rfl
    rw [List.map_cons, folded, unescape.eq_def,
      unescape.eq_def (.unit first second third fourth :: rest)]
    simp only [value, lower, leading, Bool.false_eq_true, if_false, ih]

theorem unique {item item' : StringItem} {rest rest' : List Char}
    (same : item.text ++ rest = item'.text ++ rest') :
    item.folded = item'.folded ∧ rest = rest' := by
  have notBackslash {char : Char} (unescaped : isUnescaped char) : char ≠ '\\' := by
    rintro rfl
    cases unescaped
  have letters : ∀ escape escape' : ShortEscape, escape.letter = escape'.letter →
      escape = escape' := by
    intro escape escape' same
    cases escape <;> cases escape' <;> first | rfl | exact absurd same (by decide)
  have notU : ∀ escape : ShortEscape, escape.letter ≠ 'u' := by
    intro escape
    cases escape <;> decide
  cases item with
  | plain char unescaped =>
    cases item' with
    | plain char' unescaped' =>
      obtain ⟨rfl, more⟩ := List.cons.inj same
      exact ⟨rfl, more⟩
    | short escape' => exact absurd (List.cons.inj same).1 (notBackslash unescaped)
    | unit => exact absurd (List.cons.inj same).1 (notBackslash unescaped)
  | short escape =>
    cases item' with
    | plain char' unescaped' =>
      exact absurd (List.cons.inj same).1.symm (notBackslash unescaped')
    | short escape' =>
      obtain ⟨letter, same⟩ := List.cons.inj (List.cons.inj same).2
      rw [letters _ _ letter]
      exact ⟨rfl, same⟩
    | unit => exact absurd (List.cons.inj (List.cons.inj same).2).1 (notU escape)
  | unit first second third fourth =>
    cases item' with
    | plain char' unescaped' =>
      exact absurd (List.cons.inj same).1.symm (notBackslash unescaped')
    | short escape' =>
      exact absurd (List.cons.inj (List.cons.inj same).2).1.symm (notU escape')
    | unit first' second' third' fourth' =>
      simp only [text, List.cons_append, List.nil_append, List.cons.injEq, true_and] at same
      obtain ⟨one, two, three, four, same⟩ := same
      simp only [folded, HexDigit.lower, HexDigit.value_of_char one, HexDigit.value_of_char two,
        HexDigit.value_of_char three, HexDigit.value_of_char four, same, and_self]

theorem text_ne_quote (item : StringItem) (rest rest' : List Char) :
    item.text ++ rest ≠ '"' :: rest' := by
  cases item with
  | plain char unescaped =>
    intro same
    obtain ⟨rfl, -⟩ := List.cons.inj same
    cases unescaped
  | short | unit => exact fun same => absurd (List.cons.inj same).1 (by decide)

end StringItem

theorem textOf?_folded (items : List StringItem) :
    textOf? (items.map StringItem.folded) = textOf? items := by
  rw [textOf?, textOf?, StringItem.surrogatesPaired_folded, StringItem.unescape_folded]

theorem items_unique {items items' : List StringItem} {rest rest' : List Char}
    (same : items.flatMap StringItem.text ++ '"' :: rest =
      items'.flatMap StringItem.text ++ '"' :: rest') :
    items.map StringItem.folded = items'.map StringItem.folded ∧ rest = rest' := by
  induction items generalizing items' with
  | nil =>
    cases items' with
    | nil => exact ⟨rfl, (List.cons.inj same).2⟩
    | cons item' more' =>
      rw [List.flatMap_cons, List.append_assoc] at same
      exact absurd same.symm (item'.text_ne_quote _ _)
  | cons item more ih =>
    cases items' with
    | nil =>
      rw [List.flatMap_cons, List.append_assoc] at same
      exact absurd same (item.text_ne_quote _ _)
    | cons item' more' =>
      rw [List.flatMap_cons, List.flatMap_cons, List.append_assoc, List.append_assoc] at same
      obtain ⟨first, same⟩ := StringItem.unique same
      obtain ⟨later, same⟩ := ih same
      exact ⟨by rw [List.map_cons, List.map_cons, first, later], same⟩

/-- What strings in quotes stand for can be told from the text. -/
theorem textOf?_unique {items items' : List StringItem} {rest rest' : List Char}
    (same : quotedText items ++ rest = quotedText items' ++ rest') :
    textOf? items = textOf? items' ∧ rest = rest' := by
  simp only [quotedText, List.cons_append, List.append_assoc, List.nil_append, List.cons.injEq,
    true_and] at same
  obtain ⟨alike, same⟩ := items_unique same
  refine ⟨?_, same⟩
  rw [← textOf?_folded items, alike, textOf?_folded]

/-! ## Numbers -/

/-- The digits of a number end where no digit follows. -/
theorem Literal.unique {literal literal' : Literal} {rest rest' : List UInt8}
    (same : literal.bytes ++ rest = literal'.bytes ++ rest') (delimits : Delimits rest)
    (delimits' : Delimits rest') :
    (∀ type, literal.readAs type = literal'.readAs type) ∧ rest = rest' := by
  obtain ⟨text, offset, scanned, bytes⟩ :=
    NumberLexer.scan_literal literal 0 (delimits.stops literal)
  obtain ⟨text', offset', scanned', bytes'⟩ :=
    NumberLexer.scan_literal literal' 0 (delimits'.stops literal')
  rw [same, scanned'] at scanned
  simp only [Except.ok.injEq, NumberScan.mk.injEq, Input.mk.injEq] at scanned
  obtain ⟨lexer, rfl, ⟨rfl, -⟩, -⟩ := scanned
  refine ⟨fun type => ?_, rfl⟩
  rw [← type.read_literal, ← type.read_literal, ← bytes, ← bytes', lexer]

/-! ## What trees mean -/

namespace Json

def meaning (json : Json) (schema : Schema) (shape : Shape) : Option Value :=
  json.readAs schema shape

/-- What a member means: its name, if that can be read, and its value. -/
def memberMeaning (member : List StringItem × Json) :
    Option String × (Schema → Shape → Option Value) :=
  (textOf? member.1, member.2.meaning)

theorem readItems_congr (schema : Schema) (item : Shape) {items items' : List Json}
    (alike : items.map meaning = items'.map meaning) :
    readItems schema item items = readItems schema item items' := by
  induction items generalizing items' with
  | nil =>
    cases items' with
    | nil => rfl
    | cons json' rest' => cases alike
  | cons json rest ih =>
    cases items' with
    | nil => cases alike
    | cons json' rest' =>
      obtain ⟨first, later⟩ := List.cons.inj alike
      have first : json.readAs schema item = json'.readAs schema item :=
        congrFun (congrFun first schema) item
      rw [readItems, readItems, first, ih later]

theorem readMembers_congr (schema : Schema) (table : Table)
    {members members' : List (List StringItem × Json)}
    (alike : members.map memberMeaning = members'.map memberMeaning) (read : MembersRead) :
    readMembers schema table members read = readMembers schema table members' read := by
  induction members generalizing members' read with
  | nil =>
    cases members' with
    | nil => rfl
    | cons member' rest' => cases alike
  | cons member rest ih =>
    cases members' with
    | nil => cases alike
    | cons member' rest' =>
      obtain ⟨name, json⟩ := member
      obtain ⟨name', json'⟩ := member'
      obtain ⟨first, later⟩ := List.cons.inj alike
      obtain ⟨named, means⟩ := Prod.mk.inj first
      have means (shape : Shape) : json.readAs schema shape = json'.readAs schema shape :=
        congrFun (congrFun means schema) shape
      have named : textOf? name = textOf? name' := named
      simp only [readMembers, named, means, ih later]

theorem meaning_array {items items' : List Json}
    (alike : items.map meaning = items'.map meaning) :
    (array items).meaning = (array items').meaning := by
  funext schema shape
  have held : (array items).innerShape shape = (array items').innerShape shape := rfl
  simp only [meaning, readAs, held, readItems_congr schema _ alike]

theorem meaning_object {members members' : List (List StringItem × Json)}
    (alike : members.map memberMeaning = members'.map memberMeaning) :
    (object members).meaning = (object members').meaning := by
  funext schema shape
  have held : (object members).innerShape shape = (object members').innerShape shape := rfl
  simp only [meaning, readAs, held, readMembers_congr schema _ alike]

end Json

/-! ## Arrays and objects -/

/-- What stands between brackets: nothing but whitespace, or parts with commas between them. -/
def Enclosed {α : Type} (padded : α → List Char) (inside : List Char) (parts : List α) : Prop :=
  parts = [] ∧ Blank inside ∨ parts ≠ [] ∧ inside = commaSeparated (parts.map padded)

structure ArrayText (text : List Char) (elements : List Element) : Prop where
  blank : ∀ element ∈ elements, Blank element.before ∧ Blank element.after
  spelled : ∀ element ∈ elements, Spells element.text element.json
  brackets : ∃ inside, text = '[' :: inside ++ [']'] ∧ Enclosed Element.padded inside elements

structure ObjectText (text : List Char) (members : List Member) : Prop where
  blank : ∀ member ∈ members, Blank member.beforeName ∧ Blank member.afterName ∧
    Blank member.value.before ∧ Blank member.value.after
  spelled : ∀ member ∈ members, Spells member.value.text member.value.json
  braces : ∃ inside, text = '{' :: inside ++ ['}'] ∧ Enclosed Member.padded inside members

def Member.named (member : Member) : List StringItem × Json := (member.name, member.value.json)

theorem spells_array_iff {text : List Char} {items : List Json} :
    Spells text (.array items) ↔
      ∃ elements, ArrayText text elements ∧ items = elements.map Element.json := by
  constructor
  · intro spells
    cases spells with
    | emptyArray isBlank => exact ⟨[], ⟨nofun, nofun, _, rfl, .inl ⟨rfl, isBlank⟩⟩, rfl⟩
    | array filled blank spelled =>
      exact ⟨_, ⟨blank, spelled, _, rfl, .inr ⟨filled, rfl⟩⟩, rfl⟩
  · rintro ⟨elements, ⟨blank, spelled, inside, rfl, ⟨rfl, isBlank⟩ | ⟨filled, rfl⟩⟩, rfl⟩
    · exact .emptyArray isBlank
    · exact .array filled blank spelled

theorem spells_object_iff {text : List Char} {named : List (List StringItem × Json)} :
    Spells text (.object named) ↔
      ∃ members, ObjectText text members ∧ named = members.map Member.named := by
  constructor
  · intro spells
    cases spells with
    | emptyObject isBlank => exact ⟨[], ⟨nofun, nofun, _, rfl, .inl ⟨rfl, isBlank⟩⟩, rfl⟩
    | object filled blank spelled =>
      exact ⟨_, ⟨blank, spelled, _, rfl, .inr ⟨filled, rfl⟩⟩, rfl⟩
  · rintro ⟨members, ⟨blank, spelled, inside, rfl, ⟨rfl, isBlank⟩ | ⟨filled, rfl⟩⟩, rfl⟩
    · exact .emptyObject isBlank
    · exact .object filled blank spelled

/-! ## Where a text ends -/

def Solid (text : List Char) : Prop := ∃ char rest, text = char :: rest ∧ isBlank char = false

theorem blank_unique {blank blank' text text' : List Char} (isBlank : Blank blank)
    (isBlank' : Blank blank') (solid : Solid text) (solid' : Solid text')
    (same : blank ++ text = blank' ++ text') : text = text' := by
  induction blank generalizing blank' with
  | nil =>
    cases blank' with
    | nil => exact same
    | cons char rest =>
      obtain ⟨char, rest, rfl, notBlank⟩ := solid
      obtain ⟨rfl, -⟩ := List.cons.inj same
      rw [isBlank'.cons.1] at notBlank
      cases notBlank
  | cons char rest ih =>
    cases blank' with
    | nil =>
      obtain ⟨char, rest, rfl, notBlank⟩ := solid'
      obtain ⟨rfl, -⟩ := List.cons.inj same
      rw [isBlank.cons.1] at notBlank
      cases notBlank
    | cons char' rest' =>
      exact ih isBlank.cons.2 isBlank'.cons.2 (List.cons.inj same).2

def Closes (text : List Char) : Prop :=
  ∃ char rest, text = char :: rest ∧ (char = ',' ∨ char = ']' ∨ char = '}')

theorem Closes.solid {text : List Char} (closes : Closes text) : Solid text := by
  obtain ⟨char, rest, rfl, rfl | rfl | rfl⟩ := closes <;> exact ⟨_, _, rfl, rfl⟩

theorem Closes.delimits {text : List Char} (closes : Closes text) :
    Delimits (Utf8.encode text) := by
  obtain ⟨char, rest, rfl, rfl | rfl | rfl⟩ := closes
  · exact .inr (.inl rfl)
  · exact .inr (.inr (.inl rfl))
  · exact .inr (.inr (.inr rfl))

theorem Spells.solid {text : List Char} {json : Json} (spells : Spells text json)
    (rest : List Char) : Solid (text ++ rest) := by
  obtain ⟨byte, bytes, encoded, notSpace, -⟩ := spells.first
  cases text with
  | nil => cases encoded
  | cons char more =>
    refine ⟨char, more ++ rest, rfl, Bool.eq_false_iff.mpr fun blank => ?_⟩
    obtain ⟨space, isSpace, spaces⟩ := encodeChar_blank blank
    rw [Utf8.encode_cons, isSpace] at encoded
    obtain ⟨rfl, -⟩ := List.cons.inj encoded
    rw [spaces] at notSpace
    cases notSpace

/-- The kind of a value can be told from the first byte of its text. -/
theorem Spells.heldShape_unique {text text' : List Char} {json json' : Json}
    (spells : Spells text json) (spells' : Spells text' json') {rest rest' : List Char}
    (same : text ++ rest = text' ++ rest') : json.heldShape = json'.heldShape := by
  obtain ⟨byte, bytes, encoded, -, held, -⟩ := spells.first
  obtain ⟨byte', bytes', encoded', -, held', -⟩ := spells'.first
  have same := congrArg Utf8.encode same
  rw [Utf8.encode_append, Utf8.encode_append, encoded, encoded'] at same
  obtain ⟨rfl, -⟩ := List.cons.inj same
  rw [held] at held'
  exact Option.some.inj held'

/-- Whatever a text at the same place spells, it ends where this one ends and means the
same. -/
def Decided (text : List Char) (json : Json) : Prop :=
  ∀ text' json' rest rest', Spells text' json' → text ++ rest = text' ++ rest' →
    Delimits (Utf8.encode rest) → Delimits (Utf8.encode rest') →
      json.meaning = json'.meaning ∧ rest = rest'

theorem Element.unique {element element' : Element} (decided : Decided element.text element.json)
    (spells : Spells element.text element.json) (spells' : Spells element'.text element'.json)
    (blank : Blank element.before ∧ Blank element.after)
    (blank' : Blank element'.before ∧ Blank element'.after) {rest rest' : List Char}
    (closes : Closes rest) (closes' : Closes rest')
    (same : element.padded ++ rest = element'.padded ++ rest') :
    element.json.meaning = element'.json.meaning ∧ rest = rest' := by
  simp only [Element.padded, List.append_assoc] at same
  have same := blank_unique blank.1 blank'.1 (spells.solid _) (spells'.solid _) same
  have ends {after rest : List Char} (blank : Blank after) (closes : Closes rest) :
      Delimits (Utf8.encode (after ++ rest)) := by
    rw [Utf8.encode_append]
    exact closes.delimits.blank_append blank
  obtain ⟨means, same⟩ :=
    decided _ _ _ _ spells' same (ends blank.2 closes) (ends blank'.2 closes')
  exact ⟨means, blank_unique blank.2 blank'.2 closes.solid closes'.solid same⟩

theorem Member.unique {member member' : Member}
    (decided : Decided member.value.text member.value.json)
    (spells : Spells member.value.text member.value.json)
    (spells' : Spells member'.value.text member'.value.json)
    (blank : Blank member.beforeName ∧ Blank member.afterName ∧
      Blank member.value.before ∧ Blank member.value.after)
    (blank' : Blank member'.beforeName ∧ Blank member'.afterName ∧
      Blank member'.value.before ∧ Blank member'.value.after) {rest rest' : List Char}
    (closes : Closes rest) (closes' : Closes rest')
    (same : member.padded ++ rest = member'.padded ++ rest') :
    Json.memberMeaning member.named = Json.memberMeaning member'.named ∧ rest = rest' := by
  simp only [Member.padded, List.append_assoc, List.cons_append] at same
  have quoted (name : List StringItem) (rest : List Char) : Solid (quotedText name ++ rest) :=
    ⟨_, _, rfl, rfl⟩
  have colon (rest : List Char) : Solid (':' :: rest) := ⟨_, _, rfl, rfl⟩
  have same := blank_unique blank.1 blank'.1 (quoted _ _) (quoted _ _) same
  obtain ⟨name, same⟩ := textOf?_unique same
  have same := blank_unique blank.2.1 blank'.2.1 (colon _) (colon _) same
  obtain ⟨means, same⟩ := Element.unique decided spells spells' blank.2.2 blank'.2.2 closes
    closes' (List.cons.inj same).2
  exact ⟨Prod.ext name means, same⟩

section Separated

variable {α μ : Type} {padded : α → List Char} {means : α → μ} {close : Char}

/-- Parts at one place end at one place and mean the same. -/
def PartsUnique (padded : α → List Char) (means : α → μ) (parts parts' : List α) : Prop :=
  ∀ part ∈ parts, ∀ part' ∈ parts', ∀ rest rest', Closes rest → Closes rest' →
    padded part ++ rest = padded part' ++ rest' → means part = means part' ∧ rest = rest'

theorem PartsUnique.tail {part part' : α} {more more' : List α}
    (unique : PartsUnique padded means (part :: more) (part' :: more')) :
    PartsUnique padded means more more' := fun part among part' among' =>
  unique part (List.mem_cons_of_mem _ among) part' (List.mem_cons_of_mem _ among')

theorem closes_commaLed (isClose : close = ']' ∨ close = '}') (texts : List (List Char))
    (rest : List Char) : Closes (commaLed texts ++ close :: rest) := by
  cases texts with
  | nil => exact ⟨close, rest, rfl, .inr isClose⟩
  | cons text more => exact ⟨',', _, rfl, .inl rfl⟩

theorem commaLed_unique (isClose : close = ']' ∨ close = '}') {parts parts' : List α}
    (unique : PartsUnique padded means parts parts')
    {rest rest' : List Char}
    (same : commaLed (parts.map padded) ++ close :: rest =
      commaLed (parts'.map padded) ++ close :: rest') :
    parts.map means = parts'.map means ∧ rest = rest' := by
  have notComma : close ≠ ',' := by rcases isClose with rfl | rfl <;> decide
  have led (part : α) (more : List α) (rest : List Char) :
      commaLed ((part :: more).map padded) ++ close :: rest =
        ',' :: (padded part ++ (commaLed (more.map padded) ++ close :: rest)) := by
    simp [commaLed]
  induction parts generalizing parts' with
  | nil =>
    cases parts' with
    | nil => exact ⟨rfl, (List.cons.inj same).2⟩
    | cons part' more' =>
      rw [led] at same
      exact absurd (List.cons.inj same).1 notComma
  | cons part more ih =>
    cases parts' with
    | nil =>
      rw [led] at same
      exact absurd (List.cons.inj same).1.symm notComma
    | cons part' more' =>
      rw [led, led] at same
      obtain ⟨first, same⟩ := unique part List.mem_cons_self part' List.mem_cons_self _ _
        (closes_commaLed isClose _ _) (closes_commaLed isClose _ _) (List.cons.inj same).2
      obtain ⟨later, same⟩ := ih unique.tail same
      exact ⟨by rw [List.map_cons, List.map_cons, first, later], same⟩

theorem commaSeparated_unique (isClose : close = ']' ∨ close = '}') {parts parts' : List α}
    (filled : parts ≠ []) (filled' : parts' ≠ [])
    (unique : PartsUnique padded means parts parts')
    {rest rest' : List Char}
    (same : commaSeparated (parts.map padded) ++ close :: rest =
      commaSeparated (parts'.map padded) ++ close :: rest') :
    parts.map means = parts'.map means ∧ rest = rest' := by
  cases parts with
  | nil => exact absurd rfl filled
  | cons part more =>
    cases parts' with
    | nil => exact absurd rfl filled'
    | cons part' more' =>
      rw [List.map_cons, List.map_cons, commaSeparated_cons, commaSeparated_cons,
        List.append_assoc, List.append_assoc] at same
      obtain ⟨first, same⟩ := unique part List.mem_cons_self part' List.mem_cons_self _ _
        (closes_commaLed isClose _ _) (closes_commaLed isClose _ _) same
      obtain ⟨later, same⟩ := commaLed_unique isClose unique.tail same
      exact ⟨by rw [List.map_cons, List.map_cons, first, later], same⟩

/-- Parts between brackets can be told from the text, if none begins with the closing one. -/
theorem Enclosed.unique (isClose : close = ']' ∨ close = '}') {parts parts' : List α}
    {inside inside' : List Char} (enclosed : Enclosed padded inside parts)
    (enclosed' : Enclosed padded inside' parts')
    (opens : ∀ part, part ∈ parts ∨ part ∈ parts' → ∀ blank rest rest', Blank blank →
      blank ++ close :: rest ≠ padded part ++ rest')
    (unique : PartsUnique padded means parts parts')
    {rest rest' : List Char} (same : inside ++ close :: rest = inside' ++ close :: rest') :
    parts.map means = parts'.map means ∧ rest = rest' := by
  rcases enclosed with ⟨rfl, isBlank⟩ | ⟨filled, rfl⟩
  · rcases enclosed' with ⟨rfl, isBlank'⟩ | ⟨filled', rfl⟩
    · have solid (rest : List Char) : Solid (close :: rest) :=
        Closes.solid ⟨close, rest, rfl, .inr isClose⟩
      have same := blank_unique isBlank isBlank' (solid _) (solid _) same
      exact ⟨rfl, (List.cons.inj same).2⟩
    · obtain ⟨part, more, rfl⟩ := List.exists_cons_of_ne_nil filled'
      rw [List.map_cons, commaSeparated_cons, List.append_assoc] at same
      exact absurd same (opens part (.inr List.mem_cons_self) _ _ _ isBlank)
  · rcases enclosed' with ⟨rfl, isBlank'⟩ | ⟨filled', rfl⟩
    · obtain ⟨part, more, rfl⟩ := List.exists_cons_of_ne_nil filled
      rw [List.map_cons, commaSeparated_cons, List.append_assoc] at same
      exact absurd same.symm (opens part (.inl List.mem_cons_self) _ _ _ isBlank')
    · exact commaSeparated_unique isClose filled filled' unique same

end Separated

theorem ArrayText.unique {text text' : List Char} {elements elements' : List Element}
    (isArray : ArrayText text elements) (isArray' : ArrayText text' elements')
    (decided : ∀ element ∈ elements, Decided element.text element.json) {rest rest' : List Char}
    (same : text ++ rest = text' ++ rest') :
    (elements.map fun element => element.json.meaning) =
      (elements'.map fun element => element.json.meaning) ∧ rest = rest' := by
  obtain ⟨blank, spelled, inside, rfl, enclosed⟩ := isArray
  obtain ⟨blank', spelled', inside', rfl, enclosed'⟩ := isArray'
  simp only [List.cons_append, List.append_assoc, List.nil_append, List.cons.injEq,
    true_and] at same
  refine enclosed.unique (.inl rfl) enclosed' ?_ (fun element among element' among' _ _ =>
    Element.unique (decided element among) (spelled element among) (spelled' element' among')
      (blank element among) (blank' element' among')) same
  intro element among front rest rest' isBlank same
  have parts : Blank element.before ∧ Spells element.text element.json :=
    among.elim (fun among => ⟨(blank element among).1, spelled element among⟩)
      fun among => ⟨(blank' element among).1, spelled' element among⟩
  simp only [Element.padded, List.append_assoc] at same
  have same := blank_unique isBlank parts.1 ⟨_, _, rfl, rfl⟩ (parts.2.solid _) same
  obtain ⟨byte, bytes, encoded, -, held, -⟩ := parts.2.first
  have same := congrArg Utf8.encode same
  rw [Utf8.encode_append, encoded] at same
  obtain ⟨rfl, -⟩ := List.cons.inj same
  cases held

theorem ObjectText.unique {text text' : List Char} {members members' : List Member}
    (isObject : ObjectText text members) (isObject' : ObjectText text' members')
    (decided : ∀ member ∈ members, Decided member.value.text member.value.json)
    {rest rest' : List Char} (same : text ++ rest = text' ++ rest') :
    (members.map fun member => Json.memberMeaning member.named) =
      (members'.map fun member => Json.memberMeaning member.named) ∧ rest = rest' := by
  obtain ⟨blank, spelled, inside, rfl, enclosed⟩ := isObject
  obtain ⟨blank', spelled', inside', rfl, enclosed'⟩ := isObject'
  simp only [List.cons_append, List.append_assoc, List.nil_append, List.cons.injEq,
    true_and] at same
  refine enclosed.unique (.inr rfl) enclosed' ?_ (fun member among member' among' _ _ =>
    Member.unique (decided member among) (spelled member among) (spelled' member' among')
      (blank member among) (blank' member' among')) same
  intro member among front rest rest' isBlank same
  have beforeName : Blank member.beforeName :=
    among.elim (fun among => (blank member among).1) fun among => (blank' member among).1
  simp only [Member.padded, List.append_assoc] at same
  have same := blank_unique isBlank beforeName ⟨_, _, rfl, rfl⟩ ⟨_, _, rfl, rfl⟩ same
  exact absurd (List.cons.inj same).1 (by decide)

/-! ## Documents -/

theorem decided_number (literal : Literal) : Decided literal.text (.number literal) := by
  intro text' json' rest rest' spells' same delimits delimits'
  have kind := (Spells.number literal).heldShape_unique spells' same
  cases spells' with
  | number literal' =>
    have same := congrArg Utf8.encode same
    rw [Utf8.encode_append, Utf8.encode_append] at same
    obtain ⟨alike, same⟩ := Literal.unique same delimits delimits'
    refine ⟨?_, Utf8.encode_injective same⟩
    funext schema shape
    have held : (Json.number literal).innerShape shape = (Json.number literal').innerShape shape :=
      rfl
    simp only [Json.meaning, Json.readAs, held, alike]
  | _ => cases kind

theorem decided_string (items : List StringItem) : Decided (quotedText items) (.string items) := by
  intro text' json' rest rest' spells' same _ _
  have kind := (Spells.string items).heldShape_unique spells' same
  cases spells' with
  | string items' =>
    obtain ⟨alike, same⟩ := textOf?_unique same
    refine ⟨?_, same⟩
    funext schema shape
    have held : (Json.string items).innerShape shape = (Json.string items').innerShape shape := rfl
    simp only [Json.meaning, Json.readAs, held, alike]
  | _ => cases kind

theorem decided_array {text : List Char} {elements : List Element}
    (isArray : ArrayText text elements)
    (decided : ∀ element ∈ elements, Decided element.text element.json) :
    Decided text (.array (elements.map Element.json)) := by
  intro text' json' rest rest' spells' same _ _
  have kind := (spells_array_iff.mpr ⟨_, isArray, rfl⟩).heldShape_unique spells' same
  cases json' with
  | array items' =>
    obtain ⟨elements', isArray', rfl⟩ := spells_array_iff.mp spells'
    obtain ⟨alike, same⟩ := isArray.unique isArray' decided same
    exact ⟨Json.meaning_array (by simpa [Function.comp_def] using alike), same⟩
  | _ => cases kind

theorem decided_object {text : List Char} {members : List Member}
    (isObject : ObjectText text members)
    (decided : ∀ member ∈ members, Decided member.value.text member.value.json) :
    Decided text (.object (members.map Member.named)) := by
  intro text' json' rest rest' spells' same _ _
  have kind := (spells_object_iff.mpr ⟨_, isObject, rfl⟩).heldShape_unique spells' same
  cases json' with
  | object named' =>
    obtain ⟨members', isObject', rfl⟩ := spells_object_iff.mp spells'
    obtain ⟨alike, same⟩ := isObject.unique isObject' decided same
    exact ⟨Json.meaning_object (by simpa [Function.comp_def] using alike), same⟩
  | _ => cases kind

/-- A text spells one value, up to what makes no difference to its meaning. -/
theorem Spells.decided {text : List Char} {json : Json} (spells : Spells text json) :
    Decided text json := by
  induction spells with
  | null =>
    intro text' json' rest rest' spells' same _ _
    have kind := Spells.null.heldShape_unique spells' same
    cases spells' with
    | null => exact ⟨rfl, List.append_cancel_left same⟩
    | _ => cases kind
  | trueText =>
    intro text' json' rest rest' spells' same _ _
    have kind := Spells.trueText.heldShape_unique spells' same
    cases spells' with
    | trueText => exact ⟨rfl, List.append_cancel_left same⟩
    | falseText => exact absurd (List.cons.inj same).1 (by decide)
    | _ => cases kind
  | falseText =>
    intro text' json' rest rest' spells' same _ _
    have kind := Spells.falseText.heldShape_unique spells' same
    cases spells' with
    | falseText => exact ⟨rfl, List.append_cancel_left same⟩
    | trueText => exact absurd (List.cons.inj same).1 (by decide)
    | _ => cases kind
  | number literal => exact decided_number literal
  | string items => exact decided_string items
  | emptyArray isBlank =>
    have isArray : ArrayText _ [] :=
      ⟨List.forall_mem_nil _, List.forall_mem_nil _, _, rfl, .inl ⟨rfl, isBlank⟩⟩
    exact decided_array isArray (List.forall_mem_nil _)
  | array filled blank spelled ih =>
    exact decided_array ⟨blank, spelled, _, rfl, .inr ⟨filled, rfl⟩⟩ ih
  | emptyObject isBlank =>
    have isObject : ObjectText _ [] :=
      ⟨List.forall_mem_nil _, List.forall_mem_nil _, _, rfl, .inl ⟨rfl, isBlank⟩⟩
    exact decided_object isObject (List.forall_mem_nil _)
  | object filled blank spelled ih =>
    exact decided_object ⟨blank, spelled, _, rfl, .inr ⟨filled, rfl⟩⟩ ih

theorem Document.unique {text : List Char} {json json' : Json} (document : Document text json)
    (document' : Document text json') : json.meaning = json'.meaning := by
  obtain ⟨⟨before, text, json, after⟩, blank, blankAfter, spells, rfl, rfl⟩ := document
  obtain ⟨⟨before', text', json', after'⟩, blank', blankAfter', spells', same, rfl⟩ := document'
  simp only [Element.padded, List.append_assoc] at same
  have same := blank_unique blank blank' (spells.solid _) (spells'.solid _) same
  have ends {after : List Char} (blank : Blank after) : Delimits (Utf8.encode after) := by
    have delimits : Delimits [] := trivial
    simpa using delimits.blank_append blank
  exact (spells.decided _ _ _ _ spells' same (ends blankAfter) (ends blankAfter')).1

/-- A document is parsed to what its tree means for the shape, and is refused if that is
nothing. -/
theorem parse_document_eq_ok_iff (schema : Schema) (shape : Shape) {text : List Char}
    {json : Json} (document : Document text json) (value : Value) :
    parse schema shape (Utf8.encode text) = .ok value ↔
      json.readAs schema shape = some value := by
  rw [parse_eq_ok_iff]
  constructor
  · rintro ⟨text', json', same, document', means⟩
    obtain rfl := Utf8.encode_injective same
    have alike : json.meaning schema shape = json'.meaning schema shape := by
      rw [document.unique document']
    exact alike.trans means
  · exact fun means => ⟨text, json, rfl, document, means⟩

theorem Spells.document {text : List Char} {json : Json} (spells : Spells text json) :
    Document text json :=
  ⟨⟨[], text, json, []⟩, .nil, .nil, spells, by simp [Element.padded], rfl⟩

end IncrementalJson
