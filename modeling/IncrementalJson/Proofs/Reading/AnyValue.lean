import IncrementalJson.Proofs.Float.Literals
import IncrementalJson.Proofs.Grammar.Reference
import IncrementalJson.Proofs.Reading.Soundness

/-!
# Documents of any type

The parser of variants accepts exactly the JSON texts whose surrogates are paired
and whose numbers are finite, and gives the values of the reference reading.
-/

set_option autoImplicit false

namespace IncrementalJson

open Ascii

/-! ## Members -/

namespace Entries

variable {α : Type}

theorem without_insert_same (entries : Entries α) (name : String) (value : α) :
    (entries.insert name value).without name = entries.without name := by
  induction entries with
  | nil => simp [insert, without]
  | cons entry rest ih =>
    obtain ⟨key, old⟩ := entry
    by_cases same : key = name
    · simp [insert, without, same]
    · simp [insert, without, same, ih]

theorem without_insert (entries : Entries α) {name other : String} (differ : name ≠ other)
    (value : α) :
    (entries.insert name value).without other = (entries.without other).insert name value := by
  induction entries with
  | nil => simp [insert, without, differ]
  | cons entry rest ih =>
    obtain ⟨key, old⟩ := entry
    by_cases same : key = name
    · subst same
      simp [insert, without, differ]
    · by_cases dropped : key = other
      · simp [insert, without, dropped, Ne.symm differ, ih]
      · simp [insert, without, same, dropped, ih]

theorem merged_concat (pairs : List (String × α)) (name : String) (value : α) :
    merged (pairs ++ [(name, value)]) = (merged pairs).insert name value := by
  induction pairs with
  | nil => simp [merged, find?, insert, without]
  | cons pair rest ih =>
    obtain ⟨key, old⟩ := pair
    by_cases same : key = name
    · subst same
      simp only [List.cons_append, merged, ih, find?_insert, if_true, Option.getD_some, insert,
        without_insert_same]
    · simp only [List.cons_append, merged, ih, find?_insert, if_neg (Ne.symm same), insert,
        if_neg same, without_insert _ (Ne.symm same)]

/-- Taking members one after the other leaves each name where it came first, with the value
that came last. -/
theorem ofList_eq_merged (pairs : List (String × α)) : ofList pairs = merged pairs := by
  have reversed (pairs : List (String × α)) : ofList pairs.reverse = merged pairs.reverse := by
    induction pairs with
    | nil => rfl
    | cons pair rest ih =>
      rw [List.reverse_cons, merged_concat, ← ih, ofList, List.foldl_append]
      rfl
  rw [← pairs.reverse_reverse]
  exact reversed _

end Entries

/-! ## Numbers -/

theorem Literal.eq_of_integer? {literal : Literal} {value : Int}
    (integer : literal.integer? = some value) :
    ∃ negative whole, literal = ⟨negative, whole, none, none⟩ ∧
      digitsValue whole.toDigits = value.natAbs ∧ (value < 0 → negative = true) := by
  obtain ⟨negative, whole, fraction, exponent⟩ := literal
  cases fraction with
  | some digits => cases integer
  | none =>
    cases exponent with
    | some part => cases integer
    | none =>
      refine ⟨negative, whole, rfl, ?_⟩
      cases negative with
      | true =>
        cases integer
        exact ⟨by simp, fun _ => rfl⟩
      | false =>
        cases integer
        exact ⟨by simp, fun below => absurd below (by simp)⟩

theorem Literal.roundsFinite_of_integer? {literal : Literal} {value : Int}
    (integer : literal.integer? = some value) (small : value.natAbs < 2 ^ 64) :
    literal.RoundsFinite := by
  obtain ⟨negative, whole, rfl, magnitude, -⟩ := eq_of_integer? integer
  have unscaled : scale ⟨negative, whole, none, none⟩ = 0 := by simp [scale, fractionDigits]
  simp only [RoundsFinite, numerator, denominator, unscaled, digits, fractionDigits,
    List.append_nil, Int.neg_zero, Int.toNat_zero, Nat.pow_zero, Nat.mul_one]
  omega

theorem Literal.number?_eq_some_iff {literal : Literal} (nearest : literal.ReadsNearest)
    (number : Number) :
    literal.number? = some number ↔ literal.RoundsFinite ∧ literal.Denotes number := by
  have double : (literal.float? binary64).map (fun bits => Number.float (BitVec.ofNat 64 bits)) =
      some number ↔ literal.RoundsFinite ∧
        ∃ bits, literal.NearestDouble bits ∧ number = .float (BitVec.ofNat 64 bits) := by
    rw [Option.map_eq_some_iff]
    constructor
    · rintro ⟨bits, read, rfl⟩
      obtain ⟨finite, isNearest⟩ := (nearest bits).mp read
      exact ⟨finite, bits, isNearest, rfl⟩
    · rintro ⟨finite, bits, isNearest, rfl⟩
      exact ⟨bits, (nearest bits).mpr ⟨finite, isNearest⟩, rfl⟩
  rw [number?, Denotes]
  cases integer : literal.integer? with
  | none => exact double
  | some value =>
    simp only [IntegerKind.holds_signed64, IntegerKind.holds_unsigned64]
    by_cases isInt : -2 ^ 63 ≤ value ∧ value < 2 ^ 63
    · have finite := roundsFinite_of_integer? integer (by omega)
      rw [if_pos isInt, if_pos isInt]
      simp [finite, eq_comm]
    · by_cases isUint : 2 ^ 63 ≤ value ∧ value < 2 ^ 64
      · have finite := roundsFinite_of_integer? integer (by omega)
        have holds : 0 ≤ value ∧ value < 2 ^ 64 := by omega
        rw [if_neg isInt, if_pos holds, if_neg isInt, if_pos isUint]
        simp [finite, eq_comm]
      · have beyond : ¬ (0 ≤ value ∧ value < 2 ^ 64) := by omega
        rw [if_neg isInt, if_neg beyond, if_neg isInt, if_neg isUint]
        exact double

/-! ## Trees -/

namespace Json

theorem readAs_variant_number (schema : Schema) (literal : Literal) :
    (number literal).readAs schema .variant =
      literal.number?.map fun number => .held (.number (.any number)) := by
  simp only [readAs, innerShape, Shape.core, if_true, heldShape, Literal.readAs, Option.map_map,
    Function.comp_def, wrap, Shape.wrap]

theorem readAs_variant_string (schema : Schema) (items : List StringItem) :
    (string items).readAs schema .variant =
      (textOf? items).map fun text => .held (.string text) := by
  simp only [readAs, innerShape, Shape.core, if_true, heldShape, wrap, Shape.wrap]

theorem readAs_variant_array (schema : Schema) (items : List Json) :
    (array items).readAs schema .variant =
      (readItems schema .variant items).map fun values => .held (.list values) := by
  simp only [readAs, innerShape, Shape.core, if_true, heldShape, Shape.item?, wrap, Shape.wrap]

theorem readAs_variant_object (schema : Schema) (members : List (List StringItem × Json)) :
    (object members).readAs schema .variant =
      (readMembers schema (.ofExtra .variant) members (.start schema (.ofExtra .variant))).map
        fun read => .held (.object read.members read.presence read.extras) := by
  simp only [readAs, innerShape, Shape.core, if_true, heldShape, Schema.table?, wrap,
    Shape.wrap]

/-- Takes members to an object in the order of their names and values. -/
def insertAll (pairs : List (String × Value)) (read : MembersRead) : MembersRead :=
  { read with
    extras := pairs.foldl (fun entries (name, value) => entries.insert name value) read.extras }

mutual

theorem readAs_variant_iff (schema : Schema) (json : Json)
    (nearest : ∀ literal ∈ json.literals, literal.ReadsNearest) (value : Value) :
    json.readAs schema .variant = some value ↔
      (∀ text ∈ json.strings, surrogatesPaired text) ∧
        (∀ literal ∈ json.literals, literal.RoundsFinite) ∧ json.Denotes value := by
  match json with
  | null =>
    have means : null.readAs schema .variant = some (.held .null) := rfl
    rw [means]
    simp [strings, literals, Denotes]
    exact eq_comm
  | bool truth =>
    have means : (bool truth).readAs schema .variant = some (.held (.bool truth)) := rfl
    rw [means]
    simp [strings, literals, Denotes]
    exact eq_comm
  | number literal =>
    have number := Literal.number?_eq_some_iff (nearest literal (by simp [literals]))
    rw [readAs_variant_number, Option.map_eq_some_iff]
    simp only [number, strings, literals, Denotes, List.mem_singleton, forall_eq]
    grind
  | string items =>
    rw [readAs_variant_string, textOf?]
    simp only [strings, literals, Denotes, List.mem_singleton, forall_eq]
    grind
  | array items =>
    have items := readItems_variant_iff schema items nearest
    rw [readAs_variant_array, Option.map_eq_some_iff]
    simp only [items, strings, literals, Denotes]
    grind
  | object members =>
    have members := readMembers_variant_iff schema members nearest
    rw [readAs_variant_object, Option.map_eq_some_iff]
    simp only [members, strings, literals, Denotes]
    constructor
    · rintro ⟨read, ⟨paired, finite, pairs, denote, rfl⟩, rfl⟩
      refine ⟨paired, finite, pairs, denote, ?_⟩
      rw [← Entries.ofList_eq_merged]
      rfl
    · rintro ⟨paired, finite, pairs, denote, rfl⟩
      refine ⟨_, ⟨paired, finite, pairs, denote, rfl⟩, ?_⟩
      rw [← Entries.ofList_eq_merged]
      rfl

theorem readItems_variant_iff (schema : Schema) (items : List Json)
    (nearest : ∀ literal ∈ literalsOfItems items, literal.ReadsNearest) (values : List Value) :
    readItems schema .variant items = some values ↔
      (∀ text ∈ stringsOfItems items, surrogatesPaired text) ∧
        (∀ literal ∈ literalsOfItems items, literal.RoundsFinite) ∧
        DenoteItems items values := by
  match items with
  | [] =>
    simp [readItems, stringsOfItems, literalsOfItems, DenoteItems]
  | json :: rest =>
    simp only [literalsOfItems, List.mem_append] at nearest
    have first := readAs_variant_iff schema json fun literal among => nearest literal (.inl among)
    have more := readItems_variant_iff schema rest
      fun literal among => nearest literal (.inr among)
    simp only [stringsOfItems, literalsOfItems, DenoteItems, List.mem_append, or_imp,
      forall_and]
    constructor
    · intro read
      obtain ⟨value, values', readFirst, readRest, rfl⟩ := readItems_cons read
      obtain ⟨paired, finite, denotes⟩ := (first value).mp readFirst
      obtain ⟨paired', finite', denote⟩ := (more values').mp readRest
      exact ⟨⟨paired, paired'⟩, ⟨finite, finite'⟩, value, values', denotes, denote, rfl⟩
    · rintro ⟨⟨paired, paired'⟩, ⟨finite, finite'⟩, value, values', denotes, denote, rfl⟩
      rw [readItems, (first value).mpr ⟨paired, finite, denotes⟩]
      simp only [(more values').mpr ⟨paired', finite', denote⟩, Option.map_some]

theorem readMembers_variant_iff (schema : Schema) (members : List (List StringItem × Json))
    (nearest : ∀ literal ∈ literalsOfMembers members, literal.ReadsNearest)
    (read read' : MembersRead) :
    readMembers schema (.ofExtra .variant) members read = some read' ↔
      (∀ text ∈ stringsOfMembers members, surrogatesPaired text) ∧
        (∀ literal ∈ literalsOfMembers members, literal.RoundsFinite) ∧
          ∃ pairs, DenoteMembers members pairs ∧ read' = insertAll pairs read := by
  match members with
  | [] =>
    simp [readMembers, stringsOfMembers, literalsOfMembers, DenoteMembers, insertAll]
    exact eq_comm
  | (name, json) :: rest =>
    simp only [literalsOfMembers, List.mem_append] at nearest
    have first := readAs_variant_iff schema json fun literal among => nearest literal (.inl among)
    have more := readMembers_variant_iff schema rest
      fun literal among => nearest literal (.inr among)
    have named (paired : surrogatesPaired name) :
        textOf? name = some (String.ofList (unescape name)) := if_pos paired
    have found (text : String) :
        (Table.ofExtra .variant).memberSlot? text = some (.extra text .variant) := rfl
    simp only [stringsOfMembers, literalsOfMembers, DenoteMembers, List.cons_append,
      List.mem_cons, List.mem_append, or_imp, forall_and, forall_eq]
    constructor
    · intro means
      obtain ⟨text, slot, value, stands, isSlot, readFirst, readRest⟩ := readMembers_cons means
      cases isSlot
      obtain ⟨paired, finite, denotes⟩ := (first value).mp readFirst
      obtain ⟨paired', finite', pairs, denote, rfl⟩ := (more _ _).mp readRest
      have namePaired : surrogatesPaired name := by
        by_cases namePaired : surrogatesPaired name
        · exact namePaired
        · rw [textOf?, if_neg namePaired] at stands
          cases stands
      rw [named namePaired] at stands
      cases stands
      exact ⟨⟨namePaired, paired, paired'⟩, ⟨finite, finite'⟩, _,
        ⟨value, pairs, denotes, denote, rfl⟩, rfl⟩
    · rintro ⟨⟨namePaired, paired, paired'⟩, ⟨finite, finite'⟩, _,
        ⟨value, pairs, denotes, denote, rfl⟩, rfl⟩
      rw [readMembers, named namePaired, Option.bind_some, found]
      simp only [MemberSlot.shape, (first value).mpr ⟨paired, finite, denotes⟩]
      exact (more _ _).mpr ⟨paired', finite', pairs, denote, rfl⟩

end

end Json

/-! ## Where the numbers of a tree are spelled -/

theorem inside_commaSeparated {texts : List (List Char)} {text : List Char}
    (among : text ∈ texts) : text <:+: commaSeparated texts := by
  induction texts with
  | nil => cases among
  | cons first rest ih =>
    rw [commaSeparated_cons]
    rcases List.mem_cons.mp among with rfl | among
    · exact List.infix_append' [] text (commaLed rest)
    · cases rest with
      | nil => cases among
      | cons next more =>
        have inside := ih among
        rw [commaSeparated_cons] at inside
        refine inside.trans ⟨first ++ [','], [], ?_⟩
        simp [commaLed]

namespace Json

theorem mem_literalsOfItems {elements : List Element} {literal : Literal}
    (among : literal ∈ literalsOfItems (elements.map Element.json)) :
    ∃ element ∈ elements, literal ∈ element.json.literals := by
  induction elements with
  | nil => cases among
  | cons element rest ih =>
    simp only [List.map_cons, literalsOfItems, List.mem_append] at among
    rcases among with here | later
    · exact ⟨element, List.mem_cons_self, here⟩
    · obtain ⟨other, among, inside⟩ := ih later
      exact ⟨other, List.mem_cons_of_mem _ among, inside⟩

theorem mem_literalsOfMembers {members : List Member} {literal : Literal}
    (among : literal ∈
      literalsOfMembers (members.map fun member => (member.name, member.value.json))) :
    ∃ member ∈ members, literal ∈ member.value.json.literals := by
  induction members with
  | nil => cases among
  | cons member rest ih =>
    simp only [List.map_cons, literalsOfMembers, List.mem_append] at among
    rcases among with here | later
    · exact ⟨member, List.mem_cons_self, here⟩
    · obtain ⟨other, among, inside⟩ := ih later
      exact ⟨other, List.mem_cons_of_mem _ among, inside⟩

end Json

theorem Spells.spelled_inside {text : List Char} {json : Json} (spells : Spells text json)
    {literal : Literal} (among : literal ∈ json.literals) : literal.text <:+: text := by
  induction spells with
  | number number =>
    obtain rfl := List.mem_singleton.mp among
    exact List.infix_rfl
  | array filled blank spelled ih =>
    obtain ⟨element, inside, among⟩ := Json.mem_literalsOfItems among
    have padded : element.text <:+: element.padded := ⟨element.before, element.after, rfl⟩
    refine (ih element inside among).trans (padded.trans ?_)
    exact (inside_commaSeparated (List.mem_map_of_mem inside)).trans ⟨['['], [']'], rfl⟩
  | object filled blank spelled ih =>
    obtain ⟨member, inside, among⟩ := Json.mem_literalsOfMembers among
    have element : member.value.text <:+: member.value.padded :=
      ⟨member.value.before, member.value.after, rfl⟩
    have padded : member.value.padded <:+: member.padded :=
      ⟨member.beforeName ++ quotedText member.name ++ member.afterName ++ [':'], [], by
        simp [Member.padded]⟩
    refine (ih member inside among).trans (element.trans (padded.trans ?_))
    exact (inside_commaSeparated (List.mem_map_of_mem inside)).trans ⟨['{'], ['}'], rfl⟩
  | _ => cases among

theorem Document.spelled_inside {text : List Char} {json : Json} (document : Document text json)
    {literal : Literal} (among : literal ∈ json.literals) :
    literal.bytes <:+: Utf8.encode text := by
  obtain ⟨element, -, -, spells, rfl, rfl⟩ := document
  obtain ⟨front, back, inside⟩ := spells.spelled_inside among
  refine ⟨Utf8.encode (element.before ++ front), Utf8.encode (back ++ element.after), ?_⟩
  rw [Literal.bytes, ← Utf8.encode_append, ← Utf8.encode_append, Element.padded, ← inside]
  simp only [List.append_assoc]

/-! ## The parser of variants -/

/-- The parser of variants accepts exactly the JSON texts in UTF-8 whose surrogates are paired
and whose numbers are finite in double precision, and gives what they stand for; doubles are
read to nearest. -/
theorem parse_variant_eq_ok_iff (schema : Schema) (document : List UInt8) (value : Value)
    (nearest : ∀ literal : Literal, literal.bytes <:+: document → literal.ReadsNearest) :
    parse schema .variant document = .ok value ↔
      ∃ text json, document = Utf8.encode text ∧ Document text json ∧
        json.SurrogatesPaired ∧ json.NumbersFinite ∧ json.Denotes value := by
  rw [parse_eq_ok_iff]
  constructor
  · rintro ⟨text, json, rfl, document, means⟩
    have reads : ∀ literal ∈ json.literals, literal.ReadsNearest :=
      fun literal among => nearest literal (document.spelled_inside among)
    exact ⟨text, json, rfl, document, (json.readAs_variant_iff schema reads value).mp means⟩
  · rintro ⟨text, json, rfl, document, denotes⟩
    have reads : ∀ literal ∈ json.literals, literal.ReadsNearest :=
      fun literal among => nearest literal (document.spelled_inside among)
    exact ⟨text, json, rfl, document, (json.readAs_variant_iff schema reads value).mpr denotes⟩

/-- A number with a fraction that no double is; all numbers in so short a text are read to
nearest. -/
theorem parse_variant_tenth :
    let document := Utf8.encodeString "[0.1]"
    let value := Value.held (.list [.held (.number (.any (.float 0x3FB999999999999A)))])
    (∀ literal : Literal, literal.bytes <:+: document → literal.ReadsNearest) ∧
      parse .empty .variant document = .ok value ∧
      ∃ text json, document = Utf8.encode text ∧ Document text json ∧
        json.SurrogatesPaired ∧ json.NumbersFinite ∧ json.Denotes value := by
  intro document value
  have nearest (literal : Literal) (inside : literal.bytes <:+: document) :
      literal.ReadsNearest := by
    have short : literal.bytes.length ≤ 5 := inside.length_le
    apply Literal.readsNearest
    rw [exponentReach]
    omega
  have parsed : parse .empty .variant document = .ok value := by rfl
  exact ⟨nearest, parsed, (parse_variant_eq_ok_iff .empty document value nearest).mp parsed⟩

end IncrementalJson
