import IncrementalJson.Proofs.Grammar.Meaning
import IncrementalJson.Proofs.Text.Utf8
import IncrementalJson.Value.Text

/-!
# How strings are spelled

The tokens of a string are the octets of a string literal of the grammar, and
that literal stands for the string.
-/

set_option autoImplicit false

namespace IncrementalJson

/-- The piece that spells a character: a short escape if there is one, a unicode escape for the
other controls, and else the character itself. -/
def writtenItem (char : Char) : StringItem :=
  if char = '"' then .short .quote
  else if char = '\\' then .short .backslash
  else if char = '\x08' then .short .backspace
  else if char = '\x0C' then .short .formFeed
  else if char = '\n' then .short .lineFeed
  else if char = '\r' then .short .carriageReturn
  else if char = '\t' then .short .tab
  else if unescaped : isUnescaped char then .plain char unescaped
  else .unit ⟨0, false⟩ ⟨0, false⟩ ⟨Fin.ofNat 16 (char.toNat / 16), false⟩
    ⟨Fin.ofNat 16 char.toNat, false⟩

theorem writtenItem_cases (char : Char) :
    (∃ unescaped, writtenItem char = .plain char unescaped) ∨
      (∃ escape, writtenItem char = .short escape ∧ escape.char = char) ∨
      ∃ first second third fourth, writtenItem char = .unit first second third fourth ∧
        StringItem.unitValue first second third fourth = char.toNat ∧ char.toNat < 0x20 := by
  generalize written : writtenItem char = item
  rw [writtenItem] at written
  iterate 7
    split at written
    · rename_i same
      subst same written
      exact .inr (.inl ⟨_, rfl, rfl⟩)
  split at written
  · rename_i unescaped
    exact .inl ⟨unescaped, written.symm⟩
  · rename_i notQuote notBackslash _ _ _ _ _ escaped
    have control : char.toNat < 0x20 := by
      simpa [isUnescaped, notQuote, notBackslash] using escaped
    refine .inr (.inr ⟨_, _, _, _, written.symm, ?_, control⟩)
    simp only [StringItem.unitValue, Fin.ofNat]
    omega

theorem octetToken_large {octet : UInt8} (large : 0x80 ≤ octet) : octetToken octet = [octet] := by
  have differs : ∀ small : UInt8, small < 0x80 → octet ≠ small := by
    rintro small less rfl
    exact absurd large (UInt8.not_le.mpr less)
  have notControl : ¬ octet < 0x20 := by
    intro less
    exact absurd (UInt8.lt_of_lt_of_le less (by decide : (0x20 : UInt8) ≤ 0x80))
      (UInt8.not_lt.mpr large)
  simp only [octetToken, Escape.escape?, differs 0x22 (by decide), differs 0x5C (by decide),
    differs 0x08 (by decide), differs 0x0C (by decide), differs 0x0A (by decide),
    differs 0x0D (by decide), differs 0x09 (by decide), notControl, if_false, Option.getD_none]

theorem octetTokens_large {octets : List UInt8} (large : ∀ octet ∈ octets, 0x80 ≤ octet) :
    octets.flatMap octetToken = octets := by
  induction octets with
  | nil => rfl
  | cons octet octets ih =>
    obtain ⟨here, rest⟩ := List.forall_mem_cons.mp large
    rw [List.flatMap_cons, octetToken_large here, ih rest]
    rfl

theorem encode_writtenItem_ascii : ∀ value < 0x80,
    Utf8.encode (writtenItem (Char.ofNat value)).text =
      (Utf8.encodeChar (Char.ofNat value)).flatMap octetToken := by
  decide +kernel

theorem encode_writtenItem (char : Char) :
    Utf8.encode (writtenItem char).text = (Utf8.encodeChar char).flatMap octetToken := by
  rcases Utf8.encodeChar_cases char with ⟨small, -⟩ | ⟨large, lead, rest, octets, here, behind⟩
  · have known := encode_writtenItem_ascii char.toNat small
    rwa [Char.ofNat_toNat] at known
  · have plain : ∃ unescaped, writtenItem char = .plain char unescaped := by
      rcases writtenItem_cases char with plain | ⟨escape, -, same⟩ | ⟨_, _, _, _, -, -, small⟩
      · exact plain
      · subst same
        cases escape <;> exact absurd large (by decide)
      · omega
    obtain ⟨unescaped, plain⟩ := plain
    rw [plain, octetTokens_large]
    · simp [StringItem.text, Utf8.encode]
    · rw [octets]
      refine List.forall_mem_cons.mpr ⟨UInt8.le_trans (by decide) here, ?_⟩
      intro octet among
      exact (behind octet among).1

def writtenItems (text : String) : List StringItem := text.toList.map writtenItem

theorem encode_writtenItems (chars : List Char) :
    Utf8.encode ((chars.map writtenItem).flatMap StringItem.text) =
      (Utf8.encode chars).flatMap octetToken := by
  induction chars with
  | nil => rfl
  | cons char chars ih =>
    simp only [Utf8.encode] at ih
    have first := encode_writtenItem char
    simp only [Utf8.encode] at first
    simp only [Utf8.encode, List.map_cons, List.flatMap_cons, List.flatMap_append, ih, first]

/-- The tokens of a string make up a string literal. -/
theorem encode_quoted_writtenItems (text : String) :
    Utf8.encode (quotedText (writtenItems text)) = (stringTokens text).flatten := by
  have inside := encode_writtenItems text.toList
  simp only [Utf8.encode] at inside
  have quote : Utf8.encodeChar '"' = [Ascii.quote] := by decide
  simp only [quotedText, writtenItems, Utf8.encode, List.cons_append, List.flatMap_cons,
    List.flatMap_append, inside, stringTokens, Utf8.encodeString, List.flatten_cons,
    List.flatten_append, List.flatten_nil, quote]
  rw [List.flatMap_def, List.flatMap_def]
  simp

theorem unescape_writtenItems (chars : List Char) :
    surrogatesPaired (chars.map writtenItem) ∧ unescape (chars.map writtenItem) = chars := by
  induction chars with
  | nil => exact ⟨rfl, rfl⟩
  | cons char chars ih =>
    obtain ⟨paired, meant⟩ := ih
    rw [List.map_cons]
    rcases writtenItem_cases char with ⟨_, item⟩ | ⟨escape, item, same⟩ |
      ⟨first, second, third, fourth, item, value, control⟩
    · rw [item]
      exact ⟨paired, by rw [unescape, meant]⟩
    · rw [item]
      exact ⟨paired, by rw [unescape, meant, same]⟩
    · have notLeading : isLeading char.toNat = false := by
        rw [isLeading, Bool.and_eq_false_iff, decide_eq_false_iff_not]
        omega
      have notTrailing : isTrailing char.toNat = false := by
        rw [isTrailing, Bool.and_eq_false_iff, decide_eq_false_iff_not]
        omega
      rw [item]
      constructor
      · rw [surrogatesPaired.eq_def]
        simp [StringItem.unit?, value, notLeading, notTrailing, paired]
      · rw [unescape.eq_def]
        simp [value, notLeading, meant]

theorem textOf?_writtenItems (text : String) : textOf? (writtenItems text) = some text := by
  obtain ⟨paired, meant⟩ := unescape_writtenItems text.toList
  rw [textOf?, writtenItems, if_pos paired, meant, String.ofList_toList]

end IncrementalJson
