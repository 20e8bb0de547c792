import IncrementalJson.Proofs.Grammar.Meaning
import IncrementalJson.Proofs.Text.Utf8

/-!
# Numbers are read as the grammar spells them

The bytes that a `NumberLexer` takes up to a state in which it may end are the
text of a `Literal`, and it is then in the state that belongs to the literal: it
knows the sign, whether there is a fraction or an exponent, and the whole part
as long as that fits 64 bits.  That is enough to tell what the literal becomes as
a number of any type, or why it is refused.
-/

set_option autoImplicit false

namespace IncrementalJson

open Ascii

/-! ## Digits -/

def Digit.byte (digit : Digit) : UInt8 := UInt8.ofNat (0x30 + digit.val)

theorem Digit.byte_known : ∀ digit : Digit, Utf8.encodeChar digit.char = [digit.byte] ∧
    isDigit digit.byte ∧ digitValue digit.byte = digit.val ∧
    (digit.byte = Ascii.zero ↔ digit.val = 0) := by
  decide

theorem Digit.encode_map (digits : List Digit) :
    Utf8.encode (digits.map Digit.char) = digits.map Digit.byte := by
  induction digits with
  | nil => rfl
  | cons digit rest ih =>
    rw [List.map_cons, Utf8.encode_cons, ih, digit.byte_known.1]
    rfl

theorem Digit.of_isDigit {byte : UInt8} (digit : isDigit byte) :
    ∃ digit : Digit, digit.byte = byte := by
  simp only [isDigit, Bool.and_eq_true, decide_eq_true_eq] at digit
  have low : 0x30 ≤ byte.toNat := digit.1
  have high : byte.toNat ≤ 0x39 := digit.2
  refine ⟨⟨byte.toNat - 0x30, by omega⟩, ?_⟩
  rw [Digit.byte]
  have whole : 0x30 + (byte.toNat - 0x30) = byte.toNat := by omega
  simp only [whole, UInt8.ofNat_toNat]

theorem digitsValue_append (front : List Digit) (digit : Digit) :
    digitsValue (front ++ [digit]) = digitsValue front * 10 + digit.val := by
  simp [digitsValue, List.foldl_append]

theorem appendDigits_map (digits : List Digit) :
    appendDigits 0 (digits.map Digit.byte) = digitsValue digits := by
  have behind (value : Nat) : appendDigits value (digits.map Digit.byte) =
      digits.foldl (fun value digit => value * 10 + digit.val) value := by
    induction digits generalizing value with
    | nil => rfl
    | cons digit rest ih =>
      have step : appendDigits value ((digit :: rest).map Digit.byte) =
          appendDigits (value * 10 + digitValue digit.byte) (rest.map Digit.byte) := rfl
      rw [step, ih, digit.byte_known.2.2.1]
      rfl
  exact behind 0

/-! ## The text of a literal in bytes -/

def signBytes (negative : Bool) : List UInt8 := if negative then [Ascii.minus] else []

def ExponentPart.bytes (part : ExponentPart) : List UInt8 :=
  (if part.upper then upperE else lowerE) ::
    (match part.sign with
      | none => []
      | some true => [Ascii.minus]
      | some false => [plus]) ++ (part.first :: part.rest).map Digit.byte

theorem ExponentPart.encode_text (part : ExponentPart) : Utf8.encode part.text = part.bytes := by
  obtain ⟨upper, sign, first, rest⟩ := part
  simp only [text, bytes, Utf8.encode_append, Digit.encode_map, Utf8.encode_cons, List.cons_append]
  rcases sign with _ | _ | _ <;> cases upper <;> rfl

namespace Literal

def fractionBytes (literal : Literal) : List UInt8 :=
  match literal.fraction with
  | some (first, rest) => Ascii.point :: (first :: rest).map Digit.byte
  | none => []

def exponentBytes (literal : Literal) : List UInt8 :=
  match literal.exponent with
  | some part => part.bytes
  | none => []

theorem bytes_eq (literal : Literal) :
    literal.bytes = signBytes literal.negative ++ literal.whole.toDigits.map Digit.byte ++
      literal.fractionBytes ++ literal.exponentBytes := by
  obtain ⟨negative, whole, fraction, exponent⟩ := literal
  simp only [bytes, text, Utf8.encode_append, Digit.encode_map]
  congr 1
  · congr 1
    · cases negative <;> rfl
    · cases fraction with
      | none => rfl
      | some digits =>
        simp only [fractionBytes, Utf8.encode_cons, Digit.encode_map]
        rfl
  · cases exponent with
    | none => rfl
    | some part => exact part.encode_text

end Literal

/-! ## The state behind a literal -/

/-- One more digit of a whole part as far as 64 bits go. -/
def countDigit (count : Nat × Bool) (digit : Digit) : Nat × Bool :=
  if count.1 * 10 + digit.val < 2 ^ 64 then (count.1 * 10 + digit.val, count.2)
  else (count.1, true)

/-- A whole part as far as 64 bits go: its value, and whether they do not suffice. -/
def countDigits (digits : List Digit) : Nat × Bool := digits.foldl countDigit (0, false)

theorem foldl_countDigit_overflow (digits : List Digit) {count : Nat × Bool}
    (exceeded : count.2 = true) : (digits.foldl countDigit count).2 = true := by
  induction digits generalizing count with
  | nil => exact exceeded
  | cons digit rest ih =>
    apply ih
    unfold countDigit
    split
    · exact exceeded
    · rfl

theorem le_foldl_digits (digits : List Digit) (value : Nat) :
    value ≤ digits.foldl (fun value digit => value * 10 + digit.val) value := by
  induction digits generalizing value with
  | nil => exact Nat.le_refl _
  | cons digit rest ih =>
    have further := ih (value * 10 + digit.val)
    rw [List.foldl_cons]
    omega

/-- The value of a whole part is known exactly if it fits 64 bits. -/
theorem countDigits_spec (digits : List Digit) :
    if digitsValue digits < 2 ^ 64 then countDigits digits = (digitsValue digits, false)
    else (countDigits digits).2 = true := by
  have behind (value : Nat) (small : value < 2 ^ 64) :
      let total := digits.foldl (fun value digit => value * 10 + digit.val) value
      if total < 2 ^ 64 then digits.foldl countDigit (value, false) = (total, false)
      else (digits.foldl countDigit (value, false)).2 = true := by
    induction digits generalizing value with
    | nil => exact (if_pos small).mpr rfl
    | cons digit rest ih =>
      simp only [List.foldl_cons, countDigit]
      by_cases fits : value * 10 + digit.val < 2 ^ 64
      · rw [if_pos fits]
        exact ih _ fits
      · have grows := le_foldl_digits rest (value * 10 + digit.val)
        rw [if_neg fits, if_neg (by omega)]
        exact foldl_countDigit_overflow rest rfl
  exact behind 0 (by omega)

def WholePart.part : WholePart → LiteralPart
  | .zero => .zero
  | .digits .. => .integer

namespace Literal

def part (literal : Literal) : LiteralPart :=
  match literal.exponent, literal.fraction with
  | some _, _ => .exponent
  | none, some _ => .fraction
  | none, none => literal.whole.part

/-- The state of a lexer that has read a literal up to some part behind its whole part. -/
def lexerAt (literal : Literal) (part : LiteralPart) : NumberLexer :=
  ⟨part, literal.negative, (countDigits literal.whole.toDigits).1,
    (countDigits literal.whole.toDigits).2⟩

def lexer (literal : Literal) : NumberLexer := literal.lexerAt literal.part

@[simp] theorem canEnd_lexer (literal : Literal) : literal.lexer.canEnd = true := by
  obtain ⟨negative, whole, fraction, exponent⟩ := literal
  cases exponent
  · cases fraction
    · cases whole <;> rfl
    · rfl
  · rfl

theorem integer_lexer (literal : Literal) :
    literal.lexer.integer =
      match literal.integer? with
      | none => .error .floatNotAllowed
      | some value => if value.natAbs < 2 ^ 64 then .ok value else .error .numericOverflow := by
  obtain ⟨negative, whole, fraction, exponent⟩ := literal
  cases exponent with
  | some part => cases fraction <;> rfl
  | none =>
    cases fraction with
    | some digits => rfl
    | none =>
      have count := countDigits_spec whole.toDigits
      have notFloat (count : Nat × Bool) :
          NumberLexer.isFloat ⟨whole.part, negative, count.1, count.2⟩ = false := by
        cases whole <;> rfl
      simp only [NumberLexer.integer, lexer, lexerAt, part, integer?, notFloat, Bool.false_eq_true,
        if_false]
      have magnitude (value : Nat) :
          (if negative then -(value : Int) else ↑value).natAbs = value := by
        cases negative <;> simp
      split at count
      · rename_i fits
        simp only [count, magnitude, if_pos fits, Bool.false_eq_true, if_false]
      · rename_i exceeded
        simp only [count, magnitude, if_neg exceeded, if_true]

end Literal

/-! ## Lexing -/

def markByte (upper : Bool) : UInt8 := if upper then upperE else lowerE

def exponentSignByte (negative : Bool) : UInt8 := if negative then Ascii.minus else plus

/-- The states of a lexer and the bytes that lead to them. -/
inductive Lexes : NumberLexer → List UInt8 → Prop where
  | nothing : Lexes {} []
  | minus : Lexes { part := .minus, negative := true } [Ascii.minus]
  | literal (literal : Literal) : Lexes literal.lexer literal.bytes
  | point (negative : Bool) (whole : WholePart) :
      Lexes (Literal.lexerAt ⟨negative, whole, none, none⟩ .point)
        (Literal.bytes ⟨negative, whole, none, none⟩ ++ [Ascii.point])
  | mark (negative : Bool) (whole : WholePart) (fraction : Option (Digit × List Digit))
      (upper : Bool) :
      Lexes (Literal.lexerAt ⟨negative, whole, fraction, none⟩ .exponentMark)
        (Literal.bytes ⟨negative, whole, fraction, none⟩ ++ [markByte upper])
  | sign (negative : Bool) (whole : WholePart) (fraction : Option (Digit × List Digit))
      (upper below : Bool) :
      Lexes (Literal.lexerAt ⟨negative, whole, fraction, none⟩ .exponentSign)
        (Literal.bytes ⟨negative, whole, fraction, none⟩ ++
          [markByte upper, exponentSignByte below])

namespace Lexes

theorem firstDigit (negative : Bool) {part : LiteralPart} {byte : UInt8} (isDigit : isDigit byte)
    (notZero : byte ≠ Ascii.zero) :
    Lexes (NumberLexer.addDigit { part, negative } byte) (signBytes negative ++ [byte]) := by
  obtain ⟨digit, rfl⟩ := Digit.of_isDigit isDigit
  obtain ⟨-, -, value, isZero⟩ := digit.byte_known
  have positive : digit.val ≠ 0 := fun zero => notZero (isZero.mpr zero)
  have bound := digit.isLt
  have whole : (⟨digit.val - 1 + 1, by omega⟩ : Digit) = digit := Fin.ext (by simp only; omega)
  have lexes := Lexes.literal ⟨negative, .digits ⟨digit.val - 1, by omega⟩ [], none, none⟩
  simp only [Literal.lexer, Literal.lexerAt, Literal.part, WholePart.part, Literal.bytes_eq,
    WholePart.toDigits, whole, Literal.fractionBytes, Literal.exponentBytes, List.append_nil,
    List.map_cons, List.map_nil, countDigits, List.foldl_cons, List.foldl_nil, countDigit] at lexes
  simp only [NumberLexer.addDigit, value]
  split
  · rw [if_pos (by assumption)] at lexes
    exact lexes
  · rw [if_neg (by assumption)] at lexes
    exact lexes

theorem moreDigit {negative : Bool} {first : Fin 9} {rest : List Digit} {byte : UInt8}
    (isDigit : isDigit byte) :
    Lexes ((Literal.lexer ⟨negative, .digits first rest, none, none⟩).addDigit byte)
      (Literal.bytes ⟨negative, .digits first rest, none, none⟩ ++ [byte]) := by
  obtain ⟨digit, rfl⟩ := Digit.of_isDigit isDigit
  obtain ⟨-, -, value, -⟩ := digit.byte_known
  have lexes := Lexes.literal ⟨negative, .digits first (rest ++ [digit]), none, none⟩
  have count : countDigits (WholePart.digits first (rest ++ [digit])).toDigits =
      countDigit (countDigits (WholePart.digits first rest).toDigits) digit := by
    simp only [WholePart.toDigits, countDigits, ← List.cons_append, List.foldl_append,
      List.foldl_cons, List.foldl_nil]
  simp only [Literal.lexer, Literal.lexerAt, Literal.part, WholePart.part, count] at lexes
  have bytes : Literal.bytes ⟨negative, .digits first (rest ++ [digit]), none, none⟩ =
      Literal.bytes ⟨negative, .digits first rest, none, none⟩ ++ [digit.byte] := by
    simp [Literal.bytes_eq, WholePart.toDigits, Literal.fractionBytes, Literal.exponentBytes]
  rw [bytes] at lexes
  simp only [NumberLexer.addDigit, Literal.lexer, Literal.lexerAt, value]
  simp only [countDigit] at lexes
  split
  · rw [if_pos (by assumption)] at lexes
    exact lexes
  · rw [if_neg (by assumption)] at lexes
    exact lexes

theorem fractionDigit {negative : Bool} {whole : WholePart} {first : Digit} {rest : List Digit}
    {byte : UInt8} (isDigit : isDigit byte) :
    Lexes (Literal.lexer ⟨negative, whole, some (first, rest), none⟩)
      (Literal.bytes ⟨negative, whole, some (first, rest), none⟩ ++ [byte]) := by
  obtain ⟨digit, rfl⟩ := Digit.of_isDigit isDigit
  have lexes := Lexes.literal ⟨negative, whole, some (first, rest ++ [digit]), none⟩
  have bytes : Literal.bytes ⟨negative, whole, some (first, rest ++ [digit]), none⟩ =
      Literal.bytes ⟨negative, whole, some (first, rest), none⟩ ++ [digit.byte] := by
    simp [Literal.bytes_eq, Literal.fractionBytes, Literal.exponentBytes]
  rw [bytes] at lexes
  exact lexes

theorem firstFractionDigit {negative : Bool} {whole : WholePart} {byte : UInt8}
    (isDigit : isDigit byte) :
    Lexes (Literal.lexerAt ⟨negative, whole, none, none⟩ .fraction)
      (Literal.bytes ⟨negative, whole, none, none⟩ ++ [Ascii.point] ++ [byte]) := by
  obtain ⟨digit, rfl⟩ := Digit.of_isDigit isDigit
  have lexes := Lexes.literal ⟨negative, whole, some (digit, []), none⟩
  have bytes : Literal.bytes ⟨negative, whole, some (digit, []), none⟩ =
      Literal.bytes ⟨negative, whole, none, none⟩ ++ [Ascii.point] ++ [digit.byte] := by
    simp [Literal.bytes_eq, Literal.fractionBytes, Literal.exponentBytes]
  rw [bytes] at lexes
  exact lexes

theorem exponentDigit {negative : Bool} {whole : WholePart}
    {fraction : Option (Digit × List Digit)} {upper : Bool} {sign : Option Bool} {first : Digit}
    {rest : List Digit} {byte : UInt8} (isDigit : isDigit byte) :
    Lexes (Literal.lexer ⟨negative, whole, fraction, some ⟨upper, sign, first, rest⟩⟩)
      (Literal.bytes ⟨negative, whole, fraction, some ⟨upper, sign, first, rest⟩⟩ ++ [byte]) := by
  obtain ⟨digit, rfl⟩ := Digit.of_isDigit isDigit
  have lexes := Lexes.literal
    ⟨negative, whole, fraction, some ⟨upper, sign, first, rest ++ [digit]⟩⟩
  have bytes :
      Literal.bytes ⟨negative, whole, fraction, some ⟨upper, sign, first, rest ++ [digit]⟩⟩ =
      Literal.bytes ⟨negative, whole, fraction, some ⟨upper, sign, first, rest⟩⟩ ++
        [digit.byte] := by
    simp [Literal.bytes_eq, Literal.fractionBytes, Literal.exponentBytes, ExponentPart.bytes]
  rw [bytes] at lexes
  exact lexes

theorem firstExponentDigit {negative : Bool} {whole : WholePart}
    {fraction : Option (Digit × List Digit)} {upper : Bool} (sign : Option Bool) {byte : UInt8}
    (isDigit : isDigit byte) :
    Lexes (Literal.lexerAt ⟨negative, whole, fraction, none⟩ .exponent)
      (Literal.bytes ⟨negative, whole, fraction, none⟩ ++
        (markByte upper :: (sign.map exponentSignByte).toList) ++ [byte]) := by
  obtain ⟨digit, rfl⟩ := Digit.of_isDigit isDigit
  have lexes := Lexes.literal ⟨negative, whole, fraction, some ⟨upper, sign, digit, []⟩⟩
  have bytes : Literal.bytes ⟨negative, whole, fraction, some ⟨upper, sign, digit, []⟩⟩ =
      Literal.bytes ⟨negative, whole, fraction, none⟩ ++
        (markByte upper :: (sign.map exponentSignByte).toList) ++ [digit.byte] := by
    simp only [Literal.bytes_eq, Literal.fractionBytes, Literal.exponentBytes, ExponentPart.bytes]
    rcases sign with _ | _ | _ <;> simp [markByte, exponentSignByte]
  rw [bytes] at lexes
  exact lexes

theorem behindWhole {negative : Bool} {whole : WholePart} {byte : UInt8} {later : NumberLexer}
    (next : (if byte = Ascii.point then
        some (Literal.lexerAt ⟨negative, whole, none, none⟩ .point)
      else if byte = lowerE ∨ byte = upperE then
        some (Literal.lexerAt ⟨negative, whole, none, none⟩ .exponentMark)
      else none) = some later) :
    Lexes later (Literal.bytes ⟨negative, whole, none, none⟩ ++ [byte]) := by
  split at next
  · rename_i isPoint
    cases next
    rw [isPoint]
    exact .point negative whole
  · split at next
    · rename_i isMark
      cases next
      rcases isMark with rfl | rfl
      · exact .mark negative whole none false
      · exact .mark negative whole none true
    · cases next

theorem behindLiteral {literal : Literal} {later : NumberLexer} {byte : UInt8}
    (next : literal.lexer.next? byte = some later) : Lexes later (literal.bytes ++ [byte]) := by
  obtain ⟨negative, whole, fraction, exponent⟩ := literal
  cases exponent with
  | some part =>
    simp only [NumberLexer.next?, Literal.lexer, Literal.lexerAt, Literal.part] at next
    split at next
    · rename_i isDigit
      cases next
      exact exponentDigit isDigit
    · cases next
  | none =>
    cases fraction with
    | some digits =>
      simp only [NumberLexer.next?, Literal.lexer, Literal.lexerAt, Literal.part] at next
      split at next
      · rename_i isDigit
        cases next
        exact fractionDigit isDigit
      · split at next
        · rename_i isMark
          cases next
          rcases isMark with rfl | rfl
          · exact .mark negative whole (some digits) false
          · exact .mark negative whole (some digits) true
        · cases next
    | none =>
      cases whole with
      | zero =>
        simp only [NumberLexer.next?, Literal.lexer, Literal.lexerAt, Literal.part,
          WholePart.part] at next
        exact behindWhole next
      | digits first rest =>
        simp only [NumberLexer.next?, Literal.lexer, Literal.lexerAt, Literal.part,
          WholePart.part] at next
        split at next
        · rename_i isDigit
          cases next
          exact moreDigit isDigit
        · exact behindWhole next

/-- What a lexer takes leads from state to state. -/
theorem step {lexer later : NumberLexer} {bytes : List UInt8} {byte : UInt8}
    (lexes : Lexes lexer bytes) (next : lexer.next? byte = some later) :
    Lexes later (bytes ++ [byte]) := by
  cases lexes with
  | nothing =>
    simp only [NumberLexer.next?] at next
    split at next
    · rename_i isMinus
      cases next
      rw [isMinus]
      exact .minus
    · split at next
      · rename_i isZero
        cases next
        rw [isZero]
        exact .literal ⟨false, .zero, none, none⟩
      · split at next
        · rename_i notZero isDigit
          cases next
          exact firstDigit false isDigit notZero
        · cases next
  | minus =>
    simp only [NumberLexer.next?] at next
    split at next
    · rename_i isZero
      cases next
      rw [isZero]
      exact .literal ⟨true, .zero, none, none⟩
    · split at next
      · rename_i notZero isDigit
        cases next
        exact firstDigit true isDigit notZero
      · cases next
  | literal literal => exact behindLiteral next
  | point negative whole =>
    simp only [NumberLexer.next?, Literal.lexerAt] at next
    split at next
    · rename_i isDigit
      cases next
      exact firstFractionDigit isDigit
    · cases next
  | mark negative whole fraction upper =>
    simp only [NumberLexer.next?, Literal.lexerAt] at next
    split at next
    · rename_i isSign
      cases next
      rw [List.append_assoc]
      rcases isSign with rfl | rfl
      · exact .sign negative whole fraction upper false
      · exact .sign negative whole fraction upper true
    · split at next
      · rename_i isDigit
        cases next
        exact firstExponentDigit none isDigit
      · cases next
  | sign negative whole fraction upper below =>
    simp only [NumberLexer.next?, Literal.lexerAt] at next
    split at next
    · rename_i isDigit
      cases next
      exact firstExponentDigit (some below) isDigit
    · cases next

/-- Where a lexer may end it has read a literal. -/
theorem of_canEnd {lexer : NumberLexer} {bytes : List UInt8} (lexes : Lexes lexer bytes)
    (canEnd : lexer.canEnd) : ∃ literal, lexer = Literal.lexer literal ∧ bytes = literal.bytes := by
  cases lexes with
  | literal literal => exact ⟨literal, rfl, rfl⟩
  | nothing | minus | point | mark | sign => cases canEnd

end Lexes

/-! ## Every literal is read -/

namespace NumberLexer

/-- The state behind bytes that all belong to one literal. -/
abbrev readAll? (lexer : NumberLexer) (bytes : List UInt8) : Option NumberLexer :=
  bytes.foldlM next? lexer

theorem readAll?_append (lexer : NumberLexer) (front back : List UInt8) :
    lexer.readAll? (front ++ back) = (lexer.readAll? front).bind (·.readAll? back) :=
  List.foldlM_append

theorem readAll?_cons {lexer later : NumberLexer} {byte : UInt8}
    (next : lexer.next? byte = some later) (rest : List UInt8) :
    lexer.readAll? (byte :: rest) = later.readAll? rest := by
  simp [readAll?, List.foldlM_cons, next]

theorem readAll?_digits {lexer : NumberLexer}
    (stays : ∀ digit : Digit, lexer.next? digit.byte = some lexer) (digits : List Digit) :
    lexer.readAll? (digits.map Digit.byte) = some lexer := by
  induction digits with
  | nil => rfl
  | cons digit rest ih => rw [List.map_cons, readAll?_cons (stays digit), ih]

theorem readAll?_wholeDigits (negative : Bool) (count : Nat × Bool) (digits : List Digit) :
    readAll? ⟨.integer, negative, count.1, count.2⟩ (digits.map Digit.byte) =
      some ⟨.integer, negative, (digits.foldl countDigit count).1,
        (digits.foldl countDigit count).2⟩ := by
  induction digits generalizing count with
  | nil => rfl
  | cons digit rest ih =>
    obtain ⟨-, isDigit, value, -⟩ := digit.byte_known
    have next : next? ⟨.integer, negative, count.1, count.2⟩ digit.byte =
        some ⟨.integer, negative, (countDigit count digit).1, (countDigit count digit).2⟩ := by
      simp only [next?, isDigit, if_true, addDigit, value, countDigit]
      split <;> rfl
    rw [List.map_cons, readAll?_cons next, ih]
    rfl

theorem readAll?_sign (negative : Bool) :
    readAll? {} (signBytes negative) =
      some { part := if negative then .minus else .nothing, negative } := by
  cases negative <;> rfl

theorem readAll?_whole (negative : Bool) (whole : WholePart) :
    readAll? { part := if negative then .minus else .nothing, negative }
        (whole.toDigits.map Digit.byte) =
      some (Literal.lexerAt ⟨negative, whole, none, none⟩ whole.part) := by
  cases whole with
  | zero => cases negative <;> rfl
  | digits first rest =>
    have first' := first.isLt
    obtain ⟨-, isDigit, value, isZero⟩ :=
      Digit.byte_known (⟨first.val + 1, by omega⟩ : Digit)
    have notZero : Digit.byte ⟨first.val + 1, by omega⟩ ≠ Ascii.zero := fun zero =>
      absurd (isZero.mp zero) (Nat.succ_ne_zero _)
    have notMinus : Digit.byte ⟨first.val + 1, by omega⟩ ≠ Ascii.minus := fun minus => by
      rw [minus] at isDigit
      cases isDigit
    have next : next? { part := if negative then .minus else .nothing, negative }
        (Digit.byte ⟨first.val + 1, by omega⟩) =
        some ⟨.integer, negative, (countDigit (0, false) ⟨first.val + 1, by omega⟩).1,
          (countDigit (0, false) ⟨first.val + 1, by omega⟩).2⟩ := by
      have small : 0 * 10 + (first.val + 1) < 2 ^ 64 := by omega
      cases negative <;>
        simp only [next?, notZero, notMinus, isDigit, addDigit, value, countDigit, if_pos small,
          Bool.false_eq_true, if_true, if_false]
    rw [WholePart.toDigits, List.map_cons, readAll?_cons next, readAll?_wholeDigits]
    rfl

theorem readAll?_fraction (negative : Bool) (whole : WholePart)
    (fraction : Option (Digit × List Digit)) :
    readAll? (Literal.lexerAt ⟨negative, whole, none, none⟩ whole.part)
        (Literal.fractionBytes ⟨negative, whole, fraction, none⟩) =
      some (Literal.lexer ⟨negative, whole, fraction, none⟩) := by
  cases fraction with
  | none => rfl
  | some digits =>
    obtain ⟨first, rest⟩ := digits
    have point : next? (Literal.lexerAt ⟨negative, whole, none, none⟩ whole.part) Ascii.point =
        some (Literal.lexerAt ⟨negative, whole, none, none⟩ .point) := by
      cases whole <;> rfl
    have firstDigit : next? (Literal.lexerAt ⟨negative, whole, none, none⟩ .point) first.byte =
        some (Literal.lexer ⟨negative, whole, some (first, rest), none⟩) := by
      simp only [next?, Literal.lexerAt, first.byte_known.2.1, if_true]
      rfl
    have stays (digit : Digit) :
        next? (Literal.lexer ⟨negative, whole, some (first, rest), none⟩) digit.byte =
          some (Literal.lexer ⟨negative, whole, some (first, rest), none⟩) := by
      simp only [next?, Literal.lexer, Literal.lexerAt, Literal.part, digit.byte_known.2.1, if_true]
    rw [Literal.fractionBytes, readAll?_cons point, List.map_cons, readAll?_cons firstDigit,
      readAll?_digits stays]

theorem readAll?_exponent (literal : Literal) :
    readAll? (Literal.lexer { literal with exponent := none }) literal.exponentBytes =
      some literal.lexer := by
  obtain ⟨negative, whole, fraction, exponent⟩ := literal
  cases exponent with
  | none => rfl
  | some part =>
    obtain ⟨upper, sign, first, rest⟩ := part
    have mark : next? (Literal.lexer ⟨negative, whole, fraction, none⟩)
        (if upper then upperE else lowerE) =
        some (Literal.lexerAt ⟨negative, whole, fraction, none⟩ .exponentMark) := by
      cases fraction
      · cases whole <;> cases upper <;> rfl
      · cases upper <;> rfl
    have notSign : first.byte ≠ plus ∧ first.byte ≠ Ascii.minus := by
      constructor <;>
        · intro other
          have isDigit := first.byte_known.2.1
          rw [other] at isDigit
          cases isDigit
    have stays (digit : Digit) :
        next? (Literal.lexerAt ⟨negative, whole, fraction, none⟩ .exponent) digit.byte =
          some (Literal.lexerAt ⟨negative, whole, fraction, none⟩ .exponent) := by
      simp only [next?, Literal.lexerAt, digit.byte_known.2.1, if_true]
    have behindSign : next? (Literal.lexerAt ⟨negative, whole, fraction, none⟩ .exponentSign)
        first.byte = some (Literal.lexerAt ⟨negative, whole, fraction, none⟩ .exponent) := by
      simp only [next?, Literal.lexerAt, first.byte_known.2.1, if_true]
    have behindMark : next? (Literal.lexerAt ⟨negative, whole, fraction, none⟩ .exponentMark)
        first.byte = some (Literal.lexerAt ⟨negative, whole, fraction, none⟩ .exponent) := by
      simp only [next?, Literal.lexerAt, notSign.1, notSign.2, or_self, if_false,
        first.byte_known.2.1, if_true]
    have signed (byte : UInt8) (isSign : byte = plus ∨ byte = Ascii.minus) :
        next? (Literal.lexerAt ⟨negative, whole, fraction, none⟩ .exponentMark) byte =
          some (Literal.lexerAt ⟨negative, whole, fraction, none⟩ .exponentSign) := by
      simp only [next?, Literal.lexerAt, if_pos isSign]
    simp only [Literal.exponentBytes, ExponentPart.bytes, List.cons_append, List.map_cons]
    rw [readAll?_cons mark]
    rcases sign with _ | _ | _
    · rw [List.nil_append, readAll?_cons behindMark, readAll?_digits stays]
      rfl
    · rw [List.singleton_append, readAll?_cons (signed plus (.inl rfl)), readAll?_cons behindSign,
        readAll?_digits stays]
      rfl
    · rw [List.singleton_append, readAll?_cons (signed Ascii.minus (.inr rfl)), readAll?_cons behindSign,
        readAll?_digits stays]
      rfl

/-- A literal is read to the state that belongs to it. -/
theorem readAll?_bytes (literal : Literal) : readAll? {} literal.bytes = some literal.lexer := by
  rw [Literal.bytes_eq, readAll?_append, readAll?_append, readAll?_append, readAll?_sign]
  simp only [Option.bind_some, readAll?_whole]
  have fraction := readAll?_fraction literal.negative literal.whole literal.fraction
  have bytes : Literal.fractionBytes ⟨literal.negative, literal.whole, literal.fraction, none⟩ =
      literal.fractionBytes := rfl
  rw [bytes] at fraction
  rw [fraction]
  exact readAll?_exponent literal

/-- What a lexer can read it reads into states that some literal begins. -/
theorem lexes_of_readAll? {lexer later : NumberLexer} {before bytes : List UInt8}
    (lexes : Lexes lexer before) (read : lexer.readAll? bytes = some later) :
    Lexes later (before ++ bytes) := by
  induction bytes generalizing lexer before with
  | nil =>
    cases read
    rw [List.append_nil]
    exact lexes
  | cons byte rest ih =>
    cases next : lexer.next? byte with
    | none => simp [readAll?, List.foldlM_cons, next] at read
    | some between =>
      rw [readAll?_cons next] at read
      have after := ih (lexes.step next) read
      rwa [List.append_assoc] at after

/-- Nothing of a literal goes on with the bytes. -/
def Stops (lexer : NumberLexer) : List UInt8 → Prop
  | [] => True
  | byte :: _ => lexer.next? byte = none

theorem readAll?_of_scanBytes {closed : Bool} {lexer later : NumberLexer}
    {before text : Array UInt8} {offset : Nat} {bytes : List UInt8} {input : Input}
    (scanned : lexer.scanBytes closed before offset bytes = .ok ⟨later, text, input, true⟩) :
    input.closed = closed ∧ ∃ front, bytes = front ++ input.bytes ∧
      lexer.readAll? front = some later ∧ text.toList = before.toList ++ front := by
  induction bytes generalizing lexer before offset with
  | nil =>
    rw [scanBytes] at scanned
    cases scanned
    exact ⟨rfl, [], rfl, rfl, (List.append_nil _).symm⟩
  | cons byte rest ih =>
    rw [scanBytes, step] at scanned
    cases next : lexer.next? byte with
    | some between =>
      simp only [next] at scanned
      obtain ⟨closedEq, front, rfl, read, total⟩ := ih scanned
      refine ⟨closedEq, byte :: front, rfl, by rw [readAll?_cons next, read], ?_⟩
      rw [total, Array.toList_push, List.append_assoc]
      rfl
    | none =>
      by_cases ends : lexer.canEnd
      · simp only [next, if_pos ends] at scanned
        cases scanned
        exact ⟨rfl, [], rfl, rfl, (List.append_nil _).symm⟩
      · simp only [next, if_neg ends] at scanned
        cases scanned

theorem scanBytes_ended {lexer later : NumberLexer} {before text : Array UInt8} {offset : Nat}
    {bytes : List UInt8} {input : Input} :
    lexer.scanBytes true before offset bytes ≠ .ok ⟨later, text, input, false⟩ := by
  induction bytes generalizing lexer before offset with
  | nil => nofun
  | cons byte rest ih =>
    rw [scanBytes]
    cases lexer.step byte with
    | more lexer => exact ih
    | finished => nofun
    | invalid => nofun

theorem scanBytes_of_readAll? {lexer later : NumberLexer} (before : Array UInt8)
    (offset : Nat) {front rest : List UInt8} (read : lexer.readAll? front = some later)
    (canEnd : later.canEnd) (stops : later.Stops rest) :
    ∃ text offset', lexer.scanBytes true before offset (front ++ rest) =
        .ok ⟨later, text, ⟨rest, offset', true⟩, true⟩ ∧
      text.toList = before.toList ++ front := by
  induction front generalizing lexer before offset with
  | nil =>
    cases read
    refine ⟨before, offset, ?_, (List.append_nil _).symm⟩
    cases rest with
    | nil => rfl
    | cons byte rest =>
      have ends : later.next? byte = none := stops
      rw [List.nil_append, scanBytes, step, ends]
      simp only [canEnd, if_true]
  | cons byte front ih =>
    cases next : lexer.next? byte with
    | none => simp [readAll?, List.foldlM_cons, next] at read
    | some between =>
      rw [readAll?_cons next] at read
      obtain ⟨text, offset', scanned, total⟩ := ih (before.push byte) (offset + 1) read
      refine ⟨text, offset', ?_, ?_⟩
      · rw [List.cons_append, scanBytes, step, next]
        exact scanned
      · rw [total, Array.toList_push, List.append_assoc]
        rfl

/-- A number that is read to its end is spelled by a literal. -/
theorem literal_of_scan {later : NumberLexer} {text : Array UInt8} {input rest : Input}
    (scanned : scan {} input = .ok ⟨later, text, rest, true⟩) (canEnd : later.canEnd) :
    rest.closed = input.closed ∧ ∃ literal : Literal, later = literal.lexer ∧
      text.toList = literal.bytes ∧ input.bytes = literal.bytes ++ rest.bytes := by
  obtain ⟨closedEq, front, split, read, total⟩ := readAll?_of_scanBytes scanned
  obtain ⟨literal, rfl, rfl⟩ := (lexes_of_readAll? .nothing read).of_canEnd canEnd
  exact ⟨closedEq, literal, rfl, total, split⟩

/-- A literal is read to its end where nothing goes on with it. -/
theorem scan_literal (literal : Literal) (offset : Nat) {rest : List UInt8}
    (stops : literal.lexer.Stops rest) :
    ∃ text offset', scan {} ⟨literal.bytes ++ rest, offset, true⟩ =
        .ok ⟨literal.lexer, text, ⟨rest, offset', true⟩, true⟩ ∧
      text.toList = literal.bytes :=
  scanBytes_of_readAll? #[] offset (readAll?_bytes literal) literal.canEnd_lexer stops

end NumberLexer

theorem IntegerKind.bounds_of_holds {kind : IntegerKind} {value : Int}
    (holds : kind.holds value) : -2 ^ 63 ≤ value ∧ value < 2 ^ 64 := by
  obtain ⟨signed, width⟩ := kind
  simp only [IntegerKind.holds, Bool.and_eq_true, decide_eq_true_eq] at holds
  cases signed <;> cases width <;>
    · simp only [least, greatest, IntegerWidth.bits, Bool.false_eq_true, if_true, if_false] at holds
      omega

theorem IntegerKind.holds_signed64 (value : Int) :
    signed64.holds value ↔ -2 ^ 63 ≤ value ∧ value < 2 ^ 63 := by
  simp only [holds, least, greatest, signed64, IntegerWidth.bits, Bool.and_eq_true,
    decide_eq_true_eq, if_true]
  omega

theorem IntegerKind.holds_unsigned64 (value : Int) :
    unsigned64.holds value ↔ 0 ≤ value ∧ value < 2 ^ 64 := by
  simp only [holds, least, greatest, unsigned64, IntegerWidth.bits, Bool.and_eq_true,
    decide_eq_true_eq, Bool.false_eq_true, if_false]
  omega

theorem IntegerKind.natAbs_of_holds {kind : IntegerKind} {value : Int}
    (holds : kind.holds value) : value.natAbs < 2 ^ 64 := by
  have bounds := bounds_of_holds holds
  omega

/-! ## What a literal becomes -/

/-- What a literal becomes as a number of a type: the integer that it names if the type holds it,
and an open number in double precision where no integer of 64 bits will do. -/
def Literal.outcome (literal : Literal) : NumberType → Except ParseError NumberValue
  | .integer kind =>
    match literal.integer? with
    | none => .error .floatNotAllowed
    | some value =>
      if kind.least ≤ value ∧ value ≤ kind.greatest then .ok (.integer value)
      else .error .numericOverflow
  | .any =>
    match literal.integer? with
    | none => (readDouble literal.bytes).map .any
    | some value =>
      if -2 ^ 63 ≤ value ∧ value < 2 ^ 63 then .ok (.any (.int value))
      else if 2 ^ 63 ≤ value ∧ value < 2 ^ 64 then .ok (.any (.uint value.toNat))
      else (readDouble literal.bytes).map .any
  | .single => (binary32.readFinite literal.bytes).map fun bits => .single (BitVec.ofNat 32 bits)
  | .double => (binary64.readFinite literal.bytes).map fun bits => .double (BitVec.ofNat 64 bits)

namespace NumberLexer

/-- What is too large for 64 bits is too large for each type of integers. -/
theorem readInteger_lexer (literal : Literal) (kind : IntegerKind) :
    (literal.lexer.readInteger kind).map .integer = literal.outcome (.integer kind) := by
  rw [readInteger, literal.integer_lexer, Literal.outcome]
  cases literal.integer? with
  | none => rfl
  | some value =>
    have held : kind.holds value = decide (kind.least ≤ value ∧ value ≤ kind.greatest) := by
      rw [IntegerKind.holds, Bool.decide_and]
    by_cases fits : value.natAbs < 2 ^ 64
    · simp only [if_pos fits, bind, Except.bind, held, decide_eq_true_eq]
      split <;> rfl
    · have beyond : ¬ (kind.least ≤ value ∧ value ≤ kind.greatest) := by
        intro inside
        apply fits
        have inRange : kind.holds value := by
          rw [held, decide_eq_true_eq]
          exact inside
        exact IntegerKind.natAbs_of_holds inRange
      simp only [if_neg fits, if_neg beyond, bind, Except.bind]
      rfl

theorem readNumber_lexer (literal : Literal) :
    (literal.lexer.readNumber literal.bytes).map .any = literal.outcome .any := by
  rw [readNumber, literal.integer_lexer, Literal.outcome]
  cases literal.integer? with
  | none => rfl
  | some value =>
    by_cases fits : value.natAbs < 2 ^ 64
    · simp only [if_pos fits, IntegerKind.holds_signed64, IntegerKind.holds_unsigned64]
      by_cases signed : -2 ^ 63 ≤ value ∧ value < 2 ^ 63
      · rw [if_pos signed, if_pos signed]
        rfl
      · rw [if_neg signed, if_neg signed]
        by_cases unsigned : 0 ≤ value ∧ value < 2 ^ 64
        · rw [if_pos unsigned, if_pos (by omega)]
          rfl
        · rw [if_neg unsigned, if_neg (by omega)]
    · simp only [if_neg fits]
      rw [if_neg (by omega), if_neg (by omega)]

end NumberLexer

theorem NumberType.read_lexer (type : NumberType) (literal : Literal) :
    type.read literal.lexer literal.bytes = literal.outcome type := by
  simp only [read, literal.canEnd_lexer, Bool.not_true, Bool.false_eq_true, if_false]
  cases type with
  | any => exact NumberLexer.readNumber_lexer literal
  | integer kind => exact NumberLexer.readInteger_lexer literal kind
  | single => rfl
  | double => rfl

theorem NumberType.read_literal (type : NumberType) (literal : Literal) :
    (type.read literal.lexer literal.bytes).toOption = literal.readAs type := by
  have double : (readDouble literal.bytes).toOption =
      (literal.float? binary64).map fun bits => .float (BitVec.ofNat 64 bits) := by
    rw [readDouble, Literal.float?]
    cases binary64.readFinite literal.bytes <;> rfl
  have mapped {α β : Type} (result : Except ParseError α) (f : α → β) :
      (result.map f).toOption = result.toOption.map f := by
    cases result <;> rfl
  rw [type.read_lexer literal]
  cases type with
  | any =>
    simp only [Literal.outcome, Literal.readAs, Literal.number?, IntegerKind.holds_signed64,
      IntegerKind.holds_unsigned64]
    cases literal.integer? with
    | none => rw [mapped, double]
    | some value =>
      by_cases signed : -2 ^ 63 ≤ value ∧ value < 2 ^ 63
      · simp only [if_pos signed]
        rfl
      · have same : 2 ^ 63 ≤ value ∧ value < 2 ^ 64 ↔ 0 ≤ value ∧ value < 2 ^ 64 := by omega
        simp only [if_neg signed, same]
        split
        · rfl
        · rw [mapped, double]
  | integer kind =>
    simp only [Literal.outcome, Literal.readAs]
    cases literal.integer? with
    | none => rfl
    | some value =>
      by_cases inside : kind.least ≤ value ∧ value ≤ kind.greatest
      · simp [Option.filter, IntegerKind.holds, inside, Except.toOption]
      · have outside : kind.holds value = false := by
          rw [IntegerKind.holds, ← Bool.decide_and, decide_eq_false inside]
        simp only [if_neg inside, Option.filter, outside]
        rfl
  | single => simp only [Literal.outcome, mapped, Literal.readAs, Literal.float?]
  | double => simp only [Literal.outcome, mapped, Literal.readAs, Literal.float?]

end IncrementalJson
