import IncrementalJson.Input
import IncrementalJson.Number.Literal
import IncrementalJson.Text.StringLexer

/-!
# Scanning strings and numbers

The loops that feed an input to a lexer until the token ends or the input does.
Plain bytes of a string are set aside in runs: a run is added to the octets of
the string when an escape or the end of the input comes, and is handed over by
itself when the string ends.
-/

set_option autoImplicit false

namespace IncrementalJson

inductive StringScan where
  /-- The input ran out, behind the octets that were read. -/
  | pending (lexer : StringLexer) (octets : Array UInt8) (input : Input)
  /-- The string ended: the octets that were set aside, the run of plain bytes behind them, and
  the input behind the closing quote. -/
  | closed (octets tail : Array UInt8) (input : Input)
  deriving DecidableEq, Repr

def StringLexer.scanBytes (closed : Bool) : StringLexer → (octets run : Array UInt8) → Nat →
    List UInt8 → Except ParseError StringScan
  | lexer, octets, run, offset, [] =>
    if closed then .error .endOfData
    else .ok (.pending lexer (octets ++ run) ⟨[], offset, closed⟩)
  | lexer, octets, run, offset, byte :: rest =>
    match lexer.step byte offset with
    | .ok .plain => scanBytes closed lexer octets (run.push byte) (offset + 1) rest
    | .ok (.more lexer added) =>
      scanBytes closed lexer (octets ++ run ++ added) #[] (offset + 1) rest
    | .ok .closed => .ok (.closed octets run ⟨rest, offset + 1, closed⟩)
    | .error error => .error error

/-- Reads an input for the end of a string whose octets so far are given. -/
def StringLexer.scan (lexer : StringLexer) (octets : Array UInt8) (input : Input) :
    Except ParseError StringScan :=
  lexer.scanBytes input.closed octets #[] input.offset input.bytes

/-- What reading an input for the end of a number comes to: the bytes of the number, the input
behind them, and whether the number has ended. -/
structure NumberScan where
  lexer : NumberLexer
  text : Array UInt8
  input : Input
  ended : Bool
  deriving DecidableEq, Repr

def NumberLexer.scanBytes (closed : Bool) : NumberLexer → Array UInt8 → Nat → List UInt8 →
    Except ParseError NumberScan
  | lexer, text, offset, [] => .ok ⟨lexer, text, ⟨[], offset, closed⟩, closed⟩
  | lexer, text, offset, byte :: rest =>
    match lexer.step byte with
    | .more lexer => scanBytes closed lexer (text.push byte) (offset + 1) rest
    | .finished => .ok ⟨lexer, text, ⟨byte :: rest, offset, closed⟩, true⟩
    | .invalid => .error .invalidNumber

def NumberLexer.scan (lexer : NumberLexer) (input : Input) : Except ParseError NumberScan :=
  lexer.scanBytes input.closed #[] input.offset input.bytes

end IncrementalJson
