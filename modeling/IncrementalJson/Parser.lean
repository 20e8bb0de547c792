import IncrementalJson.Frame

/-!
# Reading a document in chunks

A `Parser` is fed a document chunk by chunk and gives the value at the end.  A
chunk is read by one run of the frames; behind the value only whitespace may
stand.  The first error stays: it is the answer to every later call.
-/

set_option autoImplicit false

namespace IncrementalJson

open Ascii

inductive ParserStatus where
  /-- Nothing was fed. -/
  | created
  /-- The document is not complete, as far as can be told. -/
  | paused
  /-- The value is complete; only whitespace may follow. -/
  | finished
  | failed (error : ParseError)
  deriving DecidableEq, Repr

structure Parser where
  schema : Schema
  shape : Shape
  stack : Stack Frame
  /-- The value of the document, once the last frame has completed. -/
  value : Value
  /-- Bytes fed so far. -/
  offset : Nat
  status : ParserStatus

structure Reading where
  input : Input
  value : Value

/-- Frames that read a document of a shape.  A failure ends the document, so the rest of the
input and the frame that failed are not kept; a fresh frame stands in its place. -/
def readDriver (schema : Schema) (shape : Shape) : Driver Reading Frame ParseError where
  resume reading frame scratch :=
    match frame.resume schema reading.input scratch with
    | .ok ⟨frame, input, scratch, step⟩ => ⟨{ reading with input }, frame, scratch, .ok step⟩
    | .error error =>
      ⟨{ reading with input := reading.input.spent }, .start schema shape, #[], .error error⟩
  accept reading done parent :=
    match parent.accept done with
    | .ok parent => ⟨reading, parent, .ok ()⟩
    | .error error => ⟨reading, .start schema shape, .error error⟩
  finish reading done :=
    match done.deliver shape with
    | .ok value => ({ reading with value }, .ok ())
    | .error error => (reading, .error error)
  release reading _ := reading
  depthExceeded := .maxDepthReached

/-- More turns than a run over so many bytes takes that finds so many frames: a turn that takes
no byte begins an element, a member or the content of a variant, or ends a frame. -/
def turnsFor (bytes depth : Nat) : Nat := 8 * (bytes + depth) + 1

namespace Parser

def fail (parser : Parser) (error : ParseError) : Parser :=
  { parser with
    stack := parser.stack.cleared
    status := .failed error }

def create (schema : Schema) (shape : Shape) (limit : Option Nat := none) : Parser :=
  let parser : Parser := ⟨schema, shape, { limit }, schema.initial shape, 0, .created⟩
  match parser.stack.push (.start schema shape) with
  | .ok stack => { parser with stack }
  | .error reached => parser.fail (.maxDepthReached reached)

def depth (parser : Parser) : Nat := parser.stack.depth

def error? (parser : Parser) : Option ParseError :=
  match parser.status with
  | .failed error => some error
  | _ => none

/-- What a run over a chunk leads to: behind the end of the value only whitespace may stand. -/
def settle (schema : Schema) (shape : Shape) (offset : Nat)
    (run : Run Reading Frame ParseError) : Parser :=
  match run with
  | ⟨⟨input, value⟩, stack, outcome⟩ =>
    let parser : Parser := ⟨schema, shape, stack, value, offset, .paused⟩
    match outcome with
    | .paused => parser
    | .done =>
      match input.skipSpaces with
      | ⟨byte :: _, position, _⟩ => parser.fail (.unexpectedByte byte position)
      | ⟨[], _, _⟩ => { parser with status := .finished }
    | .failed error => parser.fail error
    | .stalled => parser.fail (.unexpected .stalled)

/-- Reads a chunk.  The chunk counts as fed whole even if a byte of it is refused, but not if
the document was given up before. -/
def feed (parser : Parser) (chunk : List UInt8) : Parser :=
  match parser with
  | ⟨schema, shape, stack, value, offset, .failed error⟩ =>
    ⟨schema, shape, stack, value, offset, .failed error⟩
  | ⟨schema, shape, stack, value, offset, _⟩ =>
    let turns := turnsFor chunk.length stack.depth
    settle schema shape (offset + chunk.length)
      (stack.run (readDriver schema shape) turns ⟨⟨chunk, offset, false⟩, value⟩)

def feedAll (parser : Parser) (chunks : List (List UInt8)) : Parser :=
  chunks.foldl feed parser

def finish (parser : Parser) : Except ParseError Value :=
  match parser.status with
  | .failed error => .error error
  | _ =>
    if parser.stack.isEmpty then .ok parser.value
    else
      let run := parser.stack.run (readDriver parser.schema parser.shape)
        (turnsFor 0 parser.depth) ⟨⟨[], parser.offset, true⟩, parser.value⟩
      match run.outcome with
      | .done => .ok run.context.value
      | .paused => .error .endOfData
      | .failed error => .error error
      | .stalled => .error (.unexpected .stalled)

end Parser

def parse (schema : Schema) (shape : Shape) (document : List UInt8)
    (limit : Option Nat := none) : Except ParseError Value :=
  ((Parser.create schema shape limit).feed document).finish

end IncrementalJson
