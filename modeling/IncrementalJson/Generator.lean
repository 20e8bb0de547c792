import IncrementalJson.Emitter

/-!
# Writing a value in pieces

A `Generator` writes the text of a value into buffers of any sizes, one after the
other; the sizes make no difference to the text.  The first error stays, and what
the failing call had written is not handed out.  `writeValue` collects the text
as a whole.
-/

set_option autoImplicit false

namespace IncrementalJson

structure Generator where
  schema : Schema
  /-- The scratch region holds the rest of a token that did not fit. -/
  stack : Stack Emitter
  /-- Bytes handed out so far. -/
  produced : Nat
  error : Option GenerateError

def writeDriver (schema : Schema) : Driver Output Emitter GenerateError where
  resume out emitter spill :=
    match emitter.resume schema { out with spill } with
    | (emitter, ⟨size, start, bytes, spill⟩, result) =>
      ⟨⟨size, start, bytes, #[]⟩, emitter, spill, result⟩
  accept out _ parent := ⟨out, parent, .ok ()⟩
  finish out _ := (out, .ok ())
  release out _ := out
  depthExceeded := .maxDepthReached

namespace Generator

def fail (generator : Generator) (error : GenerateError) : Generator :=
  { generator with
    stack := generator.stack.cleared
    error := some error }

def create (schema : Schema) (shape : Shape) (value : Value) (limit : Option Nat) : Generator :=
  let generator : Generator := ⟨schema, { limit }, 0, none⟩
  match Emitter.start schema shape value with
  | .error error => generator.fail error
  | .ok emitter =>
    match generator.stack.push emitter with
    | .ok stack => { generator with stack }
    | .error reached => generator.fail (.maxDepthReached reached)

def isFinished (generator : Generator) : Bool :=
  generator.error.isNone && generator.stack.isEmpty && generator.stack.scratch.isEmpty

/-- Hands out the next bytes, up to `size` of them. -/
def generate (generator : Generator) (size : Nat) :
    Generator × Except GenerateError (List UInt8) :=
  match generator with
  | ⟨schema, stack, produced, some error⟩ => (⟨schema, stack, produced, some error⟩, .error error)
  | ⟨schema, ⟨frames, fresh, limit, scratch⟩, produced, none⟩ =>
    let (pending, spill) := scratch.drain size
    if frames.isEmpty || !spill.isEmpty then
      (⟨schema, ⟨frames, fresh, limit, spill⟩, produced + pending.length, none⟩, .ok pending)
    else
      -- a turn that writes no byte begins the items of an array, and does so once for a frame
      let turns := size + frames.length + 1
      let run := Stack.run (writeDriver schema) turns { size, bytes := pending.toArray }
        ⟨frames, fresh, limit, spill⟩
      let bytes := run.context.bytes.toList
      let generator : Generator := ⟨schema, run.stack, produced, none⟩
      match run.outcome with
      | .failed error => (generator.fail error, .error error)
      | .stalled =>
        (generator.fail (.unexpected .stalled), .error (.unexpected .stalled))
      | _ => ({ generator with produced := produced + bytes.length }, .ok bytes)

def collect (size : Nat) : Nat → Array UInt8 → Generator → Except GenerateError (Array UInt8)
  | 0, text, generator =>
    if generator.isFinished then .ok text else .error (.unexpected .stalled)
  | calls + 1, text, generator =>
    if generator.isFinished then .ok text
    else match generator.generate size with
      | (generator, .ok bytes) => collect size calls (text ++ bytes) generator
      | (_, .error error) => .error error

end Generator

namespace Value

mutual

/-- No text of the value has more bytes than this, if no declared name has more than
`nameBound` bytes when written. -/
def extent (nameBound : Nat) : Value → Nat
  | .null | .unset | .absent => 4
  | .bool _ => 5
  | .string text => 6 * text.utf8ByteSize + 2
  | .number value => (value.text?.getD []).length
  | .list items => extentOfItems nameBound items + 2
  | .object members _ extras =>
    members.length * (nameBound + 2) + extentOfItems nameBound members +
      extentOfEntries nameBound extras + 2
  | .held value | .present value => value.extent nameBound

def extentOfItems (nameBound : Nat) : List Value → Nat
  | [] => 0
  | value :: rest => value.extent nameBound + 1 + extentOfItems nameBound rest

def extentOfEntries (nameBound : Nat) : List (String × Value) → Nat
  | [] => 0
  | (name, value) :: rest =>
    6 * name.utf8ByteSize + 4 + value.extent nameBound + extentOfEntries nameBound rest

end

end Value

def Schema.nameBound (schema : Schema) : Nat :=
  schema.records.foldl (fun bound table =>
    table.fields.foldl (fun bound field => max bound (6 * field.name.utf8ByteSize + 2)) bound) 0

/-- Size of the pieces in which a text is collected. -/
def pieceSize : Nat := 256

def writeBytes (schema : Schema) (shape : Shape) (value : Value) :
    Except GenerateError (List UInt8) :=
  let calls := value.extent schema.nameBound / pieceSize + 2
  ((Generator.create schema shape value none).collect pieceSize calls #[]).map Array.toList

def writeValue (schema : Schema) (shape : Shape) (value : Value) :
    Except GenerateError String :=
  match writeBytes schema shape value with
  | .error error => .error error
  | .ok bytes =>
    match Utf8.decodeString bytes with
    | .ok text => .ok text
    | .error _ => .error (.unexpected .invalidOutput)

end IncrementalJson
