import IncrementalJson.Proofs.Stack.Runs
import IncrementalJson.Proofs.Writing.Steps

/-!
# What emitters write

`Emits` says which bytes the steps of an emitter stand for, however the buffers
are cut.  What a buffer and its spill hold together grows by exactly the tokens
that are put into it.
-/

set_option autoImplicit false

namespace IncrementalJson

/-- The steps that a value of a shape starts with. -/
inductive Starts (schema : Schema) : Shape → Value → Emitter → Prop where
  | null {shape : Shape} (unboxed : shape.unbox = .null) :
      Starts schema shape .null (.token Ascii.nullText)
  | bool {shape : Shape} (value : Bool) (unboxed : shape.unbox = .bool) :
      Starts schema shape (.bool value) (.token (boolText value))
  | string {shape : Shape} (text : String) (unboxed : shape.unbox = .string) :
      Starts schema shape (.string text) (.ofString text)
  | number {shape : Shape} {type : NumberType} {value : NumberValue} {text : List Char}
      (unboxed : shape.unbox = .number type) (written : value.text? = some text) :
      Starts schema shape (.number value) (.token (Utf8.encode text))
  | list {shape item : Shape} (items : List Value) (unboxed : shape.unbox = .list item) :
      Starts schema shape (.list items) (.ofItems item items)
  | held {shape : Shape} {value : Value} {emitter : Emitter} (unboxed : shape.unbox = .variant)
      (started : Starts schema value.heldShape value emitter) :
      Starts schema shape (.held value) emitter
  | absent {shape item : Shape} (unboxed : shape.unbox = .option item) :
      Starts schema shape .absent (.token Ascii.nullText)
  | present {shape item : Shape} {value : Value} {emitter : Emitter}
      (unboxed : shape.unbox = .option item) (started : Starts schema item value emitter) :
      Starts schema shape (.present value) emitter
  | object {shape : Shape} {table : Table} (members : List Value) (presence : PresenceBits 64)
      (extras : Entries Value) (declared : schema.table? shape.unbox = some table) :
      Starts schema shape (.object members presence extras)
        (.ofObject table members presence extras)

theorem Emitter.start_eq_ok_iff (schema : Schema) (shape : Shape) (value : Value)
    (emitter : Emitter) :
    Emitter.start schema shape value = .ok emitter ↔ Starts schema shape value emitter := by
  constructor
  · intro started
    fun_induction Emitter.start schema shape value with
    | case1 _ unboxed => cases started; exact .null unboxed
    | case2 _ value unboxed => cases started; exact .bool value unboxed
    | case3 _ text unboxed => cases started; exact .string text unboxed
    | case4 _ value type unboxed text written => cases started; exact .number unboxed written
    | case6 _ items item unboxed => cases started; exact .list items unboxed
    | case8 _ value unboxed ih => exact .held unboxed (ih started)
    | case9 _ item unboxed => cases started; exact .absent unboxed
    | case10 _ value item unboxed ih => exact .present unboxed (ih started)
    | case11 _ members presence extras table declared =>
      cases started
      exact .object members presence extras declared
    | case5 | case7 | case12 | case13 => cases started
  · intro starts
    induction starts with
    | null unboxed => rw [Emitter.start.eq_def, unboxed]
    | bool value unboxed => rw [Emitter.start.eq_def, unboxed]
    | string text unboxed => rw [Emitter.start.eq_def, unboxed]
    | number unboxed written => rw [Emitter.start.eq_def, unboxed]; simp only [written]
    | list items unboxed => rw [Emitter.start.eq_def, unboxed]
    | held unboxed _ ih => rw [Emitter.start.eq_def, unboxed]; exact ih
    | absent unboxed => rw [Emitter.start.eq_def, unboxed]
    | present unboxed _ ih => rw [Emitter.start.eq_def, unboxed]; exact ih
    | object members presence extras declared => rw [Emitter.start.eq_def]; simp only [declared]

inductive Emits (schema : Schema) : List EmitStep → List UInt8 → Prop where
  | nil : Emits schema [] []
  | token {bytes text : List UInt8} {rest : List EmitStep} (more : Emits schema rest text) :
      Emits schema (.token bytes :: rest) (bytes ++ text)
  | call {lead inner text : List UInt8} {shape : Shape} {value : Value} {emitter : Emitter}
      {rest : List EmitStep} (started : Emitter.start schema shape value = .ok emitter)
      (written : Emits schema emitter.steps inner) (more : Emits schema rest text) :
      Emits schema (.call lead shape value :: rest) (lead ++ (inner ++ text))

def Written (schema : Schema) (shape : Shape) (value : Value) (text : List UInt8) : Prop :=
  ∃ emitter, Emitter.start schema shape value = .ok emitter ∧ Emits schema emitter.steps text

variable {schema : Schema}

theorem emits_nil (text : List UInt8) : Emits schema [] text ↔ text = [] := by
  constructor
  · intro emits
    cases emits
    rfl
  · rintro rfl
    exact .nil

theorem emits_token (bytes : List UInt8) (rest : List EmitStep) (text : List UInt8) :
    Emits schema (.token bytes :: rest) text ↔
      ∃ more, Emits schema rest more ∧ text = bytes ++ more := by
  constructor
  · intro emits
    cases emits with
    | token more => exact ⟨_, more, rfl⟩
  · rintro ⟨more, emits, rfl⟩
    exact .token emits

theorem emits_call (lead : List UInt8) (shape : Shape) (value : Value) (rest : List EmitStep)
    (text : List UInt8) :
    Emits schema (.call lead shape value :: rest) text ↔
      ∃ inner more, Written schema shape value inner ∧ Emits schema rest more ∧
        text = lead ++ (inner ++ more) := by
  constructor
  · intro emits
    cases emits with
    | call started written more => exact ⟨_, _, ⟨_, started, written⟩, more, rfl⟩
  · rintro ⟨inner, more, ⟨emitter, started, written⟩, emits, rfl⟩
    exact .call started written emits

/-! ## Outputs -/

namespace Output

def total (out : Output) : List UInt8 := out.bytes.toList ++ out.spill.toList

theorem total_token (out : Output) (bytes : List UInt8) :
    (out.token bytes).total = out.total ++ bytes :=
  out.bytes_spill_token bytes

def left (out : Output) : Nat := out.size - out.written

/-- Whatever was spilled found the buffer filled up. -/
def Level (out : Output) : Prop :=
  out.written ≤ out.size ∧ (out.spill ≠ #[] → out.left = 0)

theorem written_token {out : Output} (empty : out.spill = #[]) (bytes : List UInt8) :
    (out.token bytes).written = out.written + min out.left bytes.length := by
  have length : (out.token bytes).bytes.toList.length =
      out.bytes.size + min out.left bytes.length := by
    simp [token, room, empty, left]
  have start : (out.token bytes).start = out.start := rfl
  simp only [written, start, ← Array.length_toList, length]
  simp only [Array.length_toList]
  omega

theorem level_token {out : Output} (level : out.Level) (bytes : List UInt8) :
    (out.token bytes).Level := by
  obtain ⟨fits, spilled⟩ := level
  refine ⟨out.written_token_le bytes fits, ?_⟩
  intro over'
  have size : (out.token bytes).size = out.size := rfl
  by_cases empty : out.spill = #[]
  · have longer : out.left < bytes.length := by
      simp only [token, room, empty] at over'
      simpa [left] using over'
    rw [left, size, written_token empty]
    simp only [left] at *
    omega
  · have full := spilled empty
    have same : (out.token bytes).left = out.left := by
      simp [left, written, token, room, empty]
    rw [same, full]

theorem left_token {out : Output} (bytes : List UInt8) (notFull : out.isFull = false) :
    (out.token bytes).left = out.left - bytes.length := by
  simp only [isFull, Bool.or_eq_false_iff, Bool.not_eq_false'] at notFull
  have empty : out.spill = #[] := by simpa using notFull.2
  have size : (out.token bytes).size = out.size := rfl
  rw [left, size, written_token empty]
  simp only [left]
  omega

/-- The buffer holds the front of what was written, and the spill what comes behind. -/
theorem Level.bytes_eq {out : Output} (level : out.Level) (begun : out.start = 0) :
    out.bytes.toList = out.total.take out.size ∧ out.spill.toList = out.total.drop out.size := by
  obtain ⟨fits, spilled⟩ := level
  simp only [left, written, begun, Nat.zero_add] at fits spilled
  by_cases empty : out.spill = #[]
  · have total : out.total = out.bytes.toList := by simp [Output.total, empty]
    rw [total, List.take_of_length_le fits, List.drop_eq_nil_of_le fits, empty]
    exact ⟨rfl, rfl⟩
  · have full : out.bytes.toList.length = out.size := by
      have room := spilled empty
      rw [Array.length_toList]
      omega
    rw [Output.total, List.take_left' full, List.drop_left' full]
    exact ⟨rfl, rfl⟩

theorem Level.size_le {out : Output} (level : out.Level) (begun : out.start = 0)
    (full : out.isFull) : out.size ≤ out.total.length := by
  obtain ⟨fits, spilled⟩ := level
  simp only [left, written, isFull, begun, Nat.zero_add, Bool.or_eq_true, decide_eq_true_eq,
    Bool.not_eq_true', Array.isEmpty_eq_false_iff] at fits spilled full
  simp only [total, List.length_append, Array.length_toList]
  rcases full with full | full
  · omega
  · have room := spilled full
    omega

/-- One output goes on to another by writing some bytes. -/
structure Wrote (out out' : Output) (bytes : List UInt8) : Prop where
  total : out'.total = out.total ++ bytes
  size : out'.size = out.size
  start : out'.start = out.start
  level : out.Level → out'.Level

theorem wrote_nothing (out : Output) : out.Wrote out [] :=
  ⟨(List.append_nil _).symm, rfl, rfl, id⟩

theorem wrote_token (out : Output) (bytes : List UInt8) : out.Wrote (out.token bytes) bytes :=
  ⟨out.total_token bytes, rfl, rfl, fun level => level_token level bytes⟩

theorem Wrote.trans {out mid out' : Output} {front back : List UInt8}
    (first : out.Wrote mid front) (second : mid.Wrote out' back) :
    out.Wrote out' (front ++ back) where
  total := by rw [second.total, first.total, List.append_assoc]
  size := second.size.trans first.size
  start := second.start.trans first.start
  level level := second.level (first.level level)

def Reaches (out : Output) (bytes : List UInt8) : Prop :=
  out.start + out.total.length + bytes.length < out.size

theorem Wrote.reaches {out mid : Output} {front back : List UInt8} (wrote : out.Wrote mid front)
    (reaches : mid.Reaches back) : out.Reaches (front ++ back) := by
  simp only [Reaches, wrote.total, wrote.size, wrote.start, List.length_append] at *
  omega

theorem reaches_of_not_full {out : Output} (notFull : out.isFull = false) : out.Reaches [] := by
  simp only [isFull, Bool.or_eq_false_iff, decide_eq_false_iff_not, Bool.not_eq_false',
    Array.isEmpty_iff] at notFull
  obtain ⟨room, empty⟩ := notFull
  simp only [Reaches, total, empty, written] at *
  simp only [List.append_nil, Array.length_toList, List.length_nil]
  omega

theorem left_pos {out : Output} (notFull : out.isFull = false) : 0 < out.left := by
  simp only [isFull, Bool.or_eq_false_iff, decide_eq_false_iff_not] at notFull
  simp only [left]
  omega

end Output

end IncrementalJson
