import IncrementalJson.Stack.Basic

/-!
# A buffer of limited size

An `Output` is a buffer with room for so many bytes and a spill behind it.  A
token always goes out whole: what does not fit is spilled, and while there is a
spill nothing more goes into the buffer, so that no byte overtakes another.
-/

set_option autoImplicit false

namespace IncrementalJson

/-- A buffer of `size` bytes that is being filled from position `start` on. -/
structure Output where
  size : Nat
  start : Nat := 0
  bytes : Array UInt8 := #[]
  spill : Scratch := #[]
  deriving DecidableEq, Repr

namespace Output

def written (out : Output) : Nat := out.start + out.bytes.size

def isFull (out : Output) : Bool := out.size ≤ out.written || !out.spill.isEmpty

def room (out : Output) : Nat :=
  if out.spill.isEmpty then out.size - out.written else 0

theorem isFull_iff (out : Output) : out.isFull ↔ out.room = 0 := by
  rw [isFull, room]
  cases out.spill.isEmpty with
  | true => simp [Nat.sub_eq_zero_iff_le]
  | false => simp

theorem room_pos {out : Output} (notFull : ¬ out.isFull) : 0 < out.room := by
  rw [isFull_iff] at notFull
  exact Nat.pos_of_ne_zero notFull

def put (out : Output) (bytes : List UInt8) : Output :=
  { out with bytes := out.bytes ++ bytes.take out.room }

/-- Puts a token into the buffer and spills what does not fit. -/
def token (out : Output) (bytes : List UInt8) : Output :=
  let room := out.room
  { out with
    bytes := out.bytes ++ bytes.take room
    spill := out.spill ++ bytes.drop room }

/-- No byte of a token is lost and none overtakes another. -/
theorem bytes_spill_token (out : Output) (bytes : List UInt8) :
    (out.token bytes).bytes.toList ++ (out.token bytes).spill.toList =
      out.bytes.toList ++ out.spill.toList ++ bytes := by
  by_cases empty : out.spill.isEmpty
  · have : out.spill = #[] := by simpa using empty
    simp [token, room, this]
  · simp [token, room, empty]

theorem written_token_le (out : Output) (bytes : List UInt8) (fits : out.written ≤ out.size) :
    (out.token bytes).written ≤ out.size := by
  by_cases empty : out.spill.isEmpty
  · have length : (out.token bytes).bytes.toList.length =
        out.bytes.size + min (out.size - out.written) bytes.length := by
      simp [token, room, empty]
    have start : (out.token bytes).start = out.start := rfl
    simp only [written, start, ← Array.length_toList, length] at *
    omega
  · simpa [token, written, room, empty] using fits

def buffer (out : Output) (blank : UInt8) : List UInt8 :=
  (List.replicate out.start blank ++ out.bytes.toList ++
    List.replicate (out.size - out.written) blank).take out.size

end Output

end IncrementalJson
