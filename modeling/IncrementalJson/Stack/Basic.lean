/-!
# The continuation stack

A suspended activity is a stack of frames.  `Stack.run` resumes the newest frame
until it pauses, fails, calls a child, which goes on top of it, or completes; a
completed frame is taken off and handed to the frame beneath, or to the driver
if it was the last.  What frames are and how they act is the business of a
`Driver`, which also carries a context of its own through the run.

The frames pushed since the last pause are the fresh ones; a pause makes all
frames old.  `Scratch` is the region of bytes that all frames share.
-/

set_option autoImplicit false

namespace IncrementalJson

abbrev Scratch := Array UInt8

def Scratch.drain (scratch : Scratch) (count : Nat) : List UInt8 × Scratch :=
  (scratch.toList.take count, (scratch.toList.drop count).toArray)

inductive Step (φ : Type) where
  /-- To wait for the result of a child. -/
  | call (child : φ)
  /-- To wait for more input or more room. -/
  | pause
  /-- Nothing more. -/
  | complete

structure Turn (κ φ ε : Type) where
  context : κ
  frame : φ
  scratch : Scratch
  result : Except ε (Step φ)

structure Handover (κ φ ε : Type) where
  context : κ
  parent : φ
  result : Except ε Unit

/-- How frames of type `φ` act in a context of type `κ`. -/
structure Driver (κ φ ε : Type) where
  /-- Lets a frame go on. -/
  resume : κ → φ → Scratch → Turn κ φ ε
  /-- Hands a completed frame to the frame beneath it. -/
  accept : κ → (done : φ) → (parent : φ) → Handover κ φ ε
  /-- Takes the result of the last frame. -/
  finish : κ → (done : φ) → κ × Except ε Unit
  /-- Notes that a frame is given up. -/
  release : κ → φ → κ
  /-- The failure of a push beyond the limit. -/
  depthExceeded : Nat → ε

/-- Suspended frames, newest first. -/
structure Stack (φ : Type) where
  frames : List φ := []
  /-- How many of the newest frames were pushed since the last pause. -/
  fresh : Nat := 0
  /-- The greatest number of frames, if there is one. -/
  limit : Option Nat := none
  scratch : Scratch := #[]

inductive Outcome (ε : Type) where
  /-- The newest frame waits. -/
  | paused
  /-- No frame is left. -/
  | done
  | failed (error : ε)
  /-- The run was cut short. -/
  | stalled

structure Run (κ φ ε : Type) where
  context : κ
  stack : Stack φ
  outcome : Outcome ε

namespace Stack

variable {κ φ ε : Type}

def depth (stack : Stack φ) : Nat := stack.frames.length

def oldDepth (stack : Stack φ) : Nat := stack.depth - stack.fresh

def newDepth (stack : Stack φ) : Nat := stack.fresh

def isEmpty (stack : Stack φ) : Bool := stack.frames.isEmpty

def push : Stack φ → φ → Except Nat (Stack φ)
  | ⟨frames, fresh, none, scratch⟩, frame => .ok ⟨frame :: frames, fresh + 1, none, scratch⟩
  | ⟨frames, fresh, some limit, scratch⟩, frame =>
    if limit ≤ frames.length then .error limit
    else .ok ⟨frame :: frames, fresh + 1, some limit, scratch⟩

def beginPause (stack : Stack φ) : Stack φ := { stack with fresh := 0 }

def cleared (stack : Stack φ) : Stack φ :=
  { stack with frames := [], fresh := 0, scratch := #[] }

def teardown (driver : Driver κ φ ε) (context : κ) (stack : Stack φ) : κ × Stack φ :=
  (stack.frames.foldl driver.release context, stack.cleared)

/-- Hands a completed frame, which was taken off, to the frame beneath it, or to the driver if
there is none. -/
def handOver (driver : Driver κ φ ε) (context : κ) (done : φ) (stack : Stack φ) :
    κ × Stack φ × Except ε Unit :=
  match stack with
  | ⟨[], fresh, limit, scratch⟩ =>
    match driver.finish context done with
    | (context, result) => (context, ⟨[], fresh, limit, scratch⟩, result)
  | ⟨parent :: below, fresh, limit, scratch⟩ =>
    match driver.accept context done parent with
    | ⟨context, parent, result⟩ => (context, ⟨parent :: below, fresh, limit, scratch⟩, result)

/-- Resumes frames, newest first, in at most `fuel` turns. -/
def run (driver : Driver κ φ ε) : Nat → κ → Stack φ → Run κ φ ε
  | 0, context, stack => ⟨context, stack, .stalled⟩
  | fuel + 1, context, ⟨frames, fresh, limit, scratch⟩ =>
    match frames with
    | [] => ⟨context, ⟨[], 0, limit, scratch⟩, .done⟩
    | top :: rest =>
      match driver.resume context top scratch with
      | ⟨context, top, scratch, .error error⟩ =>
        ⟨context, ⟨top :: rest, fresh, limit, scratch⟩, .failed error⟩
      | ⟨context, top, scratch, .ok .pause⟩ =>
        ⟨context, beginPause ⟨top :: rest, fresh, limit, scratch⟩, .paused⟩
      | ⟨context, top, scratch, .ok (.call child)⟩ =>
        match push ⟨top :: rest, fresh, limit, scratch⟩ child with
        | .ok stack => run driver fuel context stack
        | .error reached =>
          ⟨driver.release context child, ⟨top :: rest, fresh, limit, scratch⟩,
            .failed (driver.depthExceeded reached)⟩
      | ⟨context, top, scratch, .ok .complete⟩ =>
        match handOver driver context top ⟨rest, fresh - 1, limit, scratch⟩ with
        | (context, stack, .ok ()) => run driver fuel context stack
        | (context, stack, .error error) => ⟨context, stack, .failed error⟩

end Stack

end IncrementalJson
