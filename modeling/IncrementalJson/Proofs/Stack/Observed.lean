import IncrementalJson.Proofs.Stack.Runs

/-!
# Watching the frames of a stack

A driver can be watched without a change to what it does: every frame carries a
`Tag` that it got when it was made, and a `Ledger` in the context notes what
becomes of it.  Without the tags and the ledger, a run of the watched driver is
the run of the driver itself.

A stack is used by requests: frames are pushed on it, it is run, paused and torn
down, and every run may have a driver and a context of its own.  `Stack.serve`
answers a request, and `Session.serve` does so with the frames watched.
-/

set_option autoImplicit false

namespace IncrementalJson

variable {κ φ ε : Type}

/-! ## Tags and events -/

/-- The number of a frame in the order in which they were made, and how many frames stood
beneath it then. -/
structure Tag where
  number : Nat
  place : Nat
  deriving DecidableEq, Repr

structure Tagged (φ : Type) where
  tag : Tag
  frame : φ

inductive FrameEvent where
  /-- The frame was pushed from outside. -/
  | pushed (tag : Tag)
  /-- A frame was resumed and asked for a child. -/
  | called (parent child : Tag)
  /-- There was no room for the child that was asked for. -/
  | refused (tag : Tag)
  /-- The frame was resumed and waits. -/
  | paused (tag : Tag)
  /-- The frame was resumed and failed. -/
  | failed (tag : Tag)
  /-- The frame was resumed and answered that it is complete. -/
  | completed (tag : Tag)
  /-- The frame was handed to the one beneath it, or to the driver if there is none. -/
  | handed (tag : Tag) (parent : Option Tag)
  /-- The frame was given up with the stack. -/
  | dropped (tag : Tag)
  deriving DecidableEq, Repr

/-- What has become of the frames, newest event first, and the number of the next frame. -/
structure Ledger where
  next : Nat := 0
  history : List FrameEvent := []

namespace Ledger

def note (ledger : Ledger) (event : FrameEvent) : Ledger :=
  { ledger with history := event :: ledger.history }

def make (ledger : Ledger) (event : FrameEvent) : Ledger :=
  { ledger with next := ledger.next + 1, history := event :: ledger.history }

/-- Notes what a frame answered when it was resumed.  A child that it asks for gets the next
number, and its place above the frame. -/
def answered (ledger : Ledger) (tag : Tag) :
    Except ε (Step φ) → Ledger × Except ε (Step (Tagged φ))
  | .error error => (ledger.note (.failed tag), .error error)
  | .ok .pause => (ledger.note (.paused tag), .ok .pause)
  | .ok .complete => (ledger.note (.completed tag), .ok .complete)
  | .ok (.call child) =>
    let made : Tag := ⟨ledger.next, tag.place + 1⟩
    (ledger.make (.called tag made), .ok (.call ⟨made, child⟩))

end Ledger

/-- The driver with its frames watched.  What it means that a frame is given up depends on
where that happens. -/
def Driver.observed (driver : Driver κ φ ε) (givenUp : Tag → FrameEvent) :
    Driver (κ × Ledger) (Tagged φ) ε where
  resume watched top scratch :=
    let turn := driver.resume watched.1 top.frame scratch
    let noted := watched.2.answered top.tag turn.result
    ⟨(turn.context, noted.1), ⟨top.tag, turn.frame⟩, turn.scratch, noted.2⟩
  accept watched done parent :=
    let handover := driver.accept watched.1 done.frame parent.frame
    ⟨(handover.context, watched.2.note (.handed done.tag (some parent.tag))),
      ⟨parent.tag, handover.parent⟩, handover.result⟩
  finish watched done :=
    let finished := driver.finish watched.1 done.frame
    ((finished.1, watched.2.note (.handed done.tag none)), finished.2)
  release watched frame :=
    (driver.release watched.1 frame.frame, watched.2.note (givenUp frame.tag))
  depthExceeded := driver.depthExceeded

def Stack.untagged (stack : Stack (Tagged φ)) : Stack φ :=
  { stack with frames := stack.frames.map Tagged.frame }

def Run.untagged (run : Run (κ × Ledger) (Tagged φ) ε) : Run κ φ ε :=
  ⟨run.context.1, run.stack.untagged, run.outcome⟩

namespace Stack

theorem push_untagged (stack : Stack (Tagged φ)) (frame : Tagged φ) :
    stack.untagged.push frame.frame = (stack.push frame).map untagged := by
  obtain ⟨frames, fresh, limit, scratch⟩ := stack
  cases limit with
  | none => rfl
  | some limit =>
    simp only [untagged, push, List.length_map]
    split
    · rfl
    · rfl

theorem handOver_untagged (driver : Driver κ φ ε) (givenUp : Tag → FrameEvent) (context : κ)
    (ledger : Ledger) (done : Tagged φ) (stack : Stack (Tagged φ)) :
    let watched := stack.handOver (driver.observed givenUp) (context, ledger) done
    stack.untagged.handOver driver context done.frame =
      (watched.1.1, watched.2.1.untagged, watched.2.2) := by
  obtain ⟨frames, fresh, limit, scratch⟩ := stack
  cases frames with
  | nil => rfl
  | cons parent below => rfl

theorem room_of_push {frames : List φ} {fresh : Nat} {limit : Option Nat} {scratch : Scratch}
    {frame : φ} {stack : Stack φ}
    (pushed : push ⟨frames, fresh, limit, scratch⟩ frame = .ok stack) :
    ∀ most, limit = some most → frames.length < most := by
  rintro most rfl
  rw [push] at pushed
  split at pushed
  · cases pushed
  · exact Nat.not_le.mp ‹_›

theorem handOver_observed (driver : Driver κ φ ε) (givenUp : Tag → FrameEvent) (context : κ)
    (ledger : Ledger) (done : Tagged φ) (rest : List (Tagged φ)) (fresh : Nat)
    (limit : Option Nat) (scratch : Scratch) :
    ∃ context' rest' result, rest'.map Tagged.tag = rest.map Tagged.tag ∧
      handOver (driver.observed givenUp) (context, ledger) done
          ⟨rest, fresh, limit, scratch⟩ =
        ((context', ledger.note (.handed done.tag (rest.map Tagged.tag).head?)),
          ⟨rest', fresh, limit, scratch⟩, result) := by
  cases rest with
  | nil => exact ⟨_, [], _, rfl, rfl⟩
  | cons parent below =>
    exact ⟨_, ⟨parent.tag, (driver.accept context done.frame parent.frame).parent⟩ :: below, _,
      rfl, rfl⟩

theorem run_observed (driver : Driver κ φ ε) (givenUp : Tag → FrameEvent) (fuel : Nat)
    (context : κ) (ledger : Ledger) (stack : Stack (Tagged φ)) :
    (stack.run (driver.observed givenUp) fuel (context, ledger)).untagged =
      stack.untagged.run driver fuel context := by
  induction fuel generalizing context ledger stack with
  | zero => rfl
  | succ fuel ih =>
    obtain ⟨frames, fresh, limit, scratch⟩ := stack
    cases frames with
    | nil => rfl
    | cons top rest =>
      rcases resumed : driver.resume context top.frame scratch with
        ⟨context', frame', scratch', error | step⟩
      · simp only [run, Driver.observed, untagged, List.map_cons, resumed, Ledger.answered]
        rfl
      · cases step with
        | pause =>
          simp only [run, Driver.observed, untagged, List.map_cons, resumed, Ledger.answered]
          rfl
        | call child =>
          have pushed := push_untagged ⟨⟨top.tag, frame'⟩ :: rest, fresh, limit, scratch'⟩
            ⟨⟨ledger.next, top.tag.place + 1⟩, child⟩
          simp only [untagged, List.map_cons] at pushed
          simp only [run, untagged, List.map_cons, resumed, pushed]
          simp only [Driver.observed, resumed, Ledger.answered]
          cases push _ _ with
          | error reached => rfl
          | ok stack => exact ih context' _ stack
        | complete =>
          have handed := handOver_untagged driver givenUp context'
            (ledger.note (.completed top.tag)) ⟨top.tag, frame'⟩ ⟨rest, fresh - 1, limit, scratch'⟩
          have noted : (driver.observed givenUp).resume (context, ledger) top scratch =
              ⟨(context', ledger.note (.completed top.tag)), ⟨top.tag, frame'⟩, scratch',
                .ok .complete⟩ := by
            simp only [Driver.observed, resumed, Ledger.answered]
          simp only [untagged] at handed
          simp only [run, untagged, List.map_cons, resumed, noted, handed]
          rcases handOver _ _ _ _ with ⟨⟨context'', ledger'⟩, stack, error | ⟨⟩⟩
          · rfl
          · exact ih context'' ledger' stack

end Stack

/-! ## Requests -/

inductive Request (κ φ ε : Type) where
  | push (frame : φ)
  /-- The stack is run, for so many turns at most. -/
  | run (driver : Driver κ φ ε) (context : κ) (turns : Nat)
  | beginPause
  | teardown (driver : Driver κ φ ε) (context : κ)

/-- The stack after a request.  A frame that there is no room for leaves it as it is. -/
def Stack.serve (stack : Stack φ) : Request κ φ ε → Stack φ
  | .push frame =>
    match stack.push frame with
    | .ok stack => stack
    | .error _ => stack
  | .run driver context turns => (stack.run driver turns context).stack
  | .beginPause => stack.beginPause
  | .teardown driver context => (stack.teardown driver context).2

def Stack.serveAll (limit : Option Nat) (requests : List (Request κ φ ε)) : Stack φ :=
  requests.foldl Stack.serve { limit }

structure Session (φ : Type) where
  stack : Stack (Tagged φ)
  ledger : Ledger := {}

namespace Session

def live (session : Session φ) : List Tag := session.stack.frames.map Tagged.tag

def serve (session : Session φ) : Request κ φ ε → Session φ
  | .push frame =>
    let tag : Tag := ⟨session.ledger.next, session.stack.depth⟩
    match session.stack.push ⟨tag, frame⟩ with
    | .ok stack => ⟨stack, session.ledger.make (.pushed tag)⟩
    | .error _ => session
  | .run driver context turns =>
    let run := session.stack.run (driver.observed .refused) turns (context, session.ledger)
    ⟨run.stack, run.context.2⟩
  | .beginPause => { session with stack := session.stack.beginPause }
  | .teardown driver context =>
    let torn := session.stack.teardown (driver.observed .dropped) (context, session.ledger)
    ⟨torn.2, torn.1.2⟩

def serveAll (limit : Option Nat) (requests : List (Request κ φ ε)) : Session φ :=
  requests.foldl serve { stack := { limit } }

theorem untagged_serve (session : Session φ) (request : Request κ φ ε) :
    (session.serve request).stack.untagged = session.stack.untagged.serve request := by
  cases request with
  | push frame =>
    have pushed := session.stack.push_untagged ⟨⟨session.ledger.next, session.stack.depth⟩, frame⟩
    simp only [serve, Stack.serve, pushed]
    cases session.stack.push _ with
    | error reached => rfl
    | ok stack => rfl
  | run driver context turns =>
    exact congrArg Run.stack
      (Stack.run_observed driver .refused turns context session.ledger session.stack)
  | beginPause => rfl
  | teardown driver context => rfl

/-- Watched or not, a stack is the same after requests. -/
theorem untagged_serveAll (limit : Option Nat) (requests : List (Request κ φ ε)) :
    (serveAll limit requests).stack.untagged = Stack.serveAll limit requests := by
  have serves (session : Session φ) (stack : Stack φ) (same : session.stack.untagged = stack) :
      (requests.foldl serve session).stack.untagged = requests.foldl Stack.serve stack := by
    induction requests generalizing session stack with
    | nil => exact same
    | cons request rest ih =>
      apply ih
      rw [untagged_serve, same]
  exact serves _ _ rfl

theorem serveAll_append (limit : Option Nat) (front back : List (Request κ φ ε)) :
    (serveAll limit (front ++ back) : Session φ) = back.foldl serve (serveAll limit front) :=
  List.foldl_append

end Session

end IncrementalJson
