import IncrementalJson.Stack.Basic

/-!
# Scripted frames

Frames that follow a list of instructions and leave a trace, to watch a
continuation stack at work: who is resumed, who completes to whom, and when a
frame is given up.
-/

set_option autoImplicit false

namespace IncrementalJson

inductive Instruction where
  /-- Calls a frame with a name and a script of its own. -/
  | call (id : String) (script : List Instruction)
  | pause
  | complete
  | fail
  /-- Empties the scratch region and goes on. -/
  | clear
  /-- Adds bytes to the scratch region and goes on. -/
  | extend (bytes : List UInt8)
  deriving Inhabited

structure ScriptedFrame where
  id : String
  script : List Instruction

inductive TraceEvent where
  | resumed (id : String)
  /-- A frame was handed to its parent, or to the root if it had none. -/
  | completed (id : String) (parent : Option String)
  | released (id : String)
  deriving DecidableEq, Repr

def TraceEvent.message : TraceEvent → String
  | resumed id => "resume " ++ id
  | completed id parent => "complete " ++ id ++ " to " ++ parent.getD "root"
  | released id => "drop " ++ id

inductive ScriptError where
  /-- The script said so. -/
  | scripted
  /-- The driver would not take the result of a frame. -/
  | refused
  | depthExceeded (limit : Nat)
  deriving DecidableEq, Repr

def ScriptError.message : ScriptError → String
  | scripted => "Scripted"
  | refused => "Refused"
  | depthExceeded limit => "DepthExceeded(" ++ toString limit ++ ")"

/-- The trace, newest event first, and the frame whose result is not taken. -/
structure Trace where
  events : List TraceEvent := []
  refuse : Option String := none

namespace Trace

def add (trace : Trace) (event : TraceEvent) : Trace :=
  { trace with events := event :: trace.events }

/-- Notes that a frame completed and is gone, and whether its result is taken. -/
def handOver (trace : Trace) (id : String) (parent : Option String) :
    Trace × Except ScriptError Unit :=
  ((trace.add (.completed id parent)).add (.released id),
    if trace.refuse = some id then .error .refused else .ok ())

def messages (trace : Trace) : List String :=
  trace.events.reverse.map TraceEvent.message

end Trace

namespace ScriptedFrame

def follow (scratch : Scratch) :
    List Instruction → List Instruction × Scratch × Except ScriptError (Step ScriptedFrame)
  | [] => ([], scratch, .ok .complete)
  | .call id script :: rest => (rest, scratch, .ok (.call ⟨id, script⟩))
  | .pause :: rest => (rest, scratch, .ok .pause)
  | .complete :: rest => (rest, scratch, .ok .complete)
  | .fail :: rest => (rest, scratch, .error .scripted)
  | .clear :: rest => follow #[] rest
  | .extend bytes :: rest => follow (scratch ++ bytes) rest

def driver : Driver Trace ScriptedFrame ScriptError where
  resume trace frame scratch :=
    let (script, scratch, result) := follow scratch frame.script
    ⟨trace.add (.resumed frame.id), { frame with script }, scratch, result⟩
  accept trace done parent :=
    let (trace, result) := trace.handOver done.id (some parent.id)
    ⟨trace, parent, result⟩
  finish trace done := trace.handOver done.id none
  release trace frame := trace.add (.released frame.id)
  depthExceeded := .depthExceeded

end ScriptedFrame

mutual

def Instruction.turns : Instruction → Nat
  | .call _ script => Instruction.turnsOf script + 2
  | _ => 1

def Instruction.turnsOf : List Instruction → Nat
  | [] => 0
  | instruction :: rest => instruction.turns + Instruction.turnsOf rest

end

namespace Stack

/-- Runs scripted frames; every turn uses up an instruction or a frame. -/
def runScript (trace : Trace) (stack : Stack ScriptedFrame) :
    Run Trace ScriptedFrame ScriptError :=
  let turns := stack.frames.foldl (fun sum frame => sum + Instruction.turnsOf frame.script + 1) 1
  stack.run ScriptedFrame.driver turns trace

def pushScript (trace : Trace) (stack : Stack ScriptedFrame) (frame : ScriptedFrame) :
    Trace × Stack ScriptedFrame × Except ScriptError Unit :=
  match stack.push frame with
  | .ok stack => (trace, stack, .ok ())
  | .error limit => (trace.add (.released frame.id), stack, .error (.depthExceeded limit))

end Stack

end IncrementalJson
