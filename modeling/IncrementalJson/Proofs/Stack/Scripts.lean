import IncrementalJson.Stack.Script
import IncrementalJson.Proofs.Stack.Runs

/-!
# Scripted frames run to their end

Every turn of a scripted frame uses up an instruction, or the frame itself when it
completes; a call hands on the instructions of the child.  So the instructions and
the frames at hand bound the turns, and `Stack.runScript` ends where the run of the
stack ends.  Giving up the frames that are left is seen newest first.
-/

set_option autoImplicit false

namespace IncrementalJson

namespace ScriptedFrame

def weight (frame : ScriptedFrame) : Nat := Instruction.turnsOf frame.script + 1

theorem turnsOf_follow_of_call {scratch : Scratch} {script : List Instruction}
    {child : ScriptedFrame} (called : (follow scratch script).2.2 = .ok (.call child)) :
    Instruction.turnsOf (follow scratch script).1 + child.weight <
      Instruction.turnsOf script := by
  induction scratch, script using follow.induct with
  | case1 | case3 | case4 | case5 => cases called
  | case2 _ id body rest =>
    cases called
    simp only [follow, weight, Instruction.turnsOf, Instruction.turns]
    omega
  | case6 _ rest ih | case7 _ bytes rest ih =>
    have fewer := ih called
    simp only [follow, Instruction.turnsOf]
    omega

theorem progress_driver : Progress driver (fun _ => True) (fun _ => 0) weight where
  call _ resumed := by
    simp only [driver, Turn.mk.injEq] at resumed
    obtain ⟨-, rfl, -, called⟩ := resumed
    have fewer := turnsOf_follow_of_call called
    refine ⟨trivial, trivial, ?_⟩
    simp only [weight] at fewer ⊢
    omega
  pause _ _ := trivial
  complete _ _ := Nat.lt_add_left 0 (Nat.succ_pos _)
  accept _ accepted := by
    simp only [driver, Handover.mk.injEq] at accepted
    obtain ⟨-, rfl, -⟩ := accepted
    exact ⟨trivial, Nat.le_refl _⟩
  finish _ := Nat.le_refl _

end ScriptedFrame

namespace Stack

theorem foldl_turnsOf (frames : List ScriptedFrame) (sum : Nat) :
    frames.foldl (fun sum frame => sum + Instruction.turnsOf frame.script + 1) sum =
      (frames.map ScriptedFrame.weight).sum + sum := by
  induction frames generalizing sum with
  | nil => exact (Nat.zero_add sum).symm
  | cons frame rest ih =>
    rw [List.foldl_cons, ih, List.map_cons, List.sum_cons, ScriptedFrame.weight]
    omega

/-- The turns that a run of scripted frames is given suffice, whatever the scripts are. -/
theorem runs_runScript (trace : Trace) (stack : Stack ScriptedFrame) :
    Runs ScriptedFrame.driver trace stack (stack.runScript trace) := by
  refine runs_run _ _ _ _
    (run_not_stalled ScriptedFrame.progress_driver _ _ _ (fun _ _ => trivial) ?_)
  rw [foldl_turnsOf, Stack.weight]
  omega

theorem events_teardown (trace : Trace) (stack : Stack ScriptedFrame) :
    (stack.teardown ScriptedFrame.driver trace).1.events.reverse =
      trace.events.reverse ++ stack.frames.map fun frame => .released frame.id := by
  obtain ⟨frames, fresh, limit, scratch⟩ := stack
  simp only [teardown]
  induction frames generalizing trace with
  | nil => exact (List.append_nil _).symm
  | cons top rest ih =>
    rw [List.foldl_cons, ih]
    simp [ScriptedFrame.driver, Trace.add]

end Stack

end IncrementalJson
