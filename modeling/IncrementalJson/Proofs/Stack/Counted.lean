import IncrementalJson.Proofs.Stack.Runs

/-!
# Counting turns

A driver can count how often it resumes a frame without a change to what it does.
`Stack.Stops` says how a loop over a stack ends, and after how many turns.  If
every turn uses up something, the room in the context and the weight of the
frames bound the number of turns.
-/

set_option autoImplicit false

namespace IncrementalJson

variable {κ φ ε : Type}

def Driver.counted (driver : Driver κ φ ε) : Driver (κ × Nat) φ ε where
  resume counting top scratch :=
    let turn := driver.resume counting.1 top scratch
    ⟨(turn.context, counting.2 + 1), turn.frame, turn.scratch, turn.result⟩
  accept counting done parent :=
    let handover := driver.accept counting.1 done parent
    ⟨(handover.context, counting.2), handover.parent, handover.result⟩
  finish counting done :=
    let finished := driver.finish counting.1 done
    ((finished.1, counting.2), finished.2)
  release counting frame := (driver.release counting.1 frame, counting.2)
  depthExceeded := driver.depthExceeded

def Run.withCount (run : Run κ φ ε) (count : Nat) : Run (κ × Nat) φ ε :=
  ⟨(run.context, count), run.stack, run.outcome⟩

/-- The loop over a stack ends like this, after so many turns. -/
def Stack.Stops (driver : Driver κ φ ε) (context : κ) (stack : Stack φ) (run : Run κ φ ε)
    (turns : Nat) : Prop :=
  Runs driver.counted (context, 0) stack (run.withCount turns)

namespace Driver

theorem resume_counted {driver : Driver κ φ ε} {context context' : κ} {top top' : φ}
    {scratch scratch' : Scratch} {result : Except ε (Step φ)}
    (resumed : driver.resume context top scratch = ⟨context', top', scratch', result⟩)
    (count : Nat) :
    driver.counted.resume (context, count) top scratch =
      ⟨(context', count + 1), top', scratch', result⟩ := by
  simp only [counted, resumed]

theorem resume_of_counted {driver : Driver κ φ ε} {counting counting' : κ × Nat} {top top' : φ}
    {scratch scratch' : Scratch} {result : Except ε (Step φ)}
    (resumed : driver.counted.resume counting top scratch =
      ⟨counting', top', scratch', result⟩) :
    driver.resume counting.1 top scratch = ⟨counting'.1, top', scratch', result⟩ := by
  rcases turn : driver.resume counting.1 top scratch with ⟨context, frame, rest, outcome⟩
  simp only [counted, turn] at resumed
  cases resumed
  rfl

end Driver

theorem Stack.handOver_counted (driver : Driver κ φ ε) {context context' : κ} {done : φ}
    {stack stack' : Stack φ} {result : Except ε Unit}
    (handed : stack.handOver driver context done = (context', stack', result)) (count : Nat) :
    stack.handOver driver.counted (context, count) done = ((context', count), stack', result) := by
  obtain ⟨frames, fresh, limit, scratch⟩ := stack
  cases frames with
  | nil =>
    cases handed
    rfl
  | cons parent below =>
    cases handed
    rfl

theorem Stack.handOver_of_counted {driver : Driver κ φ ε} {counting counting' : κ × Nat}
    {done : φ} {stack stack' : Stack φ} {result : Except ε Unit}
    (handed : stack.handOver driver.counted counting done = (counting', stack', result)) :
    stack.handOver driver counting.1 done = (counting'.1, stack', result) := by
  obtain ⟨frames, fresh, limit, scratch⟩ := stack
  cases frames with
  | nil =>
    cases handed
    rfl
  | cons parent below =>
    cases handed
    rfl

namespace Runs

variable {driver : Driver κ φ ε} {fits : φ → Prop} {room : κ → Nat} {weight : φ → Nat}

theorem counted {context : κ} {stack : Stack φ} {run : Run κ φ ε}
    (progress : Progress driver fits room weight) (runs : Runs driver context stack run)
    (fit : ∀ frame ∈ stack.frames, fits frame) (count : Nat) :
    ∃ turns, turns ≤ room context + stack.weight weight + 1 ∧
      Runs driver.counted (context, count) stack (run.withCount (count + turns)) := by
  induction runs generalizing count with
  | empty => exact ⟨0, Nat.zero_le _, .empty⟩
  | fail resumed =>
    exact ⟨1, Nat.le_add_left _ _, .fail (Driver.resume_counted resumed count)⟩
  | pause resumed =>
    exact ⟨1, Nat.le_add_left _ _, .pause (Driver.resume_counted resumed count)⟩
  | refuse resumed pushed =>
    exact ⟨1, Nat.le_add_left _ _, .refuse (Driver.resume_counted resumed count) pushed⟩
  | reject resumed handed =>
    exact ⟨1, Nat.le_add_left _ _, .reject (Driver.resume_counted resumed count)
      (Stack.handOver_counted driver handed (count + 1))⟩
  | call resumed pushed _ ih =>
    obtain ⟨topFits, restFit⟩ := List.forall_mem_cons.mp fit
    obtain ⟨topFits', childFits, used⟩ := progress.call topFits resumed
    have heavier := Stack.weight_push weight pushed
    obtain ⟨turns, few, goesOn⟩ := ih (by
      rw [Stack.push_eq pushed]
      exact List.forall_mem_cons.mpr ⟨childFits, List.forall_mem_cons.mpr ⟨topFits', restFit⟩⟩)
      (count + 1)
    refine ⟨turns + 1, ?_, ?_⟩
    · simp only [Stack.weight, List.map_cons, List.sum_cons] at heavier few ⊢
      omega
    · rw [Nat.add_comm turns, ← Nat.add_assoc]
      exact .call (Driver.resume_counted resumed count) pushed goesOn
  | complete resumed handed _ ih =>
    obtain ⟨topFits, restFit⟩ := List.forall_mem_cons.mp fit
    have used := progress.complete topFits resumed
    obtain ⟨fit', lighter⟩ := Stack.weight_handOver progress restFit handed
    obtain ⟨turns, few, goesOn⟩ := ih fit' (count + 1)
    refine ⟨turns + 1, ?_, ?_⟩
    · simp only [Stack.weight, List.map_cons, List.sum_cons] at lighter few ⊢
      omega
    · rw [Nat.add_comm turns, ← Nat.add_assoc]
      exact .complete (Driver.resume_counted resumed count)
        (Stack.handOver_counted driver handed (count + 1)) goesOn

theorem of_counted {counting : κ × Nat} {stack : Stack φ} {run : Run (κ × Nat) φ ε}
    (runs : Runs driver.counted counting stack run) :
    Runs driver counting.1 stack ⟨run.context.1, run.stack, run.outcome⟩ := by
  induction runs with
  | empty => exact .empty
  | fail resumed => exact .fail (Driver.resume_of_counted resumed)
  | pause resumed => exact .pause (Driver.resume_of_counted resumed)
  | refuse resumed pushed => exact .refuse (Driver.resume_of_counted resumed) pushed
  | call resumed pushed _ ih => exact .call (Driver.resume_of_counted resumed) pushed ih
  | reject resumed handed =>
    exact .reject (Driver.resume_of_counted resumed) (Stack.handOver_of_counted handed)
  | complete resumed handed _ ih =>
    exact .complete (Driver.resume_of_counted resumed) (Stack.handOver_of_counted handed) ih

end Runs

namespace Stack

/-- A loop whose turns use up something stops, after at most one turn more than there are room
and weight. -/
theorem exists_stops {driver : Driver κ φ ε} {fits : φ → Prop} {room : κ → Nat}
    {weight : φ → Nat} (progress : Progress driver fits room weight) (context : κ)
    (stack : Stack φ) (fit : ∀ frame ∈ stack.frames, fits frame) :
    ∃ run turns, stack.Stops driver context run turns ∧
      turns ≤ room context + stack.weight weight + 1 := by
  have enough := run_not_stalled progress (room context + stack.weight weight + 1) context stack
    fit (Nat.lt_succ_self _)
  obtain ⟨turns, few, counted⟩ :=
    Runs.counted progress (runs_run driver _ context stack enough) fit 0
  rw [Nat.zero_add] at counted
  exact ⟨_, turns, counted, few⟩

theorem Stops.runs {driver : Driver κ φ ε} {context : κ} {stack : Stack φ} {run : Run κ φ ε}
    {turns : Nat} (stops : stack.Stops driver context run turns) :
    Runs driver context stack run :=
  Runs.of_counted stops

end Stack

end IncrementalJson
