import Mathlib.Algebra.GroupWithZero.Nat
import IncrementalJson.Stack.Basic

/-!
# Runs without a bound on their turns

`Runs` relates a stack to the end of its run, whatever the number of turns that
takes.  `Stack.run` agrees with it as soon as it has turns enough, and it has
them if every turn uses up something: `Progress` says that a driver does so, with
the room left in the context and a weight for every frame.
-/

set_option autoImplicit false

namespace IncrementalJson

variable {κ φ ε : Type}

/-- The end of the run of a stack. -/
inductive Runs (driver : Driver κ φ ε) : κ → Stack φ → Run κ φ ε → Prop
  | empty {context : κ} {fresh : Nat} {limit : Option Nat} {scratch : Scratch} :
      Runs driver context ⟨[], fresh, limit, scratch⟩
        ⟨context, ⟨[], 0, limit, scratch⟩, .done⟩
  | fail {context context' : κ} {top top' : φ} {rest : List φ} {fresh : Nat}
      {limit : Option Nat} {scratch scratch' : Scratch} {error : ε}
      (resumed : driver.resume context top scratch = ⟨context', top', scratch', .error error⟩) :
      Runs driver context ⟨top :: rest, fresh, limit, scratch⟩
        ⟨context', ⟨top' :: rest, fresh, limit, scratch'⟩, .failed error⟩
  | pause {context context' : κ} {top top' : φ} {rest : List φ} {fresh : Nat}
      {limit : Option Nat} {scratch scratch' : Scratch}
      (resumed : driver.resume context top scratch = ⟨context', top', scratch', .ok .pause⟩) :
      Runs driver context ⟨top :: rest, fresh, limit, scratch⟩
        ⟨context', ⟨top' :: rest, 0, limit, scratch'⟩, .paused⟩
  | refuse {context context' : κ} {top top' child : φ} {rest : List φ} {fresh reached : Nat}
      {limit : Option Nat} {scratch scratch' : Scratch}
      (resumed : driver.resume context top scratch = ⟨context', top', scratch', .ok (.call child)⟩)
      (pushed : Stack.push ⟨top' :: rest, fresh, limit, scratch'⟩ child = .error reached) :
      Runs driver context ⟨top :: rest, fresh, limit, scratch⟩
        ⟨driver.release context' child, ⟨top' :: rest, fresh, limit, scratch'⟩,
          .failed (driver.depthExceeded reached)⟩
  | call {context context' : κ} {top top' child : φ} {rest : List φ} {fresh : Nat}
      {limit : Option Nat} {scratch scratch' : Scratch} {stack : Stack φ} {run : Run κ φ ε}
      (resumed : driver.resume context top scratch = ⟨context', top', scratch', .ok (.call child)⟩)
      (pushed : Stack.push ⟨top' :: rest, fresh, limit, scratch'⟩ child = .ok stack)
      (goesOn : Runs driver context' stack run) :
      Runs driver context ⟨top :: rest, fresh, limit, scratch⟩ run
  | reject {context context' context'' : κ} {top top' : φ} {rest : List φ} {fresh : Nat}
      {limit : Option Nat} {scratch scratch' : Scratch} {stack : Stack φ} {error : ε}
      (resumed : driver.resume context top scratch = ⟨context', top', scratch', .ok .complete⟩)
      (handed : Stack.handOver driver context' top' ⟨rest, fresh - 1, limit, scratch'⟩ =
        (context'', stack, .error error)) :
      Runs driver context ⟨top :: rest, fresh, limit, scratch⟩ ⟨context'', stack, .failed error⟩
  | complete {context context' context'' : κ} {top top' : φ} {rest : List φ} {fresh : Nat}
      {limit : Option Nat} {scratch scratch' : Scratch} {stack : Stack φ} {run : Run κ φ ε}
      (resumed : driver.resume context top scratch = ⟨context', top', scratch', .ok .complete⟩)
      (handed : Stack.handOver driver context' top' ⟨rest, fresh - 1, limit, scratch'⟩ =
        (context'', stack, .ok ()))
      (goesOn : Runs driver context'' stack run) :
      Runs driver context ⟨top :: rest, fresh, limit, scratch⟩ run

theorem Stack.push_eq {frames : List φ} {fresh : Nat} {limit : Option Nat} {scratch : Scratch}
    {child : φ} {stack : Stack φ}
    (pushed : Stack.push ⟨frames, fresh, limit, scratch⟩ child = .ok stack) :
    stack = ⟨child :: frames, fresh + 1, limit, scratch⟩ := by
  cases limit with
  | none =>
    cases pushed
    rfl
  | some limit =>
    rw [push] at pushed
    split at pushed
    · cases pushed
    · cases pushed
      rfl

theorem Runs.transfer {driver : Driver κ φ ε} {context context' : κ} {top top' : φ}
    {rest : List φ} {fresh : Nat} {limit : Option Nat} {scratch scratch' : Scratch}
    {run : Run κ φ ε} (runs : Runs driver context ⟨top :: rest, fresh, limit, scratch⟩ run)
    (same : driver.resume context top scratch = driver.resume context' top' scratch') :
    Runs driver context' ⟨top' :: rest, fresh, limit, scratch'⟩ run := by
  cases runs with
  | fail resumed => exact .fail (same.symm.trans resumed)
  | pause resumed => exact .pause (same.symm.trans resumed)
  | refuse resumed pushed => exact .refuse (same.symm.trans resumed) pushed
  | call resumed pushed goesOn => exact .call (same.symm.trans resumed) pushed goesOn
  | reject resumed handed => exact .reject (same.symm.trans resumed) handed
  | complete resumed handed goesOn => exact .complete (same.symm.trans resumed) handed goesOn

namespace Stack

theorem runs_run (driver : Driver κ φ ε) (fuel : Nat) (context : κ) (stack : Stack φ)
    (enough : (stack.run driver fuel context).outcome ≠ .stalled) :
    Runs driver context stack (stack.run driver fuel context) := by
  induction fuel generalizing context stack with
  | zero => exact absurd rfl enough
  | succ fuel ih =>
    obtain ⟨frames, fresh, limit, scratch⟩ := stack
    cases frames with
    | nil => exact .empty
    | cons top rest =>
      rw [run] at enough ⊢
      rcases resumed : driver.resume context top scratch with
        ⟨context', top', scratch', error | step⟩
      · exact .fail resumed
      · simp only [resumed] at enough ⊢
        cases step with
        | pause => exact .pause resumed
        | call child =>
          cases pushed : push ⟨top' :: rest, fresh, limit, scratch'⟩ child with
          | error reached =>
            simp only [pushed]
            exact .refuse resumed pushed
          | ok stack =>
            simp only [pushed] at enough ⊢
            exact .call resumed pushed (ih context' stack enough)
        | complete =>
          rcases handed : handOver driver context' top' ⟨rest, fresh - 1, limit, scratch'⟩ with
            ⟨context'', stack, error | _⟩
          · simp only [handed]
            exact .reject resumed handed
          · simp only [handed] at enough ⊢
            exact .complete resumed handed (ih context'' stack enough)

theorem run_eq_of_runs {driver : Driver κ φ ε} {context : κ} {stack : Stack φ}
    {end_ : Run κ φ ε} (runs : Runs driver context stack end_) (fuel : Nat)
    (enough : (stack.run driver fuel context).outcome ≠ .stalled) :
    stack.run driver fuel context = end_ := by
  induction runs generalizing fuel with
  | empty =>
    cases fuel with
    | zero => exact absurd rfl enough
    | succ fuel => rfl
  | fail resumed =>
    cases fuel with
    | zero => exact absurd rfl enough
    | succ fuel => simp only [run, resumed]
  | pause resumed =>
    cases fuel with
    | zero => exact absurd rfl enough
    | succ fuel => simp only [run, resumed, beginPause]
  | refuse resumed pushed =>
    cases fuel with
    | zero => exact absurd rfl enough
    | succ fuel => simp only [run, resumed, pushed]
  | call resumed pushed _ ih =>
    cases fuel with
    | zero => exact absurd rfl enough
    | succ fuel =>
      simp only [run, resumed, pushed] at enough ⊢
      exact ih fuel enough
  | reject resumed handed =>
    cases fuel with
    | zero => exact absurd rfl enough
    | succ fuel => simp only [run, resumed, handed]
  | complete resumed handed _ ih =>
    cases fuel with
    | zero => exact absurd rfl enough
    | succ fuel =>
      simp only [run, resumed, handed] at enough ⊢
      exact ih fuel enough

end Stack

/-- Every turn of a driver uses up some of the room in the context or of the weight of the
frames, as long as they fit; and they go on to fit. -/
structure Progress (driver : Driver κ φ ε) (fits : φ → Prop) (room : κ → Nat)
    (weight : φ → Nat) : Prop where
  call : ∀ {context context' : κ} {frame frame' child : φ} {scratch scratch' : Scratch},
    fits frame →
    driver.resume context frame scratch = ⟨context', frame', scratch', .ok (.call child)⟩ →
      fits frame' ∧ fits child ∧
        room context' + weight frame' + weight child < room context + weight frame
  pause : ∀ {context context' : κ} {frame frame' : φ} {scratch scratch' : Scratch},
    fits frame →
    driver.resume context frame scratch = ⟨context', frame', scratch', .ok .pause⟩ → fits frame'
  complete : ∀ {context context' : κ} {frame frame' : φ} {scratch scratch' : Scratch},
    fits frame →
    driver.resume context frame scratch = ⟨context', frame', scratch', .ok .complete⟩ →
      room context' < room context + weight frame
  accept : ∀ {context context' : κ} {done parent parent' : φ},
    fits parent → driver.accept context done parent = ⟨context', parent', .ok ()⟩ →
      fits parent' ∧ room context' + weight parent' ≤ room context + weight parent
  finish : ∀ {context context' : κ} {done : φ},
    driver.finish context done = (context', .ok ()) → room context' ≤ room context

namespace Stack

def weight (weight : φ → Nat) (stack : Stack φ) : Nat :=
  (stack.frames.map weight).sum

theorem weight_push (weight : φ → Nat) {stack stack' : Stack φ} {child : φ}
    (pushed : stack.push child = .ok stack') :
    stack'.weight weight = stack.weight weight + weight child := by
  rw [push_eq pushed]
  simp [Stack.weight, Nat.add_comm]

theorem weight_handOver {driver : Driver κ φ ε} {fits : φ → Prop} {room : κ → Nat}
    {weight : φ → Nat} (progress : Progress driver fits room weight) {context context' : κ}
    {done : φ} {stack stack' : Stack φ} (fit : ∀ frame ∈ stack.frames, fits frame)
    (handed : stack.handOver driver context done = (context', stack', .ok ())) :
    (∀ frame ∈ stack'.frames, fits frame) ∧
      room context' + stack'.weight weight ≤ room context + stack.weight weight := by
  obtain ⟨frames, fresh, limit, scratch⟩ := stack
  cases frames with
  | nil =>
    rcases finished : driver.finish context done with ⟨context'', result⟩
    simp only [handOver, finished, Prod.mk.injEq] at handed
    obtain ⟨rfl, rfl, rfl⟩ := handed
    have lighter := progress.finish finished
    exact ⟨nofun, by simpa [Stack.weight] using lighter⟩
  | cons parent below =>
    rcases accepted : driver.accept context done parent with ⟨context'', parent', result⟩
    simp only [handOver, accepted, Prod.mk.injEq] at handed
    obtain ⟨rfl, rfl, rfl⟩ := handed
    obtain ⟨parentFits, lighter⟩ := progress.accept (fit parent List.mem_cons_self) accepted
    constructor
    · obtain ⟨-, restFit⟩ := List.forall_mem_cons.mp fit
      exact List.forall_mem_cons.mpr ⟨parentFits, restFit⟩
    · simp only [Stack.weight, List.map_cons, List.sum_cons]
      omega

theorem fits_of_runs {driver : Driver κ φ ε} {fits : φ → Prop} {room : κ → Nat}
    {weight : φ → Nat} (progress : Progress driver fits room weight) {context : κ}
    {stack : Stack φ} {run : Run κ φ ε} (runs : Runs driver context stack run)
    (fit : ∀ frame ∈ stack.frames, fits frame) (succeeds : ∀ error, run.outcome ≠ .failed error) :
    ∀ frame ∈ run.stack.frames, fits frame := by
  induction runs with
  | empty => nofun
  | fail => exact absurd rfl (succeeds _)
  | pause resumed =>
    obtain ⟨topFits, restFit⟩ := List.forall_mem_cons.mp fit
    exact List.forall_mem_cons.mpr ⟨progress.pause topFits resumed, restFit⟩
  | refuse => exact absurd rfl (succeeds _)
  | call resumed pushed _ ih =>
    obtain ⟨topFits, restFit⟩ := List.forall_mem_cons.mp fit
    obtain ⟨topFits', childFits, -⟩ := progress.call topFits resumed
    apply ih _ succeeds
    rw [push_eq pushed]
    exact List.forall_mem_cons.mpr ⟨childFits, List.forall_mem_cons.mpr ⟨topFits', restFit⟩⟩
  | reject => exact absurd rfl (succeeds _)
  | complete resumed handed _ ih =>
    obtain ⟨-, restFit⟩ := List.forall_mem_cons.mp fit
    exact ih (weight_handOver progress restFit handed).1 succeeds

/-- A run is not cut short that may take more turns than there are room and weight. -/
theorem run_not_stalled {driver : Driver κ φ ε} {fits : φ → Prop} {room : κ → Nat}
    {weight : φ → Nat} (progress : Progress driver fits room weight) (fuel : Nat) (context : κ)
    (stack : Stack φ) (fit : ∀ frame ∈ stack.frames, fits frame)
    (enough : room context + stack.weight weight < fuel) :
    (stack.run driver fuel context).outcome ≠ .stalled := by
  induction fuel generalizing context stack with
  | zero => omega
  | succ fuel ih =>
    obtain ⟨frames, fresh, limit, scratch⟩ := stack
    cases frames with
    | nil => nofun
    | cons top rest =>
      obtain ⟨topFits, restFit⟩ := List.forall_mem_cons.mp fit
      have heavy : Stack.weight weight ⟨top :: rest, fresh, limit, scratch⟩ =
          weight top + (rest.map weight).sum := by
        simp [Stack.weight]
      rw [run]
      rcases resumed : driver.resume context top scratch with
        ⟨context', top', scratch', error | step⟩
      · nofun
      · cases step with
        | pause => nofun
        | call child =>
          cases pushed : push ⟨top' :: rest, fresh, limit, scratch'⟩ child with
          | error reached => simp [pushed]
          | ok stack =>
            obtain ⟨topFits', childFits, used⟩ := progress.call topFits resumed
            have heavier := weight_push weight pushed
            simp only [Stack.weight, List.map_cons, List.sum_cons] at heavier
            simp only [pushed]
            apply ih
            · rw [push_eq pushed]
              exact List.forall_mem_cons.mpr
                ⟨childFits, List.forall_mem_cons.mpr ⟨topFits', restFit⟩⟩
            · simp only [Stack.weight]
              omega
        | complete =>
          rcases handed : handOver driver context' top' ⟨rest, fresh - 1, limit, scratch'⟩ with
            ⟨context'', stack, error | _⟩
          · simp only [handed]
            nofun
          · have used := progress.complete topFits resumed
            obtain ⟨fit', lighter⟩ := weight_handOver progress restFit handed
            simp only [Stack.weight] at lighter
            simp only [handed]
            apply ih _ _ fit'
            simp only [Stack.weight]
            omega

end Stack

end IncrementalJson
