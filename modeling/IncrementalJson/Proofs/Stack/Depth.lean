import IncrementalJson.Proofs.Stack.Runs

/-!
# Runs under a limit

A run under a limit goes turn by turn like the run without one, as long as that
one has no more frames than the limit.  The first push beyond the limit fails, so
that there are never more frames.
-/

set_option autoImplicit false

namespace IncrementalJson

variable {κ φ ε : Type} {driver : Driver κ φ ε} {context : κ} {stack : Stack φ}

def Stack.under (stack : Stack φ) (limit : Option Nat) : Stack φ := { stack with limit }

def Run.under (run : Run κ φ ε) (limit : Option Nat) : Run κ φ ε :=
  { run with stack := run.stack.under limit }

@[simp] theorem Stack.depth_under (limit : Option Nat) :
    (stack.under limit).depth = stack.depth := rfl

namespace Stack

/-- What the first turn of a run leads to, whatever the limit: the end, a stack that is no
higher, or a stack that is higher by one if the limit leaves room for it. -/
inductive FirstTurn (driver : Driver κ φ ε) (context : κ) (stack : Stack φ) : Prop where
  | ends (last : Run κ φ ε) (depth : last.stack.depth ≤ stack.depth)
      (run : ∀ fuel limit, (stack.under limit).run driver (fuel + 1) context = last.under limit)
  | goesOn (context' : κ) (stack' : Stack φ) (depth : stack'.depth ≤ stack.depth)
      (run : ∀ fuel limit, (stack.under limit).run driver (fuel + 1) context =
        (stack'.under limit).run driver fuel context')
  | pushes (context' context'' : κ) (stack' refusing : Stack φ)
      (depth : stack'.depth = stack.depth + 1)
      (run : ∀ fuel limit, (∀ most, limit = some most → stack.depth < most) →
        (stack.under limit).run driver (fuel + 1) context =
          (stack'.under limit).run driver fuel context')
      (height : refusing.depth = stack.depth)
      (refused : ∀ fuel most, most ≤ stack.depth →
        (stack.under (some most)).run driver (fuel + 1) context =
          ⟨context'', refusing.under (some most), .failed (driver.depthExceeded most)⟩)

theorem push_under_of_room (stack : Stack φ) (child : φ) {limit : Option Nat}
    (room : ∀ most, limit = some most → stack.depth < most) :
    (stack.under limit).push child =
      .ok (Stack.under ⟨child :: stack.frames, stack.fresh + 1, none, stack.scratch⟩ limit) := by
  cases limit with
  | none => rfl
  | some most => exact if_neg (Nat.not_le.mpr (room most rfl))

theorem push_under_of_full (stack : Stack φ) (child : φ) {most : Nat} (full : most ≤ stack.depth) :
    (stack.under (some most)).push child = .error most :=
  if_pos full

theorem firstTurn (driver : Driver κ φ ε) (context : κ) (stack : Stack φ) :
    FirstTurn driver context stack := by
  obtain ⟨frames, fresh, limit, scratch⟩ := stack
  cases frames with
  | nil => exact .ends ⟨context, ⟨[], 0, none, scratch⟩, .done⟩ (Nat.le_refl _) fun _ _ => rfl
  | cons top rest =>
    rcases resumed : driver.resume context top scratch with ⟨context', top', scratch', result⟩
    let resumedStack : Stack φ := ⟨top' :: rest, fresh, none, scratch'⟩
    rcases result with error | step
    · refine .ends ⟨context', resumedStack, .failed error⟩ (Nat.le_refl _) fun fuel limit => ?_
      simp only [under, run, resumed]
      rfl
    · cases step with
      | pause =>
        refine .ends ⟨context', resumedStack.beginPause, .paused⟩ (Nat.le_refl _)
          fun fuel limit => ?_
        simp only [under, run, resumed]
        rfl
      | call child =>
        refine .pushes context' (driver.release context' child)
          ⟨child :: top' :: rest, fresh + 1, none, scratch'⟩ resumedStack rfl
          (fun fuel limit room => ?_) rfl fun fuel most full => ?_
        · have pushed := push_under_of_room resumedStack child room
          simp only [under, resumedStack] at pushed
          simp only [under, run, resumed, pushed]
        · have refused := push_under_of_full resumedStack child full
          simp only [under, resumedStack] at refused
          simp only [under, run, resumed, refused, resumedStack]
      | complete =>
        cases rest with
        | nil =>
          rcases finished : driver.finish context' top' with ⟨context'', error | ⟨⟩⟩
          · refine .ends ⟨context'', ⟨[], fresh - 1, none, scratch'⟩, .failed error⟩
              (Nat.zero_le _) fun fuel limit => ?_
            simp only [under, run, resumed, handOver, finished]
            rfl
          · refine .goesOn context'' ⟨[], fresh - 1, none, scratch'⟩ (Nat.zero_le _)
              fun fuel limit => ?_
            simp only [under, run, resumed, handOver, finished]
        | cons parent below =>
          rcases accepted : driver.accept context' top' parent with
            ⟨context'', parent', error | ⟨⟩⟩
          · refine .ends ⟨context'', ⟨parent' :: below, fresh - 1, none, scratch'⟩, .failed error⟩
              (Nat.le_succ _) fun fuel limit => ?_
            simp only [under, run, resumed, handOver, accepted]
            rfl
          · refine .goesOn context'' ⟨parent' :: below, fresh - 1, none, scratch'⟩
              (Nat.le_succ _) fun fuel limit => ?_
            simp only [under, run, resumed, handOver, accepted]

theorem limit_run (driver : Driver κ φ ε) (fuel : Nat) (context : κ) (stack : Stack φ)
    (limit : Option Nat) :
    ((stack.under limit).run driver fuel context).stack.limit = limit := by
  induction fuel generalizing context stack with
  | zero => rfl
  | succ fuel ih =>
    cases firstTurn driver context stack with
    | ends last _ ended => rw [ended]; rfl
    | goesOn context' stack' _ continued => rw [continued, ih]
    | pushes context' _ stack' _ _ pushed _ refused =>
      by_cases room : ∀ most, limit = some most → stack.depth < most
      · rw [pushed fuel limit room, ih]
      · obtain ⟨most, rfl, full⟩ : ∃ most, limit = some most ∧ most ≤ stack.depth := by
          simpa using room
        rw [refused fuel most full]
        rfl

/-- As long as there is room for all frames, the limit makes no difference. -/
theorem run_under_of_fits {fuel most : Nat}
    (fits : ∀ turns ≤ fuel, ((stack.under none).run driver turns context).stack.depth ≤ most) :
    (stack.under (some most)).run driver fuel context =
      ((stack.under none).run driver fuel context).under (some most) := by
  induction fuel generalizing context stack with
  | zero => rfl
  | succ fuel ih =>
    cases firstTurn driver context stack with
    | ends last _ ended => rw [ended, ended]; rfl
    | goesOn context' stack' _ continued =>
      rw [continued, continued]
      refine ih fun turns few => ?_
      rw [← continued]
      exact fits (turns + 1) (Nat.succ_le_succ few)
    | pushes context' _ stack' _ depth pushed _ _ =>
      have free (turns : Nat) := pushed turns none nofun
      have higher := fits 1 (Nat.succ_le_succ (Nat.zero_le fuel))
      rw [free 0] at higher
      have stands : stack'.depth ≤ most := higher
      have room : stack.depth < most := Nat.le_trans (Nat.le_of_eq depth.symm) stands
      rw [free, pushed fuel (some most) (by rintro _ ⟨⟩; exact room)]
      refine ih fun turns few => ?_
      rw [← free]
      exact fits (turns + 1) (Nat.succ_le_succ few)

/-- A run that would come to more frames than the limit fails. -/
theorem run_under_of_exceeds {turns fuel most : Nat} (small : stack.depth ≤ most)
    (few : turns ≤ fuel)
    (exceeds : most < ((stack.under none).run driver turns context).stack.depth) :
    ((stack.under (some most)).run driver fuel context).outcome =
      .failed (driver.depthExceeded most) := by
  induction turns generalizing fuel context stack with
  | zero => exact absurd exceeds (Nat.not_lt.mpr small)
  | succ turns ih =>
    obtain ⟨fuel, rfl⟩ := Nat.exists_eq_add_one_of_ne_zero (Nat.ne_of_gt (Nat.zero_lt_of_lt few))
    have fewer : turns ≤ fuel := Nat.le_of_succ_le_succ few
    cases firstTurn driver context stack with
    | ends last depth ended =>
      rw [ended] at exceeds
      exact absurd exceeds (Nat.not_lt.mpr (Nat.le_trans depth small))
    | goesOn context' stack' depth continued =>
      rw [continued] at exceeds ⊢
      exact ih (Nat.le_trans depth small) fewer exceeds
    | pushes context' _ stack' _ depth pushed _ refused =>
      rw [pushed turns none nofun] at exceeds
      rcases Nat.lt_or_ge stack.depth most with room | full
      · rw [pushed fuel (some most) (by rintro _ ⟨⟩; exact room)]
        exact ih (depth ▸ room) fewer exceeds
      · rw [refused fuel most full]

theorem depth_run_under_le {most : Nat} (small : stack.depth ≤ most) (fuel : Nat) :
    ((stack.under (some most)).run driver fuel context).stack.depth ≤ most := by
  induction fuel generalizing context stack with
  | zero => exact small
  | succ fuel ih =>
    cases firstTurn driver context stack with
    | ends last depth ended =>
      rw [ended]
      exact Nat.le_trans depth small
    | goesOn context' stack' depth continued =>
      rw [continued]
      exact ih (Nat.le_trans depth small)
    | pushes context' _ stack' _ depth pushed height refused =>
      rcases Nat.lt_or_ge stack.depth most with room | full
      · rw [pushed fuel (some most) (by rintro _ ⟨⟩; exact room)]
        exact ih (depth ▸ room)
      · rw [refused fuel most full]
        exact Nat.le_trans (Nat.le_of_eq height) small

end Stack

end IncrementalJson
