import Mathlib.Logic.Relation
import IncrementalJson.Proofs.Stack.Observed

/-!
# A stack of frames is a call stack

`Follows` says what a call stack may do, one turn after the other: only the
newest frame is resumed, what it asks for stands above it if there is room, and
a frame that completes is taken off and handed at once to the one beneath it.
The events of every session are such ones, whatever the drivers do, and they
leave the frames that stand on its stack.  So a frame is live in the place where
it was pushed, or it was handed on once, or it was given up with the stack.
-/

set_option autoImplicit false

namespace IncrementalJson

variable {κ φ ε : Type}

/-! ## What a call stack may do -/

structure CallStack where
  live : List Tag := []
  next : Nat := 0

inductive CallStack.Step : CallStack → List FrameEvent → CallStack → Prop
  | pushed {live : List Tag} {next : Nat} :
      Step ⟨live, next⟩ [.pushed ⟨next, live.length⟩] ⟨⟨next, live.length⟩ :: live, next + 1⟩
  | called {parent : Tag} {rest : List Tag} {next : Nat} :
      Step ⟨parent :: rest, next⟩ [.called parent ⟨next, rest.length + 1⟩]
        ⟨⟨next, rest.length + 1⟩ :: parent :: rest, next + 1⟩
  | refused {parent : Tag} {rest : List Tag} {next : Nat} :
      Step ⟨parent :: rest, next⟩
        [.refused ⟨next, rest.length + 1⟩, .called parent ⟨next, rest.length + 1⟩]
        ⟨parent :: rest, next + 1⟩
  | paused {tag : Tag} {rest : List Tag} {next : Nat} :
      Step ⟨tag :: rest, next⟩ [.paused tag] ⟨tag :: rest, next⟩
  | failed {tag : Tag} {rest : List Tag} {next : Nat} :
      Step ⟨tag :: rest, next⟩ [.failed tag] ⟨tag :: rest, next⟩
  | completed {tag : Tag} {rest : List Tag} {next : Nat} :
      Step ⟨tag :: rest, next⟩ [.handed tag rest.head?, .completed tag] ⟨rest, next⟩
  | dropped {tag : Tag} {rest : List Tag} {next : Nat} :
      Step ⟨tag :: rest, next⟩ [.dropped tag] ⟨rest, next⟩

/-- The events, newest first, that lead a call stack from nothing to where it is. -/
inductive Follows : List FrameEvent → CallStack → Prop
  | start : Follows [] {}
  | step {history events : List FrameEvent} {state state' : CallStack}
      (follows : Follows history state) (step : state.Step events state') :
      Follows (events ++ history) state'

def FrameEvent.makes (tag : Tag) : FrameEvent → Bool
  | .pushed made | .called _ made => made = tag
  | _ => false

def FrameEvent.hands (tag : Tag) : FrameEvent → Bool
  | .handed done _ => done = tag
  | _ => false

/-- A frame was pushed, from outside or because another frame asked for it. -/
def Placed (history : List FrameEvent) (tag : Tag) : Prop :=
  .pushed tag ∈ history ∨ (∃ parent, .called parent tag ∈ history) ∧ .refused tag ∉ history

/-- Every frame stands in its place, counted from the bottom. -/
def InPlace : List Tag → Prop
  | [] => True
  | tag :: rest => tag.place = rest.length ∧ InPlace rest

theorem InPlace.getElem? {live : List Tag} (inPlace : InPlace live) {tag : Tag}
    (among : tag ∈ live) : live.reverse[tag.place]? = some tag := by
  induction live with
  | nil => cases among
  | cons top rest ih =>
    rw [List.reverse_cons]
    cases among with
    | head => rw [inPlace.1, ← List.length_reverse, List.getElem?_concat_length]
    | tail _ among =>
      have stands := ih inPlace.2 among
      obtain ⟨inside, -⟩ := List.getElem?_eq_some_iff.mp stands
      rw [List.getElem?_append_left inside, stands]

namespace Follows

variable {history : List FrameEvent} {state : CallStack} {tag : Tag}

theorem inPlace (follows : Follows history state) : InPlace state.live := by
  induction follows with
  | start => trivial
  | step _ step ih =>
    cases step with
    | pushed | called => exact ⟨rfl, ih⟩
    | completed | dropped => exact ih.2
    | refused | paused | failed => exact ih

theorem count_made (follows : Follows history state) (tag : Tag) :
    history.countP (FrameEvent.makes tag) =
      state.live.count tag + history.countP (FrameEvent.hands tag) +
        history.count (.dropped tag) + history.count (.refused tag) := by
  induction follows with
  | start => rfl
  | step _ step ih =>
    cases step
    all_goals
      simp only [List.cons_append, List.nil_append, List.countP_cons, List.count_cons,
        FrameEvent.makes, FrameEvent.hands, decide_eq_true_eq, beq_iff_eq,
        FrameEvent.dropped.injEq, FrameEvent.refused.injEq, reduceCtorEq, Bool.false_eq_true,
        if_false] at ih ⊢
      omega

theorem made_lt (follows : Follows history state)
    (made : 0 < history.countP (FrameEvent.makes tag)) : tag.number < state.next := by
  induction follows with
  | start => cases made
  | step _ step ih =>
    cases step
    all_goals
      simp only [List.cons_append, List.nil_append, List.countP_cons, FrameEvent.makes,
        decide_eq_true_eq, Bool.false_eq_true, if_false, Nat.add_zero] at ih made ⊢
    case pushed | called | refused =>
      split at made
      · rename_i same
        rw [← same]
        exact Nat.lt_succ_self _
      · exact Nat.lt_succ_of_lt (ih made)
    all_goals exact ih made

theorem made_once (follows : Follows history state) (tag : Tag) :
    history.countP (FrameEvent.makes tag) ≤ 1 := by
  induction follows with
  | start => exact Nat.zero_le 1
  | step follows step ih =>
    have before := @made_lt _ _ tag follows
    cases step
    all_goals
      simp only [List.cons_append, List.nil_append, List.countP_cons, FrameEvent.makes,
        decide_eq_true_eq, Bool.false_eq_true, if_false, Nat.add_zero] at ih before ⊢
    case pushed | called | refused =>
      split
      · rename_i same
        rw [← same] at before ih ⊢
        have new := Nat.eq_zero_of_not_pos fun made => Nat.lt_irrefl _ (before made)
        exact Nat.le_of_eq (congrArg Nat.succ new)
      · exact ih
    all_goals exact ih

theorem lt_of_live (follows : Follows history state) (live : tag ∈ state.live) :
    tag.number < state.next := by
  have count := follows.count_made tag
  have some := List.count_pos_iff.mpr live
  exact follows.made_lt (by omega)

theorem lt_of_handed (follows : Follows history state) {parent : Option Tag}
    (handed : .handed tag parent ∈ history) : tag.number < state.next := by
  have count := follows.count_made tag
  have some : 0 < history.countP (FrameEvent.hands tag) :=
    List.countP_pos_iff.mpr ⟨_, handed, decide_eq_true rfl⟩
  exact follows.made_lt (by omega)

theorem lt_of_refused (follows : Follows history state) (refused : .refused tag ∈ history) :
    tag.number < state.next := by
  have count := follows.count_made tag
  have some := List.count_pos_iff.mpr refused
  exact follows.made_lt (by omega)

theorem lt_of_pushed (follows : Follows history state) (pushed : .pushed tag ∈ history) :
    tag.number < state.next :=
  follows.made_lt (List.countP_pos_iff.mpr ⟨_, pushed, decide_eq_true rfl⟩)

theorem lt_of_called (follows : Follows history state) {parent : Tag}
    (called : .called parent tag ∈ history) : tag.number < state.next :=
  follows.made_lt (List.countP_pos_iff.mpr ⟨_, called, decide_eq_true rfl⟩)

theorem not_refused_of_pushed (follows : Follows history state)
    (pushed : .pushed tag ∈ history) : .refused tag ∉ history := by
  induction follows with
  | start => nofun
  | step follows step ih =>
    intro refused
    cases step
    all_goals
      simp only [List.cons_append, List.nil_append, List.mem_cons, FrameEvent.pushed.injEq,
        FrameEvent.refused.injEq, reduceCtorEq, false_or] at pushed refused
    case pushed =>
      rcases pushed with rfl | pushed
      · exact Nat.lt_irrefl _ (follows.lt_of_refused refused)
      · exact ih pushed refused
    case refused =>
      rcases refused with rfl | refused
      · exact Nat.lt_irrefl _ (follows.lt_of_pushed pushed)
      · exact ih pushed refused
    all_goals exact ih pushed refused

/-- A frame that was pushed is live, or was handed on, or was dropped, and only one of these. -/
theorem count_placed (follows : Follows history state) (placed : Placed history tag) :
    state.live.count tag + history.countP (FrameEvent.hands tag) + history.count (.dropped tag) =
      1 := by
  have count := follows.count_made tag
  have once := follows.made_once tag
  have made : 0 < history.countP (FrameEvent.makes tag) := by
    rcases placed with pushed | ⟨⟨parent, called⟩, -⟩
    · exact List.countP_pos_iff.mpr ⟨_, pushed, decide_eq_true rfl⟩
    · exact List.countP_pos_iff.mpr ⟨_, called, decide_eq_true rfl⟩
  have notRefused : .refused tag ∉ history := by
    rcases placed with pushed | ⟨-, notRefused⟩
    · exact follows.not_refused_of_pushed pushed
    · exact notRefused
  have none := List.count_eq_zero.mpr notRefused
  omega

/-- A frame is handed on directly after it answered that it is complete, when it was the newest
one, and to the one beneath it. -/
theorem of_handed (follows : Follows history state) {later earlier : List FrameEvent}
    {parent : Option Tag} (split : history = later ++ .handed tag parent :: earlier) :
    ∃ before rest next, earlier = .completed tag :: before ∧
      Follows before ⟨tag :: rest, next⟩ ∧ parent = rest.head? := by
  induction follows generalizing later with
  | start => simp at split
  | step follows step ih =>
    cases step
    case completed =>
      rcases later with _ | ⟨first, _ | ⟨second, later⟩⟩
      · cases split
        exact ⟨_, _, _, rfl, follows, rfl⟩
      · cases split
      · exact ih (List.cons.inj (List.cons.inj split).2).2
    case refused =>
      rcases later with _ | ⟨first, _ | ⟨second, later⟩⟩
      · cases split
      · cases split
      · exact ih (List.cons.inj (List.cons.inj split).2).2
    all_goals
      rcases later with _ | ⟨first, later⟩
      · cases split
      · exact ih (List.cons.inj split).2

theorem of_completed (follows : Follows history state) {later earlier : List FrameEvent}
    (split : history = later ++ .completed tag :: earlier) :
    ∃ after parent, later = after ++ [.handed tag parent] := by
  induction follows generalizing later with
  | start => simp at split
  | step follows step ih =>
    cases step
    case completed =>
      rcases later with _ | ⟨first, _ | ⟨second, later⟩⟩
      · cases split
      · cases split
        exact ⟨[], _, rfl⟩
      · obtain ⟨after, parent, rfl⟩ := ih (List.cons.inj (List.cons.inj split).2).2
        exact ⟨first :: second :: after, parent, rfl⟩
    case refused =>
      rcases later with _ | ⟨first, _ | ⟨second, later⟩⟩
      · cases split
      · cases split
      · obtain ⟨after, parent, rfl⟩ := ih (List.cons.inj (List.cons.inj split).2).2
        exact ⟨first :: second :: after, parent, rfl⟩
    all_goals
      rcases later with _ | ⟨first, later⟩
      · cases split
      · obtain ⟨after, parent, rfl⟩ := ih (List.cons.inj split).2
        exact ⟨first :: after, parent, rfl⟩

/-- Wherever a frame stands, the one that asked for it stands directly beneath it. -/
def StandsOn (parent tag : Tag) (live : List Tag) : Prop :=
  ∀ front back, live = front ++ tag :: back → back.head? = some parent

theorem StandsOn.tail {parent top : Tag} {rest : List Tag}
    (stands : StandsOn parent tag (top :: rest)) : StandsOn parent tag rest :=
  fun front back split => stands (top :: front) back (congrArg (top :: ·) split)

theorem StandsOn.cons {parent top : Tag} {rest : List Tag} (stands : StandsOn parent tag rest)
    (differs : top ≠ tag) : StandsOn parent tag (top :: rest) := by
  intro front back split
  cases front with
  | nil => exact absurd (List.cons.inj split).1 differs
  | cons first front => exact stands front back (List.cons.inj split).2

theorem of_called (follows : Follows history state) {parent : Tag}
    (called : .called parent tag ∈ history) :
    StandsOn parent tag state.live ∧
      ∀ receiver, .handed tag receiver ∈ history → receiver = some parent := by
  induction follows with
  | start => cases called
  | step follows step ih =>
    cases step
    all_goals
      simp only [List.cons_append, List.nil_append, List.mem_cons, FrameEvent.called.injEq,
        FrameEvent.handed.injEq, reduceCtorEq, false_or] at called ⊢
    case pushed =>
      obtain ⟨stands, handed⟩ := ih called
      have older := follows.lt_of_called called
      exact ⟨stands.cons fun same => Nat.lt_irrefl _ (same ▸ older), handed⟩
    case called top rest next =>
      rcases called with ⟨rfl, rfl⟩ | called
      -- the number of the child is new, so that it stands nowhere else and was never handed on
      · refine ⟨fun front back split => ?_, fun receiver handed => ?_⟩
        · cases front with
          | nil =>
            cases split
            rfl
          | cons first front =>
            have among : (⟨next, rest.length + 1⟩ : Tag) ∈ parent :: rest := by
              rw [(List.cons.inj split).2]
              simp
            exact absurd (follows.lt_of_live among) (Nat.lt_irrefl _)
        · exact absurd (follows.lt_of_handed handed) (Nat.lt_irrefl _)
      · obtain ⟨stands, handed⟩ := ih called
        have older := follows.lt_of_called called
        exact ⟨stands.cons fun same => Nat.lt_irrefl _ (same ▸ older), handed⟩
    case refused top rest next =>
      rcases called with ⟨rfl, rfl⟩ | called
      · refine ⟨fun front back split => ?_, fun receiver handed => ?_⟩
        · have among : (⟨next, rest.length + 1⟩ : Tag) ∈ parent :: rest := by
            rw [split]
            simp
          exact absurd (follows.lt_of_live among) (Nat.lt_irrefl _)
        · exact absurd (follows.lt_of_handed handed) (Nat.lt_irrefl _)
      · exact ih called
    case completed top rest next =>
      obtain ⟨stands, handed⟩ := ih called
      refine ⟨stands.tail, fun receiver isHanded => ?_⟩
      rcases isHanded with ⟨rfl, rfl⟩ | isHanded
      · exact stands [] rest rfl
      · exact handed receiver isHanded
    case dropped =>
      obtain ⟨stands, handed⟩ := ih called
      exact ⟨stands.tail, handed⟩
    all_goals exact ih called

end Follows

/-! ## What can happen to a session -/

namespace Session

/-- What happens to the frames of a session at once, whatever the driver of a run does: a frame
is pushed if there is room for it, all become old, the newest one is resumed, or all are
dropped. -/
inductive Moves : Session φ → Session φ → Prop
  | pushed {frames : List (Tagged φ)} {fresh : Nat} {limit : Option Nat} {scratch : Scratch}
      {ledger : Ledger} {frame : φ} (room : ∀ most, limit = some most → frames.length < most) :
      Moves ⟨⟨frames, fresh, limit, scratch⟩, ledger⟩
        ⟨⟨⟨⟨ledger.next, frames.length⟩, frame⟩ :: frames, fresh + 1, limit, scratch⟩,
          ledger.make (.pushed ⟨ledger.next, frames.length⟩)⟩
  | rested {stack : Stack (Tagged φ)} {ledger : Ledger} :
      Moves ⟨stack, ledger⟩ ⟨stack.beginPause, ledger⟩
  | paused {tag : Tag} {frame frame' : φ} {rest : List (Tagged φ)} {fresh : Nat}
      {limit : Option Nat} {scratch scratch' : Scratch} {ledger : Ledger} :
      Moves ⟨⟨⟨tag, frame⟩ :: rest, fresh, limit, scratch⟩, ledger⟩
        ⟨⟨⟨tag, frame'⟩ :: rest, 0, limit, scratch'⟩, ledger.note (.paused tag)⟩
  | failed {tag : Tag} {frame frame' : φ} {rest : List (Tagged φ)} {fresh : Nat}
      {limit : Option Nat} {scratch scratch' : Scratch} {ledger : Ledger} :
      Moves ⟨⟨⟨tag, frame⟩ :: rest, fresh, limit, scratch⟩, ledger⟩
        ⟨⟨⟨tag, frame'⟩ :: rest, fresh, limit, scratch'⟩, ledger.note (.failed tag)⟩
  | called {tag : Tag} {frame frame' child : φ} {rest : List (Tagged φ)} {fresh : Nat}
      {limit : Option Nat} {scratch scratch' : Scratch} {ledger : Ledger}
      (room : ∀ most, limit = some most → rest.length + 1 < most) :
      Moves ⟨⟨⟨tag, frame⟩ :: rest, fresh, limit, scratch⟩, ledger⟩
        ⟨⟨⟨⟨ledger.next, tag.place + 1⟩, child⟩ :: ⟨tag, frame'⟩ :: rest, fresh + 1, limit,
          scratch'⟩, ledger.make (.called tag ⟨ledger.next, tag.place + 1⟩)⟩
  | refused {tag : Tag} {frame frame' : φ} {rest : List (Tagged φ)} {fresh : Nat}
      {limit : Option Nat} {scratch scratch' : Scratch} {ledger : Ledger} :
      Moves ⟨⟨⟨tag, frame⟩ :: rest, fresh, limit, scratch⟩, ledger⟩
        ⟨⟨⟨tag, frame'⟩ :: rest, fresh, limit, scratch'⟩,
          (ledger.make (.called tag ⟨ledger.next, tag.place + 1⟩)).note
            (.refused ⟨ledger.next, tag.place + 1⟩)⟩
  | completed {tag : Tag} {frame : φ} {rest rest' : List (Tagged φ)} {fresh : Nat}
      {limit : Option Nat} {scratch scratch' : Scratch} {ledger : Ledger}
      (same : rest'.map Tagged.tag = rest.map Tagged.tag) :
      Moves ⟨⟨⟨tag, frame⟩ :: rest, fresh, limit, scratch⟩, ledger⟩
        ⟨⟨rest', fresh - 1, limit, scratch'⟩,
          (ledger.note (.completed tag)).note (.handed tag (rest.map Tagged.tag).head?)⟩
  | tornDown {stack : Stack (Tagged φ)} {ledger : Ledger} :
      Moves ⟨stack, ledger⟩
        ⟨stack.cleared, { ledger with
          history := (stack.frames.map fun frame => .dropped frame.tag).reverse ++
            ledger.history }⟩

theorem moves_run (driver : Driver κ φ ε) (fuel : Nat) (context : κ) (session : Session φ) :
    let run := session.stack.run (driver.observed .refused) fuel (context, session.ledger)
    Relation.ReflTransGen Moves session ⟨run.stack, run.context.2⟩ := by
  induction fuel generalizing context session with
  | zero => exact .refl
  | succ fuel ih =>
    obtain ⟨⟨frames, fresh, limit, scratch⟩, ledger⟩ := session
    cases frames with
    | nil => exact .single .rested
    | cons top rest =>
      obtain ⟨tag, frame⟩ := top
      rcases resumed : driver.resume context frame scratch with
        ⟨context', frame', scratch', error | step⟩
      · simp only [Stack.run, Driver.observed, resumed, Ledger.answered]
        exact .single .failed
      · cases step with
        | pause =>
          simp only [Stack.run, Driver.observed, resumed, Ledger.answered]
          exact .single .paused
        | call child =>
          have noted : (driver.observed .refused).resume (context, ledger) ⟨tag, frame⟩ scratch =
              ⟨(context', ledger.make (.called tag ⟨ledger.next, tag.place + 1⟩)), ⟨tag, frame'⟩,
                scratch', .ok (.call ⟨⟨ledger.next, tag.place + 1⟩, child⟩)⟩ := by
            simp only [Driver.observed, resumed, Ledger.answered]
          simp only [Stack.run, noted]
          cases pushed : Stack.push (⟨⟨tag, frame'⟩ :: rest, fresh, limit, scratch'⟩ :
              Stack (Tagged φ)) ⟨⟨ledger.next, tag.place + 1⟩, child⟩ with
          | error reached => exact .single .refused
          | ok stack =>
            have moves := ih context'
              ⟨stack, ledger.make (.called tag ⟨ledger.next, tag.place + 1⟩)⟩
            have isStack := Stack.push_eq pushed
            subst isStack
            exact .head (.called (Stack.room_of_push pushed)) moves
        | complete =>
          have noted : (driver.observed .refused).resume (context, ledger) ⟨tag, frame⟩ scratch =
              ⟨(context', ledger.note (.completed tag)), ⟨tag, frame'⟩, scratch',
                .ok .complete⟩ := by
            simp only [Driver.observed, resumed, Ledger.answered]
          obtain ⟨context'', rest', result, same, handed⟩ := Stack.handOver_observed driver
            .refused context' (ledger.note (.completed tag)) ⟨tag, frame'⟩ rest (fresh - 1) limit
            scratch'
          simp only [Stack.run, noted, handed]
          rcases result with error | ⟨⟩
          · exact .single (.completed same)
          · exact .head (.completed same) (ih context'' ⟨⟨rest', fresh - 1, limit, scratch'⟩, _⟩)

theorem moves_serve (session : Session φ) (request : Request κ φ ε) :
    Relation.ReflTransGen Moves session (session.serve request) := by
  cases request with
  | push frame =>
    obtain ⟨⟨frames, fresh, limit, scratch⟩, ledger⟩ := session
    simp only [serve, Stack.depth]
    cases pushed : Stack.push (⟨frames, fresh, limit, scratch⟩ : Stack (Tagged φ))
        ⟨⟨ledger.next, frames.length⟩, frame⟩ with
    | error reached => exact .refl
    | ok stack =>
      have isStack := Stack.push_eq pushed
      subst isStack
      exact .single (.pushed (Stack.room_of_push pushed))
  | run driver context turns => exact moves_run driver turns context session
  | beginPause => exact .single .rested
  | teardown driver context =>
    have dropped (frames : List (Tagged φ)) (context : κ) (ledger : Ledger) :
        (frames.foldl (driver.observed .dropped).release (context, ledger)).2 =
          { ledger with
            history := (frames.map fun frame => .dropped frame.tag).reverse ++
              ledger.history } := by
      induction frames generalizing context ledger with
      | nil => rfl
      | cons top rest ih =>
        rw [List.foldl_cons, List.map_cons, List.reverse_cons, List.append_assoc]
        exact ih _ _
    have moves : Moves session _ := .tornDown
    rw [← dropped session.stack.frames context session.ledger] at moves
    exact .single moves

theorem moves_serveAll (session : Session φ) (requests : List (Request κ φ ε)) :
    Relation.ReflTransGen Moves session (requests.foldl serve session) := by
  induction requests generalizing session with
  | nil => exact .refl
  | cons request rest ih => exact (moves_serve session request).trans (ih _)

/-! ## What stays so -/

/-- The events of a session are those of a call stack that leave its frames, and there are no
more frames than the limit, nor more fresh ones than frames. -/
structure Sound (limit : Option Nat) (session : Session φ) : Prop where
  follows : Follows session.ledger.history ⟨session.live, session.ledger.next⟩
  fresh : session.stack.fresh ≤ session.stack.depth
  limited : session.stack.limit = limit
  depth : ∀ most, limit = some most → session.stack.depth ≤ most

theorem follows_dropped {history : List FrameEvent} {next : Nat} (frames : List (Tagged φ))
    (follows : Follows history ⟨frames.map Tagged.tag, next⟩) :
    Follows ((frames.map fun frame => FrameEvent.dropped frame.tag).reverse ++ history)
      ⟨[], next⟩ := by
  induction frames generalizing history with
  | nil => exact follows
  | cons top rest ih =>
    rw [List.map_cons, List.reverse_cons, List.append_assoc]
    exact ih (.step follows .dropped)

theorem Moves.sound {limit : Option Nat} {session session' : Session φ}
    (moves : Moves session session') (sound : session.Sound limit) : session'.Sound limit := by
  obtain ⟨follows, fresh, rfl, depth⟩ := sound
  cases moves with
  | pushed room =>
    refine ⟨?_, Nat.succ_le_succ fresh, rfl, room⟩
    have step := Follows.step follows .pushed
    simp only [live, List.length_map] at step
    exact step
  | rested => exact ⟨follows, Nat.zero_le _, rfl, depth⟩
  | paused => exact ⟨.step follows .paused, Nat.zero_le _, rfl, depth⟩
  | failed => exact ⟨.step follows .failed, fresh, rfl, depth⟩
  | called room =>
    refine ⟨?_, Nat.succ_le_succ fresh, rfl, room⟩
    have place := follows.inPlace.1
    have step := Follows.step follows .called
    rw [← place] at step
    exact step
  | refused =>
    refine ⟨?_, fresh, rfl, depth⟩
    have place := follows.inPlace.1
    have step := Follows.step follows .refused
    rw [← place] at step
    exact step
  | completed same =>
    have equal := congrArg List.length same
    rw [List.length_map, List.length_map] at equal
    refine ⟨?_, ?_, rfl, fun most isLimit => ?_⟩
    · simp only [live, same]
      exact .step follows .completed
    · simp only [Stack.depth, List.length_cons, equal] at fresh ⊢
      omega
    · have under := depth most isLimit
      simp only [Stack.depth, List.length_cons, equal] at under ⊢
      omega
  | tornDown => exact ⟨follows_dropped _ follows, Nat.zero_le _, rfl, fun _ _ => Nat.zero_le _⟩

def FreshSince (mark : Nat) (session : Session φ) : Prop :=
  mark ≤ session.ledger.next ∧
    session.stack.fresh ≤ session.live.countP fun tag => mark ≤ tag.number

theorem Moves.freshSince {mark : Nat} {session session' : Session φ}
    (moves : Moves session session') (since : session.FreshSince mark) :
    session'.FreshSince mark := by
  obtain ⟨known, fresh⟩ := since
  cases moves with
  | pushed | called =>
    refine ⟨Nat.le_succ_of_le known, ?_⟩
    have new : (decide (mark ≤ _) : Bool) = true := decide_eq_true known
    simp only [live, List.map_cons, List.countP_cons, new, if_true] at fresh ⊢
    exact Nat.succ_le_succ fresh
  | rested | paused | tornDown => exact ⟨known, Nat.zero_le _⟩
  | failed => exact ⟨known, fresh⟩
  | refused => exact ⟨Nat.le_succ_of_le known, fresh⟩
  | completed same =>
    refine ⟨known, ?_⟩
    simp only [live, List.map_cons, List.countP_cons, same] at fresh ⊢
    split at fresh <;> omega

variable {motive : Session φ → Prop}

theorem foldl_serve_keeps
    (keeps : ∀ {session session' : Session φ}, Moves session session' → motive session →
      motive session')
    (requests : List (Request κ φ ε)) {session : Session φ} (holds : motive session) :
    motive (requests.foldl serve session) := by
  have kept {last : Session φ} (moves : Relation.ReflTransGen Moves session last) :
      motive last := by
    induction moves with
    | refl => exact holds
    | tail _ move ih => exact keeps move ih
  exact kept (moves_serveAll session requests)

theorem sound_serveAll (limit : Option Nat) (requests : List (Request κ φ ε)) :
    (serveAll limit requests : Session φ).Sound limit :=
  foldl_serve_keeps Moves.sound requests ⟨.start, Nat.le_refl 0, rfl, fun _ _ => Nat.zero_le _⟩

/-- Once all frames were made old, they are old as long as none of those that are live was
pushed since. -/
theorem beginPause_again (limit : Option Nat) (before between : List (Request κ φ ε))
    (older : ∀ tag ∈ (serveAll limit (before ++ .beginPause :: between) : Session φ).live,
      tag.number < (serveAll limit before : Session φ).ledger.next) :
    (serveAll limit (before ++ .beginPause :: between) : Session φ).stack.beginPause =
      (serveAll limit (before ++ .beginPause :: between) : Session φ).stack := by
  rw [serveAll_append, List.foldl_cons] at older ⊢
  have paused : (serve (serveAll limit before : Session φ)
      (.beginPause : Request κ φ ε)).FreshSince (serveAll limit before : Session φ).ledger.next :=
    ⟨Nat.le_refl _, Nat.zero_le _⟩
  obtain ⟨-, fresh⟩ := foldl_serve_keeps Moves.freshSince between paused
  have none : (between.foldl serve (serve (serveAll limit before : Session φ)
      (.beginPause : Request κ φ ε))).stack.fresh = 0 := by
    refine Nat.eq_zero_of_le_zero
      (Nat.le_trans fresh (Nat.le_of_eq (List.countP_eq_zero.mpr ?_)))
    intro tag live newer
    exact Nat.not_le.mpr (older tag live) (of_decide_eq_true newer)
  generalize List.foldl _ _ _ = session at none ⊢
  obtain ⟨⟨frames, fresh, limit, scratch⟩, ledger⟩ := session
  cases none
  rfl

end Session

/-! ## Every session -/

theorem Stack.run_ends (driver : Driver κ φ ε) (turns : Nat) (context : κ) (stack : Stack φ) :
    ((stack.run driver turns context).outcome = .paused →
      0 < (stack.run driver turns context).stack.depth ∧
        (stack.run driver turns context).stack.newDepth = 0) ∧
    ((stack.run driver turns context).outcome = .done →
      (stack.run driver turns context).stack.depth = 0) := by
  have ends {run : Run κ φ ε} (runs : Runs driver context stack run) :
      (run.outcome = .paused → 0 < run.stack.depth ∧ run.stack.newDepth = 0) ∧
        (run.outcome = .done → run.stack.depth = 0) := by
    induction runs with
    | empty => exact ⟨nofun, fun _ => rfl⟩
    | pause => exact ⟨fun _ => ⟨Nat.succ_pos _, rfl⟩, nofun⟩
    | fail | refuse | reject => exact ⟨nofun, nofun⟩
    | call _ _ _ ih | complete _ _ _ ih => exact ih
  constructor
  · intro paused
    refine (ends (stack.runs_run driver turns context ?_)).1 paused
    rw [paused]
    nofun
  · intro done
    refine (ends (stack.runs_run driver turns context ?_)).2 done
    rw [done]
    nofun

/-- What makes a stack of frames a call stack, after requests and as its frames were watched.  A
run may be cut short after any number of turns, so this is so in the midst of runs too. -/
structure Session.Faithful (limit : Option Nat) (requests : List (Request κ φ ε))
    (session : Session φ) : Prop where
  /-- Watching makes no difference to the stack. -/
  watched : session.stack.untagged = Stack.serveAll limit requests
  old_le : session.stack.oldDepth ≤ session.stack.depth
  depth_le : ∀ most, limit = some most → session.stack.depth ≤ most
  old_add_new : session.stack.oldDepth + session.stack.newDepth = session.stack.depth
  /-- How a run that is requested next ends. -/
  run_ends : ∀ (driver : Driver κ φ ε) (turns : Nat) (context : κ),
    ((session.stack.untagged.run driver turns context).outcome = .paused →
      0 < (session.stack.untagged.run driver turns context).stack.depth ∧
        (session.stack.untagged.run driver turns context).stack.newDepth = 0) ∧
    ((session.stack.untagged.run driver turns context).outcome = .done →
      (session.stack.untagged.run driver turns context).stack.depth = 0)
  /-- The events are those of a call stack, which leave the frames that are live. -/
  follows : Follows session.ledger.history ⟨session.live, session.ledger.next⟩
  /-- A frame that answers that it is complete is handed on directly after. -/
  completed : ∀ later earlier tag, session.ledger.history = later ++ .completed tag :: earlier →
    ∃ after parent, later = after ++ [.handed tag parent]
  /-- Only a frame that answered so is handed on, when it is the newest one that is live, and to
  the one directly beneath it. -/
  handed : ∀ later earlier tag parent,
    session.ledger.history = later ++ .handed tag parent :: earlier →
      ∃ before rest next, earlier = .completed tag :: before ∧
        Follows before ⟨tag :: rest, next⟩ ∧ parent = rest.head?
  /-- A frame that another one asked for is handed to that one. -/
  called : ∀ parent tag receiver, .called parent tag ∈ session.ledger.history →
    .handed tag receiver ∈ session.ledger.history → receiver = some parent
  /-- A frame is handed on once at most. -/
  once : ∀ tag, session.ledger.history.countP (FrameEvent.hands tag) ≤ 1
  /-- A frame that was pushed is live, or was handed on, or was given up with the stack, and
  only one of these. -/
  placed : ∀ tag, Placed session.ledger.history tag →
    session.live.count tag + session.ledger.history.countP (FrameEvent.hands tag) +
      session.ledger.history.count (.dropped tag) = 1
  /-- A frame that is live stands as far from the bottom as when it was pushed. -/
  inPlace : ∀ tag ∈ session.live, session.live.reverse[tag.place]? = some tag
  /-- To make all frames old again changes nothing if none of those that are live was pushed
  since. -/
  again : ∀ before between, requests = before ++ .beginPause :: between →
    (∀ tag ∈ session.live, tag.number < (serveAll limit before : Session φ).ledger.next) →
    session.stack.beginPause = session.stack

/-- The frames of every stack make a call stack, whatever the drivers do and whatever is
requested in which order. -/
theorem Session.faithful_serveAll (limit : Option Nat) (requests : List (Request κ φ ε)) :
    (serveAll limit requests : Session φ).Faithful limit requests := by
  have sound : (serveAll limit requests : Session φ).Sound limit := sound_serveAll limit requests
  refine {
    watched := untagged_serveAll limit requests
    old_le := Nat.sub_le _ _
    depth_le := sound.depth
    old_add_new := Nat.sub_add_cancel sound.fresh
    run_ends := fun driver turns context => Stack.run_ends driver turns context _
    follows := sound.follows
    completed := fun _ _ _ => sound.follows.of_completed
    handed := fun _ _ _ _ => sound.follows.of_handed
    called := fun _ _ receiver isCalled => (sound.follows.of_called isCalled).2 receiver
    once := fun tag => ?_
    placed := fun _ => sound.follows.count_placed
    inPlace := fun _ live => sound.follows.inPlace.getElem? live
    again := ?_ }
  · have made := sound.follows.made_once tag
    have count := sound.follows.count_made tag
    omega
  · rintro before between rfl older
    exact beginPause_again limit before between older

end IncrementalJson
