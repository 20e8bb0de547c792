import IncrementalJson.Proofs.Writing.Emitting
import IncrementalJson.Proofs.Writing.Numerals

/-!
# Emitters get on

Every turn of an emitter takes room in the buffer, but for the first item of an
array, which begins without a byte in front of it, once for every array.  And no
value has a longer text than its extent.
-/

set_option autoImplicit false

namespace IncrementalJson

variable {schema : Schema}

/-! ## Steps that take room -/

def EmitStep.bytes : EmitStep → List UInt8
  | .token bytes => bytes
  | .call lead _ _ | .fail lead _ => lead

namespace Emitter

/-- Whether the next step writes something. -/
def Leading : List EmitStep → Prop
  | [] => False
  | step :: _ => step.bytes ≠ []

/-- Tokens are not empty, and behind a call there is something to write. -/
def Steady : List EmitStep → Prop
  | [] => True
  | .token bytes :: rest => bytes ≠ [] ∧ Steady rest
  | .call _ _ _ :: rest => Leading rest ∧ Steady rest
  | .fail _ _ :: rest => Steady rest

/-- One if a turn of these steps may take no room. -/
def stepsWeight : List EmitStep → Nat
  | [] => 1
  | step :: _ => if step.bytes = [] then 1 else 0

theorem stepsWeight_le (steps : List EmitStep) : stepsWeight steps ≤ 1 := by
  cases steps with
  | nil => exact Nat.le_refl 1
  | cons step rest =>
    rw [stepsWeight]
    split <;> omega

theorem stepsWeight_leading {steps : List EmitStep} (leading : Leading steps) :
    stepsWeight steps = 0 := by
  cases steps with
  | nil => exact leading.elim
  | cons step rest => exact if_neg leading

def weight (emitter : Emitter) : Nat := stepsWeight emitter.steps

theorem steady_tokens (tokens : List (List UInt8)) (filled : ∀ token ∈ tokens, token ≠ [])
    {rest : List EmitStep} (steady : Steady rest) : Steady (tokens.map .token ++ rest) := by
  induction tokens with
  | nil => exact steady
  | cons token tokens ih =>
    refine ⟨filled token List.mem_cons_self, ih ?_⟩
    intro token among
    exact filled token (List.mem_cons_of_mem _ among)

theorem octetToken_ne_nil (octet : UInt8) : octetToken octet ≠ [] := by
  rw [octetToken, Escape.escape?]
  repeat' split
  all_goals exact List.cons_ne_nil _ _

theorem stringTokens_ne_nil (text : String) : ∀ token ∈ stringTokens text, token ≠ [] := by
  intro token among
  rcases List.mem_append.mp among with front | last
  · rcases List.mem_cons.mp front with rfl | inside
    · nofun
    · obtain ⟨octet, -, rfl⟩ := List.mem_map.mp inside
      exact octetToken_ne_nil octet
  · rw [List.mem_singleton.mp last]
    nofun

theorem steady_calls (item : Shape) (items : List Value) :
    Steady (items.map (.call [Ascii.comma] item) ++ [.token [Ascii.rightBracket]]) ∧
      Leading (items.map (.call [Ascii.comma] item) ++ [.token [Ascii.rightBracket]]) := by
  induction items with
  | nil => exact ⟨⟨nofun, trivial⟩, nofun⟩
  | cons value items ih => exact ⟨⟨ih.2, ih.1⟩, nofun⟩

theorem steady_items (item : Shape) (items : List Value) :
    Steady (ofItems item items).steps ∧ Leading (ofItems item items).steps := by
  refine ⟨⟨nofun, ?_⟩, nofun⟩
  cases items with
  | nil => exact (steady_calls item []).1
  | cons first rest => exact ⟨(steady_calls item rest).2, (steady_calls item rest).1⟩

theorem steady_member (member : String × Shape × Value) {rest : List EmitStep}
    (leading : Leading rest) (steady : Steady rest) : Steady (memberSteps member ++ rest) := by
  obtain ⟨name, shape, value⟩ := member
  rw [memberSteps, List.append_assoc]
  exact steady_tokens _ (stringTokens_ne_nil name) ⟨leading, steady⟩

theorem steady_more (members : List (String × Shape × Value)) :
    Steady (laterMemberSteps members ++ [.token [Ascii.rightBrace]]) ∧
      Leading (laterMemberSteps members ++ [.token [Ascii.rightBrace]]) := by
  induction members with
  | nil => exact ⟨⟨nofun, trivial⟩, nofun⟩
  | cons member members ih =>
    rw [laterMemberSteps] at ih ⊢
    simp only [List.flatMap_cons, List.append_assoc, List.cons_append]
    exact ⟨⟨nofun, steady_member member ih.2 ih.1⟩, nofun⟩

theorem steady_members (members : List (String × Shape × Value)) :
    Steady (objectSteps members) ∧ Leading (objectSteps members) := by
  refine ⟨⟨nofun, ?_⟩, nofun⟩
  cases members with
  | nil => exact (steady_more []).1
  | cons member members =>
    have steady := steady_member member (steady_more members).2 (steady_more members).1
    rw [← List.append_assoc] at steady
    exact steady

theorem steady_token {bytes : List UInt8} (filled : bytes ≠ []) :
    Steady (Emitter.token bytes).steps ∧ Leading (Emitter.token bytes).steps :=
  ⟨⟨filled, trivial⟩, filled⟩

theorem encode_ne_nil {text : List Char} (filled : text ≠ []) : Utf8.encode text ≠ [] := by
  intro empty
  apply filled
  have same : Utf8.encode text = Utf8.encode [] := empty
  exact Utf8.encode_injective same

/-- Every emitter begins with a byte of its own. -/
theorem steady_start {shape : Shape} {value : Value} {emitter : Emitter}
    (starts : Starts schema shape value emitter) :
    Steady emitter.steps ∧ Leading emitter.steps := by
  induction starts with
  | null => exact steady_token (by decide)
  | bool truth => cases truth <;> exact steady_token (by decide)
  | string text =>
    rw [steps_ofString, ← List.append_nil ((stringTokens text).map _)]
    exact ⟨steady_tokens _ (stringTokens_ne_nil text) trivial, nofun⟩
  | number _ written =>
    obtain ⟨literal, rfl, -⟩ := NumberValue.literal_of_text? written
    exact steady_token (encode_ne_nil literal.text_ne_nil)
  | @list _ item items => exact steady_items item items
  | held _ _ ih => exact ih
  | absent => exact steady_token (by decide)
  | present _ _ ih => exact ih
  | object => exact steady_members _

/-- A turn that does not end in a pause takes room or the weight of its emitter. -/
theorem advance_takes (steps : List EmitStep) (out : Output) {steps' : List EmitStep}
    {out' : Output} {step : Step Emitter} (steady : Steady steps)
    (advanced : advance schema steps out = (steps', out', .ok step)) :
    Steady steps' ∧ (step = .pause → steps' ≠ []) ∧
      (step = .complete → out'.left < out.left + stepsWeight steps) ∧
      ∀ child, step = .call child → Leading steps' ∧ Steady child.steps ∧ Leading child.steps ∧
        out'.left < out.left + stepsWeight steps := by
  induction steps generalizing out with
  | nil =>
    cases advanced
    refine ⟨trivial, ?_, fun _ => Nat.lt_succ_self _, ?_⟩
    · rintro ⟨⟩
    · rintro child ⟨⟩
  | cons first rest ih =>
    rw [advance.eq_def] at advanced
    simp only at advanced
    split at advanced
    · cases advanced
      refine ⟨steady, fun _ => List.cons_ne_nil _ _, ?_, ?_⟩
      · rintro ⟨⟩
      · rintro child ⟨⟩
    · rename_i notFull
      rw [Bool.not_eq_true] at notFull
      have room := Output.left_pos notFull
      cases first with
      | token bytes =>
        obtain ⟨filled, steady⟩ := steady
        have taken : (out.token bytes).left + 1 ≤ out.left := by
          rw [Output.left_token bytes notFull]
          have := List.length_pos_iff.mpr filled
          omega
        have light := stepsWeight_le rest
        obtain ⟨steady', pauses, completes, calls⟩ := ih (out.token bytes) steady advanced
        refine ⟨steady', pauses, ?_, ?_⟩
        · intro complete
          have := completes complete
          omega
        · intro child called
          obtain ⟨leading', childSteady, childLeading, less⟩ := calls child called
          exact ⟨leading', childSteady, childLeading, by omega⟩
      -- a call that nothing leads to takes no room, but it was what the weight was for
      | call lead shape value =>
        obtain ⟨leading, steady⟩ := steady
        have less : (out.token lead).left <
            out.left + stepsWeight (.call lead shape value :: rest) := by
          rw [Output.left_token lead notFull]
          by_cases empty : lead = []
          · simp [stepsWeight, EmitStep.bytes, empty]
          · have := List.length_pos_iff.mpr empty
            omega
        simp only at advanced
        cases started : start schema shape value with
        | error error =>
          rw [started] at advanced
          cases advanced
        | ok emitter =>
          rw [started] at advanced
          cases advanced
          refine ⟨steady, ?_, ?_, ?_⟩
          · rintro ⟨⟩
          · rintro ⟨⟩
          · rintro child ⟨⟩
            obtain ⟨childSteady, childLeading⟩ :=
              steady_start ((start_eq_ok_iff schema shape value emitter).mp started)
            exact ⟨leading, childSteady, childLeading, less⟩
      | fail lead error => cases advanced

end Emitter

/-- The emitter is one that a turn can find: it has steps left, and steady ones. -/
structure Emitter.Waiting (emitter : Emitter) : Prop where
  steady : Steady emitter.steps
  more : emitter.steps ≠ []

theorem Emitter.Leading.ne_nil {steps : List EmitStep} (leading : Leading steps) : steps ≠ [] := by
  rintro rfl
  exact leading

theorem Emitter.waiting_start {shape : Shape} {value : Value} {emitter : Emitter}
    (starts : Starts schema shape value emitter) : emitter.Waiting := by
  obtain ⟨steady, leading⟩ := steady_start starts
  exact ⟨steady, leading.ne_nil⟩

theorem writeDriver_progress (schema : Schema) :
    Progress (writeDriver schema) Emitter.Waiting Output.left Emitter.weight := by
  have takes : ∀ {out out' : Output} {emitter emitter' : Emitter} {scratch scratch' : Scratch}
      {step : Step Emitter}, emitter.Waiting →
      (writeDriver schema).resume out emitter scratch = ⟨out', emitter', scratch', .ok step⟩ →
      (step = .complete → out'.left < out.left + emitter.weight) ∧
        (step ≠ .complete → Emitter.Steady emitter'.steps) ∧
        (step = .pause → emitter'.steps ≠ []) ∧
        ∀ child, step = .call child → Emitter.Leading emitter'.steps ∧
          Emitter.Steady child.steps ∧ Emitter.Leading child.steps ∧
          out'.left < out.left + emitter.weight := by
    intro out out' emitter emitter' scratch scratch' step waiting resumed
    rcases turn : emitter.resume schema { out with spill := scratch } with
      ⟨emitter'', out'', result⟩
    simp only [writeDriver, turn] at resumed
    cases resumed
    obtain ⟨steps, advanced, left⟩ := Emitter.advance_of_resume turn
    obtain ⟨steady', pauses, completes, calls⟩ :=
      Emitter.advance_takes _ _ waiting.steady advanced
    refine ⟨completes, ?_, ?_, ?_⟩
    · intro notComplete
      rw [left (by simpa using notComplete)]
      exact steady'
    · rintro rfl
      rw [left nofun]
      exact pauses rfl
    · rintro child rfl
      rw [left nofun]
      exact calls child rfl
  constructor
  · intro out out' emitter emitter' child scratch scratch' waiting resumed
    obtain ⟨-, steady', -, calls⟩ := takes waiting resumed
    obtain ⟨leading', childSteady, childLeading, less⟩ := calls child rfl
    have light : emitter'.weight = 0 := Emitter.stepsWeight_leading leading'
    have childLight : child.weight = 0 := Emitter.stepsWeight_leading childLeading
    exact ⟨⟨steady' nofun, leading'.ne_nil⟩, ⟨childSteady, childLeading.ne_nil⟩, by omega⟩
  · intro out out' emitter emitter' scratch scratch' waiting resumed
    obtain ⟨-, steady', pauses, -⟩ := takes waiting resumed
    exact ⟨steady' nofun, pauses rfl⟩
  · intro out out' emitter emitter' scratch scratch' waiting resumed
    exact (takes waiting resumed).1 rfl
  · intro out out' done parent parent' waiting accepted
    cases accepted
    exact ⟨waiting, Nat.le_refl _⟩
  · intro out out' done finished
    cases finished
    exact Nat.le_refl _

end IncrementalJson
