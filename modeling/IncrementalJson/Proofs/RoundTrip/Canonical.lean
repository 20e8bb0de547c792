import IncrementalJson.Proofs.RoundTrip.Reparsing
import IncrementalJson.Proofs.RoundTrip.Settled

/-!
# Reading gives settled values

Whatever a tree is read to can be written and comes back as it is, so that
writing after reading is a canonical form of the document.
-/

set_option autoImplicit false

namespace IncrementalJson

variable {schema : Schema}

/-! ## Trees -/

namespace Json

/-- Nothing but null is read to what is written as null. -/
theorem Means.solid {json : Json} {shape : Shape} {value : Value}
    (means : Means schema json shape value) (kept : json ≠ .null) : value.spellsNull = false := by
  cases means with
  | null => exact absurd rfl kept
  | _ => rfl

theorem settledSteps (schema : Schema) :
    ReadSteps schema fun _ shape value => Settled schema shape value where
  absent shape option := settled_absent option
  layers json shape core kept meant here := by
    have solid : shape.hasOption → core.spellsNull = false :=
      fun option => meant.solid (kept option)
    rw [wrap]
    by_cases variant : shape.core = .variant
    · rw [if_pos variant]
      rw [innerShape, if_pos variant, ← meant.heldShape] at here
      have held : Settled schema shape.core (.held core) := by
        rw [variant]
        exact settled_held here
      exact settled_wrap held solid
    · rw [if_neg variant]
      rw [innerShape, if_neg variant] at here
      exact settled_wrap here solid
  leaf json shape value leaf meant := by
    cases meant with
    | null => exact settled_null
    | bool truth => exact settled_bool truth
    | number means => exact settled_number means
    | string => exact settled_string _
    | array | object => cases leaf
  array items item values settled := by
    apply settled_list
    intro value among
    obtain ⟨_, -, here⟩ := settled value among
    exact here
  object members shape table read declared held := by
    apply settled_object declared
    apply held.mono
    intro shape value reads
    obtain ⟨_, _, _, -, -, -, here⟩ := reads
    exact here

end Json

/-! ## Parts of what is written -/

theorem Emits.written_of_call {steps : List EmitStep} {out : List UInt8}
    (emits : Emits schema steps out) {lead : List UInt8} {shape : Shape} {value : Value}
    (among : .call lead shape value ∈ steps) : ∃ inner, Written schema shape value inner := by
  induction emits with
  | nil => cases among
  | token _ ih =>
    rcases List.mem_cons.mp among with here | among
    · cases here
    · exact ih among
  | call started written _ _ ih =>
    rcases List.mem_cons.mp among with here | among
    · cases here
      exact ⟨_, _, started, written⟩
    · exact ih among

theorem call_mem_items {item : Shape} {items : List Value} {value : Value}
    (among : value ∈ items) :
    ∃ lead, .call lead item value ∈ (Emitter.ofItems item items).steps := by
  cases items with
  | nil => cases among
  | cons first rest =>
    rcases List.mem_cons.mp among with rfl | among
    · exact ⟨[], by simp [Emitter.ofItems, Emitter.steps, itemSteps]⟩
    · refine ⟨[Ascii.comma], ?_⟩
      simp [Emitter.ofItems, Emitter.steps, itemSteps, among]

theorem call_mem_members {members : List (String × Shape × Value)}
    {member : String × Shape × Value} (among : member ∈ members) :
    .call [Ascii.colon] member.2.1 member.2.2 ∈ objectSteps members := by
  have last : EmitStep.call [Ascii.colon] member.2.1 member.2.2 ∈
      memberSteps member := by
    simp [memberSteps]
  cases members with
  | nil => cases among
  | cons first rest =>
    rcases List.mem_cons.mp among with rfl | among
    · simp [objectSteps, MembersWriter.nextSteps, last]
    · have inside : EmitStep.call [Ascii.colon] member.2.1 member.2.2 ∈
          laterMemberSteps rest :=
        List.mem_flatMap.mpr ⟨member, among, List.mem_cons_of_mem _ last⟩
      simp only [objectSteps, MembersWriter.nextSteps, List.cons_append, List.mem_cons, List.mem_append]
      exact .inr (.inl (.inr inside))

theorem Live.written {shape inner : Shape} {value part : Value}
    (live : Live schema shape value inner part) {out : List UInt8}
    (written : Written schema shape value out) : ∃ out, Written schema inner part out := by
  induction live generalizing out with
  | here => exact ⟨out, written⟩
  | item among _ ih =>
    obtain ⟨emitter, started, emits⟩ := written
    cases started
    obtain ⟨lead, call⟩ := call_mem_items among
    obtain ⟨inner, written⟩ := emits.written_of_call call
    exact ih written
  | held _ ih => exact ih ((written_held _ _).mp written)
  | present _ ih => exact ih ((written_present _ _ _).mp written)
  | box _ ih => exact ih ((written_box _ _ _).mp written)
  | member declared among _ ih =>
    obtain ⟨emitter, started, emits⟩ := written
    rw [Emitter.start_eq_ok_iff] at started
    cases started with
    | object _ _ _ declared' =>
      rw [Schema.unbox_of_table? declared, declared] at declared'
      cases declared'
      obtain ⟨inner, written⟩ := emits.written_of_call (call_mem_members among)
      exact ih written

def NumberValue.IsFinite : NumberValue → Prop
  | .any (.float bits) => (binary64.decode bits.toNat).isFinite
  | .single bits => (binary32.decode bits.toNat).isFinite
  | .double bits => (binary64.decode bits.toNat).isFinite
  | _ => True

theorem NumberValue.isFinite_of_text? {number : NumberValue} {text : List Char}
    (written : number.text? = some text) : number.IsFinite := by
  have finite : ∀ {format : FloatFormat} {layout : FloatLayout} {bits : Nat},
      format.text? layout bits = some text → (format.decode bits).isFinite := by
    intro format layout bits written
    rw [FloatFormat.text?] at written
    cases decoded : format.decode bits with
    | finite negative significand exponent => rfl
    | infinite negative => simp [decoded] at written
    | nan => simp [decoded] at written
  cases number with
  | any number =>
    cases number with
    | float bits => exact finite written
    | _ => trivial
  | integer value => trivial
  | single bits => exact finite written
  | double bits => exact finite written

/-- No part of what is written was never set, or is a float that is not finite. -/
theorem Written.parts {shape : Shape} {value : Value} {out : List UInt8}
    (written : Written schema shape value out) :
    ¬ Live schema shape value .variant .unset ∧
      ∀ type number, Live schema shape value (.number type) (.number number) →
        number.IsFinite := by
  constructor
  · intro live
    obtain ⟨_, emitter, started, -⟩ := live.written written
    cases started
  · intro type number live
    obtain ⟨_, emitter, started, -⟩ := live.written written
    rw [Emitter.start_eq_ok_iff] at started
    cases started with
    | number _ text => exact NumberValue.isFinite_of_text? text

/-! ## The canonical form -/

/-- Whatever was parsed has no part that was never set or is not finite, can be written, and its
text is parsed to the very same value; so generating once more gives the same text. -/
theorem write_parse_canonical {shape : Shape} {document : List UInt8} {value : Value}
    (floats : ∀ type number, Live schema shape value (.number type) (.number number) →
      number.ReadsBack)
    (parsed : parse schema shape document = .ok value) :
    (¬ Live schema shape value .variant .unset ∧
      ∀ type number, Live schema shape value (.number type) (.number number) →
        number.IsFinite) ∧
    ∃ text, writeValue schema shape value = .ok text ∧
      parse schema shape (Utf8.encodeString text) = .ok value ∧
      ∀ again, parse schema shape (Utf8.encodeString text) = .ok again →
        writeValue schema shape again = .ok text := by
  obtain ⟨-, json, -, -, means⟩ := (parse_eq_ok_iff schema shape document value).mp parsed
  have settled := (Json.settledSteps schema).readAs json shape means
  have restorable := settled.restorable floats
  obtain ⟨out, written⟩ := settled.written
  refine ⟨written.parts, ?_⟩
  obtain ⟨chars, -, rfl, -, -⟩ := restorable.restores out written
  have encoded : Utf8.encodeString (String.ofList chars) = Utf8.encode chars :=
    congrArg Utf8.encode String.toList_ofList
  rw [← encoded] at written
  have generated := (writeValue_eq_ok_iff shape value (String.ofList chars)).mpr written
  have back := restorable.parse written
  rw [settled.same] at back
  refine ⟨String.ofList chars, generated, back, ?_⟩
  intro again parsed
  rw [back] at parsed
  cases parsed
  exact generated

theorem write_parse_canonical_list :
    parse .empty (.list (.number .double)) (Utf8.encodeString "[ 15e-1]") =
      .ok (.list [.number (.double 0x3FF8000000000000)]) ∧
    ∃ text, writeValue .empty (.list (.number .double))
        (.list [.number (.double 0x3FF8000000000000)]) = .ok text ∧
      parse .empty (.list (.number .double)) (Utf8.encodeString text) =
        .ok (.list [.number (.double 0x3FF8000000000000)]) := by
  have parsed : parse .empty (.list (.number .double)) (Utf8.encodeString "[ 15e-1]") =
      .ok (.list [.number (.double 0x3FF8000000000000)]) := rfl
  have floats : ∀ type number, Live .empty (.list (.number .double))
      (.list [.number (.double 0x3FF8000000000000)]) (.number type) (.number number) →
        number.ReadsBack := by
    intro type number live
    cases live with
    | item among inside =>
      rw [List.mem_singleton.mp among] at inside
      cases inside
      intro text written
      have known : binary64.text? .double (0x3FF8000000000000 : BitVec 64).toNat =
          some ['1', '.', '5'] := rfl
      rw [known] at written
      cases written
      rfl
  obtain ⟨-, text, written, back, -⟩ := write_parse_canonical floats parsed
  exact ⟨parsed, text, written, back⟩

end IncrementalJson
