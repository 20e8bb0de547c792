import IncrementalJson.Proofs.Viewing.SameTree

/-!
# Paths to members

A path is made of names by writing each so that it holds no slash, with a slash
in front.  Taken apart, it gives the same names back, whatever they are, so that a
view finds by a path what it finds by the names one after the other.  All that a
view leads to through what it lists has such a path, unless the way goes through
a member in the shadow of one declared before, or an extra in the shadow of a
declared member: these are listed and written, but their names belong to others.
-/

set_option autoImplicit false

namespace IncrementalJson

namespace Path

/-! ## Names and their spelling -/

def escapeChar (char : Char) : List Char :=
  if char = '~' then ['~', '0'] else if char = '/' then ['~', '1'] else [char]

def escape (name : List Char) : List Char := name.flatMap escapeChar

def join : List (List Char) → List Char
  | [] => []
  | [part] => part
  | part :: next :: rest => part ++ '/' :: join (next :: rest)

/-- The path that the names on the way make, but for the slash in front. -/
def relative (names : List String) : String :=
  String.ofList (join (names.map fun name => escape name.toList))

def ofNames (names : List String) : String :=
  if names.isEmpty then "" else "/" ++ relative names

theorem slash_notMem_escape (name : List Char) : '/' ∉ escape name := by
  intro among
  obtain ⟨char, -, spelled⟩ := List.mem_flatMap.mp among
  rw [escapeChar] at spelled
  split at spelled
  · simp at spelled
  · split at spelled
    · simp at spelled
    · rename_i other
      rw [List.mem_singleton] at spelled
      exact other spelled.symm

theorem replaceMark_cons {mark char first : Char} (plain : first ≠ '~') (rest : List Char) :
    replaceMark mark char (first :: rest) = first :: replaceMark mark char rest := by
  cases rest with
  | nil => rfl
  | cons second rest => rw [replaceMark, if_neg fun marked => plain marked.1]

def escapeTilde (char : Char) : List Char := if char = '~' then ['~', '0'] else [char]

/-- A slash that was spelled comes back; what a tilde is spelled with keeps it from being taken
for one. -/
theorem replaceMark_escape (name : List Char) :
    replaceMark '1' '/' (escape name) = name.flatMap escapeTilde := by
  induction name with
  | nil => rfl
  | cons char rest ih =>
    rw [escape] at ih
    rw [escape, List.flatMap_cons, List.flatMap_cons]
    by_cases tilde : char = '~'
    · subst tilde
      have spelled : escapeChar '~' = ['~', '0'] := rfl
      rw [spelled, List.cons_append, List.singleton_append, replaceMark, if_neg (by decide),
        replaceMark_cons (by decide), ih]
      rfl
    · by_cases slash : char = '/'
      · subst slash
        have spelled : escapeChar '/' = ['~', '1'] := rfl
        rw [spelled, List.cons_append, List.singleton_append, replaceMark, if_pos ⟨rfl, rfl⟩, ih]
        rfl
      · simp only [escapeChar, escapeTilde, tilde, slash, if_false, List.singleton_append]
        rw [replaceMark_cons tilde, ih]

theorem replaceMark_escapeTilde (name : List Char) :
    replaceMark '0' '~' (name.flatMap escapeTilde) = name := by
  induction name with
  | nil => rfl
  | cons char rest ih =>
    rw [List.flatMap_cons]
    by_cases tilde : char = '~'
    · subst tilde
      have spelled : escapeTilde '~' = ['~', '0'] := rfl
      rw [spelled, List.cons_append, List.singleton_append, replaceMark, if_pos ⟨rfl, rfl⟩, ih]
    · rw [escapeTilde, if_neg tilde, List.singleton_append, replaceMark_cons tilde, ih]

theorem unescape_escape (name : List Char) : unescape (escape name) = name := by
  rw [unescape, replaceMark_escape, replaceMark_escapeTilde]

theorem split_plain {part : List Char} (plain : '/' ∉ part) : split part = [part] := by
  induction part with
  | nil => rfl
  | cons char rest ih =>
    rw [List.mem_cons, not_or] at plain
    simp only [split, if_neg (Ne.symm plain.1), ih plain.2]

theorem split_join {parts : List (List Char)} (filled : parts ≠ [])
    (plain : ∀ part ∈ parts, '/' ∉ part) : split (join parts) = parts := by
  induction parts with
  | nil => exact absurd rfl filled
  | cons part rest ih =>
    obtain ⟨here, others⟩ := List.forall_mem_cons.mp plain
    cases rest with
    | nil => exact split_plain here
    | cons next rest =>
      rw [join, split_append_slash _ _ here, ih (List.cons_ne_nil _ _) others]

theorem split_names {names : List String} (filled : names ≠ []) :
    (split (join (names.map fun name => escape name.toList))).map
      (fun part => String.ofList (unescape part)) = names := by
  rw [split_join (by simpa using filled) (by simp [slash_notMem_escape]), List.map_map]
  have back (name : String) : String.ofList (unescape (escape name.toList)) = name := by
    rw [unescape_escape, String.ofList_toList]
  conv_rhs => rw [← List.map_id names]
  exact List.map_congr_left fun name _ => back name

theorem names_ofNames (names : List String) : Path.names (ofNames names) = names := by
  cases names with
  | nil => rfl
  | cons first rest =>
    have chars : (ofNames (first :: rest)).toList =
        '/' :: join ((first :: rest).map fun name => escape name.toList) := by
      simp [ofNames, relative]
    rw [Path.names, chars]
    exact split_names (List.cons_ne_nil _ _)

theorem join_cons (part : List Char) (rest : List (List Char)) :
    ∃ more, join (part :: rest) = part ++ more := by
  cases rest with
  | nil => exact ⟨[], (List.append_nil part).symm⟩
  | cons next rest => exact ⟨_, rfl⟩

/-- So it does without its slash in front, unless the first name is empty. -/
theorem names_relative {first : String} (filled : first ≠ "") (rest : List String) :
    Path.names (relative (first :: rest)) = first :: rest := by
  obtain ⟨char, chars, spelled⟩ : ∃ char chars, escape first.toList = char :: chars := by
    rw [← List.ne_nil_iff_exists_cons]
    intro nothing
    apply filled
    rw [← String.ofList_toList (s := first), ← unescape_escape first.toList, nothing]
    rfl
  have plain : char ≠ '/' := by
    rintro rfl
    apply slash_notMem_escape first.toList
    rw [spelled]
    exact List.mem_cons_self
  obtain ⟨more, joined⟩ := join_cons (char :: chars) (rest.map fun name => escape name.toList)
  have names := split_names (List.cons_ne_nil first rest)
  rw [List.map_cons, spelled, joined, List.cons_append] at names
  have chars : (relative (first :: rest)).toList = char :: (chars ++ more) := by
    rw [relative, String.toList_ofList, List.map_cons, spelled, joined, List.cons_append]
  rw [Path.names, chars]
  split
  · rename_i nothing
    cases nothing
  · rename_i slash
    cases slash
    exact absurd rfl plain
  · exact names

end Path

/-! ## What paths lead to -/

namespace View

theorem find?_ofNames (view : View) (names : List String) :
    view.find? (Path.ofNames names) = view.follow? names := by
  rw [find?, Path.names_ofNames]

theorem find?_relative (view : View) {first : String} (filled : first ≠ "")
    (rest : List String) :
    view.find? (Path.relative (first :: rest)) = view.follow? (first :: rest) := by
  rw [find?, Path.names_relative filled]

theorem follow?_cons (view : View) (name : String) (rest : List String) :
    view.follow? (name :: rest) = (view.get? name).bind fun place => place.follow? rest := rfl

/-- What a view lists, but for the members in the shadow of others. -/
def openMembers (view : View) : List (String × View) :=
  let seen := view.resolve
  match seen.value, view.schema.table? seen.shape with
  | .object stored presence extras, some table =>
    if seen.matched then
      (table.openMembers stored presence extras).map fun (name, shape, value) =>
        (name, ofValue view.schema shape value)
    else []
  | _, _ => view.members

/-- The views that a view leads to through lists of their members, with the names on the way. -/
inductive LeadsBy (listed : View → List (String × View)) : View → List String → View → Prop where
  | here (view : View) : LeadsBy listed view [] view
  | member {view part last : View} {name : String} {names : List String}
      (among : (name, part) ∈ listed view) (further : LeadsBy listed part names last) :
      LeadsBy listed view (name :: names) last

section

variable {view : View} {shape : Shape} {table : Table} {stored : List Value}
  {presence : PresenceBits 64} {extras : Entries Value}

theorem openMembers_object
    (seen : view.resolve = .ofValue view.schema shape (.object stored presence extras))
    (declared : view.schema.table? shape = some table) :
    view.openMembers = (table.openMembers stored presence extras).map fun (name, shape, value) =>
      (name, ofValue view.schema shape value) := by
  simp only [openMembers, seen, if_pos (matched_ofValue _ _ _)]
  simp only [ofValue, declared]

theorem openMembers_list {item : Shape} {items : List Value}
    (seen : view.resolve = .ofValue view.schema (.list item) (.list items)) :
    view.openMembers = view.members := by
  simp only [openMembers, seen]
  rfl

theorem openMembers_leaf {value : Value} (leaf : value.isLeaf)
    (seen : view.resolve = .ofValue view.schema shape value) :
    view.openMembers = view.members := by
  simp only [openMembers, seen]
  cases value with
  | object => cases leaf
  | _ => rfl

end

end View

/-! ## Views of values of a shape -/

variable {schema : Schema}

/-- What is found behind all layers of a value of a shape: a scalar, a list or an object. -/
inductive HasCore (schema : Schema) : Shape → Value → Prop where
  | leaf {shape : Shape} {value : Value} (leaf : value.isLeaf) : HasCore schema shape value
  | list {item : Shape} {items : List Value} (typed : ∀ value ∈ items, HasShape schema item value) :
      HasCore schema (.list item) (.list items)
  | object {shape : Shape} {table : Table} {members : List Value} {presence : PresenceBits 64}
      {extras : Entries Value} (declared : schema.table? shape = some table)
      (distinct : extras.names.Nodup)
      (typed : ∀ member ∈ table.liveMembers members presence extras,
        HasShape schema member.2.1 member.2.2) :
      HasCore schema shape (.object members presence extras)

theorem HasShape.resolve {shape : Shape} {value : Value} (typed : HasShape schema shape value) :
    ∃ inner core, (View.ofValue schema shape value).resolve = .ofValue schema inner core ∧
      HasCore schema inner core ∧
      ∀ last rest, Live schema inner core last rest → Live schema shape value last rest := by
  induction typed with
  | null | bool | string | number | unset | absent =>
    exact ⟨_, _, View.resolve_leaf rfl _, .leaf rfl, fun _ _ live => live⟩
  | @list item items typed _ =>
    have seen : (View.ofValue schema (.list item) (.list items)).resolve =
        .ofValue schema (.list item) (.list items) := by
      rw [View.resolve_ofValue, Value.concrete.eq_def]
      rfl
    exact ⟨_, _, seen, .list typed, fun _ _ live => live⟩
  | held typed ih =>
    obtain ⟨inner, core, seen, hasCore, wider⟩ := ih
    exact ⟨inner, core, (View.resolve_held _).trans seen, hasCore,
      fun last rest live => .held (wider last rest live)⟩
  | present typed ih =>
    obtain ⟨inner, core, seen, hasCore, wider⟩ := ih
    exact ⟨inner, core, (View.resolve_present _ _).trans seen, hasCore,
      fun last rest live => .present (wider last rest live)⟩
  | box typed ih =>
    obtain ⟨inner, core, seen, hasCore, wider⟩ := ih
    exact ⟨inner, core, (View.resolve_box _ _).trans seen, hasCore,
      fun last rest live => .box (wider last rest live)⟩
  | @object shape table members presence extras declared _ unique typed _ =>
    have seen : (View.ofValue schema shape (.object members presence extras)).resolve =
        .ofValue schema shape (.object members presence extras) := by
      rw [View.resolve_ofValue, Value.concrete.eq_def, Schema.unbox_of_table? declared]
    exact ⟨_, _, seen, .object declared unique typed, fun _ _ live => live⟩

/-- No list in a value is longer than a list in memory can be. -/
def ListsFit (schema : Schema) (shape : Shape) (value : Value) : Prop :=
  ∀ item items, Live schema shape value (.list item) (.list items) → items.length ≤ 2 ^ 64

/-- No record in a value holds an extra with the name of a member that it declares. -/
def NoneShadowed (schema : Schema) (shape : Shape) (value : Value) : Prop :=
  ∀ position members presence extras,
    Live schema shape value (.record position) (.object members presence extras) →
      ∀ field ∈ (schema.record position).fields, field.name ∉ Entries.names extras

/-- A part of a value of a shape, and what is said of all that is written of the value holds of
the part as well. -/
def PartOf (schema : Schema) (shape : Shape) (value : Value) (part : View) : Prop :=
  ∃ inner inside, part = .ofValue schema inner inside ∧ HasShape schema inner inside ∧
    ∀ last rest, Live schema inner inside last rest → Live schema shape value last rest

theorem HasShape.partOf {shape : Shape} {value : Value} (typed : HasShape schema shape value)
    {name : String} {part : View}
    (among : (name, part) ∈ (View.ofValue schema shape value).members) :
    PartOf schema shape value part := by
  obtain ⟨inner, core, seen, hasCore, wider⟩ := typed.resolve
  cases hasCore with
  | leaf leaf =>
    rw [(View.shows_leaf leaf seen).1] at among
    cases among
  | list typed =>
    rw [View.members_list seen] at among
    obtain ⟨⟨value, index⟩, inside, same⟩ := List.mem_map.mp among
    cases same
    have among := List.mem_of_getElem? (List.mk_mem_zipIdx_iff_getElem?.mp inside)
    exact ⟨_, value, rfl, typed value among, fun _ _ live => wider _ _ (.item among live)⟩
  | object declared _ typed =>
    rw [View.members_object seen declared] at among
    obtain ⟨member, inside, same⟩ := List.mem_map.mp among
    cases same
    exact ⟨_, _, rfl, typed member inside, fun _ _ live => wider _ _ (.member declared inside live)⟩

theorem HasShape.get?_eq_some_iff {shape : Shape} {value : Value}
    (typed : HasShape schema shape value) (fits : ListsFit schema shape value) (name : String)
    (part : View) :
    (View.ofValue schema shape value).get? name = some part ↔
      (name, part) ∈ (View.ofValue schema shape value).openMembers := by
  obtain ⟨inner, core, seen, hasCore, wider⟩ := typed.resolve
  cases hasCore with
  | leaf leaf =>
    rw [View.openMembers_leaf leaf seen]
    exact (View.agrees_leaf leaf seen).found name part
  | list =>
    rw [View.openMembers_list seen]
    exact (View.agrees_list seen (fits _ _ (wider _ _ (.here _ _)))).found name part
  | object declared unique =>
    rw [View.get?_object seen declared, View.openMembers_object seen declared]
    exact View.found_iff_open unique schema name part

theorem HasShape.mem_members_of_open {shape : Shape} {value : Value}
    (typed : HasShape schema shape value) {listed : String × View}
    (among : listed ∈ (View.ofValue schema shape value).openMembers) :
    listed ∈ (View.ofValue schema shape value).members := by
  obtain ⟨inner, core, seen, hasCore, -⟩ := typed.resolve
  cases hasCore with
  | leaf leaf => rwa [View.openMembers_leaf leaf seen] at among
  | list => rwa [View.openMembers_list seen] at among
  | object declared =>
    rw [View.openMembers_object seen declared] at among
    rw [View.members_object seen declared]
    obtain ⟨member, inside, rfl⟩ := List.mem_map.mp among
    exact List.mem_map.mpr ⟨member, Table.mem_liveMembers_of_open inside, rfl⟩

theorem HasShape.mem_open_of_members (distinct : schema.NamesDistinct) {shape : Shape}
    {value : Value} (typed : HasShape schema shape value) (none : NoneShadowed schema shape value)
    {listed : String × View} (among : listed ∈ (View.ofValue schema shape value).members) :
    listed ∈ (View.ofValue schema shape value).openMembers := by
  obtain ⟨inner, core, seen, hasCore, wider⟩ := typed.resolve
  cases hasCore with
  | leaf leaf => rwa [View.openMembers_leaf leaf seen]
  | list => rwa [View.openMembers_list seen]
  | @object _ table members presence extras declared unique _ =>
    have undeclared : ∀ name ∈ extras.names, table.lookup? name = Option.none := by
      intro name among
      refine Schema.lookup?_of_noClash declared ?_ among
      intro position isRecord
      subst isRecord
      exact none position members presence extras (wider _ _ (.here _ _))
    have findable : table.Findable members presence extras :=
      Table.findable_of_distinct distinct declared unique undeclared
    rw [View.members_object seen declared] at among
    rw [View.openMembers_object seen declared]
    obtain ⟨member, inside, rfl⟩ := List.mem_map.mp among
    exact List.mem_map.mpr ⟨member, Table.mem_open_of_liveMembers findable inside, rfl⟩

/-! ## What paths lead to in a value -/

theorem HasShape.follow?_eq_some_iff (names : List String) {shape : Shape} {value : Value}
    (typed : HasShape schema shape value)
    (fits : ListsFit schema shape value) (last : View) :
    (View.ofValue schema shape value).follow? names = some last ↔
      (View.ofValue schema shape value).LeadsBy View.openMembers names last := by
  induction names generalizing shape value with
  | nil =>
    constructor
    · intro found
      cases found
      exact .here _
    · intro leads
      cases leads
      rfl
  | cons name names ih =>
    rw [View.follow?_cons, Option.bind_eq_some_iff]
    constructor
    · rintro ⟨part, found, further⟩
      have among := (typed.get?_eq_some_iff fits name part).mp found
      obtain ⟨inner, inside, rfl, typed', wider⟩ := typed.partOf (typed.mem_members_of_open among)
      have fits' : ListsFit schema inner inside :=
        fun item items live => fits item items (wider _ _ live)
      exact .member among ((ih typed' fits').mp further)
    · intro leads
      cases leads with
      | @member _ part _ _ _ among further =>
        obtain ⟨inner, inside, rfl, typed', wider⟩ :=
          typed.partOf (typed.mem_members_of_open among)
        have fits' : ListsFit schema inner inside :=
          fun item items live => fits item items (wider _ _ live)
        exact ⟨_, (typed.get?_eq_some_iff fits name _).mpr among,
          (ih typed' fits').mpr further⟩

theorem View.LeadsBy.past_shadows (distinct : schema.NamesDistinct) {view last : View}
    {names : List String} (leads : view.LeadsBy View.members names last) {shape : Shape} {value : Value}
    (same : view = .ofValue schema shape value) (typed : HasShape schema shape value)
    (none : NoneShadowed schema shape value) : view.LeadsBy View.openMembers names last := by
  induction leads generalizing shape value with
  | here view => exact .here view
  | member among _ ih =>
    subst same
    obtain ⟨inner, inside, rfl, typed', wider⟩ := typed.partOf among
    refine .member (typed.mem_open_of_members distinct none among) (ih rfl typed' ?_)
    exact fun position members presence extras live =>
      none position members presence extras (wider _ _ live)

/-- Paths address members.  By the path of some names a view finds what it finds by the first of
them, then the second in what was found, and so on, whatever the names are; the slash in front may
be left out unless the first name is empty.  So the path of the names on the way finds all that a
value leads to through what it lists, past members in the shadow of others, and nothing else; and
where no name is declared twice and no extra is shadowed it finds all that is listed. -/
theorem paths_address_members :
    (∀ (view : View) (first : String) (rest : List String),
      let found := (view.get? first).bind fun place => place.follow? rest
      view.find? ("/" ++ Path.relative (first :: rest)) = found ∧
        (first ≠ "" → view.find? (Path.relative (first :: rest)) = found)) ∧
    ∀ (schema : Schema) (shape : Shape) (value : Value),
      HasShape schema shape value → ListsFit schema shape value → ∀ names last,
        ((View.ofValue schema shape value).find? (Path.ofNames names) = some last ↔
          (View.ofValue schema shape value).LeadsBy View.openMembers names last) ∧
        (schema.NamesDistinct → NoneShadowed schema shape value →
          (View.ofValue schema shape value).LeadsBy View.members names last →
            (View.ofValue schema shape value).find? (Path.ofNames names) = some last) := by
  constructor
  · intro view first rest
    constructor
    · exact view.find?_ofNames (first :: rest)
    · intro filled
      exact view.find?_relative filled rest
  · intro schema shape value typed fits names last
    have found : (View.ofValue schema shape value).find? (Path.ofNames names) = some last ↔
        (View.ofValue schema shape value).LeadsBy View.openMembers names last := by
      rw [View.find?_ofNames]
      exact typed.follow?_eq_some_iff names fits last
    refine ⟨found, ?_⟩
    intro distinct none leads
    exact found.mpr (leads.past_shadows distinct rfl typed none)

def oddlyNamed : Value :=
  .object [] (.forMembers 0) [("", .held .null), ("~1", .held (.list [.held (.bool true)]))]

theorem mem_oddlyNamed {table : Table} {member : String × Shape × Value}
    (declared : some (Table.ofExtra .variant) = some table)
    (among : member ∈ table.liveMembers [] (.forMembers 0)
      [("", .held .null), ("~1", .held (.list [.held (.bool true)]))]) :
    member = ("", .variant, .held .null) ∨
      member = ("~1", .variant, .held (.list [.held (.bool true)])) := by
  cases declared
  have members : member ∈ [("", Shape.variant, Value.held .null),
      ("~1", .variant, .held (.list [.held (.bool true)]))] := among
  simpa only [List.mem_cons, List.not_mem_nil, or_false] using members

theorem oddlyNamed_typed : HasShape .empty .map oddlyNamed := by
  refine .object rfl rfl (by decide) ?_
  intro member among
  rcases mem_oddlyNamed rfl among with rfl | rfl
  · exact .held .null
  · refine .held (.list ?_)
    intro value among
    rw [List.mem_singleton.mp among]
    exact .held (.bool true)

theorem oddlyNamed_fits : ListsFit .empty .map oddlyNamed := by
  intro item items live
  cases live with
  | member declared among inside =>
    rcases mem_oddlyNamed declared among with rfl | rfl
    · cases inside with
      | held inside => cases inside
    · cases inside with
      | held inside =>
        cases inside with
        | here => decide
        | item among inside =>
          rw [List.mem_singleton.mp among] at inside
          cases inside with
          | held inside => cases inside

/-- The item of the list leads by an index behind a name that looks like a spelled slash. -/
theorem paths_address_members_oddlyNamed :
    let view := View.ofValue .empty .map oddlyNamed
    let item := View.ofValue .empty .variant (.held (.bool true))
    Path.ofNames ["~1", "0"] = "/~01/0" ∧ view.find? "/~01/0" = some item ∧
      view.LeadsBy View.openMembers ["~1", "0"] item ∧
      view.LeadsBy View.members ["~1", "0"] item := by
  have leads : (View.ofValue .empty .map oddlyNamed).LeadsBy View.members ["~1", "0"]
      (.ofValue .empty .variant (.held (.bool true))) :=
    .member (.tail _ (.head _)) (.member (.head _) (.here _))
  have distinct : Schema.empty.NamesDistinct := fun _ => List.nodup_nil
  have none : NoneShadowed .empty .map oddlyNamed :=
    fun _ _ _ _ _ _ declared => absurd declared List.not_mem_nil
  obtain ⟨found, whole⟩ := paths_address_members.2 _ _ _ oddlyNamed_typed oddlyNamed_fits
    ["~1", "0"] (.ofValue .empty .variant (.held (.bool true)))
  exact ⟨rfl, whole distinct none leads, found.mp (whole distinct none leads), leads⟩

def numberedSchema : Schema := ⟨[⟨[⟨"id", .number (.integer .unsigned64)⟩], some .variant⟩], by decide⟩

/-- The record as it starts, with an extra of the declared name. -/
def shadowing : Value :=
  (numberedSchema.initial (.record 0)).setExtras
    (Entries.insert [] "id" (.held (.number (.any (.int 2)))))

theorem shadowing_typed : HasShape numberedSchema (.record 0) shadowing := by
  refine .object rfl rfl (by decide) ?_
  intro member among
  have members : member ∈ [("id", Shape.variant, Value.held (.number (.any (.int 2))))] := among
  rw [List.mem_singleton.mp members]
  exact .held (.number rfl)

def secondTwin : Value :=
  .object [.number (.integer 0), .number (.integer 2)] ⟨[2]⟩ []

theorem secondTwin_typed : HasShape twinSchema (.record 0) secondTwin := by
  refine .object rfl rfl (by decide) ?_
  intro member among
  have members : member ∈ [("x", Shape.number (.integer .signed64), Value.number (.integer 2))] :=
    among
  rw [List.mem_singleton.mp members]
  exact .number (show IntegerKind.signed64.holds 2 by decide)

/-- A shadowed extra is listed under its name, and so is a shadowed member, but their paths lead
nowhere, since the members that the names belong to are not there. -/
theorem paths_miss_shadowed :
    (HasShape numberedSchema (.record 0) shadowing ∧
      (View.ofValue numberedSchema (.record 0) shadowing).LeadsBy View.members ["id"]
        (.ofValue numberedSchema .variant (.held (.number (.any (.int 2))))) ∧
      (View.ofValue numberedSchema (.record 0) shadowing).find? (Path.ofNames ["id"]) = none) ∧
    HasShape twinSchema (.record 0) secondTwin ∧
      (View.ofValue twinSchema (.record 0) secondTwin).LeadsBy View.members ["x"]
        (.ofValue twinSchema (.number (.integer .signed64)) (.number (.integer 2))) ∧
      (View.ofValue twinSchema (.record 0) secondTwin).find? (Path.ofNames ["x"]) = none := by
  constructor
  · exact ⟨shadowing_typed, .member (.head _) (.here _), rfl⟩
  · exact ⟨secondTwin_typed, .member (.head _) (.here _), rfl⟩

end IncrementalJson
