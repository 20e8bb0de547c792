/-!
# Entries in order of insertion

Members outside a declared table are kept as pairs of a name and a value in the
order in which their names first came.  A name that comes again keeps its place
and takes the new value.
-/

set_option autoImplicit false

namespace IncrementalJson

abbrev Entries (α : Type) := List (String × α)

namespace Entries

variable {α : Type}

def find? : Entries α → String → Option α
  | [], _ => none
  | (key, value) :: rest, name => if key = name then some value else find? rest name

def insert : Entries α → String → α → Entries α
  | [], name, value => [(name, value)]
  | (key, old) :: rest, name, value =>
    if key = name then (key, value) :: rest else (key, old) :: insert rest name value

/-- The entries with a place for a name: a new name comes last, with a value until it gets its
own. -/
def reserve : Entries α → String → α → Entries α
  | [], name, value => [(name, value)]
  | (key, old) :: rest, name, value =>
    if key = name then (key, old) :: rest else (key, old) :: reserve rest name value

/-- Where a name stands, or would if it came next. -/
def position (entries : Entries α) (name : String) : Nat :=
  entries.findIdx fun entry => entry.1 = name

def replace? (entries : Entries α) (name : String) (value : α) : Option (Entries α) :=
  if (entries.find? name).isSome then some (entries.insert name value) else none

def ofList (pairs : List (String × α)) : Entries α :=
  pairs.foldl (fun entries (name, value) => entries.insert name value) []

def names (entries : Entries α) : List String :=
  entries.map Prod.fst

theorem find?_insert (entries : Entries α) (name other : String) (value : α) :
    (entries.insert name value).find? other =
      if name = other then some value else entries.find? other := by
  induction entries with
  | nil => rfl
  | cons entry rest ih =>
    obtain ⟨key, old⟩ := entry
    by_cases hkey : key = name
    · subst hkey
      by_cases hother : key = other <;> simp [insert, find?, hother]
    · by_cases hother : key = other
      · subst hother
        simp [insert, find?, hkey, Ne.symm hkey]
      · simp [insert, find?, hkey, hother, ih]

theorem position_cons (key name : String) (value : α) (rest : Entries α) :
    position ((key, value) :: rest) name = if key = name then 0 else position rest name + 1 := by
  simp only [position, List.findIdx_cons, cond_eq_ite, decide_eq_true_eq]

theorem getElem?_reserve (entries : Entries α) (name : String) (held : α) :
    ∃ value, (entries.reserve name held)[entries.position name]? = some (name, value) := by
  induction entries with
  | nil => exact ⟨held, rfl⟩
  | cons entry rest ih =>
    obtain ⟨key, old⟩ := entry
    by_cases same : key = name
    · exact ⟨old, by simp [reserve, position_cons, same]⟩
    · simpa [reserve, position_cons, same] using ih

theorem set_reserve (entries : Entries α) (name : String) (held value : α) :
    (entries.reserve name held).set (entries.position name) (name, value) =
      entries.insert name value := by
  induction entries with
  | nil => rfl
  | cons entry rest ih =>
    obtain ⟨key, old⟩ := entry
    by_cases same : key = name
    · simp [reserve, position_cons, insert, same]
    · simp [reserve, position_cons, insert, same, ih]

theorem find?_isSome_iff (entries : Entries α) (name : String) :
    (entries.find? name).isSome ↔ name ∈ entries.names := by
  induction entries with
  | nil => simp [find?, names]
  | cons entry rest ih =>
    obtain ⟨key, old⟩ := entry
    by_cases hkey : key = name
    · simp [find?, names, hkey]
    · simp only [find?, if_neg hkey, ih]
      simp [names, Ne.symm hkey]

/-- An insertion keeps every name at its place and adds a new one at the end. -/
theorem names_insert (entries : Entries α) (name : String) (value : α) :
    (entries.insert name value).names =
      if name ∈ entries.names then entries.names else entries.names ++ [name] := by
  induction entries with
  | nil => rfl
  | cons entry rest ih =>
    obtain ⟨key, old⟩ := entry
    simp only [names] at ih
    by_cases hkey : key = name
    · simp [insert, names, hkey]
    · by_cases hrest : name ∈ rest.map Prod.fst
      · simp [insert, names, hkey, ih, hrest]
      · simp [insert, names, hkey, ih, hrest, Ne.symm hkey]

theorem mem_insert {entries : Entries α} {name : String} {value : α}
    {entry : String × α} (among : entry ∈ entries.insert name value) :
    entry = (name, value) ∨ entry ∈ entries := by
  induction entries with
  | nil => exact .inl (List.mem_singleton.mp among)
  | cons first entries ih =>
    obtain ⟨key, old⟩ := first
    rw [insert] at among
    split at among
    · rename_i same
      rcases List.mem_cons.mp among with rfl | among
      · exact .inl (by rw [same])
      · exact .inr (List.mem_cons_of_mem _ among)
    · rcases List.mem_cons.mp among with rfl | among
      · exact .inr List.mem_cons_self
      · rcases ih among with here | among
        · exact .inl here
        · exact .inr (List.mem_cons_of_mem _ among)

theorem nodup_insert {entries : Entries α} (distinct : entries.names.Nodup)
    (name : String) (value : α) : (entries.insert name value).names.Nodup := by
  rw [names_insert]
  split
  · exact distinct
  · rename_i new
    rw [List.nodup_append]
    refine ⟨distinct, by simp, ?_⟩
    intro other among last here
    rw [List.mem_singleton.mp here]
    rintro rfl
    exact new among

end Entries

end IncrementalJson
