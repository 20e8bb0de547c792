/-!
# Presence bits

A record remembers which of its members are present in words of a fixed width.
Bit `i` is bit `i % width` of word `i / width`; bits beyond the last word read
as absent and cannot be set.  `PresenceLayout` describes sets built from smaller
sets: its words are those of the parts, one after the other.
-/

set_option autoImplicit false

namespace IncrementalJson

structure PresenceBits (width : Nat) where
  words : List (BitVec width)
  deriving DecidableEq, Repr

namespace PresenceBits

variable {width : Nat}

def empty (width count : Nat) : PresenceBits width :=
  ⟨List.replicate count 0⟩

def capacity (bits : PresenceBits width) : Nat :=
  width * bits.words.length

def get (bits : PresenceBits width) (index : Nat) : Bool :=
  match bits.words[index / width]? with
  | some word => word.getLsbD (index % width)
  | none => false

def writeBit (word : BitVec width) (index : Nat) (value : Bool) : BitVec width :=
  let mask := BitVec.twoPow width index
  if value then word ||| mask else word &&& ~~~mask

def set (bits : PresenceBits width) (index : Nat) (value : Bool) : PresenceBits width :=
  ⟨bits.words.modify (index / width) fun word => writeBit word (index % width) value⟩

theorem getLsbD_writeBit (word : BitVec width) (index other : Nat) (value : Bool)
    (bounded : index < width) :
    (writeBit word index value).getLsbD other =
      if index = other then value else word.getLsbD other := by
  by_cases same : index = other
  · subst same
    cases value <;> simp [writeBit, bounded]
  · cases value <;> simp [writeBit, same]
    intro hit
    exact word.lt_of_getLsbD hit

/-- Writing a number below the capacity changes that number alone; beyond the capacity nothing
changes. -/
theorem get_set (bits : PresenceBits width) (index other : Nat) (value : Bool) :
    (bits.set index value).get other =
      if index = other ∧ index < bits.capacity then value else bits.get other := by
  rcases Nat.eq_zero_or_pos width with rfl | positive
  · simp only [get, set, capacity, Nat.div_zero, Nat.zero_mul, Nat.not_lt_zero, and_false,
      if_false, List.getElem?_modify, if_true]
    cases bits.words[0]? <;> simp [writeBit]
  · have remainder := Nat.mod_lt index positive
    have otherRemainder := Nat.mod_lt other positive
    simp only [get, set, capacity, List.getElem?_modify]
    by_cases sameWord : index / width = other / width
    · simp only [sameWord, if_true]
      cases found : bits.words[other / width]? with
      | none =>
        have beyond := List.getElem?_eq_none_iff.1 found
        have : ¬ (index = other ∧ index < width * bits.words.length) := by
          rintro ⟨-, below⟩
          have := Nat.div_lt_of_lt_mul below
          omega
        simp [this]
      | some word =>
        have inside : other / width < bits.words.length :=
          (List.getElem?_eq_some_iff.1 found).1
        have below : index < width * bits.words.length := by
          have := Nat.div_add_mod index width
          have : width * (index / width) + width ≤ width * bits.words.length := by
            rw [← Nat.mul_succ]
            exact Nat.mul_le_mul_left _ (by omega)
          omega
        have same : index % width = other % width ↔ index = other := by
          constructor
          · intro equal
            rw [← Nat.div_add_mod index width, ← Nat.div_add_mod other width, sameWord, equal]
          · rintro rfl
            rfl
        simp [below, same, getLsbD_writeBit, remainder]
    · have : index ≠ other := fun equal => sameWord (equal ▸ rfl)
      simp [sameWord, this]

@[simp] theorem get_empty (width count index : Nat) : (empty width count).get index = false := by
  simp only [get, empty, List.getElem?_replicate]
  by_cases inside : index / width < count <;> simp [inside]

@[simp] theorem capacity_set (bits : PresenceBits width) (index : Nat) (value : Bool) :
    (bits.set index value).capacity = bits.capacity := by
  simp [capacity, set]

/-- The empty set for the members of a record: one word for every 64 members begun. -/
def forMembers (count : Nat) : PresenceBits 64 :=
  empty 64 ((count + 63) / 64)

theorem capacity_forMembers (count : Nat) :
    (forMembers count).capacity = 64 * ((count + 63) / 64) :=
  congrArg (64 * ·) List.length_replicate

theorem le_capacity_forMembers (count : Nat) : count ≤ (forMembers count).capacity := by
  rw [capacity_forMembers]
  omega

@[simp] theorem get_forMembers (count index : Nat) : (forMembers count).get index = false :=
  get_empty ..

end PresenceBits

inductive PresenceLayout where
  /-- One word of so many bits. -/
  | word (width : Nat)
  /-- Several sets of the same layout in a row. -/
  | wide (count : Nat) (part : PresenceLayout)
  deriving DecidableEq, Repr, Inhabited

namespace PresenceLayout

def width : PresenceLayout → Nat
  | word bits => bits
  | wide _ part => part.width

def count : PresenceLayout → Nat
  | word _ => 1
  | wide parts part => parts * part.count

def empty (layout : PresenceLayout) : PresenceBits layout.width :=
  PresenceBits.empty layout.width layout.count

end PresenceLayout

end IncrementalJson
