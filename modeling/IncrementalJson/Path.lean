/-!
# Paths

A path names a place inside a value by the names on the way, with a slash between
them and, if you like, one in front.  Inside a name `~1` stands for a slash and
`~0` for a tilde.  The empty path is the value itself.
-/

set_option autoImplicit false

namespace IncrementalJson.Path

def split : List Char → List (List Char)
  | [] => [[]]
  | char :: rest =>
    if char = '/' then [] :: split rest
    else match split rest with
      | [] => [[char]]
      | part :: parts => (char :: part) :: parts

theorem split_append_slash (part rest : List Char) (plain : '/' ∉ part) :
    split (part ++ '/' :: rest) = part :: split rest := by
  induction part with
  | nil => simp [split]
  | cons char part ih =>
    simp only [List.mem_cons, not_or] at plain
    simp [split, Ne.symm plain.1, ih plain.2]

/-- Writes a character for every tilde with a given mark behind it, from left to right. -/
def replaceMark (mark char : Char) : List Char → List Char
  | [] => []
  | [last] => [last]
  | first :: second :: rest =>
    if first = '~' ∧ second = mark then char :: replaceMark mark char rest
    else first :: replaceMark mark char (second :: rest)

-- slashes first: a tilde that comes of `~0` must not be taken for the front of a mark
def unescape (part : List Char) : List Char :=
  replaceMark '0' '~' (replaceMark '1' '/' part)

def names (path : String) : List String :=
  match path.toList with
  | [] => []
  | '/' :: rest => (split rest).map fun part => String.ofList (unescape part)
  | chars => (split chars).map fun part => String.ofList (unescape part)

end IncrementalJson.Path
