/-!
# Paths

A path is a row of names between slashes, counted from the root if it starts with a slash.  Cleaning
a path removes what has no effect on where it leads: empty names, names for the directory itself,
and a directory that is left again at once.
-/

namespace Classwright

/-- A path, taken apart at its slashes. -/
structure Path where
  /-- Whether it is counted from the root. -/
  rooted : Bool
  /-- The names along it. -/
  names : List String
  deriving Repr, DecidableEq, Inhabited

namespace Path

/-- The parts of `s` between slashes. -/
def splitSlashes : List Char → List (List Char)
  | [] => [[]]
  | '/' :: rest => [] :: splitSlashes rest
  | c :: rest =>
    match splitSlashes rest with
    | [] => [[c]]
    | part :: parts => (c :: part) :: parts

/-- Takes the text of a path apart.  Empty names and `.` lead nowhere and are left out. -/
def ofString (s : String) : Path :=
  { rooted := s.toList.head? == some '/'
    names := ((splitSlashes s.toList).map String.ofList).filter fun name =>
      !name.isEmpty && name != "." }

/-- The text of a path; a path without names is the directory itself, or the root. -/
def text (p : Path) : String :=
  let names := "/".intercalate p.names
  if p.rooted then "/" ++ names else if names.isEmpty then "." else names

/-- One more name behind cleaned names, which stand in reverse: `..` leaves the directory entered
last, and there is nothing above the root. -/
def enter (rooted : Bool) (behind : List String) (name : String) : List String :=
  if name != ".." then name :: behind else
  match behind with
  | [] => if rooted then [] else [".."]
  | last :: above => if last == ".." then ".." :: behind else above

/-- The path without the directories that are left again at once. -/
def clean (p : Path) : Path :=
  { p with names := (p.names.foldl (enter p.rooted) []).reverse }

/-- The cleaned path of the entry `name` of a directory. -/
def join (directory name : String) : String :=
  (clean (ofString (directory ++ "/" ++ name))).text

end Path

end Classwright
