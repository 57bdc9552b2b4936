import Classwright.Files.Path
import Classwright.Text.Basic

/-!
# Files

What the commands need of a file system: to read a file and to give a file new content.  `FileTree`
is a directory with everything below it, as a value; reading and writing it is `MonadFiles` of the
state monad.
-/

namespace Classwright

/-- A path that leads to no file, or to no directory in which a file could be made. -/
structure MissingFile where
  /-- The path as it was given. -/
  path : String
  deriving Repr, DecidableEq, Inhabited

/-- The wording of the error. -/
def MissingFile.message (e : MissingFile) : String :=
  s!"open {e.path}: no such file or directory"

/-- Actions that may read and write files. -/
class MonadFiles (m : Type → Type) where
  /-- The content of a file. -/
  readFile : String → m (Except MissingFile Text)
  /-- Makes a file of the given content, in the place of any file that was there. -/
  writeFile : String → Text → m (Except MissingFile Unit)

/-- A working directory with all directories and files below it, each named by the row of names that
leads to it. -/
structure FileTree where
  /-- The directories, besides the working directory. -/
  directories : List (List String) := []
  /-- The files and their contents. -/
  files : List (List String × Text) := []
  deriving Repr, Inhabited

namespace FileTree

/-- Whether there is a directory in a place. -/
def hasDirectory (t : FileTree) (place : List String) : Bool :=
  place.isEmpty || t.directories.contains place

/-- The directory reached from the directory `here`, in reverse, along the given names. -/
def walk (t : FileTree) (here : List String) : List String → Option (List String)
  | [] => some here
  | name :: rest =>
    if name == ".." then
      match here with
      | [] => none
      | _ :: above => walk t above rest
    else if t.hasDirectory (name :: here).reverse then walk t (name :: here) rest
    else none

/-- The place a path names: every name on the way to the last has to be a directory. -/
def locate (t : FileTree) (path : String) : Option (List String) := do
  let p := Path.ofString path
  let name ← p.names.getLast?
  if p.rooted || name == ".." then none
  let directory ← t.walk [] p.names.dropLast
  return (name :: directory).reverse

/-- The content of a file. -/
def read? (t : FileTree) (path : String) : Option Text := do
  t.files.lookup (← t.locate path)

/-- The tree with new content for a file, if its directory is there. -/
def write? (t : FileTree) (path : String) (content : Text) : Option FileTree := do
  let place ← t.locate path
  return { t with files := (place, content) :: t.files.filter fun f => f.1 != place }

/-- The tree with the directories along a row of names. -/
def makeDirectories (t : FileTree) (names : List String) : FileTree :=
  let places := (List.range names.length).map fun n => names.take (n + 1)
  { t with directories := t.directories ++ places.filter fun p => !t.directories.contains p }

/-- The tree of the given directories and files. -/
def ofLists (directories : List String) (files : List (String × Text)) : FileTree :=
  let files := files.map fun (path, content) => ((Path.ofString path).clean.names, content)
  let t := directories.foldl
    (fun t path => t.makeDirectories (Path.ofString path).clean.names) ({} : FileTree)
  let t := files.foldl (fun t file => t.makeDirectories file.1.dropLast) t
  { t with files }

/-- The files of a tree that were not in an earlier one, in order of their paths. -/
def newFiles (before after : FileTree) : List (String × Text) :=
  let added := after.files.filter fun f => !before.files.any fun old => old.1 == f.1
  (added.map fun (place, content) => ("/".intercalate place, content)).mergeSort
    fun x y => x.1 ≤ y.1

instance : MonadFiles (StateM FileTree) where
  readFile path := fun t =>
    match t.read? path with
    | some content => (.ok content, t)
    | none => (.error ⟨path⟩, t)
  writeFile path content := fun t =>
    match t.write? path content with
    | some t => (.ok (), t)
    | none => (.error ⟨path⟩, t)

end FileTree

end Classwright
