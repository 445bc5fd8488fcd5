import TextCatalog.Disk.File
import TextCatalog.Entry
import TextCatalog.Key
import TextCatalog.Selection
/-!
# Source files

Finding the files that a selection names, and reading them. Only the base directories of the patterns
are walked, and of the files below them each is found once, in the order of their canonical keys.
-/

namespace TextCatalog

namespace SourceFile

def ofPath (root : Path) (strip : Option String) (path : Path) : SourceFile :=
  let key := Key.canonical root path
  ⟨path, key, Key.output strip key⟩

/-- The path of what lies below a directory, by the names that lead there. -/
def pathBelow (directory : Path) (names : List RawText) : Path :=
  (Path.ofComponents (directory.components ++ names.map .name)).normalize

/-- Whether an item below a directory is a file that the selection names. -/
def isSelected (s : Selection) (root directory : Path) (names : List RawText) (kind : Disk.Kind) :
    Bool :=
  kind == .file && names.all s.admits &&
    s.selects (Path.slashed (Path.relative root (pathBelow directory names)))

/-- What a walk below a directory meets. It fails if it comes through admitted names to a directory that
cannot be opened. -/
def walk (s : Selection) (directory : Path) : Action (List (List RawText × Disk.Kind)) := do
  let listing ← Action.ask .io (.below directory)
  match listing.refused.find? fun refused => refused.1.all s.admits with
  | some (names, cause) => Action.ofExcept (.error (.walk (directory.descend names) cause))
  | none => return listing.items

/-- The paths of the selected files below the base directories. A base directory that is missing
holds none. -/
def gather (s : Selection) (root : Path) : (bases : List Path) → Action (List Path)
  | [] => return []
  | base :: bases => do
    let directory := (root.join base).normalize
    if ← Disk.isDirectory directory then
      let items ← walk s directory
      let here := items.filter fun item => isSelected s root directory item.1 item.2
      return here.map (fun item => pathBelow directory item.1) ++ (← gather s root bases)
    else gather s root bases

/-- The selected files, in the order of their canonical keys. The root must exist. -/
def collect (cwd root : Path) (s : Selection) (strip : Option String) :
    Action (List SourceFile) := do
  let _ ← Action.ask .io (.kind root)
  let root ← Action.ofExcept (Path.absolute cwd root)
  let root := root.normalize
  let files := (Path.distinct (← gather s root s.bases)).map (ofPath root strip)
  return files.mergeSort fun f g => f.canonicalKey ≤ g.canonicalKey

/-- The text of a source file, with its line ends as line feeds. -/
def read (f : SourceFile) : Action Entry := do
  let text ← Action.ofScript (.readSource f.path) (Disk.readText f.path)
  return ⟨f.outputKey, Text.lineFeeds text⟩

/-- The entries of source files, and the collisions among them. One file that cannot be read fails
them all. -/
def readAll (files : List SourceFile) : Action (List Entry × List Collision) := do
  let entries ← files.mapM read
  return (Entry.merge entries, collisions files)

end SourceFile

end TextCatalog
