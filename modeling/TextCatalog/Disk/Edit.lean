import TextCatalog.Disk.File
import TextCatalog.Disk.Tree
/-!
# Edits

What people do to a tree between two runs: they write files, make directories and links, and remove
things. They may list every directory.
-/

namespace TextCatalog.Disk

open RawText (dot)

inductive Edit where
  /-- Give a file these bytes, in directories that are made if they are missing. -/
  | write (path : Path) (bytes : ByteArray)
  /-- Make a directory and those above it. -/
  | makeDirectories (path : Path)
  | link (target path : Path)
  /-- Remove a file, or a directory with all that is in it. -/
  | remove (path : Path)
  deriving DecidableEq

namespace Tree

/-- The tree without the empty directory at the place where a path ends. The path has to name it. -/
def removeDirectory (t : Tree) (cwd p : Path) : Except Cause Tree :=
  match t.resolve cwd (fun _ => false) p with
  | .error cause => .error cause
  | .ok (.unnamed _) =>
    let last := p.pieces.reverse.find? (· ≠ [])
    if last = some [dot] then .error .invalidArgument
    else if last = some [dot, dot] then .error .directoryNotEmpty
    else .error .busy
  | .ok (.named loc _) =>
    match t.look loc with
    | .error cause => .error cause
    | .ok none => .error .notFound
    | .ok (some .directory) =>
      if (t.below loc).isEmpty then .ok (t.erase loc) else .error .directoryNotEmpty
    | .ok (some _) => .error .notADirectory

/-- The tree without what a path leads to. A directory is emptied before it is removed. The way to it
may lead through it, and then nothing is left to remove; or its path may not name it, and then it
stays. -/
def discard (t : Tree) (cwd p : Path) : Except Cause Unit × Tree :=
  match t.resolve cwd (fun slash => slash) p with
  | .error cause => (.error cause, t)
  | .ok place =>
    match t.nodeAt place with
    | .error cause => (.error cause, t)
    | .ok .directory =>
      let emptied := t.eraseBelow place.loc
      match emptied.removeDirectory cwd p with
      | .ok after => (.ok (), after)
      | .error .notFound => (.ok (), emptied)
      | .error cause => (.error cause, emptied)
    | .ok _ => t.changed (t.remove cwd p)

def addLink (t : Tree) (cwd target p : Path) : Except Cause Tree :=
  match unfit? target with
  | some cause => .error cause
  | none => t.add cwd p (.link target)

/-- Applies an edit, with relative paths seen from the directory `cwd`. -/
def edit (cwd : Path) : Edit → Tree → Except Cause Unit × Tree
  | .write p bytes, t =>
    match (makeRoom p).run (perform cwd) t with
    | (.error cause, t) => (.error cause, t)
    | (.ok (), t) => t.changed (t.write cwd p bytes)
  | .makeDirectories p, t => (Disk.makeDirectories p).run (perform cwd) t
  | .link target p, t => t.changed (t.addLink cwd target p)
  | .remove p, t => t.discard cwd p

end Tree

end TextCatalog.Disk
