import TextCatalog.Path.Basic
import TextCatalog.Text.Lines
/-!
# Entries

An entry is a key with its text. A catalog has one entry a key, in the order in which the keys first
appeared; of several texts under one key the last one counts.
-/

namespace TextCatalog

structure Entry where
  key : String
  content : String
  deriving DecidableEq, Repr

namespace Entry

/-- Entries that are being merged, and the place of each key among them. -/
structure Placed where
  entries : List Entry
  places : List (String × Nat)

/-- An entry takes the place of its key, or a new one behind the others. -/
def Placed.add (p : Placed) (e : Entry) : Placed :=
  match p.places.lookup e.key with
  | some i => { p with entries := p.entries.set i e }
  | none => ⟨p.entries ++ [e], (e.key, p.entries.length) :: p.places⟩

/-- The entries with one place for each key, the first, and in it the last of its contents. -/
def merge (es : List Entry) : List Entry :=
  (es.foldl Placed.add ⟨[], []⟩).entries

def find? (key : String) (es : List Entry) : Option Entry :=
  List.find? (fun e => e.key == key) es

end Entry

/-- A source file: its path, its place relative to the root and the key of its text. -/
structure SourceFile where
  path : Path
  canonicalKey : String
  outputKey : String
  deriving DecidableEq, Repr

/-- Two files with one output key: the file that lost its place and the one that took it. -/
structure Collision where
  key : String
  overridden : Path
  winner : Path
  deriving DecidableEq, Repr

namespace SourceFile

def owner? (key : String) (files : List SourceFile) : Option SourceFile :=
  files.reverse.find? fun f => f.outputKey == key

/-- One collision for each file that has an earlier one with its key; `seen` holds the files before,
last one first. -/
def collisionsAfter (seen : List SourceFile) : List SourceFile → List Collision
  | [] => []
  | f :: fs =>
    match seen.find? fun g => g.outputKey == f.outputKey with
    | some g => ⟨f.outputKey, g.path, f.path⟩ :: collisionsAfter (f :: seen) fs
    | none => collisionsAfter (f :: seen) fs

def collisions (files : List SourceFile) : List Collision :=
  collisionsAfter [] files

end SourceFile

end TextCatalog
