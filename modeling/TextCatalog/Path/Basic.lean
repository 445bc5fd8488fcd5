import TextCatalog.Text.Basic
import TextCatalog.Text.Raw
/-!
# Paths

A path is kept as it was written, in bytes that need not be UTF-8, and read as a list of components. Empty
pieces and `.` pieces name nothing and drop out, except a leading `.` of a relative path. The operations
here are lexical: none of them looks at a disk.
-/

namespace TextCatalog

/-- A path as it was written, with `/` between its parts. -/
structure Path where
  text : RawText
  deriving DecidableEq, Repr, Inhabited

namespace Path

open RawText (slash dot)

inductive Component where
  | root
  | current
  | parent
  | name (n : RawText)
  deriving DecidableEq, Repr, Inhabited

namespace Component

def text : Component → RawText
  | root => [slash]
  | current => [dot]
  | parent => [dot, dot]
  | name n => n

/-- The step that a piece between two slashes stands for, if it names one. -/
def ofPiece? (piece : RawText) : Option Component :=
  if piece = [] ∨ piece = [dot] then none
  else if piece = [dot, dot] then some parent
  else some (name piece)

/-- Whether `a` comes before `b` or equals it: the root first, then `.`, `..` and the names. -/
def le : Component → Component → Bool
  | root, _ => true
  | _, root => false
  | current, _ => true
  | _, current => false
  | parent, _ => true
  | _, parent => false
  | name a, name b => decide (a ≤ b)

end Component

def isAbsolute (p : Path) : Bool :=
  p.text.head? == some slash

/-- What stands between the slashes of a path. -/
def pieces (p : Path) : List RawText :=
  Text.splitList slash p.text

def components (p : Path) : List Component :=
  let named := p.pieces.filterMap Component.ofPiece?
  if p.isAbsolute then .root :: named
  else if p.pieces.head? = some [dot] then .current :: named
  else named

/-- `q` seen from the directory `p`: itself if it is absolute, else appended after a slash. -/
def join (p q : Path) : Path :=
  if q.isAbsolute then q
  else if p.text = [] then q
  else if p.text.getLast? = some slash then ⟨p.text ++ q.text⟩
  else ⟨p.text ++ slash :: q.text⟩

/-- The path by which a walk that starts at `p` comes to where the names lead. -/
def descend (p : Path) (names : List RawText) : Path :=
  names.foldl (fun q name => q.join ⟨name⟩) p

def ofComponents : List Component → Path
  | .root :: cs => ⟨slash :: [slash].intercalate (cs.map Component.text)⟩
  | cs => ⟨[slash].intercalate (cs.map Component.text)⟩

/-- Puts a component on a stack of normal components, innermost first: `.` is dropped, and `..`
removes a name before it. -/
def pushNormal (stack : List Component) : Component → List Component
  | .current => stack
  | .parent =>
    match stack with
    | .name _ :: below => below
    | _ => .parent :: stack
  | c => c :: stack

def normalComponents (p : Path) : List Component :=
  (p.components.foldl pushNormal []).reverse

/-- The path with `.` removed and each `..` folded into a name before it. -/
def normalize (p : Path) : Path :=
  ofComponents p.normalComponents

def sharedLength : List Component → List Component → Nat
  | a :: as, b :: bs => if a = b then sharedLength as bs + 1 else 0
  | _, _ => 0

/-- The steps that lead from the directory `root` to `path`: one `..` for each component of `root`
that they do not share, then the rest of `path`. A `path` that shares nothing with a relative `root`
and is absolute is its own answer. -/
def relative (root path : Path) : List Component :=
  let here := root.normalComponents
  let there := path.normalComponents
  let shared := sharedLength here there
  match there.drop shared with
  | .root :: rest => .root :: rest
  | rest => List.replicate (here.length - shared) .parent ++ rest

/-- The names and `..` among the components as a text, with slashes between them. Names that are not UTF-8
can be read alike. -/
def slashed (cs : List Component) : String :=
  String.intercalate "/" (cs.filterMap fun
    | .name n => some n.lossy
    | .parent => some ".."
    | _ => none)

/-- The directory that holds the last component, if the path has one that is not the root. -/
def parent? (p : Path) : Option Path :=
  match p.components.getLast? with
  | none | some .root => none
  | some _ => some (ofComponents p.components.dropLast)

/-- A file name without its last extension. A dot at the start begins no extension. -/
def stem (name : RawText) : RawText :=
  match name.reverse.dropWhile (· ≠ dot) with
  | _ :: before => if before.isEmpty then name else before.reverse
  | [] => name

def isIdlePiece (piece : RawText) : Bool :=
  piece == [] || piece == [dot]

/-- The path with the extension of its last name replaced; what stands before that name is kept as it
was written. A path that does not end in a name stays as it is. A name that is two dots and its
extension loses the extension only, unless a slash is written behind it. -/
def withExtension (p : Path) (extension : RawText) : Path :=
  let pieces := p.pieces
  match pieces.reverse.dropWhile isIdlePiece with
  | [] => p
  | last :: before =>
    if last = [dot, dot] then p
    else
      let name :=
        if stem last = [dot] ∧ pieces.getLast? = some last then [dot, dot]
        else stem last ++ dot :: extension
      ⟨[slash].intercalate (before.reverse ++ [name])⟩

/-- The path seen from the working directory `cwd`. An empty path has no such form. Two slashes at
the start and one at the end keep their meaning; all others are single. -/
def absolute? (cwd p : Path) : Option Path :=
  if p.text = [] then none
  else
    let comps := p.components
    let start : Path × List Component :=
      if p.isAbsolute then
        if [slash, slash].isPrefixOf p.text && !([slash, slash, slash].isPrefixOf p.text) then
          (⟨[slash, slash]⟩, comps.drop 1)
        else (⟨[]⟩, comps)
      else (cwd, if comps.head? = some .current then comps.drop 1 else comps)
    let whole := start.2.foldl (fun q c => q.join ⟨c.text⟩) start.1
    some (if p.text.getLast? = some slash then whole.join ⟨[]⟩ else whole)

/-- Takes components off the pieces of a path; pieces that name nothing drop out on the way. -/
def dropComponents : List Component → List RawText → Option (List RawText)
  | [], pieces => some pieces
  | _ :: _, [] => none
  | c :: cs, piece :: pieces =>
    match Component.ofPiece? piece with
    | none => dropComponents (c :: cs) pieces
    | some found => if found = c then dropComponents cs pieces else none

/-- The path as someone in the directory `root` writes it: the rest of it as written if it lies below, else
the whole. -/
def seenFrom (root p : Path) : Path :=
  let below : Option (List RawText) :=
    match root.components with
    | .root :: cs => if p.isAbsolute then dropComponents cs p.pieces.tail else none
    | .current :: cs =>
      if p.pieces.head? = some [dot] then dropComponents cs p.pieces.tail else none
    | [] => if p.isAbsolute then none else some p.pieces
    | cs => if p.isAbsolute ∨ p.pieces.head? = some [dot] then none else dropComponents cs p.pieces
  match below with
  | none => p
  | some pieces =>
    let inner := pieces.dropWhile isIdlePiece
    ⟨[slash].intercalate (inner.reverse.dropWhile isIdlePiece).reverse⟩

/-- The path as it is shown. -/
def display (p : Path) : String :=
  p.text.lossy

def shownFrom (root p : Path) : String :=
  (seenFrom root p).display

def leComponents : List Component → List Component → Bool
  | [], _ => true
  | _ :: _, [] => false
  | a :: as, b :: bs => if a = b then leComponents as bs else a.le b

def le (p q : Path) : Bool :=
  leComponents p.components q.components

/-- Of neighbouring paths with the same components the first is kept. -/
def dropRepeats : List Path → List Path
  | [] => []
  | [p] => [p]
  | p :: q :: ps =>
    if p.components = q.components then dropRepeats (p :: ps) else p :: dropRepeats (q :: ps)
termination_by ps => ps.length

/-- The paths in order, each once. -/
def distinct (ps : List Path) : List Path :=
  dropRepeats (ps.mergeSort le)

example : normalize ⟨"/a/./b/../c//d/"⟩ = ⟨"/a/c/d"⟩ := by decide
example : slashed (relative ⟨"/a/b/c"⟩ ⟨"/a/x.md"⟩) = "../../x.md" := by decide
example : slashed (relative ⟨"/a"⟩ ⟨Text.bytes "/a/" ++ [0xFF]⟩) = "\uFFFD" := by decide
example : seenFrom ⟨"/p"⟩ ⟨"/p/./x/../d.ts"⟩ = ⟨"x/../d.ts"⟩ := by decide
example : withExtension ⟨"/p/../gen.d.ts/"⟩ "new" = ⟨"/p/../gen.d.new"⟩ := by decide
example : withExtension ⟨"/p/..ts"⟩ "new" = ⟨"/p/.."⟩ := by decide

end Path

end TextCatalog
