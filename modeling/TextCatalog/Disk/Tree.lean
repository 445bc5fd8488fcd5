import TextCatalog.Disk.Script
/-!
# Trees of files

A tree is a finite disk: what stands at each location, a location being the names that lead to it
from the root directory. A path is resolved piece by piece, links followed on the way.
-/

namespace TextCatalog.Disk

open RawText (dot)

/-- The names that lead to a place from the root directory. -/
abbrev Location := List RawText

inductive Node where
  | file (bytes : ByteArray)
  | directory
  | link (target : Path)
  deriving DecidableEq

def Node.kind : Node → Kind
  | file _ => .file
  | directory => .directory
  | link _ => .link

/-- Files, directories and links by their locations. The root directory is always there. -/
structure Tree where
  nodes : List (Location × Node)
  /-- The directories whose entries may not be listed. A directory that is made is not among them. -/
  closed : List Location := []

inductive Place where
  /-- At a directory that the path does not name: it ends in one dot or two, or is the root. -/
  | unnamed (loc : Location)
  /-- At a name in a directory that exists, with or without slashes behind it. Nothing need stand
  there. -/
  | named (loc : Location) (slash : Bool)
  deriving DecidableEq

def Place.loc : Place → Location
  | unnamed loc | named loc _ => loc

/-- The names that lead from `top` to `loc`, if it lies there or below. -/
def Location.from? : (top loc : Location) → Option Location
  | [], loc => some loc
  | _ :: _, [] => none
  | a :: top, b :: loc => if a = b then Location.from? top loc else none

namespace Tree

def find? (t : Tree) (loc : Location) : Option Node :=
  if loc = [] then some .directory else (t.nodes.find? fun n => n.1 == loc).map Prod.snd

def put (t : Tree) (loc : Location) (node : Node) : Tree :=
  ⟨(loc, node) :: t.nodes.filter fun n => n.1 != loc,
    if node = .directory then t.closed.filter (· != loc) else t.closed⟩

def erase (t : Tree) (loc : Location) : Tree :=
  { t with nodes := t.nodes.filter fun n => n.1 != loc }

/-- What lies below a location, by the names that lead on from it. -/
def below (t : Tree) (loc : Location) : List (Location × Node) :=
  t.nodes.filterMap fun n =>
    match Location.from? loc n.1 with
    | some (name :: names) => some (name :: names, n.2)
    | _ => none

def eraseBelow (t : Tree) (loc : Location) : Tree :=
  { t with nodes := t.nodes.filter fun n =>
      match Location.from? loc n.1 with
      | some (_ :: _) => false
      | _ => true }

theorem find?_put_self {t : Tree} {loc : Location} {node : Node} (h : loc ≠ []) :
    (t.put loc node).find? loc = some node := by
  simp [find?, put, h]

theorem find?_put_of_ne {t : Tree} {loc other : Location} {node : Node} (h : other ≠ loc) :
    (t.put loc node).find? other = t.find? other := by
  have h₁ : (loc == other) = false := by simpa using Ne.symm h
  simp only [find?, put, List.find?_cons, h₁, List.find?_filter]
  congr 3
  funext n
  by_cases hn : n.1 = other <;> simp [hn, h]

theorem find?_erase_self {t : Tree} {loc : Location} (h : loc ≠ []) :
    (t.erase loc).find? loc = none := by
  simp [find?, erase, h]

theorem find?_erase_of_ne {t : Tree} {loc other : Location} (h : other ≠ loc) :
    (t.erase loc).find? other = t.find? other := by
  simp only [find?, erase, List.find?_filter]
  congr 3
  funext n
  by_cases hn : n.1 = other <;> simp [hn, h]

/-- How many links may be followed on the way along one path. -/
def linkLimit : Nat := 40

def nameLimit : Nat := 255

def pathLimit : Nat := 4095

/-- What stands at a location, if its last name is not too long. -/
def look (t : Tree) (loc : Location) : Except Cause (Option Node) :=
  if loc.getLast?.any fun name => nameLimit < name.length then .error .nameTooLong
  else .ok (t.find? loc)

/-- Follows the pieces of a path from the directory at `here`. A link at the end of the path is followed
if `follows` says so, which is told whether slashes come behind it. Behind a link that is followed,
`pass` goes on. -/
def walkBy (t : Tree) (follows : Bool → Bool)
    (pass : (here : Location) → (pieces : List RawText) → Except Cause Place) (here : Location) :
    (pieces : List RawText) → Except Cause Place
  | [] => .ok (.unnamed here)
  | piece :: rest =>
    if Path.isIdlePiece piece then walkBy t follows pass here rest
    else if piece = [dot, dot] then walkBy t follows pass here.dropLast rest
    else
      let loc := here ++ [piece]
      let slash := !rest.isEmpty
      let isLast := rest.all List.isEmpty
      if isLast && !follows slash then .ok (.named loc slash)
      else
        match t.look loc with
        | .error cause => .error cause
        | .ok (some (.link target)) =>
          pass (if target.isAbsolute then [] else here) (target.pieces ++ rest)
        | .ok found =>
          if isLast then .ok (.named loc slash)
          else
            match found with
            | none => .error .notFound
            | some .directory => walkBy t follows pass loc rest
            | some _ => .error .notADirectory

/-- Follows the pieces of a path from a directory, and at most `links` links on the way. -/
def walk (t : Tree) (follows : Bool → Bool) :
    (links : Nat) → (here : Location) → (pieces : List RawText) → Except Cause Place
  | 0 => t.walkBy follows fun _ _ => .error .tooManyLinks
  | links + 1 => t.walkBy follows (walk t follows links)

/-- Why a text is no path, if it is none. -/
def unfit? (p : Path) : Option Cause :=
  if p.text.contains 0 then some .nulInName
  else if p.text = [] then some .notFound
  else if pathLimit < p.text.length then some .nameTooLong
  else none

/-- Where a path ends that is seen from the directory `cwd`. -/
def resolve (t : Tree) (cwd : Path) (follows : Bool → Bool) (p : Path) : Except Cause Place :=
  match unfit? p with
  | some cause => .error cause
  | none => walk t follows linkLimit [] (cwd.join p).pieces

/-- What stands at a place. Only a directory can have slashes behind its name. -/
def nodeAt (t : Tree) : Place → Except Cause Node
  | .unnamed _ => .ok .directory
  | .named loc slash =>
    match t.look loc with
    | .error cause => .error cause
    | .ok none => .error .notFound
    | .ok (some node) => if slash ∧ node ≠ .directory then .error .notADirectory else .ok node

/-- The tree with a file at the place where a path ends. A path with slashes at its end, or one that
a link has there, asks for a directory. -/
def write (t : Tree) (cwd p : Path) (bytes : ByteArray) : Except Cause Tree :=
  match t.resolve cwd (fun slash => !slash) p with
  | .error cause => .error cause
  | .ok (.unnamed _) | .ok (.named _ true) => .error .isADirectory
  | .ok (.named loc false) =>
    match t.look loc with
    | .error cause => .error cause
    | .ok (some .directory) => .error .isADirectory
    | .ok _ => .ok (t.put loc (.file bytes))

def add (t : Tree) (cwd p : Path) (node : Node) : Except Cause Tree :=
  match t.resolve cwd (fun _ => false) p with
  | .error cause => .error cause
  | .ok (.unnamed _) => .error .alreadyExists
  | .ok (.named loc slash) =>
    match t.look loc with
    | .error cause => .error cause
    | .ok (some _) => .error .alreadyExists
    | .ok none => if slash ∧ node ≠ .directory then .error .notFound else .ok (t.put loc node)

def remove (t : Tree) (cwd p : Path) : Except Cause Tree :=
  match t.resolve cwd (fun _ => false) p with
  | .error cause => .error cause
  | .ok (.unnamed _) => .error .isADirectory
  | .ok (.named loc slash) =>
    match t.look loc with
    | .error cause => .error cause
    | .ok none => .error .notFound
    | .ok (some .directory) => .error .isADirectory
    | .ok (some _) => if slash then .error .notADirectory else .ok (t.erase loc)

def rename (t : Tree) (cwd p target : Path) : Except Cause Tree :=
  match t.resolve cwd (fun _ => false) p, t.resolve cwd (fun _ => false) target with
  | .error cause, _ | _, .error cause => .error cause
  | .ok (.unnamed _), _ | _, .ok (.unnamed _) => .error .busy
  | .ok (.named old slash), .ok (.named new slash') =>
    match t.look old, t.look new with
    | .error cause, _ => .error cause
    | .ok none, _ => .error .notFound
    | _, .error cause => .error cause
    | .ok (some .directory), _ => .error .isADirectory
    | .ok (some node), .ok there =>
      if slash || slash' then .error .notADirectory
      else if there = some .directory then .error .isADirectory
      else .ok ((t.erase old).put new node)

def node (t : Tree) (cwd p : Path) : Except Cause Node :=
  match t.resolve cwd (fun _ => true) p with
  | .error cause => .error cause
  | .ok place => t.nodeAt place

def read (t : Tree) (cwd p : Path) : Except Cause ByteArray :=
  match t.node cwd p with
  | .error cause => .error cause
  | .ok (.file bytes) => .ok bytes
  | .ok _ => .error .isADirectory

/-- Why the directory at `loc` cannot be opened by the path `p` that leads there, if it cannot. -/
def refusal? (t : Tree) (p : Path) (loc : Location) : Option Cause :=
  match unfit? p, t.look loc with
  | some cause, _ | none, .error cause => some cause
  | none, .ok _ => if t.closed.contains loc then some .permissionDenied else none

/-- What a walk meets that starts from the directory at `loc`, to which `p` leads. What a directory holds
that cannot be opened is among the items; whoever heeds the refusal does not come to see it. -/
def listing (t : Tree) (p : Path) (loc : Location) : Listing where
  items := (t.below loc).map fun n => (n.1, n.2.kind)
  refused := (([], .directory) :: t.below loc).filterMap fun n =>
    if n.2 = .directory then (t.refusal? (p.descend n.1) (loc ++ n.1)).map fun cause => (n.1, cause)
    else none

def contents (t : Tree) (cwd p : Path) : Except Cause Listing :=
  match t.resolve cwd (fun _ => true) p with
  | .error cause => .error cause
  | .ok place =>
    match t.nodeAt place with
    | .error cause => .error cause
    | .ok .directory => .ok (t.listing p place.loc)
    | .ok _ => .error .notADirectory

/-- A change of the tree as the outcome of an operation. A tree that refuses the change stays as it
is. -/
def changed (t : Tree) : Except Cause Tree → Except Cause Unit × Tree
  | .ok after => (.ok (), after)
  | .error cause => (.error cause, t)

/-- Performs an operation, with relative paths seen from the directory `cwd`. -/
def perform (cwd : Path) (op : Op) (t : Tree) : Except Cause op.Answer × Tree :=
  match op with
  | .kind p => ((t.node cwd p).map Node.kind, t)
  | .below p => (t.contents cwd p, t)
  | .read p => (t.read cwd p, t)
  | .makeDirectory p => t.changed (t.add cwd p .directory)
  | .write p bytes => t.changed (t.write cwd p bytes)
  | .rename p target => t.changed (t.rename cwd p target)
  | .remove p => t.changed (t.remove cwd p)

end Tree

end TextCatalog.Disk
