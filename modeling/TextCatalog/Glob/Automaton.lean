import TextCatalog.Glob.Expression
/-!
# The size of an automaton

Globs that need a regular expression are compiled into an automaton, once for the forward direction
and once for the backward one. An expression is first brought into a simpler shape, in which fixed
bytes stand together, alternatives of single bytes are a class, and what all alternatives start with
stands before them. The size of the automaton is then the sum of the sizes of its states, in bytes.
-/

namespace TextCatalog.Glob

/-- How deep the expression of a glob may nest. -/
def nestingLimit : Nat := 250

def sizeLimit : Nat := 10 * 1024 * 1024

/-- A set of bytes as intervals in ascending order, with a gap between any two of them. -/
abbrev ByteSet := List (Nat × Nat)

namespace ByteSet

def full : ByteSet := [(0, 255)]

def insert (first last : Nat) : ByteSet → ByteSet
  | [] => [(first, last)]
  | (a, b) :: rest =>
    if last + 1 < a then (first, last) :: (a, b) :: rest
    else if b + 1 < first then (a, b) :: insert first last rest
    else insert (min first a) (max last b) rest

def union (s t : ByteSet) : ByteSet :=
  t.foldl (fun s i => insert i.1 i.2 s) s

/-- The bytes from `next` on that are not in the set. -/
def missingFrom (next : Nat) : ByteSet → ByteSet
  | [] => if next ≤ 255 then [(next, 255)] else []
  | (a, b) :: rest =>
    if next < a then (next, a - 1) :: missingFrom (b + 1) rest else missingFrom (b + 1) rest

def ofClass (negated : Bool) (intervals : List (UInt8 × UInt8)) : ByteSet :=
  let listed := union [] (intervals.map fun i => (i.1.toNat, i.2.toNat))
  if negated then missingFrom 0 listed else listed

end ByteSet

/-- An expression in the form from which its automaton is built. -/
inductive Shape where
  | fixed (bytes : List Nat)
  | oneOf (set : ByteSet)
  | optional (inner : Shape)
  | many (inner : Shape)
  | sequence (parts : List Shape)
  | choice (branches : List Shape)

namespace Shape

mutual

def same : Shape → Shape → Bool
  | fixed a, fixed b => a == b
  | oneOf s, oneOf t => s == t
  | optional s, optional t | many s, many t => s.same t
  | sequence ss, sequence ts | choice ss, choice ts => allSame ss ts
  | _, _ => false

def allSame : List Shape → List Shape → Bool
  | [], [] => true
  | s :: ss, t :: ts => s.same t && allSame ss ts
  | _, _ => false

end

/-- One byte of a set; a set of a single byte is that byte. -/
def ofSet : ByteSet → Shape
  | [(a, b)] => if a = b then fixed [a] else oneOf [(a, b)]
  | set => oneOf set

/-- What a shape is a sequence of. -/
def parts : Shape → List Shape
  | sequence ps => ps
  | s => [s]

def branches : Shape → List Shape
  | choice bs => bs
  | s => [s]

/-- The shapes of `done`, last one first, then the bytes of `run`, last one first, as one shape, and
then the others, with the fixed bytes among them joined in the same way. -/
def joinFixed (done : List Shape) (run : List Nat) : List Shape → List Shape
  | [] => (flush done run).reverse
  | fixed bytes :: rest => joinFixed done (bytes.reverse ++ run) rest
  | s :: rest => joinFixed (s :: flush done run) [] rest
where
  flush (done : List Shape) (run : List Nat) : List Shape :=
    if run.isEmpty then done else fixed run.reverse :: done

def joined (shapes : List Shape) : List Shape :=
  joinFixed [] [] (shapes.flatMap parts)

def ofSequence (shapes : List Shape) : Shape :=
  match joined shapes with
  | [] => fixed []
  | [s] => s
  | ps => sequence ps

/-- The set of the bytes that the shapes take, if each takes one byte. -/
def set? : List Shape → Option ByteSet
  | [] => some []
  | fixed [b] :: rest => (set? rest).map (ByteSet.insert b b)
  | oneOf s :: rest => (set? rest).map fun t => ByteSet.union t s
  | _ => none

/-- How many parts `ps` and the parts of all shapes start with in common; none if one of them is no
sequence. -/
def commonParts (ps : List Shape) : List Shape → Nat
  | [] => ps.length
  | sequence qs :: rest =>
    commonParts (((ps.zip qs).takeWhile fun (p, q) => p.same q).map Prod.fst) rest
  | _ => 0

/-- The choice between shapes. What all of them start with stands before the choice between the rest
of them. That choice may open one that stood deeper, so `fuel` need be no more than the limit on
nesting. -/
def ofChoice (fuel : Nat) (shapes : List Shape) : Shape :=
  let flat := shapes.flatMap branches
  match flat, set? flat with
  | [s], _ => s
  | _, some set => ofSet set
  | _, none =>
    match fuel, flat with
    | fuel + 1, sequence ps :: rest =>
      match commonParts ps rest with
      | 0 => choice flat
      | n =>
        let rests := flat.map fun s => ofSequence (s.parts.drop n)
        ofSequence (ps.take n ++ [ofChoice fuel rests])
    | _, _ => choice flat

end Shape

mutual

def Expression.shape : Expression → Shape
  | .byte b => .fixed [b.toNat]
  | .oneOf negated intervals => .ofSet (.ofClass negated intervals)
  | .anything => .oneOf .full
  | .optional inner => .optional inner.shape
  | .many inner => .many inner.shape
  | .group branches => .ofChoice nestingLimit (branchShapes branches)

/-- The shapes of `done`, which come last one first, and of the expressions after them. -/
def shapesAfter (done : List Shape) : List Expression → List Shape
  | [] => done.reverse
  | e :: es => shapesAfter (e.shape :: done) es

def branchShapes : List (List Expression) → List Shape
  | [] => []
  | b :: bs => .ofSequence (shapesAfter [] b) :: branchShapes bs

end

/-- The size of a state without the list of what follows it. -/
def stateSize : Nat := 32

/-- The size of one interval of bytes in a state that branches on bytes. -/
def edgeSize : Nat := 8

/-- The size of one way out of a state that branches without a byte. -/
def jumpSize : Nat := 4

/-- The words up to each empty one, and those after the last. Of empty words at the start only the
first counts. -/
def chunks (words : List (List Nat)) : List (List (List Nat)) :=
  match words with
  | [] :: rest => [] :: split [] (rest.dropWhile List.isEmpty)
  | words => split [] words
where
  /-- The words after those of `chunk`, which come last one first, cut at the empty ones. -/
  split (chunk : List (List Nat)) : List (List Nat) → List (List (List Nat))
    | [] => [chunk.reverse]
    | [] :: rest => chunk.reverse :: split [] rest
    | word :: rest => split (word :: chunk) rest

/-- The size of the states that read one of some words by their first bytes, one state for all that
start alike; `fuel` is at least the length of the longest word. -/
def wordsSize : (fuel : Nat) → (words : List (List Nat)) → Nat
  | 0, _ => 0
  | fuel + 1, words =>
    if words.all List.isEmpty then 0
    else
      let parts := chunks words
      let full := parts.filter fun part => !part.isEmpty
      let jumps := full.length + (parts.length - 1)
      let sizes := full.map fun part =>
        let firsts := (part.filterMap List.head?).eraseDups
        let edges := if firsts.length = 1 then 0 else edgeSize * firsts.length
        let below := firsts.map fun b =>
          wordsSize fuel ((part.filter fun word => word.head? == some b).map List.tail)
        stateSize + edges + below.sum
      stateSize + jumpSize * jumps + sizes.sum

/-- The bytes of shapes that are nothing but fixed bytes. -/
def words? : List Shape → Option (List (List Nat))
  | [] => some []
  | .fixed (b :: bytes) :: rest => (words? rest).map ((b :: bytes) :: ·)
  | _ => none

/-- The size of the states that read one of some words. -/
def choiceSize (backward : Bool) (words : List (List Nat)) : Nat :=
  let words := if backward then words.map List.reverse else words
  stateSize + wordsSize ((words.map List.length).foldl max 0 + 1) words

def forkSize (count : Nat) : Nat :=
  2 * stateSize + jumpSize * count

mutual

/-- The size of the states of a shape, read forward or backward. -/
def Shape.size (backward : Bool) : Shape → Nat
  | .fixed bytes => stateSize * max 1 bytes.length
  | .oneOf set => 2 * stateSize + edgeSize * set.length
  | .optional inner => forkSize 2 + inner.size backward
  | .many inner => stateSize + 2 * jumpSize + inner.size backward
  | .sequence parts => sizeAfter backward 0 parts
  | .choice branches =>
    match words? branches with
    | some words => choiceSize backward words
    | none => sizeAfter backward (forkSize branches.length) branches

def sizeAfter (backward : Bool) (done : Nat) : List Shape → Nat
  | [] => done
  | s :: rest => sizeAfter backward (done + s.size backward) rest

end

/-- The size of the automaton of some globs. There is a state at its start, and for each glob one for
the start of the path, one for its end and one for the match; forward there are two more, which mark
the match. -/
def automatonSize (backward : Bool) (gs : List Glob) : Nat :=
  let frame := if backward then 3 else 5
  let fork := if gs.length ≤ 1 then 0 else forkSize gs.length
  gs.foldl (fun n g =>
      sizeAfter backward (n + stateSize * frame) (Shape.joined (shapesAfter [] g.expressions)))
    (stateSize + fork)

example : (Expression.group [[.byte 97], [.byte 98]]).shape.size false = 72 := by cbv
example : (Expression.group [[.byte 97, .byte 98], [.byte 97]]).shape.size false = 172 := by cbv

end TextCatalog.Glob
