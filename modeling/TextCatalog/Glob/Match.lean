import TextCatalog.Glob.Parse
import TextCatalog.Text.Raw
/-!
# Matching globs

A path is matched byte by byte. The state is a row of marks, one for each place between two bytes
and one for each end: a place is marked when the tokens read so far can end there. Every token turns
a row of marks into the next one, so the work is proportional to the length of the path.
-/

namespace TextCatalog.Glob

open RawText (slash)

/-- One mark for each place in a list of bytes, from before the first to after the last. -/
abbrev Marks := List Bool

namespace Marks

def start (bytes : List UInt8) : Marks :=
  true :: bytes.map fun _ => false

/-- The places one byte on, over a byte that satisfies `p`. -/
def advance (p : UInt8 → Bool) (bytes : List UInt8) (marks : Marks) : Marks :=
  false :: List.zipWith (fun b m => m && p b) bytes marks

def union (a b : Marks) : Marks :=
  List.zipWith (· || ·) a b

/-- The places any number of bytes on, all of which satisfy `p`; `live` tells whether the bytes just
before lead here from a marked place. -/
def spreadFrom (p : UInt8 → Bool) (live : Bool) : List UInt8 → Marks → Marks
  | b :: bytes, m :: marks =>
    let here := live || m
    here :: spreadFrom p (here && p b) bytes marks
  | [], m :: marks => (live || m) :: marks
  | _, [] => []

/-- The places any number of bytes on, all of which satisfy `p`. -/
def spread (p : UInt8 → Bool) (bytes : List UInt8) (marks : Marks) : Marks :=
  spreadFrom p false bytes marks

def atEnd (marks : Marks) : Bool :=
  marks.getLast?.getD false

end Marks

def notSlash (b : UInt8) : Bool := b != slash

/-- The closed byte intervals of a class. A range of characters is read through the bytes that write
its two ends: all bytes of the first but its last stand alone, the last of the first and the first of
the last bound an interval, and the other bytes of the last stand alone. -/
def rangeBytes (first last : Char) : List (UInt8 × UInt8) :=
  let a := String.utf8EncodeChar first
  let b := String.utf8EncodeChar last
  if first = last then a.map fun x => (x, x)
  else
    match a.getLast?, b with
    | some low, high :: more =>
      a.dropLast.map (fun x => (x, x)) ++ (low, high) :: more.map fun x => (x, x)
    | _, _ => []

def inClass (ranges : List (Char × Char)) (b : UInt8) : Bool :=
  ranges.any fun r => (rangeBytes r.1 r.2).any fun i => i.1 ≤ b && b ≤ i.2

mutual

/-- Whether a token asks for nothing at all. Only alternatives that are all silent are. -/
def Token.silent : Token → Bool
  | .oneOf branches => allSilent branches
  | _ => false

def silentSeq : List Token → Bool
  | [] => true
  | t :: ts => t.silent && silentSeq ts

def allSilent : List (List Token) → Bool
  | [] => true
  | b :: bs => silentSeq b && allSilent bs

end

mutual

/-- The places that a token leads to from the marked ones. -/
def Token.step (bytes : List UInt8) (marks : Marks) : Token → Marks
  | .literal c =>
    (String.utf8EncodeChar c).foldl (fun m x => Marks.advance (· == x) bytes m) marks
  | .anyByte => Marks.advance notSlash bytes marks
  | .anyRun => Marks.spread notSlash bytes marks
  | .leadingDirs =>
    Marks.union marks (Marks.advance (· == slash) bytes (Marks.spread (fun _ => true) bytes marks))
  | .trailingAll => Marks.spread (fun _ => true) bytes (Marks.advance (· == slash) bytes marks)
  | .betweenDirs =>
    let once := Marks.advance (· == slash) bytes marks
    Marks.union once (Marks.advance (· == slash) bytes (Marks.spread (fun _ => true) bytes once))
  | .byteClass negated ranges => Marks.advance (fun b => inClass ranges b != negated) bytes marks
  | .oneOf branches =>
    if allSilent branches then marks else stepBranches bytes marks branches

def stepSeq (bytes : List UInt8) (marks : Marks) : List Token → Marks
  | [] => marks
  | t :: ts => stepSeq bytes (t.step bytes marks) ts

/-- The places that one of the branches leads to. A silent branch is no alternative to others. -/
def stepBranches (bytes : List UInt8) (marks : Marks) : List (List Token) → Marks
  | [] => marks.map fun _ => false
  | b :: bs =>
    let rest := stepBranches bytes marks bs
    if silentSeq b then rest else Marks.union (stepSeq bytes marks b) rest

end

def endsInParent (bytes : List UInt8) : Bool :=
  (bytes.reverse.takeWhile notSlash) == [46, 46]

end TextCatalog.Glob

namespace TextCatalog.Glob

/-- Whether the glob judges a path by the extension or the whole of its file name: it ends in a
literal dot, and is neither a literal path nor the end of one. The name of a path that ends in `..`
is not such a name. -/
def readsName (g : Glob) : Bool :=
  match g.tokens.getLast? with
  | some (.literal '.') =>
    let fixed :=
      match g.tokens with
      | .leadingDirs :: rest => rest.all Token.isLiteral && rest.any (Token.isChar '/')
      | tokens => tokens.all Token.isLiteral
    !fixed
  | _ => false

/-- Whether the glob is `**` alone, which takes every path. -/
def takesAll (g : Glob) : Bool :=
  match g.tokens with
  | [.leadingDirs] => true
  | _ => false

def matchesBytes (g : Glob) (bytes : List UInt8) : Bool :=
  if g.takesAll then true
  else
    (stepSeq bytes (Marks.start bytes) g.tokens).atEnd && !(g.readsName && endsInParent bytes)

def accepts (g : Glob) (path : String) : Bool :=
  g.matchesBytes (Text.bytes path)

end TextCatalog.Glob
