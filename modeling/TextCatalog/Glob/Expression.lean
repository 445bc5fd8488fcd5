import TextCatalog.Glob.Match
/-!
# The regular expression of a glob

A glob that is more than a fixed text is compared through a regular expression over bytes. This is the
expression, how it is written, and how deep it nests: each class, repetition, group, alternation and
sequence is one level, where a group of a single branch has no alternation and a single part is no
sequence.
-/

namespace TextCatalog.Glob

open RawText (slash)

/-- A regular expression of the kinds that globs ask for. -/
inductive Expression where
  | byte (b : UInt8)
  /-- A byte among those of the intervals or, when negated, not among them. -/
  | oneOf (negated : Bool) (intervals : List (UInt8 × UInt8))
  | anything
  | optional (inner : Expression)
  | many (inner : Expression)
  /-- One of the branches, each a sequence. -/
  | group (branches : List (List Expression))
  deriving Repr

def Expression.notSlash : Expression :=
  .oneOf true [(slash, slash)]

mutual

/-- The parts that a token is written with. Branches that are not written are left out. -/
def Token.expressions : Token → List Expression
  | .literal c => (String.utf8EncodeChar c).map .byte
  | .anyByte => [.notSlash]
  | .anyRun => [.many .notSlash]
  | .leadingDirs => [.group [[.optional (.byte slash)], [.many .anything, .byte slash]]]
  | .trailingAll => [.byte slash, .many .anything]
  | .betweenDirs => [.group [[.byte slash], [.byte slash, .many .anything, .byte slash]]]
  | .byteClass negated ranges => [.oneOf negated (ranges.flatMap fun r => rangeBytes r.1 r.2)]
  | .oneOf branches =>
    match branchExpressions branches with
    | [] => []
    | written => [.group written]

/-- The parts of `done`, which come last one first, and of the tokens after them. -/
def sequenceAfter (done : List Expression) : List Token → List Expression
  | [] => done.reverse
  | t :: ts => sequenceAfter (t.expressions.reverse ++ done) ts

def branchExpressions : List (List Token) → List (List Expression)
  | [] => []
  | b :: bs =>
    match sequenceAfter [] b with
    | [] => branchExpressions bs
    | written => written :: branchExpressions bs

end

/-- The parts of the expression of a glob between the start and the end of a path. -/
def expressions (g : Glob) : List Expression :=
  if g.takesAll then [.many .anything] else sequenceAfter [] g.tokens

/-- The characters that are written after a backslash. -/
def escapedChars : List Char :=
  ['\\', '.', '+', '*', '?', '(', ')', '|', '[', ']', '\x7b', '\x7d', '^', '$', '#', '&', '-', '~']

def byteText (b : UInt8) : List Char :=
  if b < 128 then
    let c := Char.ofNat b.toNat
    if escapedChars.contains c then ['\\', c] else [c]
  else '\\' :: 'x' :: Nat.toDigits 16 b.toNat

def intervalText (i : UInt8 × UInt8) : List Char :=
  if i.1 = i.2 then byteText i.1 else byteText i.1 ++ '-' :: byteText i.2

def classText (negated : Bool) (intervals : List (UInt8 × UInt8)) : List Char :=
  '[' :: (if negated then ['^'] else []) ++ intervals.flatMap intervalText ++ [']']

mutual

/-- The text `done`, which comes last character first, with an expression written after it. -/
def Expression.writeAfter (done : List Char) : Expression → List Char
  | .byte b => (byteText b).reverse ++ done
  | .oneOf negated intervals => (classText negated intervals).reverse ++ done
  | .anything => '.' :: done
  | .optional inner => '?' :: inner.writeAfter done
  | .many inner => '*' :: inner.writeAfter done
  | .group branches => ')' :: writeBranches (':' :: '?' :: '(' :: done) branches

def writeSequence (done : List Char) : List Expression → List Char
  | [] => done
  | e :: es => writeSequence (e.writeAfter done) es

/-- The text `done` with branches written after it, a bar between two of them. -/
def writeBranches (done : List Char) : List (List Expression) → List Char
  | [] => done
  | [b] => writeSequence done b
  | b :: bs => writeBranches ('|' :: writeSequence done b) bs

end

def regex (g : Glob) : String :=
  "(?-u)^" ++ String.ofList (writeSequence [] g.expressions).reverse ++ "$"

/-- The level of a list that is no single thing. -/
def listDepth {α : Type} (xs : List α) : Nat :=
  if xs.length ≤ 1 then 0 else 1

mutual

def Expression.depth : Expression → Nat
  | .byte _ | .anything => 0
  | .oneOf _ intervals => 1 + listDepth intervals
  | .optional inner | .many inner => 1 + inner.depth
  | .group branches => 1 + listDepth branches + deepestBranch 0 branches

/-- How deep the deepest part of a sequence nests, if deeper than `least`. -/
def deepest (least : Nat) : List Expression → Nat
  | [] => least
  | e :: es => deepest (max least e.depth) es

def deepestBranch (least : Nat) : List (List Expression) → Nat
  | [] => least
  | b :: bs => deepestBranch (max least (listDepth b + deepest 0 b)) bs

end

/-- How deep the expression of a glob nests. The start and the end of a path are parts of it, so it
is a sequence. -/
def depth (g : Glob) : Nat :=
  1 + deepest 0 g.expressions

example : regex ⟨[.literal 'é', .anyRun, .oneOf [[.literal '.'], []]]⟩ =
    "(?-u)^\\xc3\\xa9[^/]*(?:\\.)$" := by cbv
example : depth ⟨[.oneOf [[.literal 'a'], [.anyRun]]]⟩ = 5 := by cbv

end TextCatalog.Glob
