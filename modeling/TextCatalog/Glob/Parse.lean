import TextCatalog.Glob.Basic
/-!
# Reading globs

One pass over the characters. `?`, `*`, `[…]`, `{…,…}` and the backslash are syntax; every other
character stands for itself, and so does a comma outside of braces. Two stars cross slashes only as
a whole segment: at the start of a branch, or after a slash, and before a slash or the end.
-/

namespace TextCatalog.Glob

/-- A brace that is still open: the tokens before it and its finished branches, both innermost
first. -/
structure OpenGroup where
  outer : List Token
  branches : List (List Token)

/-- What has been read: the tokens of the branch being read, last one first, and the open braces,
innermost first. -/
structure Reading where
  current : List Token
  groups : List OpenGroup

namespace Reading

def start : Reading := ⟨[], []⟩

def push (r : Reading) (t : Token) : Reading :=
  { r with current := t :: r.current }

def openGroup (r : Reading) : Reading :=
  ⟨[], ⟨r.current, []⟩ :: r.groups⟩

/-- Ends a branch of the innermost brace; outside of braces a comma is a literal. -/
def nextBranch (r : Reading) : Reading :=
  match r.groups with
  | [] => r.push (.literal ',')
  | g :: gs => ⟨[], { g with branches := r.current :: g.branches } :: gs⟩

def closeGroup? (r : Reading) : Option Reading :=
  match r.groups with
  | [] => none
  | g :: gs => some ⟨.oneOf ((r.current :: g.branches).map List.reverse).reverse :: g.outer, gs⟩

def finish (r : Reading) : Except Fault Glob :=
  match r.groups with
  | [] => .ok ⟨r.current.reverse⟩
  | _ => .error .unclosedGroup

/-- Reads two stars that stand after the character `before` and before the character `next`. A slash
after them is read with them. -/
def doubleStar (r : Reading) (before next : Option Char) : Reading :=
  let slashAfter := next == some '/'
  let plain := (r.push .anyRun).push .anyRun
  let plain := if slashAfter then plain.push (.literal '/') else plain
  let opensBranch := before == some ',' || before == some '{'
  match r.current with
  | [] => if next.isNone || slashAfter then r.push .leadingDirs else plain
  | last :: below =>
    if before != some '/' && (r.groups.isEmpty || !opensBranch) then plain
    else
      let replaced (t : Token) : Reading :=
        match last with
        | .leadingDirs => r
        | .trailingAll => r
        | _ => { r with current := t :: below }
      match next with
      | none => replaced .trailingAll
      | some '/' => replaced .betweenDirs
      | some ',' => if r.groups.isEmpty then plain else replaced .trailingAll
      | some '}' => if r.groups.isEmpty then plain else replaced .trailingAll
      | some _ => plain

end Reading

/-- A class being read after its opening bracket: its ranges, last one first, and whether a `-` has
been read that may join the last range to the next character. -/
structure OpenClass where
  negated : Bool
  ranges : List (Char × Char)
  joining : Bool

namespace OpenClass

def add (k : OpenClass) (c : Char) : Except Fault OpenClass :=
  match k.joining, k.ranges with
  | true, (first, _) :: rs =>
    if c < first then .error (.invalidRange first c)
    else .ok { k with ranges := (first, c) :: rs, joining := false }
  | _, rs => .ok { k with ranges := (c, c) :: rs, joining := false }

/-- Reads a `-`, which is a character of its own at the start or as the end of a range. -/
def dash (k : OpenClass) : Except Fault OpenClass :=
  if k.ranges.isEmpty || k.joining then k.add '-' else .ok { k with joining := true }

/-- The token of the class. A `-` just before the closing bracket is a character of its own. -/
def token (k : OpenClass) : Token :=
  .byteClass k.negated (if k.joining then ('-', '-') :: k.ranges else k.ranges).reverse

end OpenClass

mutual

/-- Reads the rest of a glob, the character `before` being the last one read. -/
def readTokens (r : Reading) (before : Option Char) : List Char → Except Fault Glob
  | [] => r.finish
  | '?' :: cs => readTokens (r.push .anyByte) (some '?') cs
  | '*' :: '*' :: '/' :: cs => readTokens (r.doubleStar before (some '/')) (some '/') cs
  | '*' :: '*' :: cs => readTokens (r.doubleStar before cs.head?) (some '*') cs
  | '*' :: cs => readTokens (r.push .anyRun) (some '*') cs
  | '[' :: '!' :: cs => readClass r ⟨true, [], false⟩ cs
  | '[' :: '^' :: cs => readClass r ⟨true, [], false⟩ cs
  | '[' :: cs => readClass r ⟨false, [], false⟩ cs
  | '{' :: cs => readTokens r.openGroup (some '{') cs
  | '}' :: cs =>
    match r.closeGroup? with
    | some r => readTokens r (some '}') cs
    | none => .error .unopenedGroup
  | '\\' :: c :: cs => readTokens (r.push (.literal c)) (some c) cs
  | ['\\'] => .error .danglingEscape
  | ',' :: cs => readTokens r.nextBranch (some ',') cs
  | c :: cs => readTokens (r.push (.literal c)) (some c) cs

/-- Reads the rest of a class and of the glob after it. -/
def readClass (r : Reading) (k : OpenClass) : List Char → Except Fault Glob
  | [] => .error .unclosedClass
  | ']' :: cs =>
    if k.ranges.isEmpty then readClass r { k with ranges := [(']', ']')] } cs
    else readTokens (r.push k.token) (some ']') cs
  | '-' :: cs =>
    match k.dash with
    | .ok k => readClass r k cs
    | .error e => .error e
  | c :: cs =>
    match k.add c with
    | .ok k => readClass r k cs
    | .error e => .error e

end

end TextCatalog.Glob

namespace TextCatalog

def Glob.parse (s : String) : Except Glob.Fault Glob :=
  Glob.readTokens .start none s.toList

end TextCatalog
