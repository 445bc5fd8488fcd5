import TextCatalog.Error
import TextCatalog.Glob.Together
import TextCatalog.Path.Basic
import TextCatalog.Text.Blank
/-!
# Selections

Which files a catalog is made of: the include and exclude patterns, compiled, with the hidden names
that the include patterns spell out and the directories below which every match lies.
-/

namespace TextCatalog

namespace Pattern

def metaChars : List Char := ['*', '?', '[', '{', '\\']

/-- Takes `./` and the slashes after it off the front of a pattern, as often as they come. -/
def dropHere : List Char → List Char
  | '.' :: '/' :: rest => dropSlashes rest
  | cs => cs
where
  dropSlashes : List Char → List Char
    | '/' :: rest => dropSlashes rest
    | '.' :: '/' :: rest => dropSlashes rest
    | cs => cs

/-- The pattern without white space around it and without the marks of the root before it: one
slash, then any number of `./`. -/
def normalize (pattern : String) : String :=
  let cs := Text.trimChars pattern.toList
  String.ofList (dropHere ((Text.restAfter? ['/'] cs).getD cs))

/-- The normal forms of the patterns that are not blank. -/
def normalizeAll (patterns : List String) : List String :=
  (patterns.map normalize).filter (· ≠ "")

def segments (pattern : String) : List String :=
  Text.split '/' pattern

def isPlain (segment : String) : Bool :=
  !segment.toList.any (metaChars.contains ·)

/-- The directory that the leading plain segments of a pattern name, its last segment set aside. -/
def base (pattern : String) : Path :=
  ⟨String.intercalate "/" (((segments pattern).dropLast.takeWhile isPlain).filter (· ≠ ""))⟩

def isDotSegment (segment : String) : Bool :=
  Text.startsWith "." segment && segment != "." && segment != ".."

/-- Reads a list of patterns, up to the first that is no glob. -/
def parseAll : List String → Except Error (List Glob)
  | [] => .ok []
  | pattern :: patterns =>
    match Glob.parse pattern with
    | .error fault => .error (.invalidPattern pattern fault.message)
    | .ok glob =>
      match parseAll patterns with
      | .error e => .error e
      | .ok globs => .ok (glob :: globs)

/-- Compiles a list of patterns. Patterns that are globs each may be too much together; then all of
them are named. -/
def compile (patterns : List String) : Except Error (List Glob) :=
  match parseAll patterns with
  | .error e => .error e
  | .ok globs =>
    match Glob.refusal? globs with
    | some reason => .error (.invalidPattern (String.intercalate ", " patterns) reason)
    | none => .ok globs

end Pattern

structure Selection where
  included : List Glob
  excluded : List Glob
  /-- The segments of include patterns that start with a dot. -/
  hidden : List Glob
  /-- The directories, relative to the root, below which every match lies. -/
  bases : List Path
  deriving Repr

namespace Selection

def compile (included excluded : List String) : Except Error Selection := do
  let includes := Pattern.normalizeAll included
  let excludes := Pattern.normalizeAll excluded
  let dotted := (includes.flatMap Pattern.segments).filter Pattern.isDotSegment
  return {
    included := ← Pattern.compile includes
    excluded := ← Pattern.compile excludes
    hidden := ← Pattern.compile dotted
    bases := Path.distinct (includes.map Pattern.base) }

def namesHidden (s : Selection) (name : RawText) : Bool :=
  s.hidden.any (·.matchesBytes name)

/-- Whether a path relative to the root is included and not excluded. -/
def selects (s : Selection) (path : String) : Bool :=
  let path := (Text.after? "/" path).getD path
  s.included.any (·.accepts path) && !s.excluded.any (·.accepts path)

/-- Whether a name may be walked into: it is not hidden, or an include pattern spells it out. -/
def admits (s : Selection) (name : RawText) : Bool :=
  name.head? != some RawText.dot || s.namesHidden name

end Selection

end TextCatalog
