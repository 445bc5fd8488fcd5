/-!
# Globs

A glob is a list of tokens, each of which describes a run of bytes of a path. The slash is a byte
like any other to a literal, but neither `?` nor `*` takes one.
-/

namespace TextCatalog.Glob

inductive Token where
  | literal (c : Char)
  /-- `?`: one byte that is no slash. -/
  | anyByte
  /-- `*`: bytes without a slash, maybe none. -/
  | anyRun
  /-- `**/` at the start: nothing, a slash, or anything up to a slash. -/
  | leadingDirs
  /-- `/**` at the end: a slash and anything after it. -/
  | trailingAll
  /-- `/**/` between others: a slash, or two slashes with anything between them. -/
  | betweenDirs
  /-- `[…]`: one byte, among those of the ranges or, when negated, not among them. -/
  | byteClass (negated : Bool) (ranges : List (Char × Char))
  /-- `{…,…}`: one of the alternatives. -/
  | oneOf (branches : List (List Token))
  deriving Repr

def Token.isLiteral : Token → Bool
  | literal _ => true
  | _ => false

def Token.isChar (c : Char) : Token → Bool
  | literal d => c == d
  | _ => false

inductive Fault where
  | unclosedClass
  /-- A range whose end comes before its start. -/
  | invalidRange (first last : Char)
  | unclosedGroup
  | unopenedGroup
  | danglingEscape
  deriving DecidableEq, Repr

def Fault.message : Fault → String
  | unclosedClass => "unclosed character class; missing ']'"
  | invalidRange first last =>
    "invalid range; '" ++ String.ofList [first] ++ "' > '" ++ String.ofList [last] ++ "'"
  | unclosedGroup =>
    "unclosed alternate group; missing '\x7d' (maybe escape '\x7b' with '[\x7b]'?)"
  | unopenedGroup =>
    "unopened alternate group; missing '\x7b' (maybe escape '\x7d' with '[\x7d]'?)"
  | danglingEscape => "dangling '\\'"

end TextCatalog.Glob

namespace TextCatalog

structure Glob where
  tokens : List Glob.Token
  deriving Repr

end TextCatalog
