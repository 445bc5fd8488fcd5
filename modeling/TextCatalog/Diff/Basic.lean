import TextCatalog.Text.Basic
/-!
# Differences

How one text becomes another, as runs of lines that stay, go or come. Reading off the lines that stay
or go gives the first text, reading off those that stay or come the second.
-/

namespace TextCatalog.Diff

inductive Run where
  | same (lines : List String)
  | removed (lines : List String)
  | added (lines : List String)
  deriving DecidableEq, Repr

namespace Run

def lines : Run → List String
  | same ls | removed ls | added ls => ls

/-- How much a run holds. An empty run counts too. -/
def weight (r : Run) : Nat :=
  r.lines.length + 1

/-- The lines that the first text has here. -/
def before : Run → List String
  | same ls | removed ls => ls
  | added _ => []

/-- The lines that the second text has here. -/
def after : Run → List String
  | same ls | added ls => ls
  | removed _ => []

end Run

/-- The lines of a text, each with its end: a line feed, a carriage return or both. What follows the
last end is a line too, if there is anything. -/
def cutLines (current : List Char) : List Char → List (List Char)
  | [] => if current.isEmpty then [] else [current.reverse]
  | '\r' :: '\n' :: rest => ('\n' :: '\r' :: current).reverse :: cutLines [] rest
  | c :: rest =>
    if c = '\n' ∨ c = '\r' then (c :: current).reverse :: cutLines [] rest
    else cutLines (c :: current) rest

def lines (s : String) : List String :=
  (cutLines [] s.toList).map String.ofList

/-- How many equal lines two lists start with. -/
def shared : List String → List String → Nat
  | a :: as, b :: bs => if a = b then shared as bs + 1 else 0
  | _, _ => 0

/-- How many equal lines two lists end with. -/
def sharedEnd (as bs : List String) : Nat :=
  shared as.reverse bs.reverse

example : lines "a\r\nb\rc" = ["a\r\n", "b\r", "c"] := by decide

end TextCatalog.Diff
