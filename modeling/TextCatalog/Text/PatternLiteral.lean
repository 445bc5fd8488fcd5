import TextCatalog.Text.Quoted
/-!
# Regular expression literals

A text written so that a regular expression literal `/…/` of a code module matches exactly it.
-/

namespace TextCatalog.Text

def patternMeta : List Char :=
  ['\\', '^', '$', '.', '|', '?', '*', '+', '(', ')', '[', ']', '{', '}', '/', '-']

def escapePatternChar (c : Char) : List Char :=
  if c ∈ patternMeta then ['\\', c]
  else if c = '\n' then ['\\', 'n']
  else if c = '\r' then ['\\', 'r']
  else if c = '\t' then ['\\', 't']
  else if c = '\u2028' || c = '\u2029' then unicodeEscape c.toNat
  else [c]

/-- The text with every character written as a regular expression literal needs it. -/
def escapePattern (s : String) : String :=
  String.ofList (s.toList.flatMap escapePatternChar)

example : escapePattern "a.\x7bé\u2029" = "a\\.\\\x7bé\\u2029" := by decide

end TextCatalog.Text
