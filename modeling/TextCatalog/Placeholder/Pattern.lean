import TextCatalog.Placeholder.Basic
import TextCatalog.Text.PatternLiteral
/-!
# The placeholder pattern

Generated code finds placeholders with a regular expression of its own; this is its literal.
-/

namespace TextCatalog.Delimiters

/-- The regular expression literal that matches a placeholder and captures what is between its
delimiters. -/
def pattern (d : Delimiters) : String :=
  "/" ++ Text.escapePattern d.opening ++ "(.+?)" ++ Text.escapePattern d.closing ++ "/g"

example : standard.pattern = "/\\\x7b\\\x7b(.+?)\\\x7d\\\x7d/g" := by decide

end TextCatalog.Delimiters
