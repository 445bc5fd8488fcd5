import TextCatalog.Number.Shortest
import TextCatalog.Text.Basic
import TextCatalog.Text.Units
import TextCatalog.Text.Visible
import TextCatalog.Toml.Basic
/-!
# Faults of a configuration file

A document that is correct TOML may still be no configuration. The fault says why, and the report
shows the line and marks the part of it that is wrong.
-/

namespace TextCatalog.Config

inductive Wanted where
  | patterns
  | target
  | text
  | switch
  | count
  | pair
  | virtualTable
  | keyTable
  deriving DecidableEq, Repr

inductive Found where
  | integer (value : Int)
  | float (value : Binary64)
  | boolean (value : Bool)
  | string (text : String)
  | sequence
  | map
  deriving DecidableEq, Repr

inductive Reason where
  | unknownField (name : String) (known : List String)
  | mismatch (found : Found) (wanted : Wanted)
  | negative (value : Int)
  | tooFew (count : Nat)
  deriving DecidableEq, Repr

/-- A reason and the part of the document that it is about. -/
structure Fault where
  span : Toml.Span
  reason : Reason
  deriving DecidableEq, Repr

def Found.ofValue : Toml.Value → Found
  | .string text => string text
  | .integer value => integer value
  | .float value => float value
  | .overflow => float (.infinite false)
  | .boolean value => boolean value
  | .array _ | .tables _ => sequence
  | .moment _ | .table _ _ => map

namespace Wanted

def message : Wanted → String
  | patterns => "PatternList"
  | target => "OutputTarget"
  | text => "a string"
  | switch => "a boolean"
  | count => "usize"
  | pair => "a tuple of size 2"
  | virtualTable => "struct VirtualModuleConfig"
  | keyTable => "struct KeyTransformConfig"

end Wanted

namespace Found

def message : Found → String
  | integer value => "integer `" ++ toString value ++ "`"
  | float value => "floating point `" ++ value.messageText ++ "`"
  | boolean true => "boolean `true`"
  | boolean false => "boolean `false`"
  | string text => "string " ++ Text.visible text
  | sequence => "sequence"
  | map => "map"

end Found

namespace Reason

def choice (known : List String) : String :=
  match known.map fun name => "`" ++ name ++ "`" with
  | [a] => a
  | [a, b] => a ++ " or " ++ b
  | names => "one of " ++ String.intercalate ", " names

def message : Reason → String
  | unknownField name known =>
    "unknown field `" ++ name ++ "`, expected " ++ choice known
  | mismatch _ .patterns =>
    "data did not match any variant of untagged enum " ++ Wanted.patterns.message
  | mismatch _ .target =>
    "data did not match any variant of untagged enum " ++ Wanted.target.message
  | mismatch found wanted => "invalid type: " ++ found.message ++ ", expected " ++ wanted.message
  | negative value =>
    "invalid value: integer `" ++ toString value ++ "`, expected " ++ Wanted.count.message
  | tooFew count => "invalid length " ++ toString count ++ ", expected " ++ Wanted.pair.message

end Reason

namespace Fault

/-- The report of a fault in `document`: the place, the line with a mark below the faulty part, and
the reason. Lines and columns count from one, columns in characters; the mark is as long as the
part takes bytes, and no longer than the bytes of the line less the column. -/
def report (document : String) (f : Fault) : String :=
  let cs := document.toList
  let before := cs.take (cs.length - f.span.start.length)
  let place := Text.splitList '\n' before
  let line := toString place.length
  let column := (place.getLastD []).length
  let shown := (Text.splitList '\n' cs)[place.length - 1]?.getD []
  let marks := min (Text.width f.span.start - Text.width f.span.stop) (Text.width shown - column)
  let margin := String.ofList (List.replicate (line.length + 1) ' ')
  "TOML parse error at line " ++ line ++ ", column " ++ toString (column + 1) ++ "\n" ++
    margin ++ "|\n" ++
    line ++ " | " ++ String.ofList shown ++ "\n" ++
    margin ++ "| " ++ String.ofList (List.replicate column ' ') ++
      String.ofList (List.replicate (max 1 marks) '^') ++ "\n" ++
    f.reason.message ++ "\n"

end Fault

end TextCatalog.Config
