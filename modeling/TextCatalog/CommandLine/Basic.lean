import TextCatalog.Text.Basic
import TextCatalog.Text.Blank
/-!
# The command line

What a user may ask of the program, and why a list of arguments may be refused.
-/

namespace TextCatalog.CommandLine

inductive Format where
  | text
  | json
  deriving DecidableEq, Repr

def Format.ofName? : String → Option Format
  | "text" => some text
  | "json" => some json
  | _ => none

inductive Command where
  | init
  | generate (watch : Bool)
  | check (showDiff : Bool) (format : Format)
  | list (format : Format)
  | render (key : String) (args : List (String × String))
  deriving DecidableEq, Repr

structure Invocation where
  command : Option Command
  path : Option String
  config : Option String
  verbose : Bool
  noColor : Bool
  deriving DecidableEq, Repr

/-- Why arguments lead to no invocation. The first two are what the user asked for. -/
inductive Refusal where
  | help
  | version
  | unknownArgument
  | invalidSubcommand
  | invalidValue
  | argumentConflict
  | tooManyValues
  | valueValidation
  | missingRequiredArgument
  deriving DecidableEq, Repr

inductive AssignmentFault where
  | noSeparator (found : String)
  | emptyName
  deriving DecidableEq, Repr

def AssignmentFault.message : AssignmentFault → String
  | noSeparator found => "expected `name=value`, found `" ++ found ++ "`"
  | emptyName => "placeholder name must not be empty"

/-- The name and the value of an assignment, which stand before and after its first `=`. White space
around the name does not count. -/
def assignment (s : String) : Except AssignmentFault (String × String) :=
  match Text.cutAt? '=' s.toList with
  | none => .error (.noSeparator s)
  | some (name, value) =>
    let name := Text.trimChars name
    if name.isEmpty then .error .emptyName
    else .ok (String.ofList name, String.ofList value)

end TextCatalog.CommandLine
