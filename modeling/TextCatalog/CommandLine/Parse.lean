import TextCatalog.CommandLine.Basic
/-!
# Reading arguments

Arguments are read from left to right. An option may stand before or after the name of the command; a
value is looked at when the next argument that is no value of it comes, or at the end.
-/

namespace TextCatalog.CommandLine

inductive Name where
  | init
  | generate
  | check
  | list
  | render
  deriving DecidableEq, Repr

def Name.ofArgument? : String → Option Name
  | "init" => some init
  | "generate" => some generate
  | "check" => some check
  | "list" => some list
  | "render" => some render
  | _ => none

inductive Flag where
  | path
  | config
  | verbose
  | noColor
  | help
  | version
  | watch
  | diff
  | format
  | arg
  deriving DecidableEq, Repr

namespace Flag

def ofLong? : String → Option Flag
  | "path" => some path
  | "config" => some config
  | "verbose" => some verbose
  | "no-color" => some noColor
  | "help" => some help
  | "version" => some version
  | "watch" => some watch
  | "diff" => some diff
  | "format" => some format
  | "arg" => some arg
  | _ => none

def ofShort? : Char → Option Flag
  | 'p' => some path
  | 'c' => some config
  | 'v' => some verbose
  | 'h' => some help
  | 'V' => some version
  | 'a' => some arg
  | _ => none

def takesValue : Flag → Bool
  | path | config | format | arg => true
  | verbose | noColor | help | version | watch | diff => false

/-- Whether the option may stand after the name of a command, or before it. -/
def isKnown (command : Option Name) : Flag → Bool
  | path | config | verbose | noColor | help => true
  | version => command = none
  | watch => command = some .generate
  | diff => command = some .check
  | format => command = some .check || command = some .list
  | arg => command = some .render

end Flag

structure Draft where
  command : Option Name
  flags : List Flag
  path : Option String
  config : Option String
  format : Option Format
  args : List (String × String)
  key : Option String
  /-- An option whose value is yet to come or yet to be looked at. -/
  pending : Option (Flag × Option String)

abbrev Reading := Except Refusal

namespace Draft

/-- The draft before the first argument, or after the name of a command. -/
def start (command : Option Name) : Draft :=
  ⟨command, [], none, none, none, [], none, none⟩

/-- Whether the next argument may be the value of an option. -/
def isAwaiting (d : Draft) : Bool :=
  match d.pending with
  | some (_, none) => true
  | _ => false

def store (d : Draft) (flag : Flag) (value : String) : Reading Draft :=
  match flag with
  | .path =>
    if d.path.isSome then .error .argumentConflict
    else if value = "" then .error .invalidValue
    else .ok { d with path := some value }
  | .config =>
    if d.config.isSome then .error .argumentConflict
    else if value = "" then .error .invalidValue
    else .ok { d with config := some value }
  | .format =>
    if d.format.isSome then .error .argumentConflict
    else
      match Format.ofName? value with
      | none => .error .invalidValue
      | some format => .ok { d with format := some format }
  | .arg =>
    match assignment value with
    | .error _ => .error .valueValidation
    | .ok pair => .ok { d with args := d.args ++ [pair] }
  | _ => .error .tooManyValues

/-- Looks at the option that is pending. -/
def settle (d : Draft) : Reading Draft :=
  match d.pending with
  | none => .ok d
  | some (_, none) => .error .invalidValue
  | some (flag, some value) => { d with pending := none }.store flag value

def raise (d : Draft) (flag : Flag) : Reading Draft := do
  let d ← d.settle
  match flag with
  | .help => .error .help
  | .version => .error .version
  | flag =>
    if d.flags.contains flag then .error .argumentConflict
    else .ok { d with flags := flag :: d.flags }

/-- Takes an option with the value that is attached to it. -/
def attach (d : Draft) (flag : Flag) (value : String) : Reading Draft := do
  (← d.settle).store flag value

/-- Takes an option whose value is to come. -/
def await (d : Draft) (flag : Flag) : Reading Draft := do
  return { ← d.settle with pending := some (flag, none) }

/-- The option with a long name, if it may stand here. -/
def long? (d : Draft) (name : String) : Option Flag :=
  (Flag.ofLong? name).filter (·.isKnown d.command)

def short? (d : Draft) (name : Char) : Option Flag :=
  (Flag.ofShort? name).filter (·.isKnown d.command)

/-- Takes an option by its long name, with a value after `=` if there is one. -/
def long (d : Draft) (cs : List Char) : Reading Draft :=
  let (name, value) := match Text.cutAt? '=' cs with
    | some (name, value) => (name, some (String.ofList value))
    | none => (cs, none)
  match d.long? (String.ofList name), value with
  | none, _ => .error .unknownArgument
  | some flag, some value =>
    if flag.takesValue then d.attach flag value else .error .tooManyValues
  | some flag, none => if flag.takesValue then d.await flag else d.raise flag

/-- Takes options by their short names. What follows the name of an option with a value is that
value, without an `=` at its start. -/
def short (d : Draft) : List Char → Reading Draft
  | [] => .ok d
  | c :: rest =>
    match d.short? c with
    | none => .error .unknownArgument
    | some flag =>
      if flag.takesValue then
        match rest with
        | [] => d.await flag
        | '=' :: value => d.attach flag (String.ofList value)
        | value => d.attach flag (String.ofList value)
      else do (← d.raise flag).short rest

def isCommand (arg : String) : Bool :=
  (Name.ofArgument? arg).isSome || arg = "help"

def positional (d : Draft) (isEscaped : Bool) (arg : String) : Reading Draft :=
  match d.command, d.key with
  | some .render, none => do return { ← d.settle with key := some arg }
  | some _, _ => .error .unknownArgument
  | none, _ => .error (if isEscaped && isCommand arg then .unknownArgument else .invalidSubcommand)

/-- Reads arguments up to the name of a command, which is given with the arguments after it. After
`--` no argument is an option or a command. -/
def read (d : Draft) (isEscaped : Bool) :
    List String → Reading (Draft × Option (String × List String))
  | [] => return (d, none)
  | arg :: rest =>
    if isEscaped then do (← d.positional true arg).read true rest
    else if !d.isAwaiting && d.command.isNone && isCommand arg then return (d, some (arg, rest))
    else
      match arg.toList with
      | ['-', '-'] => d.read true rest
      | '-' :: '-' :: cs => do (← d.long cs).read false rest
      | '-' :: c :: cs => do (← d.short (c :: cs)).read false rest
      | _ =>
        match d.pending with
        | some (flag, none) => { d with pending := some (flag, some arg) }.read false rest
        | _ => do (← d.positional false arg).read false rest

def toCommand (d : Draft) : Reading (Option Command) :=
  let format := d.format.getD .text
  match d.command with
  | none => .ok none
  | some .init => .ok (some .init)
  | some .generate => .ok (some (.generate (d.flags.contains .watch)))
  | some .check => .ok (some (.check (d.flags.contains .diff) format))
  | some .list => .ok (some (.list format))
  | some .render =>
    match d.key with
    | some key => .ok (some (.render key d.args))
    | none => .error .missingRequiredArgument

end Draft

/-- What asking for help on some commands leads to; there is help on one of them at a time. -/
def helpOn : List String → Refusal
  | [] => .help
  | [name] => if Draft.isCommand name then .help else .invalidSubcommand
  | _ => .invalidSubcommand

/-- The invocation that arguments ask for. A setting after the name of the command takes the place of
one before it. -/
def parse (args : List String) : Reading Invocation := do
  let (outer, named) ← (Draft.start none).read false args
  match named with
  | none =>
    let d ← outer.settle
    return ⟨none, d.path, d.config, d.flags.contains .verbose, d.flags.contains .noColor⟩
  | some (arg, rest) =>
    match Name.ofArgument? arg with
    | none => .error (helpOn rest)
    | some name =>
      let (inner, _) ← (Draft.start (some name)).read false rest
      let inner ← inner.settle
      let command ← inner.toCommand
      let outer ← outer.settle
      let isRaised (flag : Flag) : Bool := inner.flags.contains flag || outer.flags.contains flag
      return ⟨command, inner.path <|> outer.path, inner.config <|> outer.config,
        isRaised .verbose, isRaised .noColor⟩

end TextCatalog.CommandLine
