import TextCatalog.Change
import TextCatalog.CommandLine.Parse
import TextCatalog.CommandLine.Session
import TextCatalog.Diff.Slide
import TextCatalog.Json.Basic
/-!
# Commands

What each command does and prints.
-/

namespace TextCatalog.CommandLine

open Session

/-- What a command works with besides its own arguments. -/
structure Setting where
  host : Host
  path : Option Path
  config : Option Path
  verbose : Bool
  palette : Palette
  deriving DecidableEq, Repr

namespace Setting

/-- The root of the project: the working directory, unless another one is named. -/
def root (s : Setting) : Path :=
  s.path.getD s.host.cwd

def pipeline (s : Setting) : Session Pipeline := do
  let root := s.root
  let config ← work <|
    match s.config with
    | some path => Config.loadFrom path
    | none => do
      match ← Config.load root with
      | some config => return config
      | none => throw (.configNotFound root)
  if s.verbose then
    let used ← match s.config with
      | some path => pure (some path)
      | none => disk (Config.find? root)
    match used with
    | some path => printLine ("Using config: " ++ path.display)
    | none => pure ()
  work (Action.ofExcept (Pipeline.ofConfig s.host root config))

end Setting

namespace Command

def sampleConfig : String :=
  "# text-types configuration\n\n# Text files to collect, relative to the project root.\n" ++
  "include = \"src/content/**/*.\x7bmd,txt\x7d\"\n\n" ++
  "# Where the typed module is written. Set to false to disable.\n" ++
  "output = \"src/@generated/text-types/index.ts\"\n\n" ++
  "# Also write an ambient declaration file.\n# dts = true\n\n[key_transform]\n" ++
  "# `/src/content/hello.md` becomes `hello.md`.\nstrip_prefix = \"/src/content/\"\n"

def sampleText : String := "Hello \x7b\x7b name \x7d\x7d!\n"

def nextSteps : List String :=
  ["", "Next steps:", "  1. Add text files under src/content/",
   "  2. Run `text-types generate` to write the typed module", "  3. Import it:",
   "     import \x7b getText \x7d from \"./@generated/text-types\";",
   "     getText(\"hello.md\", \x7b name: \"World\" \x7d);"]

/-- Gives a new project a configuration and a first text. Nothing that is there is touched. -/
def runInit (s : Setting) : Session Unit := do
  let root := s.root
  let configPath := root.join ⟨"text-types.toml"⟩
  let samplePath := root.join ⟨"src/content/hello.md"⟩
  if (← disk (Config.find? root)).isSome then
    printLine ("Config file already exists: " ++ configPath.display)
  else
    plainly (Disk.Script.ask (.write configPath sampleConfig.toUTF8))
    printLine "Created text-types.toml"
    if (← disk (Disk.kind? samplePath)).isNone then
      plainly (Disk.makeRoom samplePath)
      plainly (Disk.Script.ask (.write samplePath sampleText.toUTF8))
      printLine ("Created sample text: " ++ Path.shownFrom root samplePath)
    nextSteps.forM printLine

def printReport (s : Setting) (p : Pipeline) (r : Report) : Session Unit := do
  r.artifacts.forM fun a => do
    let shown := Path.shownFrom p.context.root a.path
    if a.changed then
      printLine ("  " ++ s.palette.green "wrote" ++ " " ++ shown ++ " (" ++ a.kind.name ++ ")")
    else if s.verbose then
      printLine ("  unchanged " ++ shown ++ " (" ++ a.kind.name ++ ")")
  let written := (r.artifacts.filter (·.changed)).length
  printLine ("Generated " ++ toString r.entries.length ++ " text(s): " ++ toString written ++
    " artifact(s) written, " ++ toString (r.artifacts.length - written) ++ " unchanged.")
  if !r.collisions.isEmpty then
    printLine (s.palette.yellow "warning:" ++ " " ++ toString r.collisions.length ++
      " key collision(s), later files won.")

/-- Generates the artifacts. With `watch` the answer is the pipeline whose files are to be watched
from now on. -/
def runGenerate (s : Setting) (watch : Bool) : Session (Option Pipeline) := do
  let p ← s.pipeline
  let report ← work (p.generate s.host)
  printReport s p report
  if watch then
    printLine "\nWatching for file changes... (press Ctrl+C to stop)"
    return some p
  else return none

/-- Answers changes of some files. One run covers them all, so the first that makes a difference is
the last to be looked at. -/
def runChanges (s : Setting) (p : Pipeline) : List Path → Session Unit
  | [] => return ()
  | path :: rest => do
    let (outcome, _) ← work (p.change s.host .detached path ())
    match outcome.report? with
    | none => runChanges s p rest
    | some report =>
      printLine ("\nChange detected in " ++ Path.shownFrom p.context.root path ++ ", regenerated.")
      printReport s p report

/-- An artifact whose file holds something else, or is missing. -/
structure Stale where
  artifact : Artifact.Rendered
  current : Option String

def Stale.status (st : Stale) : String :=
  if st.current.isSome then "stale" else "missing"

def staleAmong : List Artifact.Rendered → Disk.Script (Except Disk.Cause (List Stale))
  | [] => return .ok []
  | a :: rest => do
    let current ← Disk.readText a.path
    match current with
    | .ok text =>
      if text = a.content then staleAmong rest
      else return (← staleAmong rest).map (⟨a, some text⟩ :: ·)
    | .error .notFound => return (← staleAmong rest).map (⟨a, none⟩ :: ·)
    | .error cause => return .error cause

def ended (line : String) : String :=
  if Text.endsWithChar '\n' line || Text.endsWithChar '\r' line then line else line ++ "\n"

/-- The lines of a difference, with marks for those that go and come. -/
def diffText (palette : Palette) (old new : String) : String :=
  String.join ((Diff.between old new).flatMap fun
    | .same ls => ls.map fun l => "   " ++ ended l
    | .removed ls => ls.map fun l => "  " ++ palette.red ("-" ++ ended l)
    | .added ls => ls.map fun l => "  " ++ palette.green ("+" ++ ended l))

def staleJson (root : Path) (stale : List Stale) : Json :=
  .object [("ok", .bool stale.isEmpty), ("stale", .array (stale.map fun st =>
    .object [("kind", .string st.artifact.kind.name),
      ("path", .string (Path.shownFrom root st.artifact.path)), ("status", .string st.status)]))]

/-- Tells whether the artifacts are up to date, and writes nothing. -/
def runCheck (s : Setting) (showDiff : Bool) (format : Format) : Session Unit := do
  let p ← s.pipeline
  let root := p.context.root
  let prepared ← work (p.prepare s.host)
  let stale ← plainly (staleAmong prepared.artifacts)
  match format with
  | .json => printLine (staleJson root stale).compact
  | .text =>
    if stale.isEmpty then printLine "Check passed: all generated artifacts are up to date."
    else
      printErrorLine "Check failed."
      stale.forM fun st => do
        printErrorLine ("  " ++ st.artifact.kind.name ++ " " ++
          Path.shownFrom root st.artifact.path ++ " (" ++ st.status ++ ")")
        if showDiff then
          printError (diffText s.palette (st.current.getD "") st.artifact.content)
      printErrorLine ""
      printErrorLine (toString stale.length ++
        " artifact(s) are out of date. Run `text-types generate` to fix.")
  if !stale.isEmpty then throw .unsuccessful

def texts (s : Setting) (p : Pipeline) : Session (List SourceFile × List Entry) := do
  let files ← work (p.collect s.host)
  let (entries, _) ← work (SourceFile.readAll files)
  return (files, entries)

structure Listed where
  key : String
  file : String
  names : List String
  isLiteral : Bool
  deriving DecidableEq, Repr

def Listed.ofEntry (c : Context) (files : List SourceFile) (e : Entry) : Listed :=
  { key := e.key
    file := ((SourceFile.owner? e.key files).map fun f => Path.shownFrom c.root f.path).getD ""
    names := Placeholder.names c.options.delimiters e.content
    isLiteral := Artifact.isShort c.options e.content }

def Listed.json (l : Listed) : Json :=
  .object [("file", .string l.file), ("key", .string l.key), ("literal", .bool l.isLiteral),
    ("variables", .array (l.names.map .string))]

def Listed.line (l : Listed) : String :=
  let names :=
    if l.names.isEmpty then "" else " [" ++ String.intercalate ", " l.names ++ "]"
  "  " ++ l.key ++ " " ++ l.file ++ names ++ (if l.isLiteral then "" else " (string)")

def runList (s : Setting) (format : Format) : Session Unit := do
  let p ← s.pipeline
  let (files, entries) ← texts s p
  let listed := entries.map (Listed.ofEntry p.context files)
  match format with
  | .json => printLine (Json.array (listed.map Listed.json)).compact
  | .text =>
    if listed.isEmpty then printLine "No texts found."
    else
      printLine (s.palette.bold "Texts:")
      listed.forM fun l => printLine l.line
      printLine ("\n" ++ toString listed.length ++ " text(s)")

/-- The last value given for a name. -/
def lastValue? (args : List (String × String)) (name : String) : Option String :=
  (args.reverse.find? fun a => a.1 == name).map Prod.snd

def runRender (s : Setting) (key : String) (args : List (String × String)) : Session Unit := do
  let p ← s.pipeline
  let (_, entries) ← texts s p
  match Entry.find? key entries with
  | none =>
    throw (.troubled ("unknown text key `" ++ key ++
      "`. Run `text-types list` to see every key."))
  | some e =>
    let rendered :=
      Placeholder.substitute p.context.options.delimiters (lastValue? args) e.content
    print (if Text.endsWithChar '\n' rendered then rendered else rendered ++ "\n")

/-- Runs a command. The answer is the pipeline whose files are to be watched from now on, if the
command says so. -/
def run (s : Setting) : Command → Session (Option Pipeline)
  | init => do runInit s; return none
  | generate watch => runGenerate s watch
  | check showDiff format => do runCheck s showDiff format; return none
  | list format => do runList s format; return none
  | render key args => do runRender s key args; return none

end Command

/-- What a session leaves: the exit status, what was printed, and the failure of the library that
ended it, if one did. -/
structure Result where
  exit : Nat
  printed : Printed
  error : Option Error
  deriving DecidableEq, Repr

def Result.ofSession {α : Type} (palette : Palette) : Except Stop α × Printed → Result
  | (.ok _, printed) => ⟨0, printed, none⟩
  | (.error .unsuccessful, printed) => ⟨1, printed, none⟩
  | (.error (.failed e), printed) => ⟨2, printed, some e⟩
  | (.error (.troubled message), printed) =>
    ⟨2, { printed with err := printed.err ++ palette.red "error:" ++ " " ++ message ++ "\n" }, none⟩

def Result.run {α : Type} (palette : Palette) (s : Session α) : Disk.Script Result := do
  return ofSession palette (← s.start)

/-- What a terminal allows: whether colours are forbidden, and whether it has some. -/
structure Terminal where
  forbidsColor : Bool
  hasColor : Bool
  deriving DecidableEq, Repr

namespace Invocation

def setting (i : Invocation) (host : Host) (t : Terminal) : Setting where
  host := host
  path := i.path.map fun path => ⟨path⟩
  config := i.config.map fun path => ⟨path⟩
  verbose := i.verbose
  palette := ⟨!i.noColor && !t.forbidsColor && t.hasColor⟩

def session (i : Invocation) (s : Setting) : Session (Option Pipeline) :=
  match i.command with
  | some command => command.run s
  | none => do
    printErrorLine "No subcommand specified. Run `text-types --help` for usage."
    throw .unsuccessful

end Invocation

def versionLine : String := "text_types_cli 0.3.0"

end TextCatalog.CommandLine
