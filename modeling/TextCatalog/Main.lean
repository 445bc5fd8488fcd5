import TextCatalog.CommandLine.Commands
/-!
# The program

Runs an invocation on the disk of the machine.
-/

namespace TextCatalog.Program

open Disk CommandLine

/-- The cause of a failure by its number in the system, which may be given with a minus sign. -/
def causeOfNumber (number : UInt32) (message : String) : Cause :=
  match (min number (0 - number)).toNat with
  | 2 => .notFound
  | 13 => .permissionDenied
  | 16 => .busy
  | 17 => .alreadyExists
  | 20 => .notADirectory
  | 21 => .isADirectory
  | 22 => .invalidArgument
  | 36 => .nameTooLong
  | 39 => .directoryNotEmpty
  | 40 => .tooManyLinks
  | _ => .other message

def causeOf (e : IO.Error) : Cause :=
  let message := toString e
  match e with
  | .noFileOrDirectory _ number _ | .interrupted _ number _ | .alreadyExists _ number _
  | .invalidArgument _ number _ | .permissionDenied _ number _ | .resourceExhausted _ number _
  | .inappropriateType _ number _ | .noSuchThing _ number _ | .otherError number _
  | .resourceBusy number _ | .resourceVanished number _ | .unsupportedOperation number _
  | .hardwareFault number _ | .unsatisfiedConstraints number _ | .illegalOperation number _
  | .protocolError number _ | .timeExpired number _ => causeOfNumber number message
  | .unexpectedEof | .userError _ => .other message

def tryCause {α : Type} (act : IO α) : IO (Except Cause α) := do
  match ← act.toBaseIO with
  | .ok a => return .ok a
  | .error e => return .error (causeOf e)

def kindOf : IO.FS.FileType → Kind
  | .dir => .directory
  | .symlink => .link
  | _ => .file

/-- What a walk from a directory meets, `lead` being the names that lead there. -/
partial def below (directory : String) (lead : List RawText) : IO Listing := do
  let place := (← IO.currentDir) / directory
  match ← tryCause place.readDir with
  | .error cause => return ⟨[], [(lead, cause)]⟩
  | .ok entries =>
    let mut found : Listing := ⟨[], []⟩
    for entry in entries do
      let names := lead ++ [(entry.fileName : RawText)]
      let path := directory ++ "/" ++ entry.fileName
      let kind := kindOf (← ((← IO.currentDir) / path).symlinkMetadata).type
      found := ⟨found.items ++ [(names, kind)], found.refused⟩
      if kind = .directory then
        let inner ← below path names
        found := ⟨found.items ++ inner.items, found.refused ++ inner.refused⟩
    return found

/-- Performs an operation on the disk of the machine, whose interface here takes paths as text only. -/
def perform (op : Op) : IO (Except Cause op.Answer) :=
  match op with
  | .kind p => named p fun text => do return kindOf (← ((← IO.currentDir) / text).metadata).type
  | .below p => named p fun text => below text []
  | .read p => named p fun text => IO.FS.readBinFile text
  | .makeDirectory p => named p fun text => IO.FS.createDir text
  | .write p bytes => named p fun text => IO.FS.writeBinFile text bytes
  | .rename p target => named p fun text => IO.FS.rename text target.display
  | .remove p => named p fun text => IO.FS.removeFile text
where
  named {α : Type} (p : Path) (act : String → IO α) : IO (Except Cause α) :=
    if p.text = [] then return .error .notFound
    else if p.text.contains 0 then return .error .nulInName
    else
      match String.fromUTF8? p.text.toByteArray with
      | some text => tryCause (act text)
      | none => return .error .invalidArgument

def runScript {α : Type} : Script α → IO α
  | .done a => return a
  | .step op next => do runScript (next (← perform op))

def diagnostic (e : Error) : String :=
  let help := match e.help? with
    | some h => "\n  help: " ++ h
    | none => ""
  "Error: " ++ e.code ++ "\n\n  " ++ e.message ++ help ++ "\n"

/-- Prints what a session has printed, and the failure that ended it. -/
def display (r : Result) : IO Unit := do
  IO.print r.printed.out
  IO.eprint r.printed.err
  if let some e := r.error then IO.eprint (diagnostic e)
  (← IO.getStdout).flush

/-- The files of a project, each with the time of its last change and its size. -/
abbrev Snapshot := List (Path × IO.FS.SystemTime × UInt64)

def snapshot (root : Path) : IO Snapshot := do
  let listing ← below root.display []
  let files := listing.items.filter fun item => item.2 = .file
  files.mapM fun item => do
    let path := SourceFile.pathBelow root item.1
    let data ← ((← IO.currentDir) / path.display).metadata
    return (path, data.modified, data.byteSize)

/-- Looks for changed files again and again, and answers them. -/
partial def watch (s : Setting) (p : Pipeline) (seen : Snapshot) : IO Unit := do
  IO.sleep 200
  let now ← (snapshot p.context.root).toBaseIO
  match now with
  | .error _ => watch s p seen
  | .ok now =>
    let changed := (now.filter (!seen.contains ·) ++ seen.filter (!now.contains ·)).map Prod.fst
    display (← runScript (Result.run s.palette (Command.runChanges s p (Path.distinct changed))))
    watch s p now

def usage : String :=
  "Compile text files into a typed TypeScript module.\n\n" ++
  "Usage: text-types [OPTIONS] [COMMAND]\n\nCommands:\n" ++
  "  init      Initialize text-types in a project\n" ++
  "  generate  Generate the typed module and any other configured artifacts\n" ++
  "  check     Check that the generated artifacts are up to date\n" ++
  "  list      List every collected text with its key, source file and placeholders\n" ++
  "  render    Print a text with its placeholders filled in\n\nOptions:\n" ++
  "  -p, --path <PATH>      Path to the project root directory\n" ++
  "  -c, --config <CONFIG>  Path to the config file\n" ++
  "  -v, --verbose          Enable verbose output\n" ++
  "      --no-color         Disable colored output\n" ++
  "  -h, --help             Print help\n  -V, --version          Print version\n"

def run (args : List String) : IO UInt32 := do
  match CommandLine.parse args with
  | .error .help => IO.print usage; return 0
  | .error .version => IO.println versionLine; return 0
  | .error _ => IO.eprint ("error: invalid arguments\n\n" ++ usage); return 2
  | .ok i =>
    let cwd ← IO.currentDir
    let mark := "tmp-" ++ toString (← IO.rand 0 999999999) ++ "-" ++ toString (← IO.monoNanosNow)
    let terminal : Terminal :=
      ⟨(← IO.getEnv "NO_COLOR").isSome, (← IO.getEnv "FORCE_COLOR").any (· != "0")⟩
    let s := i.setting ⟨⟨cwd.toString⟩, mark⟩ terminal
    let (outcome, printed) ← runScript (i.session s).start
    let r := Result.ofSession s.palette (outcome, printed)
    display r
    if let .ok (some p) := outcome then watch s p (← snapshot p.context.root)
    return UInt32.ofNat r.exit

end TextCatalog.Program

def main (args : List String) : IO UInt32 :=
  TextCatalog.Program.run args
