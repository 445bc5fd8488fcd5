import TextCatalog.Disk.Script
import TextCatalog.Error
/-!
# Work on files

Scripts that read texts, make directories and bring a file up to date. A file is replaced as a whole:
its new content is written beside it and then takes its place, so that no reader finds half of it.
-/

namespace TextCatalog

/-- A script that may end in an error. -/
abbrev Action := ExceptT Error Disk.Script

namespace Action

variable {α : Type}

/-- The operation `op`, whose failure becomes the error that `error` makes of its cause. -/
def ask (error : Disk.Cause → Error) (op : Disk.Op) : Action op.Answer :=
  ExceptT.mk (.step op fun answer => .done (answer.mapError error))

def ofExcept (result : Except Error α) : Action α :=
  ExceptT.mk (.done result)

end Action

namespace Disk

def kind? (p : Path) : Script (Option Kind) :=
  .step (.kind p) fun
    | .ok kind => .done (some kind)
    | .error _ => .done none

def isDirectory (p : Path) : Script Bool := do
  return (← kind? p) = some .directory

def isFile (p : Path) : Script Bool := do
  return (← kind? p) = some .file

def readText (p : Path) : Script (Except Cause String) :=
  .step (.read p) fun
    | .ok bytes =>
      match String.fromUTF8? bytes with
      | some text => .done (.ok text)
      | none => .done (.error .notText)
    | .error cause => .done (.error cause)

/-- Makes the directory at `p` if it is not there. If the one that is to hold it is missing, that one
is made first by `makeParent`. -/
def makeDirectoryIn (makeParent : Unit → Script (Except Cause Unit)) (p : Path) :
    Script (Except Cause Unit) :=
  let unlessThere (cause : Cause) : Script (Except Cause Unit) := do
    return if ← isDirectory p then .ok () else .error cause
  if p.text = [] then .done (.ok ())
  else
    .step (.makeDirectory p) fun
      | .ok () => .done (.ok ())
      | .error .notFound => do
        match ← makeParent () with
        | .error cause => return .error cause
        | .ok () =>
          .step (.makeDirectory p) fun
            | .ok () => .done (.ok ())
            | .error cause => unlessThere cause
      | .error cause => unlessThere cause

/-- Makes the directory at `p` and those above it, the components of `p` being `steps`, innermost
first. -/
def makeDirectoriesBy : (steps : List Path.Component) → (p : Path) → Script (Except Cause Unit)
  | [], p | [.root], p =>
    makeDirectoryIn (fun _ => .done (.error (.other "failed to create whole tree"))) p
  | _ :: above, p =>
    makeDirectoryIn (fun _ => makeDirectoriesBy above (.ofComponents above.reverse)) p

def makeDirectories (p : Path) : Script (Except Cause Unit) :=
  makeDirectoriesBy p.components.reverse p

/-- Whether the file at `p` holds exactly this text. A missing file does not. -/
def holds (p : Path) (text : String) : Script (Except Cause Bool) :=
  let isSame (bytes : ByteArray) : Bool := bytes == text.toUTF8
  .step (.read p) fun
    | .ok bytes => .done (.ok (isSame bytes))
    | .error .notFound => .done (.ok false)
    | .error cause => .done (.error cause)

/-- Makes the directory that holds `p`, and those above it. -/
def makeRoom (p : Path) : Script (Except Cause Unit) :=
  match p.parent? with
  | none => .done (.ok ())
  | some directory => makeDirectories directory

/-- Gives the file at `p` this text by way of a file beside it, whose name ends in `mark`. -/
def replace (mark : String) (p : Path) (text : String) : Script (Except Cause Unit) :=
  let beside := p.withExtension mark
  .step (.write beside text.toUTF8) fun
    | .error cause => .done (.error cause)
    | .ok () =>
      .step (.rename beside p) fun
        | .ok () => .done (.ok ())
        | .error cause => .step (.remove beside) fun _ => .done (.error cause)

/-- Brings the file at `p` up to date, and tells whether it had to be written. -/
def update (mark : String) (p : Path) (text : String) : Script (Except Cause Bool) := do
  match ← holds p text with
  | .error cause => return .error cause
  | .ok true => return .ok false
  | .ok false =>
    match ← makeRoom p with
    | .error cause => return .error cause
    | .ok () =>
      match ← replace mark p text with
      | .error cause => return .error cause
      | .ok () => return .ok true

end Disk

namespace Action

variable {α : Type}

/-- A script whose failure becomes the error that `error` makes of its cause. -/
def ofScript (error : Disk.Cause → Error) (s : Disk.Script (Except Disk.Cause α)) : Action α :=
  ExceptT.mk (s.bind fun result => .done (result.mapError error))

def isUpToDate (p : Path) (text : String) : Action Bool :=
  ofScript (.writeArtifact p) (Disk.holds p text)

def writeIfChanged (mark : String) (p : Path) (text : String) : Action Bool :=
  ofScript (.writeArtifact p) (Disk.update mark p text)

end Action

end TextCatalog
