import TextCatalog.Artifact.Declaration
import TextCatalog.Artifact.Manifest
import TextCatalog.Artifact.VirtualModule
import TextCatalog.Config.Context
import TextCatalog.Config.Document
import TextCatalog.Source
/-!
# Generation

The way from a project to its artifacts: the source files are collected and read, every artifact is
rendered, and only then the first of them is written.
-/

namespace TextCatalog

namespace Artifact

inductive Kind where
  | module
  | declaration
  | manifest
  deriving DecidableEq, Repr

def Kind.name : Kind → String
  | module => "module"
  | declaration => "declaration"
  | manifest => "manifest"

structure Rendered where
  kind : Kind
  path : Path
  content : String
  deriving DecidableEq, Repr

structure Written where
  kind : Kind
  path : Path
  changed : Bool
  deriving DecidableEq, Repr

end Artifact

structure Prepared where
  files : List SourceFile
  entries : List Entry
  collisions : List Collision
  artifacts : List Artifact.Rendered
  deriving DecidableEq, Repr

structure Report where
  files : List SourceFile
  entries : List Entry
  collisions : List Collision
  artifacts : List Artifact.Written
  deriving DecidableEq, Repr

def Report.hasChanges (r : Report) : Bool :=
  r.artifacts.any (·.changed)

/-- What a run takes from its surroundings: the working directory, and an ending for the names of
files that are not there yet. -/
structure Host where
  cwd : Path
  mark : String
  deriving DecidableEq, Repr

namespace Config

/-- Where a configuration file may lie in a project, the first choice first. -/
def candidates : List Path :=
  [⟨"text-types.toml"⟩, ⟨".text-types.toml"⟩, ⟨".config/text-types.toml"⟩]

def firstFile? : List Path → Disk.Script (Option Path)
  | [] => return none
  | p :: ps => do
    if ← Disk.isFile p then return some p else firstFile? ps

def find? (root : Path) : Disk.Script (Option Path) :=
  firstFile? (candidates.map root.join)

def loadFrom (path : Path) : Action Config := do
  let document ← Action.ofScript .io (Disk.readText path)
  Action.ofExcept (parse document)

def load (root : Path) : Action (Option Config) := do
  match ← find? root with
  | none => return none
  | some path => return some (← loadFrom path)

end Config

/-- A checked project: its context and its compiled patterns. -/
structure Pipeline where
  context : Context
  selection : Selection

namespace Pipeline

def ofConfig (host : Host) (root : Path) (config : Config) : Except Error Pipeline := do
  let context ← config.context host.cwd root
  return ⟨context, ← Selection.compile context.included context.excluded⟩

def ofRoot (host : Host) (root : Path) : Action Pipeline := do
  match ← Config.load root with
  | none => throw (.configNotFound root)
  | some config => Action.ofExcept (ofConfig host root config)

def collect (p : Pipeline) (host : Host) : Action (List SourceFile) :=
  SourceFile.collect host.cwd p.context.root p.selection p.context.stripPrefix

/-- The artifacts that the context asks for, in the order in which they are written. -/
def artifacts (c : Context) (entries : List Entry) : List Artifact.Rendered :=
  (c.output.map fun path => ⟨.module, path, Artifact.Module.render entries c.options⟩).toList ++
  (c.declaration.map fun path =>
    ⟨.declaration, path, Artifact.Declaration.render c.declarationModule entries c.options⟩).toList ++
  (c.manifest.map fun path =>
    ⟨.manifest, path, Artifact.Manifest.render entries c.options⟩).toList

/-- Collects, reads and renders, and writes nothing. -/
def prepare (p : Pipeline) (host : Host) : Action Prepared := do
  let files ← p.collect host
  let (entries, collisions) ← SourceFile.readAll files
  return ⟨files, entries, collisions, artifacts p.context entries⟩

def write (host : Host) (a : Artifact.Rendered) : Action Artifact.Written := do
  return ⟨a.kind, a.path, ← Action.writeIfChanged host.mark a.path a.content⟩

def generate (p : Pipeline) (host : Host) : Action Report := do
  let prepared ← p.prepare host
  let written ← prepared.artifacts.mapM (write host)
  return ⟨prepared.files, prepared.entries, prepared.collisions, written⟩

/-- Whether a change of the file at `path` can make a difference. A relative path is seen from the
root. -/
def isRelevant (p : Pipeline) (path : Path) : Bool :=
  let root := p.context.root
  p.selection.selects (Path.slashed (Path.relative root (root.join path).normalize))

/-- The identifier by which the host keeps the virtual module called `id`. -/
def resolveId (p : Pipeline) (id : String) : Option String :=
  (p.context.virtual.filter (·.id == id)).map VirtualModule.resolvedId

def virtualSource (p : Pipeline) : Except Error String :=
  let c := p.context
  match c.virtual with
  | none => .error (.virtualModuleDisabled VirtualSettings.usualId)
  | some _ =>
    .ok (Artifact.VirtualModule.render ⟨c.included, c.excluded, c.stripPrefix⟩ c.options.delimiters)

/-- The source that the host loads under a resolved identifier, if it is that of the virtual
module. -/
def load (p : Pipeline) (id : String) : Except Error (Option String) :=
  match p.context.virtual with
  | some m => if m.resolvedId = id then p.virtualSource.map some else .ok none
  | none => .ok none

end Pipeline

end TextCatalog
