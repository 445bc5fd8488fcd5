import TextCatalog.Config.Basic
import TextCatalog.Selection
/-!
# Contexts

A context is a configuration that has been checked, with every path made absolute.
-/

namespace TextCatalog

/-- A module that a host serves under an identifier, without a file. -/
structure VirtualModule where
  id : String
  deriving DecidableEq, Repr

/-- The identifier by which the host keeps the module. The character before it keeps other plugins
from looking for a file. -/
def VirtualModule.resolvedId (m : VirtualModule) : String :=
  "\x00" ++ m.id

/-- A checked configuration with absolute paths. -/
structure Context where
  root : Path
  included : List String
  excluded : List String
  stripPrefix : Option String
  options : Artifact.Options
  output : Option Path
  declaration : Option Path
  manifest : Option Path
  virtual : Option VirtualModule
  deriving DecidableEq, Repr

namespace Context

def declarationModule (c : Context) : String :=
  match c.virtual with
  | some m => m.id
  | none => "text-types"

end Context

namespace Config

/-- The virtual module that is configured. It can only be loaded eagerly. -/
def virtualModule (c : Config) : Except Error (Option VirtualModule) :=
  match c.virtual with
  | some s => if s.eager then .ok (some ⟨s.id⟩) else .error (.unsupportedLoading s.id)
  | none => .ok none

/-- Checks a configuration for the project in `root`, without a look at its files. -/
def context (cwd root : Path) (c : Config) : Except Error Context := do
  if c.included.isBlank then .error .missingInclude
  c.delimiters.validate
  let virtual ← c.virtualModule
  let included := c.included.toList
  let excluded := c.excluded.toList
  let _ ← Selection.compile included excluded
  let root ← Path.absolute cwd root
  return {
    root, included, excluded, virtual
    stripPrefix := c.stripPrefix
    options := ⟨c.maxLiteralLength, c.delimiters⟩
    output := (c.output.resolve usualOutput).map root.join
    declaration := (c.declaration.resolve usualDeclaration).map root.join
    manifest := (c.manifest.resolve usualManifest).map root.join }

end Config

end TextCatalog
