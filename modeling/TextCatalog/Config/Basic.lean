import TextCatalog.Artifact.Model
/-!
# Configurations

What a project may set: which files its catalog is made of, which artifacts are written and where,
and how keys and placeholders look. Every setting has a default.
-/

namespace TextCatalog

/-- One pattern or a list of them, as it was configured. -/
inductive Patterns where
  | one (pattern : String)
  | many (patterns : List String)
  deriving DecidableEq, Repr

namespace Patterns

def toList : Patterns → List String
  | one pattern => [pattern]
  | many patterns => patterns

def isBlank (ps : Patterns) : Bool :=
  ps.toList.all Text.isBlankText

end Patterns

/-- Whether an artifact is written, and where. -/
inductive Target where
  | toggle (on : Bool)
  | path (path : Path)
  deriving DecidableEq, Repr

namespace Target

/-- The path of the artifact, unless it is switched off. A switch alone means the usual place. -/
def resolve (usual : Path) : Target → Option Path
  | toggle false => none
  | toggle true => some usual
  | path p => some p

end Target

structure VirtualSettings where
  id : String
  eager : Bool
  deriving DecidableEq, Repr

namespace VirtualSettings

/-- The identifier of a virtual module without one of its own. -/
def usualId : String := "virtual:text-types"

/-- What counts where nothing is set. -/
def usual : VirtualSettings := ⟨usualId, true⟩

end VirtualSettings

structure Config where
  included : Patterns
  excluded : Patterns
  output : Target
  declaration : Target
  manifest : Target
  stripPrefix : Option String
  maxLiteralLength : Nat
  delimiters : Delimiters
  virtual : Option VirtualSettings
  deriving DecidableEq, Repr

namespace Config

def usualOutput : Path := ⟨"src/@generated/text-types/index.ts"⟩

def usualDeclaration : Path := ⟨"src/@generated/text-types/texts.d.ts"⟩

def usualManifest : Path := ⟨"src/@generated/text-types/texts.json"⟩

/-- The usual limit, in UTF-16 code units, for contents with a type of their own. -/
def usualMaxLiteralLength : Nat := 50000

/-- What counts where nothing is set: the module alone is written. -/
def usual : Config where
  included := .many []
  excluded := .many []
  output := .path usualOutput
  declaration := .toggle false
  manifest := .toggle false
  stripPrefix := none
  maxLiteralLength := usualMaxLiteralLength
  delimiters := .standard
  virtual := none

end Config

end TextCatalog
