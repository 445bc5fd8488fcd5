import TextCatalog.Disk.Cause
import TextCatalog.Path.Basic
/-!
# Errors

Everything that can go wrong between a configuration and the generated files. An error is a cause;
its wording, its code and the advice that goes with it are functions of the cause.
-/

namespace TextCatalog

inductive ConfigFault where
  | malformed
  | unfit (report : String)
  deriving DecidableEq, Repr

inductive Error where
  | io (cause : Disk.Cause)
  /-- A walk came to a directory that it cannot open. -/
  | walk (path : Path) (cause : Disk.Cause)
  | readSource (path : Path) (cause : Disk.Cause)
  | writeArtifact (path : Path) (cause : Disk.Cause)
  | configParse (fault : ConfigFault)
  | configNotFound (root : Path)
  | missingInclude
  | invalidPattern (pattern reason : String)
  | emptyDelimiter
  | equalDelimiters (both : String)
  | unsupportedLoading (id : String)
  | virtualModuleDisabled (id : String)
  | templateRender (reason : String)
  deriving DecidableEq, Repr

namespace Error

def message : Error → String
  | io cause => cause.message
  | walk path cause => "IO error for operation on " ++ path.display ++ ": " ++ cause.message
  | readSource path _ => "failed to read source file `" ++ path.display ++ "`"
  | writeArtifact path _ => "failed to write generated artifact `" ++ path.display ++ "`"
  | configParse .malformed => "failed to parse config file: TOML parse error"
  | configParse (.unfit report) => "failed to parse config file: " ++ report
  | configNotFound root => "no config file found in `" ++ root.display ++ "`"
  | missingInclude => "no include patterns configured"
  | invalidPattern pattern reason => "invalid pattern `" ++ pattern ++ "`: " ++ reason
  | emptyDelimiter => "placeholder delimiters must not be empty"
  | equalDelimiters both =>
    "opening and closing placeholder delimiters are both `" ++ both ++ "`"
  | unsupportedLoading id =>
    "non-eager loading is not supported for virtual module `" ++ id ++ "`"
  | virtualModuleDisabled id => "virtual module `" ++ id ++ "` is not configured"
  | templateRender reason => "code template rendering failed: " ++ reason

/-- The name by which reports refer to the error. -/
def code : Error → String
  | io _ | walk _ _ => "text_types::io_error"
  | readSource _ _ => "text_types::read_source"
  | writeArtifact _ _ => "text_types::write_artifact"
  | configParse _ => "text_types::config_parse"
  | configNotFound _ => "text_types::config_not_found"
  | missingInclude => "text_types::missing_include"
  | invalidPattern _ _ => "text_types::invalid_pattern"
  | emptyDelimiter => "text_types::empty_delimiter"
  | equalDelimiters _ => "text_types::equal_delimiters"
  | unsupportedLoading _ => "text_types::unsupported_loading"
  | virtualModuleDisabled _ => "text_types::virtual_module_disabled"
  | templateRender _ => "text_types::template_render"

/-- Advice on how to mend the error, for the errors that have some. -/
def help? : Error → Option String
  | readSource _ _ => some "source files must be readable UTF-8 text"
  | configParse _ => some "check that text-types.toml is valid TOML and only uses known keys"
  | configNotFound _ => some "run `text-types init` to create a text-types.toml file"
  | missingInclude => some "set `include` to a glob such as \"src/content/**/*.md\""
  | emptyDelimiter =>
    some "use a non-empty pair such as [\"\x7b\x7b\", \"\x7d\x7d\"]"
  | equalDelimiters _ => some "the opening and closing delimiters must differ"
  | unsupportedLoading _ => some "remove `eager = false` from the [virtual] section"
  | virtualModuleDisabled _ =>
    some "add a [virtual] section with an `id` to text-types.toml"
  | io _ | walk _ _ | writeArtifact _ _ | invalidPattern _ _ | templateRender _ => none

/-- Whether the error is found in the configuration, before any file is read or written. -/
def isConfiguration : Error → Bool
  | configParse _ | configNotFound _ | missingInclude | invalidPattern _ _ | emptyDelimiter
  | equalDelimiters _ | unsupportedLoading _ | virtualModuleDisabled _ => true
  | io _ | walk _ _ | readSource _ _ | writeArtifact _ _ | templateRender _ => false

end Error

/-- The path seen from the working directory. An empty path names nothing. -/
def Path.absolute (cwd p : Path) : Except Error Path :=
  match cwd.absolute? p with
  | some q => .ok q
  | none => .error (.io .emptyPath)

end TextCatalog
