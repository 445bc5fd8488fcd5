import TextCatalog.Path.Basic
/-!
# Keys

Every source file has two keys: the canonical key, its place relative to the project root written
with a leading slash, and the output key, under which its text is published.
-/

namespace TextCatalog.Key

/-- The place of `path` relative to `root`, with a leading slash. A file outside of `root` keeps its
`..` steps. -/
def canonical (root path : Path) : String :=
  "/" ++ Path.slashed (Path.relative root path)

def unrooted (key : String) : String :=
  (Text.after? "/" key).getD key

/-- The key under which a canonical key is published: what follows the prefix to strip, which may be
written without its leading slash, and otherwise the key without its own leading slash. -/
def output (strip : Option String) (key : String) : String :=
  match strip with
  | none => unrooted key
  | some lead =>
    match Text.after? lead key with
    | some rest => rest
    | none =>
      if Text.startsWith "/" lead then unrooted key
      else (Text.after? lead (unrooted key)).getD (unrooted key)

example : output (some "src/") "/src/a.md" = "a.md" := by decide
example : output (some "a") "/a/x.md" = "/x.md" := by decide

end TextCatalog.Key
