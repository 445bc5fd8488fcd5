import TextCatalog.Artifact.Model
import TextCatalog.Selection
/-!
# The virtual module

Source text of a module that loads the selected files itself when it is evaluated. It holds no text
of theirs; what varies is the list of patterns, the prefix to strip and the placeholder pattern, each
on a line of its own.
-/

namespace TextCatalog.Artifact.VirtualModule

/-- What a virtual module is made from. -/
structure Source where
  included : List String
  excluded : List String
  stripPrefix : Option String
  deriving DecidableEq, Repr

/-- The patterns from the root: the include patterns, then the negated exclude patterns. -/
def Source.globPatterns (s : Source) : List String :=
  (Pattern.normalizeAll s.included).map ("/" ++ ·) ++
    (Pattern.normalizeAll s.excluded).map ("!/" ++ ·)

def preamble : List String :=
  ["",
   "const batches = ["]

def afterPatterns : List String :=
  ["    eager: true,",
   "    query: \"?raw\",",
   "    import: \"default\",",
   "  \x7d),",
   "];",
   ""]

def afterPrefix : List String :=
  ["",
   "function toOutputKey(canonicalKey) \x7b",
   "  const unrooted = canonicalKey.startsWith(\"/\") ? canonicalKey.slice(1) : canonicalKey;",
   "  if (STRIP_PREFIX === null) \x7b",
   "    return unrooted;",
   "  \x7d",
   "  if (canonicalKey.startsWith(STRIP_PREFIX)) \x7b",
   "    return canonicalKey.slice(STRIP_PREFIX.length);",
   "  \x7d",
   "  if (!STRIP_PREFIX.startsWith(\"/\") && unrooted.startsWith(STRIP_PREFIX)) \x7b",
   "    return unrooted.slice(STRIP_PREFIX.length);",
   "  \x7d",
   "  return unrooted;",
   "\x7d",
   "",
   "const merged = \x7b\x7d;",
   "for (const batch of batches) \x7b",
   "  for (const canonicalKey of Object.keys(batch).sort()) \x7b",
   "    merged[toOutputKey(canonicalKey)] = String(batch[canonicalKey]).replace(/\\r\\n?/g, \"\\n\");",
   "  \x7d",
   "\x7d",
   "",
   "export const texts = Object.freeze(merged);",
   ""]

def reader : List String :=
  ["",
   "export function getText(key, args) \x7b",
   "  const content = Object.prototype.hasOwnProperty.call(texts, key) ? texts[key] : undefined;",
   "  if (typeof content !== \"string\" || args == null) \x7b",
   "    return content;",
   "  \x7d",
   "",
   "  return content.replace(PLACEHOLDER, (placeholder, name) => \x7b",
   "    const trimmed = name.trim();",
   "    if (!Object.prototype.hasOwnProperty.call(args, trimmed)) \x7b",
   "      return placeholder;",
   "    \x7d",
   "    const value = args[trimmed];",
   "    return value === undefined ? placeholder : String(value);",
   "  \x7d);",
   "\x7d"]

def patternsLine (patterns : List String) : String :=
  "  import.meta.glob([" ++ String.intercalate ", " (patterns.map Text.literal) ++ "], \x7b"

def prefixLine (stripPrefix : Option String) : String :=
  "const STRIP_PREFIX = " ++ (stripPrefix.map Text.literal).getD "null" ++ ";"

def patternLine (pattern : String) : String :=
  "const PLACEHOLDER = " ++ pattern ++ ";"

def lines (s : Source) (d : Delimiters) : List String :=
  [header] ++ preamble ++ [patternsLine s.globPatterns] ++ afterPatterns ++
    [prefixLine s.stripPrefix] ++ afterPrefix ++ [patternLine d.pattern] ++ reader

def render (s : Source) (d : Delimiters) : String :=
  unlines (lines s d)

end TextCatalog.Artifact.VirtualModule
