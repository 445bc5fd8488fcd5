import TextCatalog.Artifact.Model
import TextCatalog.Json.Basic
/-!
# The manifest

A JSON document that lists every key with its placeholder names, for tools that do not read code.
-/

namespace TextCatalog.Artifact.Manifest

/-- What the manifest says of an entry. -/
def field (e : Item) : Json :=
  .object
    [("key", .string e.key),
     ("variables", .array (e.names.map .string)),
     ("length", .integer e.length),
     ("literal", .bool e.isLiteral)]

def document (entries : List Entry) (o : Options) : Json :=
  .object
    [("delimiters", .array [.string o.delimiters.opening, .string o.delimiters.closing]),
     ("max_literal_length", .integer o.maxLiteralLength),
     ("texts", .array ((Model.ofEntries entries o).items.map field))]

def render (entries : List Entry) (o : Options) : String :=
  (document entries o).indented ++ "\n"

end TextCatalog.Artifact.Manifest
