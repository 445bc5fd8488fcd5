import TextCatalog.Entry
import TextCatalog.Placeholder.Pattern
import TextCatalog.Text.Quoted
/-!
# What artifacts say

The artifacts of one run differ in their form, not in what they say of an entry. That is worked out
here once: the quoted key and content, whether the content is short enough to be a type of its own,
and the names of its placeholders.
-/

namespace TextCatalog.Artifact

def header : String := "// This file is generated by text-types. Do not edit it by hand."

/-- What the form of the artifacts depends on besides the entries. -/
structure Options where
  /-- The greatest length, in UTF-16 code units, of a content with a type of its own. -/
  maxLiteralLength : Nat
  delimiters : Delimiters
  deriving DecidableEq, Repr

structure Item where
  key : String
  keyLiteral : String
  valueLiteral : String
  contentType : String
  isLiteral : Bool
  length : Nat
  names : List String
  namesType : String
  deriving DecidableEq, Repr

/-- Whether a content is short enough to be a type of its own. -/
def isShort (o : Options) (content : String) : Bool :=
  Text.units content ≤ o.maxLiteralLength

/-- A union of string literal types, `never` if it is empty. -/
def union (names : List String) : String :=
  if names.isEmpty then "never" else String.intercalate " | " (names.map Text.literal)

def Item.ofEntry (o : Options) (e : Entry) : Item :=
  let value := Text.literal e.content
  let short := isShort o e.content
  let names := Placeholder.names o.delimiters e.content
  { key := e.key
    keyLiteral := Text.literal e.key
    valueLiteral := value
    contentType := if short then value else "string"
    isLiteral := short
    length := Text.units e.content
    names := names
    namesType := union names }

/-- What the artifacts of one run say. -/
structure Model where
  items : List Item
  pattern : String
  deriving DecidableEq, Repr

def Model.ofEntries (entries : List Entry) (o : Options) : Model :=
  ⟨entries.map (Item.ofEntry o), o.delimiters.pattern⟩

/-- The lines one below the other, each with its line feed. -/
def unlines (lines : List String) : String :=
  String.join (lines.map (· ++ "\n"))

end TextCatalog.Artifact
