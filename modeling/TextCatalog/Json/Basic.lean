import TextCatalog.Number.Shortest
import TextCatalog.Text.Quoted
/-!
# JSON values

Values of the data format that manifests, listings and placeholder arguments are written in, with
their two layouts: compact, and indented by two spaces.
-/

namespace TextCatalog

/-- A JSON value. An object keeps its fields in order. -/
inductive Json where
  | null
  | bool (b : Bool)
  | integer (n : Int)
  | number (x : Binary64)
  | string (s : String)
  | array (items : List Json)
  | object (fields : List (String × Json))
  deriving Repr

namespace Json

/-- The text of a value that is neither an array nor an object. -/
def leaf : Json → List Char
  | null => "null".toList
  | bool b => (if b then "true" else "false").toList
  | integer n => (toString n).toList
  | number x => x.dataText.toList
  | string s => Text.quoteWith Text.escapeChar s.toList
  | array _ => []
  | object _ => []

mutual

/-- The value without any white space. -/
def compactChars : Json → List Char
  | array items => '[' :: compactItems items ++ [']']
  | object fields => '{' :: compactFields fields ++ ['}']
  | null => leaf null
  | bool b => leaf (bool b)
  | integer n => leaf (integer n)
  | number x => leaf (number x)
  | string s => leaf (string s)

def compactItems : List Json → List Char
  | [] => []
  | [item] => compactChars item
  | item :: items => compactChars item ++ ',' :: compactItems items

def compactFields : List (String × Json) → List Char
  | [] => []
  | [(key, value)] => Text.quoteWith Text.escapeChar key.toList ++ ':' :: compactChars value
  | (key, value) :: fields =>
    Text.quoteWith Text.escapeChar key.toList ++ ':' :: compactChars value ++
      ',' :: compactFields fields

end

def newline (depth : Nat) : List Char :=
  '\n' :: List.replicate (2 * depth) ' '

mutual

/-- The value with one item or field a line, the value itself standing `depth` levels deep. -/
def indentedChars (depth : Nat) : Json → List Char
  | array [] => ['[', ']']
  | array items => '[' :: indentedItems (depth + 1) items ++ newline depth ++ [']']
  | object [] => ['{', '}']
  | object fields => '{' :: indentedFields (depth + 1) fields ++ newline depth ++ ['}']
  | null => leaf null
  | bool b => leaf (bool b)
  | integer n => leaf (integer n)
  | number x => leaf (number x)
  | string s => leaf (string s)

def indentedItems (depth : Nat) : List Json → List Char
  | [] => []
  | [item] => newline depth ++ indentedChars depth item
  | item :: items => newline depth ++ indentedChars depth item ++ ',' :: indentedItems depth items

def indentedFields (depth : Nat) : List (String × Json) → List Char
  | [] => []
  | [(key, value)] =>
    newline depth ++ Text.quoteWith Text.escapeChar key.toList ++
      ':' :: ' ' :: indentedChars depth value
  | (key, value) :: fields =>
    newline depth ++ Text.quoteWith Text.escapeChar key.toList ++
      ':' :: ' ' :: indentedChars depth value ++ ',' :: indentedFields depth fields

end

def compact (v : Json) : String :=
  String.ofList v.compactChars

def indented (v : Json) : String :=
  String.ofList (v.indentedChars 0)

/-- Puts a field into a list of fields sorted by key, replacing a field of the same key. -/
def putSorted (key : String) (value : Json) : List (String × Json) → List (String × Json)
  | [] => [(key, value)]
  | field :: fields =>
    if key < field.1 then (key, value) :: field :: fields
    else if key = field.1 then (key, value) :: fields
    else field :: putSorted key value fields

mutual

/-- The value with the fields of every object sorted by key, the last of equal keys kept. -/
def sorted : Json → Json
  | array items => array (sortedItems items)
  | object fields => object (sortedFields fields [])
  | null => null
  | bool b => bool b
  | integer n => integer n
  | number x => number x
  | string s => string s

def sortedItems : List Json → List Json
  | [] => []
  | item :: items => sorted item :: sortedItems items

/-- The fields put one by one into `acc`. -/
def sortedFields : List (String × Json) → List (String × Json) → List (String × Json)
  | [], acc => acc
  | (key, value) :: fields, acc => sortedFields fields (putSorted key (sorted value) acc)

end

/-- The value of the last field called `key`, if the value is an object with one. -/
def field? (key : String) : Json → Option Json
  | object fields => (fields.reverse.find? fun f => f.1 == key).map Prod.snd
  | _ => none

example : compact (object [("b", array [integer 1, null]), ("a", string "x")]) =
    "\x7b\"b\":[1,null],\"a\":\"x\"\x7d" := by decide
example : indented (object [("a", array [bool true]), ("b", array [])]) =
    "\x7b\n  \"a\": [\n    true\n  ],\n  \"b\": []\n\x7d" := by decide

end Json

end TextCatalog
