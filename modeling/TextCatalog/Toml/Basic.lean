import TextCatalog.Number.Binary
/-!
# TOML documents

The values of a TOML document, each with the part of the text that it was read from, and the rules
on which definitions may stand together: a key is defined once, a table is opened once, and a table
that is written in braces is complete.
-/

namespace TextCatalog.Toml

/-- A part of a text, from a place to another. A place is given by the text that follows it. -/
structure Span where
  start : List Char
  stop : List Char
  deriving DecidableEq, Repr

structure Key where
  name : String
  span : Span
  deriving DecidableEq, Repr

/-- How a table came to be. -/
inductive Form where
  /-- Only as a part of the header of another table. -/
  | implied
  /-- Through a dotted key. -/
  | dotted
  | headed
  | braced
  deriving DecidableEq, Repr

/-- A value of a document. A list of tables that headers add to is kept apart from an array, its last
table first. -/
inductive Value where
  | string (text : String)
  | integer (value : Int)
  | float (value : Binary64)
  /-- A number that is too great for floating point. -/
  | overflow
  | boolean (value : Bool)
  | moment (text : List Char)
  | array (items : List (Span × Value))
  | tables (items : List (Span × List (Key × Span × Value)))
  | table (form : Form) (fields : List (Key × Span × Value))

abbrev Item := Span × Value

/-- The fields of a table in the order of their definition. -/
abbrev Fields := List (Key × Span × Value)

mutual

/-- Whether each number of a value is in the range of its kind; integers have 64 bits and a sign. -/
def Value.inRange : Value → Bool
  | .integer n => -(2 ^ 63) ≤ n && n < 2 ^ 63
  | .overflow => false
  | .array items => itemsInRange items
  | .tables items => tablesInRange items
  | .table _ fields => fieldsInRange fields
  | .string _ | .float _ | .boolean _ | .moment _ => true

def itemsInRange : List (Span × Value) → Bool
  | [] => true
  | (_, value) :: items => value.inRange && itemsInRange items

def tablesInRange : List (Span × List (Key × Span × Value)) → Bool
  | [] => true
  | (_, fields) :: items => fieldsInRange fields && tablesInRange items

def fieldsInRange : List (Key × Span × Value) → Bool
  | [] => true
  | (_, _, value) :: fields => value.inRange && fieldsInRange fields

end

namespace Fields

def find? (name : String) : Fields → Option Item
  | [] => none
  | (key, item) :: fields => if key.name = name then some item else find? name fields

def replace (name : String) (value : Value) (fields : Fields) : Fields :=
  fields.map fun (key, span, old) => (key, span, if key.name = name then value else old)

/-- Apply `edit` to the fields of the table that `path` leads to, and tell it how that table came to
be. Tables that are missing on the way are made; the way goes through the last of a list of tables,
and ends at a table in braces, or, for a dotted key, at a table with a header of its own. -/
def within (byDots : Bool) (edit : Form → Fields → Option Fields) :
    (path : List Key) → Form → Fields → Option Fields
  | [], form, fields => edit form fields
  | key :: path, _, fields =>
    match find? key.name fields with
    | none => do
      let made : Form := if byDots then .dotted else .implied
      let inner ← within byDots edit path made []
      return fields ++ [(key, key.span, .table made inner)]
    | some (_, .table form inner) => do
      if form = .braced ∨ (byDots ∧ form = .headed) then none
      let form := if byDots ∧ form = .implied then .dotted else form
      let inner ← within byDots edit path form inner
      return replace key.name (.table form inner) fields
    | some (_, .tables ((span, inner) :: before)) => do
      let inner ← within byDots edit path .headed inner
      return replace key.name (.tables ((span, inner) :: before)) fields
    | some _ => none

/-- Define the dotted key `path.key`. A table with a header takes no keys from elsewhere. -/
def assign (path : List Key) (key : Key) (item : Item) (fields : Fields) : Option Fields :=
  let put (form : Form) (inner : Fields) : Option Fields :=
    if (form = .dotted) = path.isEmpty then none
    else if (find? key.name inner).isSome then none
    else some (inner ++ [(key, item)])
  within true put path .headed fields

def assignBelow (header path : List Key) (key : Key) (item : Item) (fields : Fields) :
    Option Fields :=
  within false (fun _ inner => assign path key item inner) header .headed fields

/-- Open the table with the header `path.key`. An implied table becomes one of its own. -/
def openTable (path : List Key) (key : Key) (span : Span) (fields : Fields) : Option Fields :=
  let put (_ : Form) (inner : Fields) : Option Fields :=
    match find? key.name inner with
    | none => some (inner ++ [(key, span, .table .headed [])])
    | some (_, .table .implied old) =>
      some (inner.filter (fun field => field.1.name ≠ key.name) ++
        [(key, span, .table .headed old)])
    | some _ => none
  within false put path .headed fields

/-- Add a table to the list of tables with the header `path.key`. -/
def addTable (path : List Key) (key : Key) (span : Span) (fields : Fields) : Option Fields :=
  let put (_ : Form) (inner : Fields) : Option Fields :=
    match find? key.name inner with
    | none => some (inner ++ [(key, span, .tables [(span, [])])])
    | some (_, .tables items) => some (replace key.name (.tables ((span, []) :: items)) inner)
    | some _ => none
  within false put path .headed fields

end Fields

end TextCatalog.Toml
