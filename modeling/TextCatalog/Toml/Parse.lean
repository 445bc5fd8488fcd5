import TextCatalog.Toml.Scalar
import TextCatalog.Toml.Text
/-!
# Reading TOML

A reader for whole documents. A document that breaks a rule of the format, or defines something
twice, is refused as a whole.
-/

namespace TextCatalog.Toml

/-- How deep values may nest, and how many parts a key may have. -/
def nestingLimit : Nat := 80

def skipBlanks (cs : List Char) : List Char :=
  cs.dropWhile fun c => c == ' ' || c == '\t'

/-- Whether a character may stand in a key without quotes. -/
def isBare (c : Char) : Bool :=
  c.isAlphanum || c == '_' || c == '-'

/-- The input from the line end that closes a comment, if no character of it is refused. -/
def afterComment? (cs : List Char) : Option (List Char) :=
  let rest := cs.dropWhile isPlain
  if rest.isEmpty ∨ (afterLineEnd? rest).isSome then some rest else none

theorem length_le_of_afterComment? {cs rest : List Char} (h : afterComment? cs = some rest) :
    rest.length ≤ cs.length := by
  simp only [afterComment?, Option.ite_none_right_eq_some, Option.some.injEq] at h
  rw [← h.2]
  exact (List.dropWhile_sublist _).length_le

def skipAll? (cs : List Char) : Option (List Char) :=
  match _h : skipBreaks cs with
  | '#' :: rest =>
    match _hr : afterComment? rest with
    | none => none
    | some after => skipAll? after
  | rest => some rest
termination_by cs.length
decreasing_by
  have h₁ := length_le_of_afterComment? _hr
  have h₂ := length_skipBreaks_le cs
  rw [_h, List.length_cons] at h₂
  omega

/-- What follows the end of a line that holds nothing more than blanks and a comment. -/
def afterLine? (cs : List Char) : Option (List Char) := do
  let rest ← match skipBlanks cs with
    | '#' :: rest => afterComment? rest
    | rest => some rest
  if rest.isEmpty then some [] else afterLineEnd? rest

def simpleKey? (cs : List Char) : Option (Key × List Char) := do
  let (name, rest) ← match lineString? cs with
    | some r => some r
    | none =>
      let name := cs.takeWhile isBare
      if name.isEmpty then none else some (name, cs.dropWhile isBare)
  return (⟨String.ofList name, ⟨cs, rest⟩⟩, rest)

/-- A key with the parts before its last, after those in `path`, and what follows it and the blanks
behind it. Each part takes one from `count`. -/
def dottedKey? : (count : Nat) → (path : List Key) → List Char → Option (List Key × Key × List Char)
  | 0, _, _ => none
  | count + 1, path, cs => do
    let (key, rest) ← simpleKey? cs
    match skipBlanks rest with
    | '.' :: rest => dottedKey? count (path ++ [key]) (skipBlanks rest)
    | rest => return (path, key, rest)

mutual

/-- A value at the start of the input, inside of which values may nest `depth` deep, and what follows
it. -/
def value? : (fuel depth : Nat) → List Char → Option (Item × List Char)
  | 0, _, _ => none
  | fuel + 1, depth, cs =>
    match cs, depth with
    | '[' :: _, 0 | '{' :: _, 0 => none
    | '[' :: rest, depth + 1 => do
      let (items, rest) ← items? fuel depth [] rest
      return ((⟨cs, rest⟩, .array items), rest)
    | '{' :: rest, depth + 1 => do
      let (fields, rest) ← fields? fuel depth [] rest
      return ((⟨cs, rest⟩, .table .braced fields), rest)
    | _, _ =>
      match cs.head? with
      | some '"' | some '\'' => do
        let (text, rest) ← string? cs
        return ((⟨cs, rest⟩, .string (String.ofList text)), rest)
      | _ => do
        let (lead, rest) := cutScalar cs
        return ((⟨cs, rest⟩, ← scalar? lead), rest)

def items? : (fuel depth : Nat) → List Item → List Char → Option (List Item × List Char)
  | 0, _, _, _ => none
  | fuel + 1, depth, acc, cs => do
    match ← skipAll? cs with
    | ']' :: rest => return (acc.reverse, rest)
    | cs =>
      let (item, rest) ← value? fuel depth cs
      match ← skipAll? rest with
      | ',' :: rest => items? fuel depth (item :: acc) rest
      | ']' :: rest => return ((item :: acc).reverse, rest)
      | _ => none

def fields? : (fuel depth : Nat) → Fields → List Char → Option (Fields × List Char)
  | 0, _, _, _ => none
  | fuel + 1, depth, acc, cs => do
    match ← skipAll? cs with
    | '}' :: rest => return (acc, rest)
    | cs =>
      match ← dottedKey? nestingLimit [] cs with
      | (path, key, '=' :: rest) =>
        let (item, rest) ← value? fuel depth (skipBlanks rest)
        let acc ← acc.assign path key item
        match ← skipAll? rest with
        | ',' :: rest => fields? fuel depth acc rest
        | '}' :: rest => return (acc, rest)
        | _ => none
      | _ => none

end

/-- The value at the start of the input. A value, an item and a field each take a character, so the
steps down are at most twice as many as there are characters. -/
def item? (cs : List Char) : Option (Item × List Char) :=
  value? (2 * cs.length + 2) nestingLimit cs

/-- What the lines read so far define, and the header of the table that is open. -/
structure Draft where
  root : Fields
  header : List Key

namespace Draft

/-- Read one line of a document that is neither empty nor a comment. -/
def line? (d : Draft) (cs : List Char) : Option (Draft × List Char) := do
  match cs with
  | '[' :: '[' :: rest =>
    match ← dottedKey? nestingLimit [] (skipBlanks rest) with
    | (path, key, ']' :: ']' :: rest) =>
      return (⟨← d.root.addTable path key ⟨cs, rest⟩, path ++ [key]⟩, rest)
    | _ => none
  | '[' :: rest =>
    match ← dottedKey? nestingLimit [] (skipBlanks rest) with
    | (path, key, ']' :: rest) =>
      return (⟨← d.root.openTable path key ⟨cs, rest⟩, path ++ [key]⟩, rest)
    | _ => none
  | _ =>
    match ← dottedKey? nestingLimit [] cs with
    | (path, key, '=' :: rest) =>
      let (item, rest) ← item? (skipBlanks rest)
      return (⟨← d.root.assignBelow d.header path key item, d.header⟩, rest)
    | _ => none

def lines? : Nat → Draft → List Char → Option Draft
  | 0, _, _ => none
  | fuel + 1, d, cs => do
    match ← skipAll? cs with
    | [] => return d
    | cs =>
      let (d, rest) ← d.line? cs
      lines? fuel d (← afterLine? rest)

end Draft

/-- The fields of the document that a text holds. A mark of the byte order at the start of the text
does not count. Each line takes a character, so there are at most as many as there are
characters. -/
def parse? (s : String) : Option Fields :=
  let cs := match s.toList with
    | '\ufeff' :: rest => rest
    | cs => cs
  ((Draft.mk [] []).lines? (cs.length + 1) cs).map Draft.root

end TextCatalog.Toml
