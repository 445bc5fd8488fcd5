import TextCatalog.Artifact.Declaration
import TextCatalog.Proofs.Artifact.Lines
import TextCatalog.Proofs.Text.CodeUnits
import TextCatalog.Proofs.Text.Quoted

/-!
# Reading the artifacts of code

A reader that knows nothing of the entries. It cuts a module or a declaration at its line feeds, takes
the blocks by the lines around them and reads the string literals of each line; the strings of JSON
are read the same way in a module.
-/

namespace TextCatalog.Artifact

open Text

/-- The string literal at the start of the input, and what follows it. -/
def literal? : List Char → Option (String × List Char)
  | '"' :: cs => (Json.stringBody [] cs).map fun r => (String.ofList r.1, r.2)
  | _ => none

theorem length_lt_of_literal? {cs rest : List Char} {s : String} (h : literal? cs = some (s, rest)) :
    rest.length < cs.length := by
  rw [literal?.eq_def] at h
  split at h
  next tail =>
    obtain ⟨⟨out, tail'⟩, hbody, hr⟩ := Option.map_eq_some_iff.1 h
    obtain ⟨-, rfl⟩ := Prod.mk.inj hr
    have htail := length_lt_of_stringBody hbody
    simp only [List.length_cons]
    omega
  next => simp at h

/-- A content type: a string literal type, or `none` for the type of all strings. -/
def contentType? (cs : List Char) : Option (Option String) :=
  if cs = "string;".toList then some none
  else
    match literal? cs with
    | some (s, [';']) => some (some s)
    | _ => none

/-- String literals with bars between them, up to a semicolon. -/
def alternatives? (cs : List Char) : Option (List String) :=
  match _h : literal? cs with
  | none => none
  | some (s, rest) =>
    if rest = [';'] then some [s]
    else
      match _h' : restAfter? " | ".toList rest with
      | none => none
      | some rest => (alternatives? rest).map (s :: ·)
termination_by cs.length
decreasing_by
  have hrest := length_lt_of_literal? _h
  rw [restAfter?_eq_some_iff.1 _h', List.length_append] at hrest
  omega

/-- String literals with `sep` between them, and what follows the last one. -/
def literals? (sep cs : List Char) : Option (List String × List Char) :=
  match _h : literal? cs with
  | none => none
  | some (s, rest) =>
    match _h' : restAfter? sep rest with
    | none => some ([s], rest)
    | some rest => (literals? sep rest).map fun r => (s :: r.1, r.2)
termination_by cs.length
decreasing_by
  have hrest := length_lt_of_literal? _h
  rw [restAfter?_eq_some_iff.1 _h', List.length_append] at hrest
  omega

/-- A type of placeholder names: `never`, or the union of the names. -/
def namesType? (cs : List Char) : Option (List String) :=
  if cs = "never;".toList then some [] else alternatives? cs

/-- A text with the comma after it. -/
def text? (cs : List Char) : Option String :=
  match literal? cs with
  | some (s, [',']) => some s
  | _ => none

/-- The line of an entry: its key, and what `read` reads behind the colon. -/
def entryLine? {α : Type} (read : List Char → Option α) (line : String) : Option (String × α) := do
  let (key, rest) ← literal? (← restAfter? "  ".toList line.toList)
  return (key, ← read (← restAfter? ": ".toList rest))

namespace Module

def contentLines (ls : List String) : List String :=
  block "export type TextContents = \x7b" "\x7d;" ls

def namesLines (ls : List String) : List String :=
  block "export type TextVariables = \x7b" "\x7d;" ls

def textLines (ls : List String) : List String :=
  block "export const texts: Readonly<TextContents> = Object.freeze(\x7b" "\x7d);" ls

end Module

namespace Declaration

/-- The module id in the line that opens a declaration. -/
def moduleId? (line : String) : Option String := do
  let (id, rest) ← literal? (← restAfter? "declare module ".toList line.toList)
  if rest = [' ', '\x7b'] then return id else none

/-- The module id of the first declaration and the lines inside of it. -/
def body? : List String → Option (String × List String)
  | [] => none
  | l :: ls =>
    match moduleId? l with
    | some id => some (id, ls.takeWhile (· ≠ "\x7d"))
    | none => body? ls

def contentLines (ls : List String) : List String :=
  block "  export type TextContents = \x7b" "  \x7d;" ls

def namesLines (ls : List String) : List String :=
  block "  export type TextVariables = \x7b" "  \x7d;" ls

end Declaration

section Literals

@[simp]
theorem restAfter?_append (lead rest : List Char) : restAfter? lead (lead ++ rest) = some rest :=
  restAfter?_eq_some_iff.2 rfl

@[simp]
theorem literal?_literal (s : String) (rest : List Char) :
    literal? ((Text.literal s).toList ++ rest) = some (s, rest) := by
  simp [Text.literal, quoteWith, literal?, stringBody_flatMap stringBody_escapeCodeChar]

theorem contentType?_literal (s : String) :
    contentType? ((Text.literal s).toList ++ [';']) = some (some s) := by
  have hne : (Text.literal s).toList ++ [';'] ≠ "string;".toList := by
    simp [Text.literal, quoteWith]
  rw [contentType?, if_neg hne, literal?_literal]
  rfl

theorem text?_literal (s : String) : text? ((Text.literal s).toList ++ [',']) = some s := by
  rw [text?, literal?_literal]
  rfl

theorem literals?_eq (sep cs : List Char) : literals? sep cs =
    match literal? cs with
    | none => none
    | some (s, rest) =>
      match restAfter? sep rest with
      | none => some ([s], rest)
      | some rest => (literals? sep rest).map fun r => (s :: r.1, r.2) := by
  rw [literals?]
  split
  next h => rw [h]
  next h =>
    rw [h]
    dsimp only
    split
    next h' => rw [h']
    next h' => rw [h']

theorem literals?_intercalate {sep : String} {rest : List Char}
    (hrest : restAfter? sep.toList rest = none) {items : List String} (h : items ≠ []) :
    literals? sep.toList ((String.intercalate sep (items.map Text.literal)).toList ++ rest)
      = some (items, rest) := by
  induction items with
  | nil => exact absurd rfl h
  | cons s items ih =>
    cases items with
    | nil =>
      rw [List.map_singleton, String.intercalate_singleton, literals?_eq, literal?_literal]
      dsimp only
      rw [hrest]
    | cons next items =>
      have hchars : (String.intercalate sep ((s :: next :: items).map Text.literal)).toList ++ rest
          = (Text.literal s).toList ++ (sep.toList ++
            ((String.intercalate sep ((next :: items).map Text.literal)).toList ++ rest)) := by
        simp
      rw [hchars, literals?_eq, literal?_literal]
      dsimp only
      rw [restAfter?_append]
      dsimp only
      rw [ih (by simp)]
      rfl

theorem alternatives?_eq (cs : List Char) : alternatives? cs =
    (literals? " | ".toList cs).bind fun r => if r.2 = [';'] then some r.1 else none := by
  fun_induction alternatives? cs with
  | case1 cs h =>
    rw [literals?_eq, h]
    rfl
  | case2 cs s h =>
    rw [literals?_eq, h]
    rfl
  | case3 cs s rest h hrest h' =>
    rw [literals?_eq, h]
    dsimp only
    rw [h', Option.bind_some, if_neg hrest]
  | case4 cs s rest h hrest rest' h' ih =>
    rw [literals?_eq, h]
    dsimp only
    rw [h', ih]
    dsimp only
    cases literals? " | ".toList rest' with
    | none => rfl
    | some r => by_cases hend : r.2 = [';'] <;> simp [hend]

theorem alternatives?_intercalate {names : List String} (h : names ≠ []) :
    alternatives? ((String.intercalate " | " (names.map Text.literal)).toList ++ [';'])
      = some names := by
  rw [alternatives?_eq, literals?_intercalate rfl h]
  rfl

theorem namesType?_union (names : List String) :
    namesType? ((union names).toList ++ [';']) = some names := by
  cases names with
  | nil => simp [namesType?, union]
  | cons name names =>
    have hunion : union (name :: names)
        = String.intercalate " | " ((name :: names).map Text.literal) := rfl
    have hne : (union (name :: names)).toList ++ [';'] ≠ "never;".toList := by
      cases names <;> simp [hunion, Text.literal, quoteWith]
    rw [namesType?, if_neg hne, hunion, alternatives?_intercalate (by simp)]

theorem entryLine?_eq {α : Type} (read : List Char → Option α) (key tail : String) :
    entryLine? read ("  " ++ Text.literal key ++ ": " ++ tail) = (read tail.toList).map (key, ·) := by
  have hchars : ("  " ++ Text.literal key ++ ": " ++ tail).toList
      = "  ".toList ++ ((Text.literal key).toList ++ (": ".toList ++ tail.toList)) := by
    simp
  rw [entryLine?, hchars]
  simp only [Option.bind_eq_bind, restAfter?_append, Option.bind_some, literal?_literal]
  cases read tail.toList <;> rfl

end Literals

section Items

variable (o : Options) (e : Entry)

/-- The content as its type shows it: not at all if it has more code units than allowed. -/
def shownContent (content : String) : Option String :=
  if o.maxLiteralLength < (codeUnits content.toList).length then none else some content

theorem isShort_eq (content : String) : isShort o content = (shownContent o content).isSome := by
  rw [isShort, shownContent, length_codeUnits]
  split <;> simp <;> omega

theorem entryLine?_contentLine :
    entryLine? contentType? (Module.contentLine (.ofEntry o e)) = some (e.key, shownContent o e.content) := by
  have hline : Module.contentLine (.ofEntry o e)
      = "  " ++ Text.literal e.key ++ ": " ++ ((Item.ofEntry o e).contentType ++ ";") := by
    simp [Module.contentLine, Item.ofEntry, String.append_assoc]
  rw [hline, entryLine?_eq]
  by_cases hshown : o.maxLiteralLength < (codeUnits e.content.toList).length
  · simp [Item.ofEntry, isShort_eq, shownContent, hshown, contentType?]
  · simp [Item.ofEntry, isShort_eq, shownContent, hshown, contentType?_literal]

theorem entryLine?_namesLine :
    entryLine? namesType? (Module.namesLine (.ofEntry o e))
      = some (e.key, Placeholder.names o.delimiters e.content) := by
  have hline : Module.namesLine (.ofEntry o e) = "  " ++ Text.literal e.key ++ ": " ++
      (union (Placeholder.names o.delimiters e.content) ++ ";") := by
    simp [Module.namesLine, Item.ofEntry, String.append_assoc]
  rw [hline, entryLine?_eq]
  simp [namesType?_union]

theorem entryLine?_textLine :
    entryLine? text? (Module.textLine (.ofEntry o e)) = some (e.key, e.content) := by
  have hline : Module.textLine (.ofEntry o e)
      = "  " ++ Text.literal e.key ++ ": " ++ (Text.literal e.content ++ ",") := by
    simp [Module.textLine, Item.ofEntry, String.append_assoc]
  rw [hline, entryLine?_eq]
  simp [text?_literal]

end Items

end TextCatalog.Artifact
