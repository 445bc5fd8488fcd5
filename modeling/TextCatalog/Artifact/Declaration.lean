import TextCatalog.Artifact.Module
/-!
# The declaration

An ambient declaration of the static module under a module name, with the same types and no values.
-/

namespace TextCatalog.Artifact.Declaration

/-- The lines between the block of content types and the block of placeholder names. -/
def betweenTypes : List String :=
  ["  \x7d;",
   "",
   "  export type TextVariables = \x7b"]

def closing : List String :=
  ["  \x7d;",
   "",
   "  export type TextKey = keyof TextContents;",
   "",
   "  export type TextArgs<K extends TextKey> = [TextVariables[K]] extends [never]",
   "    ? Record<string, unknown>",
   "    : Record<TextVariables[K], unknown>;",
   "",
   "  export const texts: Readonly<TextContents>;",
   "",
   "  export function getText<K extends TextKey>(key: K): TextContents[K];",
   "  export function getText<K extends TextKey>(key: K, args: TextArgs<K>): string;",
   "  export function getText(key: string, args?: Record<string, unknown>): string | undefined;",
   "\x7d"]

/-- The line that opens the declaration of a module. -/
def moduleLine (id : String) : String :=
  "declare module " ++ Text.literal id ++ " \x7b"

/-- A line of the static module inside of the declaration. -/
def indent (line : String) : String :=
  "  " ++ line

def lines (id : String) (m : Model) : List String :=
  [header, "", moduleLine id, "  export type TextContents = \x7b"] ++
    m.items.map (fun e => indent (Module.contentLine e)) ++ betweenTypes ++
    m.items.map (fun e => indent (Module.namesLine e)) ++ closing

def render (id : String) (entries : List Entry) (o : Options) : String :=
  unlines (lines id (Model.ofEntries entries o))

end TextCatalog.Artifact.Declaration
