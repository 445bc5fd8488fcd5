import TextCatalog.Artifact.Model
/-!
# The static module

A TypeScript module with the types of all texts, the texts themselves and a function that reads a
text and fills in its placeholders. It is written line by line, and each entry takes one line of
each of the three blocks.
-/

namespace TextCatalog.Artifact.Module

def preamble : List String :=
  ["/* eslint-disable */",
   "",
   "export type TextContents = \x7b"]

def betweenTypes : List String :=
  ["\x7d;",
   "",
   "export type TextVariables = \x7b"]

def beforeTexts : List String :=
  ["\x7d;",
   "",
   "export type TextKey = keyof TextContents;",
   "",
   "export type TextArgs<K extends TextKey> = [TextVariables[K]] extends [never]",
   "  ? Record<string, unknown>",
   "  : Record<TextVariables[K], unknown>;",
   "",
   "export const texts: Readonly<TextContents> = Object.freeze(\x7b"]

def afterTexts : List String :=
  ["\x7d);",
   ""]

def reader : List String :=
  ["",
   "export function getText<K extends TextKey>(key: K): TextContents[K];",
   "export function getText<K extends TextKey>(key: K, args: TextArgs<K>): string;",
   "export function getText(key: string, args?: Record<string, unknown>): string | undefined;",
   "export function getText(key: string, args?: Record<string, unknown>): string | undefined \x7b",
   "  const lookup: Readonly<Record<string, unknown>> = texts;",
   "  const content = Object.prototype.hasOwnProperty.call(lookup, key) ? lookup[key] : undefined;",
   "  if (typeof content !== \"string\" || args == null) \x7b",
   "    return content as string | undefined;",
   "  \x7d",
   "",
   "  const values = args;",
   "  return content.replace(PLACEHOLDER, (placeholder: string, name: string) => \x7b",
   "    const trimmed = name.trim();",
   "    if (!Object.prototype.hasOwnProperty.call(values, trimmed)) \x7b",
   "      return placeholder;",
   "    \x7d",
   "    const value = values[trimmed];",
   "    return value === undefined ? placeholder : String(value);",
   "  \x7d);",
   "\x7d"]

def contentLine (e : Item) : String :=
  "  " ++ e.keyLiteral ++ ": " ++ e.contentType ++ ";"

def namesLine (e : Item) : String :=
  "  " ++ e.keyLiteral ++ ": " ++ e.namesType ++ ";"

def textLine (e : Item) : String :=
  "  " ++ e.keyLiteral ++ ": " ++ e.valueLiteral ++ ","

def patternLine (pattern : String) : String :=
  "const PLACEHOLDER = " ++ pattern ++ ";"

def lines (m : Model) : List String :=
  [header] ++ preamble ++ m.items.map contentLine ++ betweenTypes ++ m.items.map namesLine ++
    beforeTexts ++ m.items.map textLine ++ afterTexts ++ [patternLine m.pattern] ++ reader

def render (entries : List Entry) (o : Options) : String :=
  unlines (lines (Model.ofEntries entries o))

end TextCatalog.Artifact.Module
