/-!
# Quoted strings

Two written forms of a text between double quotes. Both escape the quote, the backslash and every
character below U+0020. A string of the manifest stops there; a string of a code module also escapes
the two separators U+2028 and U+2029, which would end its line.
-/

namespace TextCatalog.Text

def hexDigit (n : Nat) : Char :=
  if n < 10 then Char.ofNat (48 + n) else Char.ofNat (87 + n)

/-- The escape of a character by its code in four hexadecimal digits. -/
def unicodeEscape (n : Nat) : List Char :=
  ['\\', 'u', hexDigit (n / 4096 % 16), hexDigit (n / 256 % 16), hexDigit (n / 16 % 16),
   hexDigit (n % 16)]

def escapeChar (c : Char) : List Char :=
  match c with
  | '"' => ['\\', '"']
  | '\\' => ['\\', '\\']
  | '\x08' => ['\\', 'b']
  | '\t' => ['\\', 't']
  | '\n' => ['\\', 'n']
  | '\x0c' => ['\\', 'f']
  | '\r' => ['\\', 'r']
  | c => if c.toNat < 0x20 then unicodeEscape c.toNat else [c]

/-- How a character is written inside the quotes of a code module. -/
def escapeCodeChar (c : Char) : List Char :=
  if c = '\u2028' || c = '\u2029' then unicodeEscape c.toNat else escapeChar c

/-- The characters between double quotes, each written by `escape`. -/
def quoteWith (escape : Char → List Char) (cs : List Char) : List Char :=
  '"' :: cs.flatMap escape ++ ['"']

def quote (s : String) : String :=
  String.ofList (quoteWith escapeChar s.toList)

/-- The text as a string literal of a code module. -/
def literal (s : String) : String :=
  String.ofList (quoteWith escapeCodeChar s.toList)

example : literal "a\"\\\n\x01é" = "\"a\\\"\\\\\\n\\u0001é\"" := by decide
example : literal "\u2028" = "\"\\u2028\"" := by decide

end TextCatalog.Text
