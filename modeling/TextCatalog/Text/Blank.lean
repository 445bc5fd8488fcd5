/-!
# White space and line terminators

The two character classes that the catalog depends on: the characters stripped from both ends of
names and patterns, and the characters that a placeholder cannot contain.
-/

namespace TextCatalog.Text

/-- The code points with the Unicode property `White_Space`, as closed intervals. -/
def blankRanges : List (Nat × Nat) :=
  [(0x09, 0x0D), (0x20, 0x20), (0x85, 0x85), (0xA0, 0xA0), (0x1680, 0x1680), (0x2000, 0x200A),
   (0x2028, 0x2029), (0x202F, 0x202F), (0x205F, 0x205F), (0x3000, 0x3000)]

def isBlank (c : Char) : Bool :=
  blankRanges.any fun r => r.1 ≤ c.toNat && c.toNat ≤ r.2

/-- The four characters that end a line of source text: LF, CR, U+2028 and U+2029. -/
def isLineEnd (c : Char) : Bool :=
  c == '\n' || c == '\r' || c == '\u2028' || c == '\u2029'

/-- The list without the characters satisfying `p` at its end. -/
def dropTrailing (p : Char → Bool) (cs : List Char) : List Char :=
  (cs.reverse.dropWhile p).reverse

def trimChars (cs : List Char) : List Char :=
  dropTrailing isBlank (cs.dropWhile isBlank)

def trim (s : String) : String :=
  String.ofList (trimChars s.toList)

/-- Whether the text consists of white space only. The empty text does. -/
def isBlankText (s : String) : Bool :=
  s.toList.all isBlank

example : (blankRanges.map fun r => r.2 + 1 - r.1).sum = 25 := by decide
example : trim " a b\u3000" = "a b" := by decide
example : trim "\uFEFF" = "\uFEFF" := by decide

end TextCatalog.Text
