/-!
# Encoded sizes

Offsets into a text are counted in UTF-8 bytes and the length of a content in UTF-16 code units.
-/

namespace TextCatalog.Text

/-- The UTF-8 bytes of a list of characters. -/
def bytesOf (cs : List Char) : List UInt8 :=
  cs.flatMap String.utf8EncodeChar

def bytes (s : String) : List UInt8 :=
  bytesOf s.toList

def width : List Char → Nat
  | [] => 0
  | c :: cs => c.utf8Size + width cs

/-- How many UTF-16 code units a character takes: two above U+FFFF. -/
def unitCount (c : Char) : Nat :=
  if c.toNat < 0x10000 then 1 else 2

def units (s : String) : Nat :=
  s.toList.foldl (fun n c => n + unitCount c) 0

example : units "a😀" = 3 := by decide

end TextCatalog.Text
