import TextCatalog.Text.Units
/-!
# Raw texts

A name or a path is bytes to the system, and these need not be UTF-8. Where it is shown, or compared with
a text, it is read as UTF-8, with U+FFFD in place of bytes that are none.
-/

namespace TextCatalog

/-- The bytes of a name or a path. -/
abbrev RawText := List UInt8

instance : Coe String RawText where
  coe := Text.bytes

namespace RawText

def slash : UInt8 := 47

def dot : UInt8 := 46

def isTail (b : UInt8) : Bool :=
  0x80 ≤ b && b ≤ 0xBF

/-- Whether `second` can stand behind `first` in a character of three or four bytes. -/
def isSecond (first second : UInt8) : Bool :=
  if first = 0xE0 then 0xA0 ≤ second && second ≤ 0xBF
  else if first = 0xED then 0x80 ≤ second && second ≤ 0x9F
  else if first = 0xF0 then 0x90 ≤ second && second ≤ 0xBF
  else if first = 0xF4 then 0x80 ≤ second && second ≤ 0x8F
  else 0xE0 < first && first < 0xF4 && isTail second

/-- How many bytes behind `first` begin a character with it, of which the rest is missing. -/
def begun (first : UInt8) : RawText → Nat
  | [] => 0
  | second :: rest =>
    if isSecond first second then
      if 0xF0 ≤ first && rest.head?.any isTail then 2 else 1
    else 0

/-- The character that a text is read with from `first` on, and how many bytes behind `first` it stands
for. -/
def front (first : UInt8) (rest : RawText) : Char × Nat :=
  match ((first :: rest).take 4).toByteArray.utf8DecodeChar? 0 with
  | some c => (c, c.utf8Size - 1)
  | none => ('\uFFFD', begun first rest)

/-- The characters that a text is read with, its first `skip` bytes being read already. -/
def charsBehind : (skip : Nat) → RawText → List Char
  | _, [] => []
  | skip + 1, _ :: rest => charsBehind skip rest
  | 0, first :: rest => (front first rest).1 :: charsBehind (front first rest).2 rest

/-- The bytes read as UTF-8. One U+FFFD stands for each longest start of a character that is cut short,
and for each other byte that no character has in its place. -/
def lossy (raw : RawText) : String :=
  String.ofList (charsBehind 0 raw)

example : lossy [0x61, 0xFF, 0xE2, 0x82, 0xF0, 0x9F, 0x98, 0x80] = "a\uFFFD\uFFFD😀" := by decide

end RawText

end TextCatalog
