import TextCatalog.Text.Unseen
/-!
# Texts in messages

A text in a message stands between double quotes, and whatever would not show there is written by
its code.
-/

namespace TextCatalog.Text

def visibleChar (c : Char) : List Char :=
  match c with
  | '\x00' => ['\\', '0']
  | '\t' => ['\\', 't']
  | '\r' => ['\\', 'r']
  | '\n' => ['\\', 'n']
  | '\\' => ['\\', '\\']
  | '"' => ['\\', '"']
  | c => if isUnseen c then ['\\', 'u', '{'] ++ Nat.toDigits 16 c.toNat ++ ['}'] else [c]

/-- The text as it is shown in a message. -/
def visible (s : String) : String :=
  String.ofList ('"' :: s.toList.flatMap visibleChar ++ ['"'])

example : visible "日\"\x01" = "\"日\\\"\\u\x7b1\x7d\"" := by decide +kernel

end TextCatalog.Text
