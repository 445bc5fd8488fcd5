/-!
# Line endings

Texts come with LF, CR LF or CR line endings; a catalog holds LF only.
-/

namespace TextCatalog.Text

/-- Each CR directly followed by LF is dropped. -/
def joinPairs : List Char → List Char
  | [] => []
  | '\r' :: '\n' :: cs => '\n' :: joinPairs cs
  | c :: cs => c :: joinPairs cs

/-- The characters with every line ending written as LF: pairs first, then the CRs left alone. -/
def lineFeedChars (cs : List Char) : List Char :=
  (joinPairs cs).map fun c => if c = '\r' then '\n' else c

def lineFeeds (s : String) : String :=
  String.ofList (lineFeedChars s.toList)

example : lineFeeds "a\r\r\n\nb\r" = "a\n\n\nb\n" := by decide

end TextCatalog.Text
