import TextCatalog.Error
import TextCatalog.Text.Basic
import TextCatalog.Text.Blank
import TextCatalog.Text.Units
/-!
# Placeholders

A placeholder is an opening delimiter, at least one character and the first closing delimiter after
it, all on one line. A content is cut into pieces, each a plain character or a placeholder; what is
found, named or filled in is read off the pieces.
-/

namespace TextCatalog

structure Delimiters where
  opening : String
  closing : String
  deriving DecidableEq, Repr

namespace Delimiters

def standard : Delimiters := ⟨"\x7b\x7b", "\x7d\x7d"⟩

/-- Neither delimiter may be empty, and they must differ. -/
def validate (d : Delimiters) : Except Error Unit :=
  if d.opening = "" ∨ d.closing = "" then .error .emptyDelimiter
  else if d.opening = d.closing then .error (.equalDelimiters d.opening)
  else .ok ()

end Delimiters

namespace Placeholder

/-- A part of a content: a character that belongs to no placeholder, or a placeholder by the
characters between its delimiters. -/
inductive Piece where
  | plain (c : Char)
  | slot (inner : List Char)
  deriving DecidableEq, Repr

/-- Where a placeholder that has been opened ends. -/
inductive Ending where
  /-- The characters before the closing delimiter, and the input after it. -/
  | found (inner rest : List Char)
  /-- The line ends first. -/
  | lineEnd
  /-- The input ends first, so that no placeholder can follow. -/
  | inputEnd

/-- The first closing delimiter on the line, at the start of the input or later. -/
def ending (closing : List Char) : List Char → Ending
  | [] => .inputEnd
  | c :: cs =>
    match Text.restAfter? closing (c :: cs) with
    | some rest => .found [] rest
    | none =>
      if Text.isLineEnd c then .lineEnd
      else
        match ending closing cs with
        | .found inner rest => .found (c :: inner) rest
        | other => other

/-- The ending of a placeholder whose opening delimiter has been read. The character after it cannot
belong to the closing delimiter. -/
def endingAfter (closing : List Char) : List Char → Ending
  | [] => .inputEnd
  | c :: cs =>
    if Text.isLineEnd c then .lineEnd
    else
      match ending closing cs with
      | .found inner rest => .found (c :: inner) rest
      | other => other

theorem restAfter?_length {lead cs rest : List Char} (h : Text.restAfter? lead cs = some rest) :
    rest.length ≤ cs.length := by
  rw [Text.restAfter?_eq_some_iff.1 h]
  simp

theorem ending_found_length {closing cs inner rest : List Char}
    (h : ending closing cs = .found inner rest) : rest.length ≤ cs.length := by
  induction cs generalizing inner with
  | nil => simp [ending] at h
  | cons c cs ih =>
    rw [ending] at h
    split at h
    · next r hr =>
      obtain ⟨_, rfl⟩ := Ending.found.injEq .. |>.mp h
      exact restAfter?_length hr
    · split at h
      · simp at h
      · split at h
        · next r hr =>
          obtain ⟨_, rfl⟩ := Ending.found.injEq .. |>.mp h
          exact Nat.le_succ_of_le (ih hr)
        · next hne => exact absurd h (hne _ _)

theorem endingAfter_found_length {closing cs inner rest : List Char}
    (h : endingAfter closing cs = .found inner rest) : rest.length < cs.length := by
  cases cs with
  | nil => simp [endingAfter] at h
  | cons c cs =>
    rw [endingAfter] at h
    split at h
    · simp at h
    · split at h
      · next r hr =>
        obtain ⟨_, rfl⟩ := Ending.found.injEq .. |>.mp h
        exact Nat.lt_succ_of_le (ending_found_length hr)
      · next hne => exact absurd h (hne _ _)

/-- The pieces of the input, put before those in `done` in reverse. -/
def cut (opening closing : List Char) (done : List Piece) : List Char → List Piece
  | [] => done.reverse
  | c :: cs =>
    match _h : Text.restAfter? opening (c :: cs) with
    | none => cut opening closing (.plain c :: done) cs
    | some after =>
      match _h' : endingAfter closing after with
      | .found inner rest => cut opening closing (.slot inner :: done) rest
      | .lineEnd => cut opening closing (.plain c :: done) cs
      | .inputEnd => done.reverse ++ (c :: cs).map .plain
termination_by cs => cs.length
decreasing_by
  · simp
  · have := restAfter?_length _h
    have := endingAfter_found_length _h'
    omega
  · simp

/-- The pieces of a content. Without delimiters nothing is a placeholder. -/
def pieces (d : Delimiters) (content : String) : List Piece :=
  if d.opening = "" ∨ d.closing = "" then content.toList.map .plain
  else cut d.opening.toList d.closing.toList [] content.toList

def Piece.source (d : Delimiters) : Piece → List Char
  | plain c => [c]
  | slot inner => d.opening.toList ++ inner ++ d.closing.toList

/-- The name of a placeholder: what is between its delimiters without the white space around it. -/
def nameOf (inner : List Char) : String :=
  String.ofList (Text.trimChars inner)

/-- A placeholder in its place: the byte offsets of its start and end, its text and its name. -/
structure Found where
  start : Nat
  stop : Nat
  raw : String
  name : String
  deriving DecidableEq, Repr

/-- The placeholders among the pieces, the first piece standing at byte `offset`. -/
def foundFrom (d : Delimiters) (offset : Nat) : List Piece → List Found
  | [] => []
  | .plain c :: ps => foundFrom d (offset + c.utf8Size) ps
  | .slot inner :: ps =>
    let raw := (Piece.slot inner).source d
    let stop := offset + Text.width raw
    ⟨offset, stop, String.ofList raw, nameOf inner⟩ :: foundFrom d stop ps

def findAll (d : Delimiters) (content : String) : List Found :=
  foundFrom d 0 (pieces d content)

def distinct : List String → List String
  | [] => []
  | x :: xs => x :: (distinct xs).filter (· ≠ x)

def Piece.name? : Piece → Option String
  | plain _ => none
  | slot inner => some (nameOf inner)

/-- The distinct names of the placeholders of a content, in order of first appearance. -/
def names (d : Delimiters) (content : String) : List String :=
  distinct ((pieces d content).filterMap Piece.name?)

def Piece.fill (d : Delimiters) (lookup : String → Option String) : Piece → List Char
  | plain c => [c]
  | slot inner =>
    match lookup (nameOf inner) with
    | some value => value.toList
    | none => (slot inner).source d

/-- The content with each placeholder that `lookup` knows replaced by its value. Values are not
searched again. -/
def substitute (d : Delimiters) (lookup : String → Option String) (content : String) : String :=
  String.ofList ((pieces d content).flatMap (Piece.fill d lookup))

/-- The content filled in from the arguments, or as it is where none are given. -/
def substituteArgs (d : Delimiters) (args : Option (String → Option String)) (content : String) :
    String :=
  match args with
  | none => content
  | some lookup => substitute d lookup content

end Placeholder

end TextCatalog
