import TextCatalog.Json.Parse
/-!
# TOML strings

The four kinds of strings: between double quotes, with escapes, or between single quotes, without;
on one line, or on several between three quotes.
-/

namespace TextCatalog.Toml

/-- Whether a character may stand for itself in a string or a comment. -/
def isPlain (c : Char) : Bool :=
  c == '\t' || (' ' ≤ c && c != '\x7f')

/-- The character written by `count` hexadecimal digits, and what follows them. -/
def coded? (count : Nat) (cs : List Char) : Option (Char × List Char) := do
  if cs.length < count then none
  let values ← (cs.take count).mapM Json.hexValue?
  let c ← Json.charOfCode? (values.foldl (fun n v => n * 16 + v) 0)
  return (c, cs.drop count)

/-- The character that an escape stands for after its backslash, and what follows the escape. -/
def escaped? : List Char → Option (Char × List Char)
  | '"' :: rest => some ('"', rest)
  | '\\' :: rest => some ('\\', rest)
  | 'b' :: rest => some ('\x08', rest)
  | 't' :: rest => some ('\t', rest)
  | 'n' :: rest => some ('\n', rest)
  | 'f' :: rest => some ('\x0c', rest)
  | 'r' :: rest => some ('\r', rest)
  | 'e' :: rest => some ('\x1b', rest)
  | 'x' :: rest => coded? 2 rest
  | 'u' :: rest => coded? 4 rest
  | 'U' :: rest => coded? 8 rest
  | _ => none

theorem length_le_of_coded? {count : Nat} {cs rest : List Char} {c : Char}
    (h : coded? count cs = some (c, rest)) : rest.length ≤ cs.length := by
  simp only [coded?, Option.bind_eq_bind, Option.pure_def] at h
  split at h
  · simp at h
  · simp only [Option.bind_eq_some_iff, Option.some.injEq, Prod.mk.injEq] at h
    obtain ⟨_, _, _, _, _, _, rfl⟩ := h
    simp

theorem length_lt_of_escaped? {cs rest : List Char} {c : Char}
    (h : escaped? cs = some (c, rest)) : rest.length < cs.length := by
  unfold escaped? at h
  split at h
  case h_9 | h_10 | h_11 =>
    have := length_le_of_coded? h
    simp only [List.length_cons]
    omega
  case h_12 => simp at h
  all_goals
    simp only [Option.some.injEq, Prod.mk.injEq] at h
    obtain ⟨_, rfl⟩ := h
    simp

/-- The rest of a string between double quotes: its text, collected in reverse in `acc`, and what
follows the closing quote. -/
def basicBody (acc : List Char) : List Char → Option (List Char × List Char)
  | '"' :: rest => some (acc.reverse, rest)
  | '\\' :: rest =>
    match h : escaped? rest with
    | none => none
    | some (c, after) =>
      have := length_lt_of_escaped? h
      basicBody (c :: acc) after
  | c :: rest => if isPlain c then basicBody (c :: acc) rest else none
  | [] => none
termination_by cs => cs.length

def literalBody (acc : List Char) : List Char → Option (List Char × List Char)
  | [] => none
  | c :: rest =>
    if c = '\'' then some (acc.reverse, rest)
    else if isPlain c then literalBody (c :: acc) rest
    else none

def skipBreaks : List Char → List Char
  | ' ' :: rest => skipBreaks rest
  | '\t' :: rest => skipBreaks rest
  | '\n' :: rest => skipBreaks rest
  | '\r' :: '\n' :: rest => skipBreaks rest
  | cs => cs

def afterLineEnd? : List Char → Option (List Char)
  | '\n' :: rest => some rest
  | '\r' :: '\n' :: rest => some rest
  | _ => none

/-- The input after the blanks that lead to a line end, that line end, and all blanks and line ends
after it. -/
def continued? (cs : List Char) : Option (List Char) :=
  (afterLineEnd? (cs.dropWhile fun c => c == ' ' || c == '\t')).map skipBreaks

theorem length_skipBreaks_le (cs : List Char) : (skipBreaks cs).length ≤ cs.length := by
  fun_induction skipBreaks cs with
  | case5 => exact Nat.le_refl _
  | _ => simp only [List.length_cons]; omega

theorem length_le_of_continued? {cs rest : List Char} (h : continued? cs = some rest) :
    rest.length ≤ cs.length := by
  simp only [continued?, Option.map_eq_some_iff] at h
  obtain ⟨after, h₁, rfl⟩ := h
  have h₂ := length_skipBreaks_le after
  have h₃ := (List.dropWhile_sublist (l := cs) (fun c => c == ' ' || c == '\t')).length_le
  unfold afterLineEnd? at h₁
  split at h₁ <;> simp_all <;> omega

/-- The rest of a string between three double quotes. Up to two quotes may stand before the closing
ones, and a backslash at the end of a line joins it to the next text. -/
def basicLines (acc : List Char) : List Char → Option (List Char × List Char)
  | '"' :: '"' :: '"' :: '"' :: '"' :: rest => some (('"' :: '"' :: acc).reverse, rest)
  | '"' :: '"' :: '"' :: '"' :: rest => some (('"' :: acc).reverse, rest)
  | '"' :: '"' :: '"' :: rest => some (acc.reverse, rest)
  | '\\' :: rest =>
    match h : escaped? rest with
    | some (c, after) =>
      have := length_lt_of_escaped? h
      basicLines (c :: acc) after
    | none =>
      match h : continued? rest with
      | none => none
      | some after =>
        have := length_le_of_continued? h
        basicLines acc after
  | '\n' :: rest => basicLines ('\n' :: acc) rest
  | '\r' :: '\n' :: rest => basicLines ('\n' :: '\r' :: acc) rest
  | c :: rest => if isPlain c then basicLines (c :: acc) rest else none
  | [] => none
termination_by cs => cs.length

def literalLines (acc : List Char) : List Char → Option (List Char × List Char)
  | '\'' :: '\'' :: '\'' :: '\'' :: '\'' :: rest => some (('\'' :: '\'' :: acc).reverse, rest)
  | '\'' :: '\'' :: '\'' :: '\'' :: rest => some (('\'' :: acc).reverse, rest)
  | '\'' :: '\'' :: '\'' :: rest => some (acc.reverse, rest)
  | '\n' :: rest => literalLines ('\n' :: acc) rest
  | '\r' :: '\n' :: rest => literalLines ('\n' :: '\r' :: acc) rest
  | c :: rest => if isPlain c then literalLines (c :: acc) rest else none
  | [] => none

def dropLineEnd (cs : List Char) : List Char :=
  (afterLineEnd? cs).getD cs

def lineString? : List Char → Option (List Char × List Char)
  | '"' :: rest => basicBody [] rest
  | '\'' :: rest => literalBody [] rest
  | _ => none

/-- A string of any kind, if the input starts with one. A line end after three opening quotes does
not count. -/
def string? : List Char → Option (List Char × List Char)
  | '"' :: '"' :: '"' :: rest => basicLines [] (dropLineEnd rest)
  | '\'' :: '\'' :: '\'' :: rest => literalLines [] (dropLineEnd rest)
  | cs => lineString? cs

end TextCatalog.Toml
