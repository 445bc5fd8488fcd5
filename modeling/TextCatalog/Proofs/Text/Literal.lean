import TextCatalog.Proofs.Json.Layout
import TextCatalog.Proofs.Text.CodeUnits
import TextCatalog.Text.Basic

/-!
# String literals

A string literal stands in code, whose strings know more escapes than those of JSON and are made of
code units. By the rules of code and by those of JSON it is read as the text that was written, and no
rule finds its end before the closing quote.
-/

namespace TextCatalog.Text

open Json

/-! ### Strings of code -/

/-- The code units of a code point. A surrogate is a unit by itself. -/
def pointUnits (n : Nat) : List Nat :=
  if n < 0x10000 then [n] else [0xD800 + (n - 0x10000) / 0x400, 0xDC00 + (n - 0x10000) % 0x400]

/-- The number that hexadecimal digits write. -/
def hexNumber? (digits : List Char) : Option Nat :=
  digits.foldlM (fun n d => (hexValue? d).map (n * 16 + ·)) 0

/-- The units of a code point in braces, read behind the opening one, and what follows the closing
one. -/
def bracedPoint? (cs : List Char) : Option (List Nat × List Char) :=
  match cutAt? '}' cs with
  | none => none
  | some (digits, rest) =>
    match hexNumber? digits with
    | none => none
    | some n => if digits = [] ∨ 0x10FFFF < n then none else some (pointUnits n, rest)

/-- The units that a character behind a backslash stands for, `next` being the one after it. The end of
a line stands for nothing. Of the digits only a zero is an escape, and only if no digit follows. -/
def escapedUnits? (c : Char) (next : Option Char) : Option (List Nat) :=
  match c with
  | 'b' => some [0x08]
  | 't' => some [0x09]
  | 'n' => some [0x0A]
  | 'v' => some [0x0B]
  | 'f' => some [0x0C]
  | 'r' => some [0x0D]
  | 'x' | 'u' => none
  | c =>
    if isLineEnd c then some []
    else if c.isDigit then if c = '0' ∧ !next.any Char.isDigit then some [0] else none
    else some (charUnits c)

/-- The units of an escape, read behind its backslash, and what follows it. -/
def codeEscape? : List Char → Option (List Nat × List Char)
  | [] => none
  | 'x' :: a :: b :: rest => (hexNumber? [a, b]).map fun n => ([n], rest)
  | 'u' :: '{' :: rest => bracedPoint? rest
  | 'u' :: a :: b :: c :: d :: rest => (hex4? a b c d).map fun n => ([n], rest)
  | '\r' :: '\n' :: rest => some ([], rest)
  | c :: rest => (escapedUnits? c rest.head?).map fun us => (us, rest)

section Length

variable {cs rest : List Char} {us : List Nat}

theorem length_lt_of_cutAt? {sep : Char} {front : List Char} (h : cutAt? sep cs = some (front, rest)) :
    rest.length < cs.length := by
  induction cs generalizing front with
  | nil => simp [cutAt?] at h
  | cons c cs ih =>
    rw [cutAt?] at h
    split at h
    · obtain ⟨-, rfl⟩ := Prod.mk.inj (Option.some.inj h)
      simp
    · obtain ⟨⟨front', rest'⟩, htail, heq⟩ := Option.map_eq_some_iff.1 h
      obtain ⟨-, rfl⟩ := Prod.mk.inj heq
      exact Nat.lt_succ_of_lt (ih htail)

theorem length_lt_of_bracedPoint? (h : bracedPoint? cs = some (us, rest)) :
    rest.length < cs.length := by
  rw [bracedPoint?] at h
  split at h
  · cases h
  next hcut =>
    split at h
    · cases h
    · split at h
      · cases h
      · obtain ⟨-, rfl⟩ := Prod.mk.inj (Option.some.inj h)
        exact length_lt_of_cutAt? hcut

theorem length_lt_of_codeEscape? (h : codeEscape? cs = some (us, rest)) :
    rest.length < cs.length := by
  rw [codeEscape?.eq_def] at h
  split at h
  case h_1 => cases h
  case h_3 =>
    have hlt := length_lt_of_bracedPoint? h
    simp only [List.length_cons]
    omega
  case h_5 =>
    obtain ⟨-, rfl⟩ := Prod.mk.inj (Option.some.inj h)
    simp only [List.length_cons]
    omega
  case h_2 | h_4 | h_6 =>
    obtain ⟨x, -, heq⟩ := Option.map_eq_some_iff.1 h
    obtain ⟨-, rfl⟩ := Prod.mk.inj heq
    simp only [List.length_cons]
    omega

end Length

/-- The rest of a string behind its opening quote: its code units, and what follows the closing quote.
A line feed or a return ends the line and cannot stand in it. -/
def codeBody? : List Char → Option (List Nat × List Char)
  | [] => none
  | '"' :: cs => some ([], cs)
  | '\\' :: cs =>
    match _h : codeEscape? cs with
    | none => none
    | some (us, rest) => (codeBody? rest).map fun r => (us ++ r.1, r.2)
  | '\n' :: _ | '\r' :: _ => none
  | c :: cs => (codeBody? cs).map fun r => (charUnits c ++ r.1, r.2)
termination_by cs => cs.length
decreasing_by
  · have hlt := length_lt_of_codeEscape? _h
    simp only [List.length_cons]
    omega
  · simp

/-- The string of code at the start of the input: its code units, and what follows it. -/
def codeString? : List Char → Option (List Nat × List Char)
  | '"' :: cs => codeBody? cs
  | _ => none

example : codeString? "\"\\x41\\\r\n\\u\x7b1F600\x7d\\/\u2028\";".toList
    = some (codeUnits "A😀/\u2028".toList, [';']) := by cbv
example : codeString? "\"\\1\"".toList = none ∧ codeString? "\"\n\"".toList = none := by
  constructor <;> cbv

section Reading

variable {c e : Char} {cs rest : List Char} {us : List Nat}

theorem codeBody?_escape (h : codeEscape? cs = some (us, rest)) :
    codeBody? ('\\' :: cs) = (codeBody? rest).map fun r => (us ++ r.1, r.2) := by
  rw [codeBody?]
  split
  next hnone =>
    rw [h] at hnone
    cases hnone
  next hsome =>
    obtain ⟨rfl, rfl⟩ := Prod.mk.inj (Option.some.inj (h.symm.trans hsome))
    rfl

theorem codeEscape?_simple (h : simpleEscape? e = some c) (rest : List Char) :
    codeEscape? (e :: rest) = some (charUnits c, rest) := by
  rw [simpleEscape?.eq_def] at h
  split at h
  case h_9 => cases h
  all_goals
    obtain rfl := Option.some.inj h
    rfl

theorem codeBody?_unicodeEscape (h : c.toNat < 0xD800) (rest : List Char) :
    codeBody? (unicodeEscape c.toNat ++ rest)
      = (codeBody? rest).map fun r => (charUnits c ++ r.1, r.2) := by
  have hcode := hex4?_hexDigit (n := c.toNat) (by omega)
  have hunits : charUnits c = [c.toNat] := if_pos (by omega)
  have hbrace : ∀ n < 16, hexDigit n ≠ '{' := by decide
  rw [unicodeEscape, hunits]
  apply codeBody?_escape
  change codeEscape? ('u' :: _ :: _ :: _ :: _ :: rest) = _
  rw [codeEscape?, hcode]
  · rfl
  · exact hbrace _ (Nat.mod_lt _ (by omega))

theorem codeBody?_plain (hquote : c ≠ '"') (hslash : c ≠ '\\') (hlow : 0x20 ≤ c.toNat)
    (rest : List Char) :
    codeBody? (c :: rest) = (codeBody? rest).map fun r => (charUnits c ++ r.1, r.2) := by
  have hfeed : c ≠ '\n' := by
    rintro rfl
    exact absurd hlow (by decide)
  have hreturn : c ≠ '\r' := by
    rintro rfl
    exact absurd hlow (by decide)
  rw [codeBody?] <;> assumption

theorem codeBody?_escapeCodeChar (c : Char) (rest : List Char) :
    codeBody? (escapeCodeChar c ++ rest)
      = (codeBody? rest).map fun r => (charUnits c ++ r.1, r.2) := by
  rcases escapeCodeChar_cases c with ⟨e, he, h⟩ | ⟨hlow, h⟩ | ⟨hquote, hslash, hlow, -, -, h⟩
  · rw [h]
    exact codeBody?_escape (codeEscape?_simple he rest)
  · rw [h]
    exact codeBody?_unicodeEscape hlow rest
  · rw [h]
    exact codeBody?_plain hquote hslash hlow rest

/-- Characters that are escaped one by one are read as their units. -/
theorem codeBody?_flatMap (cs rest : List Char) :
    codeBody? (cs.flatMap escapeCodeChar ++ '"' :: rest) = some (codeUnits cs, rest) := by
  induction cs with
  | nil => simp [codeBody?]
  | cons c cs ih =>
    rw [List.flatMap_cons, List.append_assoc, codeBody?_escapeCodeChar, ih]
    rfl

end Reading

/-! ### What is written -/

/-- No quote stands alone: the text is made of characters other than quotes and backslashes and of
backslashes, each with the character that it escapes. -/
inductive IsEscaped : List Char → Prop
  | nil : IsEscaped []
  | plain {c : Char} {cs : List Char} (hquote : c ≠ '"') (hslash : c ≠ '\\') (hrest : IsEscaped cs) :
      IsEscaped (c :: cs)
  | pair {c : Char} {cs : List Char} (hrest : IsEscaped cs) : IsEscaped ('\\' :: c :: cs)

/-- The text with another one in the place of each `c`. -/
def replaceChar (c : Char) (other : List Char) (cs : List Char) : List Char :=
  cs.flatMap fun x => if x = c then other else [x]

section Writing

variable {c : Char} {cs : List Char}

theorem IsEscaped.escapeCodeChar_append (c : Char) (h : IsEscaped cs) :
    IsEscaped (escapeCodeChar c ++ cs) := by
  have hdigit : ∀ n < 16, hexDigit n ≠ '"' ∧ hexDigit n ≠ '\\' := by decide
  have hplain : ∀ m {cs}, IsEscaped cs → IsEscaped (hexDigit (m % 16) :: cs) := fun m {cs} h =>
    .plain (hdigit _ (Nat.mod_lt _ (by omega))).1 (hdigit _ (Nat.mod_lt _ (by omega))).2 h
  rcases escapeCodeChar_cases c with ⟨e, -, hc⟩ | ⟨-, hc⟩ | ⟨hquote, hslash, -, -, -, hc⟩
  · rw [hc]
    exact .pair h
  · rw [hc]
    exact .pair (hplain _ (hplain _ (hplain _ (hplain _ h))))
  · rw [hc]
    exact .plain hquote hslash h

theorem isEscaped_flatMap (cs : List Char) : IsEscaped (cs.flatMap escapeCodeChar) := by
  induction cs with
  | nil => exact .nil
  | cons c cs ih => exact ih.escapeCodeChar_append c

theorem replaceChar_append (c : Char) (other as bs : List Char) :
    replaceChar c other (as ++ bs) = replaceChar c other as ++ replaceChar c other bs :=
  List.flatMap_append

theorem replaceChar_of_not_mem {other : List Char} (h : c ∉ cs) : replaceChar c other cs = cs := by
  induction cs with
  | nil => rfl
  | cons x cs ih =>
    obtain ⟨hx, hcs⟩ := not_or.1 (mt List.mem_cons.2 h)
    rw [replaceChar, List.flatMap_cons, if_neg (Ne.symm hx), ← replaceChar, ih hcs,
      List.singleton_append]

/-- The separators of a text with the escapes in their places. -/
def escapeSeparators (cs : List Char) : List Char :=
  replaceChar '\u2029' "\\u2029".toList (replaceChar '\u2028' "\\u2028".toList cs)

theorem escapeSeparators_append (as bs : List Char) :
    escapeSeparators (as ++ bs) = escapeSeparators as ++ escapeSeparators bs := by
  simp only [escapeSeparators, replaceChar_append]

theorem escapeSeparators_of_not_mem (h : '\u2028' ∉ cs) (h' : '\u2029' ∉ cs) :
    escapeSeparators cs = cs := by
  rw [escapeSeparators, replaceChar_of_not_mem h, replaceChar_of_not_mem h']

theorem escapeSeparators_escapeChar (c : Char) :
    escapeSeparators (escapeChar c) = escapeCodeChar c := by
  by_cases hfirst : c = '\u2028'
  · subst hfirst
    decide
  · by_cases hsecond : c = '\u2029'
    · subst hsecond
      decide
    · have hsame : escapeCodeChar c = escapeChar c := by simp [escapeCodeChar, hfirst, hsecond]
      rw [← hsame]
      exact escapeSeparators_of_not_mem
        (fun h => (isShown_of_mem_escapeCodeChar h).2.1 rfl)
        (fun h => (isShown_of_mem_escapeCodeChar h).2.2 rfl)

/-- A literal is the string of JSON with its separators escaped afterwards. -/
theorem toList_literal (s : String) : (literal s).toList = escapeSeparators (quote s).toList := by
  have hbody : ∀ cs : List Char,
      escapeSeparators (cs.flatMap escapeChar) = cs.flatMap escapeCodeChar := by
    intro cs
    induction cs with
    | nil => rfl
    | cons c cs ih =>
      rw [List.flatMap_cons, escapeSeparators_append, escapeSeparators_escapeChar, ih]
      rfl
  have hquote : escapeSeparators ['"'] = ['"'] := by decide
  calc (literal s).toList
      = ['"'] ++ s.toList.flatMap escapeCodeChar ++ ['"'] := String.toList_ofList
    _ = escapeSeparators ['"'] ++ escapeSeparators (s.toList.flatMap escapeChar)
          ++ escapeSeparators ['"'] := by rw [hquote, hbody]
    _ = escapeSeparators (['"'] ++ s.toList.flatMap escapeChar ++ ['"']) := by
      rw [escapeSeparators_append, escapeSeparators_append]
    _ = escapeSeparators (quote s).toList := congrArg escapeSeparators String.toList_ofList.symm

theorem codeString?_literal (s : String) (rest : List Char) :
    codeString? ((literal s).toList ++ rest) = some (codeUnits s.toList, rest) := by
  rw [literal, String.toList_ofList, quoteWith, List.append_assoc]
  exact codeBody?_flatMap s.toList rest

theorem parse?_literal (s : String) : Json.parse? (literal s) = some (.string s) := by
  have hbody := stringBody_flatMap stringBody_escapeCodeChar s.toList [] []
  have hchars : (literal s).toList = '"' :: (s.toList.flatMap escapeCodeChar ++ ['"']) :=
    String.toList_ofList
  rw [List.reverse_nil, List.nil_append] at hbody
  rw [Json.parse?, hchars, Json.value, skipSpace_cons (by decide)]
  simp [hbody, skipSpace]

theorem literal_injective : Function.Injective literal := by
  intro s s' h
  have hsame := (parse?_literal s).symm.trans (h ▸ parse?_literal s')
  exact Json.string.inj (Option.some.inj hsame)

/-- **String literals round-trip.** A literal stands between two quotes and holds no other quote but
escaped ones, no control character and no separator. It is the string of JSON in which the separators
are escaped afterwards. Whatever follows it, it is read in code up to its closing quote and as the code
units of the text, and JSON reads it as the text. So different texts have different literals. -/
theorem literal_round_trips (s : String) :
    (∃ body, (literal s).toList = '"' :: body ++ ['"'] ∧ IsEscaped body) ∧
    (∀ c ∈ (literal s).toList, 0x20 ≤ c.toNat ∧ c ≠ '\u2028' ∧ c ≠ '\u2029') ∧
    (literal s).toList = escapeSeparators (quote s).toList ∧
    (∀ rest, codeString? ((literal s).toList ++ rest) = some (codeUnits s.toList, rest)) ∧
    Json.parse? (literal s) = some (.string s) ∧
    ∀ s', literal s = literal s' ↔ s = s' := by
  refine ⟨⟨s.toList.flatMap escapeCodeChar, String.toList_ofList, isEscaped_flatMap s.toList⟩, ?_,
    toList_literal s, codeString?_literal s, parse?_literal s, fun s' => literal_injective.eq_iff⟩
  intro c hc
  exact isShown_of_mem_literal hc

/-- Backslashes before what looks like the rest of an escape, beside the characters that are escaped. -/
theorem literal_round_trips_of_backslashes :
    literal "\\u2028\u2028\\n\n" = "\"\\\\u2028\\u2028\\\\n\\n\"" ∧
      '\u2028' ∉ (literal "\\u2028\u2028\\n\n").toList ∧
      codeString? "\"\\\\u2028\\u2028\\\\n\\n\";".toList
        = some (codeUnits "\\u2028\u2028\\n\n".toList, [';']) ∧
      Json.parse? "\"\\\\u2028\\u2028\\\\n\\n\"" = some (.string "\\u2028\u2028\\n\n") ∧
      literal "\\u2028\u2028\\n\n" ≠ literal "\u2028\\u2028\n\\n" := by
  have hliteral : literal "\\u2028\u2028\\n\n" = "\"\\\\u2028\\u2028\\\\n\\n\"" := by decide
  obtain ⟨-, hshown, -, hcode, hjson, hinj⟩ := literal_round_trips "\\u2028\u2028\\n\n"
  refine ⟨hliteral, fun hmem => (hshown _ hmem).2.1 rfl, ?_, hliteral ▸ hjson,
    (hinj _).not.2 (by decide)⟩
  have hread := hcode [';']
  rw [hliteral] at hread
  exact hread

end Writing

end TextCatalog.Text
