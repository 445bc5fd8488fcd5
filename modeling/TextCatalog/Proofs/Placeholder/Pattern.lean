import Mathlib.Data.List.Basic
import TextCatalog.Placeholder.Pattern
import TextCatalog.Proofs.Text.Quoted
import TextCatalog.Text.Blank

/-!
# Reading the placeholder pattern back

A reader of regular expression literals that knows no delimiters. It tells a character that matches
itself, written as it is or by an escape, from one with a meaning of its own, and it stops at the
first slash that is not escaped. In a placeholder pattern it finds the opening delimiter, one group
and the closing delimiter.
-/

namespace TextCatalog.Text

inductive Symbol where
  /-- A character that matches itself. -/
  | exactly (c : Char)
  /-- A character of the syntax that is not escaped. -/
  | special (c : Char)
  deriving DecidableEq, Repr

/-- The characters that mean something else than themselves in a regular expression. -/
def specialChars : List Char :=
  ['^', '$', '.', '*', '+', '?', '(', ')', '[', ']', '{', '}', '|']

/-- The code points of ASCII punctuation, as closed intervals. -/
def punctuationRanges : List (Nat × Nat) :=
  [(0x21, 0x2F), (0x3A, 0x40), (0x5B, 0x60), (0x7B, 0x7E)]

/-- The character that a backslash and this character stand for. -/
def patternEscape? : Char → Option Char
  | 'n' => some '\n'
  | 'r' => some '\r'
  | 't' => some '\t'
  | c => if punctuationRanges.any fun r => r.1 ≤ c.toNat && c.toNat ≤ r.2 then some c else none

def symbolOf (c : Char) : Symbol :=
  if c ∈ specialChars then .special c else .exactly c

/-- The symbols up to the first slash that is not escaped, and what follows it. A regular expression
literal ends on its line. -/
def symbols? : List Char → Option (List Symbol × List Char)
  | [] => none
  | c :: cs =>
    if c = '/' then some ([], cs)
    else if c = '\\' then
      match cs with
      | 'u' :: h₁ :: h₂ :: h₃ :: h₄ :: rest => do
        let x ← Json.charOfCode? (← Json.hex4? h₁ h₂ h₃ h₄)
        (symbols? rest).map fun r => (.exactly x :: r.1, r.2)
      | e :: rest => do
        let x ← patternEscape? e
        (symbols? rest).map fun r => (.exactly x :: r.1, r.2)
      | [] => none
    else if isLineEnd c then none
    else (symbols? cs).map fun r => (symbolOf c :: r.1, r.2)

/-- The symbols of the regular expression literal at the start of the input, and what follows its
last slash. A second slash or a star behind the first one would begin a comment. -/
def pattern? : List Char → Option (List Symbol × List Char)
  | '/' :: cs => if cs.head? = some '/' ∨ cs.head? = some '*' then none else symbols? cs
  | _ => none

section Escapes

variable {c : Char} {rest : List Char}

theorem symbols?_escape {e : Char} (h : patternEscape? e = some c) (rest : List Char) :
    symbols? ('\\' :: e :: rest) = (symbols? rest).map fun r => (.exactly c :: r.1, r.2) := by
  have hu : e ≠ 'u' := by
    rintro rfl
    exact absurd h (by simp [patternEscape?, punctuationRanges])
  rw [symbols?, if_neg (by decide), if_pos rfl, h]
  · rfl
  · exact fun _ _ _ _ _ heq => absurd heq hu

theorem symbols?_unicodeEscape (h : c.toNat < 0x10000) (rest : List Char) :
    symbols? (unicodeEscape c.toNat ++ rest)
      = (symbols? rest).map fun r => (.exactly c :: r.1, r.2) := by
  have hcode := hex4?_hexDigit h
  rw [unicodeEscape]
  simp only [List.cons_append, List.nil_append]
  rw [symbols?, if_neg (by decide), if_pos rfl]
  simp only [hcode, charOfCode?_toNat, Option.bind_eq_bind, Option.bind_some]

theorem symbols?_cons (hslash : c ≠ '/') (hescape : c ≠ '\\') (hline : isLineEnd c = false)
    (rest : List Char) :
    symbols? (c :: rest) = (symbols? rest).map fun r => (symbolOf c :: r.1, r.2) := by
  rw [symbols?.eq_def]
  dsimp only
  rw [if_neg hslash, if_neg hescape, if_neg (by simp [hline])]

theorem symbols?_plain (hmeta : c ∉ patternMeta) (hline : isLineEnd c = false) (rest : List Char) :
    symbols? (c :: rest) = (symbols? rest).map fun r => (.exactly c :: r.1, r.2) := by
  have hnot : ∀ x ∈ patternMeta, c ≠ x := fun x hx heq => hmeta (heq ▸ hx)
  have hsubset : ∀ x ∈ specialChars, x ∈ patternMeta := by simp [specialChars, patternMeta]
  rw [symbols?_cons (hnot '/' (by decide)) (hnot '\\' (by decide)) hline, symbolOf,
    if_neg fun hmem => hmeta (hsubset c hmem)]

/-- A character is written behind a backslash, by its code or as it is. -/
theorem escapePatternChar_cases (c : Char) :
    (∃ e, patternEscape? e = some c ∧ isLineEnd e = false ∧ escapePatternChar c = ['\\', e]) ∨
      (c.toNat < 0x10000 ∧ escapePatternChar c = unicodeEscape c.toNat) ∨
      (c ∉ patternMeta ∧ isLineEnd c = false ∧ escapePatternChar c = [c]) := by
  have hmeta : ∀ c ∈ patternMeta, patternEscape? c = some c ∧ isLineEnd c = false := by
    simp [patternMeta, patternEscape?, punctuationRanges, isLineEnd]
  rw [escapePatternChar]
  split
  next h => exact .inl ⟨c, (hmeta c h).1, (hmeta c h).2, rfl⟩
  next hnot =>
    split
    next h => exact .inl ⟨'n', by rw [h]; rfl, rfl, rfl⟩
    split
    next h => exact .inl ⟨'r', by rw [h]; rfl, rfl, rfl⟩
    split
    next h => exact .inl ⟨'t', by rw [h]; rfl, rfl, rfl⟩
    split
    next hsep =>
      simp only [Bool.or_eq_true, decide_eq_true_eq] at hsep
      refine .inr (.inl ⟨?_, rfl⟩)
      rcases hsep with rfl | rfl <;> decide
    next hfeed hreturn _ hsep =>
      exact .inr (.inr ⟨hnot, by simpa [isLineEnd, hfeed, hreturn] using hsep, rfl⟩)

theorem symbols?_escapePatternChar (c : Char) (rest : List Char) :
    symbols? (escapePatternChar c ++ rest)
      = (symbols? rest).map fun r => (.exactly c :: r.1, r.2) := by
  rcases escapePatternChar_cases c with ⟨e, he, -, h⟩ | ⟨hc, h⟩ | ⟨hmeta, hline, h⟩
  · rw [h]
    exact symbols?_escape he rest
  · rw [h]
    exact symbols?_unicodeEscape hc rest
  · rw [h]
    exact symbols?_plain hmeta hline rest

/-- Text that is escaped is read as characters that match themselves. -/
theorem symbols?_flatMap (cs rest : List Char) :
    symbols? (cs.flatMap escapePatternChar ++ rest)
      = (symbols? rest).map fun r => (cs.map .exactly ++ r.1, r.2) := by
  induction cs with
  | nil => simp
  | cons c cs ih =>
    rw [List.flatMap_cons, List.append_assoc, symbols?_escapePatternChar, ih, Option.map_map]
    rfl

theorem map_exactly_injective : Function.Injective (List.map Symbol.exactly) :=
  List.map_injective_iff.2 fun _ _ h => Symbol.exactly.inj h

theorem escapePattern_injective : Function.Injective escapePattern := by
  have hread : ∀ s, symbols? ((escapePattern s).toList ++ ['/'])
      = some (s.toList.map .exactly, []) := by
    intro s
    rw [escapePattern, String.toList_ofList, symbols?_flatMap]
    simp [symbols?]
  intro s s' h
  have hsame : some (s.toList.map Symbol.exactly, []) = some (s'.toList.map Symbol.exactly, []) :=
    (hread s).symm.trans (h ▸ hread s')
  exact String.toList_inj.1 (map_exactly_injective (Prod.mk.inj (Option.some.inj hsame)).1)

theorem isLineEnd_of_mem_pair {x : Char} (hc : isLineEnd c = false) (h : x ∈ ['\\', c]) :
    isLineEnd x = false := by
  rcases List.mem_pair.1 h with rfl | rfl
  · rfl
  · exact hc

theorem isLineEnd_of_mem_escapePatternChar {x : Char} (h : x ∈ escapePatternChar c) :
    isLineEnd x = false := by
  rcases escapePatternChar_cases c with ⟨e, -, he, hc⟩ | ⟨-, hc⟩ | ⟨-, hline, hc⟩
  · rw [hc] at h
    exact isLineEnd_of_mem_pair he h
  · rw [hc] at h
    exact (isShown_of_mem_unicodeEscape h).isLineEnd
  · rw [hc, List.mem_singleton] at h
    rw [h, hline]

theorem head?_escapePatternChar (c : Char) :
    (escapePatternChar c).head? = some '\\' ∨
      c ∉ patternMeta ∧ (escapePatternChar c).head? = some c := by
  rcases escapePatternChar_cases c with ⟨e, -, -, h⟩ | ⟨-, h⟩ | ⟨hmeta, -, h⟩
  · exact .inl (by rw [h]; rfl)
  · exact .inl (by rw [h]; rfl)
  · exact .inr ⟨hmeta, by rw [h]; rfl⟩

/-- The text of a delimiter never begins a comment behind the opening slash. -/
theorem head?_flatMap_ne {m : Char} (hm : m ∈ patternMeta) (hne : m ≠ '\\' ∧ m ≠ '(')
    (cs rest : List Char) : (cs.flatMap escapePatternChar ++ '(' :: rest).head? ≠ some m := by
  cases cs with
  | nil => simpa using Ne.symm hne.2
  | cons c cs =>
    rw [List.flatMap_cons, List.append_assoc, List.head?_append]
    rcases head?_escapePatternChar c with hhead | ⟨hc, hhead⟩
    · rw [hhead]
      simpa using Ne.symm hne.1
    · rw [hhead]
      rintro heq
      obtain rfl : c = m := by simpa using heq
      exact hc hm

end Escapes

end TextCatalog.Text

namespace TextCatalog.Delimiters

open Text

/-- The group `(.+?)`. -/
def group : List Symbol :=
  [.special '(', .special '.', .special '+', .special '?', .special ')']

/-- What a placeholder pattern consists of. -/
def symbols (d : Delimiters) : List Symbol :=
  d.opening.toList.map .exactly ++ group ++ d.closing.toList.map .exactly

variable (d : Delimiters)

theorem toList_pattern :
    d.pattern.toList = '/' :: (d.opening.toList.flatMap escapePatternChar ++
      ("(.+?)".toList ++ (d.closing.toList.flatMap escapePatternChar ++ ['/', 'g']))) := by
  simp [pattern, escapePattern]

theorem symbols?_group (rest : List Char) :
    symbols? ("(.+?)".toList ++ rest) = (symbols? rest).map fun r => (group ++ r.1, r.2) := by
  have hspecial : ∀ c ∈ ['(', '.', '+', '?', ')'], ∀ rest,
      symbols? (c :: rest) = (symbols? rest).map fun r => (.special c :: r.1, r.2) := by
    intro c hc rest
    have hc' : c ≠ '/' ∧ c ≠ '\\' ∧ isLineEnd c = false ∧ symbolOf c = .special c := by
      revert c
      simp [isLineEnd, symbolOf, specialChars]
    rw [symbols?_cons hc'.1 hc'.2.1 hc'.2.2.1, hc'.2.2.2]
  change symbols? ('(' :: '.' :: '+' :: '?' :: ')' :: rest) = _
  rw [hspecial '(' (by decide), hspecial '.' (by decide), hspecial '+' (by decide),
    hspecial '?' (by decide), hspecial ')' (by decide)]
  simp only [Option.map_map]
  rfl

theorem pattern?_pattern (rest : List Char) :
    pattern? (d.pattern.toList ++ rest) = some (d.symbols, 'g' :: rest) := by
  have hend : symbols? (['/', 'g'] ++ rest) = some ([], 'g' :: rest) := rfl
  rw [toList_pattern, List.cons_append, pattern?, if_neg]
  · rw [List.append_assoc, List.append_assoc, List.append_assoc, symbols?_flatMap, symbols?_group,
      symbols?_flatMap, hend]
    simp [symbols]
  · have hslash := head?_flatMap_ne (m := '/') (by decide) (by decide) d.opening.toList
    have hstar := head?_flatMap_ne (m := '*') (by decide) (by decide) d.opening.toList
    rw [List.append_assoc, not_or]
    exact ⟨hslash _, hstar _⟩

theorem isLineEnd_of_mem_pattern {x : Char} (h : x ∈ d.pattern.toList) : isLineEnd x = false := by
  have hfixed : ∀ x ∈ '/' :: ("(.+?)".toList ++ ['/', 'g']), isLineEnd x = false := by
    simp [isLineEnd]
  have hescaped : ∀ cs : List Char, x ∈ cs.flatMap escapePatternChar → isLineEnd x = false := by
    intro cs hx
    obtain ⟨c, -, hc⟩ := List.mem_flatMap.1 hx
    exact isLineEnd_of_mem_escapePatternChar hc
  rw [toList_pattern] at h
  simp only [List.mem_cons, List.mem_append] at h hfixed
  rcases h with h | h | h | h | h
  · exact hfixed x (.inl h)
  · exact hescaped _ h
  · exact hfixed x (.inr (.inl h))
  · exact hescaped _ h
  · exact hfixed x (.inr (.inr h))

/-- The group stands where the first special character does, so it tells the delimiters apart. -/
theorem symbols_injective : Function.Injective symbols := by
  have hnot : ∀ cs : List Char, Symbol.special '(' ∉ cs.map Symbol.exactly := by simp
  intro d d' h
  simp only [symbols, group, List.append_assoc, List.cons_append, List.nil_append] at h
  obtain ⟨hopening, -, hrest⟩ := (List.append_cons_inj_of_notMem (hnot _) (by simp)).1 h
  have hclosing : d.closing.toList.map Symbol.exactly = d'.closing.toList.map Symbol.exactly := by
    simpa only [List.cons.injEq, true_and] using hrest
  cases d
  cases d'
  rw [mk.injEq]
  exact ⟨String.toList_inj.1 (map_exactly_injective hopening),
    String.toList_inj.1 (map_exactly_injective hclosing)⟩

theorem pattern_injective : Function.Injective pattern := by
  intro d d' h
  have hread := pattern?_pattern d []
  rw [h, pattern?_pattern d' []] at hread
  exact symbols_injective (Prod.mk.inj (Option.some.inj hread)).1.symm

/-- **The placeholder pattern means exactly the delimiters.** The pattern of any delimiters is one
regular expression literal on one line, whatever follows it. Read back, it is the characters of the
opening delimiter, the group `(.+?)` and the characters of the closing delimiter, up to the slash
before the flag `g`. So neither escaped texts nor patterns are ever confused. -/
theorem pattern_reads_back :
    (∀ (d : Delimiters) (rest : List Char), pattern? (d.pattern.toList ++ rest)
      = some (d.opening.toList.map .exactly ++ group ++ d.closing.toList.map .exactly, 'g' :: rest)) ∧
    (∀ d : Delimiters, ∀ c ∈ d.pattern.toList, isLineEnd c = false) ∧
    Function.Injective escapePattern ∧ Function.Injective pattern := by
  refine ⟨pattern?_pattern, ?_, escapePattern_injective, pattern_injective⟩
  intro d c hc
  exact isLineEnd_of_mem_pattern d hc

/-- A delimiter that reads like the group or like an escape is not taken for one. -/
theorem pattern_reads_back_of_group :
    pattern? (pattern ⟨"(.+?)/", "\\u2028\n"⟩).toList
        = some ("(.+?)/".toList.map .exactly ++ group ++ "\\u2028\n".toList.map .exactly, ['g']) ∧
      ∀ c ∈ (pattern ⟨"(.+?)/", "\\u2028\n"⟩).toList, isLineEnd c = false := by
  have hread := pattern_reads_back.1 ⟨"(.+?)/", "\\u2028\n"⟩ []
  rw [List.append_nil] at hread
  exact ⟨hread, pattern_reads_back.2.1 _⟩

end TextCatalog.Delimiters
