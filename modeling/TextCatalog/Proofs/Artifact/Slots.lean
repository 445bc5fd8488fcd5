import TextCatalog.Artifact.VirtualModule
import TextCatalog.Proofs.Artifact.Reading
import TextCatalog.Proofs.Placeholder.Pattern

/-!
# The slots of a virtual module

A virtual module is a fixed text with three slots: the array of patterns, the prefix and the
placeholder pattern. Each slot is an expression that is read without knowing what made it, and its
reader stops where the fixed text goes on, whatever that is.
-/

namespace TextCatalog.Artifact

open Text

/-- The array of string literals at the start of the input, and what follows its bracket. -/
def array? : List Char → Option (List String × List Char)
  | '[' :: ']' :: rest => some ([], rest)
  | '[' :: cs => do
    let (items, rest) ← literals? ", ".toList cs
    return (items, ← restAfter? "]".toList rest)
  | _ => none

/-- The word `null` or the string literal at the start of the input, and what follows it. -/
def nullable? (cs : List Char) : Option (Option String × List Char) :=
  match restAfter? "null".toList cs with
  | some rest => some (none, rest)
  | none => (literal? cs).map fun r => (some r.1, r.2)

/-- The reader takes the text off any input that it starts, and finds `a` in it. -/
def Reads {α : Type} (read : List Char → Option (α × List Char)) (s : String) (a : α) : Prop :=
  ∀ rest, read (s.toList ++ rest) = some (a, rest)

/-- No character ends a line of source text. -/
def IsOneLine (s : String) : Prop :=
  ∀ c ∈ s.toList, isLineEnd c = false

section OneLine

theorem IsOneLine.append {s t : String} (hs : IsOneLine s) (ht : IsOneLine t) :
    IsOneLine (s ++ t) := by
  intro c hc
  rw [String.toList_append] at hc
  exact (List.mem_append.1 hc).elim (hs c) (ht c)

theorem IsOneLine.intercalate {sep : String} {items : List String} (hsep : IsOneLine sep)
    (hitems : ∀ s ∈ items, IsOneLine s) : IsOneLine (String.intercalate sep items) := by
  intro c hc
  rcases mem_of_mem_intercalate hc with h | ⟨s, hs, h⟩
  · exact hsep c h
  · exact hitems s hs c h

theorem isOneLine_literal (s : String) : IsOneLine (literal s) := fun _ hc =>
  isLineEnd_of_mem_literal hc

end OneLine

section Expressions

theorem reads_array? (items : List String) :
    Reads array? ("[" ++ String.intercalate ", " (items.map literal) ++ "]") items := by
  intro rest
  cases items with
  | nil => rfl
  | cons s items =>
    have hclose : restAfter? ", ".toList (']' :: rest) = none := rfl
    have hread := literals?_intercalate hclose (List.cons_ne_nil s items)
    have hchars : ("[" ++ String.intercalate ", " ((s :: items).map literal) ++ "]").toList ++ rest
        = '[' :: ((String.intercalate ", " ((s :: items).map literal)).toList ++ ']' :: rest) := by
      simp
    have hquote : ∃ tail,
        (String.intercalate ", " ((s :: items).map literal)).toList = '"' :: tail := by
      cases items <;> simp [literal, quoteWith]
    obtain ⟨tail, htail⟩ := hquote
    rw [hchars, array?, hread]
    · rfl
    · rw [htail]
      simp

theorem reads_nullable? (value : Option String) :
    Reads nullable? ((value.map literal).getD "null") value := by
  intro rest
  cases value with
  | none => rfl
  | some s =>
    have hquote : restAfter? "null".toList ((literal s).toList ++ rest) = none := by
      simp [literal, quoteWith, restAfter?]
    rw [Option.map_some, Option.getD_some, nullable?, hquote, literal?_literal]
    rfl

theorem literal_ne_null (s : String) : literal s ≠ "null" := by
  intro h
  simpa [literal, quoteWith] using congrArg String.toList h

/-- Where two texts go on the same way, so do the rests behind what is read. -/
theorem Reads.of_append_eq {α : Type} {read : List Char → Option (α × List Char)} {s t : String}
    {a b : α} {rest rest' : List Char} (hs : Reads read s a) (ht : Reads read t b)
    (h : s.toList ++ rest = t.toList ++ rest') : a = b ∧ rest = rest' := by
  have hsame : some (a, rest) = some (b, rest') :=
    calc some (a, rest)
      _ = read (s.toList ++ rest) := (hs rest).symm
      _ = read (t.toList ++ rest') := by rw [h]
      _ = some (b, rest') := ht rest'
  exact Prod.mk.inj (Option.some.inj hsame)

end Expressions

namespace VirtualModule

/-- The three expressions that virtual modules differ in. -/
structure Slots where
  patterns : String
  stripPrefix : String
  placeholder : String

def slots (s : Source) (d : Delimiters) : Slots :=
  ⟨"[" ++ String.intercalate ", " (s.globPatterns.map literal) ++ "]",
   (s.stripPrefix.map literal).getD "null", d.pattern⟩

def beforePatterns : String :=
  unlines ([header] ++ preamble) ++ "  import.meta.glob("

def beforePrefix : String :=
  ", \x7b\n" ++ unlines afterPatterns ++ "const STRIP_PREFIX = "

def beforePlaceholder : String :=
  ";\n" ++ unlines afterPrefix ++ "const PLACEHOLDER = "

def afterPlaceholder : String :=
  ";\n" ++ unlines reader

/-- The fixed text with the slots in it. -/
def Slots.text (x : Slots) : String :=
  beforePatterns ++ x.patterns ++ beforePrefix ++ x.stripPrefix ++ beforePlaceholder ++
    x.placeholder ++ afterPlaceholder

variable (s : Source) (d : Delimiters)

theorem unlines_patternsLine : unlines [patternsLine s.globPatterns]
    = "  import.meta.glob(" ++ (slots s d).patterns ++ ", \x7b\n" := by
  have hopen : "  import.meta.glob([" = "  import.meta.glob(" ++ "[" := by decide
  have hclose : "], \x7b" ++ "\n" = "]" ++ ", \x7b\n" := by decide
  unfold patternsLine slots
  rw [hopen, unlines_singleton]
  simp only [String.append_assoc, hclose]

theorem render_eq_text : render s d = (slots s d).text := by
  have hend : ";" ++ "\n" = ";\n" := by decide
  unfold render lines Slots.text beforePatterns beforePrefix beforePlaceholder afterPlaceholder
  simp only [unlines_append, unlines_patternsLine s d, unlines_singleton (prefixLine _),
    unlines_singleton (patternLine _)]
  unfold prefixLine patternLine
  simp only [String.append_assoc, hend]
  rfl

theorem isOneLine_slots :
    IsOneLine (slots s d).patterns ∧ IsOneLine (slots s d).stripPrefix ∧
      IsOneLine (slots s d).placeholder := by
  refine ⟨?_, ?_, fun c hc => d.isLineEnd_of_mem_pattern hc⟩
  · have hitems : ∀ item ∈ s.globPatterns.map literal, IsOneLine item := by
      intro item hitem
      obtain ⟨pattern, -, rfl⟩ := List.mem_map.1 hitem
      exact isOneLine_literal pattern
    have hopen : IsOneLine "[" := by simp [IsOneLine, isLineEnd]
    have hcomma : IsOneLine ", " := by simp [IsOneLine, isLineEnd]
    have hclose : IsOneLine "]" := by simp [IsOneLine, isLineEnd]
    exact (hopen.append (.intercalate hcomma hitems)).append hclose
  · rw [slots]
    cases s.stripPrefix with
    | none => simp [IsOneLine, isLineEnd]
    | some value => exact isOneLine_literal value

theorem stripPrefix_eq_null_iff : (slots s d).stripPrefix = "null" ↔ s.stripPrefix = none := by
  rw [slots]
  cases s.stripPrefix with
  | none => simp
  | some value => simp [literal_ne_null]

theorem toList_text (x : Slots) : x.text.toList
    = beforePatterns.toList ++ (x.patterns.toList ++ (beforePrefix.toList ++
      (x.stripPrefix.toList ++ (beforePlaceholder.toList ++
        (x.placeholder.toList ++ afterPlaceholder.toList))))) := by
  simp only [Slots.text, String.toList_append, List.append_assoc]

theorem render_eq_iff {s s' : Source} {d d' : Delimiters} : render s d = render s' d' ↔
    s.globPatterns = s'.globPatterns ∧ s.stripPrefix = s'.stripPrefix ∧ d = d' := by
  constructor
  · intro h
    have hchars := congrArg String.toList h
    rw [render_eq_text, render_eq_text, toList_text, toList_text] at hchars
    -- Slot by slot, what is read is the same and so is what follows.
    obtain ⟨hpatterns, hrest⟩ := Reads.of_append_eq (reads_array? s.globPatterns)
      (reads_array? s'.globPatterns) (List.append_cancel_left hchars)
    obtain ⟨hstrip, hrest⟩ := Reads.of_append_eq (reads_nullable? s.stripPrefix)
      (reads_nullable? s'.stripPrefix) (List.append_cancel_left hrest)
    have hplaceholder := List.append_cancel_right (List.append_cancel_left hrest)
    exact ⟨hpatterns, hstrip, Delimiters.pattern_injective (String.toList_inj.1 hplaceholder)⟩
  · rintro ⟨hpatterns, hstrip, rfl⟩
    rw [render_eq_text, render_eq_text, slots, slots, hpatterns, hstrip]

/-- **The virtual module carries its inputs unchanged.** Modules differ in three slots only, which
are parts of one line. Whatever follows a slot, its reader stops at the end of it and finds the
patterns from the root, the prefix if there is one, and the delimiters; the word `null` stands for no
prefix and for nothing else. So equal modules are made from equal patterns, prefixes and
delimiters. -/
theorem render_reads_back :
    render s d = (slots s d).text ∧
    (IsOneLine (slots s d).patterns ∧ IsOneLine (slots s d).stripPrefix ∧
      IsOneLine (slots s d).placeholder) ∧
    Reads array? (slots s d).patterns ((Pattern.normalizeAll s.included).map ("/" ++ ·) ++
      (Pattern.normalizeAll s.excluded).map ("!/" ++ ·)) ∧
    ((slots s d).stripPrefix = "null" ↔ s.stripPrefix = none) ∧
    Reads nullable? (slots s d).stripPrefix s.stripPrefix ∧
    (slots s d).placeholder = d.pattern ∧
    (∀ rest, pattern? (d.pattern.toList ++ rest) = some (d.symbols, 'g' :: rest)) ∧
    ∀ s' d', render s d = render s' d' ↔
      s.globPatterns = s'.globPatterns ∧ s.stripPrefix = s'.stripPrefix ∧ d = d' :=
  ⟨render_eq_text s d, isOneLine_slots s d, reads_array? s.globPatterns,
    stripPrefix_eq_null_iff s d, reads_nullable? s.stripPrefix, rfl, d.pattern?_pattern,
    fun _ _ => render_eq_iff⟩

/-- Patterns that look like the end of the array, and a prefix that looks like none. -/
theorem render_reads_back_of_brackets :
    let s : Source := ⟨["./a\"], \x7b", " /b\u2028\", \"c "], ["null"], some "null"⟩
    Reads array? (slots s .standard).patterns ["/a\"], \x7b", "/b\u2028\", \"c", "!/null"] ∧
      (slots s .standard).stripPrefix ≠ "null" ∧
      Reads nullable? (slots s .standard).stripPrefix (some "null") := by
  intro s
  have hreads := render_reads_back s .standard
  have hpatterns : (Pattern.normalizeAll s.included).map ("/" ++ ·) ++
      (Pattern.normalizeAll s.excluded).map ("!/" ++ ·)
        = ["/a\"], \x7b", "/b\u2028\", \"c", "!/null"] := by
    decide +kernel
  have hsome : s.stripPrefix ≠ none := by decide
  exact ⟨hpatterns ▸ hreads.2.2.1, hreads.2.2.2.1.not.2 hsome, hreads.2.2.2.2.1⟩

end VirtualModule

end TextCatalog.Artifact
