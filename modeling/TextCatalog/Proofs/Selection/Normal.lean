import Mathlib.Data.List.Forall2
import Mathlib.Logic.Relation
import TextCatalog.Artifact.VirtualModule
import TextCatalog.Proofs.Text.Strip

/-!
# Normal forms of patterns

The normal form of a pattern has no mark of the root before it, and normalizing it again leaves it as it
is. White space behind the marks belongs to a name, and it is taken for white space around the pattern
when the marks are gone. So a pattern may be spelled with more marks of the root and selects the same.
-/

namespace TextCatalog

namespace Pattern

/-- Whether the pattern starts with white space. -/
def startsBlank (pattern : String) : Bool :=
  pattern.toList.head?.any Text.isBlank

/-- The second pattern is the first one with a mark of the root before it. The mark makes no second slash
at the start and does not shut in white space. -/
inductive IsMarked : String → String → Prop
  | slash {pattern : String} (hblank : startsBlank pattern = false)
      (hslash : Text.startsWith "/" pattern = false) : IsMarked pattern ("/" ++ pattern)
  | here {pattern : String} (hblank : startsBlank pattern = false)
      (hslashes : Text.startsWith "//" pattern = false) : IsMarked pattern ("./" ++ pattern)

/-- Nothing but marks of the root that a pattern may have after its one slash: any number of `./`, each with
any number of slashes after it. -/
inductive AreMarks : List Char → Prop
  | nil : AreMarks []
  | here {rest : List Char} : AreMarks rest → AreMarks ('.' :: '/' :: rest)
  | slash {rest : List Char} : AreMarks ('.' :: '/' :: rest) → AreMarks ('.' :: '/' :: '/' :: rest)

/-- The pattern has no name in it, only marks of the root and white space around them. -/
def IsBare (pattern : String) : Prop :=
  AreMarks (Text.trimChars pattern.toList) ∨
    ∃ cs, Text.trimChars pattern.toList = '/' :: cs ∧ AreMarks cs

section Marks

variable {s : String}

theorem startsWith_slash_eq_false_iff :
    Text.startsWith "/" s = false ↔ ∀ rest, s.toList ≠ '/' :: rest := by
  simp [Text.startsWith_eq_false_iff]

theorem startsWith_slashes_eq_false_iff :
    Text.startsWith "//" s = false ↔ ∀ rest, s.toList ≠ '/' :: '/' :: rest := by
  simp [Text.startsWith_eq_false_iff]

theorem startsWith_here_eq_false_iff :
    Text.startsWith "./" s = false ↔ ∀ rest, s.toList ≠ '.' :: '/' :: rest := by
  simp [Text.startsWith_eq_false_iff]

end Marks

section Here

variable {cs : List Char}

theorem dropSlashes_ne (cs rest : List Char) :
    dropHere.dropSlashes cs ≠ '/' :: rest ∧ dropHere.dropSlashes cs ≠ '.' :: '/' :: rest := by
  fun_induction dropHere.dropSlashes cs with
  | case1 cs ih => exact ih
  | case2 cs ih => exact ih
  | case3 cs hslash hhere => exact ⟨hslash rest, hhere rest⟩

theorem dropSlashes_suffix (cs : List Char) : dropHere.dropSlashes cs <:+ cs := by
  fun_induction dropHere.dropSlashes cs with
  | case1 cs ih => exact ih.trans (List.suffix_cons _ _)
  | case2 cs ih => exact (ih.trans (List.suffix_cons _ _)).trans (List.suffix_cons _ _)
  | case3 cs => exact List.suffix_rfl

theorem dropHere_ne (cs rest : List Char) : dropHere cs ≠ '.' :: '/' :: rest := by
  fun_cases dropHere cs with
  | case1 cs => exact (dropSlashes_ne cs rest).2
  | case2 cs hhere => exact hhere rest

theorem dropHere_suffix (cs : List Char) : dropHere cs <:+ cs := by
  fun_cases dropHere cs with
  | case1 cs =>
    exact ((dropSlashes_suffix cs).trans (List.suffix_cons _ _)).trans (List.suffix_cons _ _)
  | case2 cs => exact List.suffix_rfl

theorem dropHere_of_ne (h : ∀ rest, cs ≠ '.' :: '/' :: rest) : dropHere cs = cs := by
  rw [dropHere]
  exact h

/-- Where no slash comes first, the marks are dropped as at the start of a pattern. -/
theorem dropSlashes_eq_dropHere (h : ∀ rest, cs ≠ '/' :: rest) :
    dropHere.dropSlashes cs = dropHere cs := by
  fun_cases dropHere cs with
  | case1 cs => rw [dropHere.dropSlashes]
  | case2 cs hhere =>
    rw [dropHere.dropSlashes]
    · exact h
    · exact hhere

theorem dropHere_ne_slash (h : ∀ rest, cs ≠ '/' :: rest) (rest : List Char) :
    dropHere cs ≠ '/' :: rest := by
  rw [← dropSlashes_eq_dropHere h]
  exact (dropSlashes_ne cs rest).1

theorem dropSlashes_eq_nil_iff (cs : List Char) :
    dropHere.dropSlashes cs = [] ↔ AreMarks ('.' :: '/' :: cs) := by
  fun_induction dropHere.dropSlashes cs with
  | case1 rest ih =>
    rw [ih]
    refine ⟨.slash, fun h => ?_⟩
    cases h with
    | here h => cases h
    | slash h => exact h
  | case2 rest ih =>
    rw [ih]
    refine ⟨.here, fun h => ?_⟩
    cases h with
    | here h => exact h
  | case3 cs hslash hhere =>
    constructor
    · rintro rfl
      exact .here .nil
    · intro h
      cases h with
      | here h =>
        cases h with
        | nil => rfl
        | here => exact absurd rfl (hhere _)
        | slash => exact absurd rfl (hhere _)
      | slash => exact absurd rfl (hslash _)

theorem dropHere_eq_nil_iff (cs : List Char) : dropHere cs = [] ↔ AreMarks cs := by
  fun_cases dropHere cs with
  | case1 rest => exact dropSlashes_eq_nil_iff rest
  | case2 cs hhere =>
    constructor
    · rintro rfl
      exact .nil
    · intro h
      cases h with
      | nil => rfl
      | here => exact absurd rfl (hhere _)
      | slash => exact absurd rfl (hhere _)

end Here

section Trimmed

variable {pattern : String} {cs : List Char}

theorem startsBlank_eq_false_iff :
    startsBlank pattern = false ↔ ∀ c ∈ pattern.toList.head?, Text.isBlank c = false := by
  cases h : pattern.toList.head? <;> simp [startsBlank, h]

theorem toList_normalize_of_slash (h : Text.trimChars pattern.toList = '/' :: cs) :
    (normalize pattern).toList = dropHere cs := by
  simp [normalize, h, Text.restAfter?]

theorem toList_normalize_of_ne (h : ∀ cs, Text.trimChars pattern.toList ≠ '/' :: cs) :
    (normalize pattern).toList = dropHere (Text.trimChars pattern.toList) := by
  have hnone : Text.restAfter? ['/'] (Text.trimChars pattern.toList) = none := by
    refine Option.eq_none_iff_forall_ne_some.2 fun rest hrest => ?_
    exact h rest (Text.restAfter?_eq_some_iff.1 hrest)
  rw [normalize, hnone, Option.getD_none, String.toList_ofList]

theorem toList_normalize_cases (pattern : String) :
    (∃ cs, Text.trimChars pattern.toList = '/' :: cs ∧ (normalize pattern).toList = dropHere cs) ∨
      (∀ cs, Text.trimChars pattern.toList ≠ '/' :: cs) ∧
        (normalize pattern).toList = dropHere (Text.trimChars pattern.toList) := by
  by_cases h : ∃ cs, Text.trimChars pattern.toList = '/' :: cs
  · obtain ⟨cs, hcs⟩ := h
    exact .inl ⟨cs, hcs, toList_normalize_of_slash hcs⟩
  · have hne := not_exists.1 h
    exact .inr ⟨hne, toList_normalize_of_ne hne⟩

/-- Nothing is left of a pattern that has no name in it. -/
theorem normalize_eq_empty_iff : normalize pattern = "" ↔ IsBare pattern := by
  rw [← String.toList_eq_nil_iff, IsBare]
  rcases toList_normalize_cases pattern with ⟨cs, htrim, hnormal⟩ | ⟨hne, hnormal⟩
  · rw [hnormal, dropHere_eq_nil_iff, htrim]
    constructor
    · exact fun h => .inr ⟨cs, rfl, h⟩
    · rintro (h | ⟨cs', heq, h⟩)
      · cases h
      · rwa [(List.cons.inj heq).2]
  · rw [hnormal, dropHere_eq_nil_iff]
    exact ⟨.inl, fun h => h.resolve_right fun ⟨cs, hcs, _⟩ => hne cs hcs⟩

theorem IsBare.of_isBlankText (h : Text.isBlankText pattern = true) : IsBare pattern := by
  have hdropped : pattern.toList.dropWhile Text.isBlank = [] :=
    List.dropWhile_eq_nil_iff.2 (List.all_eq_true.1 h)
  have htrim : Text.trimChars pattern.toList = [] := by
    rw [Text.trimChars, hdropped]
    rfl
  exact .inl (htrim ▸ .nil)

theorem normalize_suffix (pattern : String) :
    (normalize pattern).toList <:+ Text.trimChars pattern.toList := by
  rcases toList_normalize_cases pattern with ⟨cs, htrim, hnormal⟩ | ⟨-, hnormal⟩
  · rw [hnormal, htrim]
    exact (dropHere_suffix cs).trans (List.suffix_cons _ _)
  · rw [hnormal]
    exact dropHere_suffix _

theorem startsWith_here_normalize (pattern : String) :
    Text.startsWith "./" (normalize pattern) = false := by
  refine startsWith_here_eq_false_iff.2 fun rest => ?_
  rcases toList_normalize_cases pattern with ⟨cs, -, hnormal⟩ | ⟨-, hnormal⟩ <;>
    exact hnormal ▸ dropHere_ne _ rest

theorem startsWith_slash_normalize (h : Text.startsWith "//" (Text.trim pattern) = false) :
    Text.startsWith "/" (normalize pattern) = false := by
  refine startsWith_slash_eq_false_iff.2 fun rest => ?_
  rcases toList_normalize_cases pattern with ⟨cs, htrim, hnormal⟩ | ⟨hne, hnormal⟩
  · have hslash : ∀ rest, cs ≠ '/' :: rest := by
      rintro rest rfl
      refine startsWith_slashes_eq_false_iff.1 h rest ?_
      rw [Text.trim, String.toList_ofList, htrim]
    exact hnormal ▸ dropHere_ne_slash hslash rest
  · exact hnormal ▸ dropHere_ne_slash hne rest

/-- Without a mark of the root and white space before it, a normal form is its own. -/
theorem normalize_normalize_iff (h : Text.startsWith "//" (Text.trim pattern) = false) :
    normalize (normalize pattern) = normalize pattern ↔ startsBlank (normalize pattern) = false := by
  have hslash := startsWith_slash_eq_false_iff.1 (startsWith_slash_normalize h)
  have hhere := startsWith_here_eq_false_iff.1 (startsWith_here_normalize pattern)
  have hsuffix := normalize_suffix pattern
  obtain ⟨-, -, -, -, -, -, hlast⟩ := Text.exists_stripBy Text.isBlank pattern.toList
  generalize normalize pattern = normal at *
  rw [startsBlank_eq_false_iff]
  constructor
  · intro hfixed
    -- Nothing has been stripped, since the whole text is left.
    obtain ⟨front, back, htext, -, -, hhead, -⟩ := Text.exists_stripBy Text.isBlank normal.toList
    have hlength := (hfixed ▸ normalize_suffix normal : normal.toList <:+ _).length_le
    rw [Text.trimChars_eq_stripBy] at hlength
    have hsame : Text.stripBy Text.isBlank normal.toList = normal.toList := by
      have htotal := congrArg List.length htext
      rw [List.length_append, List.length_append] at htotal
      obtain rfl : front = [] := List.eq_nil_of_length_eq_zero (by omega)
      obtain rfl : back = [] := List.eq_nil_of_length_eq_zero (by simp at htotal; omega)
      simpa using htext.symm
    rwa [hsame] at hhead
  · intro hhead
    have hlast' : ∀ c ∈ normal.toList.getLast?, Text.isBlank c = false := by
      intro c hc
      refine hlast c ?_
      obtain ⟨lead, hlead⟩ := hsuffix
      rw [← Text.trimChars_eq_stripBy, ← hlead, List.getLast?_append, Option.mem_def.1 hc]
      rfl
    have htrim : Text.trimChars normal.toList = normal.toList := by
      have hstrip : Text.stripBy Text.isBlank ([] ++ normal.toList ++ []) = normal.toList :=
        Text.stripBy_eq (by simp) (by simp) hhead hlast'
      simpa [Text.trimChars_eq_stripBy] using hstrip
    apply String.toList_inj.1
    rw [toList_normalize_of_ne (htrim.symm ▸ hslash), htrim, dropHere_of_ne hhere]

end Trimmed

section Marked

variable {pattern marked : String}

theorem dropTrailing_cons {c : Char} (hc : Text.isBlank c = false) (cs : List Char) :
    Text.dropTrailing Text.isBlank (c :: cs) = c :: Text.dropTrailing Text.isBlank cs := by
  have happend : Text.dropTrailing Text.isBlank ([c] ++ cs) = [c] ++ Text.dropTrailing Text.isBlank cs :=
    Text.dropTrailing_append fun _ => by simpa using hc
  exact happend

theorem trimChars_of_head {cs : List Char} (h : ∀ c ∈ cs.head?, Text.isBlank c = false) :
    Text.trimChars cs = Text.dropTrailing Text.isBlank cs := by
  rw [Text.trimChars, Text.dropWhile_of_head h]

theorem dropTrailing_prefix (p : Char → Bool) (cs : List Char) : Text.dropTrailing p cs <+: cs := by
  rw [Text.dropTrailing, ← List.reverse_suffix, List.reverse_reverse]
  exact List.dropWhile_suffix p

/-- A mark of the root makes no difference. -/
theorem IsMarked.normalize_eq (h : IsMarked pattern marked) : normalize marked = normalize pattern := by
  obtain ⟨more, hmore⟩ := dropTrailing_prefix Text.isBlank pattern.toList
  have hdot : Text.isBlank '.' = false := by decide
  have hmark : Text.isBlank '/' = false := by decide
  apply String.toList_inj.1
  cases h with
  | slash hblank hslash =>
    have htrim := trimChars_of_head (startsBlank_eq_false_iff.1 hblank)
    have hmarked : Text.trimChars ("/" ++ pattern).toList
        = '/' :: Text.dropTrailing Text.isBlank pattern.toList := by
      rw [String.toList_append, ← dropTrailing_cons hmark]
      exact trimChars_of_head (by simpa using hmark)
    have hne : ∀ cs, Text.trimChars pattern.toList ≠ '/' :: cs := by
      intro cs hcs
      rw [← htrim, hcs] at hmore
      exact startsWith_slash_eq_false_iff.1 hslash _ hmore.symm
    rw [toList_normalize_of_slash hmarked, toList_normalize_of_ne hne, htrim]
  | here hblank hslashes =>
    have htrim := trimChars_of_head (startsBlank_eq_false_iff.1 hblank)
    have hmarked : Text.trimChars ("./" ++ pattern).toList
        = '.' :: '/' :: Text.dropTrailing Text.isBlank pattern.toList := by
      rw [String.toList_append, ← dropTrailing_cons hmark, ← dropTrailing_cons hdot]
      exact trimChars_of_head (by simpa using hdot)
    rw [toList_normalize_of_ne fun cs => by rw [hmarked]; simp, hmarked, ← htrim, dropHere]
    rcases toList_normalize_cases pattern with ⟨cs, hcs, hnormal⟩ | ⟨hne, hnormal⟩
    · -- The one slash of the pattern comes behind the mark now.
      have hslash : ∀ rest, cs ≠ '/' :: rest := by
        rintro rest rfl
        rw [← htrim, hcs] at hmore
        exact startsWith_slashes_eq_false_iff.1 hslashes _ hmore.symm
      rw [hnormal, hcs, dropHere.dropSlashes, dropSlashes_eq_dropHere hslash]
    · rw [hnormal, dropSlashes_eq_dropHere hne]

theorem normalize_eq_of_eqvGen (h : Relation.EqvGen IsMarked pattern marked) :
    normalize pattern = normalize marked := by
  induction h with
  | rel _ _ h => exact h.normalize_eq.symm
  | refl => rfl
  | symm _ _ _ ih => exact ih.symm
  | trans _ _ _ _ _ ih ih' => exact ih.trans ih'

end Marked

section Lists

variable {patterns patterns' : List String} {q : String}

theorem mem_normalizeAll_iff :
    q ∈ normalizeAll patterns ↔ (∃ pattern ∈ patterns, normalize pattern = q) ∧ q ≠ "" := by
  simp [normalizeAll]

theorem normalizeAll_eq_nil_iff : normalizeAll patterns = [] ↔ ∀ pattern ∈ patterns, IsBare pattern := by
  simp [normalizeAll, normalize_eq_empty_iff]

theorem normalizeAll_eq_self_iff (hne : "" ∉ patterns) :
    normalizeAll patterns = patterns ↔ ∀ pattern ∈ patterns, normalize pattern = pattern := by
  have hmap : patterns.map normalize = patterns ↔ ∀ pattern ∈ patterns, normalize pattern = pattern := by
    simpa using List.map_inj_left (f := normalize) (g := id) (l := patterns)
  rw [← hmap, normalizeAll]
  constructor
  · intro hall
    have hlength : ((patterns.map normalize).filter (· ≠ "")).length = (patterns.map normalize).length := by
      rw [hall, List.length_map]
    rw [← List.filter_sublist.eq_of_length hlength, hall]
  · intro hall
    rw [hall, List.filter_eq_self]
    intro pattern hpattern
    simpa using ne_of_mem_of_not_mem hpattern hne

theorem normalizeAll_eq_of_forall₂ (h : List.Forall₂ (Relation.EqvGen IsMarked) patterns patterns') :
    normalizeAll patterns = normalizeAll patterns' := by
  have hmap : patterns.map normalize = patterns'.map normalize := by
    induction h with
    | nil => rfl
    | cons hfirst _ ih => rw [List.map_cons, List.map_cons, normalize_eq_of_eqvGen hfirst, ih]
  rw [normalizeAll, normalizeAll, hmap]

/-- No pattern that is yielded has a mark of the root, and all of them are normal unless white space has
been left at the start of one. Patterns that are spelled with other marks of the root yield the same, so
that the same files are selected and a virtual module has the same patterns. -/
theorem normalizeAll_reaches_normal (patterns excluded : List String) :
    (∀ q ∈ normalizeAll patterns, q ≠ "" ∧ Text.startsWith "./" q = false) ∧
    ((∀ pattern ∈ patterns, Text.startsWith "//" (Text.trim pattern) = false) →
      (∀ q ∈ normalizeAll patterns, Text.startsWith "/" q = false) ∧
      (normalizeAll (normalizeAll patterns) = normalizeAll patterns ↔
        ∀ q ∈ normalizeAll patterns, startsBlank q = false)) ∧
    (∀ pattern marked, IsMarked pattern marked → normalize marked = normalize pattern) ∧
    ∀ patterns' excluded', List.Forall₂ (Relation.EqvGen IsMarked) patterns patterns' →
      List.Forall₂ (Relation.EqvGen IsMarked) excluded excluded' →
      Selection.compile patterns excluded = Selection.compile patterns' excluded' ∧
      ∀ strip, (Artifact.VirtualModule.Source.mk patterns excluded strip).globPatterns
        = (Artifact.VirtualModule.Source.mk patterns' excluded' strip).globPatterns := by
  refine ⟨fun q hq => ?_, fun hslashes => ⟨fun q hq => ?_, ?_⟩, fun _ _ h => h.normalize_eq, ?_⟩
  · obtain ⟨⟨pattern, -, rfl⟩, hne⟩ := mem_normalizeAll_iff.1 hq
    exact ⟨hne, startsWith_here_normalize pattern⟩
  · obtain ⟨⟨pattern, hpattern, rfl⟩, -⟩ := mem_normalizeAll_iff.1 hq
    exact startsWith_slash_normalize (hslashes pattern hpattern)
  · rw [normalizeAll_eq_self_iff fun hmem => (mem_normalizeAll_iff.1 hmem).2 rfl]
    refine forall₂_congr fun q hq => ?_
    obtain ⟨⟨pattern, hpattern, rfl⟩, -⟩ := mem_normalizeAll_iff.1 hq
    exact normalize_normalize_iff (hslashes pattern hpattern)
  · intro patterns' excluded' hpatterns hexcluded
    have hincludes := normalizeAll_eq_of_forall₂ hpatterns
    have hexcludes := normalizeAll_eq_of_forall₂ hexcluded
    constructor
    · rw [Selection.compile, Selection.compile, hincludes, hexcludes]
    · intro strip
      rw [Artifact.VirtualModule.Source.globPatterns, Artifact.VirtualModule.Source.globPatterns,
        hincludes, hexcludes]

end Lists

section Sample

theorem normalizeAll_reaches_normal_of_marks :
    (∀ pattern ∈ ["/./b c.md ", "  "], Text.startsWith "//" (Text.trim pattern) = false) ∧
      normalizeAll (normalizeAll ["/./b c.md ", "  "]) = normalizeAll ["/./b c.md ", "  "] ∧
      IsMarked "./b c.md " "/./b c.md " ∧ IsMarked "b c.md " "./b c.md " ∧
      Selection.compile ["/./b c.md ", "  "] [] = Selection.compile ["b c.md ", "  "] [] := by
  have hslashes : ∀ pattern ∈ ["/./b c.md ", "  "], Text.startsWith "//" (Text.trim pattern) = false := by
    decide +kernel
  have hslash : IsMarked "./b c.md " "/./b c.md " := .slash (by decide) (by decide)
  have hhere : IsMarked "b c.md " "./b c.md " := .here (by decide) (by decide)
  have hspelled : Relation.EqvGen IsMarked "/./b c.md " "b c.md " :=
    .symm _ _ (.trans _ _ _ (.rel _ _ hhere) (.rel _ _ hslash))
  obtain ⟨-, hnormal, -, hsame⟩ := normalizeAll_reaches_normal ["/./b c.md ", "  "] []
  refine ⟨hslashes, (hnormal hslashes).2.2 (by decide +kernel), hslash, hhere, ?_⟩
  exact (hsame ["b c.md ", "  "] [] (.cons hspelled (.cons (.refl _) .nil)) .nil).1

/-- White space behind a mark of the root is taken off the second time, and of two slashes one is left the
first time. -/
theorem normalizeAll_again_of_marks :
    normalizeAll ["/ a.md"] = [" a.md"] ∧ normalizeAll (normalizeAll ["/ a.md"]) = ["a.md"] ∧
      normalizeAll ["/" ++ "/a.md"] = ["/a.md"] ∧ normalizeAll ["/a.md"] = ["a.md"] := by decide +kernel

end Sample

end Pattern

end TextCatalog
