import TextCatalog.Proofs.Artifact.Reading

/-!
# The blocks of the artifacts of code

Every entry takes one line of each block. No text of an entry can end its line, close its block or
open another one: the line has no line feed, and it begins with the space and the quote that no line
around a block begins with.
-/

namespace TextCatalog.Artifact

open Text

/-- One line that begins as the lines of entries do. -/
structure IsEntryLine (l : String) : Prop where
  newline_not_mem : '\n' ∉ l.toList
  starts : startsWith "  \"" l = true

section Lines

variable (o : Options) (e : Entry)

theorem newline_not_mem_union (names : List String) : '\n' ∉ (union names).toList := by
  rw [union]
  split
  · decide
  · intro h
    rcases mem_of_mem_intercalate h with hbar | ⟨_, hname, hmem⟩
    · exact absurd hbar (by decide)
    · obtain ⟨name, -, rfl⟩ := List.mem_map.1 hname
      exact newline_not_mem_literal name hmem

theorem newline_not_mem_contentType : '\n' ∉ (Item.ofEntry o e).contentType.toList := by
  by_cases hshort : isShort o e.content = true
  · simp [Item.ofEntry, hshort, newline_not_mem_literal]
  · simp [Item.ofEntry, hshort]

theorem isEntryLine_append (key : String) {tail : String} (htail : '\n' ∉ tail.toList) :
    IsEntryLine ("  " ++ literal key ++ ": " ++ tail) := by
  constructor
  · simp [newline_not_mem_literal, htail]
  · simp [startsWith, literal, quoteWith, restAfter?]

theorem isEntryLine_contentLine : IsEntryLine (Module.contentLine (.ofEntry o e)) := by
  have htail : '\n' ∉ ((Item.ofEntry o e).contentType ++ ";").toList := by
    simp [newline_not_mem_contentType]
  have hline := isEntryLine_append e.key htail
  simpa [Module.contentLine, Item.ofEntry, String.append_assoc] using hline

theorem isEntryLine_namesLine : IsEntryLine (Module.namesLine (.ofEntry o e)) := by
  have htail : '\n' ∉ ((Item.ofEntry o e).namesType ++ ";").toList := by
    simp [Item.ofEntry, newline_not_mem_union]
  have hline := isEntryLine_append e.key htail
  simpa [Module.namesLine, Item.ofEntry, String.append_assoc] using hline

theorem isEntryLine_textLine : IsEntryLine (Module.textLine (.ofEntry o e)) := by
  have htail : '\n' ∉ ((Item.ofEntry o e).valueLiteral ++ ",").toList := by
    simp [Item.ofEntry, newline_not_mem_literal]
  have hline := isEntryLine_append e.key htail
  simpa [Module.textLine, Item.ofEntry, String.append_assoc] using hline

end Lines

section Blocks

variable {ls : List String}

theorem not_mem_of_isEntryLine {l : String} (hls : ∀ l' ∈ ls, IsEntryLine l')
    (hl : startsWith "  \"" l = false) : l ∉ ls := by
  intro hmem
  simp [(hls l hmem).starts] at hl

/-- The lines of entries in a declaration are no lines of its own. -/
theorem not_mem_indent {l : String} (hls : ∀ l' ∈ ls, IsEntryLine l')
    (hl : startsWith "    \"" l = false) : l ∉ ls.map Declaration.indent := by
  intro hmem
  obtain ⟨l', hl', rfl⟩ := List.mem_map.1 hmem
  have hstart := (hls l' hl').starts
  simp [startsWith, Declaration.indent, restAfter?] at hl hstart
  simp [hl] at hstart

end Blocks

namespace Module

variable (entries : List Entry) (o : Options)

def entryContents : List String :=
  entries.map fun e => contentLine (.ofEntry o e)

def entryNames : List String :=
  entries.map fun e => namesLine (.ofEntry o e)

def entryTexts : List String :=
  entries.map fun e => textLine (.ofEntry o e)

theorem isEntryLine_of_mem_entryContents : ∀ l ∈ entryContents entries o, IsEntryLine l := by
  intro l hl
  obtain ⟨e, -, rfl⟩ := List.mem_map.1 hl
  exact isEntryLine_contentLine o e

theorem isEntryLine_of_mem_entryNames : ∀ l ∈ entryNames entries o, IsEntryLine l := by
  intro l hl
  obtain ⟨e, -, rfl⟩ := List.mem_map.1 hl
  exact isEntryLine_namesLine o e

theorem isEntryLine_of_mem_entryTexts : ∀ l ∈ entryTexts entries o, IsEntryLine l := by
  intro l hl
  obtain ⟨e, -, rfl⟩ := List.mem_map.1 hl
  exact isEntryLine_textLine o e

/-- The lines of the module up to the end of its last block. -/
def blockLines : List String :=
  [header] ++ preamble ++ entryContents entries o ++ betweenTypes ++ entryNames entries o ++
    beforeTexts ++ entryTexts entries o ++ afterTexts

theorem newline_not_mem_blockLines : ∀ l ∈ blockLines entries o, '\n' ∉ l.toList := by
  have hfixed : ∀ l ∈ [header] ++ preamble ++ betweenTypes ++ beforeTexts ++ afterTexts,
      '\n' ∉ l.toList := by
    simp only [header, preamble, betweenTypes, beforeTexts, afterTexts, List.cons_append,
      List.nil_append, List.forall_mem_cons]
    and_intros <;> first | exact newline_not_mem_ofList (by decide) | exact List.forall_mem_nil _
  intro l hl
  simp only [blockLines, List.mem_append] at hl hfixed
  rcases hl with ((((((hl | hl) | hl) | hl) | hl) | hl) | hl) | hl
  · exact hfixed l (by tauto)
  · exact hfixed l (by tauto)
  · exact (isEntryLine_of_mem_entryContents entries o l hl).newline_not_mem
  · exact hfixed l (by tauto)
  · exact (isEntryLine_of_mem_entryNames entries o l hl).newline_not_mem
  · exact hfixed l (by tauto)
  · exact (isEntryLine_of_mem_entryTexts entries o l hl).newline_not_mem
  · exact hfixed l (by tauto)

/-- The module is cut into the lines that it was made of, up to the end of its last block. -/
theorem split_render : ∃ after, split '\n' (render entries o) = blockLines entries o ++ after := by
  have hlines : lines (Model.ofEntries entries o)
      = blockLines entries o ++ ([patternLine o.delimiters.pattern] ++ reader) := by
    simp [lines, blockLines, Model.ofEntries, entryContents, entryNames, entryTexts,
      Function.comp_def]
  rw [render, hlines, unlines_append]
  exact ⟨_, split_unlines_append (newline_not_mem_blockLines entries o) _⟩

theorem contentLines_split_render :
    contentLines (split '\n' (render entries o)) = entryContents entries o := by
  obtain ⟨after, hsplit⟩ := split_render entries o
  have hbefore : "export type TextContents = \x7b" ∉ [header] ++ preamble.dropLast := by decide
  have hclose : "\x7d;" ∉ entryContents entries o :=
    not_mem_of_isEntryLine (isEntryLine_of_mem_entryContents entries o) (by decide)
  rw [hsplit, contentLines]
  simp only [blockLines, preamble, betweenTypes, List.append_assoc, List.cons_append,
    List.nil_append]
  exact block_append hbefore hclose _

theorem namesLines_split_render :
    namesLines (split '\n' (render entries o)) = entryNames entries o := by
  obtain ⟨after, hsplit⟩ := split_render entries o
  have hbefore : "export type TextVariables = \x7b" ∉
      [header] ++ preamble ++ entryContents entries o ++ ["\x7d;", ""] := by
    have hcontents := not_mem_of_isEntryLine (l := "export type TextVariables = \x7b")
      (isEntryLine_of_mem_entryContents entries o) (by decide)
    simp [hcontents, header, preamble]
  have hclose : "\x7d;" ∉ entryNames entries o :=
    not_mem_of_isEntryLine (isEntryLine_of_mem_entryNames entries o) (by decide)
  have hblock := block_append hbefore hclose (beforeTexts.tail ++ entryTexts entries o ++
    afterTexts ++ after)
  rw [hsplit, namesLines, ← hblock]
  simp [blockLines, betweenTypes, beforeTexts]

theorem textLines_split_render :
    textLines (split '\n' (render entries o)) = entryTexts entries o := by
  obtain ⟨after, hsplit⟩ := split_render entries o
  have hbefore : "export const texts: Readonly<TextContents> = Object.freeze(\x7b" ∉
      [header] ++ preamble ++ entryContents entries o ++ betweenTypes ++ entryNames entries o ++
        beforeTexts.dropLast := by
    have hcontents := not_mem_of_isEntryLine
      (l := "export const texts: Readonly<TextContents> = Object.freeze(\x7b")
      (isEntryLine_of_mem_entryContents entries o) (by decide)
    have hnames := not_mem_of_isEntryLine
      (l := "export const texts: Readonly<TextContents> = Object.freeze(\x7b")
      (isEntryLine_of_mem_entryNames entries o) (by decide)
    simp [hcontents, hnames, header, preamble, betweenTypes, beforeTexts]
  have hclose : "\x7d);" ∉ entryTexts entries o :=
    not_mem_of_isEntryLine (isEntryLine_of_mem_entryTexts entries o) (by decide)
  have hblock := block_append hbefore hclose (afterTexts.tail ++ after)
  rw [hsplit, textLines, ← hblock]
  simp [blockLines, beforeTexts, afterTexts]

end Module

namespace Declaration

variable (id : String) (entries : List Entry) (o : Options)

def bodyLines : List String :=
  ["  export type TextContents = \x7b"] ++ (Module.entryContents entries o).map indent ++
    betweenTypes ++ (Module.entryNames entries o).map indent ++ closing.dropLast

theorem toList_moduleLine : (moduleLine id).toList
    = "declare module ".toList ++ ((Text.literal id).toList ++ [' ', '\x7b']) := by
  change ("declare module " ++ Text.literal id ++ " \x7b").toList = _
  simp

theorem lines_eq : lines id (Model.ofEntries entries o)
    = [header, "", moduleLine id] ++ bodyLines entries o ++ ["\x7d"] := by
  have hclosing : closing = closing.dropLast ++ ["\x7d"] := rfl
  rw [lines, hclosing]
  simp [bodyLines, Model.ofEntries, Module.entryContents, Module.entryNames, Function.comp_def]

theorem mem_bodyLines {l : String} (hl : l ∈ bodyLines entries o) :
    l ∈ ["  export type TextContents = \x7b"] ++ betweenTypes ++ closing.dropLast ∨
      ∃ l', IsEntryLine l' ∧ l = indent l' := by
  simp only [bodyLines, List.mem_append, List.mem_map] at hl ⊢
  rcases hl with (((hl | ⟨l', hl', rfl⟩) | hl) | ⟨l', hl', rfl⟩) | hl
  · exact .inl (by tauto)
  · exact .inr ⟨l', Module.isEntryLine_of_mem_entryContents entries o l' hl', rfl⟩
  · exact .inl (by tauto)
  · exact .inr ⟨l', Module.isEntryLine_of_mem_entryNames entries o l' hl', rfl⟩
  · exact .inl (by tauto)

theorem newline_not_mem_lines :
    ∀ l ∈ lines id (Model.ofEntries entries o), '\n' ∉ l.toList := by
  have hfixed : ∀ l ∈ ["  export type TextContents = \x7b"] ++ betweenTypes ++ closing.dropLast,
      '\n' ∉ l.toList := by
    simp only [betweenTypes, closing, List.dropLast_cons_cons, List.dropLast_singleton,
      List.cons_append, List.nil_append, List.forall_mem_cons]
    and_intros <;> first | exact newline_not_mem_ofList (by decide) | exact List.forall_mem_nil _
  have haround : '\n' ∉ header.toList ∧ '\n' ∉ "".toList ∧ '\n' ∉ "\x7d".toList := by
    simp [header]
  intro l hl
  rw [lines_eq, List.mem_append, List.mem_append, List.mem_singleton] at hl
  rcases hl with (hl | hl) | rfl
  · simp only [List.mem_cons, List.not_mem_nil, or_false] at hl
    rcases hl with rfl | rfl | rfl
    · exact haround.1
    · exact haround.2.1
    · simp [toList_moduleLine, newline_not_mem_literal]
  · rcases mem_bodyLines entries o hl with hl | ⟨l', hl', rfl⟩
    · exact hfixed l hl
    · simp [indent, hl'.newline_not_mem]
  · exact haround.2.2

theorem moduleId?_moduleLine : moduleId? (moduleLine id) = some id := by
  rw [moduleId?, toList_moduleLine]
  simp only [Option.bind_eq_bind, restAfter?_append, Option.bind_some, literal?_literal]
  rfl

theorem body?_split_render :
    body? (split '\n' (render id entries o)) = some (id, bodyLines entries o) := by
  have hclose : ∀ l ∈ bodyLines entries o, decide (l ≠ "\x7d") = true := by
    have hfixed : ∀ l ∈ ["  export type TextContents = \x7b"] ++ betweenTypes ++ closing.dropLast,
        decide (l ≠ "\x7d") = true := by simp [betweenTypes, closing]
    intro l hl
    rcases mem_bodyLines entries o hl with hl | ⟨l', -, rfl⟩
    · exact hfixed l hl
    · have hne : indent l' ≠ "\x7d" := by
        rw [indent, Ne, ← String.toList_inj]
        simp
      simpa using hne
  rw [render, split_unlines (newline_not_mem_lines id entries o), lines_eq]
  have hheader : moduleId? header = none := by decide
  have hblank : moduleId? "" = none := by decide
  simp only [List.cons_append, List.nil_append, List.append_assoc, body?, hheader, hblank,
    moduleId?_moduleLine]
  rw [List.takeWhile_append_of_pos hclose, List.takeWhile_cons_of_neg (by simp), List.append_nil]

theorem contentLines_bodyLines :
    contentLines (bodyLines entries o) = (Module.entryContents entries o).map indent := by
  have hclose : "  \x7d;" ∉ (Module.entryContents entries o).map indent :=
    not_mem_indent (Module.isEntryLine_of_mem_entryContents entries o) (by decide)
  have hbefore : "  export type TextContents = \x7b" ∉ [] := List.not_mem_nil
  have hblock := block_append hbefore hclose (betweenTypes.tail ++
    (Module.entryNames entries o).map indent ++ closing.dropLast)
  rw [contentLines, ← hblock]
  simp [bodyLines, betweenTypes]

theorem namesLines_bodyLines :
    namesLines (bodyLines entries o) = (Module.entryNames entries o).map indent := by
  have hbefore : "  export type TextVariables = \x7b" ∉ ["  export type TextContents = \x7b"] ++
      (Module.entryContents entries o).map indent ++ ["  \x7d;", ""] := by
    have hcontents := not_mem_indent (l := "  export type TextVariables = \x7b")
      (Module.isEntryLine_of_mem_entryContents entries o) (by decide)
    simp only [List.mem_append, hcontents]
    decide
  have hclose : "  \x7d;" ∉ (Module.entryNames entries o).map indent :=
    not_mem_indent (Module.isEntryLine_of_mem_entryNames entries o) (by decide)
  have hblock := block_append hbefore hclose closing.dropLast.tail
  rw [namesLines, ← hblock]
  simp [bodyLines, betweenTypes, closing]

end Declaration

end TextCatalog.Artifact
