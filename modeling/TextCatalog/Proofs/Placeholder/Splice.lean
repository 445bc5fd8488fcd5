import TextCatalog.Proofs.Placeholder.Scan

/-!
# Substitution as a splice

`substitute` fills the pieces of a content one by one. Read by bytes, it copies the content up to each
placeholder that has an argument, puts the argument there and goes on behind the placeholder; one
without an argument is copied along with what is around it.
-/

namespace TextCatalog.Placeholder

/-- The content from byte `last` on, with a text in the place of each of these placeholders. -/
def splice (content : String) (last : Nat) : List (Found × String) → String
  | [] => String.Pos.Raw.extract content ⟨last⟩ content.rawEndPos
  | (f, value) :: later =>
    String.Pos.Raw.extract content ⟨last⟩ ⟨f.start⟩ ++ value ++ splice content f.stop later

/-- The value that the arguments supply for a name. -/
def supplied (args : Option (String → Option String)) (name : String) : Option String :=
  args.bind fun lookup => lookup name

/-- The placeholders whose names are supplied, each with its value. -/
def replacements (args : Option (String → Option String)) (found : List Found) :
    List (Found × String) :=
  found.filterMap fun f => (supplied args f.name).map fun value => (f, value)

/-- A list of names has every name of `all` once, those that appear first in `all` first. -/
structure ListsFirsts (all names : List String) : Prop where
  nodup : names.Nodup
  mem_iff : ∀ name, name ∈ names ↔ name ∈ all
  inOrder : names.Pairwise fun a b => all.idxOf a < all.idxOf b

/-! ### Names -/

theorem mem_distinct {x : String} {xs : List String} : x ∈ distinct xs ↔ x ∈ xs := by
  induction xs with
  | nil => simp [distinct]
  | cons y xs ih =>
    rw [distinct, List.mem_cons, List.mem_filter, ih, List.mem_cons]
    by_cases h : x = y <;> simp [h]

theorem listsFirsts_distinct (xs : List String) : ListsFirsts xs (distinct xs) := by
  induction xs with
  | nil => exact ⟨.nil, fun _ => by simp [distinct], .nil⟩
  | cons x xs ih =>
    refine ⟨?_, fun name => mem_distinct, ?_⟩
    · rw [distinct, List.nodup_cons]
      exact ⟨by simp, ih.nodup.filter _⟩
    · rw [distinct, List.pairwise_cons]
      have hlater : ∀ b, b ≠ x → (x :: xs).idxOf b = xs.idxOf b + 1 := fun b hb =>
        List.idxOf_cons_ne xs (Ne.symm hb)
      constructor
      · intro b hb
        have hne : b ≠ x := by simpa using (List.mem_filter.1 hb).2
        rw [List.idxOf_cons_self, hlater b hne]
        exact Nat.succ_pos _
      · refine (ih.inOrder.filter _).imp_of_mem fun {a b} ha hb hlt => ?_
        have hna : a ≠ x := by simpa using (List.mem_filter.1 ha).2
        have hnb : b ≠ x := by simpa using (List.mem_filter.1 hb).2
        rw [hlater a hna, hlater b hnb]
        exact Nat.succ_lt_succ hlt

section Pieces

variable {d : Delimiters} {ps : List Piece}

theorem map_name_foundFrom (offset : Nat) :
    (foundFrom d offset ps).map Found.name = ps.filterMap Piece.name? := by
  induction ps generalizing offset with
  | nil => rfl
  | cons piece ps ih =>
    cases piece with
    | plain c => exact ih _
    | slot inner => exact congrArg (nameOf inner :: ·) (ih _)

theorem listsFirsts_names (d : Delimiters) (content : String) :
    ListsFirsts ((findAll d content).map Found.name) (names d content) := by
  rw [findAll, map_name_foundFrom]
  exact listsFirsts_distinct _

/-! ### Places -/

theorem le_of_mem_foundFrom {offset : Nat} {f : Found} (h : f ∈ foundFrom d offset ps) :
    offset ≤ f.start := by
  induction ps generalizing offset with
  | nil => simp [foundFrom] at h
  | cons piece ps ih =>
    cases piece with
    | plain c => exact (Nat.le_add_right _ _).trans (ih h)
    | slot inner =>
      rcases List.mem_cons.1 h with rfl | h
      · exact Nat.le_refl _
      · exact (Nat.le_add_right _ _).trans (ih h)

/-- No placeholder starts before an earlier one ends. -/
theorem pairwise_foundFrom (offset : Nat) :
    (foundFrom d offset ps).Pairwise fun f g => f.stop ≤ g.start := by
  induction ps generalizing offset with
  | nil => exact .nil
  | cons piece ps ih =>
    cases piece with
    | plain c => exact ih _
    | slot inner => exact .cons (fun g hg => le_of_mem_foundFrom hg) (ih _)

theorem flatMap_source_map_plain (cs : List Char) :
    (cs.map Piece.plain).flatMap (Piece.source d) = cs := by
  induction cs with
  | nil => rfl
  | cons c cs ih => exact congrArg (c :: ·) ih

theorem Cuts.flatMap_source {input : List Char} (h : Cuts d input ps) :
    ps.flatMap (Piece.source d) = input := by
  induction h with
  | nil => rfl
  | slot matched _ ih => rw [List.flatMap_cons, ih, matched.eq]; simp [Piece.source]
  | plain _ _ ih => rw [List.flatMap_cons, ih]; rfl

theorem flatMap_source_pieces (d : Delimiters) (content : String) :
    (pieces d content).flatMap (Piece.source d) = content.toList := by
  by_cases h : d.opening = "" ∨ d.closing = ""
  · rw [pieces, if_pos h]
    exact flatMap_source_map_plain _
  · obtain ⟨hopen, hclose⟩ := not_or.1 h
    exact (cuts_pieces hopen hclose content).flatMap_source

theorem findAll_of_empty (h : d.opening = "" ∨ d.closing = "") (content : String) :
    findAll d content = [] := by
  have hplain : ∀ (cs : List Char) offset, foundFrom d offset (cs.map .plain) = [] := by
    intro cs
    induction cs with
    | nil => exact fun _ => rfl
    | cons c cs ih => exact fun _ => ih _
  rw [findAll, pieces, if_pos h]
  exact hplain _ _

theorem liesIn_of_mem_findAll {content : String} {f : Found} (hf : f ∈ findAll d content) :
    f.LiesIn d content := by
  by_cases h : d.opening = "" ∨ d.closing = ""
  · rw [findAll_of_empty h] at hf
    exact absurd hf List.not_mem_nil
  · obtain ⟨hopen, hclose⟩ := not_or.1 h
    exact ((cuts_pieces hopen hclose content).scan []).liesIn rfl f hf

/-! ### Filling -/

/-- The content has been copied up to the end of `front`. What is in `kept` has been passed over since,
and the pieces are still to come. -/
theorem splice_foundFrom {content : String} {front kept : List Char}
    (h : content.toList = front ++ kept ++ ps.flatMap (Piece.source d))
    (lookup : String → Option String) :
    splice content (Text.width front)
        (replacements (some lookup) (foundFrom d (Text.width (front ++ kept)) ps))
      = String.ofList (kept ++ ps.flatMap (Piece.fill d lookup)) := by
  induction ps generalizing front kept with
  | nil =>
    have hend : content.rawEndPos = ⟨Text.width (front ++ kept)⟩ := by
      rw [String.rawEndPos, utf8ByteSize_eq_width, h]
      simp
    rw [List.flatMap_nil, List.append_nil]
    show String.Pos.Raw.extract content ⟨Text.width front⟩ content.rawEndPos = String.ofList kept
    rw [hend]
    exact extract_of_split h
  | cons piece ps ih =>
    cases piece with
    | plain c =>
      have hnext : content.toList = front ++ (kept ++ [c]) ++ ps.flatMap (Piece.source d) := by
        rw [h]
        simp [Piece.source]
      have hwidth : Text.width (front ++ kept) + c.utf8Size = Text.width (front ++ (kept ++ [c])) := by
        simp only [width_append, Text.width, Nat.add_assoc, Nat.add_zero]
      rw [foundFrom, hwidth, ih hnext]
      simp [Piece.fill]
    | slot inner =>
      have hwidth : Text.width (front ++ kept) + Text.width ((Piece.slot inner).source d)
          = Text.width (front ++ kept ++ (Piece.slot inner).source d) := (width_append _ _).symm
      rw [foundFrom, hwidth]
      cases hvalue : lookup (nameOf inner) with
      | none =>
        have hnext : content.toList
            = front ++ (kept ++ (Piece.slot inner).source d) ++ ps.flatMap (Piece.source d) := by
          rw [h]
          simp
        have hskip := ih hnext
        rw [← List.append_assoc] at hskip
        simpa [replacements, supplied, hvalue, Piece.fill] using hskip
      | some value =>
        have hnext : content.toList
            = front ++ kept ++ (Piece.slot inner).source d ++ [] ++ ps.flatMap (Piece.source d) := by
          rw [h]
          simp
        have hcopied : String.Pos.Raw.extract content ⟨Text.width front⟩
            ⟨Text.width (front ++ kept)⟩ = String.ofList kept := extract_of_split h
        have hlater := ih hnext
        rw [List.append_nil, List.nil_append] at hlater
        simp only [replacements, supplied, Option.bind_some] at hlater ⊢
        rw [List.filterMap_cons, hvalue, Option.map_some]
        simp only [splice]
        rw [hcopied, hlater, List.flatMap_cons, Piece.fill, hvalue]
        simp [String.ofList_append, String.append_assoc]

theorem substitute_eq_splice (d : Delimiters) (lookup : String → Option String) (content : String) :
    substitute d lookup content
      = splice content 0 (replacements (some lookup) (findAll d content)) := by
  have hcontent : content.toList = [] ++ [] ++ (pieces d content).flatMap (Piece.source d) := by
    rw [flatMap_source_pieces]
    rfl
  exact (splice_foundFrom hcontent lookup).symm

theorem replacements_none (found : List Found) : replacements none found = [] := by
  simp [replacements, supplied]

theorem splice_nil (content : String) : splice content 0 [] = content := by
  have hwhole : content.toList = [] ++ content.toList ++ [] := by simp
  have hall := extract_of_split hwhole
  rwa [List.nil_append, ← utf8ByteSize_eq_width, String.ofList_toList] at hall

theorem substituteArgs_eq_splice (d : Delimiters) (args : Option (String → Option String))
    (content : String) :
    substituteArgs d args content = splice content 0 (replacements args (findAll d content)) := by
  cases args with
  | none => rw [replacements_none, splice_nil]; rfl
  | some lookup => exact substitute_eq_splice d lookup content

theorem replacements_congr {args args' : Option (String → Option String)} {found : List Found}
    (h : ∀ f ∈ found, supplied args f.name = supplied args' f.name) :
    replacements args found = replacements args' found :=
  List.filterMap_congr fun f hf => by rw [h f hf]

theorem substituteArgs_congr {args args' : Option (String → Option String)} {content : String}
    (h : ∀ name ∈ names d content, supplied args name = supplied args' name) :
    substituteArgs d args content = substituteArgs d args' content := by
  have hfound : ∀ f ∈ findAll d content, supplied args f.name = supplied args' f.name := by
    intro f hf
    exact h f.name (((listsFirsts_names d content).mem_iff _).2 (List.mem_map_of_mem hf))
  rw [substituteArgs_eq_splice, substituteArgs_eq_splice, replacements_congr hfound]

end Pieces

/-- **Substitution touches only what is supplied.** Filling in a content copies it byte by byte, but
for the placeholders with a name that the arguments supply, in whose place it puts their values. The
placeholders stand behind one another in the content, and `names` lists their names, each once and in
order of first appearance. Only these names are asked for: arguments that agree on them give the same
result, and arguments that supply none of them give the content itself. -/
theorem substitute_splices (d : Delimiters) (content : String)
    (args : Option (String → Option String)) :
    ((findAll d content).Pairwise (fun f g => f.stop ≤ g.start) ∧
        ∀ f ∈ findAll d content, f.LiesIn d content) ∧
      substituteArgs d args content = splice content 0 (replacements args (findAll d content)) ∧
      ListsFirsts ((findAll d content).map Found.name) (names d content) ∧
      (∀ args', (∀ name ∈ names d content, supplied args name = supplied args' name) →
        substituteArgs d args content = substituteArgs d args' content) ∧
      ((∀ name ∈ names d content, supplied args name = none) →
        substituteArgs d args content = content) ∧
      substituteArgs d none content = content := by
  refine ⟨⟨pairwise_foundFrom _, fun f hf => liesIn_of_mem_findAll hf⟩,
    substituteArgs_eq_splice d args content, listsFirsts_names d content,
    fun args' h => substituteArgs_congr h, fun h => ?_, rfl⟩
  have hsame : substituteArgs d args content = substituteArgs d none content :=
    substituteArgs_congr h
  rw [hsame]
  rfl

section Sample

/-- Arguments that supply the second of two names, with a value that looks like the first. -/
def secondNamed : Option (String → Option String) :=
  some fun name => if name = "b" then some "\x7b\x7ba\x7d\x7d" else none

/-- The first placeholder is kept with the text around it, and so is the value that looks like it. An
argument for a name that the content does not have changes nothing. -/
theorem substitute_splices_sample :
    substituteArgs .standard secondNamed "\x7b\x7ba\x7d\x7d, \x7b\x7b b \x7d\x7d!"
        = "\x7b\x7ba\x7d\x7d, \x7b\x7ba\x7d\x7d!" ∧
      substituteArgs .standard secondNamed "\x7b\x7bc\x7d\x7d" = "\x7b\x7bc\x7d\x7d" := by
  have hnames : names .standard "\x7b\x7bc\x7d\x7d" = ["c"] := by decide +kernel
  refine ⟨by decide +kernel, ?_⟩
  refine (substitute_splices .standard "\x7b\x7bc\x7d\x7d" secondNamed).2.2.2.2.1 fun name hname => ?_
  obtain rfl : name = "c" := by simpa [hnames] using hname
  rfl

end Sample

end TextCatalog.Placeholder
