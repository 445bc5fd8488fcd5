import Mathlib.Data.List.TakeWhile
import Mathlib.Data.String.Basic
import TextCatalog.Text.Basic

/-!
# Cutting at a separator

Texts without the separator are found again where they were put together with it.
-/

namespace TextCatalog.Text

section Lists

variable {α : Type} [DecidableEq α] {sep : α}

theorem splitList_of_not_mem {cs : List α} (h : sep ∉ cs) : splitList sep cs = [cs] := by
  induction cs with
  | nil => rfl
  | cons c cs ih =>
    obtain ⟨hc, hcs⟩ := not_or.1 (List.mem_cons.not.1 h)
    rw [splitList, if_neg (Ne.symm hc), ih hcs]

/-- A separator cuts wherever it stands. -/
theorem splitList_append (as bs : List α) :
    splitList sep (as ++ sep :: bs) = splitList sep as ++ splitList sep bs := by
  induction as with
  | nil => simp [splitList]
  | cons a as ih =>
    rw [List.cons_append, splitList, splitList]
    by_cases ha : a = sep
    · simp [ha, ih]
    · obtain ⟨piece, pieces, hpieces⟩ := List.exists_cons_of_ne_nil (splitList_ne_nil sep as)
      simp [ha, ih, hpieces]

theorem not_mem_of_mem_splitList {cs piece : List α} (h : piece ∈ splitList sep cs) :
    sep ∉ piece := by
  induction cs generalizing piece with
  | nil =>
    obtain rfl : piece = [] := by simpa [splitList] using h
    simp
  | cons c cs ih =>
    obtain ⟨first, pieces, hpieces⟩ := List.exists_cons_of_ne_nil (splitList_ne_nil sep cs)
    rw [splitList] at h
    rw [hpieces] at h ih
    split at h
    · rcases List.mem_cons.1 h with rfl | h
      · simp
      · exact ih h
    next hc =>
      rcases List.mem_cons.1 h with rfl | h
      · have hfirst := ih (List.mem_cons_self ..)
        simp [hfirst, Ne.symm hc]
      · exact ih (List.mem_cons_of_mem _ h)

theorem subset_of_mem_splitList {cs piece : List α} (h : piece ∈ splitList sep cs) : piece ⊆ cs := by
  induction cs generalizing piece with
  | nil =>
    obtain rfl : piece = [] := by simpa [splitList] using h
    exact List.nil_subset _
  | cons c cs ih =>
    obtain ⟨first, pieces, hpieces⟩ := List.exists_cons_of_ne_nil (splitList_ne_nil sep cs)
    rw [splitList] at h
    rw [hpieces] at h ih
    split at h
    · rcases List.mem_cons.1 h with rfl | h
      · exact List.nil_subset _
      · exact List.subset_cons_of_subset c (ih h)
    · rcases List.mem_cons.1 h with rfl | h
      · exact List.cons_subset_cons c (ih (List.mem_cons_self ..))
      · exact List.subset_cons_of_subset c (ih (List.mem_cons_of_mem _ h))

/-- Pieces without the separator are found again between the separators. -/
theorem splitList_intercalate {pieces : List (List α)} (hne : pieces ≠ [])
    (h : ∀ piece ∈ pieces, sep ∉ piece) : splitList sep ([sep].intercalate pieces) = pieces := by
  induction pieces with
  | nil => exact absurd rfl hne
  | cons piece pieces ih =>
    obtain ⟨hpiece, hpieces⟩ := List.forall_mem_cons.1 h
    by_cases hnil : pieces = []
    · rw [hnil, List.intercalate_singleton, splitList_of_not_mem hpiece]
    · rw [List.intercalate_cons_of_ne_nil hnil, List.append_assoc, List.singleton_append,
        splitList_append, ih hnil hpieces, splitList_of_not_mem hpiece]
      rfl

/-- The pieces of a list make it again, with the separator between them. -/
theorem intercalate_splitList (cs : List α) : [sep].intercalate (splitList sep cs) = cs := by
  induction cs with
  | nil => rfl
  | cons c cs ih =>
    obtain ⟨piece, pieces, hpieces⟩ := List.exists_cons_of_ne_nil (splitList_ne_nil sep cs)
    rw [hpieces] at ih
    rw [splitList, hpieces]
    split
    next hc => rw [List.intercalate_cons_of_ne_nil (by simp), ih, hc]; rfl
    next =>
      show [sep].intercalate ((c :: piece) :: pieces) = c :: cs
      rw [← ih]
      cases pieces with
      | nil => simp
      | cons next pieces => simp [List.intercalate_cons_cons]

omit [DecidableEq α] in
/-- What stands in pieces put together stands between two of them or in one of them. -/
theorem mem_of_mem_intercalateList {sep : List α} {pieces : List (List α)} {c : α}
    (h : c ∈ sep.intercalate pieces) : c ∈ sep ∨ ∃ piece ∈ pieces, c ∈ piece := by
  induction pieces with
  | nil => simp at h
  | cons piece pieces ih =>
    by_cases hnil : pieces = []
    · subst hnil
      exact .inr ⟨piece, by simp, by simpa using h⟩
    · rw [List.intercalate_cons_of_ne_nil hnil] at h
      simp only [List.mem_append] at h
      rcases h with (h | h) | h
      · exact .inr ⟨piece, by simp, h⟩
      · exact .inl h
      · rcases ih h with hsep | ⟨piece', hpiece', hc⟩
        · exact .inl hsep
        · exact .inr ⟨piece', by simp [hpiece'], hc⟩

omit [DecidableEq α] in
theorem intercalate_append {sep : List α} {as bs : List (List α)} (has : as ≠ []) (hbs : bs ≠ []) :
    sep.intercalate (as ++ bs) = sep.intercalate as ++ sep ++ sep.intercalate bs := by
  induction as with
  | nil => exact absurd rfl has
  | cons a as ih =>
    by_cases hnil : as = []
    · rw [hnil, List.singleton_append, List.intercalate_cons_of_ne_nil hbs, List.intercalate_singleton]
    · rw [List.cons_append, List.intercalate_cons_of_ne_nil (by simp [hnil]), ih hnil,
        List.intercalate_cons_of_ne_nil hnil]
      simp only [List.append_assoc]

end Lists

variable {sep : Char}

theorem not_mem_of_mem_split {s piece : String} (h : piece ∈ split sep s) : sep ∉ piece.toList := by
  obtain ⟨cs, hcs, rfl⟩ := List.mem_map.1 h
  rw [String.toList_ofList]
  exact not_mem_of_mem_splitList hcs

theorem split_append (s t : String) :
    split sep (s ++ String.ofList [sep] ++ t) = split sep s ++ split sep t := by
  have hchars : (s ++ String.ofList [sep] ++ t).toList = s.toList ++ sep :: t.toList := by simp
  rw [split, hchars, splitList_append, List.map_append, split, split]

theorem split_intercalate {pieces : List String} (hne : pieces ≠ [])
    (h : ∀ piece ∈ pieces, sep ∉ piece.toList) :
    split sep (String.intercalate (String.ofList [sep]) pieces) = pieces := by
  rw [split, String.toList_intercalate, String.toList_ofList,
    splitList_intercalate (by simpa using hne) (by simpa using h)]
  simp

/-- The pieces of a text make it again, with the separator between them. -/
theorem intercalate_split (s : String) :
    String.intercalate (String.ofList [sep]) (split sep s) = s := by
  rw [← String.toList_inj, String.toList_intercalate, String.toList_ofList, split, List.map_map]
  have hpieces : (splitList sep s.toList).map (String.toList ∘ String.ofList) = splitList sep s.toList := by
    simp [Function.comp_def]
  rw [hpieces, intercalate_splitList]

theorem mem_of_mem_intercalate {sep : String} {pieces : List String} {c : Char}
    (h : c ∈ (String.intercalate sep pieces).toList) :
    c ∈ sep.toList ∨ ∃ piece ∈ pieces, c ∈ piece.toList := by
  rw [String.toList_intercalate] at h
  simpa using mem_of_mem_intercalateList h

section Ends

/-- The text before the first separator, or all of it. -/
def firstPiece (sep : Char) (cs : List Char) : List Char :=
  cs.takeWhile (· ≠ sep)

/-- The text behind the last separator, or all of it. -/
def lastPiece (sep : Char) (cs : List Char) : List Char :=
  (cs.reverse.takeWhile (· ≠ sep)).reverse

/-- The pieces between the first separator and the last. -/
def innerPieces (sep : Char) (cs : List Char) : List (List Char) :=
  (splitList sep cs).tail.dropLast

theorem firstPiece_of_not_mem {cs : List Char} (h : sep ∉ cs) (rest : List Char) :
    firstPiece sep (cs ++ sep :: rest) = cs := by
  have hcs : ∀ c ∈ cs, decide (c ≠ sep) = true := fun c hc => decide_eq_true fun heq => h (heq ▸ hc)
  rw [firstPiece, List.takeWhile_append_of_pos hcs, List.takeWhile_cons_of_neg (by simp),
    List.append_nil]

theorem firstPiece_append_of_not_mem {cs : List Char} (h : sep ∉ cs) (rest : List Char) :
    firstPiece sep (cs ++ rest) = cs ++ firstPiece sep rest :=
  List.takeWhile_append_of_pos fun _ hc => decide_eq_true fun heq => h (heq ▸ hc)

theorem firstPiece_append_of_mem {cs : List Char} (h : sep ∈ cs) (rest : List Char) :
    firstPiece sep (cs ++ rest) = firstPiece sep cs := by
  obtain ⟨front, back, rfl, hfront⟩ := List.eq_append_cons_of_mem h
  rw [List.append_assoc, List.cons_append, firstPiece_of_not_mem hfront, firstPiece_of_not_mem hfront]

theorem lastPiece_of_not_mem {cs : List Char} (h : sep ∉ cs) (front : List Char) :
    lastPiece sep (front ++ sep :: cs) = cs := by
  have hcs : (front ++ sep :: cs).reverse = cs.reverse ++ sep :: front.reverse := by simp
  have htake : (cs.reverse ++ sep :: front.reverse).takeWhile (· ≠ sep) = cs.reverse :=
    firstPiece_of_not_mem (by simpa using h) _
  rw [lastPiece, hcs, htake, List.reverse_reverse]

theorem not_mem_lastPiece (sep : Char) (cs : List Char) : sep ∉ lastPiece sep cs := by
  intro h
  have hne := List.mem_takeWhile_imp (List.mem_reverse.1 h)
  simp at hne

theorem not_mem_firstPiece (sep : Char) (cs : List Char) : sep ∉ firstPiece sep cs := by
  intro h
  have hne := List.mem_takeWhile_imp h
  simp at hne

theorem firstPiece_eq_self {cs : List Char} (h : sep ∉ cs) : firstPiece sep cs = cs :=
  List.takeWhile_eq_self_iff.2 fun _ hc => decide_eq_true fun heq => h (heq ▸ hc)

theorem lastPiece_eq_self {cs : List Char} (h : sep ∉ cs) : lastPiece sep cs = cs := by
  have hreverse : cs.reverse.takeWhile (· ≠ sep) = cs.reverse :=
    firstPiece_eq_self (by simpa using h)
  rw [lastPiece, hreverse, List.reverse_reverse]

/-- The last separator of a text. -/
theorem exists_eq_append_lastPiece {cs : List Char} (h : sep ∈ cs) :
    ∃ front, cs = front ++ sep :: lastPiece sep cs := by
  obtain ⟨back, front, hsplit, hback⟩ := List.eq_append_cons_of_mem (List.mem_reverse.2 h)
  obtain rfl : cs = front.reverse ++ sep :: back.reverse := by
    rw [← List.reverse_reverse cs, hsplit]
    simp
  exact ⟨front.reverse, by rw [lastPiece_of_not_mem (by simpa using hback)]⟩

/-- Whatever follows a text, all of its pieces but the last are cut off it. -/
theorem exists_splitList_append (sep : Char) (cs : List Char) :
    ∃ lead, ∀ rest, splitList sep (cs ++ rest)
      = lead ++ splitList sep (lastPiece sep cs ++ rest) := by
  by_cases hsep : sep ∈ cs
  · obtain ⟨front, hfront⟩ := exists_eq_append_lastPiece hsep
    refine ⟨splitList sep front, fun rest => ?_⟩
    rw [← splitList_append, ← List.cons_append, ← List.append_assoc, ← hfront]
  · exact ⟨[], fun rest => by rw [lastPiece_eq_self hsep, List.nil_append]⟩

/-- Whatever stands before a text, all of its pieces but the first are cut off it. -/
theorem exists_append_splitList (sep : Char) (cs : List Char) :
    ∃ later, ∀ front, splitList sep (front ++ cs)
      = splitList sep (front ++ firstPiece sep cs) ++ later := by
  by_cases hsep : sep ∈ cs
  · obtain ⟨first, rest, rfl, hfirst⟩ := List.eq_append_cons_of_mem hsep
    refine ⟨splitList sep rest, fun front => ?_⟩
    rw [firstPiece_of_not_mem hfirst, ← List.append_assoc, splitList_append]
  · exact ⟨[], fun front => by rw [firstPiece_eq_self hsep, List.append_nil]⟩

/-- A text with separators between two others is cut at its own. -/
theorem splitList_around {front cs : List Char} (hfront : sep ∉ front) (hcs : sep ∈ cs)
    (rest : List Char) :
    splitList sep (front ++ cs ++ rest) = (front ++ firstPiece sep cs) ::
      (innerPieces sep cs ++ splitList sep (lastPiece sep cs ++ rest)) := by
  obtain ⟨first, tail, rfl, hfirst⟩ := List.eq_append_cons_of_mem hcs
  obtain ⟨lead, hlead⟩ := exists_splitList_append sep tail
  have hlast : lastPiece sep (first ++ sep :: tail) = lastPiece sep tail := by
    by_cases htail : sep ∈ tail
    · obtain ⟨front', htail'⟩ := exists_eq_append_lastPiece htail
      rw [htail', ← List.cons_append, ← List.append_assoc,
        lastPiece_of_not_mem (not_mem_lastPiece sep tail), lastPiece_of_not_mem (not_mem_lastPiece sep tail)]
    · rw [lastPiece_of_not_mem htail, lastPiece_eq_self htail]
  have hpiece : splitList sep (lastPiece sep tail) = [lastPiece sep tail] :=
    splitList_of_not_mem (not_mem_lastPiece sep tail)
  have hinner : innerPieces sep (first ++ sep :: tail) = lead := by
    have htail := hlead []
    rw [List.append_nil, List.append_nil, hpiece] at htail
    rw [innerPieces, splitList_append, splitList_of_not_mem hfirst, htail]
    simp
  have hwhole : front ++ (first ++ sep :: tail) ++ rest = (front ++ first) ++ sep :: (tail ++ rest) := by
    simp
  rw [hwhole, splitList_append, splitList_of_not_mem (by simp [hfront, hfirst]), hlead, hinner, hlast,
    firstPiece_of_not_mem hfirst]
  rfl

end Ends

end TextCatalog.Text
