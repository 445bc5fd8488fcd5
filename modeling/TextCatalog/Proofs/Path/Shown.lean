import TextCatalog.Proofs.Path.Join

/-!
# Paths seen from a directory

A path that is seen from a directory is written without it. Joined to the directory again it leads where it
did.
-/

namespace TextCatalog.Path

open Component
open RawText (slash)

variable {root p : Path} {pieces rest : List RawText}

theorem filterMap_dropWhile_isIdlePiece (pieces : List RawText) :
    (pieces.dropWhile isIdlePiece).filterMap ofPiece? = pieces.filterMap ofPiece? := by
  induction pieces with
  | nil => rfl
  | cons piece pieces ih =>
    by_cases h : isIdlePiece piece = true
    · rw [List.dropWhile_cons_of_pos h, ih, List.filterMap_cons_none (ofPiece?_of_isIdlePiece h)]
    · rw [List.dropWhile_cons_of_neg h]

/-- What is left after some components are taken off. -/
theorem of_dropComponents {cs : List Component} (h : dropComponents cs pieces = some rest) :
    pieces.filterMap ofPiece? = cs ++ rest.filterMap ofPiece? ∧ rest <:+ pieces := by
  induction pieces generalizing cs with
  | nil =>
    cases cs with
    | nil =>
      obtain rfl := Option.some.inj h
      simp
    | cons c cs => cases h
  | cons piece pieces ih =>
    cases cs with
    | nil =>
      obtain rfl := Option.some.inj h
      simp
    | cons c cs =>
      rw [dropComponents] at h
      split at h
      next hidle =>
        obtain ⟨heq, hsuffix⟩ := ih h
        exact ⟨by rw [List.filterMap_cons_none hidle, heq],
          hsuffix.trans (List.suffix_cons piece pieces)⟩
      next found hfound =>
        split at h
        next hc =>
          obtain ⟨heq, hsuffix⟩ := ih h
          exact ⟨by rw [List.filterMap_cons_some hfound, heq, hc]; rfl,
            hsuffix.trans (List.suffix_cons piece pieces)⟩
        next => cases h

/-- The pieces without those that name nothing at both ends. -/
def trimmed (pieces : List RawText) : List RawText :=
  ((pieces.dropWhile isIdlePiece).reverse.dropWhile isIdlePiece).reverse

theorem filterMap_trimmed (pieces : List RawText) :
    (trimmed pieces).filterMap ofPiece? = pieces.filterMap ofPiece? := by
  rw [trimmed, List.filterMap_reverse, filterMap_dropWhile_isIdlePiece, List.filterMap_reverse,
    List.reverse_reverse, filterMap_dropWhile_isIdlePiece]

theorem trimmed_subset (pieces : List RawText) : trimmed pieces ⊆ pieces := by
  intro piece hpiece
  rw [trimmed, List.mem_reverse] at hpiece
  exact (List.dropWhile_sublist _).subset (List.mem_reverse.1 ((List.dropWhile_sublist _).subset hpiece))

theorem isAbsolute_trimmed (h : ∀ piece ∈ pieces, slash ∉ piece) :
    isAbsolute ⟨[slash].intercalate (trimmed pieces)⟩ = false := by
  by_cases hnil : trimmed pieces = []
  · rw [hnil]
    decide
  · rw [← Bool.not_eq_true]
    intro habs
    have hsplit : Text.splitList slash ([slash].intercalate (trimmed pieces)) = trimmed pieces :=
      Text.splitList_intercalate hnil fun piece hpiece => h piece (trimmed_subset pieces hpiece)
    obtain ⟨others, hothers⟩ := pieces_of_isAbsolute habs
    rw [Path.pieces, hsplit] at hothers
    -- What is kept starts with the first piece that names something.
    obtain ⟨ending, hending⟩ : trimmed pieces <+: pieces.dropWhile isIdlePiece := by
      rw [trimmed, ← List.reverse_suffix, List.reverse_reverse]
      exact List.dropWhile_suffix isIdlePiece
    have hhead := List.head?_dropWhile_not isIdlePiece pieces
    rw [← hending, hothers] at hhead
    simp [isIdlePiece] at hhead

theorem seenFrom_of_isAbsolute (hroot : root.isAbsolute = true) (hp : p.isAbsolute = true)
    (hpieces : p.pieces = [] :: pieces) :
    seenFrom root p = (dropComponents root.steps pieces).elim p fun rest =>
      ⟨[slash].intercalate (trimmed rest)⟩ := by
  simp only [seenFrom, components_of_isAbsolute hroot, hpieces, hp, if_true, trimmed, List.tail_cons]
  cases dropComponents root.steps pieces <;> rfl

/-- Joined to the directory that it is seen from, a path is read as the same components. -/
theorem components_join_seenFrom (hroot : root.isAbsolute = true) (hp : p.isAbsolute = true) :
    (root.join (seenFrom root p)).components = p.components := by
  obtain ⟨pieces, hpieces⟩ := pieces_of_isAbsolute hp
  have hslash : ∀ piece ∈ pieces, slash ∉ piece := by
    intro piece hpiece
    have hmem : piece ∈ p.pieces := hpieces ▸ List.mem_cons_of_mem _ hpiece
    exact Text.not_mem_of_mem_splitList hmem
  rw [seenFrom_of_isAbsolute hroot hp hpieces]
  cases hdrop : dropComponents root.steps pieces with
  | none => rw [Option.elim_none, join_of_isAbsolute root hp]
  | some rest =>
    obtain ⟨hsteps, hsuffix⟩ := of_dropComponents hdrop
    have hrest : ∀ piece ∈ rest, slash ∉ piece := fun piece hpiece =>
      hslash piece (hsuffix.subset hpiece)
    have hp_steps : p.steps = pieces.filterMap ofPiece? := by
      rw [steps, hpieces]
      rfl
    rw [Option.elim_some, components_of_isAbsolute (isAbsolute_join hroot),
      components_of_isAbsolute hp,
      steps_join (text_ne_nil_of_isAbsolute hroot) (isAbsolute_trimmed hrest),
      steps_intercalate fun piece hpiece => hrest piece (trimmed_subset rest hpiece),
      filterMap_trimmed, hp_steps, hsteps]

end TextCatalog.Path
