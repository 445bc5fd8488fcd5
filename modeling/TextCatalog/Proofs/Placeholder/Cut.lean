import TextCatalog.Proofs.Placeholder.Match

/-!
# Cutting a content at the matches

The pieces into which `cut` takes a content apart are its leftmost matches that do not overlap, and
the characters between them.
-/

namespace TextCatalog.Placeholder

/-- The pieces of the input: a slot for each match, after which the cutting goes on, and a plain
character wherever no match starts. -/
inductive Cuts (d : Delimiters) : (input : List Char) → List Piece → Prop where
  | nil : Cuts d [] []
  | slot {input run rest : List Char} {pieces : List Piece}
      (matched : MatchesAt d input run rest) (later : Cuts d rest pieces) :
      Cuts d input (.slot run :: pieces)
  | plain {input : List Char} {c : Char} {pieces : List Piece}
      (unmatched : ∀ run rest, ¬ MatchesAt d (c :: input) run rest) (later : Cuts d input pieces) :
      Cuts d (c :: input) (.plain c :: pieces)

section Steps

variable {opening closing : List Char} {done : List Piece} {c : Char}
  {cs after inner rest : List Char}

theorem cut_cons_of_none (h : Text.restAfter? opening (c :: cs) = none) :
    cut opening closing done (c :: cs) = cut opening closing (.plain c :: done) cs := by
  rw [cut]
  split <;> simp_all

theorem cut_cons_of_found (h : Text.restAfter? opening (c :: cs) = some after)
    (hend : endingAfter closing after = .found inner rest) :
    cut opening closing done (c :: cs) = cut opening closing (.slot inner :: done) rest := by
  rw [cut]
  split
  · simp_all
  next after' h' =>
    obtain rfl : after' = after := by simp_all
    split <;> simp_all

theorem cut_cons_of_lineEnd (h : Text.restAfter? opening (c :: cs) = some after)
    (hend : endingAfter closing after = .lineEnd) :
    cut opening closing done (c :: cs) = cut opening closing (.plain c :: done) cs := by
  rw [cut]
  split
  · simp_all
  next after' h' =>
    obtain rfl : after' = after := by simp_all
    split <;> simp_all

theorem cut_cons_of_inputEnd (h : Text.restAfter? opening (c :: cs) = some after)
    (hend : endingAfter closing after = .inputEnd) :
    cut opening closing done (c :: cs) = done.reverse ++ (c :: cs).map .plain := by
  rw [cut]
  split
  · simp_all
  next after' h' =>
    obtain rfl : after' = after := by simp_all
    split <;> simp_all

end Steps

/-- The pieces already cut stay in front. -/
theorem cut_eq_append (opening closing : List Char) (done : List Piece) (input : List Char) :
    cut opening closing done input = done.reverse ++ cut opening closing [] input := by
  induction hlen : input.length using Nat.strongRecOn generalizing done input with
  | ind n ih =>
    subst hlen
    cases input with
    | nil => simp [cut]
    | cons c cs =>
      cases h : Text.restAfter? opening (c :: cs) with
      | none =>
        rw [cut_cons_of_none h, cut_cons_of_none h, ih _ (by simp) _ cs rfl,
          ih _ (by simp) [.plain c] cs rfl]
        simp
      | some after =>
        cases hend : endingAfter closing after with
        | found inner rest =>
          have hlt : rest.length < (c :: cs).length :=
            Nat.lt_of_lt_of_le (endingAfter_found_length hend) (restAfter?_length h)
          rw [cut_cons_of_found h hend, cut_cons_of_found h hend, ih _ hlt _ rest rfl,
            ih _ hlt [.slot inner] rest rfl]
          simp
        | lineEnd =>
          rw [cut_cons_of_lineEnd h hend, cut_cons_of_lineEnd h hend, ih _ (by simp) _ cs rfl,
            ih _ (by simp) [.plain c] cs rfl]
          simp
        | inputEnd =>
          rw [cut_cons_of_inputEnd h hend, cut_cons_of_inputEnd h hend]
          simp

/-- An input in which no match starts anywhere is plain. -/
theorem Cuts.of_unmatched {d : Delimiters} {input : List Char}
    (h : ∀ front later, input = front ++ later → ∀ run rest, ¬ MatchesAt d later run rest) :
    Cuts d input (input.map .plain) := by
  induction input with
  | nil => exact .nil
  | cons c cs ih =>
    refine .plain (h [] _ rfl) (ih fun front later heq => h (c :: front) later ?_)
    rw [heq]
    rfl

/-- The pieces are cut where the matches are. -/
theorem cuts_cut {d : Delimiters} (hclose : d.closing ≠ "") (input : List Char) :
    Cuts d input (cut d.opening.toList d.closing.toList [] input) := by
  have hclose' : d.closing.toList ≠ [] := by simpa using hclose
  induction hlen : input.length using Nat.strongRecOn generalizing input with
  | ind n ih =>
    subst hlen
    cases input with
    | nil => simpa [cut] using Cuts.nil
    | cons c cs =>
      have hplain : (∀ run rest, ¬ MatchesAt d (c :: cs) run rest) →
          Cuts d (c :: cs) (cut d.opening.toList d.closing.toList [.plain c] cs) := by
        intro hnone
        rw [cut_eq_append]
        exact .plain hnone (ih cs.length (by simp) cs rfl)
      cases h : Text.restAfter? d.opening.toList (c :: cs) with
      | none =>
        rw [cut_cons_of_none h]
        exact hplain fun run rest hmatch => restAfter?_eq_none_iff.1 h _ hmatch.eq
      | some after =>
        have heq := Text.restAfter?_eq_some_iff.1 h
        cases hend : endingAfter d.closing.toList after with
        | found run rest =>
          have hlt : rest.length < (c :: cs).length :=
            Nat.lt_of_lt_of_le (endingAfter_found_length hend) (restAfter?_length h)
          rw [cut_cons_of_found h hend, cut_eq_append]
          exact .slot (.of_endingAfter heq hend) (ih _ hlt rest rfl)
        | lineEnd =>
          rw [cut_cons_of_lineEnd h hend]
          exact hplain fun run rest =>
            not_matchesAt_of_endingAfter hclose' heq (by simp [hend])
        | inputEnd =>
          rw [cut_cons_of_inputEnd h hend, List.reverse_nil, List.nil_append]
          exact .of_unmatched fun front later hlater run rest =>
            not_matchesAt_of_inputEnd hclose' heq hend hlater

theorem cuts_pieces {d : Delimiters} (hopen : d.opening ≠ "") (hclose : d.closing ≠ "")
    (content : String) : Cuts d content.toList (pieces d content) := by
  simpa [pieces, hopen, hclose] using cuts_cut hclose content.toList

end TextCatalog.Placeholder
