import Mathlib.Data.List.Basic
import TextCatalog.Placeholder.Basic

/-!
# Matches of the placeholder pattern

A placeholder is a match of `opening(.+?)closing`: the opening delimiter, the shortest run of at least
one character that ends no line, and the closing delimiter. What `endingAfter` looks for behind an
opening delimiter is the rest of such a match.
-/

namespace TextCatalog.Placeholder

/-- What `.+` matches: at least one character, and none that ends a line. -/
def IsRun (run : List Char) : Prop :=
  run ≠ [] ∧ ∀ c ∈ run, Text.isLineEnd c = false

/-- The input starts with a match whose delimiters enclose `run`, and `rest` follows it. No shorter
run would do. -/
structure MatchesAt (d : Delimiters) (input run rest : List Char) : Prop where
  eq : input = d.opening.toList ++ (run ++ (d.closing.toList ++ rest))
  isRun : IsRun run
  shortest : ∀ run' rest', input = d.opening.toList ++ (run' ++ (d.closing.toList ++ rest')) →
    IsRun run' → run.length ≤ run'.length

/-- The text of a match. -/
def rawOf (d : Delimiters) (run : List Char) : List Char :=
  d.opening.toList ++ (run ++ d.closing.toList)

/-! ### Where a match ends -/

section Ending

variable {closing : List Char}

theorem restAfter?_eq_none_iff {lead cs : List Char} :
    Text.restAfter? lead cs = none ↔ ∀ rest, cs ≠ lead ++ rest := by
  constructor
  · intro h rest heq
    rw [Text.restAfter?_eq_some_iff.2 heq] at h
    simp at h
  · intro h
    cases hrest : Text.restAfter? lead cs with
    | none => rfl
    | some rest => exact absurd (Text.restAfter?_eq_some_iff.1 hrest) (h rest)

/-- The closing delimiter that `ending` finds is the first one, and it stands on the line. -/
theorem ending_eq_found {cs run rest : List Char} (h : ending closing cs = .found run rest) :
    cs = run ++ (closing ++ rest) ∧ (∀ c ∈ run, Text.isLineEnd c = false) ∧
      ∀ run' rest', cs = run' ++ (closing ++ rest') → run.length ≤ run'.length := by
  induction cs generalizing run with
  | nil => simp [ending] at h
  | cons c cs ih =>
    rw [ending] at h
    split at h
    next r hr =>
      obtain ⟨rfl, rfl⟩ := Ending.found.injEq .. |>.mp h
      exact ⟨by simpa using Text.restAfter?_eq_some_iff.1 hr, by simp, by simp⟩
    next hnone =>
      split at h
      · simp at h
      next hline =>
        split at h
        next run₀ rest₀ hfound =>
          obtain ⟨rfl, rfl⟩ := Ending.found.injEq .. |>.mp h
          obtain ⟨heq, hruns, hshort⟩ := ih hfound
          refine ⟨by rw [heq]; rfl, by simpa [hline] using hruns, ?_⟩
          intro run' rest' heq'
          cases run' with
          | nil => exact absurd heq' (restAfter?_eq_none_iff.1 hnone rest')
          | cons c' run' =>
            have htail := (List.cons.inj heq').2
            exact Nat.succ_le_succ (hshort run' rest' htail)
        next hother => exact absurd h (hother _ _)

/-- Where `ending` finds nothing, no closing delimiter stands on the line. -/
theorem not_closing_of_ending {cs : List Char} (hclosing : closing ≠ [])
    (h : ∀ run rest, ending closing cs ≠ .found run rest) (run rest : List Char)
    (heq : cs = run ++ (closing ++ rest)) : ∃ c ∈ run, Text.isLineEnd c = true := by
  induction cs generalizing run with
  | nil => simp_all
  | cons c cs ih =>
    cases hrest : Text.restAfter? closing (c :: cs) with
    | some r => exact absurd (by rw [ending, hrest]) (h [] r)
    | none =>
      cases run with
      | nil => exact absurd heq (restAfter?_eq_none_iff.1 hrest rest)
      | cons c' run =>
        obtain ⟨rfl, htail⟩ := List.cons.inj heq
        by_cases hline : Text.isLineEnd c = true
        · exact ⟨c, by simp, hline⟩
        · obtain ⟨x, hx, hxline⟩ := ih (fun run₀ rest₀ hfound =>
            h (c :: run₀) rest₀ (by rw [ending, hrest]; simp [hline, hfound])) run htail
          exact ⟨x, by simp [hx], hxline⟩

/-- When the input ends first, no closing delimiter is left in it. -/
theorem not_closing_of_inputEnd {cs : List Char} (hclosing : closing ≠ [])
    (h : ending closing cs = .inputEnd) (run rest : List Char) : cs ≠ run ++ (closing ++ rest) := by
  induction cs generalizing run with
  | nil => simp [hclosing]
  | cons c cs ih =>
    rw [ending] at h
    split at h
    · simp at h
    next hnone =>
      split at h
      · simp at h
      · cases run with
        | nil => exact restAfter?_eq_none_iff.1 hnone rest
        | cons c' run =>
          have hend : ending closing cs = .inputEnd := by
            cases hcs : ending closing cs <;> simp_all
          intro heq
          exact ih hend run (List.cons.inj heq).2

theorem endingAfter_eq_found {cs run rest : List Char}
    (h : endingAfter closing cs = .found run rest) :
    cs = run ++ (closing ++ rest) ∧ IsRun run ∧
      ∀ run' rest', cs = run' ++ (closing ++ rest') → run' ≠ [] → run.length ≤ run'.length := by
  cases cs with
  | nil => simp [endingAfter] at h
  | cons c cs =>
    rw [endingAfter] at h
    split at h
    · simp at h
    next hline =>
      split at h
      next run₀ rest₀ hfound =>
        obtain ⟨rfl, rfl⟩ := Ending.found.injEq .. |>.mp h
        obtain ⟨heq, hruns, hshort⟩ := ending_eq_found hfound
        refine ⟨by rw [heq]; rfl, ⟨by simp, by simpa [hline] using hruns⟩, ?_⟩
        intro run' rest' heq' hne
        cases run' with
        | nil => exact absurd rfl hne
        | cons c' run' => exact Nat.succ_le_succ (hshort run' rest' (List.cons.inj heq').2)
      next hother => exact absurd h (hother _ _)

theorem not_closing_of_endingAfter {cs : List Char} (hclosing : closing ≠ [])
    (h : ∀ run rest, endingAfter closing cs ≠ .found run rest) (run rest : List Char)
    (heq : cs = run ++ (closing ++ rest)) : ¬ IsRun run := by
  rintro ⟨hne, hruns⟩
  cases run with
  | nil => exact hne rfl
  | cons c run =>
    subst heq
    have hline : Text.isLineEnd c = false := hruns c (by simp)
    obtain ⟨x, hx, hxline⟩ := not_closing_of_ending hclosing (fun run₀ rest₀ hfound =>
      h (c :: run₀) rest₀ (by simp [endingAfter, hline, hfound])) run rest rfl
    rw [hruns x (by simp [hx])] at hxline
    exact absurd hxline (by simp)

end Ending

/-! ### Matches at one position -/

section Matches

variable {d : Delimiters} {input after run rest : List Char}

theorem MatchesAt.of_endingAfter (hopen : input = d.opening.toList ++ after)
    (h : endingAfter d.closing.toList after = .found run rest) : MatchesAt d input run rest := by
  obtain ⟨heq, hrun, hshort⟩ := endingAfter_eq_found h
  refine ⟨by rw [hopen, heq], hrun, fun run' rest' heq' hrun' => ?_⟩
  exact hshort run' rest' (List.append_cancel_left (hopen.symm.trans heq')) hrun'.1

theorem not_matchesAt_of_endingAfter (hclose : d.closing.toList ≠ [])
    (hopen : input = d.opening.toList ++ after)
    (h : ∀ run rest, endingAfter d.closing.toList after ≠ .found run rest) :
    ¬ MatchesAt d input run rest := fun hmatch =>
  not_closing_of_endingAfter hclose h run rest
    (List.append_cancel_left (hopen.symm.trans hmatch.eq)) hmatch.isRun

/-- A match at a position is determined by the position. -/
theorem MatchesAt.unique {run' rest' : List Char} (h : MatchesAt d input run rest)
    (h' : MatchesAt d input run' rest') : run = run' ∧ rest = rest' := by
  have hlen : run.length = run'.length :=
    Nat.le_antisymm (h.shortest run' rest' h'.eq h'.isRun) (h'.shortest run rest h.eq h.isRun)
  have heq := List.append_cancel_left (h.eq.symm.trans h'.eq)
  obtain ⟨rfl, htail⟩ := List.append_inj heq hlen
  exact ⟨rfl, List.append_cancel_left htail⟩

/-- A position where the input ends before a closing delimiter has no match, and no later one has. -/
theorem not_matchesAt_of_inputEnd (hclose : d.closing.toList ≠ [])
    (hopen : input = d.opening.toList ++ after)
    (h : endingAfter d.closing.toList after = .inputEnd) {before later : List Char}
    (hlater : input = before ++ later) : ¬ MatchesAt d later run rest := by
  intro hmatch
  have hwhole : d.opening.toList ++ after
      = (before ++ d.opening.toList ++ run) ++ (d.closing.toList ++ rest) := by
    rw [← hopen, hlater, hmatch.eq]
    simp
  cases after with
  | nil =>
    have hlen := congrArg List.length hwhole
    have hpos := List.length_pos_iff.2 hmatch.isRun.1
    simp only [List.append_nil, List.length_append] at hlen
    omega
  | cons c cs =>
    have hend : ending d.closing.toList cs = .inputEnd := by
      rw [endingAfter] at h
      split at h
      · simp at h
      · cases hcs : ending d.closing.toList cs <;> simp_all
    -- The first character after the opening delimiter belongs to no closing one.
    have hdrop : cs = (before ++ d.opening.toList ++ run).drop (d.opening.toList.length + 1)
        ++ (d.closing.toList ++ rest) := by
      have hlen : d.opening.toList.length + 1 ≤ (before ++ d.opening.toList ++ run).length := by
        have hpos := List.length_pos_iff.2 hmatch.isRun.1
        simp only [List.length_append]
        omega
      have hdropped := congrArg (List.drop (d.opening.toList.length + 1)) hwhole
      rwa [List.drop_append_of_le_length hlen, List.append_cons, List.drop_left' (by simp)]
        at hdropped
    exact not_closing_of_inputEnd hclose hend _ rest hdrop

end Matches

end TextCatalog.Placeholder
