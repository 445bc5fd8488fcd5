import TextCatalog.Proofs.Placeholder.Scan

/-!
# The closing delimiter of a placeholder

A placeholder has at least one character between its delimiters, and the search for the closing one
begins behind that character. So the delimiter that ends a placeholder is the first one behind its
opening delimiter, unless one follows the opening delimiter at once: an empty pair is passed over, and
the placeholder goes on to the next closing delimiter on the line.
-/

namespace TextCatalog.Placeholder

/-- Between the delimiters of the placeholder there is no closing delimiter. -/
def Found.ClosesFirst (d : Delimiters) (f : Found) : Prop :=
  ∀ inner front back, f.raw = d.opening ++ inner ++ d.closing → inner ≠ front ++ d.closing ++ back

/-- The placeholder begins with an empty pair of delimiters and goes on behind it. -/
def Found.BeginsEmpty (d : Delimiters) (f : Found) : Prop :=
  ∃ back, f.raw = d.opening ++ (d.closing ++ back) ++ d.closing

section Closing

variable {d : Delimiters} {before input run rest : List Char} {found : List Found} {f : Found}

/-- A closing delimiter in a match begins it, behind the opening delimiter, or ends it. -/
theorem MatchesAt.eq_nil_or_eq_nil (h : MatchesAt d input run rest) {front back : List Char}
    (heq : run ++ d.closing.toList = front ++ (d.closing.toList ++ back)) :
    front = [] ∨ back = [] := by
  by_contra hnot
  obtain ⟨hfront, hback⟩ := not_or.1 hnot
  have hlength := congrArg List.length heq
  have hpos := List.length_pos_iff.2 hback
  simp only [List.length_append] at hlength
  have hshorter : front.length < run.length := by omega
  obtain ⟨more, hrun⟩ : ∃ more, run = front ++ more := by
    rcases List.append_eq_append_iff.1 heq with ⟨more, hfront', -⟩ | ⟨more, hrun, -⟩
    · rw [hfront', List.length_append] at hshorter
      omega
    · exact ⟨more, hrun⟩
  have hisRun : IsRun front := by
    refine ⟨hfront, fun c hc => h.isRun.2 c ?_⟩
    rw [hrun]
    exact List.mem_append_left _ hc
  have hinput : input = d.opening.toList ++ (front ++ (d.closing.toList ++ (back ++ rest))) := by
    calc input = d.opening.toList ++ ((run ++ d.closing.toList) ++ rest) := by
          rw [h.eq, List.append_assoc]
      _ = d.opening.toList ++ (front ++ (d.closing.toList ++ (back ++ rest))) := by
          rw [heq]
          simp
  exact absurd (h.shortest front _ hinput hisRun) (Nat.not_le_of_lt hshorter)

theorem Scan.exists_matchesAt (h : Scan d before input found) (hf : f ∈ found) :
    ∃ front later run rest, before ++ input = front ++ later ∧ MatchesAt d later run rest ∧
      f.raw = d.opening ++ String.ofList run ++ d.closing := by
  induction h with
  | finish => simp at hf
  | @hit before input run rest found matched _ ih =>
    rcases List.mem_cons.1 hf with rfl | hf
    · refine ⟨before, input, run, rest, rfl, matched, ?_⟩
      apply String.toList_inj.1
      simp [rawOf]
    · obtain ⟨front, later, run', rest', heq, hmatch, hraw⟩ := ih hf
      refine ⟨front, later, run', rest', ?_, hmatch, hraw⟩
      rw [← heq, matched.eq]
      simp [rawOf]
  | @skip before input c found _ _ ih =>
    obtain ⟨front, later, run', rest', heq, hmatch, hraw⟩ := ih hf
    exact ⟨front, later, run', rest', by simpa using heq, hmatch, hraw⟩

theorem exists_matchesAt_of_mem {content : String} (hopen : d.opening ≠ "") (hclose : d.closing ≠ "")
    (hf : f ∈ findAll d content) :
    ∃ front later run rest, content.toList = front ++ later ∧ MatchesAt d later run rest ∧
      ∀ inner, f.raw = d.opening ++ inner → run ++ d.closing.toList = inner.toList := by
  obtain ⟨front, later, run, rest, heq, hmatch, hrun⟩ :=
    ((cuts_pieces hopen hclose content).scan []).exists_matchesAt hf
  refine ⟨front, later, run, rest, heq, hmatch, ?_⟩
  intro inner hraw
  have hchars := congrArg String.toList (hrun.symm.trans hraw)
  simp only [String.toList_append, String.toList_ofList, List.append_assoc] at hchars
  exact List.append_cancel_left hchars

/-- A closing delimiter in a placeholder stands behind its opening delimiter or at its end. -/
theorem eq_empty_or_eq_empty {content front back : String} (hopen : d.opening ≠ "")
    (hclose : d.closing ≠ "") (hf : f ∈ findAll d content)
    (hraw : f.raw = d.opening ++ front ++ d.closing ++ back) : front = "" ∨ back = "" := by
  obtain ⟨-, later, run, rest, -, hmatch, hinner⟩ := exists_matchesAt_of_mem hopen hclose hf
  have heq : run ++ d.closing.toList = front.toList ++ (d.closing.toList ++ back.toList) := by
    rw [hinner (front ++ (d.closing ++ back)) (by simpa only [String.append_assoc] using hraw),
      String.toList_append, String.toList_append]
  exact (hmatch.eq_nil_or_eq_nil heq).imp String.toList_eq_nil_iff.1 String.toList_eq_nil_iff.1

theorem closesFirst_iff {content : String} (hopen : d.opening ≠ "") (hclose : d.closing ≠ "")
    (hf : f ∈ findAll d content) : f.ClosesFirst d ↔ ¬ f.BeginsEmpty d := by
  constructor
  · rintro hfirst ⟨back, hraw⟩
    exact hfirst (d.closing ++ back) "" back hraw (by simp)
  · rintro hnot inner front back hraw rfl
    have hsplit : f.raw = d.opening ++ front ++ d.closing ++ (back ++ d.closing) := by
      rw [hraw]
      simp [String.append_assoc]
    rcases eq_empty_or_eq_empty hopen hclose hf hsplit with rfl | hback
    · exact hnot ⟨back, by simpa using hraw⟩
    · simp [hclose] at hback

theorem Found.BeginsEmpty.exists_content {content : String} (hopen : d.opening ≠ "")
    (hclose : d.closing ≠ "") (hf : f ∈ findAll d content) (h : f.BeginsEmpty d) :
    ∃ front back, content = front ++ (d.opening ++ d.closing) ++ back := by
  obtain ⟨more, hraw⟩ := h
  obtain ⟨front, later, run, rest, heq, hmatch, hinner⟩ := exists_matchesAt_of_mem hopen hclose hf
  have hchars : run ++ d.closing.toList = (d.closing ++ more ++ d.closing).toList :=
    hinner _ (by simpa only [String.append_assoc] using hraw)
  refine ⟨String.ofList front, more ++ d.closing ++ String.ofList rest, ?_⟩
  apply String.toList_inj.1
  calc content.toList = front ++ (d.opening.toList ++ ((run ++ d.closing.toList) ++ rest)) := by
        rw [heq, hmatch.eq, List.append_assoc run]
    _ = _ := by
        rw [hchars]
        simp

end Closing

/-- **Where the first closing delimiter ends a placeholder.** In a placeholder a closing delimiter
stands only at its end or directly behind its opening delimiter. So the first closing delimiter ends
every placeholder of a content exactly if none of them begins with an empty pair, and none does where
no opening delimiter of the content is followed by a closing one at once. -/
theorem closes_first_iff (d : Delimiters) (content : String) (hopen : d.opening ≠ "")
    (hclose : d.closing ≠ "") :
    (∀ f ∈ findAll d content, ∀ front back,
      f.raw = d.opening ++ front ++ d.closing ++ back → front = "" ∨ back = "") ∧
    ((∀ f ∈ findAll d content, f.ClosesFirst d) ↔ ∀ f ∈ findAll d content, ¬ f.BeginsEmpty d) ∧
    ((∀ front back, content ≠ front ++ (d.opening ++ d.closing) ++ back) →
      ∀ f ∈ findAll d content, f.ClosesFirst d) := by
  have hiff : ∀ f ∈ findAll d content, f.ClosesFirst d ↔ ¬ f.BeginsEmpty d := fun f hf =>
    closesFirst_iff hopen hclose hf
  refine ⟨fun f hf front back => eq_empty_or_eq_empty hopen hclose hf, forall₂_congr hiff, ?_⟩
  intro hnone f hf
  rw [hiff f hf]
  intro hempty
  obtain ⟨front, back, hcontent⟩ := hempty.exists_content hopen hclose hf
  exact hnone front back hcontent

theorem closes_first_iff_of_second_closing :
    (Delimiters.standard.opening ≠ "" ∧ Delimiters.standard.closing ≠ "") ∧
      (∀ f ∈ findAll .standard "\x7b\x7ba\x7d\x7d \x7d\x7d", ¬ f.BeginsEmpty .standard) ∧
      ∀ f ∈ findAll .standard "\x7b\x7ba\x7d\x7d \x7d\x7d", f.ClosesFirst .standard := by
  have hnone : ∀ f ∈ findAll .standard "\x7b\x7ba\x7d\x7d \x7d\x7d", ¬ f.BeginsEmpty .standard := by
    have hfound : findAll .standard "\x7b\x7ba\x7d\x7d \x7d\x7d"
        = [⟨0, 5, "\x7b\x7ba\x7d\x7d", "a"⟩] := by decide +kernel
    rw [hfound]
    rintro f hf ⟨back, hraw⟩
    obtain rfl := List.mem_singleton.1 hf
    simp [Delimiters.standard, ← String.toList_inj] at hraw
  exact ⟨⟨by decide, by decide⟩, hnone,
    (closes_first_iff .standard _ (by decide) (by decide)).2.1.2 hnone⟩

/-- An empty pair hides the placeholder behind it: both are one placeholder, with the first closing
delimiter in its name. -/
theorem empty_pair_hides :
    findAll .standard "\x7b\x7b\x7d\x7d \x7b\x7bname\x7d\x7d"
        = [⟨0, 13, "\x7b\x7b\x7d\x7d \x7b\x7bname\x7d\x7d", "\x7d\x7d \x7b\x7bname"⟩] ∧
      ¬ ∀ f ∈ findAll .standard "\x7b\x7b\x7d\x7d \x7b\x7bname\x7d\x7d", f.ClosesFirst .standard := by
  have hfound : findAll .standard "\x7b\x7b\x7d\x7d \x7b\x7bname\x7d\x7d"
      = [⟨0, 13, "\x7b\x7b\x7d\x7d \x7b\x7bname\x7d\x7d", "\x7d\x7d \x7b\x7bname"⟩] := by decide +kernel
  refine ⟨hfound, fun hall => ?_⟩
  rw [hfound] at hall
  exact hall _ (List.mem_singleton.2 rfl) "\x7d\x7d \x7b\x7bname" "" " \x7b\x7bname" (by decide) (by decide)

end TextCatalog.Placeholder
