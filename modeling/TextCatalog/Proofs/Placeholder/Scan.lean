import Mathlib.Data.String.Basic
import TextCatalog.Proofs.Placeholder.Cut

/-!
# Placeholders as matches of a pattern

The placeholders of a content are the leftmost matches of `opening(.+?)closing` that do not overlap.
`Scan` says so position by position, and `findAll` computes it.
-/

namespace TextCatalog.Placeholder

/-- The matches in `input`, which stands behind the characters in `before`, from left to right. After
a match the scan goes on at its end, and where none starts it goes on one character later. -/
inductive Scan (d : Delimiters) : (before input : List Char) → List Found → Prop where
  | finish {before : List Char} : Scan d before [] []
  | hit {before input run rest : List Char} {found : List Found}
      (matched : MatchesAt d input run rest) (later : Scan d (before ++ rawOf d run) rest found) :
      Scan d before input
        (⟨Text.width before, Text.width (before ++ rawOf d run), String.ofList (rawOf d run),
          Text.trim (String.ofList run)⟩ :: found)
  | skip {before input : List Char} {c : Char} {found : List Found}
      (unmatched : ∀ run rest, ¬ MatchesAt d (c :: input) run rest)
      (later : Scan d (before ++ [c]) input found) : Scan d before (c :: input) found

theorem width_append (as bs : List Char) :
    Text.width (as ++ bs) = Text.width as + Text.width bs := by
  induction as with
  | nil => simp [Text.width]
  | cons a as ih => rw [List.cons_append, Text.width, Text.width, ih, Nat.add_assoc]

/-- What is cut is what is scanned. -/
theorem Cuts.scan {d : Delimiters} {input : List Char} {pieces : List Piece}
    (h : Cuts d input pieces) (before : List Char) :
    Scan d before input (foundFrom d (Text.width before) pieces) := by
  induction h generalizing before with
  | nil => exact .finish
  | @slot input run rest pieces matched _ ih =>
    have hhit := Scan.hit matched (ih (before ++ rawOf d run))
    simpa [foundFrom, width_append, Piece.source, rawOf, nameOf, Text.trim] using hhit
  | @plain input c pieces unmatched _ ih =>
    refine .skip unmatched ?_
    simpa [foundFrom, width_append, Text.width] using ih (before ++ [c])

/-- A scan has one outcome. -/
theorem Scan.unique {d : Delimiters} {before input : List Char} {found found' : List Found}
    (h : Scan d before input found) (h' : Scan d before input found') : found = found' := by
  induction h generalizing found' with
  | finish =>
    cases h' with
    | finish => rfl
    | hit matched _ =>
      have hlen := congrArg List.length matched.eq
      have hpos := List.length_pos_iff.2 matched.isRun.1
      simp only [List.length_nil, List.length_append] at hlen
      omega
  | hit matched _ ih =>
    cases h' with
    | finish =>
      have hlen := congrArg List.length matched.eq
      have hpos := List.length_pos_iff.2 matched.isRun.1
      simp only [List.length_nil, List.length_append] at hlen
      omega
    | hit matched' later' =>
      obtain ⟨rfl, rfl⟩ := matched.unique matched'
      rw [ih later']
    | skip unmatched _ => exact absurd matched (unmatched _ _)
  | skip unmatched _ ih =>
    cases h' with
    | hit matched' _ => exact absurd matched' (unmatched _ _)
    | skip _ later' => exact ih later'

/-! ### Places -/

theorem width_eq_utf8Len (cs : List Char) : Text.width cs = String.utf8Len cs := by
  induction cs with
  | nil => rfl
  | cons c cs ih =>
    rw [String.utf8Len_cons, ← ih]
    simp [Text.width, Nat.add_comm]

/-- A placeholder stands between two characters of the content, and its text is what is there. -/
structure Found.LiesIn (d : Delimiters) (content : String) (f : Found) : Prop where
  start_le_stop : f.start ≤ f.stop
  stop_le : f.stop ≤ content.utf8ByteSize
  start_isValid : String.Pos.Raw.IsValid content ⟨f.start⟩
  stop_isValid : String.Pos.Raw.IsValid content ⟨f.stop⟩
  raw_eq : f.raw = String.Pos.Raw.extract content ⟨f.start⟩ ⟨f.stop⟩
  name_eq : ∃ run, f.raw = d.opening ++ run ++ d.closing ∧ f.name = Text.trim run

theorem extract_of_split {content : String} {before middle rest : List Char}
    (h : content.toList = before ++ middle ++ rest) :
    String.Pos.Raw.extract content ⟨Text.width before⟩ ⟨Text.width (before ++ middle)⟩
      = String.ofList middle := by
  have hcontent : content = String.ofList (before ++ middle ++ rest) := by
    rw [← h, String.ofList_toList]
  have hextract := String.extract_of_valid before middle rest
  rw [hcontent, width_append, width_eq_utf8Len, width_eq_utf8Len, hextract]

theorem utf8ByteSize_eq_width (content : String) :
    content.utf8ByteSize = Text.width content.toList := by
  rw [width_eq_utf8Len, ← String.utf8ByteSize_ofList, String.ofList_toList]

theorem liesIn_of_split {d : Delimiters} {content : String} {before run rest : List Char}
    (h : content.toList = before ++ rawOf d run ++ rest) :
    Found.LiesIn d content ⟨Text.width before, Text.width (before ++ rawOf d run),
      String.ofList (rawOf d run), Text.trim (String.ofList run)⟩ := by
  have hvalid : ∀ front back : List Char, content.toList = front ++ back →
      String.Pos.Raw.IsValid content ⟨Text.width front⟩ := by
    intro front back heq
    refine String.Pos.Raw.isValid_iff_exists_append.2
      ⟨String.ofList front, String.ofList back, ?_, ?_⟩
    · rw [← String.ofList_append, ← heq, String.ofList_toList]
    · rw [width_eq_utf8Len, String.rawEndPos_ofList]
  refine ⟨?_, ?_, ?_, ?_, (extract_of_split h).symm, String.ofList run, ?_, rfl⟩
  · simp [width_append]
  · rw [utf8ByteSize_eq_width, h, width_append (before ++ rawOf d run)]
    exact Nat.le_add_right _ _
  · exact hvalid before (rawOf d run ++ rest) (by simpa using h)
  · exact hvalid (before ++ rawOf d run) rest h
  · apply String.toList_inj.1
    simp [rawOf]

theorem Scan.liesIn {d : Delimiters} {content : String} {before input : List Char}
    {found : List Found} (h : Scan d before input found)
    (hcontent : content.toList = before ++ input) : ∀ f ∈ found, f.LiesIn d content := by
  induction h with
  | finish => simp
  | @hit before input run rest found matched _ ih =>
    have hsplit : content.toList = before ++ rawOf d run ++ rest := by
      rw [hcontent, matched.eq]
      simp [rawOf]
    intro f hf
    rcases List.mem_cons.1 hf with rfl | hf
    · exact liesIn_of_split hsplit
    · exact ih hsplit f hf
  | skip _ _ ih => exact ih (by simpa using hcontent)

/-- **Placeholders are the matches of the pattern.** The placeholders of a content are found by the
scan for leftmost matches of `opening(.+?)closing`, and by no other outcome of it. Each lies between
two characters of the content, has the text that stands there, and is named by what is between its
delimiters without the white space around it. -/
theorem findAll_eq_iff_scan (d : Delimiters) (content : String) (found : List Found)
    (hopen : d.opening ≠ "") (hclose : d.closing ≠ "") :
    (findAll d content = found ↔ Scan d [] content.toList found) ∧
      ∀ f ∈ findAll d content, f.LiesIn d content := by
  have hscan : Scan d [] content.toList (findAll d content) :=
    (cuts_pieces hopen hclose content).scan []
  refine ⟨⟨?_, fun h => hscan.unique h⟩, hscan.liesIn rfl⟩
  rintro rfl
  exact hscan

/-- Delimiters may share characters: in `aaaa` the opening `aa` is followed by the name `a`, and the
line end after it keeps the last `a` apart. -/
theorem findAll_eq_iff_scan_overlapping :
    ((⟨"aa", "a"⟩ : Delimiters).opening ≠ "" ∧ (⟨"aa", "a"⟩ : Delimiters).closing ≠ "") ∧
      Scan ⟨"aa", "a"⟩ [] "aaaa\na".toList [⟨0, 4, "aaaa", "a"⟩] :=
  ⟨⟨by decide, by decide⟩,
    (findAll_eq_iff_scan ⟨"aa", "a"⟩ "aaaa\na" _ (by decide) (by decide)).1.1 (by decide +kernel)⟩

end TextCatalog.Placeholder
