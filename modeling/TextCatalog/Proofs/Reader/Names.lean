import TextCatalog.Proofs.Placeholder.Splice
import TextCatalog.Proofs.Reader.Pieces

/-!
# The names that the reader looks up

The reader and `substitute` strip different white space off a name: only `substitute` strips U+0085,
and only the reader strips U+FEFF. They agree on a content exactly when no name in it shows one of the
two at an end.
-/

namespace TextCatalog.Artifact.Reader

open Placeholder Text

/-- The white space that both strip. -/
def isCommonSpace (c : Char) : Bool :=
  isBlank c && isSpace c.toNat

/-- Whether a character stands at an end of a text. -/
def IsEnd (cs : List Char) (c : Char) : Prop :=
  cs.head? = some c ∨ cs.getLast? = some c

/-- Without the white space that both strip, neither end shows U+0085, which only `substitute` strips,
or U+FEFF, which only the reader strips. -/
def HasPlainEnds (run : List Char) : Prop :=
  ∀ c, IsEnd (stripBy isCommonSpace run) c → c ≠ '\u0085' ∧ c ≠ '\uFEFF'

section Names

variable {d : Delimiters} {run : List Char}

theorem isSpace_eq_isBlank {c : Char} (h : c ≠ '\u0085') (h' : c ≠ '\uFEFF') :
    isSpace c.toNat = isBlank c := by
  have hnel : c.toNat ≠ 0x85 := fun heq => h (Char.toNat_inj.1 heq)
  have hbom : c.toNat ≠ 0xFEFF := fun heq => h' (Char.toNat_inj.1 heq)
  rw [Bool.eq_iff_iff]
  simp [isSpace, spaceRanges, isBlank, blankRanges]
  omega

theorem IsEnd.not_of_stripBy {p : Char → Bool} {cs : List Char} {c : Char}
    (h : IsEnd (stripBy p cs) c) : p c = false := by
  obtain ⟨front, back, -, -, -, hhead, hlast⟩ := exists_stripBy p cs
  rcases h with h | h
  · exact hhead c h
  · exact hlast c h

/-- What a class does not strip stays at its end. -/
theorem IsEnd.stripBy {p : Char → Bool} {c : Char}
    (hcommon : ∀ c, isCommonSpace c = true → p c = true)
    (hc : p c = false) (h : IsEnd (stripBy isCommonSpace run) c) : IsEnd (stripBy p run) c := by
  obtain ⟨front, back, hrun, hfront, hback, -, -⟩ := exists_stripBy isCommonSpace run
  rcases h with h | h
  · obtain ⟨rest, hrest⟩ := List.head?_eq_some_iff.1 h
    rw [hrest, List.append_assoc, List.cons_append] at hrun
    left
    rw [hrun]
    exact head?_stripBy (fun b hb => hcommon b (hfront b hb)) hc
  · obtain ⟨rest, hrest⟩ := List.getLast?_eq_some_iff.1 h
    rw [hrest, ← List.append_assoc, List.append_assoc, List.singleton_append] at hrun
    right
    rw [hrun]
    exact getLast?_stripBy (fun b hb => hcommon b (hback b hb)) hc

theorem readName_eq (h : HasPlainEnds run) : readName run = nameOf run := by
  obtain ⟨front, back, hrun, hfront, hback, hhead, hlast⟩ := exists_stripBy isCommonSpace run
  have hend : ∀ c, IsEnd (stripBy isCommonSpace run) c →
      isSpace c.toNat = false ∧ isBlank c = false := by
    intro c hc
    have hsame := isSpace_eq_isBlank (h c hc).1 (h c hc).2
    have hnot : isCommonSpace c = false := hc.not_of_stripBy
    simpa [isCommonSpace, hsame] using hnot
  have hstrip : ∀ p : Char → Bool, (∀ c, isCommonSpace c = true → p c = true) →
      (∀ c, IsEnd (stripBy isCommonSpace run) c → p c = false) →
      stripBy p run = stripBy isCommonSpace run := by
    intro p hcommon hp
    have hmiddle : stripBy p (front ++ stripBy isCommonSpace run ++ back)
        = stripBy isCommonSpace run :=
      stripBy_eq (fun a ha => hcommon a (hfront a ha)) (fun a ha => hcommon a (hback a ha))
        (fun a ha => hp a (.inl ha)) (fun a ha => hp a (.inr ha))
    rwa [← hrun] at hmiddle
  rw [readName, nameOf, trimChars_eq_stripBy,
    hstrip _ (by simp [isCommonSpace]) fun c hc => (hend c hc).1,
    hstrip _ (by simp +contextual [isCommonSpace]) fun c hc => (hend c hc).2]

/-- A name with a disputed end: the reader keeps U+0085 there, and `substitute` keeps U+FEFF. -/
theorem isEnd_of_not_hasPlainEnds (h : ¬ HasPlainEnds run) :
    IsEnd (readName run).toList '\u0085' ∨ IsEnd (nameOf run).toList '\uFEFF' := by
  obtain ⟨c, hc⟩ := not_forall.1 h
  obtain ⟨hend, hdisputed⟩ := Classical.not_imp.1 hc
  rw [readName, nameOf, trimChars_eq_stripBy, String.toList_ofList, String.toList_ofList]
  by_cases hnel : c = '\u0085'
  · subst hnel
    exact .inl (hend.stripBy (by simp [isCommonSpace]) (by decide))
  · obtain rfl : c = '\uFEFF' := by simpa [hnel] using hdisputed
    exact .inr (hend.stripBy (by simp +contextual [isCommonSpace]) (by decide))

/-- No name of the reader has U+FEFF at an end, and none of `substitute` has U+0085. -/
theorem not_isEnd_name (run : List Char) :
    ¬ IsEnd (readName run).toList '\uFEFF' ∧ ¬ IsEnd (nameOf run).toList '\u0085' := by
  rw [readName, nameOf, trimChars_eq_stripBy, String.toList_ofList, String.toList_ofList]
  refine ⟨fun h => ?_, fun h => ?_⟩
  · exact absurd h.not_of_stripBy (by decide)
  · exact absurd h.not_of_stripBy (by decide)

theorem hasPlainEnds_iff : HasPlainEnds run ↔ readName run = nameOf run := by
  refine ⟨readName_eq, fun heq => ?_⟩
  by_contra hnot
  rcases isEnd_of_not_hasPlainEnds hnot with hend | hend
  · exact (not_isEnd_name run).2 (heq ▸ hend)
  · exact (not_isEnd_name run).1 (heq ▸ hend)

/-- Where a name is read in two ways, some argument tells the two fillings apart. -/
theorem exists_args_ne (hopen : d.opening ≠ "") {ps : List Piece} (hmem : .slot run ∈ ps)
    (hne : readName run ≠ nameOf run) :
    ∃ args, ps.flatMap (pieceUnits d args readName)
      ≠ ps.flatMap (pieceUnits d args nameOf) := by
  induction ps with
  | nil => simp at hmem
  | cons piece ps ih =>
    by_cases hfirst : ∃ run₀, piece = .slot run₀ ∧ readName run₀ ≠ nameOf run₀
    · obtain ⟨run₀, rfl, hne₀⟩ := hfirst
      -- The value starts with another character than the opening delimiter, which the reader keeps.
      obtain ⟨o, os, ho⟩ := List.exists_cons_of_ne_nil (l := d.opening.toList) (by simpa using hopen)
      obtain ⟨v, hv⟩ : ∃ v : Char, v ≠ o := by
        by_cases h : o = 'a'
        · exact ⟨'b', by rw [h]; decide⟩
        · exact ⟨'a', Ne.symm h⟩
      refine ⟨[(nameOf run₀, String.ofList [v])], fun heq => hv ?_⟩
      have hkept : slotUnits d [(nameOf run₀, String.ofList [v])] (readName run₀) run₀
          = codeUnits (rawOf d run₀) := by
        simp [slotUnits, argument?, hne₀]
      have hfilled : slotUnits d [(nameOf run₀, String.ofList [v])]
          (nameOf run₀) run₀ = charUnits v := by
        simp [slotUnits, argument?]
      rw [List.flatMap_cons, List.flatMap_cons, pieceUnits, pieceUnits, hkept, hfilled, rawOf, ho,
        List.cons_append, codeUnits_cons, List.append_assoc] at heq
      exact (charUnits_append_inj heq.symm).1
    · have hrest : .slot run ∈ ps := by
        rcases List.mem_cons.1 hmem with rfl | hrest
        · exact absurd ⟨run, rfl, hne⟩ hfirst
        · exact hrest
      obtain ⟨args, hargs⟩ := ih hrest
      refine ⟨args, fun heq => hargs ?_⟩
      have hhead : pieceUnits d args readName piece = pieceUnits d args nameOf piece := by
        cases piece with
        | plain c => rfl
        | slot run₀ =>
          have hsame : readName run₀ = nameOf run₀ := by
            by_contra hne₀
            exact hfirst ⟨run₀, rfl, hne₀⟩
          rw [pieceUnits, pieceUnits, hsame]
      rw [List.flatMap_cons, List.flatMap_cons, hhead] at heq
      exact List.append_cancel_left heq

theorem mem_lookups (hopen : d.opening ≠ "") (hclose : d.closing ≠ "") {content : String}
    {us : List Nat} : us ∈ lookups d content ↔
      ∃ run, .slot run ∈ pieces d content ∧ us = codeUnits (readName run).toList := by
  rw [lookups, partsOf_eq hopen hclose, List.mem_filterMap]
  constructor
  · rintro ⟨part, hpart, hname⟩
    obtain ⟨piece, hpiece, hpart⟩ := List.mem_flatMap.1 hpart
    cases piece with
    | plain c =>
      obtain ⟨u, -, rfl⟩ := List.mem_map.1 hpart
      simp [Part.name?] at hname
    | slot run =>
      obtain rfl : part = .hole (codeUnits run) := by simpa [partsOfPiece] using hpart
      refine ⟨run, hpiece, ?_⟩
      simpa [Part.name?, stripBy_codeUnits, readName, eq_comm] using hname
  · rintro ⟨run, hpiece, rfl⟩
    refine ⟨.hole (codeUnits run), List.mem_flatMap.2 ⟨_, hpiece, by simp [partsOfPiece]⟩, ?_⟩
    simp [Part.name?, stripBy_codeUnits, readName]

theorem mem_names {content name : String} :
    name ∈ names d content ↔
      ∃ run, .slot run ∈ pieces d content ∧ name = nameOf run := by
  rw [names, mem_distinct, List.mem_filterMap]
  constructor
  · rintro ⟨piece, hpiece, hname⟩
    cases piece with
    | plain c => simp [Piece.name?] at hname
    | slot run => exact ⟨run, hpiece, by simpa [Piece.name?, eq_comm] using hname⟩
  · rintro ⟨run, hpiece, rfl⟩
    exact ⟨.slot run, hpiece, rfl⟩

end Names

/-- **When the reader agrees.** The reader fills in what `substitute` fills in, for all arguments,
exactly when no placeholder of the content has a disputed end; and exactly then the names that it
looks up are the listed names of the content. -/
theorem reader_agrees_iff (d : Delimiters) (content : String) (hvalid : d.validate = .ok ()) :
    ((∀ args, getText d args content = codeUnits (substitute d (argument? args) content).toList) ↔
      ∀ run, .slot run ∈ pieces d content → HasPlainEnds run) ∧
    ((∀ us, us ∈ lookups d content ↔ ∃ name ∈ names d content, us = codeUnits name.toList) ↔
      ∀ run, .slot run ∈ pieces d content → HasPlainEnds run) := by
  obtain ⟨hopen, hclose⟩ : d.opening ≠ "" ∧ d.closing ≠ "" := by
    rw [Delimiters.validate] at hvalid
    split at hvalid
    · simp at hvalid
    next h => exact not_or.1 h
  refine ⟨⟨fun h run hrun => ?_, fun h args => ?_⟩, ⟨fun h run hrun => ?_, fun h us => ?_⟩⟩
  · by_contra hnot
    obtain ⟨args, hargs⟩ := exists_args_ne hopen hrun (hasPlainEnds_iff.not.1 hnot)
    exact hargs (by rw [← getText_eq hopen hclose, h args, codeUnits_substitute])
  · rw [getText_eq hopen hclose, codeUnits_substitute]
    refine List.flatMap_congr fun piece hpiece => ?_
    cases piece with
    | plain c => rfl
    | slot run => rw [pieceUnits, pieceUnits, readName_eq (h run hpiece)]
  · by_contra hnot
    rcases isEnd_of_not_hasPlainEnds hnot with hend | hend
    · obtain ⟨name, hname, hunits⟩ := (h _).1 ((mem_lookups hopen hclose).2 ⟨run, hrun, rfl⟩)
      obtain ⟨run', -, rfl⟩ := mem_names.1 hname
      rw [codeUnits_injective hunits] at hend
      exact (not_isEnd_name run').2 hend
    · obtain ⟨run', -, hunits⟩ := (mem_lookups hopen hclose).1
        ((h _).2 ⟨_, mem_names.2 ⟨run, hrun, rfl⟩, rfl⟩)
      rw [codeUnits_injective hunits] at hend
      exact (not_isEnd_name run').1 hend
  · rw [mem_lookups hopen hclose]
    constructor
    · rintro ⟨run, hrun, rfl⟩
      exact ⟨_, mem_names.2 ⟨run, hrun, rfl⟩, by rw [readName_eq (h run hrun)]⟩
    · rintro ⟨name, hname, rfl⟩
      obtain ⟨run, hrun, rfl⟩ := mem_names.1 hname
      exact ⟨run, hrun, by rw [readName_eq (h run hrun)]⟩

/-- The white space that both strip does not count as an end of a name. -/
theorem reader_agrees_iff_of_spaces :
    Delimiters.standard.validate = .ok () ∧
      ∀ args, getText .standard args "Hi \x7b\x7b\u3000name \x7d\x7d!"
        = codeUnits (substitute .standard (argument? args)
            "Hi \x7b\x7b\u3000name \x7d\x7d!").toList := by
  refine ⟨rfl, (reader_agrees_iff .standard _ rfl).1.2 fun run hrun => ?_⟩
  have hpieces : pieces .standard "Hi \x7b\x7b\u3000name \x7d\x7d!" =
      [.plain 'H', .plain 'i', .plain ' ', .slot "\u3000name ".toList, .plain '!'] := by
    decide +kernel
  obtain rfl : run = "\u3000name ".toList := by simpa [hpieces] using hrun
  have hname : stripBy isCommonSpace "\u3000name ".toList = ['n', 'a', 'm', 'e'] := by decide
  rintro c (h | h)
  · rw [hname] at h
    obtain rfl : 'n' = c := by simpa using h
    decide
  · rw [hname] at h
    obtain rfl : 'e' = c := by simpa using h
    decide

/-- A byte order mark before a name: the reader finds the argument `name`, and `substitute` does not. -/
theorem getText_ne_substitute_of_mark :
    getText .standard [("name", "x")] "\x7b\x7b\uFEFFname\x7d\x7d" = codeUnits ['x'] ∧
      substitute .standard (argument? [("name", "x")]) "\x7b\x7b\uFEFFname\x7d\x7d"
        = "\x7b\x7b\uFEFFname\x7d\x7d" := by
  decide +kernel

end TextCatalog.Artifact.Reader
