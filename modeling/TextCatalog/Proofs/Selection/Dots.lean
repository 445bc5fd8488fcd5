import TextCatalog.Proofs.Glob.Branches
import TextCatalog.Proofs.Selection.Base
import TextCatalog.Proofs.Selection.Judged

/-!
# Segments that start with a dot

The hidden names of a pattern are looked for in its text, cut at every slash. With two alternatives in
braces the text has the segments of the alternatives written out, but for those next to the braces.
-/

namespace TextCatalog

open Glob (IsUngrouped IsLiteralText Surrounds Alternative inBraces readTokens)
open TextCatalog.Path (IsName)

namespace Pattern

section Dots

open Text (firstPiece lastPiece innerPieces splitList)

variable {pre post a b x piece : List Char}

/-- The piece names hidden files: it starts with a dot and is neither of the two directories that are
always there. -/
def IsDotted (piece : List Char) : Prop :=
  piece.head? = some '.' ∧ piece ≠ ['.'] ∧ piece ≠ ['.', '.']

instance : DecidablePred IsDotted := fun piece =>
  inferInstanceAs (Decidable (piece.head? = some '.' ∧ piece ≠ ['.'] ∧ piece ≠ ['.', '.']))

/-- A segment of the text names hidden files. -/
structure DotPiece (cs piece : List Char) : Prop where
  mem : piece ∈ splitList '/' cs
  isDotted : IsDotted piece

/-- No slash in braces cuts a segment that starts with a dot: such a segment is no glob by itself. -/
structure CutsNoDots (pre a b : List Char) : Prop where
  opening : '/' ∈ a ∨ '/' ∈ b → (lastPiece '/' pre).head? ≠ some '.'
  closing : ∀ x ∈ [a, b], '/' ∈ x → (lastPiece '/' x).head? ≠ some '.'

/-- No segment that names hidden files starts right behind the opening brace, where a segment does, or
behind the closing one, where the alternative ends in a slash. -/
structure BeginsNoDots (pre post x : List Char) : Prop where
  opening : lastPiece '/' pre = [] → ¬ IsDotted (firstPiece '/' (x ++ post))
  closing : '/' ∈ x → lastPiece '/' x = [] → ¬ IsDotted (firstPiece '/' post)

theorem head?_append_ne {cs more : List Char} (hcs : cs.head? ≠ some '.') (hmore : more.head? ≠ some '.') :
    (cs ++ more).head? ≠ some '.' := by
  cases cs with
  | nil => exact hmore
  | cons c cs => exact hcs

theorem innerPieces_eq_nil (h : '/' ∉ x) : innerPieces '/' x = [] := by
  rw [innerPieces, Text.splitList_of_not_mem h]
  rfl

/-- The segments around a text do not depend on it, but for those that it is written into. -/
theorem exists_dotPiece_around (pre post : List Char) :
    ∃ outer : List Char → Prop, ∀ x piece, DotPiece (pre ++ x ++ post) piece ↔
      outer piece ∨ DotPiece (lastPiece '/' pre ++ x ++ firstPiece '/' post) piece := by
  obtain ⟨lead, hlead⟩ := Text.exists_splitList_append '/' pre
  obtain ⟨later, hlater⟩ := Text.exists_append_splitList '/' post
  refine ⟨fun piece => (piece ∈ lead ∨ piece ∈ later) ∧ IsDotted piece, fun x piece => ?_⟩
  have hpieces : splitList '/' (pre ++ x ++ post)
      = lead ++ splitList '/' (lastPiece '/' pre ++ x ++ firstPiece '/' post) ++ later := by
    rw [List.append_assoc, hlead, ← List.append_assoc, hlater, List.append_assoc lead]
  constructor
  · rintro ⟨hmem, hdotted⟩
    rw [hpieces, List.mem_append, List.mem_append] at hmem
    rcases hmem with (hmem | hmem) | hmem
    · exact .inl ⟨.inl hmem, hdotted⟩
    · exact .inr ⟨hmem, hdotted⟩
    · exact .inl ⟨.inr hmem, hdotted⟩
  · rintro (⟨hmem | hmem, hdotted⟩ | ⟨hmem, hdotted⟩)
    all_goals refine ⟨?_, hdotted⟩
    all_goals rw [hpieces, List.mem_append, List.mem_append]
    exacts [.inl (.inl hmem), .inr hmem, .inl (.inr hmem)]

/-- Of an alternative between two pieces a segment that names hidden files is inside of it, or it is the
first one or the last. -/
theorem dotPiece_alternative_iff {first last : List Char} (hfirst : '/' ∉ first) (hlast : '/' ∉ last) :
    DotPiece (first ++ x ++ last) piece ↔
      IsDotted piece ∧ (piece ∈ innerPieces '/' x ∨ piece = first ++ firstPiece '/' (x ++ last) ∨
        ('/' ∈ x ∧ piece = lastPiece '/' x ++ last)) := by
  by_cases hslash : '/' ∈ x
  · have htail : '/' ∉ lastPiece '/' x ++ last := by simp [Text.not_mem_lastPiece, hlast]
    have hpieces := Text.splitList_around hfirst hslash last
    rw [Text.splitList_of_not_mem htail] at hpieces
    rw [Text.firstPiece_append_of_mem hslash]
    constructor
    · rintro ⟨hmem, hdotted⟩
      rw [hpieces, List.mem_cons, List.mem_append, List.mem_singleton] at hmem
      rcases hmem with rfl | hmem | rfl
      · exact ⟨hdotted, .inr (.inl rfl)⟩
      · exact ⟨hdotted, .inl hmem⟩
      · exact ⟨hdotted, .inr (.inr ⟨hslash, rfl⟩)⟩
    · rintro ⟨hdotted, hmem⟩
      refine ⟨?_, hdotted⟩
      rw [hpieces, List.mem_cons, List.mem_append, List.mem_singleton]
      rcases hmem with hmem | rfl | ⟨-, rfl⟩
      exacts [.inr (.inl hmem), .inl rfl, .inr (.inr rfl)]
  · have hwhole : '/' ∉ x ++ last := by simp [hslash, hlast]
    have hpieces : splitList '/' (first ++ x ++ last) = [first ++ (x ++ last)] := by
      rw [List.append_assoc, Text.splitList_of_not_mem (by simp [hfirst, hslash, hlast])]
    rw [innerPieces_eq_nil hslash, Text.firstPiece_eq_self hwhole]
    constructor
    · rintro ⟨hmem, hdotted⟩
      rw [hpieces] at hmem
      exact ⟨hdotted, .inr (.inl (List.mem_singleton.1 hmem))⟩
    · rintro ⟨hdotted, hmem | rfl | ⟨hmem, -⟩⟩
      · simp at hmem
      · exact ⟨by rw [hpieces]; simp, hdotted⟩
      · exact absurd hmem hslash

/-- Between pieces that start with no dot only a segment inside of an alternative names hidden files. -/
theorem dotPiece_between_iff {first last : List Char} (hfirst : '/' ∉ first) (hlast : '/' ∉ last)
    (hne : first ≠ []) (hopen : first.head? ≠ some '.') (hclose : last.head? ≠ some '.')
    (hend : '/' ∈ x → (lastPiece '/' x).head? ≠ some '.') :
    DotPiece (first ++ x ++ last) piece ↔ IsDotted piece ∧ piece ∈ innerPieces '/' x := by
  rw [dotPiece_alternative_iff hfirst hlast]
  refine and_congr_right fun hdotted => or_iff_left ?_
  rintro (rfl | ⟨hslash, rfl⟩)
  · obtain ⟨c, cs, rfl⟩ := List.exists_cons_of_ne_nil hne
    exact hopen hdotted.1
  · exact head?_append_ne (hend hslash) hclose hdotted.1

/-- Of braces behind a piece that starts with no dot only segments inside of an alternative name hidden
files. -/
theorem dotPiece_braces_iff {first last : List Char} (hfirst : '/' ∉ first) (hlast : '/' ∉ last)
    (hopen : first.head? ≠ some '.') (ha : '/' ∈ a → (lastPiece '/' a).head? ≠ some '.')
    (hb : '/' ∈ b → (lastPiece '/' b).head? ≠ some '.') :
    DotPiece (first ++ inBraces a b ++ last) piece ↔
      IsDotted piece ∧ (piece ∈ innerPieces '/' a ∨ piece ∈ innerPieces '/' b) := by
  have hclose : '/' ∉ '}' :: last := by simp [hlast]
  have hrest : ∀ {z : List Char}, '/' ∉ z → z ≠ [] → z.head? ≠ some '.' →
      (DotPiece (z ++ b ++ '}' :: last) piece ↔ IsDotted piece ∧ piece ∈ innerPieces '/' b) :=
    fun hz hne hhead => dotPiece_between_iff hz hclose hne hhead (by simp) hb
  by_cases hslash : '/' ∈ a
  · have hwhole : first ++ inBraces a b ++ last
        = (first ++ ['{']) ++ a ++ (',' :: b ++ '}' :: last) := by simp [inBraces]
    have hopened : '/' ∉ first ++ ['{'] := by simp [hfirst]
    have hpieces := Text.splitList_around hopened hslash (',' :: b ++ '}' :: last)
    have hrest' := hrest (z := lastPiece '/' a ++ [',']) (by simp [Text.not_mem_lastPiece]) (by simp)
      (head?_append_ne (ha hslash) (by simp))
    have hsame : lastPiece '/' a ++ [','] ++ b ++ '}' :: last
        = lastPiece '/' a ++ (',' :: b ++ '}' :: last) := by simp
    rw [hsame] at hrest'
    constructor
    · rintro ⟨hmem, hdotted⟩
      rw [hwhole, hpieces, List.mem_cons, List.mem_append] at hmem
      rcases hmem with rfl | hmem | hmem
      · rw [List.append_assoc] at hdotted
        exact absurd hdotted.1 (head?_append_ne hopen (by simp))
      · exact ⟨hdotted, .inl hmem⟩
      · exact ⟨hdotted, .inr (hrest'.1 ⟨hmem, hdotted⟩).2⟩
    · rintro ⟨hdotted, hmem⟩
      refine ⟨?_, hdotted⟩
      rw [hwhole, hpieces, List.mem_cons, List.mem_append]
      exact .inr (hmem.imp_right fun hmem => (hrest'.2 ⟨hdotted, hmem⟩).mem)
  · have hwhole : first ++ inBraces a b ++ last
        = (first ++ '{' :: a ++ [',']) ++ b ++ '}' :: last := by simp [inBraces]
    rw [hwhole, hrest (by simp [hfirst, hslash]) (by simp)
      (head?_append_ne (head?_append_ne hopen (by simp)) (by simp)), innerPieces_eq_nil hslash]
    simp

theorem firstPiece_append_firstPiece (x post : List Char) :
    firstPiece '/' (x ++ firstPiece '/' post) = firstPiece '/' (x ++ post) := by
  by_cases hslash : '/' ∈ x
  · rw [Text.firstPiece_append_of_mem hslash, Text.firstPiece_append_of_mem hslash]
  · rw [Text.firstPiece_append_of_not_mem hslash, Text.firstPiece_append_of_not_mem hslash,
      Text.firstPiece_eq_self (Text.not_mem_firstPiece '/' post)]

/-- Where the segment before the braces does not start with a dot, the hidden names in the braces are
those of the alternatives, but for the segments that begin at a brace. -/
theorem dotPiece_braces_of_open (h : CutsNoDots pre a b)
    (hopen : (lastPiece '/' pre).head? ≠ some '.') :
    (DotPiece (pre ++ inBraces a b ++ post) piece →
        DotPiece (pre ++ a ++ post) piece ∨ DotPiece (pre ++ b ++ post) piece) ∧
      ∀ x ∈ [a, b], BeginsNoDots pre post x → DotPiece (pre ++ x ++ post) piece →
        DotPiece (pre ++ inBraces a b ++ post) piece := by
  obtain ⟨outer, houter⟩ := exists_dotPiece_around pre post
  have hfirst := Text.not_mem_lastPiece '/' pre
  have hlast := Text.not_mem_firstPiece '/' post
  have hbraces := @dotPiece_braces_iff a b piece _ _ hfirst hlast hopen (h.closing a (by simp))
    (h.closing b (by simp))
  have halternative := fun x => @dotPiece_alternative_iff x piece _ _ hfirst hlast
  refine ⟨fun hpiece => ?_, fun x hx hbegins hpiece => ?_⟩
  · rw [houter, hbraces] at hpiece
    rw [houter, houter, halternative, halternative]
    rcases hpiece with houter | ⟨hdotted, hinner | hinner⟩
    · exact .inl (.inl houter)
    · exact .inl (.inr ⟨hdotted, .inl hinner⟩)
    · exact .inr (.inr ⟨hdotted, .inl hinner⟩)
  · rw [houter, halternative, firstPiece_append_firstPiece] at hpiece
    rw [houter, hbraces]
    rcases hpiece with houter | ⟨hdotted, hinner | rfl | ⟨hslash, rfl⟩⟩
    · exact .inl houter
    · obtain rfl | rfl := by simpa using hx
      · exact .inr ⟨hdotted, .inl hinner⟩
      · exact .inr ⟨hdotted, .inr hinner⟩
    · by_cases hnil : lastPiece '/' pre = []
      · rw [hnil, List.nil_append] at hdotted
        exact absurd hdotted (hbegins.opening hnil)
      · obtain ⟨c, cs, hcons⟩ := List.exists_cons_of_ne_nil hnil
        rw [hcons] at hopen hdotted
        exact absurd hdotted.1 hopen
    · by_cases hnil : lastPiece '/' x = []
      · rw [hnil, List.nil_append] at hdotted
        exact absurd hdotted (hbegins.closing hslash hnil)
      · have hend := h.closing x hx hslash
        obtain ⟨c, cs, hcons⟩ := List.exists_cons_of_ne_nil hnil
        rw [hcons] at hend hdotted
        exact absurd hdotted.1 hend

/-- Without slashes the alternatives are written into the segment around the braces. -/
theorem dotPiece_around_iff {x : List Char} (hslash : '/' ∉ x) :
    DotPiece (lastPiece '/' pre ++ x ++ firstPiece '/' post) piece ↔
      IsDotted piece ∧ piece = lastPiece '/' pre ++ x ++ firstPiece '/' post := by
  have hwhole : '/' ∉ lastPiece '/' pre ++ x ++ firstPiece '/' post := by
    simp [Text.not_mem_lastPiece, Text.not_mem_firstPiece, hslash]
  have hpieces := Text.splitList_of_not_mem hwhole
  constructor
  · rintro ⟨hmem, hdotted⟩
    rw [hpieces] at hmem
    exact ⟨hdotted, List.mem_singleton.1 hmem⟩
  · rintro ⟨hdotted, rfl⟩
    exact ⟨by rw [hpieces]; exact List.mem_singleton.2 rfl, hdotted⟩

end Dots

section Named

open Text (firstPiece lastPiece)

variable {pre post a b x piece : List Char} {n : RawText}

/-- A segment that starts with a dot takes the name. -/
def NamedBy (cs : List Char) (n : RawText) : Prop :=
  ∃ piece g, DotPiece cs piece ∧ Glob.readTokens .start none piece = .ok g ∧ g.matchesBytes n = true

/-- Two alternatives that are literal texts, between texts that open nothing. -/
structure IsAround (pre a b post : List Char) : Prop where
  surrounds : Surrounds pre post
  ne_nil : ∀ x ∈ [a, b], x ≠ []
  literal : ∀ x ∈ [a, b], IsLiteralText x

/-- Alternatives without a slash are alternatives of the segment around them too. -/
theorem IsAround.exists_read_segment (h : IsAround pre a b post) (ha : '/' ∉ a) (hb : '/' ∉ b) :
    ∃ g ga gb,
      readTokens .start none (lastPiece '/' pre ++ inBraces a b ++ firstPiece '/' post) = .ok g ∧
      readTokens .start none (lastPiece '/' pre ++ a ++ firstPiece '/' post) = .ok ga ∧
      readTokens .start none (lastPiece '/' pre ++ b ++ firstPiece '/' post) = .ok gb ∧
      ∀ n, IsName n → g.matchesBytes n = (ga.matchesBytes n || gb.matchesBytes n) := by
  have hsurrounds : Surrounds (lastPiece '/' pre) (firstPiece '/' post) := by
    refine ⟨fun c hc => h.surrounds.pre c ?_, fun c hc => h.surrounds.post c ?_⟩
    · exact List.mem_reverse.1 (List.takeWhile_subset _ (List.mem_reverse.1 hc))
    · exact List.takeWhile_subset _ hc
  have halternative : ∀ x ∈ [a, b], '/' ∉ x →
      Alternative (lastPiece '/' pre) (firstPiece '/' post) x := by
    intro x hx hslash
    refine ⟨h.ne_nil x hx, h.literal x hx, fun _ hhead => hslash ?_, fun _ hlast => hslash ?_⟩
    · exact List.mem_of_mem_head? hhead
    · exact List.mem_of_mem_getLast? hlast
  obtain ⟨g, ga, gb, hg, hga, hgb, -, -, haccepts⟩ := Glob.exists_read_braces hsurrounds
    (halternative a (by simp) ha) (halternative b (by simp) hb)
  refine ⟨g, ga, gb, hg, hga, hgb, fun n hn => ?_⟩
  have hend : Glob.endsInParent ([RawText.slash].intercalate [n]) = false :=
    Glob.endsInParent_intercalate (by simpa using hn)
  exact haccepts n (by rwa [List.intercalate_singleton] at hend)

/-- What is read as a glob that takes a name is not the two dots. -/
theorem isDotted_of_accepts {g : Glob} (hread : readTokens .start none piece = .ok g)
    (hhead : piece.head? = some '.') (hlength : 2 ≤ piece.length) (hn : IsName n)
    (haccepts : g.matchesBytes n = true) : IsDotted piece := by
  refine ⟨hhead, ?_, ?_⟩
  · rintro rfl
    simp at hlength
  · rintro rfl
    have hdots : readTokens .start none ['.', '.'] = .ok ⟨['.', '.'].map .literal⟩ := rfl
    obtain rfl := Except.ok.inj (hdots.symm.trans hread)
    exact hn.ne_dots (Glob.eq_of_matchesBytes (by simp) rfl haccepts)

/-- The segment around the braces, where it starts with a dot, holds no slash in its braces. -/
theorem CutsNoDots.slash_not_mem (h : CutsNoDots pre a b)
    (hopen : (lastPiece '/' pre).head? = some '.') : '/' ∉ a ∧ '/' ∉ b :=
  not_or.1 fun hslash => h.opening hslash hopen

/-- Behind a dot a text without a slash adds the names that its whole segment takes. -/
theorem exists_namedBy_iff (hopen : (lastPiece '/' pre).head? = some '.') (post : List Char)
    (hn : IsName n) :
    ∃ named : Prop, ∀ {x : List Char} {g : Glob}, '/' ∉ x → x ≠ [] →
      readTokens .start none (lastPiece '/' pre ++ x ++ firstPiece '/' post) = .ok g →
      (NamedBy (pre ++ x ++ post) n ↔ named ∨ g.matchesBytes n = true) := by
  obtain ⟨outer, houter⟩ := exists_dotPiece_around pre post
  refine ⟨∃ piece g, outer piece ∧ readTokens .start none piece = .ok g ∧ g.matchesBytes n = true, ?_⟩
  intro x g hslash hx hread
  constructor
  · rintro ⟨piece, gp, hpiece, hgp, haccepts⟩
    rcases (houter _ _).1 hpiece with hpiece | hpiece
    · exact .inl ⟨piece, gp, hpiece, hgp, haccepts⟩
    · obtain ⟨-, rfl⟩ := (dotPiece_around_iff hslash).1 hpiece
      obtain rfl := Except.ok.inj (hread.symm.trans hgp)
      exact .inr haccepts
  · rintro (⟨piece, gp, hpiece, hgp, haccepts⟩ | haccepts)
    · exact ⟨piece, gp, (houter _ _).2 (.inl hpiece), hgp, haccepts⟩
    · obtain ⟨lead, hlead⟩ := List.head?_eq_some_iff.1 hopen
      have hpos := List.length_pos_iff.2 hx
      have hlength : 2 ≤ (lastPiece '/' pre ++ x ++ firstPiece '/' post).length := by
        simp only [hlead, List.length_append, List.length_cons]
        omega
      have hdotted := isDotted_of_accepts hread (by rw [hlead]; rfl) hlength hn haccepts
      exact ⟨_, g, (houter _ _).2 (.inr ((dotPiece_around_iff hslash).2 ⟨hdotted, rfl⟩)), hread, haccepts⟩

/-- The names that the segments of the pattern with braces take are those that the segments of the
patterns written out take, but for the segments that begin at a brace. -/
theorem namedBy_braces (h : IsAround pre a b post) (hcuts : CutsNoDots pre a b) (hn : IsName n) :
    (NamedBy (pre ++ inBraces a b ++ post) n → ∃ x ∈ [a, b], NamedBy (pre ++ x ++ post) n) ∧
      ∀ x ∈ [a, b], BeginsNoDots pre post x → NamedBy (pre ++ x ++ post) n →
        NamedBy (pre ++ inBraces a b ++ post) n := by
  by_cases hopen : (lastPiece '/' pre).head? = some '.'
  · obtain ⟨ha, hb⟩ := hcuts.slash_not_mem hopen
    obtain ⟨g, ga, gb, hg, hga, hgb, haccepts⟩ := h.exists_read_segment ha hb
    obtain ⟨named, hnamed⟩ := exists_namedBy_iff hopen post hn
    have hbraces := hnamed (x := inBraces a b) (by simp [inBraces, ha, hb]) (by simp [inBraces]) hg
    have hleft := hnamed ha (h.ne_nil a (by simp)) hga
    have hright := hnamed hb (h.ne_nil b (by simp)) hgb
    rw [haccepts n hn, Bool.or_eq_true] at hbraces
    constructor
    · rw [hbraces]
      rintro (hname | hname | hname)
      · exact ⟨a, by simp, hleft.2 (.inl hname)⟩
      · exact ⟨a, by simp, hleft.2 (.inr hname)⟩
      · exact ⟨b, by simp, hright.2 (.inr hname)⟩
    · intro x hx _ hname
      obtain rfl | rfl := by simpa using hx
      · exact hbraces.2 ((hleft.1 hname).imp_right .inl)
      · exact hbraces.2 ((hright.1 hname).imp_right .inr)
  · constructor
    · rintro ⟨piece, g, hpiece, hread, hg⟩
      rcases (dotPiece_braces_of_open hcuts hopen).1 hpiece with hpiece | hpiece
      · exact ⟨a, by simp, piece, g, hpiece, hread, hg⟩
      · exact ⟨b, by simp, piece, g, hpiece, hread, hg⟩
    · rintro x hx hbegins ⟨piece, g, hpiece, hread, hg⟩
      exact ⟨piece, g, (dotPiece_braces_of_open hcuts hopen).2 x hx hbegins hpiece, hread, hg⟩

/-- Where the segments of the patterns written out are globs, so are those of the pattern with braces. -/
theorem isRead_of_dotPiece (h : IsAround pre a b post) (hcuts : CutsNoDots pre a b)
    (hread : ∀ x ∈ [a, b], ∀ piece, DotPiece (pre ++ x ++ post) piece →
      ∃ g, readTokens .start none piece = .ok g)
    (hpiece : DotPiece (pre ++ inBraces a b ++ post) piece) :
    ∃ g, readTokens .start none piece = .ok g := by
  by_cases hopen : (lastPiece '/' pre).head? = some '.'
  · obtain ⟨ha, hb⟩ := hcuts.slash_not_mem hopen
    obtain ⟨outer, houter⟩ := exists_dotPiece_around pre post
    rcases (houter _ _).1 hpiece with hpiece | hpiece
    · exact hread a (by simp) piece ((houter _ _).2 (.inl hpiece))
    · obtain ⟨-, rfl⟩ := (dotPiece_around_iff (by simp [inBraces, ha, hb])).1 hpiece
      obtain ⟨g, -, -, hg, -⟩ := h.exists_read_segment ha hb
      exact ⟨g, hg⟩
  · rcases (dotPiece_braces_of_open hcuts hopen).1 hpiece with hpiece | hpiece
    · exact hread a (by simp) piece hpiece
    · exact hread b (by simp) piece hpiece

end Named

section Segments

theorem isDotSegment_iff {segment : String} :
    isDotSegment segment = true ↔ IsDotted segment.toList := by
  simp only [isDotSegment, IsDotted, Bool.and_eq_true, bne_iff_ne, ne_eq, startsWith_dot_iff, and_assoc,
    ← String.toList_inj]
  rfl

/-- The segments of patterns that start with a dot. -/
theorem mem_dotSegments_iff {patterns : List String} {segment : String} :
    segment ∈ dotSegments patterns ↔ ∃ pattern ∈ patterns, DotPiece pattern.toList segment.toList := by
  simp only [dotSegments, List.mem_filter, List.mem_flatMap, isDotSegment_iff]
  constructor
  · rintro ⟨⟨pattern, hpattern, hsegment⟩, hdotted⟩
    obtain ⟨piece, hpiece, rfl⟩ := List.mem_map.1 hsegment
    exact ⟨pattern, hpattern, by rwa [String.toList_ofList], hdotted⟩
  · rintro ⟨pattern, hpattern, hmem, hdotted⟩
    exact ⟨⟨pattern, hpattern, List.mem_map.2 ⟨_, hmem, String.ofList_toList⟩⟩, hdotted⟩

end Segments

end Pattern

theorem Selection.namesHidden_iff {included excluded : List String} {s : Selection} {n : RawText}
    (h : compile included excluded = .ok s) :
    s.namesHidden n = true ↔
      ∃ pattern ∈ Pattern.normalizeAll included, Pattern.NamedBy pattern.toList n := by
  obtain ⟨-, hhidden, -⟩ := of_compile_eq_ok h
  rw [namesHidden, List.any_eq_true]
  constructor
  · rintro ⟨glob, hglob, haccepts⟩
    obtain ⟨segment, hsegment, hparse⟩ := hhidden.exists_pattern glob hglob
    obtain ⟨pattern, hpattern, hpiece⟩ := Pattern.mem_dotSegments_iff.1 hsegment
    exact ⟨pattern, hpattern, segment.toList, glob, hpiece, hparse, haccepts⟩
  · rintro ⟨pattern, hpattern, piece, glob, hpiece, hread, haccepts⟩
    have hsegment : String.ofList piece ∈ Pattern.dotSegments (Pattern.normalizeAll included) :=
      Pattern.mem_dotSegments_iff.2 ⟨pattern, hpattern, by rwa [String.toList_ofList]⟩
    obtain ⟨glob', hglob', hparse⟩ := hhidden.exists_glob _ hsegment
    rw [Glob.parse, String.toList_ofList, hread] at hparse
    obtain rfl := Except.ok.inj hparse
    exact ⟨glob, hglob', haccepts⟩

end TextCatalog
