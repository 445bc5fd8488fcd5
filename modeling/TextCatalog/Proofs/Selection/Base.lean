import Mathlib.Data.List.TakeWhile
import TextCatalog.Proofs.Glob.Places
import TextCatalog.Proofs.Path.Join
import TextCatalog.Proofs.Path.Order

/-!
# Base directories

The base directory of a pattern is spelled by its leading plain segments. Whatever the pattern takes
starts with these segments, and those of them that start with a dot are hidden names that the selection
spells out.
-/

namespace TextCatalog

open RawText (dot)
open TextCatalog.Path (IsName)

section Steps

open TextCatalog.Path TextCatalog.Path.Component

theorem Path.ofPiece?_text {piece : RawText} {c : Path.Component} (h : ofPiece? piece = some c) :
    c.text = piece ∧ c ≠ .current := by
  rw [ofPiece?] at h
  split at h
  · cases h
  · split at h
    next hdots =>
      obtain rfl := Option.some.inj h
      exact ⟨hdots.symm, by simp⟩
    next =>
      obtain rfl := Option.some.inj h
      exact ⟨rfl, by simp⟩

/-- Pieces that name something are the texts of their components. -/
theorem Path.map_text_filterMap_ofPiece? {pieces : List RawText}
    (h : ∀ piece ∈ pieces, piece ≠ [] ∧ piece ≠ [dot]) :
    (pieces.filterMap ofPiece?).map Component.text = pieces := by
  induction pieces with
  | nil => rfl
  | cons piece pieces ih =>
    obtain ⟨⟨hempty, hdot⟩, hpieces⟩ := List.forall_mem_cons.1 h
    obtain ⟨c, hc⟩ : ∃ c, ofPiece? piece = some c := by
      rw [ofPiece?, if_neg (by simp [hempty, hdot])]
      split <;> exact ⟨_, rfl⟩
    rw [List.filterMap_cons_some hc, List.map_cons, (Path.ofPiece?_text hc).1, ih hpieces]

/-- The steps of a relative path are its components without a dot at the start. -/
theorem Path.steps_eq_filter_components {p : Path} (h : p.isAbsolute = false) :
    p.steps = p.components.filter (· ≠ .current) := by
  have hkeep : ∀ pieces : List RawText,
      (pieces.filterMap ofPiece?).filter (· ≠ .current) = pieces.filterMap ofPiece? := by
    intro pieces
    apply List.filter_eq_self.2
    intro c hc
    obtain ⟨piece, -, hpiece⟩ := List.mem_filterMap.1 hc
    simpa using (Path.ofPiece?_text hpiece).2
  rw [steps, components, if_neg (by simp [h])]
  split
  · rw [List.filter_cons_of_neg (by simp), hkeep]
  · exact (hkeep _).symm

end Steps

namespace Pattern

theorem startsWith_dot_iff {segment : String} :
    Text.startsWith "." segment = true ↔ segment.toList.head? = some '.' := by
  rw [Text.startsWith, Option.isSome_iff_exists, List.head?_eq_some_iff]
  exact exists_congr fun rest => Text.restAfter?_eq_some_iff

variable {patterns : List String} {globs : List Glob} {pattern : String}

/-- The globs are those that the patterns are read as. -/
structure AreRead (patterns : List String) (globs : List Glob) : Prop where
  exists_glob : ∀ pattern ∈ patterns, ∃ glob ∈ globs, Glob.parse pattern = .ok glob
  exists_pattern : ∀ glob ∈ globs, ∃ pattern ∈ patterns, Glob.parse pattern = .ok glob

theorem areRead_of_parseAll (h : parseAll patterns = .ok globs) : AreRead patterns globs := by
  induction patterns generalizing globs with
  | nil =>
    obtain rfl := Except.ok.inj h
    exact ⟨by simp, by simp⟩
  | cons pattern patterns ih =>
    rw [parseAll] at h
    split at h
    next => cases h
    next glob hglob =>
      split at h
      next => cases h
      next rest hrest =>
        obtain rfl := Except.ok.inj h
        obtain ⟨hglobs, hpatterns⟩ := ih hrest
        constructor
        · refine List.forall_mem_cons.2 ⟨⟨glob, by simp, hglob⟩, fun other hother => ?_⟩
          obtain ⟨glob', hmem, hparse⟩ := hglobs other hother
          exact ⟨glob', List.mem_cons_of_mem _ hmem, hparse⟩
        · refine List.forall_mem_cons.2 ⟨⟨pattern, by simp, hglob⟩, fun other hother => ?_⟩
          obtain ⟨pattern', hmem, hparse⟩ := hpatterns other hother
          exact ⟨pattern', List.mem_cons_of_mem _ hmem, hparse⟩

theorem areRead_of_compile (h : compile patterns = .ok globs) : AreRead patterns globs := by
  rw [compile] at h
  split at h
  next => cases h
  next globs' hparse =>
    split at h
    next => cases h
    next =>
      obtain rfl := Except.ok.inj h
      exact areRead_of_parseAll hparse

theorem compile_of_parseAll (h : parseAll patterns = .ok globs) (hfit : Glob.refusal? globs = none) :
    compile patterns = .ok globs := by
  rw [compile, h]
  dsimp only
  rw [hfit]

/-- The segments that name the base directory. -/
def leads (pattern : String) : List String :=
  (segments pattern).dropLast.takeWhile isPlain

theorem segments_eq_append_leads (pattern : String) :
    ∃ rest, rest ≠ [] ∧ segments pattern = leads pattern ++ rest := by
  have hne : segments pattern ≠ [] := by
    rw [segments, Text.split, ne_eq, List.map_eq_nil_iff]
    exact Text.splitList_ne_nil _ _
  refine ⟨(segments pattern).dropLast.dropWhile isPlain ++ [(segments pattern).getLast hne],
    by simp, ?_⟩
  rw [leads, ← List.append_assoc, List.takeWhile_append_dropWhile,
    List.dropLast_append_getLast hne]

theorem mem_segments_of_mem_leads {segment : String} (h : segment ∈ leads pattern) :
    segment ∈ segments pattern :=
  List.dropLast_subset _ (List.takeWhile_subset _ h)

theorem slash_not_mem_of_mem_leads {segment : String} (h : segment ∈ leads pattern) :
    '/' ∉ segment.toList :=
  Text.not_mem_of_mem_split (mem_segments_of_mem_leads h)

theorem not_mem_metaChars {segment : String} (h : segment ∈ leads pattern) :
    ∀ c ∈ segment.toList, c ∉ metaChars := by
  have hnone : isPlain segment = true := List.mem_takeWhile_imp h
  rw [isPlain, Bool.not_eq_true', List.any_eq_false] at hnone
  simpa using hnone

theorem base_eq (pattern : String) :
    base pattern = ⟨String.intercalate "/" ((leads pattern).filter (· ≠ ""))⟩ := rfl

theorem pieces_base (hne : (leads pattern).filter (· ≠ "") ≠ []) :
    (base pattern).pieces = ((leads pattern).filter (· ≠ "")).map Text.bytes := by
  rw [Path.pieces, base_eq, RawText.bytes_intercalate]
  refine Text.splitList_intercalate (List.map_eq_nil_iff.not.2 hne) (List.forall_mem_map.2 ?_)
  intro segment hsegment
  exact mt RawText.slash_mem_bytes_iff.1 (slash_not_mem_of_mem_leads (List.mem_of_mem_filter hsegment))

theorem steps_base (pattern : String) :
    (base pattern).steps = ((leads pattern).map Text.bytes).filterMap Path.Component.ofPiece? := by
  have hkeep : (((leads pattern).filter (· ≠ "")).map Text.bytes).filterMap Path.Component.ofPiece?
      = ((leads pattern).map Text.bytes).filterMap Path.Component.ofPiece? := by
    rw [List.filterMap_map, List.filterMap_map, List.filterMap_filter]
    refine List.filterMap_congr fun segment _ => ?_
    by_cases hempty : segment = ""
    · rw [hempty]
      rfl
    · simp [hempty]
  rw [← hkeep]
  by_cases hne : (leads pattern).filter (· ≠ "") = []
  · rw [base_eq, hne]
    rfl
  · rw [Path.steps, pieces_base hne]

theorem isAbsolute_base (pattern : String) : (base pattern).isAbsolute = false := by
  by_contra habs
  obtain ⟨rest, hrest⟩ := Path.pieces_of_isAbsolute (Bool.not_eq_false _ ▸ habs)
  by_cases hne : (leads pattern).filter (· ≠ "") = []
  · rw [base_eq, hne] at habs
    exact habs rfl
  · rw [pieces_base hne] at hrest
    obtain ⟨segment, hsegment, hempty⟩ :=
      List.mem_map.1 (hrest ▸ List.mem_cons_self : [] ∈ ((leads pattern).filter (· ≠ "")).map Text.bytes)
    have hname : segment = "" := RawText.bytes_injective hempty
    simp [hname] at hsegment

/-- The components of a base directory are the segments that name it, if each of them names
something. -/
theorem map_text_components_base (h : ∀ segment ∈ leads pattern, segment ≠ "" ∧ segment ≠ ".") :
    (base pattern).components.map Path.Component.text = (leads pattern).map Text.bytes := by
  have hkeep : (leads pattern).filter (· ≠ "") = leads pattern :=
    List.filter_eq_self.2 fun segment hsegment => by simpa using (h segment hsegment).1
  by_cases hnil : leads pattern = []
  · rw [base_eq, hnil]
    rfl
  · have hpieces : (base pattern).pieces = (leads pattern).map Text.bytes := by
      rw [pieces_base (by rwa [hkeep]), hkeep]
    have hnamed : ∀ piece ∈ (leads pattern).map Text.bytes, piece ≠ [] ∧ piece ≠ [dot] := by
      refine List.forall_mem_map.2 fun segment hsegment => ?_
      obtain ⟨hempty, hdot⟩ := h segment hsegment
      exact ⟨(RawText.bytes_injective.ne_iff (y := "")).2 hempty,
        (RawText.bytes_injective.ne_iff (y := ".")).2 hdot⟩
    rw [Path.components, if_neg (by simp [isAbsolute_base]), hpieces, if_neg]
    · exact Path.map_text_filterMap_ofPiece? hnamed
    · intro hdot
      exact (hnamed _ (List.mem_of_mem_head? hdot)).2 rfl

/-- What a pattern takes starts with the segments that name its base directory. -/
theorem exists_eq_append_of_accepts {glob : Glob} {names : List String}
    (hnames : ∀ n ∈ names, '/' ∉ n.toList) (hne : names ≠ [])
    (hglob : Glob.parse pattern = .ok glob)
    (h : glob.accepts (String.intercalate "/" names) = true) :
    ∃ rest, rest ≠ [] ∧ names = leads pattern ++ rest := by
  by_cases hleads : leads pattern = []
  · exact ⟨names, hne, by rw [hleads]; rfl⟩
  obtain ⟨rest, hrest, hsegments⟩ := segments_eq_append_leads pattern
  have hplain : ∀ c ∈ (String.intercalate "/" (leads pattern)).toList, c ∉ metaChars := by
    intro c hc
    rcases Text.mem_of_mem_intercalate hc with hsep | ⟨segment, hsegment, hmem⟩
    · obtain rfl : c = '/' := by simpa using hsep
      decide
    · exact not_mem_metaChars hsegment c hmem
  have htext : pattern.toList = (String.intercalate "/" (leads pattern)).toList
      ++ '/' :: (String.intercalate "/" rest).toList := by
    have hwhole : String.intercalate "/" (leads pattern ++ rest) = pattern := by
      rw [← hsegments]
      exact Text.intercalate_split pattern
    rw [String.intercalate_append_of_ne_nil hleads hrest] at hwhole
    rw [← congrArg String.toList hwhole, String.toList_append, String.toList_append,
      List.append_assoc]
    rfl
  obtain ⟨sep, ts, hsep, htokens⟩ := Glob.tokens_of_parse_slash hplain htext hglob
  obtain ⟨tail, htail⟩ := Glob.exists_eq_append_of_accepts htokens hsep h
  have hwhole : String.intercalate "/" names
      = String.intercalate "/" (leads pattern) ++ String.ofList ['/'] ++ String.ofList tail := by
    apply String.toList_inj.1
    rw [htail]
    simp
  have hsplit : names = leads pattern ++ Text.split '/' (String.ofList tail) := by
    have hnames' : Text.split '/' (String.intercalate "/" names) = names :=
      Text.split_intercalate hne hnames
    have hleads' : Text.split '/' (String.intercalate "/" (leads pattern)) = leads pattern :=
      Text.split_intercalate hleads fun _ => slash_not_mem_of_mem_leads
    rw [← hnames', hwhole, Text.split_append, hleads']
  exact ⟨_, by simp [Text.split, Text.splitList_ne_nil], hsplit⟩

end Pattern

namespace Selection

variable {included excluded : List String} {s : Selection} {name : RawText}

/-- What a compiled selection is made of. -/
theorem compile_eq_ok_iff :
    compile included excluded = .ok s ↔
      Pattern.compile (Pattern.normalizeAll included) = .ok s.included ∧
      Pattern.compile (Pattern.normalizeAll excluded) = .ok s.excluded ∧
      Pattern.compile (((Pattern.normalizeAll included).flatMap Pattern.segments).filter
        Pattern.isDotSegment) = .ok s.hidden ∧
      s.bases = Path.distinct ((Pattern.normalizeAll included).map Pattern.base) := by
  obtain ⟨included', excluded', hidden', bases'⟩ := s
  rw [compile]
  cases Pattern.compile (Pattern.normalizeAll included) with
  | error e => simp [bind, Except.bind]
  | ok includes =>
    cases Pattern.compile (Pattern.normalizeAll excluded) with
    | error e => simp [bind, Except.bind]
    | ok excludes =>
      cases Pattern.compile (((Pattern.normalizeAll included).flatMap Pattern.segments).filter
          Pattern.isDotSegment) with
      | error e => simp [bind, Except.bind]
      | ok dotted => simp [bind, Except.bind, pure, Except.pure, eq_comm]

theorem of_compile_eq_ok (h : compile included excluded = .ok s) :
    Pattern.AreRead (Pattern.normalizeAll included) s.included ∧
      Pattern.AreRead (((Pattern.normalizeAll included).flatMap Pattern.segments).filter
        Pattern.isDotSegment) s.hidden ∧
      s.bases = Path.distinct ((Pattern.normalizeAll included).map Pattern.base) := by
  obtain ⟨hincluded, -, hhidden, hbases⟩ := compile_eq_ok_iff.1 h
  exact ⟨Pattern.areRead_of_compile hincluded, Pattern.areRead_of_compile hhidden, hbases⟩

/-- The names of a base directory that start with a dot are spelled out by the pattern. -/
theorem admits_of_mem_steps_base (h : compile included excluded = .ok s) {pattern : String}
    (hpattern : pattern ∈ Pattern.normalizeAll included)
    (hname : .name name ∈ (Pattern.base pattern).steps) : s.admits name = true := by
  rw [admits]
  by_cases hdot : name.head? = some dot
  · have hisName : IsName name := by
      rcases Path.mem_steps hname with hup | ⟨n, heq, hn⟩
      · cases hup
      · rwa [Path.Component.name.inj heq]
    rw [Pattern.steps_base] at hname
    obtain ⟨piece, hlead, hpiece⟩ := List.mem_filterMap.1 hname
    obtain rfl : name = piece := (Path.ofPiece?_text hpiece).1
    obtain ⟨segment, hsegment, rfl⟩ := List.mem_map.1 hlead
    obtain ⟨-, hone, htwo, -⟩ := Path.isName_bytes_iff.1 hisName
    have hmem : segment ∈ ((Pattern.normalizeAll included).flatMap Pattern.segments).filter
        Pattern.isDotSegment := by
      refine List.mem_filter.2 ⟨List.mem_flatMap.2 ⟨pattern, hpattern,
        Pattern.mem_segments_of_mem_leads hsegment⟩, ?_⟩
      have hstarts := Pattern.startsWith_dot_iff.2 (RawText.head?_bytes_eq_dot_iff.1 hdot)
      simp [Pattern.isDotSegment, hstarts, hone, htwo]
    obtain ⟨-, hhidden, -⟩ := of_compile_eq_ok h
    obtain ⟨glob, hglob, hparse⟩ := hhidden.exists_glob segment hmem
    have htokens := Glob.tokens_of_parse_plain (Pattern.not_mem_metaChars hsegment) hparse
    rw [namesHidden, List.any_eq_true.2 ⟨glob, hglob, Glob.accepts_of_literals htokens⟩,
      Bool.or_true]
  · simp [hdot]

theorem exists_of_mem_bases (h : compile included excluded = .ok s) {base : Path}
    (hbase : base ∈ s.bases) :
    ∃ pattern ∈ Pattern.normalizeAll included, base = Pattern.base pattern := by
  obtain ⟨-, -, hbases⟩ := of_compile_eq_ok h
  obtain ⟨pattern, hpattern, rfl⟩ := List.mem_map.1 (Path.mem_of_mem_distinct (hbases ▸ hbase))
  exact ⟨pattern, hpattern, rfl⟩

/-- Every pattern has its base directory among those that are walked. -/
theorem exists_components_eq (h : compile included excluded = .ok s) {pattern : String}
    (hpattern : pattern ∈ Pattern.normalizeAll included) :
    ∃ base ∈ s.bases, base.components = (Pattern.base pattern).components := by
  obtain ⟨-, -, hbases⟩ := of_compile_eq_ok h
  rw [hbases]
  exact Path.exists_mem_distinct (List.mem_map_of_mem (f := Pattern.base) hpattern)

theorem isAbsolute_of_mem_bases (h : compile included excluded = .ok s) {base : Path}
    (hbase : base ∈ s.bases) : base.isAbsolute = false := by
  obtain ⟨pattern, -, rfl⟩ := exists_of_mem_bases h hbase
  exact Pattern.isAbsolute_base pattern

theorem exists_mem_bases (h : compile included excluded = .ok s) {pattern : String}
    (hpattern : pattern ∈ Pattern.normalizeAll included) :
    ∃ base ∈ s.bases, base.isAbsolute = false ∧ base.steps = (Pattern.base pattern).steps := by
  obtain ⟨base, hbase, hsame⟩ := exists_components_eq h hpattern
  have hrelative := isAbsolute_of_mem_bases h hbase
  refine ⟨base, hbase, hrelative, ?_⟩
  rw [Path.steps_eq_filter_components hrelative, hsame,
    Path.steps_eq_filter_components (Pattern.isAbsolute_base pattern)]

theorem isSegment {n : String} (h : IsName n) : n ≠ "" ∧ '/' ∉ n.toList :=
  ⟨(Path.isName_bytes_iff.1 h).1, (Path.isName_bytes_iff.1 h).2.2.2⟩

/-- No slash is taken off a path before it is matched, if no segment is empty. -/
theorem after?_intercalate {segments : List String} (hne : segments ≠ [])
    (hsegments : ∀ segment ∈ segments, segment ≠ "" ∧ '/' ∉ segment.toList) :
    Text.after? "/" (String.intercalate "/" segments) = none := by
  by_contra hsome
  obtain ⟨rest, hrest⟩ := Option.ne_none_iff_exists'.1 hsome
  have hsplit : Text.split '/' (String.intercalate "/" segments) = segments :=
    Text.split_intercalate hne fun segment hsegment => (hsegments segment hsegment).2
  have hcut : Text.split '/' ("" ++ "/" ++ rest) = Text.split '/' "" ++ Text.split '/' rest :=
    Text.split_append "" rest
  rw [String.empty_append, ← Text.after?_eq_some_iff.1 hrest, hsplit] at hcut
  have hempty : "" ∈ segments := hcut ▸ List.mem_append_left _ (List.mem_singleton.2 rfl)
  exact (hsegments "" hempty).1 rfl

/-- What is selected is taken by a pattern and starts with the segments that name its base
directory. -/
theorem exists_pattern_of_selects (h : compile included excluded = .ok s) {segments : List String}
    (hne : segments ≠ []) (hsegments : ∀ segment ∈ segments, segment ≠ "" ∧ '/' ∉ segment.toList)
    (hselects : s.selects (String.intercalate "/" segments) = true) :
    ∃ pattern ∈ Pattern.normalizeAll included,
      (∃ glob, Glob.parse pattern = .ok glob ∧
        glob.accepts (String.intercalate "/" segments) = true) ∧
      ∃ rest, rest ≠ [] ∧ segments = Pattern.leads pattern ++ rest := by
  rw [selects, after?_intercalate hne hsegments] at hselects
  obtain ⟨glob, hglob, haccepts⟩ := List.any_eq_true.1 (Bool.and_eq_true_iff.1 hselects).1
  obtain ⟨hincluded, -, -⟩ := of_compile_eq_ok h
  obtain ⟨pattern, hpattern, hparse⟩ := hincluded.exists_pattern glob hglob
  refine ⟨pattern, hpattern, ⟨glob, hparse, haccepts⟩, ?_⟩
  exact Pattern.exists_eq_append_of_accepts (fun segment hsegment => (hsegments segment hsegment).2)
    hne hparse haccepts

/-- What is selected below the root lies below the base directory of the pattern that takes it, and its
first names lead there. -/
theorem exists_base_of_selects (h : compile included excluded = .ok s) {names : List String}
    (hne : names ≠ []) (hnames : ∀ n ∈ names, IsName n)
    (hselects : s.selects (String.intercalate "/" names) = true) :
    ∃ base ∈ s.bases, ∃ front rest, names = front ++ rest ∧ rest ≠ [] ∧
      base.steps = (front.map Text.bytes).map .name := by
  obtain ⟨pattern, hpattern, -, rest, hrest, hleads⟩ :=
    exists_pattern_of_selects h hne (fun n hn => isSegment (hnames n hn)) hselects
  obtain ⟨base, hbase, -, hsteps⟩ := exists_mem_bases h hpattern
  refine ⟨base, hbase, Pattern.leads pattern, rest, hleads, hrest, ?_⟩
  rw [hsteps, Pattern.steps_base]
  refine Path.filterMap_ofPiece? (List.forall_mem_map.2 fun n hn => ?_)
  exact hnames n (hleads ▸ List.mem_append_left rest hn)

/-- Names that are UTF-8 are spelled by the patterns as they are. -/
theorem exists_base_of_selects_read (h : compile included excluded = .ok s) {names : List RawText}
    (hne : names ≠ []) (hnames : ∀ n ∈ names, IsName n) (htext : ∀ n ∈ names, RawText.IsText n)
    (hselects : s.selects (String.intercalate "/" (names.map RawText.lossy)) = true) :
    ∃ base ∈ s.bases, ∃ front rest, names = front ++ rest ∧ rest ≠ [] ∧ base.steps = front.map .name := by
  have hread : ∀ n ∈ names.map RawText.lossy, IsName n :=
    List.forall_mem_map.2 fun n hn => (hnames n hn).lossy
  obtain ⟨base, hbase, front, rest, hleads, hrest, hsteps⟩ :=
    exists_base_of_selects h (List.map_eq_nil_iff.not.2 hne) hread hselects
  refine ⟨base, hbase, front.map Text.bytes, rest.map Text.bytes, ?_, by simpa using hrest, hsteps⟩
  rw [← List.map_append, ← hleads, RawText.map_bytes_lossy htext]

/-- **Base directories cover what is selected.** A path that is selected, of whatever segments but empty
ones and single dots, lies properly below one of the base directories, segment by segment. It is that of
a pattern that takes the path, and its segments are the first ones of that pattern without syntax. -/
theorem bases_cover_selected (h : compile included excluded = .ok s) {path : String}
    (hpath : ∀ segment ∈ Text.split '/' path, segment ≠ "" ∧ segment ≠ ".")
    (hselects : s.selects path = true) :
    ∃ base ∈ s.bases,
      (∃ rest, rest ≠ [] ∧
        (Text.split '/' path).map Text.bytes = base.components.map Path.Component.text ++ rest) ∧
      ∃ pattern ∈ Pattern.normalizeAll included,
        (∃ glob, Glob.parse pattern = .ok glob ∧ glob.accepts path = true) ∧
        base.components.map Path.Component.text
          = ((Pattern.segments pattern).dropLast.takeWhile Pattern.isPlain).map Text.bytes := by
  have hne : Text.split '/' path ≠ [] := by
    rw [Text.split, ne_eq, List.map_eq_nil_iff]
    exact Text.splitList_ne_nil _ _
  have hwhole : String.intercalate "/" (Text.split '/' path) = path := Text.intercalate_split path
  have hsegments : ∀ segment ∈ Text.split '/' path, segment ≠ "" ∧ '/' ∉ segment.toList :=
    fun segment hsegment => ⟨(hpath segment hsegment).1, Text.not_mem_of_mem_split hsegment⟩
  obtain ⟨pattern, hpattern, htaken, rest, hrest, hleads⟩ :=
    exists_pattern_of_selects h hne hsegments (by rwa [hwhole])
  obtain ⟨base, hbase, hsame⟩ := exists_components_eq h hpattern
  have htexts : base.components.map Path.Component.text = (Pattern.leads pattern).map Text.bytes := by
    rw [hsame]
    refine Pattern.map_text_components_base fun segment hsegment => hpath segment ?_
    rw [hleads]
    exact List.mem_append_left rest hsegment
  rw [hwhole] at htaken
  refine ⟨base, hbase, ⟨rest.map Text.bytes, by simpa using hrest, ?_⟩, pattern, hpattern, htaken, htexts⟩
  rw [htexts, hleads, List.map_append]

section Sample

/-- Two patterns with one base directory, the second with a slash in its braces and with an escape. -/
def slashedPatterns : List String :=
  ["a/./b/n.md", "./a/b/\x7bc[/]d,e\x7d/\\*.md"]

def slashedSelection : Selection :=
  ⟨[⟨"a/./b/n.md".toList.map .literal⟩,
    ⟨"a/b/".toList.map .literal ++
      [.oneOf [[.literal 'c', .byteClass false [('/', '/')], .literal 'd'], [.literal 'e']]] ++
      "/*.md".toList.map .literal⟩], [], [], [⟨"a/./b"⟩]⟩

theorem compile_slashed : compile slashedPatterns [] = .ok slashedSelection := by
  have hnormal : Pattern.normalizeAll slashedPatterns
      = ["a/./b/n.md", "a/b/\x7bc[/]d,e\x7d/\\*.md"] := by decide +kernel
  have hbases : ["a/./b/n.md", "a/b/\x7bc[/]d,e\x7d/\\*.md"].map Pattern.base
      = [⟨"a/./b"⟩, ⟨"a/b"⟩] := by decide +kernel
  rw [compile_eq_ok_iff, hnormal, hbases]
  refine ⟨Pattern.compile_of_parseAll (by with_unfolding_all rfl) (by decide +kernel),
    by with_unfolding_all rfl, by with_unfolding_all rfl, ?_⟩
  rw [Path.distinct, List.mergeSort_of_pairwise (by decide +kernel)]
  decide +kernel

/-- The directory that the two patterns share is kept as the first of them writes it. -/
theorem bases_cover_selected_behind_braces :
    compile slashedPatterns [] = .ok slashedSelection ∧
      (∀ segment ∈ Text.split '/' "a/b/c/d/*.md", segment ≠ "" ∧ segment ≠ ".") ∧
      slashedSelection.selects "a/b/c/d/*.md" = true ∧
      ∃ base ∈ slashedSelection.bases, ∃ rest, rest ≠ [] ∧
        ["a", "b", "c", "d", "*.md"].map Text.bytes = base.components.map Path.Component.text ++ rest := by
  have hpath : ∀ segment ∈ Text.split '/' "a/b/c/d/*.md", segment ≠ "" ∧ segment ≠ "." := by
    decide +kernel
  have hselects : slashedSelection.selects "a/b/c/d/*.md" = true := by decide +kernel
  have hsegments : Text.split '/' "a/b/c/d/*.md" = ["a", "b", "c", "d", "*.md"] := by
    decide +kernel
  obtain ⟨base, hbase, ⟨rest, hrest, hcover⟩, -⟩ :=
    bases_cover_selected compile_slashed hpath hselects
  exact ⟨compile_slashed, hpath, hselects, base, hbase, rest, hrest, hsegments ▸ hcover⟩

end Sample

end Selection

end TextCatalog
