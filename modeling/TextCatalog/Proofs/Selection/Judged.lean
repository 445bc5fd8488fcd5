import TextCatalog.Proofs.Glob.Fault

/-!
# Which patterns are accepted

A selection is compiled from the patterns and from those of their segments that start with a dot, each
of which must be a glob by itself. Where a pattern has a slash inside of braces, a class or an escape, a
segment may be no glob although the pattern is one.
-/

namespace TextCatalog

namespace Pattern

variable {patterns more : List String} {globs : List Glob} {e : Error}

/-- The segments that start with a dot, which are compiled as globs of their own. -/
def dotSegments (patterns : List String) : List String :=
  (patterns.flatMap segments).filter isDotSegment

/-- The error is about the first text that is no glob. -/
def Blames (patterns : List String) (e : Error) : Prop :=
  ∃ pattern fault, patterns.find? (¬ IsGlob ·) = some pattern ∧ Glob.parse pattern = .error fault ∧
    e = .invalidPattern pattern fault.message

/-- The error is about globs that are too much together. -/
def Outgrows (patterns : List String) (e : Error) : Prop :=
  ∃ globs reason, parseAll patterns = .ok globs ∧ Glob.refusal? globs = some reason ∧
    e = .invalidPattern (String.intercalate ", " patterns) reason

theorem find?_eq_none_iff_isGlob :
    patterns.find? (¬ IsGlob ·) = none ↔ ∀ pattern ∈ patterns, IsGlob pattern := by
  simp [List.find?_eq_none]

theorem Blames.append_right (h : Blames patterns e) : Blames (patterns ++ more) e := by
  obtain ⟨pattern, fault, hfind, hfault⟩ := h
  exact ⟨pattern, fault, by rw [List.find?_append, hfind, Option.some_or], hfault⟩

theorem Blames.append_left (hmore : ∀ pattern ∈ more, IsGlob pattern) (h : Blames patterns e) :
    Blames (more ++ patterns) e := by
  obtain ⟨pattern, fault, hfind, hfault⟩ := h
  refine ⟨pattern, fault, ?_, hfault⟩
  rw [List.find?_append, find?_eq_none_iff_isGlob.2 hmore, Option.none_or, hfind]

/-- Globs after the others are never blamed. -/
theorem Blames.of_append (hmore : (∀ pattern ∈ patterns, IsGlob pattern) →
    ∀ pattern ∈ more, IsGlob pattern) (h : Blames (patterns ++ more) e) : Blames patterns e := by
  obtain ⟨pattern, fault, hfind, hfault⟩ := h
  rw [List.find?_append] at hfind
  cases hfirst : patterns.find? (¬ IsGlob ·) with
  | none =>
    rw [hfirst, find?_eq_none_iff_isGlob.2 (hmore (find?_eq_none_iff_isGlob.1 hfirst))] at hfind
    cases hfind
  | some first =>
    rw [hfirst] at hfind
    exact ⟨pattern, fault, hfirst.trans hfind, hfault⟩

theorem isGlob_of_parseAll (h : parseAll patterns = .ok globs) :
    ∀ pattern ∈ patterns, IsGlob pattern := by
  induction patterns generalizing globs with
  | nil => simp
  | cons pattern patterns ih =>
    rw [parseAll] at h
    split at h
    · cases h
    next glob hglob =>
      split at h
      · cases h
      next rest hrest => exact List.forall_mem_cons.2 ⟨isGlob_iff.2 ⟨glob, hglob⟩, ih hrest⟩

theorem blames_of_parseAll (h : parseAll patterns = .error e) : Blames patterns e := by
  induction patterns with
  | nil => cases h
  | cons pattern patterns ih =>
    rw [parseAll] at h
    split at h
    next fault hfault =>
      have hnot : ¬ IsGlob pattern := not_isGlob_iff.2 ⟨fault, hfault⟩
      exact ⟨pattern, fault, by simp [hnot], hfault, (Except.error.inj h).symm⟩
    next glob hglob =>
      split at h
      next e' hrest =>
        obtain rfl := Except.error.inj h
        have hglob : ∀ p ∈ [pattern], IsGlob p := by simpa using isGlob_iff.2 ⟨glob, hglob⟩
        exact (ih hrest).append_left hglob
      next => cases h

/-- A list is compiled when all of it are globs and not too much together. -/
theorem isGlob_of_compile (h : compile patterns = .ok globs) :
    (∀ pattern ∈ patterns, IsGlob pattern) ∧ ∀ e, ¬ Outgrows patterns e := by
  rw [compile] at h
  split at h
  · cases h
  next globs' hparse =>
    refine ⟨isGlob_of_parseAll hparse, ?_⟩
    rintro e ⟨globs'', reason, hparse', hreason, -⟩
    obtain rfl := Except.ok.inj (hparse.symm.trans hparse')
    rw [hreason] at h
    cases h

theorem of_compile_eq_error (h : compile patterns = .error e) :
    Blames patterns e ∨ Outgrows patterns e := by
  rw [compile] at h
  split at h
  next e' hparse =>
    obtain rfl := Except.error.inj h
    exact .inl (blames_of_parseAll hparse)
  next globs hparse =>
    split at h
    next reason hreason => exact .inr ⟨globs, reason, hparse, hreason, (Except.error.inj h).symm⟩
    next => cases h

theorem isGlob_of_mapM_compile {lists : List (List String)} {read : List (List Glob)}
    (h : lists.mapM compile = .ok read) :
    (∀ pattern ∈ lists.flatten, IsGlob pattern) ∧
      ∀ patterns ∈ lists, ∀ e, ¬ Outgrows patterns e := by
  induction lists generalizing read with
  | nil => simp
  | cons patterns lists ih =>
    rw [List.mapM_cons] at h
    cases hfirst : compile patterns with
    | error e => simp [hfirst, bind, Except.bind] at h
    | ok globs =>
      cases hrest : lists.mapM compile with
      | error e => simp [hfirst, hrest, bind, Except.bind] at h
      | ok rest =>
        obtain ⟨hall, hfit⟩ := isGlob_of_compile hfirst
        obtain ⟨halls, hfits⟩ := ih hrest
        rw [List.flatten_cons, List.forall_mem_append, List.forall_mem_cons]
        exact ⟨⟨hall, halls⟩, hfit, hfits⟩

theorem of_mapM_compile_eq_error {lists : List (List String)} (h : lists.mapM compile = .error e) :
    Blames lists.flatten e ∨ ∃ patterns ∈ lists, Outgrows patterns e := by
  induction lists with
  | nil => cases h
  | cons patterns lists ih =>
    rw [List.mapM_cons] at h
    rw [List.flatten_cons, List.exists_mem_cons_iff]
    cases hfirst : compile patterns with
    | error e' =>
      obtain rfl : e' = e := by simpa [hfirst, bind, Except.bind] using h
      exact (of_compile_eq_error hfirst).imp Blames.append_right .inl
    | ok globs =>
      cases hrest : lists.mapM compile with
      | error e' =>
        obtain rfl : e' = e := by simpa [hfirst, hrest, bind, Except.bind] using h
        exact (ih hrest).imp (·.append_left (isGlob_of_compile hfirst).1) .inr
      | ok rest => simp [hfirst, hrest, bind, Except.bind, pure, Except.pure] at h

theorem not_blames (hglobs : ∀ pattern ∈ patterns, IsGlob pattern) : ¬ Blames patterns e := by
  rintro ⟨pattern, fault, hfind, -⟩
  rw [find?_eq_none_iff_isGlob.2 hglobs] at hfind
  cases hfind

theorem dotSegments_isGlob (hcuts : ∀ pattern ∈ patterns, CutsOutside pattern)
    (hglobs : ∀ pattern ∈ patterns, IsGlob pattern) :
    ∀ segment ∈ dotSegments patterns, IsGlob segment := by
  intro segment hsegment
  obtain ⟨pattern, hpattern, hsegment⟩ := List.mem_flatMap.1 (List.mem_filter.1 hsegment).1
  exact forall_segments_isGlob_iff.2 ⟨hglobs pattern hpattern, hcuts pattern hpattern⟩ segment hsegment

end Pattern

namespace Selection

open Pattern (normalizeAll dotSegments IsGlob CutsOutside Blames Outgrows)

variable {included excluded judged : List String} {e : Error}

/-- The lists that are compiled, in this order. -/
def lists (included excluded : List String) : List (List String) :=
  [normalizeAll included, normalizeAll excluded, dotSegments (normalizeAll included)]

/-- A selection is accepted when all of `judged` are globs, and the first of them that is none is named
in the error, as far as no list of globs is too large. -/
structure JudgedBy (included excluded judged : List String) : Prop where
  accepts_iff : (∃ s, compile included excluded = .ok s) ↔
    (∀ pattern ∈ judged, IsGlob pattern) ∧
      ∀ patterns ∈ lists included excluded, ∀ e, ¬ Outgrows patterns e
  blames : ∀ e, compile included excluded = .error e →
    Blames judged e ∨ ∃ patterns ∈ lists included excluded, Outgrows patterns e

/-- Compiling is compiling the lists one after the other. -/
theorem compile_lists (included excluded : List String) :
    ((∃ s, compile included excluded = .ok s) ↔
      ∃ globs, (lists included excluded).mapM Pattern.compile = .ok globs) ∧
    ∀ e, compile included excluded = .error e ↔
      (lists included excluded).mapM Pattern.compile = .error e := by
  have hdotted : dotSegments (normalizeAll included) =
      ((normalizeAll included).flatMap Pattern.segments).filter Pattern.isDotSegment := rfl
  simp only [compile, lists, List.mapM_cons, List.mapM_nil, hdotted]
  cases Pattern.compile (normalizeAll included) with
  | error e => simp [bind, Except.bind]
  | ok included' =>
    cases Pattern.compile (normalizeAll excluded) with
    | error e => simp [bind, Except.bind]
    | ok excluded' =>
      cases Pattern.compile
          (((normalizeAll included).flatMap Pattern.segments).filter Pattern.isDotSegment) with
      | error e => simp [bind, Except.bind]
      | ok hidden => simp [bind, Except.bind, pure, Except.pure]

theorem judgedBy_flatten (included excluded : List String) :
    JudgedBy included excluded (lists included excluded).flatten := by
  obtain ⟨haccepts, herror⟩ := compile_lists included excluded
  constructor
  · rw [haccepts]
    constructor
    · rintro ⟨globs, hglobs⟩
      exact Pattern.isGlob_of_mapM_compile hglobs
    · rintro ⟨hall, hfit⟩
      cases hcompile : (lists included excluded).mapM Pattern.compile with
      | ok globs => exact ⟨globs, rfl⟩
      | error e =>
        rcases Pattern.of_mapM_compile_eq_error hcompile with hblames | ⟨patterns, hmem, houtgrows⟩
        · exact absurd hblames (Pattern.not_blames hall)
        · exact absurd houtgrows (hfit patterns hmem e)
  · intro e he
    exact Pattern.of_mapM_compile_eq_error ((herror e).1 he)

/-- The patterns and their dotted segments are judged, each as a glob by itself. The segments add
nothing where no include pattern has a slash within braces, a class or an escape. -/
theorem compile_judgedBy (included excluded : List String) :
    JudgedBy included excluded (normalizeAll included ++ normalizeAll excluded ++
      dotSegments (normalizeAll included)) ∧
    ((∀ pattern ∈ normalizeAll included, CutsOutside pattern) →
      JudgedBy included excluded (normalizeAll included ++ normalizeAll excluded)) := by
  have hjudged : JudgedBy included excluded (normalizeAll included ++ normalizeAll excluded ++
      dotSegments (normalizeAll included)) := by
    simpa [lists] using judgedBy_flatten included excluded
  refine ⟨hjudged, fun hcuts => ?_⟩
  have hsegments : (∀ pattern ∈ normalizeAll included ++ normalizeAll excluded, IsGlob pattern) →
      ∀ segment ∈ dotSegments (normalizeAll included), IsGlob segment := fun hall =>
    Pattern.dotSegments_isGlob hcuts fun pattern hpattern =>
      hall pattern (List.mem_append_left _ hpattern)
  constructor
  · rw [hjudged.accepts_iff, List.forall_mem_append]
    exact and_congr_left fun _ => ⟨fun h => h.1, fun h => ⟨h, hsegments h⟩⟩
  · intro e he
    exact (hjudged.blames e he).imp_left (·.of_append hsegments)

section Sample

theorem compile_judgedBy_of_braces :
    (∀ pattern ∈ normalizeAll ["./.a/\x7bb,[c-d]\x7d.md", "**/x"], CutsOutside pattern) ∧
      JudgedBy ["./.a/\x7bb,[c-d]\x7d.md", "**/x"] ["y\x7b"]
        (normalizeAll ["./.a/\x7bb,[c-d]\x7d.md", "**/x"] ++ normalizeAll ["y\x7b"]) := by
  have hcuts : ∀ pattern ∈ normalizeAll ["./.a/\x7bb,[c-d]\x7d.md", "**/x"], CutsOutside pattern := by
    have hpatterns : normalizeAll ["./.a/\x7bb,[c-d]\x7d.md", "**/x"] =
        [".a/\x7bb,[c-d]\x7d.md", "**/x"] := by decide +kernel
    rw [hpatterns]
    refine List.forall_mem_cons.2 ⟨?_, List.forall_mem_singleton.2 ?_⟩
    · exact (Pattern.forall_segments_isGlob_iff.1 (by decide +kernel)).2
    · exact (Pattern.forall_segments_isGlob_iff.1 (by decide +kernel)).2
  exact ⟨hcuts, (compile_judgedBy _ ["y\x7b"]).2 hcuts⟩

/-- The alternatives of a glob may hold a slash; then its first segment is no glob. -/
theorem compile_refuses_glob :
    (∀ pattern ∈ normalizeAll [".\x7ba,b/c\x7d"] ++ normalizeAll [], IsGlob pattern) ∧
      compile [".\x7ba,b/c\x7d"] [] =
        .error (.invalidPattern ".\x7ba,b" Glob.Fault.unclosedGroup.message) ∧
      ".\x7ba,b" ∉ normalizeAll [".\x7ba,b/c\x7d"] ++ normalizeAll [] := by
  have herror : (match compile [".\x7ba,b/c\x7d"] [] with
      | .ok _ => false
      | .error e => e == .invalidPattern ".\x7ba,b" Glob.Fault.unclosedGroup.message) = true := by
    decide +kernel
  refine ⟨by decide +kernel, ?_, by decide +kernel⟩
  split at herror
  · cases herror
  next e he => rw [he, eq_of_beq herror]

end Sample

end Selection

end TextCatalog
