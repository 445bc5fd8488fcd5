import TextCatalog.Proofs.Pipeline.Apart
import TextCatalog.Proofs.Selection.Judged
import TextCatalog.Proofs.Selection.Normal

/-!
# Projects without an include glob

A configuration is refused for want of include patterns when all of them are blank, while a pattern makes
no glob when there is no name in it. So a configuration whose include patterns are marks of the root, and
not all of them blank, is accepted with nothing to select.
-/

namespace TextCatalog

section Refused

variable {included excluded : List String} {cwd root : Path} {config : Config} {e : Error}

theorem Delimiters.validate_ne_missingInclude (d : Delimiters) :
    d.validate ≠ .error .missingInclude := by
  rw [validate]
  split
  · simp
  · split <;> simp

theorem Config.virtualModule_ne_missingInclude (config : Config) :
    config.virtualModule ≠ .error .missingInclude := by
  rw [virtualModule]
  split
  · split <;> simp
  · simp

/-- Only patterns are invalid in a selection. -/
theorem Selection.exists_of_compile_eq_error (h : compile included excluded = .error e) :
    ∃ pattern reason, e = .invalidPattern pattern reason := by
  rcases (judgedBy_flatten included excluded).blames e h with
    ⟨pattern, fault, -, -, rfl⟩ | ⟨patterns, -, globs, reason, -, -, rfl⟩
  · exact ⟨pattern, fault.message, rfl⟩
  · exact ⟨String.intercalate ", " patterns, reason, rfl⟩

theorem Path.absolute_ne_missingInclude (cwd p : Path) :
    Path.absolute cwd p ≠ .error .missingInclude := by
  rw [absolute]
  split <;> simp

theorem of_bind_eq_error {α β : Type} {x : Except Error α} {f : α → Except Error β}
    (h : x >>= f = .error e) : x = .error e ∨ ∃ a, x = .ok a ∧ f a = .error e := by
  cases x with
  | error e' => exact .inl (congrArg _ (Except.error.inj h))
  | ok a => exact .inr ⟨a, rfl, h⟩

/-- Include patterns are missing when all of them are blank, whatever else is wrong. -/
theorem Config.context_eq_missingInclude_iff :
    config.context cwd root = .error .missingInclude ↔
      ∀ pattern ∈ config.included.toList, Text.isBlankText pattern = true := by
  rw [← List.all_eq_true]
  change _ ↔ config.included.isBlank = true
  unfold Config.context
  dsimp only
  split
  next hblank => simp [hblank, bind, Except.bind]
  next hblank =>
    refine iff_of_false (fun h => ?_) hblank
    rcases of_bind_eq_error h with hvalid | ⟨_, -, h⟩
    · exact config.delimiters.validate_ne_missingInclude hvalid
    rcases of_bind_eq_error h with hvirtual | ⟨_, -, h⟩
    · exact config.virtualModule_ne_missingInclude hvirtual
    rcases of_bind_eq_error h with hcompile | ⟨_, -, h⟩
    · obtain ⟨_, _, hinvalid⟩ := Selection.exists_of_compile_eq_error hcompile
      cases hinvalid
    rcases of_bind_eq_error h with habsolute | ⟨_, -, h⟩
    · exact Path.absolute_ne_missingInclude cwd root habsolute
    · cases h

end Refused

section Compiled

variable {patterns : List String} {globs : List Glob}

theorem Pattern.AreRead.eq_nil_iff (h : AreRead patterns globs) : globs = [] ↔ patterns = [] := by
  rw [List.eq_nil_iff_forall_not_mem, List.eq_nil_iff_forall_not_mem]
  constructor
  · intro hnone pattern hpattern
    obtain ⟨glob, hglob, -⟩ := h.exists_glob pattern hpattern
    exact hnone glob hglob
  · intro hnone glob hglob
    obtain ⟨pattern, hpattern, -⟩ := h.exists_pattern glob hglob
    exact hnone pattern hpattern

theorem Path.distinct_eq_nil_iff {paths : List Path} : distinct paths = [] ↔ paths = [] := by
  rw [List.eq_nil_iff_forall_not_mem, List.eq_nil_iff_forall_not_mem]
  constructor
  · intro hnone path hpath
    obtain ⟨path', hpath', -⟩ := exists_mem_distinct hpath
    exact hnone path' hpath'
  · exact fun hnone path hpath => hnone path (mem_of_mem_distinct hpath)

/-- The patterns of a virtual module that are not negated are its include patterns. -/
theorem Artifact.VirtualModule.Source.exists_positive_iff {s : Source} :
    (∃ pattern ∈ s.globPatterns, Text.startsWith "!" pattern = false) ↔
      Pattern.normalizeAll s.included ≠ [] := by
  have hpositive : ∀ pattern, Text.startsWith "!" ("/" ++ pattern) = false := fun pattern =>
    Text.startsWith_eq_false_iff.2 fun rest => by simp
  have hnegated : ∀ pattern, Text.startsWith "!" ("!/" ++ pattern) = true := fun pattern =>
    Text.startsWith_iff.2 ⟨"/" ++ pattern, by rw [← String.append_assoc]; rfl⟩
  rw [ne_eq, List.eq_nil_iff_forall_not_mem]
  push Not
  constructor
  · rintro ⟨_, hmem, hstart⟩
    rcases List.mem_append.1 hmem with hmem | hmem
    · obtain ⟨pattern, hpattern, -⟩ := List.mem_map.1 hmem
      exact ⟨pattern, hpattern⟩
    · obtain ⟨pattern, -, rfl⟩ := List.mem_map.1 hmem
      rw [hnegated] at hstart
      cases hstart
  · rintro ⟨pattern, hpattern⟩
    exact ⟨"/" ++ pattern, List.mem_append_left _ (List.mem_map_of_mem hpattern), hpositive pattern⟩

end Compiled

/-- What the virtual module is made from. -/
def Context.moduleSource (c : Context) : Artifact.VirtualModule.Source :=
  ⟨c.included, c.excluded, c.stripPrefix⟩

namespace Pipeline

variable {p : Pipeline} {host : Host} {root : Path} {config : Config}

theorem included_of_ofConfig (h : ofConfig host root config = .ok p) :
    p.context.included = config.included.toList := by
  obtain ⟨hcontext, -⟩ := of_ofConfig_eq_ok h
  unfold Config.context at hcontext
  dsimp only at hcontext
  split at hcontext
  · cases hcontext
  · obtain ⟨_, -, hvalid⟩ := of_bind_eq_ok hcontext
    obtain ⟨_, -, hvirtual⟩ := of_bind_eq_ok hvalid
    obtain ⟨_, -, hcompiled⟩ := of_bind_eq_ok hvirtual
    obtain ⟨_, -, hdone⟩ := of_bind_eq_ok hcompiled
    rw [← Except.ok.inj hdone]

theorem eq_render_of_virtualSource {text : String} (h : p.virtualSource = .ok text) :
    text = Artifact.VirtualModule.render p.context.moduleSource p.context.options.delimiters := by
  rw [virtualSource] at h
  split at h
  · cases h
  · exact (Except.ok.inj h).symm

/-- Include patterns are missing when all of them are blank, and there is no glob when all of them are
bare. A project has an include glob, a base directory and a positive pattern in its virtual module exactly
if one of its include patterns has a name in it. -/
theorem has_glob_iff (host : Host) (root : Path) (config : Config) :
    (config.context host.cwd root = .error .missingInclude ↔
      ∀ pattern ∈ config.included.toList, Text.isBlankText pattern = true) ∧
    (Pattern.normalizeAll config.included.toList = [] ↔
      ∀ pattern ∈ config.included.toList, Pattern.IsBare pattern) ∧
    ((config.context host.cwd root = .error .missingInclude ↔
        Pattern.normalizeAll config.included.toList = []) ↔
      ((∀ pattern ∈ config.included.toList, Pattern.IsBare pattern) →
        ∀ pattern ∈ config.included.toList, Text.isBlankText pattern = true)) ∧
    ∀ p, ofConfig host root config = .ok p →
      (p.selection.included ≠ [] ↔ ∃ pattern ∈ config.included.toList, ¬ Pattern.IsBare pattern) ∧
      (p.selection.bases ≠ [] ↔ ∃ pattern ∈ config.included.toList, ¬ Pattern.IsBare pattern) ∧
      ((∃ pattern ∈ p.context.moduleSource.globPatterns, Text.startsWith "!" pattern = false) ↔
        ∃ pattern ∈ config.included.toList, ¬ Pattern.IsBare pattern) ∧
      ∀ text, p.virtualSource = .ok text →
        text = Artifact.VirtualModule.render p.context.moduleSource p.context.options.delimiters := by
  have hmissing : config.context host.cwd root = .error .missingInclude ↔ _ :=
    Config.context_eq_missingInclude_iff
  have hnone : Pattern.normalizeAll config.included.toList = [] ↔ _ := Pattern.normalizeAll_eq_nil_iff
  refine ⟨hmissing, hnone, ?_, fun p hp => ?_⟩
  · rw [hmissing, hnone]
    have hbare : (∀ pattern ∈ config.included.toList, Text.isBlankText pattern = true) →
        ∀ pattern ∈ config.included.toList, Pattern.IsBare pattern :=
      fun hblank pattern hpattern => .of_isBlankText (hblank pattern hpattern)
    exact ⟨fun h => h.2, fun h => ⟨hbare, h⟩⟩
  · have hsome : Pattern.normalizeAll p.context.included ≠ [] ↔
        ∃ pattern ∈ config.included.toList, ¬ Pattern.IsBare pattern := by
      rw [included_of_ofConfig hp, ne_eq, hnone]
      push Not
      rfl
    obtain ⟨hread, -, hbases⟩ := Selection.of_compile_eq_ok (of_ofConfig_eq_ok hp).2
    refine ⟨?_, ?_, ?_, fun text => eq_render_of_virtualSource⟩
    · rw [← hsome, ne_eq, hread.eq_nil_iff]
    · rw [← hsome, hbases, ne_eq, Path.distinct_eq_nil_iff, List.map_eq_nil_iff]
    · rw [← hsome, Artifact.VirtualModule.Source.exists_positive_iff]
      rfl

section Sample

/-! Projects in `/r` with one include pattern, and a virtual module. -/

def includingOnly (pattern : String) : Config :=
  { Config.usual with included := .one pattern, virtual := some .usual }

theorem isSome_ofConfig_dotted :
    (ofConfig sampleHost ⟨"/r"⟩ (includingOnly " /./a.md")).toOption.isSome = true := by decide +kernel

theorem has_glob_of_dotted :
    ∃ p, ofConfig sampleHost ⟨"/r"⟩ (includingOnly " /./a.md") = .ok p ∧
      p.selection.included ≠ [] ∧ p.selection.bases ≠ [] ∧
      ∃ pattern ∈ p.context.moduleSource.globPatterns, Text.startsWith "!" pattern = false := by
  have hnamed : ∃ pattern ∈ (includingOnly " /./a.md").included.toList, ¬ Pattern.IsBare pattern :=
    ⟨" /./a.md", List.mem_singleton.2 rfl, fun h =>
      absurd (Pattern.normalize_eq_empty_iff.2 h) (by decide +kernel)⟩
  have haccepted := eq_ok_get isSome_ofConfig_dotted
  obtain ⟨-, -, -, hglobs⟩ := has_glob_iff sampleHost ⟨"/r"⟩ (includingOnly " /./a.md")
  obtain ⟨hincluded, hbases, hpositive, -⟩ := hglobs _ haccepted
  exact ⟨_, haccepted, hincluded.2 hnamed, hbases.2 hnamed, hpositive.2 hnamed⟩

theorem isSome_ofConfig_bare :
    (ofConfig sampleHost ⟨"/r"⟩ (includingOnly "/")).toOption.isSome = true := by decide +kernel

/-- The mark of the root alone is accepted as an include pattern, and makes no glob. -/
theorem accepts_without_glob :
    Pattern.normalizeAll (includingOnly "/").included.toList = [] ∧
      (includingOnly "/").context sampleHost.cwd ⟨"/r"⟩ ≠ .error .missingInclude ∧
      ∃ p, ofConfig sampleHost ⟨"/r"⟩ (includingOnly "/") = .ok p ∧
        p.selection.included = [] ∧ p.selection.bases = [] ∧ p.context.moduleSource.globPatterns = [] := by
  refine ⟨by decide +kernel, by decide +kernel, _, eq_ok_get isSome_ofConfig_bare, ?_, ?_, ?_⟩
  · exact List.isEmpty_iff.1 (by decide +kernel)
  · decide +kernel
  · decide +kernel

end Sample

end Pipeline

end TextCatalog
