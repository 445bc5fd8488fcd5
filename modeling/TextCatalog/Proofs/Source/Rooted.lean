import TextCatalog.Proofs.Source.Exact

/-!
# Collecting from any root

The root of a project may be written with two dots that try to leave the root directory of the disk.
Collecting then finds what it finds from any other root, and of the files below the root by UTF-8 names it
finds those that are selected and whose hidden names are spelled out.
-/

namespace TextCatalog

open Disk
open RawText (IsText)

namespace SourceFile

open TextCatalog.Path (IsName Way)

variable {t t' : Tree} {cwd rootPath q base : Path} {s : Selection} {root : Way} {names : Location}
  {included excluded : List String} {strip : Option String} {files : List SourceFile}

theorem way_join (hroot : ∀ n ∈ root.names, IsName n) (hbase : base.isAbsolute = false) :
    (root.path.join base).way = root.follow base.steps := by
  have hne : root.path.text ≠ [] := Path.text_ne_nil_of_isAbsolute root.isAbsolute_path
  calc (root.path.join base).way
      = Way.start.follow (root.components ++ base.steps) := by
        rw [Path.way, Path.steps_join hne hbase, Way.steps_path hroot]
    _ = root.follow base.steps := by rw [Way.follow_append, Way.follow_components]

section Collect

/-- A root that exists is collected from: a walk is barred, or the files are those that a walk from a base
directory meets. -/
theorem collect_cases (ht : t.Proper) (hcwd : cwd.isAbsolute = true) {node : Node}
    (hthere : t.node cwd rootPath = .ok node) (hq : cwd.absolute? rootPath = some q) (s : Selection)
    (strip : Option String) :
    (∃ files, Action.on cwd (collect cwd rootPath s strip) t = (.ok files, t) ∧
      (∀ base ∈ s.bases, ∀ w cause, ¬ IsBarred t s.admits (q.way.path.join base).way w cause) ∧
      ∀ f, f ∈ files ↔ ∃ base ∈ s.bases, ∃ w : Way, f = ofPath q.way.path strip w.path ∧
        IsMet t s.admits s.selects q.way (q.way.path.join base).way w) ∨
    ∃ base ∈ s.bases, ∃ w cause, IsBarred t s.admits (q.way.path.join base).way w cause ∧
      Action.on cwd (collect cwd rootPath s strip) t = (.error (.walk w.path cause), t) := by
  have hnormal : q.normalize = q.way.path :=
    Path.normalize_eq_path (Path.isAbsolute_of_absolute? hcwd hq)
  have hcollect : ∀ {result}, Action.on cwd (gather s q.way.path s.bases) t = (result, t) →
      Action.on cwd (collect cwd rootPath s strip) t = (result.map (arrange q.way.path strip), t) := by
    intro result hgather
    rw [on_collect_of_gather hthere hq (hnormal ▸ hgather) strip, hnormal]
  refine (on_gather_path cwd s ht q.way s.bases).imp ?_ ?_
  · rintro ⟨paths, hgather, hopen, hmem⟩
    have hpaths : ∀ p ∈ paths, IsNormal p := by
      intro p hp
      obtain ⟨base, -, w, rfl, hmet⟩ := (hmem p).1 hp
      exact isNormal_path (hmet.isName ht)
    refine ⟨arrange q.way.path strip paths, hcollect hgather, hopen, fun f => ?_⟩
    rw [mem_arrange hpaths]
    constructor
    · rintro ⟨p, hp, rfl⟩
      obtain ⟨base, hbase, w, rfl, hmet⟩ := (hmem p).1 hp
      exact ⟨base, hbase, w, rfl, hmet⟩
    · rintro ⟨base, hbase, w, rfl, hmet⟩
      exact ⟨w.path, (hmem _).2 ⟨base, hbase, w, rfl, hmet⟩, rfl⟩
  · rintro ⟨base, hbase, w, cause, hbarred, hgather⟩
    exact ⟨base, hbase, w, cause, hbarred, hcollect hgather⟩

theorem mem_collect_iff (ht : t.Proper) (hcwd : cwd.isAbsolute = true)
    (hq : cwd.absolute? rootPath = some q)
    (h : Action.on cwd (collect cwd rootPath s strip) t = (.ok files, t')) (f : SourceFile) :
    f ∈ files ↔ ∃ base ∈ s.bases, ∃ w : Way, f = ofPath q.way.path strip w.path ∧
      IsMet t s.admits s.selects q.way (q.way.path.join base).way w := by
  obtain ⟨node, q', paths, hthere, hq', -⟩ := of_on_collect_eq_ok h
  rcases collect_cases ht hcwd hthere hq s strip with
    ⟨files', hcollect, -, hmem⟩ | ⟨_, -, _, _, -, hcollect⟩
  · rw [hcollect] at h
    rw [← Except.ok.inj (Prod.mk.inj h).1]
    exact hmem f
  · rw [hcollect] at h
    cases h

theorem ofPath_inj {w w' : Way} (hw : ∀ n ∈ w.names, IsName n) (hw' : ∀ n ∈ w'.names, IsName n)
    (h : ofPath rootPath strip w.path = ofPath rootPath strip w'.path) : w = w' :=
  Way.path_inj hw hw' (congrArg SourceFile.path h)

end Collect

section Below

/-- On the way down to a file below the root a walk passes names that are admitted: those that the base
directory adds are spelled by its pattern. -/
theorem IsMet.all_admits (hs : Selection.compile included excluded = .ok s) (hbase : base ∈ s.bases)
    (hroot : ∀ n ∈ root.names, IsName n)
    (h : IsMet t s.admits s.selects root (root.path.join base).way (root.below names)) :
    names.all s.admits = true := by
  obtain ⟨after, -, hbelow, hadmits⟩ := h.below
  obtain ⟨pattern, hpattern, rfl⟩ := Selection.exists_of_mem_bases hs hbase
  obtain ⟨kept, added, hfold, ⟨left, hleft⟩, hadded⟩ :=
    exists_foldl_move_eq (Pattern.base pattern).steps root.names []
  have hnames : root.names ++ names = kept ++ added ++ after := by
    have hsame := congrArg Way.names hbelow
    rw [way_join hroot (Pattern.isAbsolute_base pattern)] at hsame
    simp only [Way.below, Way.names_follow] at hsame
    rw [hsame, ← hfold, List.append_nil]
  rw [← hleft, List.append_assoc, List.append_assoc] at hnames
  have hrest : left ++ names = added ++ after := List.append_cancel_left hnames
  rw [List.all_eq_true]
  intro n hn
  have hmem : n ∈ added ++ after := hrest ▸ List.mem_append_right left hn
  rcases List.mem_append.1 hmem with hmem | hmem
  · exact Selection.admits_of_mem_steps_base hs hpattern ((hadded n hmem).resolve_left (by simp))
  · exact List.all_eq_true.1 hadmits n hmem

/-- Below the root just what is selected and spelled out is met, wherever it stands by UTF-8 names. -/
theorem exists_isMet_below_iff (ht : t.Proper) (hs : Selection.compile included excluded = .ok s)
    (hroot : ∀ n ∈ root.names, IsName n) (hne : names ≠ []) (htext : ∀ n ∈ names, IsText n)
    (hfits : Tree.FitsWay (root.below names)) {bytes : ByteArray}
    (hfile : t.find? (root.names ++ names) = some (.file bytes)) :
    (∃ base ∈ s.bases,
        IsMet t s.admits s.selects root (root.path.join base).way (root.below names)) ↔
      s.selects (String.intercalate "/" (names.map RawText.lossy)) = true ∧
        names.all s.admits = true := by
  have hnames : ∀ n ∈ names, IsName n := fun n hn =>
    ht.isName_of_find? hfile (List.mem_append_right _ hn)
  have hpath := Way.slashed_relative_below hroot hnames
  constructor
  · rintro ⟨base, hbase, hmet⟩
    exact ⟨hpath ▸ hmet.selected, hmet.all_admits hs hbase hroot⟩
  · rintro ⟨hselects, hadmits⟩
    obtain ⟨base, hbase, front, rest, rfl, hrest, hsteps⟩ :=
      Selection.exists_base_of_selects_read hs hne hnames htext hselects
    have hway : (root.path.join base).way = root.below front := by
      rw [way_join hroot (Selection.isAbsolute_of_mem_bases hs hbase), hsteps, Way.follow_map_name]
    rw [Way.below_append] at hfits
    rw [List.all_append, Bool.and_eq_true] at hadmits
    refine ⟨base, hbase, hway ▸ hfits.of_below, ⟨rest, hrest, ?_, hadmits.2⟩, hpath ▸ hselects,
      bytes, hfile⟩
    rw [hway, Way.below_append]

theorem mem_collect_below_iff (ht : t.Proper) (hcwd : cwd.isAbsolute = true)
    (hq : cwd.absolute? rootPath = some q) (hs : Selection.compile included excluded = .ok s)
    (h : Action.on cwd (collect cwd rootPath s strip) t = (.ok files, t')) (hne : names ≠ [])
    (htext : ∀ n ∈ names, IsText n) (hfits : Tree.FitsWay (q.way.below names)) {bytes : ByteArray}
    (hfile : t.find? (q.way.names ++ names) = some (.file bytes)) :
    ofPath q.way.path strip (q.way.below names).path ∈ files ↔
      s.selects (String.intercalate "/" (names.map RawText.lossy)) = true ∧
        names.all s.admits = true := by
  have hnames : ∀ n ∈ (q.way.below names).names, IsName n := fun n hn => ht.isName_of_find? hfile hn
  rw [mem_collect_iff ht hcwd hq h, ← exists_isMet_below_iff ht hs (fun _ => Path.isName_of_mem_way)
    hne htext hfits hfile]
  refine exists_congr fun base => and_congr_right fun _ => ⟨?_, fun hmet => ⟨_, rfl, hmet⟩⟩
  rintro ⟨w, hw, hmet⟩
  rwa [ofPath_inj hnames (hmet.isName ht) hw]

end Below

/-- Where files are collected from a root, they are those that a walk meets. -/
theorem exists_collect_of_some (ht : t.Proper) {node : Node} (hthere : t.node ⟨"/"⟩ rootPath = .ok node)
    (hq : Path.absolute? ⟨"/"⟩ rootPath = some q) (hsome : collected? rootPath s t ≠ none) :
    ∃ files, Action.on ⟨"/"⟩ (collect ⟨"/"⟩ rootPath s none) t = (.ok files, t) ∧
      ∀ f, f ∈ files ↔ ∃ base ∈ s.bases, ∃ w : Way, f = ofPath q.way.path none w.path ∧
        IsMet t s.admits s.selects q.way (q.way.path.join base).way w := by
  rcases collect_cases ht (by decide) hthere hq s none with
    ⟨files, hcollect, -, hmem⟩ | ⟨_, -, _, _, -, hfails⟩
  · exact ⟨files, hcollect, hmem⟩
  · exact absurd (collected?_eq_none hfails) hsome

end SourceFile

end TextCatalog
