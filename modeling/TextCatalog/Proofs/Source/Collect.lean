import TextCatalog.Proofs.Source.Gather

/-!
# What is collected and read

Trees that differ only where nothing is taken have the same sources with the same texts: the walk finds
the same files, whatever stands around them, and each of them reads as before.
-/

namespace TextCatalog

open Disk

namespace SourceFile

open TextCatalog.Path (IsInner IsName ofLocation)

variable {t t' : Tree} {cwd root : Path} {s : Selection}

section Collect

variable {strip : Option String} {files : List SourceFile} {places : Location → Prop}

/-- The source files at the paths, in the order in which they are collected. -/
def arrange (root : Path) (strip : Option String) (paths : List Path) : List SourceFile :=
  ((Path.distinct paths).map (ofPath root strip)).mergeSort fun f g =>
    f.canonicalKey ≤ g.canonicalKey

/-- The path is a normal form. -/
def IsNormal (q : Path) : Prop :=
  ∃ p : Path, p.isAbsolute = true ∧ q = p.normalize

theorem isNormal_path {w : Path.Way} (hw : ∀ n ∈ w.names, IsName n) : IsNormal w.path :=
  ⟨w.path, w.isAbsolute_path, (Path.Way.normalize_path hw).symm⟩

theorem isNormal_ofLocation {loc : Location} (hloc : ∀ n ∈ loc, IsName n) :
    IsNormal (ofLocation loc) :=
  isNormal_path (w := ⟨0, loc⟩) hloc

/-- Normal forms are told apart by their components. -/
theorem eq_of_components_eq {paths : List Path} (h : ∀ q ∈ paths, IsNormal q) :
    ∀ p ∈ paths, ∀ q ∈ paths, p.components = q.components → p = q := by
  intro p hp q hq heq
  obtain ⟨p, habs, rfl⟩ := h p hp
  obtain ⟨q, habs', rfl⟩ := h q hq
  rw [Path.components_normalize habs, Path.components_normalize habs'] at heq
  rw [Path.normalize, heq, ← Path.normalize]

theorem mem_arrange {paths : List Path} (h : ∀ q ∈ paths, IsNormal q) {f : SourceFile} :
    f ∈ arrange root strip paths ↔ ∃ q ∈ paths, f = ofPath root strip q := by
  rw [arrange, List.mem_mergeSort, List.mem_map]
  simp only [Path.mem_distinct (eq_of_components_eq h), eq_comm]

/-- The files come in the order of their keys, each of them once. -/
theorem pairwise_arrange (root : Path) (strip : Option String) (paths : List Path) :
    (arrange root strip paths).Pairwise fun f g => f ≠ g ∧ f.canonicalKey ≤ g.canonicalKey := by
  have hsorted : (arrange root strip paths).Pairwise fun f g => f.canonicalKey ≤ g.canonicalKey := by
    have hmerge := @List.pairwise_mergeSort _ (fun f g : SourceFile => f.canonicalKey ≤ g.canonicalKey)
      (fun f g h hfg hgh => by
        simp only [decide_eq_true_eq] at hfg hgh ⊢
        exact String.le_trans hfg hgh)
      (fun f g => by simpa using String.le_total f.canonicalKey g.canonicalKey)
      ((Path.distinct paths).map (ofPath root strip))
    simpa [arrange] using hmerge
  have hdistinct : ((Path.distinct paths).map (ofPath root strip)).Pairwise fun f g => f ≠ g := by
    rw [List.pairwise_map]
    refine (Path.pairwise_distinct paths).imp fun {p q} hpq heq => hpq.2 ?_
    rw [(SourceFile.mk.inj heq).1]
  have hdifferent : (arrange root strip paths).Pairwise fun f g => f ≠ g :=
    (List.mergeSort_perm _ _).symm.pairwise hdistinct Ne.symm
  exact hdifferent.and hsorted

theorem on_kind {p : Path} {node : Node} (h : t.node cwd p = .ok node) :
    Action.on cwd (Action.ask .io (.kind p)) t = (.ok node.kind, t) := by
  rw [Action.on_ask, Tree.perform, h]
  rfl

theorem on_collect_of_gather {node : Node} (hthere : t.node cwd root = .ok node) {q : Path}
    (hq : cwd.absolute? root = some q) {result : Except Error (List Path)}
    (hgather : Action.on cwd (gather s q.normalize s.bases) t = (result, t))
    (strip : Option String) :
    Action.on cwd (collect cwd root s strip) t = (result.map (arrange q.normalize strip), t) := by
  have habsolute : Action.on cwd (Action.ofExcept (Path.absolute cwd root)) t = (.ok q, t) := by
    rw [Action.on_ofExcept, Path.absolute, hq]
  rw [collect, Action.on_bind_of_ok (on_kind hthere), Action.on_bind_of_ok habsolute]
  dsimp only
  cases result with
  | error e => rw [Action.on_bind_of_error hgather, Except.map]
  | ok paths =>
    rw [Action.on_bind_of_ok hgather]
    rfl

theorem on_collect (hroot : root.IsInner) {node : Node} (hthere : t.node cwd root = .ok node)
    {result : Except Error (List Path)}
    (hgather : Action.on cwd (gather s (ofLocation root.location) s.bases) t = (result, t)) :
    Action.on cwd (collect cwd root s strip) t
      = (result.map (arrange (ofLocation root.location) strip), t) := by
  obtain ⟨q, hq, habs, hsteps⟩ := Path.absolute?_of_isAbsolute cwd hroot.isAbsolute
  have hinner : q.IsInner :=
    ⟨habs, Path.normalComponents_congr habs hroot.isAbsolute hsteps ▸ hroot.parent_not_mem⟩
  have hnormal : q.normalize = ofLocation root.location := by
    rw [hinner.normalize_eq, Path.location_congr hsteps]
  have hcollect := on_collect_of_gather hthere hq (hnormal ▸ hgather) strip
  rwa [hnormal] at hcollect

theorem of_on_collect_eq_ok {t₁ : Tree}
    (h : Action.on cwd (collect cwd root s strip) t = (.ok files, t₁)) :
    ∃ node q paths, t.node cwd root = .ok node ∧ cwd.absolute? root = some q ∧
      Action.on cwd (gather s q.normalize s.bases) t = (.ok paths, t₁) ∧
      files = arrange q.normalize strip paths := by
  rw [collect] at h
  obtain ⟨kind, t₂, hkind, h⟩ := Action.of_on_bind_eq_ok h
  obtain ⟨q, t₃, habsolute, h⟩ := Action.of_on_bind_eq_ok h
  dsimp only at h
  obtain ⟨paths, hgather, rfl⟩ := Action.of_on_bind_pure_eq_ok h
  rw [Action.on_ask, Tree.perform] at hkind
  rw [Action.on_ofExcept, Path.absolute] at habsolute
  cases hnode : t.node cwd root with
  | error cause =>
    rw [hnode] at hkind
    cases hkind
  | ok node =>
    cases hq : cwd.absolute? root with
    | none =>
      rw [hq] at habsolute
      cases habsolute
    | some q' =>
      rw [hnode] at hkind
      rw [hq] at habsolute
      obtain ⟨-, rfl⟩ := Prod.mk.inj hkind
      obtain ⟨heq, rfl⟩ := Prod.mk.inj habsolute
      obtain rfl := Except.ok.inj heq
      exact ⟨node, q', paths, rfl, rfl, hgather, rfl⟩

theorem node_of_on_collect {t₁ : Tree}
    (h : Action.on cwd (collect cwd root s strip) t = (.ok files, t₁)) :
    ∃ node, t.node cwd root = .ok node := by
  obtain ⟨node, -, -, hnode, -⟩ := of_on_collect_eq_ok h
  exact ⟨node, hnode⟩

/-- Where files are collected no walk is shut out, and they are those that the walks find. -/
theorem of_on_collect_inner (ht : t.Proper) (hroot : root.IsInner)
    (hbases : ∀ base ∈ s.bases, (root.join base).IsInner) {t₁ : Tree}
    (h : Action.on cwd (collect cwd root s strip) t = (.ok files, t₁)) :
    ∃ paths, t₁ = t ∧ (∃ node, t.node cwd root = .ok node) ∧
      (∀ base ∈ s.bases, ∀ loc cause, ¬ IsShut t s (root.join base).location loc cause) ∧
      (∀ q, q ∈ paths ↔ ∃ base ∈ s.bases, ∃ loc, q = ofLocation loc ∧
        IsFound t s root (root.join base).location loc) ∧
      files = arrange (ofLocation root.location) strip paths := by
  obtain ⟨node, -, -, hnode, -⟩ := of_on_collect_eq_ok h
  rcases on_gather cwd s ht hroot hbases with ⟨paths, hgather, hopen, hmem⟩ | ⟨_, -, _, _, -, hgather⟩
  · rw [on_collect hroot hnode hgather] at h
    obtain ⟨hfiles, rfl⟩ := Prod.mk.inj h
    exact ⟨paths, rfl, ⟨node, hnode⟩, hopen, hmem, (Except.ok.inj hfiles).symm⟩
  · rw [on_collect hroot hnode hgather] at h
    cases h

/-- The files that are collected stand where a walk from a base directory finds one. -/
theorem exists_mem_iff_isFound (ht : t.Proper) (hroot : root.IsInner)
    (hbases : ∀ base ∈ s.bases, (root.join base).IsInner) {t₁ : Tree}
    (h : Action.on cwd (collect cwd root s strip) t = (.ok files, t₁)) {loc : Location} :
    (∃ f ∈ files, f.path.location = loc) ↔
      ∃ base ∈ s.bases, IsFound t s root (root.join base).location loc := by
  obtain ⟨paths, -, -, -, hmem, rfl⟩ := of_on_collect_inner ht hroot hbases h
  have hnames : ∀ {base loc}, IsFound t s root base loc → ∀ n ∈ loc, IsName n := by
    intro base loc hfound n hn
    obtain ⟨bytes, hfind⟩ := hfound.file
    exact ht.isName_of_find? hfind hn
  have hpaths : ∀ q ∈ paths, IsNormal q := by
    intro q hq
    obtain ⟨base, -, loc, rfl, hfound⟩ := (hmem q).1 hq
    exact isNormal_ofLocation (hnames hfound)
  constructor
  · rintro ⟨f, hf, rfl⟩
    obtain ⟨q, hq, rfl⟩ := (mem_arrange hpaths).1 hf
    obtain ⟨base, hbase, loc, rfl, hfound⟩ := (hmem q).1 hq
    have hlocation : (ofPath (ofLocation root.location) strip (ofLocation loc)).path.location = loc :=
      Path.location_ofLocation (hnames hfound)
    exact ⟨base, hbase, hlocation.symm ▸ hfound⟩
  · rintro ⟨base, hbase, hfound⟩
    have hq : ofLocation loc ∈ paths := (hmem _).2 ⟨base, hbase, loc, rfl, hfound⟩
    exact ⟨_, (mem_arrange hpaths).2 ⟨_, hq, rfl⟩, Path.location_ofLocation (hnames hfound)⟩

theorem node_of_changes {node : Node} (ht : t.Proper) (hroot : root.isAbsolute = true)
    (h : t.Changes places t') (hthere : t'.find? root.location ≠ none)
    (hnode : t.node cwd root = .ok node) : ∃ node', t'.node cwd root = .ok node' := by
  obtain ⟨place, hreach, hshort, hfind, hslash⟩ := (Tree.node_eq_ok_iff ht hroot).1 hnode
  obtain ⟨node', hfind'⟩ := Option.ne_none_iff_exists'.1 hthere
  refine ⟨node', (Tree.node_eq_ok_iff h.proper hroot).2
    ⟨place, hreach.mono h.directory, hshort, hfind', fun hs => ?_⟩⟩
  have hdir := h.directory root.location (hslash hs ▸ hfind)
  rw [hfind'] at hdir
  exact Option.some.inj hdir

/-- Where nothing that is taken changes, the same files are collected. -/
theorem collect_of_changes (ht : t.Proper) (hroot : root.IsInner)
    (hbases : ∀ base ∈ s.bases, (root.join base).IsInner) (h : t.Changes places t')
    (hplaces : ∀ loc, places loc → takes s root loc = false)
    (hthere : t'.find? root.location ≠ none) {t₁ : Tree}
    (hcollect : Action.on cwd (collect cwd root s strip) t = (.ok files, t₁)) :
    t₁ = t ∧ Action.on cwd (collect cwd root s strip) t' = (.ok files, t') ∧
      ∀ f ∈ files, ¬ places f.path.location ∧ f.path.isAbsolute = true := by
  obtain ⟨paths, rfl, ⟨node, hnode⟩, hopen, hmem, rfl⟩ := of_on_collect_inner ht hroot hbases hcollect
  obtain ⟨node', hnode'⟩ := node_of_changes ht hroot.isAbsolute h hthere hnode
  obtain ⟨paths', hgather', hmem'⟩ : ∃ paths',
      Action.on cwd (gather s (ofLocation root.location) s.bases) t' = (.ok paths', t') ∧
        ∀ q, q ∈ paths' ↔ ∃ base ∈ s.bases, ∃ loc, q = ofLocation loc ∧
          IsFound t' s root (root.join base).location loc := by
    rcases on_gather cwd s h.proper hroot hbases with
      ⟨paths', hgather', -, hmem'⟩ | ⟨base, hbase, loc, _, hshut, -⟩
    · exact ⟨paths', hgather', hmem'⟩
    · obtain ⟨cause, hshut⟩ := hshut.of_changes h
      exact absurd hshut (hopen base hbase loc cause)
  have hnames : ∀ q ∈ paths, ∃ loc, q = ofLocation loc ∧ (∀ n ∈ loc, IsName n) ∧
      takes s root loc = true := by
    intro q hq
    obtain ⟨base, -, loc, rfl, hfound⟩ := (hmem q).1 hq
    obtain ⟨bytes, hfind⟩ := hfound.file
    exact ⟨loc, rfl, fun n hn => ht.isName_of_find? hfind hn, hfound.taken⟩
  -- The two walks meet their files in different orders, but sorting sees only which ones there are.
  have hsame : ∀ q, q ∈ paths ↔ q ∈ paths' := by
    intro q
    simp only [hmem q, hmem' q, IsFound.of_changes h hplaces]
  have hlocs : ∀ q ∈ paths, IsNormal q := by
    intro q hq
    obtain ⟨loc, rfl, hloc, -⟩ := hnames q hq
    exact isNormal_ofLocation hloc
  refine ⟨rfl, ?_, ?_⟩
  · rw [on_collect hroot hnode' hgather', Except.map, arrange, arrange,
      Path.distinct_eq_of_mem_iff (eq_of_components_eq hlocs) hsame]
  · intro f hf
    obtain ⟨q, hq, rfl⟩ := (mem_arrange hlocs).1 hf
    obtain ⟨loc, rfl, hloc, htaken⟩ := hnames q hq
    refine ⟨fun hmem => ?_, Path.isAbsolute_ofLocation loc⟩
    have hlocation : (ofPath (ofLocation root.location) strip (ofLocation loc)).path.location = loc :=
      Path.location_ofLocation hloc
    rw [hlocation] at hmem
    simp [hplaces loc hmem] at htaken

end Collect

section Read

variable {f : SourceFile} {files : List SourceFile} {places : Location → Prop}

theorem on_read_eq_ok_iff {e : Entry} {t₁ : Tree} :
    Action.on cwd (read f) t = (.ok e, t₁) ↔
      t₁ = t ∧ ∃ text : String, t.read cwd f.path = .ok text.toUTF8 ∧
        e = ⟨f.outputKey, Text.lineFeeds text⟩ := by
  have hscript : Action.on cwd (Action.ofScript (.readSource f.path) (readText f.path)) t
      = ((textAt cwd t f.path).mapError (.readSource f.path), t) := by
    rw [Action.on_ofScript, run_readText]
  simp only [← textAt_eq_ok_iff]
  rw [read]
  cases htext : textAt cwd t f.path with
  | ok text =>
    rw [htext] at hscript
    rw [Action.on_bind_of_ok hscript, Action.on_pure, Prod.mk.injEq, Except.ok.injEq]
    simp [and_comm, eq_comm]
  | error cause =>
    rw [htext] at hscript
    rw [Action.on_bind_of_error hscript]
    simp

/-- Files that are read stay what they were where nothing of them changes. -/
theorem read_of_changes (ht : t.Proper) (h : t.Changes places t') {e : Entry} {t₁ : Tree}
    (hf : ¬ places f.path.location ∧ f.path.isAbsolute = true)
    (hread : Action.on cwd (read f) t = (.ok e, t₁)) :
    t₁ = t ∧ Action.on cwd (read f) t' = (.ok e, t') := by
  obtain ⟨rfl, text, hbytes, rfl⟩ := on_read_eq_ok_iff.1 hread
  exact ⟨rfl, on_read_eq_ok_iff.2 ⟨rfl, text, h.read_eq_ok ht hf.2 hf.1 hbytes, rfl⟩⟩

theorem mapM_read_of_changes (ht : t.Proper) (h : t.Changes places t')
    (hfiles : ∀ f ∈ files, ¬ places f.path.location ∧ f.path.isAbsolute = true)
    {entries : List Entry} {t₁ : Tree}
    (hread : Action.on cwd (files.mapM read) t = (.ok entries, t₁)) :
    t₁ = t ∧ Action.on cwd (files.mapM read) t' = (.ok entries, t') := by
  induction files generalizing entries t₁ with
  | nil =>
    obtain ⟨rfl, rfl⟩ := Action.of_on_mapM_nil_eq_ok hread
    exact ⟨rfl, rfl⟩
  | cons f files ih =>
    obtain ⟨hf, hfiles⟩ := List.forall_mem_cons.1 hfiles
    obtain ⟨e, t₂, es, hfirst, hrest, rfl⟩ := Action.of_on_mapM_cons_eq_ok hread
    obtain ⟨rfl, hfirst'⟩ := read_of_changes ht h hf hfirst
    obtain ⟨rfl, hrest'⟩ := ih hfiles hrest
    rw [Action.on_mapM_cons, Action.on_bind_of_ok hfirst', Action.on_bind_of_ok hrest']
    exact ⟨rfl, rfl⟩

theorem readAll_of_changes (ht : t.Proper) (h : t.Changes places t')
    (hfiles : ∀ f ∈ files, ¬ places f.path.location ∧ f.path.isAbsolute = true)
    {result : List Entry × List Collision} {t₁ : Tree}
    (hread : Action.on cwd (readAll files) t = (.ok result, t₁)) :
    t₁ = t ∧ Action.on cwd (readAll files) t' = (.ok result, t') := by
  rw [readAll] at hread ⊢
  obtain ⟨entries, hentries, rfl⟩ := Action.of_on_bind_pure_eq_ok hread
  obtain ⟨rfl, hentries'⟩ := mapM_read_of_changes ht h hfiles hentries
  rw [Action.on_bind_of_ok hentries']
  exact ⟨rfl, rfl⟩

end Read

end SourceFile

end TextCatalog
