import TextCatalog.Change
import TextCatalog.Proofs.Pipeline.Writes
import TextCatalog.Proofs.Source.Collect

/-!
# Settled trees

After a run every artifact holds what its sources render to, and the artifacts are no sources. So a tree
that a run leaves is settled: preparing renders again what stands in the artifacts, and another run has
nothing to write.
-/

namespace TextCatalog

open Disk

namespace Context

/-- The paths of the artifacts that are written. -/
def artifactPaths (c : Context) : List Path :=
  c.output.toList ++ c.declaration.toList ++ c.manifest.toList

end Context

namespace Pipeline

variable {p : Pipeline} {host : Host} {cwd path : Path} {mark : String} {t t' : Tree}

/-- No path of the project leaves the root directory of the disk, and its artifacts are different files
that no pattern names. -/
structure IsEnclosed (p : Pipeline) : Prop where
  root : .parent ∉ p.context.root.normalComponents
  bases : ∀ base ∈ p.selection.bases, .parent ∉ (p.context.root.join base).normalComponents
  artifacts : ∀ a ∈ p.context.artifactPaths, .parent ∉ a.normalComponents
  distinct : p.context.artifactPaths.Pairwise fun a b => a.normalize ≠ b.normalize
  irrelevant : ∀ a ∈ p.context.artifactPaths, p.isRelevant a = false

/-- No artifact and no other file has one of the names under which texts are first written. -/
structure IsUnused (mark : String) (paths : List Path) (t : Tree) : Prop where
  apart : ∀ a ∈ paths, ∀ b ∈ paths, (a.withExtension mark).location ≠ b.location
  no_file : ∀ a ∈ paths, ∀ bytes, t.find? (a.withExtension mark).location ≠ some (.file bytes)

section Accepted

variable {root : Path} {config : Config}

theorem of_bind_eq_ok {α β : Type} {x : Except Error α} {f : α → Except Error β} {b : β}
    (h : x >>= f = .ok b) : ∃ a, x = .ok a ∧ f a = .ok b := by
  cases x with
  | error e => cases h
  | ok a => exact ⟨a, rfl, h⟩

theorem eq_ok_get {α : Type} {x : Except Error α} (h : x.toOption.isSome = true) :
    x = .ok (x.toOption.get h) := by
  cases x with
  | error e => cases h
  | ok a => rfl

theorem of_context_eq_ok {c : Context} (h : config.context cwd root = .ok c) :
    Path.absolute cwd root = .ok c.root ∧ ∀ a ∈ c.artifactPaths, ∃ q, a = c.root.join q := by
  unfold Config.context at h
  dsimp only at h
  split at h
  · cases h
  · obtain ⟨_, -, hvalid⟩ := of_bind_eq_ok h
    obtain ⟨_, -, hvirtual⟩ := of_bind_eq_ok hvalid
    obtain ⟨_, -, hcompiled⟩ := of_bind_eq_ok hvirtual
    obtain ⟨top, htop, hdone⟩ := of_bind_eq_ok hcompiled
    obtain rfl := Except.ok.inj hdone
    refine ⟨htop, fun a ha => ?_⟩
    simp only [Context.artifactPaths, List.mem_append, Option.mem_toList,
      Option.map_eq_some_iff] at ha
    rcases ha with (⟨q, -, rfl⟩ | ⟨q, -, rfl⟩) | ⟨q, -, rfl⟩ <;> exact ⟨q, rfl⟩

theorem isAbsolute_of_ofConfig (hcwd : host.cwd.isAbsolute = true)
    (hp : ofConfig host root config = .ok p) :
    p.context.root.isAbsolute = true ∧ ∀ a ∈ p.context.artifactPaths, a.isAbsolute = true := by
  unfold ofConfig at hp
  obtain ⟨c, hc, hcompiled⟩ := of_bind_eq_ok hp
  obtain ⟨s, -, hdone⟩ := of_bind_eq_ok hcompiled
  obtain rfl := Except.ok.inj hdone
  obtain ⟨hroot, hpaths⟩ := of_context_eq_ok hc
  have habs : c.root.isAbsolute = true := by
    rw [Path.absolute] at hroot
    split at hroot
    next q hq =>
      rw [← Except.ok.inj hroot]
      exact Path.isAbsolute_of_absolute? hcwd hq
    next => cases hroot
  refine ⟨habs, fun a ha => ?_⟩
  obtain ⟨q, rfl⟩ := hpaths a ha
  exact Path.isAbsolute_join habs

end Accepted

theorem map_path_artifacts (c : Context) (entries : List Entry) :
    (artifacts c entries).map (·.path) = c.artifactPaths := by
  rw [artifacts, Context.artifactPaths]
  cases c.output <;> cases c.declaration <;> cases c.manifest <;> rfl

theorem isRelevant_eq_takes (hpath : path.IsInner) :
    p.isRelevant path = SourceFile.takes p.selection p.context.root path.location := by
  rw [isRelevant, Path.join_of_isAbsolute _ hpath.isAbsolute, hpath.normalize_eq, SourceFile.takes]

section Write

variable {a : Artifact.Rendered} {as : List Artifact.Rendered}

theorem update_of_on_write {w : Artifact.Written}
    (h : Action.on cwd (write host a) t = (.ok w, t')) :
    w.kind = a.kind ∧ w.path = a.path ∧
      (update host.mark a.path a.content).run (Tree.perform cwd) t = (.ok w.changed, t') := by
  rw [write] at h
  obtain ⟨changed, hupdate, rfl⟩ := Action.of_on_bind_pure_eq_ok h
  rw [Action.writeIfChanged, Action.on_ofScript] at hupdate
  generalize (update host.mark a.path a.content).run (Tree.perform cwd) t = updated at hupdate ⊢
  obtain ⟨result, t₂⟩ := updated
  cases result with
  | error cause => cases hupdate
  | ok changed' =>
    obtain ⟨hchanged, rfl⟩ := Prod.mk.inj hupdate
    obtain rfl := Except.ok.inj hchanged
    exact ⟨rfl, rfl, rfl⟩

theorem of_on_write_eq_ok (ht : t.Proper) (ha : a.path.isAbsolute = true) {w : Artifact.Written}
    (h : Action.on cwd (write host a) t = (.ok w, t')) :
    (t' = t ∨ IsReplaced t a.path (a.path.withExtension host.mark) t') ∧
      t'.read cwd a.path = .ok a.content.toUTF8 :=
  of_update_eq_ok ht ha (update_of_on_write h).2.2

theorem IsUnused.isFree {paths : List Path} (h : IsUnused mark paths t) (ha : path ∈ paths) :
    IsFree t path (path.withExtension mark) :=
  ⟨h.apart path ha path ha, h.no_file path ha⟩

/-- The names beside the artifacts stay unused when artifacts change. -/
theorem IsUnused.of_changes {paths : List Path} {places : Location → Prop}
    (h : IsUnused mark paths t) (hchanges : t.Changes places t')
    (hplaces : ∀ loc, places loc → ∃ a ∈ paths, loc = a.location) : IsUnused mark paths t' := by
  refine ⟨h.apart, fun a ha bytes hfile => ?_⟩
  have hplace : ¬ places (a.withExtension mark).location := by
    intro hmem
    obtain ⟨b, hb, heq⟩ := hplaces _ hmem
    exact h.apart a ha b hb heq
  exact h.no_file a ha bytes ((hchanges.find?_file_iff hplace).1 hfile)

/-- Artifacts that have all been brought to their paths can be read there, and nothing else has changed. -/
theorem BringsAll.alters (h : BringsAll cwd mark as t t') (ht : t.Proper)
    (habs : ∀ a ∈ as, a.path.isAbsolute = true)
    (hdistinct : as.Pairwise fun a b => a.path.location ≠ b.path.location)
    (hunused : IsUnused mark (as.map (·.path)) t) :
    t.Alters (fun loc => ∃ a ∈ as, loc = a.path.location) (fun loc => ∃ a ∈ as, a.path.Passes loc) t' ∧
      ∀ a ∈ as, t'.read cwd a.path = .ok a.content.toUTF8 := by
  induction h with
  | nil t => exact ⟨.refl _ _ ht, by simp⟩
  | @cons a as t t₁ t' hfirst _ ih =>
    obtain ⟨ha, has⟩ := List.forall_mem_cons.1 habs
    obtain ⟨hne, hdistinct⟩ := List.pairwise_cons.1 hdistinct
    obtain ⟨halters, hread⟩ := hfirst.alters ht ha (hunused.isFree (by simp))
    have hunused' : IsUnused mark (as.map (·.path)) t₁ := by
      have hall := hunused.of_changes halters.toChanges fun loc hloc => ⟨a.path, by simp, hloc⟩
      have hsub : ∀ b ∈ as.map (·.path), b ∈ (a :: as).map (·.path) :=
        fun b hb => List.mem_cons_of_mem _ hb
      exact ⟨fun b hb c hc => hall.apart b (hsub b hb) c (hsub c hc), fun b hb => hall.no_file b (hsub b hb)⟩
    obtain ⟨hrest, hrestread⟩ := ih halters.proper has hdistinct hunused'
    refine ⟨(halters.mono ?_ ?_).trans (hrest.mono ?_ ?_), ?_⟩
    · exact fun loc hloc => ⟨a, by simp, hloc⟩
    · exact fun loc hway => ⟨a, by simp, hway⟩
    · exact fun loc ⟨b, hb, heq⟩ => ⟨b, List.mem_cons_of_mem _ hb, heq⟩
    · exact fun loc ⟨b, hb, hway⟩ => ⟨b, List.mem_cons_of_mem _ hb, hway⟩
    · refine List.forall_mem_cons.2 ⟨?_, hrestread⟩
      refine hrest.read_eq_ok halters.proper ha ?_ hread
      rintro ⟨b, hb, heq⟩
      exact hne b hb heq

/-- A run through artifacts changes nothing but them and the files by way of which they are written, and
an artifact that none of the later ones touches keeps its text. -/
theorem read_of_on_mapM_write (ht : t.Proper) (habs : ∀ a ∈ as, a.path.isAbsolute = true)
    {ws : List Artifact.Written} (h : Action.on cwd (as.mapM (write host)) t = (.ok ws, t')) :
    t.Changes (fun loc => ∃ a ∈ as, loc = a.path.location ∨
        loc = (a.path.withExtension host.mark).location) t' ∧
      ((as.Pairwise fun a b => a.path.location ≠ b.path.location ∧
          a.path.location ≠ (b.path.withExtension host.mark).location) →
        ∀ a ∈ as, t'.read cwd a.path = .ok a.content.toUTF8) := by
  induction as generalizing t ws with
  | nil =>
    obtain ⟨-, rfl⟩ := Action.of_on_mapM_nil_eq_ok h
    exact ⟨.refl _ ht, by simp⟩
  | cons a as ih =>
    obtain ⟨w, t₁, ws', hfirst, hrest, -⟩ := Action.of_on_mapM_cons_eq_ok h
    obtain ⟨ha, has⟩ := List.forall_mem_cons.1 habs
    obtain ⟨hstep, hread⟩ := of_on_write_eq_ok ht ha hfirst
    have hchanges : t.Changes (fun loc => loc = a.path.location ∨
        loc = (a.path.withExtension host.mark).location) t₁ := by
      rcases hstep with rfl | hreplaced
      · exact .refl _ ht
      · exact hreplaced.changes
    obtain ⟨hrestchanges, hrestread⟩ := ih hchanges.proper has hrest
    refine ⟨(hchanges.mono ?_).trans (hrestchanges.mono ?_), fun hapart => ?_⟩
    · exact fun loc hloc => ⟨a, by simp, hloc⟩
    · rintro loc ⟨b, hb, hloc⟩
      exact ⟨b, List.mem_cons_of_mem _ hb, hloc⟩
    · obtain ⟨hfar, hapart⟩ := List.pairwise_cons.1 hapart
      refine List.forall_mem_cons.2 ⟨?_, hrestread hapart⟩
      refine hrestchanges.read_eq_ok hchanges.proper ha ?_ hread
      rintro ⟨b, hb, heq | heq⟩
      · exact (hfar b hb).1 heq
      · exact (hfar b hb).2 heq

theorem on_mapM_write_of_read (h : ∀ a ∈ as, t.read cwd a.path = .ok a.content.toUTF8) :
    Action.on cwd (as.mapM (write host)) t = (.ok (as.map fun a => ⟨a.kind, a.path, false⟩), t) := by
  induction as with
  | nil => rfl
  | cons a as ih =>
    obtain ⟨ha, has⟩ := List.forall_mem_cons.1 h
    have hwrite : Action.on cwd (write host a) t = (.ok ⟨a.kind, a.path, false⟩, t) := by
      have hscript : Action.on cwd (Action.writeIfChanged host.mark a.path a.content) t
          = (.ok false, t) := by
        rw [Action.writeIfChanged, Action.on_ofScript, update_of_read ha]
        rfl
      rw [write, Action.on_bind_of_ok hscript, Action.on_pure]
    rw [Action.on_mapM_cons, Action.on_bind_of_ok hwrite, Action.on_bind_of_ok (ih has)]
    rfl

end Write

section Settled

/-- The tree holds in every artifact what it renders to now, and the report says what it holds. -/
structure IsSettled (p : Pipeline) (cwd : Path) (t : Tree) (report : Report) : Prop where
  proper : t.Proper
  prepared : ∃ prepared, (∀ mark, Action.on cwd (p.prepare ⟨cwd, mark⟩) t = (.ok prepared, t)) ∧
    (∀ a ∈ prepared.artifacts, t.read cwd a.path = .ok a.content.toUTF8) ∧
    report.files = prepared.files ∧ report.entries = prepared.entries ∧
    report.collisions = prepared.collisions

/-- The paths of the project, made absolute, stay below the root directory. -/
structure IsInner (p : Pipeline) : Prop where
  root : p.context.root.IsInner
  bases : ∀ base ∈ p.selection.bases, (p.context.root.join base).IsInner
  artifacts : ∀ a ∈ p.context.artifactPaths, a.IsInner

theorem IsEnclosed.isInner {root : Path} {config : Config} (h : p.IsEnclosed)
    (hcwd : host.cwd.isAbsolute = true) (hp : ofConfig host root config = .ok p) : p.IsInner := by
  obtain ⟨hroot, hpaths⟩ := isAbsolute_of_ofConfig hcwd hp
  exact ⟨⟨hroot, h.root⟩, fun base hbase => ⟨Path.isAbsolute_join hroot, h.bases base hbase⟩,
    fun a ha => ⟨hpaths a ha, h.artifacts a ha⟩⟩

theorem prepare_of_changes (hinner : p.IsInner) (ht : t.Proper) {places : Location → Prop}
    (h : t.Changes places t')
    (hplaces : ∀ loc, places loc → SourceFile.takes p.selection p.context.root loc = false)
    (hthere : t'.find? p.context.root.location ≠ none) {prepared : Prepared} {t₁ : Tree}
    (hprepare : Action.on cwd (p.prepare ⟨cwd, mark⟩) t = (.ok prepared, t₁)) :
    t₁ = t ∧ Action.on cwd (p.prepare ⟨cwd, mark⟩) t' = (.ok prepared, t') := by
  rw [prepare] at hprepare ⊢
  obtain ⟨files, t₂, hcollect, hothers⟩ := Action.of_on_bind_eq_ok hprepare
  obtain ⟨⟨entries, collisions⟩, t₃, hread, hlast⟩ := Action.of_on_bind_eq_ok hothers
  obtain ⟨rfl, hcollect', hfiles⟩ :=
    SourceFile.collect_of_changes ht hinner.root hinner.bases h hplaces hthere hcollect
  obtain ⟨rfl, hread'⟩ := SourceFile.readAll_of_changes ht h hfiles hread
  rw [Action.on_pure, Prod.mk.injEq, Except.ok.injEq] at hlast
  obtain ⟨rfl, rfl⟩ := hlast
  have hsame : Action.on cwd (p.collect ⟨cwd, mark⟩) t' = (.ok files, t') := hcollect'
  rw [Action.on_bind_of_ok hsame, Action.on_bind_of_ok hread']
  exact ⟨rfl, rfl⟩

theorem artifacts_of_on_prepare {prepared : Prepared} {t₁ : Tree}
    (h : Action.on cwd (p.prepare ⟨cwd, mark⟩) t = (.ok prepared, t₁)) :
    prepared.artifacts = artifacts p.context prepared.entries := by
  rw [prepare] at h
  obtain ⟨files, t₂, -, hothers⟩ := Action.of_on_bind_eq_ok h
  obtain ⟨⟨entries, collisions⟩, t₃, -, hlast⟩ := Action.of_on_bind_eq_ok hothers
  rw [Action.on_pure, Prod.mk.injEq, Except.ok.injEq] at hlast
  rw [← hlast.1]

theorem map_path_of_on_prepare {prepared : Prepared} {t₁ : Tree}
    (h : Action.on cwd (p.prepare ⟨cwd, mark⟩) t = (.ok prepared, t₁)) :
    prepared.artifacts.map (·.path) = p.context.artifactPaths := by
  rw [artifacts_of_on_prepare h, map_path_artifacts]

/-- Preparing leaves the tree alone, and needs a root. -/
theorem of_on_prepare_eq_ok (hinner : p.IsInner) (ht : t.Proper) {prepared : Prepared} {t₁ : Tree}
    (h : Action.on cwd (p.prepare ⟨cwd, mark⟩) t = (.ok prepared, t₁)) :
    t₁ = t ∧ t.find? p.context.root.location ≠ none ∧
      prepared.artifacts.map (·.path) = p.context.artifactPaths := by
  have hroot : t.find? p.context.root.location ≠ none := by
    rw [prepare] at h
    obtain ⟨files, t₂, hcollect, -⟩ := Action.of_on_bind_eq_ok h
    obtain ⟨node, hnode⟩ := SourceFile.node_of_on_collect hcollect
    obtain ⟨-, -, -, hfind, -⟩ := (Tree.node_eq_ok_iff ht hinner.root.isAbsolute).1 hnode
    simp [hfind]
  obtain ⟨rfl, -⟩ := prepare_of_changes hinner ht (.refl (fun _ => False) ht) (by simp) hroot h
  exact ⟨rfl, hroot, map_path_of_on_prepare h⟩

/-- A run prepares, and writes what has been prepared. -/
theorem of_on_generate_eq_ok {report : Report}
    (h : Action.on cwd (p.generate host) t = (.ok report, t')) :
    ∃ prepared t₁, Action.on cwd (p.prepare host) t = (.ok prepared, t₁) ∧
      Action.on cwd (prepared.artifacts.mapM (write host)) t₁ = (.ok report.artifacts, t') ∧
      report.files = prepared.files ∧ report.entries = prepared.entries ∧
      report.collisions = prepared.collisions := by
  rw [generate] at h
  obtain ⟨prepared, t₁, hprepare, hothers⟩ := Action.of_on_bind_eq_ok h
  obtain ⟨written, hwritten, rfl⟩ := Action.of_on_bind_pure_eq_ok hothers
  exact ⟨prepared, t₁, hprepare, hwritten, rfl, rfl, rfl⟩

theorem find?_of_read {a : Path} {bytes : ByteArray} (ht : t.Proper) (ha : a.isAbsolute = true)
    (h : t.read cwd a = .ok bytes) : t.find? a.location = some (.file bytes) := by
  obtain ⟨-, -, -, hfind, -⟩ := (Tree.node_eq_ok_iff ht ha).1 (Tree.read_eq_ok_iff.1 h)
  exact hfind

theorem location_ne_of_normalize_ne {a b : Path} (ha : a.IsInner) (hb : b.IsInner)
    (h : a.normalize ≠ b.normalize) : a.location ≠ b.location := by
  intro heq
  rw [ha.normalize_eq, hb.normalize_eq, heq] at h
  exact h rfl

theorem IsSettled.of_generate (hinner : p.IsInner) (henclosed : p.IsEnclosed) (ht : t.Proper)
    (hunused : IsUnused mark p.context.artifactPaths t) {report : Report}
    (h : Action.on cwd (p.generate ⟨cwd, mark⟩) t = (.ok report, t')) :
    p.IsSettled cwd t' report := by
  obtain ⟨prepared, t₁, hprepare, hwritten, hreport⟩ := of_on_generate_eq_ok h
  obtain ⟨rfl, hroot, hpaths⟩ := of_on_prepare_eq_ok hinner ht hprepare
  have hmem : ∀ a ∈ prepared.artifacts, a.path ∈ p.context.artifactPaths := by
    intro a ha
    rw [← hpaths]
    exact List.mem_map_of_mem ha
  have habs : ∀ a ∈ prepared.artifacts, a.path.isAbsolute = true := fun a ha =>
    (hinner.artifacts a.path (hmem a ha)).isAbsolute
  have hdistinct : prepared.artifacts.Pairwise fun a b => a.path.location ≠ b.path.location := by
    have hpairwise := henclosed.distinct
    rw [← hpaths, List.pairwise_map] at hpairwise
    refine hpairwise.imp_of_mem fun ha hb hne => ?_
    exact location_ne_of_normalize_ne (hinner.artifacts _ (hmem _ ha)) (hinner.artifacts _ (hmem _ hb)) hne
  rw [← hpaths] at hunused
  obtain ⟨⟨hchanges, -⟩, hread⟩ :=
    (bringsAll_of_on_mapM_write habs hwritten).alters ht habs hdistinct hunused
  have hplaces : ∀ loc, (∃ a ∈ prepared.artifacts, loc = a.path.location) →
      SourceFile.takes p.selection p.context.root loc = false := by
    rintro loc ⟨a, ha, rfl⟩
    rw [← isRelevant_eq_takes (hinner.artifacts _ (hmem a ha))]
    exact henclosed.irrelevant _ (hmem a ha)
  -- The root may be a file, and then even an artifact.
  have hthere : t'.find? p.context.root.location ≠ none := by
    by_cases hartifact : ∃ a ∈ prepared.artifacts, p.context.root.location = a.path.location
    · obtain ⟨a, ha, heq⟩ := hartifact
      rw [heq, find?_of_read hchanges.proper (habs a ha) (hread a ha)]
      simp
    · exact hchanges.find?_ne_none hartifact hroot
  refine ⟨hchanges.proper, prepared, fun mark' => ?_, hread, hreport⟩
  exact (prepare_of_changes hinner ht hchanges hplaces hthere hprepare).2

/-- In a settled tree a run finds nothing to write. -/
theorem IsSettled.generate_eq {report : Report} (h : p.IsSettled cwd t report) (mark : String) :
    ∃ again, Action.on cwd (p.generate ⟨cwd, mark⟩) t = (.ok again, t) ∧
      again.hasChanges = false ∧ again.files = report.files ∧ again.entries = report.entries ∧
      again.collisions = report.collisions := by
  obtain ⟨prepared, hprepare, hread, hfiles, hentries, hcollisions⟩ := h.prepared
  rw [generate, Action.on_bind_of_ok (hprepare mark), Action.on_bind_of_ok (on_mapM_write_of_read hread)]
  refine ⟨_, rfl, ?_, hfiles.symm, hentries.symm, hcollisions.symm⟩
  simp [Report.hasChanges]

theorem IsSettled.root_ne_none {report : Report} (hinner : p.IsInner)
    (h : p.IsSettled cwd t report) : t.find? p.context.root.location ≠ none := by
  obtain ⟨prepared, hprepare, -⟩ := h.prepared
  exact (of_on_prepare_eq_ok hinner h.proper (hprepare "")).2.1

/-- A settled tree stays settled where nothing relevant and no artifact changes. -/
theorem IsSettled.of_changes {report : Report} {places : Location → Prop} (hinner : p.IsInner)
    (hsettled : p.IsSettled cwd t report) (h : t.Changes places t')
    (hplaces : ∀ loc, places loc → SourceFile.takes p.selection p.context.root loc = false)
    (hapart : ∀ a ∈ p.context.artifactPaths, ¬ places a.location)
    (hthere : t'.find? p.context.root.location ≠ none) : p.IsSettled cwd t' report := by
  obtain ⟨prepared, hprepare, hread, hreport⟩ := hsettled.prepared
  have ht := hsettled.proper
  refine ⟨h.proper, prepared, fun mark => ?_, fun a ha => ?_, hreport⟩
  · exact (prepare_of_changes hinner ht h hplaces hthere (hprepare mark)).2
  · have hmem : a.path ∈ p.context.artifactPaths := by
      rw [← (of_on_prepare_eq_ok hinner ht (hprepare "")).2.2]
      exact List.mem_map_of_mem ha
    exact h.read_eq_ok ht (hinner.artifacts _ hmem).isAbsolute (hapart _ hmem) (hread a ha)

end Settled

end Pipeline

end TextCatalog
