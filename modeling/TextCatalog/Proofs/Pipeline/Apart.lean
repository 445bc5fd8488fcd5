import TextCatalog.Proofs.Artifact.Lines
import TextCatalog.Proofs.Pipeline.Watch
import TextCatalog.Proofs.Source.Exact
import TextCatalog.Proofs.Text.Bytes

/-!
# Artifacts that are kept apart

A configuration is accepted wherever its artifacts lie, so two of them may be one file, and one may be a
source of the next run. Every artifact keeps its text through a run just when their paths are different,
since no two kinds of artifacts render alike, and only a relevant one can become a source.
-/

namespace TextCatalog

open Disk
open RawText (IsText)

namespace Artifact

variable {id : String} {entries : List Entry} {o : Options}

theorem module_ne_declaration :
    Module.render entries o ≠ Declaration.render id entries o := by
  intro h
  obtain ⟨rest, hmodule⟩ : ∃ rest, Module.lines (.ofEntries entries o)
      = header :: "/* eslint-disable */" :: rest := ⟨_, rfl⟩
  obtain ⟨rest', hdeclaration⟩ : ∃ rest, Declaration.lines id (.ofEntries entries o)
      = header :: "" :: rest := ⟨_, rfl⟩
  rw [Module.render, Declaration.render, hmodule, hdeclaration, ← String.toList_inj] at h
  simp [toList_unlines_cons] at h

theorem ne_manifest {ls : List String} : unlines (header :: ls) ≠ Manifest.render entries o := by
  intro h
  obtain ⟨rest, hmanifest⟩ : ∃ rest, (Manifest.document entries o).indentedChars 0 = '\x7b' :: rest :=
    ⟨_, rfl⟩
  rw [Manifest.render, Json.indented, hmanifest, ← String.toList_inj] at h
  simp [toList_unlines_cons, header] at h

theorem module_ne_manifest : Module.render entries o ≠ Manifest.render entries o :=
  ne_manifest

theorem declaration_ne_manifest : Declaration.render id entries o ≠ Manifest.render entries o :=
  ne_manifest

end Artifact

namespace Pipeline

variable {p : Pipeline} {host : Host} {root : Path} {config : Config} {t t' : Tree}

section Accepted

theorem of_ofConfig_eq_ok (h : ofConfig host root config = .ok p) :
    config.context host.cwd root = .ok p.context ∧
      Selection.compile p.context.included p.context.excluded = .ok p.selection := by
  unfold ofConfig at h
  obtain ⟨c, hc, hcompiled⟩ := of_bind_eq_ok h
  obtain ⟨s, hs, hdone⟩ := of_bind_eq_ok hcompiled
  obtain rfl := Except.ok.inj hdone
  exact ⟨hc, hs⟩

/-- The context of a configuration with other targets. -/
theorem context_with (output declaration manifest : Target) {c : Context}
    (h : config.context host.cwd root = .ok c) :
    { config with output, declaration, manifest }.context host.cwd root
      = .ok { c with
          output := (output.resolve Config.usualOutput).map c.root.join
          declaration := (declaration.resolve Config.usualDeclaration).map c.root.join
          manifest := (manifest.resolve Config.usualManifest).map c.root.join } := by
  unfold Config.context at h ⊢
  dsimp only at h ⊢
  split at h
  · cases h
  next hblank =>
    rw [if_neg hblank]
    obtain ⟨valid, hvalid, hothers⟩ := of_bind_eq_ok h
    obtain ⟨virtual, hvirtual, hcompiled⟩ := of_bind_eq_ok hothers
    obtain ⟨s, hs, habsolute⟩ := of_bind_eq_ok hcompiled
    obtain ⟨top, htop, hdone⟩ := of_bind_eq_ok habsolute
    obtain rfl := Except.ok.inj hdone
    have hvirtual' : { config with output, declaration, manifest }.virtualModule = .ok virtual :=
      hvirtual
    rw [hvalid, hvirtual', hs, htop]
    rfl

/-- Whether a configuration is accepted does not depend on where its artifacts lie. -/
theorem ofConfig_with (h : ofConfig host root config = .ok p) (output declaration manifest : Target) :
    ∃ q, ofConfig host root { config with output, declaration, manifest } = .ok q ∧
      q.context = { p.context with
        output := (output.resolve Config.usualOutput).map p.context.root.join
        declaration := (declaration.resolve Config.usualDeclaration).map p.context.root.join
        manifest := (manifest.resolve Config.usualManifest).map p.context.root.join } ∧
      q.selection = p.selection := by
  obtain ⟨hcontext, hcompile⟩ := of_ofConfig_eq_ok h
  unfold ofConfig
  rw [context_with output declaration manifest hcontext]
  refine ⟨⟨_, p.selection⟩, ?_, rfl, rfl⟩
  change (Selection.compile p.context.included p.context.excluded >>= _) = _
  rw [hcompile]
  rfl

end Accepted

section Kept

variable {cwd : Path} {a : Artifact.Rendered}

theorem pairwise_content_artifacts (c : Context) (entries : List Entry) :
    (artifacts c entries).Pairwise fun a b => a.content ≠ b.content := by
  rw [artifacts]
  cases c.output <;> cases c.declaration <;> cases c.manifest <;>
    simp [Artifact.module_ne_declaration, Artifact.module_ne_manifest,
      Artifact.declaration_ne_manifest]

/-- At one location one text can be read only. -/
theorem location_ne_of_read {b : Artifact.Rendered} (ht : t.Proper) (ha : a.path.isAbsolute = true)
    (hb : b.path.isAbsolute = true) (hreada : t.read cwd a.path = .ok a.content.toUTF8)
    (hreadb : t.read cwd b.path = .ok b.content.toUTF8) (hne : a.content ≠ b.content) :
    a.path.location ≠ b.path.location := by
  intro heq
  have hfile := find?_of_read ht ha hreada
  rw [heq, find?_of_read ht hb hreadb] at hfile
  exact hne (String.toByteArray_inj.1 (Node.file.inj (Option.some.inj hfile)).symm)

theorem normalize_ne_iff {a b : Path} (ha : a.IsInner) (hb : b.IsInner) :
    a.normalize ≠ b.normalize ↔ a.location ≠ b.location := by
  refine ⟨location_ne_of_normalize_ne ha hb, fun hne heq => hne ?_⟩
  rw [ha.normalize_eq, hb.normalize_eq] at heq
  rw [← Path.location_ofLocation (fun _ => Path.isName_of_mem_location), heq,
    Path.location_ofLocation fun _ => Path.isName_of_mem_location]

/-- After a run every artifact has its own text exactly if their paths are different. -/
theorem kept_iff_distinct (hinner : p.IsInner) (ht : t.Proper) {report : Report}
    (h : Action.on cwd (p.generate ⟨cwd, host.mark⟩) t = (.ok report, t'))
    (hspared : p.context.artifactPaths.Pairwise fun a b =>
      a.location ≠ (b.withExtension host.mark).location) :
    t'.Proper ∧ ∃ prepared, Action.on cwd (p.prepare ⟨cwd, host.mark⟩) t = (.ok prepared, t) ∧
      ((∀ a ∈ prepared.artifacts, t'.read cwd a.path = .ok a.content.toUTF8) ↔
        p.context.artifactPaths.Pairwise fun a b => a.normalize ≠ b.normalize) := by
  obtain ⟨prepared, t₁, hprepare, hwritten, -⟩ := of_on_generate_eq_ok h
  obtain ⟨rfl, -, hpaths⟩ := of_on_prepare_eq_ok hinner ht hprepare
  have hpaths' : ∀ a ∈ prepared.artifacts, a.path.IsInner := by
    intro a ha
    apply hinner.artifacts
    rw [← hpaths]
    exact List.mem_map_of_mem ha
  obtain ⟨hchanges, hkept⟩ :=
    read_of_on_mapM_write ht (fun a ha => (hpaths' a ha).isAbsolute) hwritten
  refine ⟨hchanges.proper, prepared, hprepare, ?_⟩
  rw [← hpaths, List.pairwise_map] at hspared ⊢
  constructor
  · intro hread
    -- No two artifacts have the same text, so they cannot all be read at one location.
    have hcontent : prepared.artifacts.Pairwise fun a b => a.content ≠ b.content := by
      rw [artifacts_of_on_prepare hprepare]
      exact pairwise_content_artifacts p.context prepared.entries
    refine hcontent.imp_of_mem fun ha hb hne => ?_
    rw [normalize_ne_iff (hpaths' _ ha) (hpaths' _ hb)]
    exact location_ne_of_read hchanges.proper (hpaths' _ ha).isAbsolute (hpaths' _ hb).isAbsolute
      (hread _ ha) (hread _ hb) hne
  · intro hdistinct
    refine hkept ((hdistinct.and hspared).imp_of_mem fun ha hb hne => ⟨?_, hne.2⟩)
    exact location_ne_of_normalize_ne (hpaths' _ ha) (hpaths' _ hb) hne.1

end Kept

section Sources

/-- Only a file that is relevant is collected, and below the root one is that is, unless a hidden name
keeps it apart. -/
theorem collected_iff (haccepted : ofConfig host root config = .ok p) (hinner : p.IsInner)
    (ht : t.Proper) {files : List SourceFile}
    (h : Action.on host.cwd (p.collect host) t = (.ok files, t')) {q : Path} (hq : q.IsInner) :
    ((∃ f ∈ files, f.path.location = q.location) → p.isRelevant q = true) ∧
      ∀ bytes names, t.find? q.location = some (.file bytes) → Tree.Fits q.location → names ≠ [] →
        q.location = p.context.root.location ++ names → (∀ n ∈ names, IsText n) →
        p.selection.Spells (Path.namesIn (Path.relative p.context.root q.normalize)) →
        p.isRelevant q = true → ∃ f ∈ files, f.path.location = q.location := by
  obtain ⟨-, hcompile⟩ := of_ofConfig_eq_ok haccepted
  rw [SourceFile.exists_mem_iff_isFound ht hinner.root hinner.bases h, isRelevant_eq_takes hq]
  refine ⟨fun ⟨base, _, hfound⟩ => hfound.taken, ?_⟩
  intro bytes names hfile hfits hne hbelow htext hspells hrelevant
  rw [hq.normalize_eq] at hspells
  exact (SourceFile.exists_isFound_iff ht hinner.root hcompile hfile hfits).2
    ⟨⟨hrelevant, hspells⟩, .inl ⟨names, hne, hbelow, htext⟩⟩

end Sources

/-- A configuration is accepted wherever its artifacts lie. After a run each of them has its own text
exactly if their paths are different, and only one that is relevant can be a source from then on. -/
theorem artifacts_kept_iff_distinct (haccepted : ofConfig host root config = .ok p) :
    (∀ output declaration manifest, ∃ q,
      ofConfig host root { config with output, declaration, manifest } = .ok q ∧
        q.context = { p.context with
          output := (output.resolve Config.usualOutput).map p.context.root.join
          declaration := (declaration.resolve Config.usualDeclaration).map p.context.root.join
          manifest := (manifest.resolve Config.usualManifest).map p.context.root.join } ∧
        q.selection = p.selection) ∧
    (p.IsInner → ∀ t : Tree, t.Proper →
      (∀ report t', Action.on host.cwd (p.generate host) t = (.ok report, t') →
        (p.context.artifactPaths.Pairwise fun a b =>
          a.location ≠ (b.withExtension host.mark).location) →
        t'.Proper ∧ ∃ prepared, Action.on host.cwd (p.prepare host) t = (.ok prepared, t) ∧
          ((∀ a ∈ prepared.artifacts, t'.read host.cwd a.path = .ok a.content.toUTF8) ↔
            p.context.artifactPaths.Pairwise fun a b => a.normalize ≠ b.normalize)) ∧
      ∀ files t', Action.on host.cwd (p.collect host) t = (.ok files, t') →
        ∀ a ∈ p.context.artifactPaths,
          ((∃ f ∈ files, f.path.location = a.location) → p.isRelevant a = true) ∧
          ∀ bytes names, t.find? a.location = some (.file bytes) → Tree.Fits a.location →
            names ≠ [] → a.location = p.context.root.location ++ names → (∀ n ∈ names, IsText n) →
            p.selection.Spells (Path.namesIn (Path.relative p.context.root a.normalize)) →
            p.isRelevant a = true → ∃ f ∈ files, f.path.location = a.location) := by
  refine ⟨ofConfig_with haccepted, fun hinner t ht => ⟨?_, ?_⟩⟩
  · intro report t' hrun hspared
    exact kept_iff_distinct hinner ht hrun hspared
  · intro files t' hcollect a ha
    exact collected_iff haccepted hinner ht hcollect (hinner.artifacts a ha)

section Sample

/-! Projects in `/r` whose artifacts lie in various places. -/

def placed (pattern : String) (output declaration manifest : Target) : Config :=
  { Config.usual with included := .one pattern, output, declaration, manifest }

def bareTree : Tree := ⟨[(["r"], .directory)], []⟩

def filesAfter? (p : Pipeline) (t : Tree) : Option (List Location) :=
  match Action.on sampleHost.cwd (p.generate sampleHost) t with
  | (.ok _, t') => some ((t'.nodes.filter fun n => n.2.kind = .file).map Prod.fst)
  | (.error _, _) => none

def collectedAfter? (p : Pipeline) (t : Tree) : Option (List Path) :=
  (Action.on sampleHost.cwd (p.collect sampleHost)
    (Action.on sampleHost.cwd (p.generate sampleHost) t).2).1.toOption.map (List.map (·.path))

def twofoldConfig : Config :=
  placed "../*.*" (.path ⟨"/m"⟩) (.toggle false) (.path ⟨"/t"⟩)

theorem isSome_ofConfig_twofold :
    (ofConfig sampleHost ⟨"/r"⟩ twofoldConfig).toOption.isSome = true := by decide +kernel

def twofold : Pipeline :=
  (ofConfig sampleHost ⟨"/r"⟩ twofoldConfig).toOption.get isSome_ofConfig_twofold

theorem artifacts_kept_of_twofold :
    ofConfig sampleHost ⟨"/r"⟩ twofoldConfig = .ok twofold ∧ ∃ report t' prepared files t'',
      Action.on sampleHost.cwd (twofold.generate sampleHost) bareTree = (.ok report, t') ∧
      Action.on sampleHost.cwd (twofold.prepare sampleHost) bareTree = (.ok prepared, bareTree) ∧
      (∀ a ∈ prepared.artifacts, t'.read sampleHost.cwd a.path = .ok a.content.toUTF8) ∧
      Action.on sampleHost.cwd (twofold.collect sampleHost) t' = (.ok files, t'') ∧
      ∀ a ∈ twofold.context.artifactPaths, ∀ f ∈ files, f.path.location ≠ a.location := by
  let t' := (Action.on sampleHost.cwd (twofold.generate sampleHost) bareTree).2
  obtain ⟨report, hrun⟩ : ∃ report,
      Action.on sampleHost.cwd (twofold.generate sampleHost) bareTree = (.ok report, t') :=
    exists_ok_of_isSome (by decide +kernel)
  obtain ⟨files, hcollect⟩ : ∃ files, Action.on sampleHost.cwd (twofold.collect sampleHost) t'
      = (.ok files, (Action.on sampleHost.cwd (twofold.collect sampleHost) t').2) :=
    exists_ok_of_isSome (by decide +kernel)
  have haccepted : ofConfig sampleHost ⟨"/r"⟩ twofoldConfig = .ok twofold :=
    eq_ok_get isSome_ofConfig_twofold
  have hinner : twofold.IsInner := ⟨by decide +kernel, by decide +kernel, by decide +kernel⟩
  have hkept := (artifacts_kept_iff_distinct haccepted).2 hinner
  obtain ⟨hproper, prepared, hprepare, hiff⟩ :=
    (hkept bareTree (by decide +kernel)).1 report t' hrun (by decide +kernel)
  refine ⟨haccepted, report, t', prepared, files, _, hrun, hprepare, hiff.2 (by decide +kernel),
    hcollect, ?_⟩
  have hirrelevant : ∀ a ∈ twofold.context.artifactPaths, twofold.isRelevant a = false := by
    decide +kernel
  intro a ha f hf heq
  have hrelevant := ((hkept t' hproper).2 files _ hcollect a ha).1 ⟨f, hf, heq⟩
  rw [hirrelevant a ha] at hrelevant
  cases hrelevant

/-- A configuration is accepted that makes one relevant file of two artifacts. Even where their paths
are different, two artifacts are one file behind a link or above the root directory, one is lost that has
the name by way of which another is written, and an irrelevant one is collected above the root directory
under another path. -/
theorem accepted_artifacts_clash :
    (∃ p, ofConfig sampleHost ⟨"/r"⟩
        (placed "**/*.ts" (.path ⟨"x.ts"⟩) (.path ⟨"./x.ts"⟩) (.toggle false)) = .ok p ∧
      ¬ (p.context.artifactPaths.Pairwise fun a b => a.normalize ≠ b.normalize) ∧
      (∀ a ∈ p.context.artifactPaths, p.isRelevant a = true) ∧
      filesAfter? p bareTree = some [(["r", "x.ts"] : Location)] ∧
      collectedAfter? p bareTree = some [⟨"/r/x.ts"⟩]) ∧
    (∃ p, ofConfig sampleHost ⟨"/r"⟩
        (placed "../*.*" (.toggle false) (.path ⟨"/l/t"⟩) (.path ⟨"/t"⟩)) = .ok p ∧
      p.IsInner ∧ (p.context.artifactPaths.Pairwise fun a b => a.normalize ≠ b.normalize) ∧
      filesAfter? p ⟨[(["r"], .directory), (["l"], .link ⟨"/"⟩)], []⟩ = some [(["t"] : Location)]) ∧
    (∃ p, ofConfig sampleHost ⟨"/r"⟩
        (placed "../*.*" (.toggle false) (.path ⟨"/../t"⟩) (.path ⟨"/t"⟩)) = .ok p ∧
      (p.context.artifactPaths.Pairwise fun a b => a.normalize ≠ b.normalize) ∧
      filesAfter? p bareTree = some [(["t"] : Location)]) ∧
    (∃ p, ofConfig sampleHost ⟨"/r"⟩
        (placed "../*.*" (.toggle false) (.path ⟨"/t.tmp-1-2"⟩) (.path ⟨"/t"⟩)) = .ok p ∧
      p.IsInner ∧ (p.context.artifactPaths.Pairwise fun a b => a.normalize ≠ b.normalize) ∧
      filesAfter? p bareTree = some [(["t"] : Location)]) ∧
    ∃ p, ofConfig sampleHost ⟨"/r"⟩
        (placed "../../t" (.toggle false) (.toggle false) (.path ⟨"/t"⟩)) = .ok p ∧
      p.context.artifactPaths = [⟨"/t"⟩] ∧ p.isRelevant ⟨"/t"⟩ = false ∧
      filesAfter? p bareTree = some [(["t"] : Location)] ∧ collectedAfter? p bareTree = some [⟨"/../t"⟩] := by
  have haccepted : ∀ {config : Config} {P : Pipeline → Prop}
      (h : (ofConfig sampleHost ⟨"/r"⟩ config).toOption.isSome = true),
      P ((ofConfig sampleHost ⟨"/r"⟩ config).toOption.get h) →
        ∃ p, ofConfig sampleHost ⟨"/r"⟩ config = .ok p ∧ P p :=
    fun h hp => ⟨_, eq_ok_get h, hp⟩
  refine ⟨haccepted (by decide +kernel) ?_, haccepted (by decide +kernel) ?_,
    haccepted (by decide +kernel) ?_, haccepted (by decide +kernel) ?_, haccepted (by decide +kernel) ?_⟩
  · decide +kernel
  · exact ⟨⟨by decide +kernel, by decide +kernel, by decide +kernel⟩, by decide +kernel⟩
  · decide +kernel
  · exact ⟨⟨by decide +kernel, by decide +kernel, by decide +kernel⟩, by decide +kernel⟩
  · decide +kernel

end Sample

end Pipeline

end TextCatalog
