import TextCatalog.Proofs.Pipeline.Held
import TextCatalog.Proofs.Pipeline.Looks

/-!
# Runs that fail

A run that fails before it writes leaves the disk as it was. One that fails when it writes an artifact has
brought the artifacts before it to their paths and leaves the others as they were, and at no time is there
half of a text. On a disk with links that is said of locations, since different paths may lead to one file.
-/

namespace TextCatalog

open Disk
open RawText (dot)

namespace Pipeline

open Disk.Tree

variable {p : Pipeline} {host : Host} {cwd : Path} {mark : String} {t t' t₁ : Tree} {d d' : Faulty}
  {a c : Artifact.Rendered} {as before after : List Artifact.Rendered} {places ways : Location → Prop}

section Run

theorem ensures_prepare (p : Pipeline) (host : Host) (cwd : Path) (t : Tree) :
    (p.prepare host).run.Ensures cwd t (· = t) fun result t' => t' = t ∧
      ∀ prepared, result = .ok prepared → prepared.artifacts = artifacts p.context prepared.entries := by
  refine Action.ensures_bind ((SourceFile.looks_collect _ _ _ _).ensures_eq cwd t) ?_ ?_
  · rintro files t' rfl
    refine Action.ensures_bind ((SourceFile.looks_readAll files).ensures_eq cwd t') ?_ ?_
    · rintro ⟨entries, collisions⟩ t' rfl
      refine .done ⟨rfl, fun prepared h => ?_⟩
      obtain rfl := Except.ok.inj h
      rfl
    · rintro e t' rfl
      exact ⟨rfl, nofun⟩
  · rintro e t' rfl
    exact ⟨rfl, nofun⟩

/-- A run that fails after it has prepared fails when it writes. -/
theorem of_onFaulty_generate {e : Error} {prepared : Prepared} {d₁ : Faulty}
    (hprepare : Action.onFaulty cwd (p.prepare host) d = (.ok prepared, d₁))
    (h : Action.onFaulty cwd (p.generate host) d = (.error e, d')) :
    Action.onFaulty cwd (prepared.artifacts.mapM (write host)) d₁ = (.error e, d') ∧
      Action.trail cwd (p.generate host) d = Action.trail cwd (p.prepare host) d ++
        Action.trail cwd (prepared.artifacts.mapM (write host)) d₁ := by
  rw [generate, Action.onFaulty_bind_of_ok hprepare] at h
  rw [generate, Action.trail_bind_of_ok hprepare]
  rcases hwrite : Action.onFaulty cwd (prepared.artifacts.mapM (write host)) d₁ with ⟨e' | ws, d₂⟩
  · rw [Action.onFaulty_bind_of_error hwrite] at h
    rw [Prod.mk.injEq, Except.error.injEq] at h
    obtain ⟨rfl, rfl⟩ := h
    exact ⟨rfl, congrArg _ (Action.trail_bind_of_error hwrite)⟩
  · rw [Action.onFaulty_bind_of_ok hwrite] at h
    cases h

/-- A run fails before it writes, or at one of the artifacts that it has prepared. -/
theorem fails_cases {e : Error} (habs : ∀ a ∈ p.context.artifactPaths, a.isAbsolute = true)
    (h : Action.onFaulty cwd (p.generate host) d = (.error e, d')) :
    (Action.onFaulty cwd (p.prepare host) d = (.error e, d') ∧ d'.tree = d.tree ∧
      ∀ u ∈ Action.trail cwd (p.generate host) d, u.tree = d.tree) ∨
    ∃ prepared d₁ before a after cause, Action.onFaulty cwd (p.prepare host) d = (.ok prepared, d₁) ∧
      prepared.artifacts = artifacts p.context prepared.entries ∧
      prepared.artifacts = before ++ a :: after ∧ e = .writeArtifact a.path cause ∧
      MissesAt cwd host.mark before a d.tree d'.tree ∧
      ∀ u ∈ Action.trail cwd (p.generate host) d,
        u.tree = d.tree ∨ TriesAll cwd host.mark prepared.artifacts d.tree u.tree := by
  have hensures := ensures_prepare p host cwd d.tree
  rcases hprepare : Action.onFaulty cwd (p.prepare host) d with ⟨e' | prepared, d₁⟩
  · obtain ⟨hlooked, hsame, -⟩ := Action.of_onFaulty hensures hprepare
    rw [generate, Action.onFaulty_bind_of_error hprepare, Prod.mk.injEq, Except.error.injEq] at h
    obtain ⟨rfl, rfl⟩ := h
    rw [generate, Action.trail_bind_of_error hprepare]
    exact .inl ⟨rfl, hsame, hlooked⟩
  · obtain ⟨hlooked, hsame, hartifacts⟩ := Action.of_onFaulty hensures hprepare
    have hrendered := hartifacts prepared rfl
    have has : ∀ a ∈ prepared.artifacts, a.path.isAbsolute = true := by
      intro a ha
      apply habs
      rw [← map_path_artifacts p.context prepared.entries, ← hrendered]
      exact List.mem_map_of_mem ha
    obtain ⟨hwrite, htrail⟩ := of_onFaulty_generate hprepare h
    obtain ⟨htried, before, a, after, cause, hsplit, herror, hmissed⟩ :=
      Action.of_onFaulty (ensures_mapM_write has d₁.tree) hwrite
    rw [hsame] at htried hmissed
    refine .inr ⟨prepared, d₁, before, a, after, cause, rfl, hrendered, hsplit, herror, hmissed, ?_⟩
    intro u hu
    rw [htrail, List.mem_append] at hu
    exact hu.imp (hlooked u) (htried u)

end Run

section Linkless

/-- The same stands at the location of the path, and a file that was read there is read again. If the path
has no two dots, no other is. -/
structure HoldsAsBefore (cwd : Path) (path : Path) (t t' : Tree) : Prop where
  find?_eq : t'.find? path.location = t.find? path.location
  read : ∀ bytes, t.read cwd path = .ok bytes → t'.read cwd path = .ok bytes
  read_back : [dot, dot] ∉ path.pieces → ∀ bytes, t'.read cwd path = .ok bytes → t.read cwd path = .ok bytes

theorem HoldsAsBefore.refl (cwd path : Path) (t : Tree) : HoldsAsBefore cwd path t t :=
  ⟨rfl, fun _ => id, fun _ _ => id⟩

theorem HoldsAsBefore.trans {path : Path} (h : HoldsAsBefore cwd path t t₁)
    (h' : HoldsAsBefore cwd path t₁ t') : HoldsAsBefore cwd path t t' :=
  ⟨h'.find?_eq.trans h.find?_eq, fun bytes hread => h'.read bytes (h.read bytes hread),
    fun hdots bytes hread => h.read_back hdots bytes (h'.read_back hdots bytes hread)⟩

theorem holdsAsBefore_of_alters {path : Path} (h : t.Alters places ways t') (ht : t.Proper)
    (hpath : path.isAbsolute = true) (hplace : ¬ places path.location) (hway : ¬ ways path.location) :
    HoldsAsBefore cwd path t t' :=
  ⟨h.same _ hplace hway, fun _ => h.read_eq_ok ht hpath hplace,
    fun hdots _ => (h.read_eq_ok_iff ht hpath hplace hdots).1⟩

/-- The paths have locations of their own, and none of them lies on the way to one. -/
structure AreApart (paths : List Path) : Prop where
  distinct : paths.Pairwise fun a b => a.location ≠ b.location
  passes : ∀ a ∈ paths, ∀ b ∈ paths, ¬ a.Passes b.location

/-- Artifacts that can be written on a disk without links, each to its own location. -/
structure IsReady (mark : String) (as : List Artifact.Rendered) (t : Tree) : Prop where
  proper : t.Proper
  absolute : ∀ a ∈ as, a.path.isAbsolute = true
  apart : AreApart (as.map (·.path))
  unused : IsUnused mark (as.map (·.path)) t

namespace IsReady

theorem location_ne (h : IsReady mark as t) (ha : a ∈ as) (hc : c ∈ as) :
    c.path.location ≠ (a.path.withExtension mark).location :=
  (h.unused.apart _ (List.mem_map_of_mem ha) _ (List.mem_map_of_mem hc)).symm

theorem not_passes (h : IsReady mark as t) (ha : a ∈ as) (hc : c ∈ as) :
    ¬ a.path.Passes c.path.location :=
  h.apart.passes _ (List.mem_map_of_mem ha) _ (List.mem_map_of_mem hc)

/-- The artifacts that have been brought hold their texts, and the others what they held. -/
theorem bringsAll (h : IsReady mark (before ++ a :: after) t) (hall : BringsAll cwd mark before t t₁) :
    t.Alters (fun loc => ∃ b ∈ before, loc = b.path.location)
        (fun loc => ∃ b ∈ before, b.path.Passes loc) t₁ ∧
      (∀ b ∈ before, t₁.read cwd b.path = .ok b.content.toUTF8) ∧
      (∀ c ∈ a :: after, HoldsAsBefore cwd c.path t t₁) ∧
      IsUnused mark ((before ++ a :: after).map (·.path)) t₁ := by
  have hmem : ∀ b ∈ before, b ∈ before ++ a :: after := fun b => List.mem_append_left _
  have hmem' : ∀ c ∈ a :: after, c ∈ before ++ a :: after := fun c => List.mem_append_right _
  have hdistinct := h.apart.distinct
  rw [List.pairwise_map] at hdistinct
  obtain ⟨hfirst, -, hfar⟩ := List.pairwise_append.1 hdistinct
  have hunused : IsUnused mark (before.map (·.path)) t := by
    have hsub : ∀ b ∈ before.map (·.path), b ∈ (before ++ a :: after).map (·.path) :=
      List.map_subset _ hmem
    exact ⟨fun b hb c hc => h.unused.apart b (hsub b hb) c (hsub c hc),
      fun b hb => h.unused.no_file b (hsub b hb)⟩
  obtain ⟨halters, hread⟩ :=
    hall.alters h.proper (fun b hb => h.absolute b (hmem b hb)) hfirst hunused
  refine ⟨halters, hread, fun c hc => ?_, h.unused.of_changes halters.toChanges ?_⟩
  · refine holdsAsBefore_of_alters halters h.proper (h.absolute c (hmem' c hc)) ?_ ?_
    · rintro ⟨b, hb, heq⟩
      exact hfar b hb c hc heq.symm
    · rintro ⟨b, hb, hpasses⟩
      exact h.not_passes (hmem b hb) (hmem' c hc) hpasses
  · rintro loc ⟨b, hb, rfl⟩
    exact ⟨b.path, List.mem_map_of_mem (hmem b hb), rfl⟩

end IsReady

/-- A tree that an attempt passes: only the file beside is new, or the text is where it belongs. -/
theorem tries_alters {path : Path} {text : String} (ht : t.Proper) (hpath : path.isAbsolute = true)
    (hfree : IsFree t path (path.withExtension mark)) (h : Tries cwd mark path text t t') :
    t.Alters (· = (path.withExtension mark).location) path.Passes t' ∨
      t.Alters (· = path.location) path.Passes t' ∧ t'.read cwd path = .ok text.toUTF8 := by
  cases h with
  | misses h => exact .inl ((h.alters ht hpath hfree).mono (fun _ => False.elim) fun _ => id)
  | writes h => exact .inl (h.alters ht hpath hfree)
  | brings h => exact .inr (h.alters ht hpath hfree)

/-- At every time an artifact holds what it held or its new text. -/
theorem IsReady.tries (h : IsReady mark as t) (htries : TriesAll cwd mark as t t') :
    ∀ c ∈ as, HoldsAsBefore cwd c.path t t' ∨ t'.read cwd c.path = .ok c.content.toUTF8 := by
  obtain ⟨before, a, after, t₁, rfl, hall, htries⟩ := htries
  obtain ⟨halters, hread, hkept, hunused⟩ := h.bringsAll hall
  have hmem : a ∈ before ++ a :: after := by simp
  have hdistinct := h.apart.distinct
  rw [List.pairwise_map] at hdistinct
  obtain ⟨-, hrest, hfar⟩ := List.pairwise_append.1 hdistinct
  intro c hc
  have habs := h.absolute c hc
  rcases tries_alters halters.proper (h.absolute a hmem) (hunused.isFree (List.mem_map_of_mem hmem))
    htries with hstep | ⟨hstep, hnew⟩
  · rcases List.mem_append.1 hc with hbefore | hafter
    · exact .inr (hstep.read_eq_ok halters.proper habs (h.location_ne hmem hc) (hread c hbefore))
    · exact .inl ((hkept c hafter).trans (holdsAsBefore_of_alters hstep halters.proper habs
        (h.location_ne hmem hc) (h.not_passes hmem hc)))
  · rcases List.mem_append.1 hc with hbefore | hafter
    · exact .inr (hstep.read_eq_ok halters.proper habs (hfar c hbefore a (by simp)) (hread c hbefore))
    · rcases List.mem_cons.1 hafter with rfl | hlater
      · exact .inr hnew
      · have hne := (List.pairwise_cons.1 hrest).1 c hlater
        exact .inl ((hkept c hafter).trans (holdsAsBefore_of_alters hstep halters.proper habs
          hne.symm (h.not_passes hmem hc)))

/-- What a run leaves that has missed an artifact: those before it hold their texts, all else is as it was
but for new directories, and no file beside is left. -/
structure LeavesClean (cwd : Path) (mark : String) (before others : List Artifact.Rendered) (t t' : Tree) :
    Prop where
  brought : ∀ b ∈ before, t'.read cwd b.path = .ok b.content.toUTF8
  kept : ∀ c ∈ others, HoldsAsBefore cwd c.path t t'
  changes : t.Changes (fun loc => ∃ b ∈ before, loc = b.path.location) t'
  unused : IsUnused mark ((before ++ others).map (·.path)) t'

theorem IsReady.misses (h : IsReady mark (before ++ a :: after) t)
    (hmisses : MissesAt cwd mark before a t t') : LeavesClean cwd mark before (a :: after) t t' := by
  obtain ⟨t₁, hall, hmissed⟩ := hmisses
  obtain ⟨halters, hread, hkept, hunused⟩ := h.bringsAll hall
  have hmem : a ∈ before ++ a :: after := by simp
  have hlast := hmissed.alters halters.proper (h.absolute a hmem)
    (hunused.isFree (List.mem_map_of_mem hmem))
  refine ⟨fun b hb => ?_, fun c hc => ?_, ?_, hunused.of_changes hlast.toChanges fun _ => False.elim⟩
  · exact hlast.read_eq_ok halters.proper (h.absolute b (List.mem_append_left _ hb)) id (hread b hb)
  · have hc' : c ∈ before ++ a :: after := List.mem_append_right _ hc
    exact (hkept c hc).trans (holdsAsBefore_of_alters hlast halters.proper (h.absolute c hc') id
      (h.not_passes hmem hc'))
  · exact halters.toChanges.trans (hlast.toChanges.mono fun _ => False.elim)

end Linkless

section Linked

theorem BringsAll.oldOrNew (hall : BringsAll cwd mark before t t₁)
    (h : IsNew mark ((before ++ a :: after).map (·.path)) t)
    (habs : ∀ b ∈ before ++ a :: after, b.path.isAbsolute = true) :
    t.OldOrNew (fun text => ∃ b ∈ before, b.content = text) t₁ ∧
      IsNew mark ((a :: after).map (·.path)) t₁ := by
  induction hall with
  | nil t => exact ⟨.refl _ _, h⟩
  | @cons b bs t t₁ t' hfirst _ ih =>
    have hb := habs b (by simp)
    obtain ⟨hrest, hnew⟩ := ih (isNew_of_brings h hb hfirst)
      fun c hc => habs c (List.mem_cons_of_mem _ hc)
    refine ⟨((hfirst.oldOrNew hb h.slash_not_mem (h.avoids _ (by simp)) h.clear).mono ?_).trans
      (hrest.mono ?_), hnew⟩
    · rintro text rfl
      exact ⟨b, by simp, rfl⟩
    · exact fun text ⟨c, hc, heq⟩ => ⟨c, List.mem_cons_of_mem _ hc, heq⟩

/-- What a run leaves on any disk if it has missed an artifact: nothing else is new than texts of those
before it and directories, and no file beside is left. If those before it lead to files of their own, they
hold their texts, every other file is as it was, and another path that leads elsewhere gives what it gave. -/
structure LeavesFiles (cwd : Path) (mark : String) (before : List Artifact.Rendered) (t t' : Tree) :
    Prop where
  oldOrNew : t.OldOrNew (fun text => ∃ b ∈ before, b.content = text) t'
  clear : t'.IsClear mark
  held : t'.LeadsApart cwd (before.map (·.path)) →
    (∀ b ∈ before, t'.read cwd b.path = .ok b.content.toUTF8) ∧
    Fills (fun loc => ∃ b ∈ before, t'.fileAt? cwd b.path = some loc) t t' ∧
    ∀ path loc bytes, t.read cwd path = .ok bytes → t'.fileAt? cwd path = some loc →
      (∀ b ∈ before, t'.fileAt? cwd b.path ≠ some loc) → t'.read cwd path = .ok bytes

theorem MissesAt.leavesFiles (hmisses : MissesAt cwd mark before a t t')
    (h : IsNew mark ((before ++ a :: after).map (·.path)) t)
    (habs : ∀ b ∈ before ++ a :: after, b.path.isAbsolute = true) :
    LeavesFiles cwd mark before t t' := by
  obtain ⟨t₁, hall, hmissed⟩ := hmisses
  obtain ⟨hold, hnew⟩ := hall.oldOrNew h habs
  obtain ⟨hfills, hclear⟩ :=
    hmissed.fills (habs a (by simp)) hnew.slash_not_mem (hnew.avoids _ (by simp)) hnew.clear
  have hbefore : IsNew mark (before.map (·.path)) t := by
    refine ⟨h.slash, fun path hpath => h.avoids path ?_, h.clear⟩
    rw [List.map_append]
    exact List.mem_append_left _ hpath
  refine ⟨hold.trans (.of_fills hfills), hclear, fun hapart => ?_⟩
  obtain ⟨hfilled, hread⟩ :=
    hall.read_of_leadsApart (fun b hb => habs b (List.mem_append_left _ hb)) hbefore hfills hapart
  refine ⟨hread, hfilled, fun path loc bytes hbytes hfile hother => ?_⟩
  exact read_of_read hbytes hfilled hfile fun ⟨b, hb, heq⟩ => hother b hb heq

theorem TriesAll.oldOrNew (htries : TriesAll cwd mark as t t') (h : IsNew mark (as.map (·.path)) t)
    (habs : ∀ a ∈ as, a.path.isAbsolute = true) :
    t.OldOrNew (fun text => ∃ a ∈ as, a.content = text) t' := by
  obtain ⟨before, a, after, t₁, rfl, hall, htries⟩ := htries
  obtain ⟨hold, hnew⟩ := hall.oldOrNew h habs
  have hlast := htries.oldOrNew (habs a (by simp)) hnew.slash_not_mem (hnew.avoids _ (by simp)) hnew.clear
  refine (hold.mono ?_).trans (hlast.mono ?_)
  · exact fun text ⟨b, hb, heq⟩ => ⟨b, List.mem_append_left _ hb, heq⟩
  · rintro text rfl
    exact ⟨a, by simp, rfl⟩

end Linked

/-- A run that fails, whichever operations fail in it, has changed nothing before it writes. If it fails at
an artifact, those before it have been brought to their paths and nothing else is left behind, and at every
time each artifact holds what it held or its new text. On a disk with links this holds of locations. -/
theorem generate_fails_cleanly {root : Path} {config : Config} (hcwd : host.cwd.isAbsolute = true)
    (haccepted : ofConfig host root config = .ok p) {e : Error}
    (h : Action.onFaulty host.cwd (p.generate host) d = (.error e, d')) :
    (Action.onFaulty host.cwd (p.prepare host) d = (.error e, d') ∧ d'.tree = d.tree ∧
      ∀ u ∈ Action.trail host.cwd (p.generate host) d, u.tree = d.tree) ∨
    ∃ prepared d₁ before a after cause,
      Action.onFaulty host.cwd (p.prepare host) d = (.ok prepared, d₁) ∧
      prepared.artifacts = artifacts p.context prepared.entries ∧
      prepared.artifacts = before ++ a :: after ∧ e = .writeArtifact a.path cause ∧
      (d.tree.Proper → AreApart p.context.artifactPaths →
        IsUnused host.mark p.context.artifactPaths d.tree →
          LeavesClean host.cwd host.mark before (a :: after) d.tree d'.tree ∧
          ∀ u ∈ Action.trail host.cwd (p.generate host) d, ∀ c ∈ prepared.artifacts,
            HoldsAsBefore host.cwd c.path d.tree u.tree ∨
              u.tree.read host.cwd c.path = .ok c.content.toUTF8) ∧
      (d.tree.IsNew host.mark p.context.artifactPaths →
        LeavesFiles host.cwd host.mark before d.tree d'.tree ∧
        ∀ u ∈ Action.trail host.cwd (p.generate host) d,
          d.tree.OldOrNew (fun text => ∃ c ∈ prepared.artifacts, c.content = text) u.tree) := by
  have habs := (isAbsolute_of_ofConfig hcwd haccepted).2
  refine (fails_cases habs h).imp_right ?_
  rintro ⟨prepared, d₁, before, a, after, cause, hprepare, hrendered, hsplit, herror, hmissed, htried⟩
  have hpaths : p.context.artifactPaths = (before ++ a :: after).map (·.path) := by
    rw [← hsplit, hrendered, map_path_artifacts]
  have has : ∀ b ∈ before ++ a :: after, b.path.isAbsolute = true := by
    intro b hb
    apply habs
    rw [hpaths]
    exact List.mem_map_of_mem hb
  refine ⟨prepared, d₁, before, a, after, cause, hprepare, hrendered, hsplit, herror, ?_, ?_⟩
  · intro hproper hapart hunused
    rw [hpaths] at hapart hunused
    have hready : IsReady host.mark (before ++ a :: after) d.tree := ⟨hproper, has, hapart, hunused⟩
    refine ⟨hready.misses hmissed, fun u hu c hc => ?_⟩
    rcases htried u hu with hsame | htries
    · rw [hsame]
      exact .inl (.refl _ _ _)
    · rw [hsplit] at hc htries
      exact hready.tries htries c hc
  · intro hnew
    rw [hpaths] at hnew
    refine ⟨hmissed.leavesFiles hnew has, fun u hu => ?_⟩
    rcases htried u hu with hsame | htries
    · rw [hsame]
      exact .refl _ _
    · rw [hsplit] at htries ⊢
      exact htries.oldOrNew hnew has

section Sample

/-! Runs in projects in `/r` of which some operation fails. -/

theorem exists_error_of_fst {α : Type} {x : Except Error α × Faulty} {e : Error} (h : x.1 = .error e) :
    ∃ d, x = (.error e, d) :=
  ⟨x.2, Prod.ext h rfl⟩

/-- A disk with a source and an artifact that is out of date, on which the last file cannot be moved to its
place in a run of the project `twofold`. -/
def brokenDisk : Faulty where
  tree := ⟨[(["r"], .directory), (["a.md"], .file "x".toUTF8), (["t"], .file "y".toUTF8)], []⟩
  faults := List.replicate 13 none ++ [some .permissionDenied]

theorem isUnused_brokenDisk :
    IsUnused sampleHost.mark twofold.context.artifactPaths brokenDisk.tree := by
  have hnone : ∀ a ∈ twofold.context.artifactPaths,
      brokenDisk.tree.find? (a.withExtension sampleHost.mark).location = none := by decide +kernel
  refine ⟨by decide +kernel, fun a ha bytes => ?_⟩
  rw [hnone a ha]
  simp

theorem generate_fails_cleanly_at_rename :
    sampleHost.cwd.isAbsolute = true ∧ ofConfig sampleHost ⟨"/r"⟩ twofoldConfig = .ok twofold ∧
    ∃ (d' : Faulty) (a : Artifact.Rendered) (before after : List Artifact.Rendered),
      Action.onFaulty sampleHost.cwd (twofold.generate sampleHost) brokenDisk
        = (.error (.writeArtifact ⟨"/t"⟩ .permissionDenied), d') ∧
      (before ++ a :: after).map (·.path) = [⟨"/m"⟩, ⟨"/t"⟩] ∧ a.path = ⟨"/t"⟩ ∧
      LeavesClean sampleHost.cwd sampleHost.mark before (a :: after) brokenDisk.tree d'.tree ∧
      LeavesFiles sampleHost.cwd sampleHost.mark before brokenDisk.tree d'.tree := by
  have hcwd : sampleHost.cwd.isAbsolute = true := by decide
  have haccepted : ofConfig sampleHost ⟨"/r"⟩ twofoldConfig = .ok twofold :=
    eq_ok_get isSome_ofConfig_twofold
  obtain ⟨d', hrun⟩ : ∃ d', Action.onFaulty sampleHost.cwd (twofold.generate sampleHost) brokenDisk
      = (.error (.writeArtifact ⟨"/t"⟩ .permissionDenied), d') :=
    exists_error_of_fst (by decide +kernel)
  have hprepared : (Action.onFaulty sampleHost.cwd (twofold.prepare sampleHost)
      brokenDisk).1.toOption.isSome = true := by decide +kernel
  have hpaths : twofold.context.artifactPaths = [⟨"/m"⟩, ⟨"/t"⟩] := by decide +kernel
  refine ⟨hcwd, haccepted, d', ?_⟩
  rcases generate_fails_cleanly hcwd haccepted hrun with ⟨hfailed, -⟩ |
    ⟨prepared, d₁, before, a, after, cause, -, hrendered, hsplit, herror, hclean, hfiles⟩
  · rw [hfailed] at hprepared
    cases hprepared
  · have hapart : AreApart twofold.context.artifactPaths :=
      ⟨by decide +kernel, by decide +kernel⟩
    have hnew : brokenDisk.tree.IsNew sampleHost.mark twofold.context.artifactPaths :=
      .of_short (by decide +kernel) (by decide +kernel) (by decide +kernel)
    have hpath : a.path = ⟨"/t"⟩ := by
      rw [Error.writeArtifact.injEq] at herror
      exact herror.1.symm
    refine ⟨a, before, after, hrun, ?_, hpath,
      (hclean (by decide +kernel) hapart isUnused_brokenDisk).1, (hfiles hnew).1⟩
    rw [← hsplit, hrendered, map_path_artifacts, hpaths]

/-- Whether the first artifact that is prepared holds its text after the run. -/
def firstHeld? (p : Pipeline) (d : Faulty) : Option Bool :=
  (Action.onFaulty sampleHost.cwd (p.prepare sampleHost) d).1.toOption.bind fun prepared =>
    prepared.artifacts.head?.map fun a =>
      isCurrent sampleHost.cwd (Action.onFaulty sampleHost.cwd (p.generate sampleHost) d).2.tree a

/-- A disk on which no operation fails of itself, with a directory at `/x`. -/
def blockedDisk (others : List (Location × Node)) : Faulty :=
  ⟨⟨(["r"], .directory) :: (["x"], .directory) :: others, []⟩, []⟩

/-- A run fails at the artifact `/x`, though the artifact paths are apart and the files beside have new
names. -/
structure StopsAtDirectory (p : Pipeline) (d : Faulty) : Prop where
  apart : AreApart p.context.artifactPaths
  new : d.tree.IsNew sampleHost.mark p.context.artifactPaths
  stopped : (Action.onFaulty sampleHost.cwd (p.generate sampleHost) d).1
    = .error (.writeArtifact ⟨"/x"⟩ .isADirectory)

/-- Behind a link an artifact before the one that is missed can be lost, though all paths are apart. Without
links a later path with two dots can lead to a file where it led nowhere, since directories have been made
on its way. -/
theorem failure_shows_elsewhere :
    (∃ p, ofConfig sampleHost ⟨"/r"⟩ (placed "../*.*" (.path ⟨"/t"⟩) (.path ⟨"/l/t"⟩) (.path ⟨"/x"⟩))
        = .ok p ∧ StopsAtDirectory p (blockedDisk [(["l"], .link ⟨"/"⟩)]) ∧
      firstHeld? p (blockedDisk [(["l"], .link ⟨"/"⟩)]) = some false) ∧
    ∃ p, ofConfig sampleHost ⟨"/r"⟩
        (placed "../*.*" (.path ⟨"/n/m"⟩) (.path ⟨"/x"⟩) (.path ⟨"/n/../y"⟩)) = .ok p ∧
      StopsAtDirectory p (blockedDisk [(["y"], .file "y".toUTF8)]) ∧
      let t := (blockedDisk [(["y"], .file "y".toUTF8)]).tree
      let t' := (Action.onFaulty sampleHost.cwd (p.generate sampleHost) ⟨t, []⟩).2.tree
      t.Proper ∧ ⟨"/n/../y"⟩ ∈ p.context.artifactPaths ∧
        t.read sampleHost.cwd ⟨"/n/../y"⟩ = .error .notFound ∧
        t'.read sampleHost.cwd ⟨"/n/../y"⟩ = .ok "y".toUTF8 := by
  have hstops : ∀ {p : Pipeline} {d : Faulty} {others : Prop},
      (∀ a ∈ p.context.artifactPaths, ∀ piece ∈ a.pieces,
        piece.length ≤ (Text.bytes sampleHost.mark).length) →
      (∀ n ∈ d.tree.nodes, ∀ name ∈ n.1, name.length ≤ (Text.bytes sampleHost.mark).length) →
      AreApart p.context.artifactPaths →
      (Action.onFaulty sampleHost.cwd (p.generate sampleHost) d).1
        = .error (.writeArtifact ⟨"/x"⟩ .isADirectory) ∧ others → StopsAtDirectory p d ∧ others :=
    fun hpaths htree hapart => And.imp_left fun hrun =>
      ⟨hapart, .of_short (by decide +kernel) hpaths htree, hrun⟩
  exact ⟨⟨_, eq_ok_get (by decide +kernel), hstops (by decide +kernel) (by decide +kernel)
      ⟨by decide +kernel, by decide +kernel⟩ (by decide +kernel)⟩,
    ⟨_, eq_ok_get (by decide +kernel), hstops (by decide +kernel) (by decide +kernel)
      ⟨by decide +kernel, by decide +kernel⟩ (by decide +kernel)⟩⟩

end Sample

end Pipeline

end TextCatalog
