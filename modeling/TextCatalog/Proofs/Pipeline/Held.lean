import TextCatalog.Proofs.Disk.Beside
import TextCatalog.Proofs.Pipeline.Apart
import TextCatalog.Proofs.Pipeline.Written

/-!
# Artifacts in a tree with links

Different paths may lead to one file. After a run in any tree, every artifact can be read as it was
rendered exactly if the paths lead to files of their own in the tree that the run leaves.
-/

namespace TextCatalog

open Disk

namespace Disk.Tree

/-- The paths lead to files, each to one of its own. -/
structure LeadsApart (t : Tree) (cwd : Path) (paths : List Path) : Prop where
  file : ∀ a ∈ paths, t.fileAt? cwd a ≠ none
  apart : paths.Pairwise fun a b => t.fileAt? cwd a ≠ t.fileAt? cwd b

/-- The mark makes new names: none on the disk and none in the paths ends in it. -/
structure IsNew (mark : String) (paths : List Path) (t : Tree) : Prop where
  slash : '/' ∉ mark.toList
  avoids : ∀ a ∈ paths, AvoidsMark mark a
  clear : t.IsClear mark

theorem IsNew.slash_not_mem {mark : String} {paths : List Path} {t : Tree} (h : t.IsNew mark paths) :
    RawText.slash ∉ Text.bytes mark :=
  mt RawText.slash_mem_bytes_iff.1 h.slash

theorem IsNew.of_short {mark : String} {paths : List Path} {t : Tree} (hslash : '/' ∉ mark.toList)
    (hpaths : ∀ a ∈ paths, ∀ piece ∈ a.pieces, piece.length ≤ (Text.bytes mark).length)
    (htree : ∀ n ∈ t.nodes, ∀ name ∈ n.1, name.length ≤ (Text.bytes mark).length) : t.IsNew mark paths := by
  have hlong : ∀ stem : RawText,
      ¬ (stem ++ RawText.dot :: Text.bytes mark).length ≤ (Text.bytes mark).length := by
    intro stem
    rw [List.length_append, List.length_cons]
    omega
  refine ⟨hslash, fun a ha stem hmem => ?_, fun dir stem => ?_⟩
  · obtain ⟨piece, hpiece, hname⟩ := List.mem_filterMap.1 hmem
    have heq : piece = stem ++ RawText.dot :: Text.bytes mark := by
      rw [Path.Component.ofPiece?] at hname
      split at hname
      · cases hname
      · split at hname
        · cases hname
        · exact Path.Component.name.inj (Option.some.inj hname)
    exact hlong stem (heq ▸ hpaths a ha piece hpiece)
  · by_contra hthere
    obtain ⟨node, hnode⟩ := Option.ne_none_iff_exists'.1 hthere
    exact hlong stem (htree _ (mem_of_find? hnode (by simp)) _ (by simp))

end Disk.Tree

namespace Pipeline

open Disk.Tree

variable {p : Pipeline} {host : Host} {cwd : Path} {t t' : Tree} {a : Artifact.Rendered}
  {as : List Artifact.Rendered} {loc : Location}

theorem read_of_isWritten {place : Location} {middle final : Tree} {places : Location → Prop}
    (hwritten : IsWritten t cwd a.path a.content.toUTF8 t' place middle) (hfills : Fills places t' final)
    (hfile : final.fileAt? cwd a.path = some loc) (hloc : ¬ places loc) :
    loc = place ∧ final.read cwd a.path = .ok a.content.toUTF8 := by
  obtain ⟨end', bytes, hresolve, -, rfl⟩ := exists_place_of_fileAt? hfile
  -- The path was resolved for the rename in the tree `middle`; it is compared with where it leads at last.
  have hend : ∀ target, final.find? (Place.named place false).loc ≠ some (.link target) :=
    hfills.ne_link hwritten.file
  have hplace : end'.loc = place := by
    rcases (hwritten.keepsWays.trans_fills hfills).resolve_eq hend hwritten.resolved hresolve with
      rfl | heq | hfilled
    · rfl
    · exact heq
    · exact absurd hfilled hloc
  rw [hplace] at hfile hloc
  exact ⟨hplace, read_iff_fileAt?.2 ⟨place, hfile, hfills.find?_file hloc hwritten.file⟩⟩

/-- A file that was read and is no new one is read again, if the path leads there still. -/
theorem read_of_read {final : Tree} {path : Path} {bytes : ByteArray} {places : Location → Prop}
    (hread : t.read cwd path = .ok bytes) (hfills : Fills places t final)
    (hfile : final.fileAt? cwd path = some loc) (hloc : ¬ places loc) :
    final.read cwd path = .ok bytes := by
  obtain ⟨place, hresolve, hnode⟩ := exists_place_of_read hread
  obtain ⟨end', bytes', hresolve', -, rfl⟩ := exists_place_of_fileAt? hfile
  have hfind := find?_of_nodeAt hnode
  obtain rfl : end' = place :=
    (hfills.keepsWays.resolve_eq (hfills.ne_link hfind) hresolve hresolve').resolve_right hloc
  exact read_iff_fileAt?.2 ⟨_, hfile, hfills.find?_file hloc hfind⟩

theorem isNew_of_brings {mark : String} (hnew : IsNew mark ((a :: as).map (·.path)) t)
    (ha : a.path.isAbsolute = true) (h : Brings cwd mark a.path a.content t t') :
    IsNew mark (as.map (·.path)) t' :=
  ⟨hnew.slash, fun b hb => hnew.avoids b (List.mem_cons_of_mem _ hb),
    (h.isWritten ha hnew.slash_not_mem (hnew.avoids _ (by simp)) hnew.clear).1⟩

/-- Artifacts that lead to files of their own some time after all of them were written hold their texts
then, if nothing has been done since but to make directories. -/
theorem BringsAll.read_of_leadsApart {mark : String} {final : Tree} (h : BringsAll cwd mark as t t')
    (habs : ∀ a ∈ as, a.path.isAbsolute = true) (hnew : IsNew mark (as.map (·.path)) t)
    (hfinal : Fills (fun _ => False) t' final) (hapart : final.LeadsApart cwd (as.map (·.path))) :
    Fills (fun loc => ∃ a ∈ as, final.fileAt? cwd a.path = some loc) t final ∧
      ∀ a ∈ as, final.read cwd a.path = .ok a.content.toUTF8 := by
  induction h with
  | nil t => exact ⟨hfinal.mono fun _ => False.elim, by simp⟩
  | @cons a as t t₁ t' hfirst _ ih =>
    obtain ⟨ha, habs⟩ := List.forall_mem_cons.1 habs
    obtain ⟨hfile, hfiles⟩ := List.forall_mem_cons.1 hapart.file
    obtain ⟨hfar, hpairwise⟩ := List.pairwise_cons.1 hapart.apart
    obtain ⟨-, hwritten⟩ := hfirst.isWritten ha hnew.slash_not_mem (hnew.avoids _ (by simp)) hnew.clear
    obtain ⟨hfills, hread⟩ := ih habs (isNew_of_brings hnew ha hfirst) hfinal ⟨hfiles, hpairwise⟩
    obtain ⟨loc, hloc⟩ := Option.ne_none_iff_exists'.1 hfile
    -- None of the later artifacts is where this one is.
    have hnot : ¬ ∃ b ∈ as, final.fileAt? cwd b.path = some loc := by
      rintro ⟨b, hb, heq⟩
      exact hfar b.path (List.mem_map_of_mem hb) (hloc.trans heq.symm)
    rcases hwritten with ⟨rfl, hheld⟩ | ⟨place, middle, hwritten⟩
    · refine ⟨hfills.mono ?_, List.forall_mem_cons.2 ⟨read_of_read hheld hfills hloc hnot, hread⟩⟩
      exact fun _ ⟨b, hb, heq⟩ => ⟨b, List.mem_cons_of_mem _ hb, heq⟩
    · obtain ⟨rfl, hheld⟩ := read_of_isWritten hwritten hfills hloc hnot
      refine ⟨(hwritten.fills.trans hfills).mono ?_, List.forall_mem_cons.2 ⟨hheld, hread⟩⟩
      rintro _ (rfl | ⟨b, hb, heq⟩)
      · exact ⟨a, by simp, hloc⟩
      · exact ⟨b, List.mem_cons_of_mem _ hb, heq⟩

theorem leadsApart_of_read (hcontent : as.Pairwise fun a b => a.content ≠ b.content)
    (hread : ∀ a ∈ as, t.read cwd a.path = .ok a.content.toUTF8) :
    t.LeadsApart cwd (as.map (·.path)) := by
  constructor
  · intro path hpath
    obtain ⟨a, ha, rfl⟩ := List.mem_map.1 hpath
    obtain ⟨loc, hfile, -⟩ := read_iff_fileAt?.1 (hread a ha)
    simp [hfile]
  · rw [List.pairwise_map]
    refine hcontent.imp_of_mem fun ha hb hne heq => hne ?_
    obtain ⟨loc, hfile, hfind⟩ := read_iff_fileAt?.1 (hread _ ha)
    obtain ⟨loc', hfile', hfind'⟩ := read_iff_fileAt?.1 (hread _ hb)
    rw [heq, hfile'] at hfile
    obtain rfl := Option.some.inj hfile
    exact String.toByteArray_inj.1 (Node.file.inj (Option.some.inj (hfind.symm.trans hfind')))

section Run

variable {mark : String} {report : Report}

/-- In `t'` every artifact holds what it renders to in `t`. -/
def HoldsRendered (p : Pipeline) (cwd : Path) (mark : String) (t t' : Tree) : Prop :=
  ∃ prepared ∈ (Action.on cwd (p.prepare ⟨cwd, mark⟩) t).1.toOption,
    ∀ a ∈ prepared.artifacts, t'.read cwd a.path = .ok a.content.toUTF8

instance (p : Pipeline) (cwd : Path) (mark : String) (t t' : Tree) :
    Decidable (p.HoldsRendered cwd mark t t') :=
  inferInstanceAs (Decidable (∃ prepared ∈ (Action.on cwd (p.prepare ⟨cwd, mark⟩) t).1.toOption, _))

theorem HoldsRendered.leadsApart (h : p.HoldsRendered cwd mark t t') :
    t'.LeadsApart cwd p.context.artifactPaths := by
  obtain ⟨prepared, hsome, hread⟩ := h
  rcases hprepare : Action.on cwd (p.prepare ⟨cwd, mark⟩) t with ⟨_ | prepared', t₁⟩
  · rw [hprepare] at hsome
    cases hsome
  · rw [hprepare] at hsome
    obtain rfl : prepared' = prepared := Option.some.inj hsome
    have hartifacts := artifacts_of_on_prepare hprepare
    rw [← map_path_artifacts p.context prepared'.entries, ← hartifacts]
    refine leadsApart_of_read ?_ hread
    rw [hartifacts]
    exact pairwise_content_artifacts p.context prepared'.entries

theorem exists_holdsRendered_iff (h : Action.on cwd (p.generate ⟨cwd, mark⟩) t = (.ok report, t')) :
    ∃ prepared : Prepared,
      Action.on cwd (prepared.artifacts.mapM (write ⟨cwd, mark⟩)) t = (.ok report.artifacts, t') ∧
      prepared.artifacts.map (·.path) = p.context.artifactPaths ∧
      (p.HoldsRendered cwd mark t t' ↔
        ∀ a ∈ prepared.artifacts, t'.read cwd a.path = .ok a.content.toUTF8) := by
  have hrun : Action.on (Host.mk cwd mark).cwd (p.generate ⟨cwd, mark⟩) t = (.ok report, t') := h
  obtain ⟨prepared, hprepare, hwritten, hpaths⟩ := exists_prepared hrun
  refine ⟨prepared, hwritten, hpaths, ?_⟩
  have hsome : (Action.on cwd (p.prepare ⟨cwd, mark⟩) t).1.toOption = some prepared :=
    congrArg (fun result => result.1.toOption) hprepare
  rw [HoldsRendered, hsome]
  simp

/-- After a run every artifact holds what was rendered exactly if it is in a file of its own. -/
theorem holdsRendered_iff_leadsApart (habs : ∀ a ∈ p.context.artifactPaths, a.isAbsolute = true)
    (hnew : IsNew mark p.context.artifactPaths t)
    (h : Action.on cwd (p.generate ⟨cwd, mark⟩) t = (.ok report, t')) :
    p.HoldsRendered cwd mark t t' ↔ t'.LeadsApart cwd p.context.artifactPaths := by
  refine ⟨HoldsRendered.leadsApart, fun hapart => ?_⟩
  obtain ⟨prepared, hwritten, hpaths, hiff⟩ := exists_holdsRendered_iff h
  rw [← hpaths] at habs hnew hapart
  rw [hiff]
  have has : ∀ a ∈ prepared.artifacts, a.path.isAbsolute = true :=
    fun a ha => habs _ (List.mem_map_of_mem ha)
  exact ((bringsAll_of_on_mapM_write has hwritten).read_of_leadsApart has hnew (.refl _ _) hapart).2

/-- Without links it is enough that the paths are different and that no artifact has the name of the file
beside a later one. -/
theorem holdsRendered_of_distinct (ht : t.Proper)
    (habs : ∀ a ∈ p.context.artifactPaths, a.isAbsolute = true)
    (hdistinct : p.context.artifactPaths.Pairwise fun a b =>
      a.location ≠ b.location ∧ a.location ≠ (b.withExtension mark).location)
    (h : Action.on cwd (p.generate ⟨cwd, mark⟩) t = (.ok report, t')) :
    p.HoldsRendered cwd mark t t' := by
  obtain ⟨prepared, hwritten, hpaths, hiff⟩ := exists_holdsRendered_iff h
  rw [← hpaths] at habs hdistinct
  rw [List.pairwise_map] at hdistinct
  rw [hiff]
  exact (read_of_on_mapM_write ht (fun a ha => habs _ (List.mem_map_of_mem ha)) hwritten).2 hdistinct

end Run

end Pipeline

end TextCatalog
