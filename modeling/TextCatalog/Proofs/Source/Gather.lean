import TextCatalog.Proofs.Path.Order
import TextCatalog.Proofs.Source.Walks

/-!
# What is gathered

On a proper tree the walk from the base directories finds exactly the files that lie below a base
directory, are led to by names that are admitted and are taken by the selection, unless it comes to a
directory that cannot be opened. Whether a file is taken is told by its location alone.
-/

namespace TextCatalog

open Disk

namespace SourceFile

open TextCatalog.Path (IsInner IsName ofLocation Way)

variable {t t' : Tree} {cwd root : Path} {s : Selection} {loc base : Location} {cause : Cause}

section Gather

/-- Whether the selection takes a file at the location. -/
def takes (s : Selection) (root : Path) (loc : Location) : Bool :=
  s.selects (Path.slashed (Path.relative root (ofLocation loc)))

/-- The file at `loc` is found on the walk from the directory at `base`. -/
structure IsFound (t : Tree) (s : Selection) (root : Path) (base loc : Location) : Prop where
  fits : Tree.Fits base
  below : ∃ names, names ≠ [] ∧ loc = base ++ names ∧ names.all s.admits = true
  taken : takes s root loc = true
  file : ∃ bytes, t.find? loc = some (.file bytes)

/-- The walk from the directory at `base` comes to the one at `loc`, which cannot be opened. -/
structure IsShut (t : Tree) (s : Selection) (base loc : Location) (cause : Cause) : Prop where
  fits : Tree.Fits base
  below : ∃ names, loc = base ++ names ∧ names.all s.admits = true
  directory : t.find? loc = some .directory
  refused : t.refusal? (ofLocation loc) loc = some cause

theorem relative_ofLocation (hroot : root.IsInner) (q : Path) :
    Path.relative (ofLocation root.location) q = Path.relative root q := by
  have hnormal : (ofLocation root.location).normalComponents = root.normalComponents := by
    rw [Path.normalComponents_ofLocation fun _ => Path.isName_of_mem_location,
      hroot.normalComponents_eq]
  rw [Path.relative, Path.relative, hnormal]

/-- What is found stays found where no change is made that is taken. -/
theorem IsFound.of_changes {places : Location → Prop} (h : t.Changes places t')
    (hplaces : ∀ loc, places loc → takes s root loc = false) :
    IsFound t' s root base loc ↔ IsFound t s root base loc := by
  have hsame : takes s root loc = true →
      ((∃ bytes, t'.find? loc = some (.file bytes)) ↔ ∃ bytes, t.find? loc = some (.file bytes)) := by
    intro htaken
    have hloc : ¬ places loc := by
      intro hmem
      simp [hplaces loc hmem] at htaken
    simp only [h.find?_file_iff hloc]
  exact ⟨fun hf => ⟨hf.fits, hf.below, hf.taken, (hsame hf.taken).1 hf.file⟩,
    fun hf => ⟨hf.fits, hf.below, hf.taken, (hsame hf.taken).2 hf.file⟩⟩

theorem isFound_iff (hroot : root.IsInner) :
    IsFound t s root base loc ↔
      IsMet t s.admits s.selects ⟨0, root.location⟩ ⟨0, base⟩ ⟨0, loc⟩ := by
  have htaken : takes s root loc = s.selects (Path.slashed
      (Path.relative (Way.path ⟨0, root.location⟩) (Way.path ⟨0, loc⟩))) := by
    rw [takes, ← Way.ofLocation_eq_path, ← Way.ofLocation_eq_path, relative_ofLocation hroot]
  constructor
  · rintro ⟨hfits, ⟨names, hne, rfl, hadmits⟩, hselected, hfile⟩
    exact ⟨Tree.fits_iff.1 hfits, ⟨names, hne, rfl, hadmits⟩, htaken.symm.trans hselected, hfile⟩
  · rintro ⟨hfits, ⟨names, hne, hloc, hadmits⟩, hselected, hfile⟩
    exact ⟨Tree.fits_iff.2 hfits, ⟨names, hne, congrArg Way.names hloc, hadmits⟩,
      htaken.trans hselected, hfile⟩

theorem isShut_iff :
    IsShut t s base loc cause ↔ IsBarred t s.admits ⟨0, base⟩ ⟨0, loc⟩ cause := by
  constructor
  · rintro ⟨hfits, ⟨names, rfl, hadmits⟩, hdir, hrefused⟩
    exact ⟨Tree.fits_iff.1 hfits, ⟨names, rfl, hadmits⟩, hdir, hrefused⟩
  · rintro ⟨hfits, ⟨names, hloc, hadmits⟩, hdir, hrefused⟩
    exact ⟨Tree.fits_iff.2 hfits, ⟨names, congrArg Way.names hloc, hadmits⟩, hdir, hrefused⟩

/-- Where all directories that were there can be opened, so can those that are made. -/
theorem IsShut.of_changes {places : Location → Prop} (h : t.Changes places t')
    (hshut : IsShut t' s base loc cause) : ∃ cause, IsShut t s base loc cause := by
  have hbefore : t.find? loc = some .directory ∧ ¬ t.Opens loc := by
    by_contra hopens
    have hnone := h.opens loc hshut.directory (not_and_not_right.1 hopens)
    cases hshut.refused.symm.trans hnone
  obtain ⟨cause', hcause⟩ := Option.ne_none_iff_exists'.1 hbefore.2
  exact ⟨cause', hshut.fits, hshut.below, hbefore.1, hcause⟩

/-- A walk comes to a directory that cannot be opened, and gathering says so, or the gathered paths are
those of the files that are found below a base directory. -/
theorem on_gather (cwd : Path) (s : Selection) (ht : t.Proper) (hroot : root.IsInner)
    {bases : List Path}
    (hbases : ∀ base ∈ bases, (root.join base).IsInner) :
    (∃ paths, Action.on cwd (gather s (ofLocation root.location) bases) t = (.ok paths, t) ∧
      (∀ base ∈ bases, ∀ loc cause, ¬ IsShut t s (root.join base).location loc cause) ∧
      ∀ q, q ∈ paths ↔ ∃ base ∈ bases, ∃ loc, q = ofLocation loc ∧
        IsFound t s root (root.join base).location loc) ∨
    ∃ base ∈ bases, ∃ loc cause, IsShut t s (root.join base).location loc cause ∧
      Action.on cwd (gather s (ofLocation root.location) bases) t
        = (.error (.walk (ofLocation loc) cause), t) := by
  have hway : ∀ base ∈ bases,
      (Way.path ⟨0, root.location⟩ |>.join base).way = ⟨0, (root.join base).location⟩ := by
    intro base hbase
    rw [← (hbases base hbase).way_eq, ← Way.ofLocation_eq_path]
    apply Way.components_injective
    have hjoin := hroot.normalComponents_join base
    rw [Path.normalComponents_eq_way (Path.isAbsolute_join (Path.isAbsolute_ofLocation _)),
      Path.normalComponents_eq_way (hbases base hbase).isAbsolute] at hjoin
    exact (List.cons.inj hjoin).2
  have hinner : ∀ {base names}, Way.below ⟨0, (root.join base).location⟩ names
      = ⟨0, (root.join base).location ++ names⟩ := rfl
  refine (on_gather_path cwd s ht ⟨0, root.location⟩ bases).imp ?_ ?_
  · rintro ⟨paths, hgather, hopen, hmem⟩
    refine ⟨paths, hgather, fun base hbase loc cause hshut => ?_, fun q => ?_⟩
    · exact hopen base hbase _ cause (hway base hbase ▸ isShut_iff.1 hshut)
    rw [hmem q]
    refine exists_congr fun base => and_congr_right fun hbase => ?_
    rw [hway base hbase]
    constructor
    · rintro ⟨w, rfl, hmet⟩
      obtain ⟨names, -, rfl, -⟩ := hmet.below
      rw [hinner] at hmet ⊢
      exact ⟨_, (Way.ofLocation_eq_path _).symm, (isFound_iff hroot).2 hmet⟩
    · rintro ⟨loc, rfl, hfound⟩
      exact ⟨⟨0, loc⟩, Way.ofLocation_eq_path loc, (isFound_iff hroot).1 hfound⟩
  · rintro ⟨base, hbase, w, cause, hbarred, hgather⟩
    rw [hway base hbase] at hbarred
    obtain ⟨names, rfl, -⟩ := hbarred.below
    rw [hinner] at hbarred hgather
    exact ⟨base, hbase, _, cause, isShut_iff.2 hbarred, hgather⟩

end Gather

end SourceFile

end TextCatalog
