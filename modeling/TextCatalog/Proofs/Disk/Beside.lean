import TextCatalog.Proofs.Disk.Linked
import TextCatalog.Proofs.Disk.Update

/-!
# Updates in a tree with links

A file that is brought up to date takes its text by way of a file beside it. If no name on the disk ends
as that of the file beside does, nothing but the file changes in any tree, however its path leads there,
and directories are made where nothing was.
-/

namespace TextCatalog.Disk

open RawText (slash dot)
open TextCatalog.Disk.Tree

variable {t t' t'' : Tree} {cwd p : Path} {mark text : String} {bytes : ByteArray} {loc : Location}
  {places others : Location → Prop}

namespace Tree

section Files

/-- Where the file is that a path leads to. -/
def fileAt? (t : Tree) (cwd p : Path) : Option Location :=
  match t.resolve cwd (fun _ => true) p with
  | .error _ => none
  | .ok place =>
    match t.nodeAt place with
    | .ok (.file _) => some place.loc
    | _ => none

theorem find?_of_nodeAt {place : Place} (h : t.nodeAt place = .ok (.file bytes)) :
    t.find? place.loc = some (.file bytes) := by
  cases place with
  | unnamed loc => cases h
  | named loc slash =>
    rw [nodeAt] at h
    split at h
    next => cases h
    next => cases h
    next node hlook =>
      split at h
      · cases h
      · obtain rfl := Except.ok.inj h
        exact (of_look_eq_ok hlook).2.symm

theorem exists_place_of_read (h : t.read cwd p = .ok bytes) :
    ∃ place, t.resolve cwd (fun _ => true) p = .ok place ∧ t.nodeAt place = .ok (.file bytes) := by
  have hnode := read_eq_ok_iff.1 h
  rw [Tree.node] at hnode
  split at hnode
  next => cases hnode
  next place hresolve => exact ⟨place, hresolve, hnode⟩

theorem exists_place_of_fileAt? (h : t.fileAt? cwd p = some loc) :
    ∃ place bytes, t.resolve cwd (fun _ => true) p = .ok place ∧ t.nodeAt place = .ok (.file bytes) ∧
      place.loc = loc := by
  rw [fileAt?] at h
  split at h
  next => cases h
  next place hresolve =>
    split at h
    next bytes hnode => exact ⟨place, bytes, hresolve, hnode, Option.some.inj h⟩
    next => cases h

theorem read_iff_fileAt? :
    t.read cwd p = .ok bytes ↔
      ∃ loc, t.fileAt? cwd p = some loc ∧ t.find? loc = some (.file bytes) := by
  constructor
  · intro h
    obtain ⟨place, hresolve, hnode⟩ := exists_place_of_read h
    refine ⟨place.loc, ?_, find?_of_nodeAt hnode⟩
    rw [fileAt?, hresolve]
    simp only
    rw [hnode]
  · rintro ⟨loc, hfile, hfind⟩
    obtain ⟨place, bytes', hresolve, hnode, rfl⟩ := exists_place_of_fileAt? hfile
    have hfind' := find?_of_nodeAt hnode
    rw [hfind] at hfind'
    obtain rfl : bytes = bytes' := Node.file.inj (Option.some.inj hfind')
    rw [read_eq_ok_iff, Tree.node, hresolve]
    exact hnode

end Files

section Fills

/-- From `t` to `t'` the places have become files, and directories have been made where nothing was. -/
def Fills (places : Location → Prop) (t t' : Tree) : Prop :=
  ∀ loc, (places loc ∧ ∃ bytes, t'.find? loc = some (.file bytes)) ∨ t'.find? loc = t.find? loc ∨
    t.find? loc = none ∧ t'.find? loc = some .directory

namespace Fills

theorem refl (places : Location → Prop) (t : Tree) : Fills places t t :=
  fun _ => .inr (.inl rfl)

theorem mono (h : Fills places t t') (hsub : ∀ loc, places loc → others loc) : Fills others t t' :=
  fun loc => (h loc).imp_left fun hfile => ⟨hsub loc hfile.1, hfile.2⟩

theorem find?_file (h : Fills places t t') (hloc : ¬ places loc)
    (hfile : t.find? loc = some (.file bytes)) : t'.find? loc = some (.file bytes) := by
  rcases h loc with hfilled | hsame | ⟨hnone, -⟩
  · exact absurd hfilled.1 hloc
  · rw [hsame, hfile]
  · simp [hfile] at hnone

theorem ne_link (h : Fills places t t') (hfile : t.find? loc = some (.file bytes)) (target : Path) :
    t'.find? loc ≠ some (.link target) := by
  rcases h loc with ⟨-, bytes', hfile'⟩ | hsame | ⟨-, hdir⟩
  · simp [hfile']
  · simp [hsame, hfile]
  · simp [hdir]

theorem keepsWays (h : Fills places t t') : KeepsWays places t t' := by
  intro loc
  rcases h loc with hfile | hsame | ⟨hnone, hdir⟩
  · exact .inl hfile
  · exact .inr (.inl hsame)
  · exact .inr (.inr ⟨by simp [hnone, LeadsOn], by simp [hdir]⟩)

end Fills

theorem KeepsWays.trans_fills (h : KeepsWays places t t') (h' : Fills others t' t'') :
    KeepsWays (fun loc => places loc ∨ others loc) t t'' := by
  intro loc
  rcases h' loc with ⟨hplace, hfile⟩ | hsame | ⟨hnone, hdir⟩
  · exact .inl ⟨.inr hplace, hfile⟩
  · rw [hsame]
    exact (h loc).imp_left fun hfile => ⟨.inl hfile.1, hfile.2⟩
  · rcases h loc with ⟨-, bytes, hfile⟩ | hsame | ⟨hleaf, -⟩
    · simp [hfile] at hnone
    · refine .inr (.inr ⟨?_, by simp [hdir]⟩)
      rw [← hsame, hnone]
      exact id
    · exact .inr (.inr ⟨hleaf, by simp [hdir]⟩)

theorem Fills.trans (h : Fills places t t') (h' : Fills others t' t'') :
    Fills (fun loc => places loc ∨ others loc) t t'' := by
  intro loc
  rcases h' loc with ⟨hplace, hfile⟩ | hsame | ⟨hnone, hdir⟩
  · exact .inl ⟨.inr hplace, hfile⟩
  · rw [hsame]
    exact (h loc).imp_left fun hfile => ⟨.inl hfile.1, hfile.2⟩
  · rcases h loc with ⟨-, bytes, hfile⟩ | hsame | ⟨-, hdir'⟩
    · simp [hfile] at hnone
    · exact .inr (.inr ⟨hsame ▸ hnone, hdir⟩)
    · simp [hdir'] at hnone

end Fills

end Tree

section Room

/-- No name on the disk ends as the names of the files beside do. -/
def Tree.IsClear (mark : String) (t : Tree) : Prop :=
  ∀ dir stem, t.find? (dir ++ [stem ++ dot :: mark]) = none

/-- No name in the path ends as the names of the files beside do. -/
def AvoidsMark (mark : String) (p : Path) : Prop :=
  ∀ stem, .name (stem ++ dot :: mark) ∉ p.steps

theorem AvoidsMark.ne {dir top : Location} {last stem : RawText} (h : AvoidsMark mark p)
    (hlast : .name last ∈ p.steps) : top ++ [stem ++ dot :: mark] ≠ dir ++ [last] := by
  intro heq
  obtain ⟨-, rfl⟩ := List.append_singleton_inj.1 heq
  exact h stem hlast

theorem Op.MakesRoomFor.fills {op : Op} (hop : op.MakesRoomFor p) (havoids : AvoidsMark mark p)
    (hclear : t.IsClear mark) :
    Fills (fun _ => False) t (perform cwd op t).2 ∧ (perform cwd op t).2.IsClear mark := by
  obtain ⟨dir, hdir, hsub, rfl | rfl⟩ := hop
  · exact ⟨.refl _ t, hclear⟩
  · rw [perform]
    cases hadd : t.add cwd dir .directory with
    | error cause => exact ⟨.refl _ t, hclear⟩
    | ok t₁ =>
      obtain ⟨_, slash, hresolve, -, hnone, rfl⟩ := exists_of_add hadd
      obtain ⟨top, last, rfl, hlast⟩ := exists_name_of_resolve hdir hresolve
      constructor
      · intro loc
        by_cases hloc : loc = top ++ [last]
        · rw [hloc]
          exact .inr (.inr ⟨hnone, find?_put_self (by simp)⟩)
        · exact .inr (.inl (find?_put_of_ne hloc))
      · intro above stem
        rw [changed, find?_put_of_ne (havoids.ne (List.dropLast_subset _ (hsub.subset hlast)))]
        exact hclear above stem

theorem Tree.RoomFor.fills {room : Tree} (h : Tree.RoomFor cwd p t room) (havoids : AvoidsMark mark p)
    (hclear : t.IsClear mark) : Fills (fun _ => False) t room ∧ room.IsClear mark := by
  induction h with
  | refl => exact ⟨.refl _ t, hclear⟩
  | tail _ hop ih =>
    obtain ⟨op, hop, rfl⟩ := hop
    obtain ⟨hfills, hclear'⟩ := ih
    obtain ⟨hfills', hclear''⟩ := hop.fills havoids hclear'
    exact ⟨(hfills.trans hfills').mono fun _ => Or.rec id id, hclear''⟩

end Room

section Written

/-- The file at the end of the path has been replaced: its name `place` is found in the tree `middle` that
had the file beside as well. -/
structure IsWritten (t : Tree) (cwd p : Path) (bytes : ByteArray) (t' : Tree) (place : Location)
    (middle : Tree) : Prop where
  fills : Fills (· = place) t t'
  file : t'.find? place = some (.file bytes)
  resolved : middle.resolve cwd (fun _ => false) p = .ok (.named place false)
  keepsWays : KeepsWays (· = place) middle t'

theorem ends_of_resolve_withExtension {follows : Bool → Bool} {slash : Bool} (hp : p.isAbsolute = true)
    (hmark : RawText.slash ∉ Text.bytes mark)
    (h : t.resolve cwd follows (p.withExtension mark) = .ok (.named loc slash)) :
    ∃ stem, (∃ dir, loc = dir ++ [stem ++ dot :: mark]) ∨
      (∃ slash, follows slash = true) ∧
        ∃ dir target, t.find? (dir ++ [stem ++ dot :: mark]) = some (.link target) := by
  obtain ⟨last, hlast, hends⟩ := endsBy_of_resolve (Path.isAbsolute_withExtension mark hp) h
  obtain ⟨stem, rfl⟩ := Path.exists_stem_of_lastPiece? hmark hlast hends.isName
  exact ⟨stem, hends.found⟩

/-- A new file that is moved to another place leaves all else as it was. -/
theorem find?_moved {beside place : Location} (hnone : t.find? beside = none) (hother : loc ≠ place) :
    (((t.put beside (.file bytes)).erase beside).put place (.file bytes)).find? loc = t.find? loc := by
  rw [find?_put_of_ne hother]
  by_cases hbeside : loc = beside
  · rw [hbeside, find?_erase_self (ne_nil_of_find?_eq_none hnone), hnone]
  · rw [find?_erase_of_ne hbeside, find?_put_of_ne hbeside]

theorem isWritten_moved {beside place : Location} (hnone : t.find? beside = none) (hplace : place ≠ [])
    (hresolve : (t.put beside (.file bytes)).resolve cwd (fun _ => false) p
      = .ok (.named place false)) :
    IsWritten t cwd p bytes (((t.put beside (.file bytes)).erase beside).put place (.file bytes)) place
      (t.put beside (.file bytes)) := by
  have hfile : (((t.put beside (.file bytes)).erase beside).put place (.file bytes)).find? place
      = some (.file bytes) := find?_put_self hplace
  refine ⟨fun loc => ?_, hfile, hresolve, fun loc => ?_⟩
  · by_cases hloc : loc = place
    · exact .inl ⟨hloc, bytes, hloc ▸ hfile⟩
    · exact .inr (.inl (find?_moved hnone hloc))
  · by_cases hloc : loc = place
    · exact .inl ⟨hloc, bytes, hloc ▸ hfile⟩
    · rw [find?_moved hnone hloc]
      by_cases hbeside : loc = beside
      · rw [hbeside, hnone, find?_put_self (ne_nil_of_find?_eq_none hnone)]
        exact .inr (.inr ⟨id, by simp⟩)
      · exact .inr (.inl (find?_put_of_ne hbeside).symm)

/-- The file beside is new, at a name that ends as such names do. -/
theorem exists_beside_of_write (hp : p.isAbsolute = true) (hmark : RawText.slash ∉ Text.bytes mark)
    (hclear : t.IsClear mark) (h : t.write cwd (p.withExtension mark) bytes = .ok t') :
    ∃ dir stem, t.resolve cwd (fun slash => !slash) (p.withExtension mark)
        = .ok (.named (dir ++ [stem ++ dot :: mark]) false) ∧
      Location.IsShort (dir ++ [stem ++ dot :: mark]) ∧
      t' = t.put (dir ++ [stem ++ dot :: mark]) (.file bytes) := by
  obtain ⟨beside, hbeside, hshort, -, rfl⟩ := exists_of_write h
  obtain ⟨stem, ⟨dir, rfl⟩ | ⟨-, dir, target, hlink⟩⟩ := ends_of_resolve_withExtension hp hmark hbeside
  · exact ⟨dir, stem, hbeside, hshort, rfl⟩
  · cases (hclear dir stem).symm.trans hlink

/-- A file that is moved from beside is the one that was written there, and takes the place at the end of
the path. -/
theorem exists_isWritten_of_rename (hp : p.isAbsolute = true) (hmark : RawText.slash ∉ Text.bytes mark)
    (havoids : AvoidsMark mark p) (hclear : t.IsClear mark) {middle : Tree}
    (hwrite : t.write cwd (p.withExtension mark) bytes = .ok middle)
    (hrename : middle.rename cwd (p.withExtension mark) p = .ok t') :
    t'.IsClear mark ∧ ∃ place, IsWritten t cwd p bytes t' place middle := by
  obtain ⟨above, name, -, -, rfl⟩ := exists_beside_of_write hp hmark hclear hwrite
  obtain ⟨old, place, node, hold, hplace, -, -, hfind, -, rfl⟩ := exists_of_rename hrename
  have hnone := hclear above name
  -- No other file can be renamed, since there was none with such a name.
  obtain rfl : old = above ++ [name ++ dot :: mark] := by
    obtain ⟨stem, ⟨top, rfl⟩ | ⟨⟨_, hfollows⟩, -⟩⟩ := ends_of_resolve_withExtension hp hmark hold
    · by_contra hother
      rw [find?_put_of_ne hother, hclear top stem] at hfind
      cases hfind
    · cases hfollows
  obtain rfl : .file bytes = node := by
    rw [find?_put_self (by simp)] at hfind
    exact Option.some.inj hfind
  obtain ⟨dir, last, rfl, hlast⟩ := exists_name_of_resolve hp hplace
  refine ⟨fun top stem => ?_, _, isWritten_moved hnone (by simp) hplace⟩
  rw [find?_moved hnone (havoids.ne hlast), hclear top stem]

theorem IsWritten.of_fills {room middle : Tree} {place : Location} (hfills : Fills (fun _ => False) t room)
    (h : IsWritten room cwd p bytes t' place middle) : IsWritten t cwd p bytes t' place middle :=
  ⟨(hfills.trans h.fills).mono fun _ => Or.rec False.elim id, h.file, h.resolved, h.keepsWays⟩

end Written

end TextCatalog.Disk
