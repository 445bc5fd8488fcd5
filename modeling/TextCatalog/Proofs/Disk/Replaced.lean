import TextCatalog.Proofs.Disk.Attempt
import TextCatalog.Proofs.Disk.Grounded
import TextCatalog.Proofs.Disk.Room

/-!
# Files that are replaced as a whole

When a text takes the place of a file, directories are made above it and the file is put where its path
ends then. Nothing remains of the file beside, by way of which the text came there, and a path that can be
followed from the start is read again with the new text.
-/

namespace TextCatalog

open RawText (slash dot)

namespace Disk

open TextCatalog.Disk.Tree

variable {t t' : Tree} {cwd p : Path} {mark text : String} {bytes : ByteArray} {loc place : Location}

namespace Tree

/-- The name of the file beside is not in use: where the path `beside` ends when room has been made, nothing
was before. -/
def IsUnused (t : Tree) (cwd p beside : Path) : Prop :=
  ∀ loc slash, (t.withRoom cwd p).resolve cwd (fun _ => false) beside = .ok (.named loc slash) →
    t.find? loc = none

theorem erase_put_eq {node : Node} (hnode : node ≠ .directory) (hnone : t.find? loc = none) :
    (t.put loc node).erase loc = t := by
  have hloc := ne_nil_of_find?_eq_none hnone
  rw [find?, if_neg hloc, Option.map_eq_none_iff, List.find?_eq_none] at hnone
  have hall : t.nodes.filter (fun n => n.1 != loc) = t.nodes :=
    List.filter_eq_self.2 fun n hn => by simpa using hnone n hn
  rw [put, if_neg hnode, erase, List.filter_cons_of_neg (by simp), hall, hall]

end Tree

section Beside

/-- The file beside is written where nothing is. -/
theorem exists_of_write_unused (hunused : t.IsUnused cwd p (p.withExtension mark)) {middle : Tree}
    (h : (t.withRoom cwd p).write cwd (p.withExtension mark) bytes = .ok middle) :
    ∃ loc, (t.withRoom cwd p).find? loc = none ∧ loc.IsShort ∧
      middle.resolve cwd (fun _ => false) (p.withExtension mark) = .ok (.named loc false) ∧
      middle = (t.withRoom cwd p).put loc (.file bytes) := by
  have hmade := hasMade_withRoom t cwd p
  obtain ⟨loc, hresolve, hshort, hdir, rfl⟩ := exists_of_write h
  obtain ⟨-, -, place', -, -, hstop, hplace⟩ := exists_course_of_resolve hresolve
  have hfree : ∀ loc slash, (t.withRoom cwd p).resolve cwd (fun _ => false) (p.withExtension mark)
      = .ok (.named loc slash) →
        (t.withRoom cwd p).find? loc = none ∨ (t.withRoom cwd p).find? loc = some .directory := by
    intro loc slash hends
    have hnone := hunused loc slash hends
    exact (hmade.grows loc).imp (·.trans hnone) (·.2.1)
  have hstop' : (t.withRoom cwd p).resolve cwd (fun _ => false) (p.withExtension mark)
      = .ok (.named loc false) := by
    rcases hplace with rfl | ⟨loc', slash, target, rfl, hlink⟩
    · exact hstop
    · rcases hfree _ _ hstop with hnone | hdir'
      · cases hlink.symm.trans hnone
      · cases hlink.symm.trans hdir'
  have hnone := (hfree loc false hstop').resolve_right hdir
  exact ⟨loc, hnone, hshort, resolve_of_keepsLeads (keepsLeads_put_of_none hnone) hstop', rfl⟩

/-- A replacement puts the file where its path ends. -/
theorem exists_put_of_replace (hunused : t.IsUnused cwd p (p.withExtension mark))
    (h : (replace mark p text).run (perform cwd) (t.withRoom cwd p) = (.ok (), t')) :
    ∃ place, (t.withRoom cwd p).resolve cwd (fun _ => false) p = .ok (.named place false) ∧
      Location.IsShort place ∧ (t.withRoom cwd p).find? place ≠ some .directory ∧
      t' = (t.withRoom cwd p).put place (.file text.toUTF8) := by
  obtain ⟨middle, hwrite, hrename⟩ := exists_of_replace h
  obtain ⟨loc, hnone, -, hresolve, rfl⟩ := exists_of_write_unused hunused hwrite
  obtain ⟨old, place, node, hold, hplace, hshort, hdir, hfind, -, rfl⟩ := exists_of_rename hrename
  have hloc := ne_nil_of_find?_eq_none hnone
  obtain ⟨rfl, -⟩ := Place.named.inj (Except.ok.inj (hold.symm.trans hresolve))
  rw [find?_put_self hloc] at hfind
  obtain rfl := Option.some.inj hfind
  -- The path does not lead through the file beside, so that it ended there before as well.
  have hkeep : KeepsLeads (fun _ => False) ((t.withRoom cwd p).put old (.file text.toUTF8))
      (t.withRoom cwd p) := by
    intro other hleads
    refine .inl (find?_put_of_ne ?_).symm
    rintro rfl
    rw [find?_put_self hloc] at hleads
    exact hleads
  refine ⟨place, resolve_of_keepsLeads hkeep hplace, hshort, ?_, by rw [erase_put_eq (by simp) hnone]⟩
  by_cases heq : place = old
  · simp [heq, hnone]
  · rwa [find?_put_of_ne heq] at hdir

/-- A replacement that fails leaves the tree as it was. -/
theorem eq_of_replace_error (hunused : t.IsUnused cwd p (p.withExtension mark)) {cause : Cause}
    (h : (replace mark p text).run (perform cwd) (t.withRoom cwd p) = (.error cause, t')) :
    t' = t.withRoom cwd p := by
  rw [replace, Script.run_step, perform] at h
  cases hwrite : (t.withRoom cwd p).write cwd (p.withExtension mark) text.toUTF8 with
  | error cause =>
    rw [hwrite] at h
    exact (Prod.mk.inj h).2.symm
  | ok middle =>
    rw [hwrite] at h
    dsimp only [changed] at h
    rw [Script.run_step, perform] at h
    cases hrename : middle.rename cwd (p.withExtension mark) p with
    | ok after =>
      rw [hrename] at h
      cases h
    | error cause =>
      rw [hrename] at h
      obtain ⟨loc, hnone, hshort, hresolve, rfl⟩ := exists_of_write_unused hunused hwrite
      have hfile : ((t.withRoom cwd p).put loc (.file text.toUTF8)).find? loc = some (.file text.toUTF8) :=
        find?_put_self (ne_nil_of_find?_eq_none hnone)
      have hremoved := remove_of_resolve hresolve hshort hfile
      rw [erase_put_eq (by simp) hnone] at hremoved
      dsimp only [changed] at h
      rw [Script.run_step, hremoved] at h
      exact (Prod.mk.inj h).2.symm

end Beside

section Updated

theorem update_of_read_error {cause : Cause} (hne : cause ≠ .notFound) (h : t.read cwd p = .error cause) :
    (update mark p text).run (perform cwd) t = (.error cause, t) := by
  have hheld : (holds p text).run (perform cwd) t = (.error cause, t) := by
    rw [holds, Script.run_step]
    dsimp only [perform]
    rw [h]
    cases cause <;> first | rfl | exact absurd rfl hne
  change ((holds p text).bind _).run (perform cwd) t = _
  rw [Script.run_bind, hheld]
  rfl

/-- An update that fails has made directories at most. -/
theorem eq_of_update_error (hunused : t.IsUnused cwd p (p.withExtension mark)) {cause : Cause}
    (h : (update mark p text).run (perform cwd) t = (.error cause, t')) :
    t' = t ∨ t' = t.withRoom cwd p := by
  change ((holds p text).bind _).run (perform cwd) t = _ at h
  rw [Script.run_bind, run_holds] at h
  generalize ((holds p text).run (perform cwd) t).1 = held at h
  rcases held with cause' | isHeld
  · exact .inl (Prod.mk.inj h).2.symm
  cases isHeld with
  | true => cases h
  | false =>
    right
    change ((makeRoom p).bind _).run (perform cwd) t = _ at h
    rw [Script.run_bind] at h
    change Script.run _ _ (t.withRoom cwd p) = _ at h
    generalize ((makeRoom p).run (perform cwd) t).1 = made at h
    rcases made with cause' | _
    · exact (Prod.mk.inj h).2.symm
    change ((replace mark p text).bind _).run (perform cwd) (t.withRoom cwd p) = _ at h
    rw [Script.run_bind] at h
    cases hreplace : (replace mark p text).run (perform cwd) (t.withRoom cwd p) with
    | mk result after =>
      rw [hreplace] at h
      cases result with
      | ok _ => cases h
      | error cause' =>
        obtain rfl := eq_of_replace_error hunused hreplace
        exact (Prod.mk.inj h).2.symm

/-- An update that changes a tree makes room and puts the file where its path ends then. -/
theorem exists_put_of_update (hunused : t.IsUnused cwd p (p.withExtension mark))
    (h : (update mark p text).run (perform cwd) t = (.ok true, t')) :
    ∃ place, (t.withRoom cwd p).resolve cwd (fun _ => false) p = .ok (.named place false) ∧
      Location.IsShort place ∧ (t.withRoom cwd p).find? place ≠ some .directory ∧
      t' = (t.withRoom cwd p).put place (.file text.toUTF8) := by
  rcases update_cases h with ⟨hchanged, -, -⟩ | ⟨-, -, hreplace⟩
  · cases hchanged
  · exact exists_put_of_replace hunused hreplace

/-- A path that does not go up ends where nothing was, if directories have been made for it. -/
theorem exists_new_top (ht : t.IsGrounded) (hdots : [dot, dot] ∉ p.pieces) (hmade : t.withRoom cwd p ≠ t) :
    ∃ top, (∀ names, t.find? (top ++ names) = none) ∧
      ∀ t' follows place, (t' = t ∨ t' = t.withRoom cwd p) → t'.resolve cwd follows p = .ok place →
        ∃ names, place.loc = top ++ names := by
  have hroom := hasMade_withRoom t cwd p
  obtain ⟨top, hnone, habove⟩ := hroom.first.resolve_left hmade
  have hbelow := ht.find?_append hnone
  refine ⟨top, hbelow, ?_⟩
  rintro t' follows place (rfl | rfl) hresolve
  · exact habove.exists_below hdots (fun names target => by simp [hbelow]) hresolve
  · refine (habove.of_keepsLeads hroom.keepsLeads).exists_below hdots (fun names target hlink => ?_) hresolve
    rcases hroom.grows (top ++ names) with hsame | ⟨-, hdir, -⟩
    · cases hlink.symm.trans (hsame.trans (hbelow names))
    · cases hlink.symm.trans hdir

end Updated

section Read

theorem read_put_of_ne_link (hplace : t.resolve cwd (fun _ => false) p = .ok (.named place false))
    (hshort : Location.IsShort place) (hdir : t.find? place ≠ some .directory)
    (hlink : ∀ target, t.find? place ≠ some (.link target)) :
    (t.put place (.file bytes)).read cwd p = .ok bytes :=
  read_of_resolve (resolve_of_keepsLeads (keepsLeads_put_of_ne_link hdir hlink) hplace) hshort
    (find?_put_self (ne_nil_of_ne_directory hdir))

/-- A path at whose end a link is replaced is read again, if there was no fault in reading it before. -/
theorem read_put_of_found (hplace : t.resolve cwd (fun _ => false) p = .ok (.named place false))
    (hshort : Location.IsShort place) (hdir : t.find? place ≠ some .directory)
    (hread : ∀ cause, t.read cwd p = .error cause → cause = .notFound) :
    (t.put place (.file bytes)).read cwd p = .ok bytes := by
  rcases resolve_of_lost (keepsLeads_put hdir) hplace with hresolve | ⟨cause, hcause, herror⟩
  · exact read_of_resolve hresolve hshort (find?_put_self (ne_nil_of_ne_directory hdir))
  · exact absurd (hread cause herror) hcause

/-- After an update a path is read with the text. If room had to be made and the path goes up, no link must
have been at its end. -/
theorem read_of_update (ht : t.IsGrounded) (hunused : t.IsUnused cwd p (p.withExtension mark))
    (h : (update mark p text).run (perform cwd) t = (.ok true, t'))
    (hplace : (t.withRoom cwd p).resolve cwd (fun _ => false) p = .ok (.named place false))
    (hway : t.withRoom cwd p = t ∨ [dot, dot] ∉ p.pieces ∨ ∀ target, t.find? place ≠ some (.link target)) :
    t'.read cwd p = .ok text.toUTF8 := by
  obtain ⟨place', hplace', hshort, hdir, rfl⟩ := exists_put_of_update hunused h
  obtain ⟨rfl, -⟩ := Place.named.inj (Except.ok.inj (hplace'.symm.trans hplace))
  have hfound : ∀ cause, t.read cwd p = .error cause → cause = .notFound := by
    intro cause hread
    by_contra hne
    rw [update_of_read_error hne hread] at h
    cases h
  by_cases hsame : t.withRoom cwd p = t
  · rw [hsame] at hplace hdir ⊢
    exact read_put_of_found hplace hshort hdir hfound
  have hlink : ∀ target, t.find? place' ≠ some (.link target) := by
    rcases hway.resolve_left hsame with hdots | hlink
    · obtain ⟨top, hnone, hbelow⟩ := exists_new_top ht hdots hsame
      obtain ⟨names, rfl⟩ := hbelow _ _ _ (.inr rfl) hplace
      simp [hnone]
    · exact hlink
  refine read_put_of_ne_link hplace hshort hdir fun target hfind => ?_
  rcases (hasMade_withRoom t cwd p).grows place' with heq | ⟨-, hdir', -⟩
  · exact hlink target (heq ▸ hfind)
  · exact hdir hdir'

/-- A path that does not go up is read as before when room has been made for it. -/
theorem read_withRoom_iff (ht : t.IsGrounded) (hdots : [dot, dot] ∉ p.pieces) :
    (t.withRoom cwd p).read cwd p = .ok bytes ↔ t.read cwd p = .ok bytes := by
  by_cases hsame : t.withRoom cwd p = t
  · rw [hsame]
  obtain ⟨top, hnone, hbelow⟩ := exists_new_top ht hdots hsame
  have hunread : ∀ t', (t' = t ∨ t' = t.withRoom cwd p) → t'.read cwd p ≠ .ok bytes := by
    intro t' ht' hread
    obtain ⟨place, hresolve, hnode⟩ := exists_place_of_read hread
    obtain ⟨names, hloc⟩ := hbelow t' _ place ht' hresolve
    have hfile := find?_of_nodeAt hnode
    rw [hloc] at hfile
    rcases ht' with rfl | rfl
    · cases (hnone names).symm.trans hfile
    · rcases (hasMade_withRoom t cwd p).grows (top ++ names) with heq | ⟨-, hdir, -⟩
      · cases (hnone names).symm.trans (heq.symm.trans hfile)
      · cases hdir.symm.trans hfile
  exact iff_of_false (hunread _ (.inr rfl)) (hunread _ (.inl rfl))

end Read

end Disk

namespace Action

open Disk

variable {t t' : Tree} {cwd p : Path} {mark text : String} {result : Except Error Bool}

theorem on_writeIfChanged_of_read (h : t.read cwd p = .ok text.toUTF8) (mark : String) :
    on cwd (writeIfChanged mark p text) t = (.ok false, t) := by
  rw [on, writeIfChanged, run_ofScript, update_of_read h]
  rfl

theorem on_isUpToDate_of_read (h : t.read cwd p = .ok text.toUTF8) :
    on cwd (isUpToDate p text) t = (.ok true, t) := by
  rw [on, isUpToDate, run_ofScript, run_holds, holds_eq_true_iff.2 h]
  rfl

theorem exists_update_of_on (h : on cwd (writeIfChanged mark p text) t = (result, t')) :
    ∃ updated, (update mark p text).run (Tree.perform cwd) t = (updated, t') ∧
      result = updated.mapError (.writeArtifact p) := by
  rw [on, writeIfChanged, run_ofScript] at h
  obtain ⟨rfl, rfl⟩ := Prod.mk.inj h
  exact ⟨_, rfl, rfl⟩

/-- A file that holds the text is left alone, and so is all else. Otherwise directories are made above the
file where they are missing, and nothing but the place at which its path ends then has changed. From then on
the path is read with the text, and after a failure it is read as before, if no directory was missing or the
path does not go up. Where it goes up behind a directory that was missing, it may end at an old link or at an
old file. -/
theorem writeIfChanged_replaces (ht : t.IsGrounded) (hunused : t.IsUnused cwd p (p.withExtension mark))
    (h : on cwd (writeIfChanged mark p text) t = (result, t')) :
    (∀ loc, (t.withRoom cwd p).find? loc = t.find? loc ∨ t.find? loc = none ∧
      (t.withRoom cwd p).find? loc = some .directory ∧ (t.withRoom cwd p).HasAbove cwd p loc) ∧
    (result = .ok false ↔ t.read cwd p = .ok text.toUTF8) ∧
    (result = .ok false → t' = t) ∧
    (result = .ok true → ∃ place,
      (t.withRoom cwd p).resolve cwd (fun _ => false) p = .ok (.named place false) ∧
      t'.find? place = some (.file text.toUTF8) ∧
      (∀ loc, loc ≠ place → t'.find? loc = (t.withRoom cwd p).find? loc) ∧
      (t.withRoom cwd p = t ∨ [dot, dot] ∉ p.pieces ∨ (∀ target, t.find? place ≠ some (.link target)) →
        t'.read cwd p = .ok text.toUTF8 ∧ on cwd (isUpToDate p text) t' = (.ok true, t') ∧
          ∀ mark', on cwd (writeIfChanged mark' p text) t' = (.ok false, t'))) ∧
    ∀ e, result = .error e → (∃ cause, e = .writeArtifact p cause) ∧
      (t' = t ∨ t' = t.withRoom cwd p) ∧
      (t.withRoom cwd p = t ∨ [dot, dot] ∉ p.pieces →
        ∀ bytes, t'.read cwd p = .ok bytes ↔ t.read cwd p = .ok bytes) := by
  have hroom := (Tree.hasMade_withRoom t cwd p).grows
  obtain ⟨updated, hupdate, rfl⟩ := exists_update_of_on h
  rcases updated with cause | changed
  · refine ⟨hroom, ⟨nofun, fun hread => ?_⟩, nofun, nofun, ?_⟩
    · cases (on_writeIfChanged_of_read hread mark).symm.trans h
    · intro e he
      have htree := eq_of_update_error hunused hupdate
      refine ⟨⟨cause, (Except.error.inj he).symm⟩, htree, fun hway bytes => ?_⟩
      rcases htree with rfl | rfl
      · rfl
      · rcases hway with hsame | hdots
        · rw [hsame]
        · exact read_withRoom_iff ht hdots
  cases changed with
  | false =>
    rcases update_cases hupdate with ⟨-, rfl, hread⟩ | ⟨hchanged, -⟩
    · exact ⟨hroom, ⟨fun _ => hread, fun _ => rfl⟩, fun _ => rfl, nofun, nofun⟩
    · cases hchanged
  | true =>
    refine ⟨hroom, ⟨nofun, fun hread => ?_⟩, nofun, fun _ => ?_, nofun⟩
    · cases (on_writeIfChanged_of_read hread mark).symm.trans h
    · obtain ⟨place, hplace, -, hdir, hput⟩ := exists_put_of_update hunused hupdate
      refine ⟨place, hplace, ?_, fun loc hloc => ?_, fun hway => ?_⟩
      · rw [hput, Tree.find?_put_self (Tree.ne_nil_of_ne_directory hdir)]
      · rw [hput, Tree.find?_put_of_ne hloc]
      · have hread := read_of_update ht hunused hupdate hplace hway
        exact ⟨hread, on_isUpToDate_of_read hread, on_writeIfChanged_of_read hread⟩

section Sample

/-- A directory with a file in it, and a link to the file. -/
def linkedFile : Tree :=
  ⟨[(["d"], .directory), (["d", "f"], .file "old".toUTF8), (["l"], .link ⟨"d/f"⟩)], []⟩

theorem writeIfChanged_replaces_link :
    linkedFile.IsGrounded ∧ linkedFile.IsUnused ⟨"/"⟩ ⟨"/l"⟩ (Path.withExtension ⟨"/l"⟩ "tmp-1-2") ∧
      ∃ t', on ⟨"/"⟩ (writeIfChanged "tmp-1-2" ⟨"/l"⟩ "new") linkedFile = (.ok true, t') ∧
        t'.read ⟨"/"⟩ ⟨"/l"⟩ = .ok "new".toUTF8 ∧ t'.find? ["d", "f"] = some (.file "old".toUTF8) := by
  have hgrounded : linkedFile.IsGrounded := by decide +kernel
  have hunused : linkedFile.IsUnused ⟨"/"⟩ ⟨"/l"⟩ (Path.withExtension ⟨"/l"⟩ "tmp-1-2") := by
    intro loc slash h
    have hbeside : (linkedFile.withRoom ⟨"/"⟩ ⟨"/l"⟩).resolve ⟨"/"⟩ (fun _ => false)
        (Path.withExtension ⟨"/l"⟩ "tmp-1-2") = .ok (.named ["l.tmp-1-2"] false) := by decide +kernel
    obtain ⟨rfl, -⟩ := Place.named.inj (Except.ok.inj (h.symm.trans hbeside))
    decide +kernel
  have hrun : on ⟨"/"⟩ (writeIfChanged "tmp-1-2" ⟨"/l"⟩ "new") linkedFile = (.ok true, _) :=
    Prod.ext (by decide +kernel) rfl
  obtain ⟨-, -, -, hdone, -⟩ := writeIfChanged_replaces hgrounded hunused hrun
  obtain ⟨place, hplace, -, helsewhere, hread⟩ := hdone rfl
  have hend : (linkedFile.withRoom ⟨"/"⟩ ⟨"/l"⟩).resolve ⟨"/"⟩ (fun _ => false) ⟨"/l"⟩
      = .ok (.named ["l"] false) := by decide +kernel
  obtain ⟨rfl, -⟩ := Place.named.inj (Except.ok.inj (hplace.symm.trans hend))
  refine ⟨hgrounded, hunused, _, hrun, (hread (.inr (.inl (by decide +kernel)))).1, ?_⟩
  rw [helsewhere _ (by decide)]
  decide +kernel

/-- A directory and a link to it. -/
def linkedDirectory : Tree :=
  ⟨[(["d"], .directory), (["l"], .link ⟨"d"⟩)], []⟩

/-- A file that can have no other file beside it, since two dots are left without the extension. -/
def dotNamed : Tree :=
  ⟨[(["..ts"], .file "old".toUTF8)], []⟩

/-- The directory that is made for a path with two dots lets the path through: it may go through the link at
its own end, which is lost, or end at an old file. -/
theorem writeIfChanged_opens_way :
    (∃ t', on ⟨"/"⟩ (writeIfChanged "tmp-1-2" ⟨"/x/../l/../l"⟩ "new") linkedDirectory = (.ok true, t') ∧
      t'.read ⟨"/"⟩ ⟨"/x/../l/../l"⟩ = .error .notADirectory ∧
      (on ⟨"/"⟩ (isUpToDate ⟨"/x/../l/../l"⟩ "new") t').1
        = .error (.writeArtifact ⟨"/x/../l/../l"⟩ .notADirectory)) ∧
    ∃ t', on ⟨"/"⟩ (writeIfChanged "tmp-1-2" ⟨"/x/../..ts"⟩ "new") dotNamed
        = (.error (.writeArtifact ⟨"/x/../..ts"⟩ .isADirectory), t') ∧
      dotNamed.read ⟨"/"⟩ ⟨"/x/../..ts"⟩ = .error .notFound ∧
      t'.read ⟨"/"⟩ ⟨"/x/../..ts"⟩ = .ok "old".toUTF8 := by
  have hrun : ∀ {t : Tree} {a : Action Bool} {r : Except Error Bool}, (on ⟨"/"⟩ a t).1 = r →
      on ⟨"/"⟩ a t = (r, (on ⟨"/"⟩ a t).2) := fun h => Prod.ext h rfl
  constructor
  · refine ⟨_, hrun ?_, ?_, ?_⟩ <;> decide +kernel
  · refine ⟨_, hrun ?_, ?_, ?_⟩ <;> decide +kernel

end Sample

end Action

end TextCatalog
