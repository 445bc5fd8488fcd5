import Mathlib.Data.List.Infix
import TextCatalog.Proofs.Disk.Beside
import TextCatalog.Proofs.Disk.Faulty

/-!
# Attempts at an update

A file that is to be brought up to date is given its text or is missed, and it is missed as a whole: the
file beside, by which the text was to take its place, has been removed again. What an attempt can do is
said once, for every way in which operations fail, and then only trees are compared.
-/

namespace TextCatalog

open RawText (slash dot)

namespace Path

/-- First steps of the path lead to the location, and others come behind them. -/
def Passes (p : Path) (loc : List RawText) : Prop :=
  ∃ steps, steps <+: p.steps.dropLast ∧ steps.foldl move [] = loc

instance (p : Path) (loc : List RawText) : Decidable (p.Passes loc) :=
  decidable_of_iff (loc ∈ p.steps.dropLast.inits.map fun steps => steps.foldl move [])
    (by simp only [Passes, List.mem_map, List.mem_inits])

end Path

namespace Disk

section Attempt

variable {cwd : Path} {mark : String} {p : Path} {text : String} {t t' middle room : Tree}

/-- Room has been made, and the file beside has been written. -/
def WritesBeside (cwd : Path) (mark : String) (p : Path) (text : String) (t middle : Tree) : Prop :=
  ∃ room, Tree.RoomFor cwd p t room ∧
    room.write cwd (p.withExtension mark) text.toUTF8 = .ok middle

/-- The text has been found at the end of the path or has taken its place there. -/
inductive Brings (cwd : Path) (mark : String) (p : Path) (text : String) (t : Tree) : Tree → Prop
  | held (hread : t.read cwd p = .ok text.toUTF8) : Brings cwd mark p text t t
  | moved {middle t' : Tree} (hbeside : WritesBeside cwd mark p text t middle)
      (hrename : middle.rename cwd (p.withExtension mark) p = .ok t') : Brings cwd mark p text t t'

/-- Room may have been made, and the file beside was removed if it had been written. -/
inductive Misses (cwd : Path) (mark : String) (p : Path) (text : String) (t : Tree) : Tree → Prop
  | before {room : Tree} (hroom : Tree.RoomFor cwd p t room) : Misses cwd mark p text t room
  | behind {middle : Tree} (hbeside : WritesBeside cwd mark p text t middle) :
      Misses cwd mark p text t (middle.perform cwd (.remove (p.withExtension mark))).2

/-- A tree that is passed on the way or reached. -/
inductive Tries (cwd : Path) (mark : String) (p : Path) (text : String) (t t' : Tree) : Prop
  | misses (h : Misses cwd mark p text t t')
  | writes (h : WritesBeside cwd mark p text t t')
  | brings (h : Brings cwd mark p text t t')

/-- The tree that goes with a result. -/
def Results (cwd : Path) (mark : String) (p : Path) (text : String) (t : Tree) {α : Type} :
    Except Cause α → Tree → Prop
  | .ok _ => Brings cwd mark p text t
  | .error _ => Misses cwd mark p text t

theorem ensures_holds (cwd p : Path) (text : String) (t : Tree) :
    (holds p text).Ensures cwd t (· = t) fun result t' =>
      t' = t ∧ (result = .ok true → t.read cwd p = .ok text.toUTF8) := by
  refine .step rfl rfl (fun cause => ?_) ?_
  · cases cause <;> exact .done ⟨rfl, nofun⟩
  · have hread := @holds_eq_true_iff t cwd p text
    rw [holds, Script.run_step] at hread
    generalize (t.perform cwd (.read p)).1 = answer at hread ⊢
    rcases answer with cause | bytes
    · cases cause <;> exact .done ⟨rfl, nofun⟩
    · exact .done ⟨rfl, hread.1⟩

theorem ensures_makeRoom (cwd : Path) (hp : p.isAbsolute = true) (t : Tree) :
    (makeRoom p).Ensures cwd t (Tree.RoomFor cwd p t) fun _ => Tree.RoomFor cwd p t :=
  (asks_makeRoom hp).ensures (fun _ => .refl) .trans (fun op hop _ => .single ⟨op, hop, rfl⟩) t

/-- The last steps of an attempt: the file beside is moved, or else it is removed. -/
theorem ensures_move {α : Type} {a : α}
    {next : Except Cause (Op.rename (p.withExtension mark) p).Answer → Script (Except Cause α)}
    (hok : next (.ok ()) = .done (.ok a))
    (herror : ∀ cause, next (.error cause)
      = .step (.remove (p.withExtension mark)) fun _ => .done (.error cause))
    (hbeside : WritesBeside cwd mark p text t middle) :
    (Script.step (.rename (p.withExtension mark) p) next).Ensures cwd middle
      (Tries cwd mark p text t) (Results cwd mark p text t) := by
  have hremove : ∀ cause, (next (.error cause)).Ensures cwd middle (Tries cwd mark p text t)
      (Results cwd mark p text t) := by
    intro cause
    rw [herror]
    exact .remove (.misses (.behind hbeside)) (.done (.behind hbeside))
  cases hrename : middle.rename cwd (p.withExtension mark) p with
  | error cause =>
    have hop : middle.perform cwd (.rename (p.withExtension mark) p) = (.error cause, middle) :=
      congrArg middle.changed hrename
    refine .step (.writes hbeside) ?_ hremove ?_ <;> rw [hop]
    · exact .writes hbeside
    · exact hremove cause
  | ok t' =>
    have hop : middle.perform cwd (.rename (p.withExtension mark) p) = (.ok (), t') :=
      congrArg middle.changed hrename
    refine .step (.writes hbeside) ?_ hremove ?_ <;> rw [hop]
    · exact .brings (.moved hbeside hrename)
    · rw [hok]
      exact .done (.moved hbeside hrename)

theorem ensures_replace (mark : String) (text : String) (hroom : Tree.RoomFor cwd p t room) :
    (replace mark p text).Ensures cwd room (Tries cwd mark p text t) (Results cwd mark p text t) := by
  have hmissed : Misses cwd mark p text t room := .before hroom
  cases hwrite : room.write cwd (p.withExtension mark) text.toUTF8 with
  | error cause =>
    have hop : room.perform cwd (.write (p.withExtension mark) text.toUTF8) = (.error cause, room) :=
      congrArg room.changed hwrite
    refine .step (.misses hmissed) ?_ (fun _ => .done hmissed) ?_ <;> rw [hop]
    · exact .misses hmissed
    · exact .done hmissed
  | ok middle =>
    have hbeside : WritesBeside cwd mark p text t middle := ⟨room, hroom, hwrite⟩
    have hop : room.perform cwd (.write (p.withExtension mark) text.toUTF8) = (.ok (), middle) :=
      congrArg room.changed hwrite
    refine .step (.misses hmissed) ?_ (fun _ => .done hmissed) ?_ <;> rw [hop]
    · exact .writes hbeside
    · exact ensures_move rfl (fun _ => rfl) hbeside

/-- An update brings the text or misses it, as its result says. -/
theorem ensures_update (mark : String) (hp : p.isAbsolute = true) (text : String) (t : Tree) :
    (update mark p text).Ensures cwd t (Tries cwd mark p text t) (Results cwd mark p text t) := by
  have hsame : Misses cwd mark p text t t := .before .refl
  have hroom : ∀ room, Tree.RoomFor cwd p t room → Tries cwd mark p text t room :=
    fun room h => .misses (.before h)
  have hheld : ∀ t', t' = t → Tries cwd mark p text t t' := by
    rintro _ rfl
    exact .misses hsame
  refine ((ensures_holds cwd p text t).mono hheld fun _ _ h => h).bind fun held t' h => ?_
  obtain ⟨rfl, hread⟩ := h
  rcases held with cause | isHeld
  · exact .done hsame
  cases isHeld with
  | true => exact .done (.held (hread rfl))
  | false =>
    refine ((ensures_makeRoom cwd hp t').mono hroom fun _ _ h => h).bind fun made room hmade => ?_
    cases made with
    | error cause => exact .done (.before hmade)
    | ok _ =>
      refine (ensures_replace mark text hmade).bind fun replaced t'' h => ?_
      cases replaced <;> exact .done h

end Attempt

section Linkless

open TextCatalog.Disk.Tree

variable {cwd : Path} {mark : String} {p : Path} {text : String} {t t' t'' middle room : Tree}
  {places places' ways ways' : Location → Prop}

/-- From `t` to `t'` only the places have changed, and directories have been made on the ways only. -/
structure Tree.Alters (places ways : Location → Prop) (t t' : Tree) : Prop
    extends t.Changes places t' where
  same : ∀ loc, ¬ places loc → ¬ ways loc → t'.find? loc = t.find? loc

namespace Tree.Alters

theorem refl (places ways : Location → Prop) (ht : t.Proper) : t.Alters places ways t :=
  ⟨.refl places ht, fun _ _ _ => rfl⟩

theorem trans (h : t.Alters places ways t') (h' : t'.Alters places ways t'') :
    t.Alters places ways t'' :=
  ⟨h.toChanges.trans h'.toChanges, fun loc hplace hway =>
    (h'.same loc hplace hway).trans (h.same loc hplace hway)⟩

theorem mono (h : t.Alters places ways t') (hplaces : ∀ loc, places loc → places' loc)
    (hways : ∀ loc, ways loc → ways' loc) : t.Alters places' ways' t' :=
  ⟨h.toChanges.mono hplaces, fun loc hplace hway =>
    h.same loc (fun hmem => hplace (hplaces loc hmem)) fun hmem => hway (hways loc hmem)⟩

end Tree.Alters

theorem Tree.RoomFor.alters (h : RoomFor cwd p t room) (ht : t.Proper) :
    t.Alters (fun _ => False) p.Passes room := by
  induction h with
  | refl => exact .refl _ _ ht
  | @tail before after _ hop ih =>
    obtain ⟨op, hop, rfl⟩ := hop
    refine ih.trans ⟨hop.makesRoom.changes ih.proper, fun loc _ hway => ?_⟩
    obtain ⟨dir, hdir, hsteps, rfl | rfl⟩ := hop
    · rfl
    · rw [perform]
      cases hadd : before.add cwd dir .directory with
      | error cause => rfl
      | ok made =>
        obtain ⟨slash, -, -, -, rfl⟩ := of_add_eq_ok ih.proper hdir hadd
        have hne : loc ≠ dir.location := by
          rintro rfl
          exact hway ⟨dir.steps, hsteps, rfl⟩
        exact find?_put_of_ne hne

theorem find?_erase_put {loc other : Location} {node : Node} (hnone : t.find? loc = none) :
    ((t.put loc node).erase loc).find? other = t.find? other := by
  by_cases hother : other = loc
  · rw [hother, find?_erase_self (ne_nil_of_find?_eq_none hnone), hnone]
  · rw [find?_erase_of_ne hother, find?_put_of_ne hother]

theorem remove_of_resolve {loc : Location} {bytes : ByteArray}
    (hresolve : t.resolve cwd (fun _ => false) p = .ok (.named loc false)) (hshort : loc.IsShort)
    (hfile : t.find? loc = some (.file bytes)) :
    t.perform cwd (.remove p) = (.ok (), t.erase loc) := by
  have hremove : t.remove cwd p = .ok (t.erase loc) := by
    rw [remove, hresolve]
    simp only [look_of_isShort hshort, hfile]
    rfl
  exact congrArg t.changed hremove

theorem WritesBeside.exists_room (ht : t.Proper) (hp : p.isAbsolute = true)
    (hfree : IsFree t p (p.withExtension mark)) (h : WritesBeside cwd mark p text t middle) :
    ∃ room, t.Alters (fun _ => False) p.Passes room ∧
      room.Reaches (p.withExtension mark) (.named (p.withExtension mark).location false) ∧
      Location.IsShort (p.withExtension mark).location ∧
      room.find? (p.withExtension mark).location = none ∧
      room.write cwd (p.withExtension mark) text.toUTF8 = .ok middle ∧
      middle = room.put (p.withExtension mark).location (.file text.toUTF8) := by
  obtain ⟨room, hroom, hwrite⟩ := h
  have halters := hroom.alters ht
  obtain ⟨hreach, hshort, hnodir, hput⟩ :=
    of_write_eq_ok halters.proper (Path.isAbsolute_withExtension mark hp) hwrite
  refine ⟨room, halters, hreach, hshort, ?_, hwrite, hput⟩
  cases hfind : room.find? (p.withExtension mark).location with
  | none => rfl
  | some node =>
    cases node with
    | file bytes => exact absurd ((halters.find?_file_iff id).1 hfind) (hfree.no_file bytes)
    | directory => exact absurd hfind hnodir
    | link target => exact absurd hfind halters.proper.ne_link

theorem WritesBeside.alters (ht : t.Proper) (hp : p.isAbsolute = true)
    (hfree : IsFree t p (p.withExtension mark)) (h : WritesBeside cwd mark p text t middle) :
    t.Alters (· = (p.withExtension mark).location) p.Passes middle := by
  obtain ⟨room, halters, hreach, -, hnone, -, rfl⟩ := h.exists_room ht hp hfree
  have hput : room.Changes (· = (p.withExtension mark).location)
      (room.put (p.withExtension mark).location (.file text.toUTF8)) :=
    hreach.put halters.proper (by simp [Node.kind]) (by simp [hnone]) (by simp)
  refine (halters.mono (fun _ => False.elim) fun _ => id).trans ⟨hput, fun loc hloc _ => ?_⟩
  exact find?_put_of_ne hloc

theorem changes_erase_put {loc : Location} {node : Node} (hnone : t.find? loc = none)
    (hnode : node ≠ .directory) (hput : (t.put loc node).Proper) :
    t.Changes (fun _ => False) ((t.put loc node).erase loc) := by
  have hback : ∀ other, ((t.put loc node).erase loc).find? other = t.find? other :=
    fun _ => find?_erase_put hnone
  have hfile : (t.put loc node).find? loc ≠ some .directory := by
    rw [find?_put_self (ne_nil_of_find?_eq_none hnone), ne_eq, Option.some.injEq]
    exact hnode
  refine ⟨hput.erase hfile, fun other hdir => (hback other).trans hdir, fun other _ => .inl (hback other), ?_⟩
  intro other hdir hopened
  have hclosed : ((t.put loc node).erase loc).closed ⊆ t.closed := by
    rw [erase, Tree.put, if_neg hnode]
    exact List.Subset.refl _
  exact (hopened ((hback other).symm.trans hdir)).of_subset hclosed

theorem Misses.alters (ht : t.Proper) (hp : p.isAbsolute = true)
    (hfree : IsFree t p (p.withExtension mark)) (h : Misses cwd mark p text t t') :
    t.Alters (fun _ => False) p.Passes t' := by
  cases h with
  | before hroom => exact hroom.alters ht
  | @behind middle hbeside =>
    have hmiddle := (hbeside.alters ht hp hfree).proper
    have habs := Path.isAbsolute_withExtension mark hp
    obtain ⟨room, halters, hreach, hshort, hnone, -, hput⟩ := hbeside.exists_room ht hp hfree
    generalize p.withExtension mark = beside at hput hreach hshort hnone habs ⊢
    subst hput
    have hreach' : (room.put beside.location (.file text.toUTF8)).Reaches beside
        (.named beside.location false) := by
      refine hreach.mono fun loc hdir => ?_
      rw [find?_put_of_ne, hdir]
      intro heq
      cases (heq ▸ hnone).symm.trans hdir
    rw [remove_of_resolve (hreach'.resolve hmiddle habs hshort) hshort
      (find?_put_self (ne_nil_of_find?_eq_none hnone))]
    exact halters.trans ⟨changes_erase_put hnone (by simp) hmiddle, fun _ _ _ => find?_erase_put hnone⟩

theorem Brings.alters (ht : t.Proper) (hp : p.isAbsolute = true)
    (hfree : IsFree t p (p.withExtension mark)) (h : Brings cwd mark p text t t') :
    t.Alters (· = p.location) p.Passes t' ∧ t'.read cwd p = .ok text.toUTF8 := by
  cases h with
  | held hread => exact ⟨.refl _ _ ht, hread⟩
  | @moved middle _ hbeside hrename =>
    have hmiddle := (hbeside.alters ht hp hfree).proper
    have habs := Path.isAbsolute_withExtension mark hp
    obtain ⟨room, halters, -, -, hnone, hwrite, hput⟩ := hbeside.exists_room ht hp hfree
    obtain ⟨hreplaced, hread⟩ := isReplaced_of_rename halters.proper hp habs hwrite hrename
    have hfree' : IsFree room p (p.withExtension mark) := ⟨hfree.ne_location, by simp [hnone]⟩
    have hchanges := hreplaced.changes_of_isFree halters.proper hfree'
    obtain ⟨-, -, -, node, hnode, -, rfl⟩ := of_rename_eq_ok hmiddle habs hp hrename
    subst hput
    obtain rfl : .file text.toUTF8 = node := by
      rw [find?_put_self (ne_nil_of_find?_eq_none hnone)] at hnode
      exact Option.some.inj hnode
    refine ⟨(halters.mono (fun _ => False.elim) fun _ => id).trans ⟨hchanges, ?_⟩, hread⟩
    exact fun loc hloc _ => find?_moved hnone hloc

end Linkless

section Linked

open TextCatalog.Disk.Tree

variable {cwd : Path} {mark : String} {p : Path} {text : String} {t t' middle : Tree}

theorem WritesBeside.exists_linked (hp : p.isAbsolute = true) (hmark : RawText.slash ∉ Text.bytes mark)
    (havoids : AvoidsMark mark p) (hclear : t.IsClear mark)
    (h : WritesBeside cwd mark p text t middle) :
    ∃ room dir stem, Fills (fun _ => False) t room ∧ room.IsClear mark ∧
      room.resolve cwd (fun slash => !slash) (p.withExtension mark)
        = .ok (.named (dir ++ [stem ++ dot :: mark]) false) ∧
      Location.IsShort (dir ++ [stem ++ dot :: mark]) ∧
      middle = room.put (dir ++ [stem ++ dot :: mark]) (.file text.toUTF8) := by
  obtain ⟨room, hroom, hwrite⟩ := h
  obtain ⟨hfills, hclear'⟩ := hroom.fills havoids hclear
  obtain ⟨dir, stem, hbeside⟩ := exists_beside_of_write hp hmark hclear' hwrite
  exact ⟨room, dir, stem, hfills, hclear', hbeside⟩

theorem Misses.fills (hp : p.isAbsolute = true) (hmark : RawText.slash ∉ Text.bytes mark)
    (havoids : AvoidsMark mark p) (hclear : t.IsClear mark) (h : Misses cwd mark p text t t') :
    Fills (fun _ => False) t t' ∧ t'.IsClear mark := by
  cases h with
  | before hroom => exact hroom.fills havoids hclear
  | behind hbeside =>
    obtain ⟨room, dir, stem, hfills, hclear', hresolve, hshort, rfl⟩ :=
      hbeside.exists_linked hp hmark havoids hclear
    have hnone := hclear' dir stem
    obtain ⟨last, hlast, hends⟩ := endsBy_of_resolve (Path.isAbsolute_withExtension mark hp) hresolve
    obtain ⟨name, rfl⟩ := Path.exists_stem_of_lastPiece? hmark hlast hends.isName
    have hlink : ∀ top target, room.find? (top ++ [name ++ dot :: mark]) ≠ some (.link target) := by
      intro top target
      simp [hclear' top name]
    rw [remove_of_resolve (resolve_put (Path.isAbsolute_withExtension mark hp) hnone hlink hlast hresolve)
      hshort (find?_put_self (by simp))]
    refine ⟨fun loc => ?_, fun top other => (find?_erase_put hnone).trans (hclear' top other)⟩
    dsimp only
    rw [find?_erase_put hnone]
    exact hfills loc

theorem Brings.isWritten (hp : p.isAbsolute = true) (hmark : RawText.slash ∉ Text.bytes mark)
    (havoids : AvoidsMark mark p) (hclear : t.IsClear mark) (h : Brings cwd mark p text t t') :
    t'.IsClear mark ∧ (t' = t ∧ t.read cwd p = .ok text.toUTF8 ∨
      ∃ place middle, IsWritten t cwd p text.toUTF8 t' place middle) := by
  cases h with
  | held hread => exact ⟨hclear, .inl ⟨rfl, hread⟩⟩
  | @moved middle _ hbeside hrename =>
    obtain ⟨room, hroom, hwrite⟩ := hbeside
    obtain ⟨hfills, hclear'⟩ := hroom.fills havoids hclear
    obtain ⟨hclear'', place, hwritten⟩ :=
      exists_isWritten_of_rename hp hmark havoids hclear' hwrite hrename
    exact ⟨hclear'', .inr ⟨place, middle, hwritten.of_fills hfills⟩⟩

/-- At every location there is what was there, or a directory where nothing was, or a file with one of the
new texts from its first character to its last. -/
def Tree.OldOrNew (new : String → Prop) (t t' : Tree) : Prop :=
  ∀ loc, t'.find? loc = t.find? loc ∨ t.find? loc = none ∧ t'.find? loc = some .directory ∨
    ∃ text, new text ∧ t'.find? loc = some (.file text.toUTF8)

namespace Tree.OldOrNew

variable {t'' : Tree} {new new' : String → Prop}

theorem refl (new : String → Prop) (t : Tree) : t.OldOrNew new t :=
  fun _ => .inl rfl

theorem mono (h : t.OldOrNew new t') (hnew : ∀ text, new text → new' text) : t.OldOrNew new' t' :=
  fun loc => (h loc).imp_right (Or.imp_right fun ⟨text, htext, hfile⟩ => ⟨text, hnew text htext, hfile⟩)

theorem trans (h : t.OldOrNew new t') (h' : t'.OldOrNew new t'') : t.OldOrNew new t'' := by
  intro loc
  rcases h' loc with hsame | ⟨hnone, hdir⟩ | hnew
  · rw [hsame]
    exact h loc
  · rcases h loc with hsame | ⟨-, hdir'⟩ | ⟨text, -, hfile⟩
    · exact .inr (.inl ⟨hsame ▸ hnone, hdir⟩)
    · simp [hdir'] at hnone
    · simp [hfile] at hnone
  · exact .inr (.inr hnew)

theorem of_fills (h : Fills (fun _ => False) t t') : t.OldOrNew new t' :=
  fun loc => (h loc).elim (fun hfile => hfile.1.elim) (Or.imp_right .inl)

end Tree.OldOrNew

theorem Brings.oldOrNew (hp : p.isAbsolute = true) (hmark : RawText.slash ∉ Text.bytes mark)
    (havoids : AvoidsMark mark p) (hclear : t.IsClear mark) (h : Brings cwd mark p text t t') :
    t.OldOrNew (· = text) t' := by
  rcases (h.isWritten hp hmark havoids hclear).2 with ⟨rfl, -⟩ | ⟨place, middle, hwritten⟩
  · exact .refl _ _
  · intro loc
    rcases hwritten.fills loc with ⟨rfl, -⟩ | hsame | hdir
    · exact .inr (.inr ⟨text, rfl, hwritten.file⟩)
    · exact .inl hsame
    · exact .inr (.inl hdir)

theorem Tries.oldOrNew (hp : p.isAbsolute = true) (hmark : RawText.slash ∉ Text.bytes mark)
    (havoids : AvoidsMark mark p) (hclear : t.IsClear mark) (h : Tries cwd mark p text t t') :
    t.OldOrNew (· = text) t' := by
  cases h with
  | misses h => exact .of_fills (h.fills hp hmark havoids hclear).1
  | brings h => exact h.oldOrNew hp hmark havoids hclear
  | writes h =>
    obtain ⟨room, dir, stem, hfills, -, -, -, rfl⟩ := h.exists_linked hp hmark havoids hclear
    refine (OldOrNew.of_fills hfills).trans fun loc => ?_
    by_cases hloc : loc = dir ++ [stem ++ dot :: mark]
    · rw [hloc]
      exact .inr (.inr ⟨text, rfl, find?_put_self (by simp)⟩)
    · exact .inl (find?_put_of_ne hloc)

end Linked

end Disk

end TextCatalog
