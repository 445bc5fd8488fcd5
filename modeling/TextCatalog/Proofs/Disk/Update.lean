import TextCatalog.Proofs.Disk.Change

/-!
# Files after an update and after an edit

A file that has been brought up to date holds its text, and one that has been edited holds what it was
given or is gone. Nothing else is another file afterwards: the file beside, by which a text takes its
place, comes and goes.
-/

namespace TextCatalog.Disk

open TextCatalog.Disk.Tree

variable {t t' : Tree} {cwd p : Path} {mark text : String} {bytes : ByteArray}

section Update

theorem beq_bytes_iff {as bs : ByteArray} : (as == bs) = true ↔ as = bs := by
  rw [ByteArray.ext_iff]
  exact @beq_iff_eq (Array UInt8) _ _ _ _

theorem run_holds (p : Path) (text : String) :
    ((holds p text).run (perform cwd) t).2 = t := by
  rw [holds, Script.run_step]
  dsimp only
  split <;> rfl

theorem holds_eq_true_iff :
    ((holds p text).run (perform cwd) t).1 = .ok true ↔ t.read cwd p = .ok text.toUTF8 := by
  rw [holds, Script.run_step]
  dsimp only [perform]
  cases t.read cwd p with
  | ok bytes =>
    change (Except.ok (bytes == text.toUTF8) : Except Cause Bool) = .ok true ↔ _
    rw [Except.ok.injEq, Except.ok.injEq, beq_bytes_iff]
  | error cause => cases cause <;> simp [Script.run]

theorem update_of_read (h : t.read cwd p = .ok text.toUTF8) :
    (update mark p text).run (perform cwd) t = (.ok false, t) := by
  change ((holds p text).bind _).run (perform cwd) t = _
  rw [Script.run_bind, run_holds, holds_eq_true_iff.2 h]
  rfl

/-- Either the file holds the text, or room is made for it and it is replaced. -/
theorem update_cases {changed : Bool}
    (h : (update mark p text).run (perform cwd) t = (.ok changed, t')) :
    changed = false ∧ t' = t ∧ t.read cwd p = .ok text.toUTF8 ∨
      changed = true ∧ t.read cwd p ≠ .ok text.toUTF8 ∧ (replace mark p text).run (perform cwd)
        ((makeRoom p).run (perform cwd) t).2 = (.ok (), t') := by
  change ((holds p text).bind _).run (perform cwd) t = _ at h
  rw [Script.run_bind, run_holds] at h
  cases hheld : ((holds p text).run (perform cwd) t).1 with
  | error cause =>
    rw [hheld] at h
    cases h
  | ok held =>
    rw [hheld] at h
    cases held with
    | true =>
      obtain ⟨hchanged, rfl⟩ := Prod.mk.inj h
      exact .inl ⟨(Except.ok.inj hchanged).symm, rfl, holds_eq_true_iff.1 hheld⟩
    | false =>
      have hne : t.read cwd p ≠ .ok text.toUTF8 := by
        intro hread
        rw [holds_eq_true_iff.2 hread] at hheld
        cases hheld
      change ((makeRoom p).bind _).run (perform cwd) t = _ at h
      rw [Script.run_bind] at h
      generalize (makeRoom p).run (perform cwd) t = made at h ⊢
      obtain ⟨result, t₁⟩ := made
      cases result with
      | error cause => cases h
      | ok _ =>
        change ((replace mark p text).bind _).run (perform cwd) t₁ = _ at h
        rw [Script.run_bind] at h
        generalize (replace mark p text).run (perform cwd) t₁ = replaced at h ⊢
        obtain ⟨result, t₂⟩ := replaced
        cases result with
        | error cause => cases h
        | ok _ =>
          obtain ⟨hchanged, rfl⟩ := Prod.mk.inj h
          exact .inr ⟨(Except.ok.inj hchanged).symm, hne, rfl⟩

/-- The file at `p` has been replaced by way of a file beside it, which is gone, if it was not the file
itself. -/
structure IsReplaced (t : Tree) (p beside : Path) (t' : Tree) : Prop where
  changes : t.Changes (fun loc => loc = p.location ∨ loc = beside.location) t'
  gone : beside.location ≠ p.location → t'.find? beside.location = none

/-- The name of the file beside is free, so that nothing is lost when it is written. -/
structure IsFree (t : Tree) (p beside : Path) : Prop where
  ne_location : beside.location ≠ p.location
  no_file : ∀ bytes, t.find? beside.location ≠ some (.file bytes)

/-- Where the file beside stood, under a free name, there is nothing again. -/
theorem IsReplaced.changes_of_isFree {beside : Path} (h : IsReplaced t p beside t') (ht : t.Proper)
    (hfree : IsFree t p beside) : t.Changes (· = p.location) t' := by
  have hgone := h.gone hfree.ne_location
  refine ⟨h.changes.proper, h.changes.directory, fun loc hloc => ?_, h.changes.opens⟩
  by_cases hbeside : loc = beside.location
  · subst hbeside
    -- A file would be lost, and a directory would still be there.
    cases hfind : t.find? beside.location with
    | none => exact .inl hgone
    | some node =>
      cases node with
      | file bytes => exact absurd hfind (hfree.no_file bytes)
      | directory =>
        rw [h.changes.directory _ hfind] at hgone
        cases hgone
      | link target => exact absurd hfind ht.ne_link
  · exact h.changes.elsewhere loc (not_or.2 ⟨hloc, hbeside⟩)

theorem isReplaced_of_rename {beside : Path} (ht : t.Proper) (hp : p.isAbsolute = true)
    (hbeside : beside.isAbsolute = true) {t₁ : Tree} (hwrite : t.write cwd beside bytes = .ok t₁)
    (hrename : t₁.rename cwd beside p = .ok t') :
    IsReplaced t p beside t' ∧ t'.read cwd p = .ok bytes := by
  obtain ⟨hreach, -, hnodir, rfl⟩ := of_write_eq_ok ht hbeside hwrite
  have hne : beside.location ≠ [] := by
    intro hnil
    simp [hnil] at hnodir
  have hput : t.Changes (· = beside.location) (t.put beside.location (.file bytes)) :=
    hreach.put ht (by simp [Node.kind]) hnodir (by simp)
  obtain ⟨hreach', hshort, hnodir', node, hnode, -, rfl⟩ :=
    of_rename_eq_ok hput.proper hbeside hp hrename
  obtain rfl : Node.file bytes = node := by
    rw [find?_put_self hne] at hnode
    exact Option.some.inj hnode
  have herase := Changes.erase hput.proper
    (show (t.put beside.location (.file bytes)).find? beside.location ≠ some .directory by
      simp [find?_put_self hne])
  have hnodir'' : ((t.put beside.location (.file bytes)).erase beside.location).find? p.location
      ≠ some .directory := by
    by_cases heq : p.location = beside.location
    · simp [heq, find?_erase_self hne]
    · rwa [find?_erase_of_ne heq]
  have hplace : Changes (· = p.location) _ (((t.put beside.location (.file bytes)).erase
      beside.location).put p.location (.file bytes)) :=
    (hreach'.mono herase.directory).put herase.proper (by simp [Node.kind]) hnodir'' (by simp)
  have hloc : p.location ≠ [] := by
    intro hnil
    simp [hnil] at hnodir'
  refine ⟨⟨?_, fun hother => ?_⟩, ?_⟩
  · exact ((hput.trans herase).mono fun _ => .inr).trans (hplace.mono fun _ => .inl)
  · rw [find?_put_of_ne hother, find?_erase_self hne]
  · exact read_put hp hplace.proper (fun loc hdir => hplace.directory loc (herase.directory loc hdir))
      hreach' hshort (find?_put_self hloc)

theorem exists_of_replace (h : (replace mark p text).run (perform cwd) t = (.ok (), t')) :
    ∃ middle, t.write cwd (p.withExtension mark) text.toUTF8 = .ok middle ∧
      middle.rename cwd (p.withExtension mark) p = .ok t' := by
  rw [replace, Script.run_step, perform] at h
  cases hwrite : t.write cwd (p.withExtension mark) text.toUTF8 with
  | error cause =>
    rw [hwrite] at h
    cases h
  | ok middle =>
    rw [hwrite] at h
    dsimp only [changed] at h
    rw [Script.run_step, perform] at h
    cases hrename : middle.rename cwd (p.withExtension mark) p with
    | error cause =>
      rw [hrename] at h
      cases h
    | ok after =>
      rw [hrename] at h
      obtain ⟨-, rfl⟩ := Prod.mk.inj h
      exact ⟨middle, rfl, hrename⟩

theorem of_replace_eq_ok (ht : t.Proper) (hp : p.isAbsolute = true)
    (h : (replace mark p text).run (perform cwd) t = (.ok (), t')) :
    IsReplaced t p (p.withExtension mark) t' ∧ t'.read cwd p = .ok text.toUTF8 := by
  obtain ⟨middle, hwrite, hrename⟩ := exists_of_replace h
  exact isReplaced_of_rename ht hp (Path.isAbsolute_withExtension mark hp) hwrite hrename

theorem of_update_eq_ok (ht : t.Proper) (hp : p.isAbsolute = true) {changed : Bool}
    (h : (update mark p text).run (perform cwd) t = (.ok changed, t')) :
    (t' = t ∨ IsReplaced t p (p.withExtension mark) t') ∧ t'.read cwd p = .ok text.toUTF8 := by
  rcases update_cases h with ⟨-, rfl, hread⟩ | ⟨-, -, hreplace⟩
  · exact ⟨.inl rfl, hread⟩
  · have hroom := changes_makeRoom cwd hp ht
    obtain ⟨hreplaced, hread⟩ := of_replace_eq_ok hroom.proper hp hreplace
    exact ⟨.inr ⟨(hroom.mono fun _ => False.elim).trans hreplaced.changes, hreplaced.gone⟩, hread⟩

end Update

section Edit

theorem of_edit_write_eq_ok (ht : t.Proper) (hp : p.isAbsolute = true)
    (h : t.edit cwd (.write p bytes) = (.ok (), t')) :
    t.Changes (· = p.location) t' ∧ t'.find? p.location = some (.file bytes) := by
  have hroom := changes_makeRoom cwd hp ht
  rw [edit] at h
  generalize (makeRoom p).run (perform cwd) t = made at h hroom
  obtain ⟨result, t₁⟩ := made
  cases result with
  | error cause => cases h
  | ok _ =>
    dsimp only at h hroom
    cases hwrite : t₁.write cwd p bytes with
    | error cause =>
      rw [hwrite] at h
      cases h
    | ok t₂ =>
      rw [hwrite] at h
      obtain ⟨-, rfl⟩ := Prod.mk.inj h
      obtain ⟨hreach, -, hnodir, rfl⟩ := of_write_eq_ok hroom.proper hp hwrite
      have hloc : p.location ≠ [] := by
        intro hnil
        simp [hnil] at hnodir
      have hput : t₁.Changes (· = p.location) (t₁.put p.location (.file bytes)) :=
        hreach.put hroom.proper (by simp [Node.kind]) hnodir (by simp)
      exact ⟨(hroom.mono fun _ => False.elim).trans hput, find?_put_self hloc⟩

theorem of_edit_remove_eq_ok (ht : t.Proper) (hp : p.isAbsolute = true)
    (hfile : t.find? p.location = some (.file bytes))
    (h : t.edit cwd (.remove p) = (.ok (), t')) : t.Changes (· = p.location) t' := by
  rw [edit, Tree.discard] at h
  split at h
  next => cases h
  next place hresolve =>
    have hreach := reaches_of_resolve ht hp hresolve
    split at h
    next => cases h
    next hnode =>
      obtain ⟨-, hdir, -⟩ := (nodeAt_eq_ok_iff (hreach.isIn ht)).1 hnode
      rw [hreach.loc_eq, hfile] at hdir
      cases hdir
    next =>
      cases hremove : t.remove cwd p with
      | error cause =>
        rw [hremove] at h
        cases h
      | ok t₁ =>
        rw [hremove] at h
        obtain ⟨-, rfl⟩ := Prod.mk.inj h
        obtain ⟨-, hnodir, rfl⟩ := of_remove_eq_ok ht hp hremove
        exact .erase ht hnodir

end Edit

end TextCatalog.Disk
