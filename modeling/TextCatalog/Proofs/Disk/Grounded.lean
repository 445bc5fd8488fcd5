import TextCatalog.Proofs.Disk.Reach

/-!
# Trees in which everything stands in a directory

A path ends at a name in a directory that is there, whatever links are on the way, and no operation takes
away or replaces a directory. So a tree in which everything stands in a directory stays so, whatever script is
run on it.
-/

namespace TextCatalog.Disk

open RawText (slash)

namespace Tree

/-- Everything stands in a directory. -/
def IsGrounded (t : Tree) : Prop :=
  ∀ n ∈ t.nodes, t.find? n.1.dropLast = some .directory

instance (t : Tree) : Decidable t.IsGrounded :=
  inferInstanceAs (Decidable (∀ n ∈ t.nodes, t.find? n.1.dropLast = some .directory))

variable {t t' : Tree} {cwd p : Path} {follows : Bool → Bool} {links : Nat} {here loc : Location}
  {pieces : List RawText} {node : Node} {slash : Bool}
  {pass : Location → List RawText → Except Cause Place}

theorem ne_nil_of_ne_directory (h : t.find? loc ≠ some .directory) : loc ≠ [] := by
  rintro rfl
  exact h rfl

theorem ne_of_find?_directory {other : Location} (hother : t.find? other = some .directory)
    (hdir : t.find? loc ≠ some .directory) : other ≠ loc := by
  rintro rfl
  exact hdir hother

namespace IsGrounded

theorem find?_dropLast (ht : t.IsGrounded) (h : t.find? loc = some node) :
    t.find? loc.dropLast = some .directory := by
  by_cases hloc : loc = []
  · rw [hloc]
    rfl
  · exact ht _ (mem_of_find? h hloc)

/-- Nothing is below what is not there. -/
theorem find?_append (ht : t.IsGrounded) (hnone : t.find? loc = none) (names : Location) :
    t.find? (loc ++ names) = none := by
  induction names using List.reverseRecOn with
  | nil => rwa [List.append_nil]
  | append_singleton names name ih =>
    rw [← List.append_assoc]
    cases hfind : t.find? (loc ++ names ++ [name]) with
    | none => rfl
    | some node =>
      have hdir := ht.find?_dropLast hfind
      rw [List.dropLast_concat, ih] at hdir
      cases hdir

theorem put (ht : t.IsGrounded) (hparent : t.find? loc.dropLast = some .directory)
    (hdir : t.find? loc ≠ some .directory) (node : Node) : (t.put loc node).IsGrounded := by
  have hkeep : ∀ {other : Location}, t.find? other = some .directory →
      (t.put loc node).find? other = some .directory := by
    intro other hother
    rw [find?_put_of_ne (ne_of_find?_directory hother hdir), hother]
  intro n hn
  rcases List.mem_cons.1 hn with rfl | hn
  · exact hkeep hparent
  · exact hkeep (ht n (List.mem_filter.1 hn).1)

theorem erase (ht : t.IsGrounded) (hdir : t.find? loc ≠ some .directory) : (t.erase loc).IsGrounded := by
  intro n hn
  have hparent := ht n (List.mem_filter.1 hn).1
  rw [find?_erase_of_ne (ne_of_find?_directory hparent hdir), hparent]

end IsGrounded

section Ends

/-- A walk from a directory ends at a name in a directory. -/
theorem find?_dropLast_of_walkBy (ht : t.IsGrounded)
    (hpass : ∀ here pieces, t.find? here = some .directory →
      pass here pieces = .ok (.named loc slash) → t.find? loc.dropLast = some .directory)
    (hhere : t.find? here = some .directory)
    (h : t.walkBy follows pass here pieces = .ok (.named loc slash)) :
    t.find? loc.dropLast = some .directory := by
  replace h := goes_of_walkBy h
  induction h with
  | arrives hplace => cases hplace
  | idle _ _ ih => exact ih hhere
  | up _ ih => exact ih (ht.find?_dropLast hhere)
  | stops _ _ _ hplace =>
    obtain ⟨rfl, -⟩ := Place.named.inj hplace
    rwa [List.dropLast_concat]
  | follows _ _ _ _ _ hpassed =>
    refine hpass _ _ ?_ hpassed
    split
    · rfl
    · exact hhere
  | enters _ _ _ _ hdir _ ih => exact ih hdir

theorem find?_dropLast_of_walk (ht : t.IsGrounded) (hhere : t.find? here = some .directory)
    (h : walk t follows links here pieces = .ok (.named loc slash)) :
    t.find? loc.dropLast = some .directory := by
  induction links generalizing here pieces with
  | zero => exact find?_dropLast_of_walkBy ht (fun _ _ _ hpass => by cases hpass) hhere h
  | succ links ih => exact find?_dropLast_of_walkBy ht (fun _ _ => ih) hhere h

theorem find?_dropLast_of_resolve (ht : t.IsGrounded) (h : t.resolve cwd follows p = .ok (.named loc slash)) :
    t.find? loc.dropLast = some .directory := by
  rw [resolve] at h
  split at h
  next => cases h
  next => exact find?_dropLast_of_walk ht rfl h

end Ends

section Performed

theorem exists_of_remove (h : t.remove cwd p = .ok t') :
    ∃ loc, t.find? loc ≠ some .directory ∧ t' = t.erase loc := by
  rw [remove] at h
  split at h
  next => cases h
  next => cases h
  next loc slash _ =>
    split at h
    next => cases h
    next => cases h
    next => cases h
    next node hdir hlook =>
      split at h
      next => cases h
      next =>
        refine ⟨loc, fun hfind => hdir ?_, (Except.ok.inj h).symm⟩
        exact Option.some.inj ((of_look_eq_ok hlook).2.trans hfind)

namespace IsGrounded

theorem changed {result : Except Cause Tree} (ht : t.IsGrounded)
    (h : ∀ t', result = .ok t' → t'.IsGrounded) : (t.changed result).2.IsGrounded := by
  cases result with
  | error cause => exact ht
  | ok t' => exact h t' rfl

theorem perform (ht : t.IsGrounded) (cwd : Path) (op : Op) : (t.perform cwd op).2.IsGrounded := by
  cases op with
  | kind | below | read => exact ht
  | makeDirectory p =>
    refine ht.changed fun t' h => ?_
    obtain ⟨loc, slash, hresolve, -, hnone, rfl⟩ := exists_of_add h
    exact ht.put (find?_dropLast_of_resolve ht hresolve) (by simp [hnone]) .directory
  | write p bytes =>
    refine ht.changed fun t' h => ?_
    obtain ⟨loc, hresolve, -, hdir, rfl⟩ := exists_of_write h
    exact ht.put (find?_dropLast_of_resolve ht hresolve) hdir (.file bytes)
  | rename p target =>
    refine ht.changed fun t' h => ?_
    obtain ⟨old, new, node, -, hresolve, -, hdir, hold, hnode, rfl⟩ := exists_of_rename h
    have hfile : t.find? old ≠ some .directory := by simpa [hold] using hnode
    have hparent := find?_dropLast_of_resolve ht hresolve
    refine (ht.erase hfile).put ?_ (fun hthere => ?_) node
    · rw [find?_erase_of_ne (ne_of_find?_directory hparent hfile), hparent]
    · by_cases heq : new = old
      · have hgone := find?_erase_self (t := t) (ne_nil_of_ne_directory hfile)
        rw [heq, hgone] at hthere
        cases hthere
      · rw [find?_erase_of_ne heq] at hthere
        exact hdir hthere
  | remove p =>
    refine ht.changed fun t' h => ?_
    obtain ⟨loc, hdir, rfl⟩ := exists_of_remove h
    exact ht.erase hdir

end IsGrounded

end Performed

end Tree

/-- Whatever a script does to a tree, everything stands in a directory afterwards. -/
theorem Script.isGrounded_run {α : Type} {t : Tree} (ht : t.IsGrounded) (cwd : Path) (s : Script α) :
    (s.run (Tree.perform cwd) t).2.IsGrounded := by
  induction s generalizing t with
  | done => exact ht
  | step op next ih => exact ih _ (ht.perform cwd op)

end TextCatalog.Disk
