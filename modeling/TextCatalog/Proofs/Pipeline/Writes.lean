import TextCatalog.Pipeline
import TextCatalog.Proofs.Disk.Attempt

/-!
# Writing artifacts one after the other

However operations fail, the artifacts before some point have been brought to their paths one after the
other, and one artifact at most is being tried. An error is that of the one that was missed.
-/

namespace TextCatalog

open Disk

namespace Pipeline

variable {host : Host} {cwd : Path} {mark : String} {t t' : Tree} {a : Artifact.Rendered}
  {as : List Artifact.Rendered}

/-- The artifacts have been brought to their paths in their order. -/
inductive BringsAll (cwd : Path) (mark : String) : List Artifact.Rendered → Tree → Tree → Prop
  | nil (t : Tree) : BringsAll cwd mark [] t t
  | cons {a : Artifact.Rendered} {as : List Artifact.Rendered} {t t₁ t' : Tree}
      (hfirst : Brings cwd mark a.path a.content t t₁) (hrest : BringsAll cwd mark as t₁ t') :
      BringsAll cwd mark (a :: as) t t'

/-- Some artifacts have been brought to their paths, and the next is being tried. -/
def TriesAll (cwd : Path) (mark : String) (as : List Artifact.Rendered) (t t' : Tree) : Prop :=
  ∃ before a after t₁, as = before ++ a :: after ∧ BringsAll cwd mark before t t₁ ∧
    Tries cwd mark a.path a.content t₁ t'

/-- The artifacts before this one have been brought to their paths, and this one has been missed. -/
def MissesAt (cwd : Path) (mark : String) (before : List Artifact.Rendered) (a : Artifact.Rendered)
    (t t' : Tree) : Prop :=
  ∃ t₁, BringsAll cwd mark before t t₁ ∧ Misses cwd mark a.path a.content t₁ t'

/-- The tree that goes with the result of writing all artifacts. -/
def ResultsAll (cwd : Path) (mark : String) (as : List Artifact.Rendered) (t : Tree) {α : Type} :
    Except Error α → Tree → Prop
  | .ok _, t' => BringsAll cwd mark as t t'
  | .error e, t' => ∃ before a after cause, as = before ++ a :: after ∧
      e = .writeArtifact a.path cause ∧ MissesAt cwd mark before a t t'

/-- The tree that goes with the result of writing one artifact. -/
def ResultsOne (cwd : Path) (mark : String) (a : Artifact.Rendered) (t : Tree) {α : Type} :
    Except Error α → Tree → Prop
  | .ok _, t' => Brings cwd mark a.path a.content t t'
  | .error e, t' => (∃ cause, e = .writeArtifact a.path cause) ∧ Misses cwd mark a.path a.content t t'

theorem ensures_write (ha : a.path.isAbsolute = true) (t : Tree) :
    (write host a).run.Ensures cwd t (Tries cwd host.mark a.path a.content t)
      (ResultsOne cwd host.mark a t) := by
  have hupdate : (Action.writeIfChanged host.mark a.path a.content).run.Ensures cwd t
      (Tries cwd host.mark a.path a.content t) (ResultsOne cwd host.mark a t) := by
    refine (ensures_update host.mark ha a.content t).bind fun result t' h => ?_
    cases result with
    | ok changed => exact .done h
    | error cause => exact .done ⟨⟨cause, rfl⟩, h⟩
  exact Action.ensures_bind hupdate (fun _ _ h => .done h) fun _ _ h => h

/-- A run through artifacts brings all of them, or those before one that it misses. -/
theorem ensures_mapM_write (has : ∀ a ∈ as, a.path.isAbsolute = true) (t : Tree) :
    (as.mapM (write host)).run.Ensures cwd t (TriesAll cwd host.mark as t)
      (ResultsAll cwd host.mark as t) := by
  induction as generalizing t with
  | nil => exact .done (.nil t)
  | cons a as ih =>
    obtain ⟨ha, has⟩ := List.forall_mem_cons.1 has
    have hfirst : ∀ t', Tries cwd host.mark a.path a.content t t' →
        TriesAll cwd host.mark (a :: as) t t' :=
      fun t' h => ⟨[], a, as, t, rfl, .nil t, h⟩
    rw [List.mapM_cons]
    refine Action.ensures_bind ((ensures_write ha t).mono hfirst fun _ _ h => h) ?_ ?_
    · intro w t₁ hbrought
      refine Action.ensures_bind ((ih has t₁).mono ?_ fun _ _ h => h) ?_ ?_
      · rintro t' ⟨before, b, after, t₂, rfl, hbefore, htries⟩
        exact ⟨a :: before, b, after, t₂, rfl, .cons hbrought hbefore, htries⟩
      · exact fun ws t' h => .done (.cons hbrought h)
      · rintro e t' ⟨before, b, after, cause, rfl, rfl, t₂, hbefore, hmissed⟩
        exact ⟨a :: before, b, after, cause, rfl, rfl, t₂, .cons hbrought hbefore, hmissed⟩
    · rintro e t' ⟨⟨cause, rfl⟩, hmissed⟩
      exact ⟨[], a, as, cause, rfl, rfl, t, .nil t, hmissed⟩

theorem bringsAll_of_on_mapM_write (has : ∀ a ∈ as, a.path.isAbsolute = true)
    {ws : List Artifact.Written} (h : Action.on cwd (as.mapM (write host)) t = (.ok ws, t')) :
    BringsAll cwd host.mark as t t' := by
  have hensures : (as.mapM (write host)).run.Ensures cwd t (TriesAll cwd host.mark as t)
      (ResultsAll cwd host.mark as t) := ensures_mapM_write has t
  have hrun : (as.mapM (write host)).run.run (Tree.perform cwd) t = (.ok ws, t') := h
  have hresults := hensures.run
  rwa [hrun] at hresults

end Pipeline

end TextCatalog
