import TextCatalog.Pipeline
import TextCatalog.Proofs.Disk.Run

/-!
# Looking at the disk

Finding and reading a configuration, and collecting and reading the sources, asks for what there is and
changes nothing. That holds of every disk, whatever links there are.
-/

namespace TextCatalog

open Disk

namespace Disk

theorem looks_kind? (p : Path) : (kind? p).Asks Op.Looks :=
  .step trivial fun answer => by cases answer <;> exact .done _

theorem looks_isDirectory (p : Path) : (isDirectory p).Asks Op.Looks :=
  (looks_kind? p).bind fun _ => .done _

theorem looks_isFile (p : Path) : (isFile p).Asks Op.Looks :=
  (looks_kind? p).bind fun _ => .done _

theorem looks_readText (p : Path) : (readText p).Asks Op.Looks :=
  .step trivial fun answer => by
    cases answer with
    | error cause => exact .done _
    | ok bytes =>
      dsimp only
      split <;> exact .done _

end Disk

namespace Config

theorem looks_firstFile? (ps : List Path) : (firstFile? ps).Asks Op.Looks := by
  induction ps with
  | nil => exact .done _
  | cons p ps ih =>
    refine (looks_isFile p).bind fun there => ?_
    cases there with
    | true => exact .done _
    | false => exact ih

/-- A file is found if there is one among the paths. -/
theorem isSome_run_firstFile?_iff (cwd : Path) (t : Tree) (ps : List Path) :
    ((firstFile? ps).run (Tree.perform cwd) t).1.isSome = true ↔
      ∃ p ∈ ps, ∃ bytes, t.node cwd p = .ok (.file bytes) := by
  induction ps with
  | nil => simp [firstFile?, Script.run, pure]
  | cons p ps ih =>
    obtain ⟨there, hrun, hthere⟩ := run_isFile cwd t p
    have hfirst : (firstFile? (p :: ps)).run (Tree.perform cwd) t = _ :=
      Script.run_bind (Tree.perform cwd) (isFile p) _ t
    rw [hfirst, hrun, List.exists_mem_cons_iff, ← hthere]
    cases there with
    | true => simp [Script.run, pure]
    | false => simpa using ih

theorem looks_loadFrom (p : Path) : (loadFrom p).run.Asks Op.Looks :=
  Action.asks_bind (Action.asks_ofScript .io (looks_readText p)) fun _ => .done _

theorem looks_load (root : Path) : (load root).run.Asks Op.Looks := by
  refine Action.asks_bind (Action.asks_lift (looks_firstFile? _)) fun found => ?_
  cases found with
  | none => exact .done _
  | some p => exact Action.asks_bind (looks_loadFrom p) fun _ => .done _

end Config

namespace SourceFile

theorem looks_walk (s : Selection) (directory : Path) : (walk s directory).run.Asks Op.Looks := by
  refine Action.asks_bind (Action.asks_ask .io trivial) fun listing => ?_
  cases listing.refused.find? fun refused => refused.1.all s.admits <;> exact .done _

theorem looks_gather (s : Selection) (root : Path) (bases : List Path) :
    (gather s root bases).run.Asks Op.Looks := by
  induction bases with
  | nil => exact .done _
  | cons base bases ih =>
    refine Action.asks_bind (Action.asks_lift (looks_isDirectory _)) fun there => ?_
    cases there with
    | false => exact ih
    | true =>
      exact Action.asks_bind (looks_walk s _) fun items => Action.asks_bind ih fun _ => .done _

theorem looks_collect (cwd root : Path) (s : Selection) (strip : Option String) :
    (collect cwd root s strip).run.Asks Op.Looks := by
  refine Action.asks_bind (Action.asks_ask .io trivial) fun _ => ?_
  refine Action.asks_bind (.done _) fun root' => ?_
  exact Action.asks_bind (looks_gather s _ s.bases) fun _ => .done _

theorem looks_read (f : SourceFile) : (read f).run.Asks Op.Looks :=
  Action.asks_bind (Action.asks_ofScript _ (looks_readText f.path)) fun _ => .done _

theorem looks_readAll (files : List SourceFile) : (readAll files).run.Asks Op.Looks := by
  refine Action.asks_bind ?_ fun _ => .done _
  induction files with
  | nil => exact .done _
  | cons f files ih =>
    rw [List.mapM_cons]
    exact Action.asks_bind (looks_read f) fun _ => Action.asks_bind ih fun _ => .done _

end SourceFile

theorem Pipeline.looks_prepare (p : Pipeline) (host : Host) : (p.prepare host).run.Asks Op.Looks := by
  refine Action.asks_bind (SourceFile.looks_collect _ _ _ _) fun files => ?_
  exact Action.asks_bind (SourceFile.looks_readAll files) fun _ => .done _

end TextCatalog
