import TextCatalog.Proofs.Disk.Run
import TextCatalog.Proofs.Entry.Merge
import TextCatalog.Proofs.Text.Bytes
import TextCatalog.Source

/-!
# Entries that are read

What is read of some files is told by the texts that a disk holds at their paths, one entry a file, and
these are merged.
-/

namespace TextCatalog.SourceFile

open Disk

def entryOf (texts : Path → String) (f : SourceFile) : Entry :=
  ⟨f.outputKey, Text.lineFeeds (texts f.path)⟩

section Performed

variable {σ : Type} {perform : (op : Op) → σ → Except Cause op.Answer × σ} {state : σ}
  {f : SourceFile} {files : List SourceFile}

theorem run_read_of_ok {text : String} (h : perform (.read f.path) state = (.ok text.toUTF8, state)) :
    (read f).run.run perform state = (.ok ⟨f.outputKey, Text.lineFeeds text⟩, state) := by
  have htext : String.fromUTF8? text.toUTF8 = some text := Text.fromUTF8?_eq_some_iff.2 rfl
  have hscript : (readText f.path).run perform state = (.ok text, state) := by
    rw [readText, Script.run_step, h]
    dsimp only
    rw [htext]
    rfl
  have haction : (Action.ofScript (.readSource f.path) (readText f.path)).run.run perform state
      = (.ok text, state) := by
    rw [Action.run_ofScript, hscript]
    rfl
  rw [read, Action.run_bind_of_ok haction]
  rfl

theorem run_mapM_read {texts : Path → String}
    (h : ∀ f ∈ files, perform (.read f.path) state = (.ok (texts f.path).toUTF8, state)) :
    (files.mapM read : Action (List Entry)).run.run perform state
      = (.ok (files.map (entryOf texts)), state) := by
  induction files with
  | nil => rfl
  | cons f files ih =>
    obtain ⟨hf, hfiles⟩ := List.forall_mem_cons.1 h
    rw [List.mapM_cons, Action.run_bind_of_ok (run_read_of_ok hf), Action.run_bind_of_ok (ih hfiles)]
    rfl

end Performed

/-- A disk that holds a text at every path and is never changed. -/
def holding (texts : Path → String) (op : Op) (_ : Unit) : Except Cause op.Answer × Unit :=
  match op with
  | .read p => (.ok (texts p).toUTF8, ())
  | .kind _ | .below _ | .makeDirectory _ | .write _ _ | .rename _ _ | .remove _ =>
    (.error .notFound, ())

theorem run_readAll (texts : Path → String) (files : List SourceFile) :
    (readAll files).run.run (holding texts) ()
      = (.ok (Entry.merge (files.map (entryOf texts)), collisions files), ()) := by
  rw [readAll, Action.run_bind_of_ok (run_mapM_read fun _ _ => rfl)]
  rfl

end TextCatalog.SourceFile
