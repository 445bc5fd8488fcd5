import TextCatalog.Proofs.Placeholder.Splice
import TextCatalog.Proofs.Source.Collect
import TextCatalog.Proofs.Source.Merged

/-!
# Which file a text is from

Of several files with one output key the last one counts, however it is asked for: by merging the
entries, by looking for the owner of the key, or by following the collisions.
-/

namespace TextCatalog.SourceFile

open Disk

variable {key : String} {files : List SourceFile} {f : SourceFile} {c : Collision}

section Owner

theorem owner?_eq_getLast? (key : String) (files : List SourceFile) :
    owner? key files = (files.filter fun f => f.outputKey == key).getLast? := by
  rw [owner?, ← List.head?_filter, List.filter_reverse, List.head?_reverse]

theorem of_owner?_eq_some (h : owner? key files = some f) : f ∈ files ∧ f.outputKey = key := by
  rw [owner?_eq_getLast?] at h
  obtain ⟨hmem, hkey⟩ := List.mem_filter.1 (List.mem_of_getLast? h)
  exact ⟨hmem, by simpa using hkey⟩

/-- What is merged under a key is the text of the owner. -/
theorem find?_merge_entryOf (texts : Path → String) (key : String) (files : List SourceFile) :
    Entry.find? key (Entry.merge (files.map (entryOf texts)))
      = (owner? key files).map (entryOf texts) := by
  rw [Entry.find?_merge, owner?_eq_getLast?, List.filter_map, List.getLast?_map]
  rfl

/-- Every file with the key but the first one wins a collision. -/
theorem map_winner_collisionsAfter (seen : List SourceFile) :
    ((collisionsAfter seen files).filter fun c => c.key == key).map (·.winner)
      = if seen.any fun g => g.outputKey == key
        then (files.filter fun f => f.outputKey == key).map (·.path)
        else ((files.filter fun f => f.outputKey == key).map (·.path)).tail := by
  induction files generalizing seen with
  | nil => simp [collisionsAfter]
  | cons f files ih =>
    have hfound : ∀ g, (seen.find? fun g => g.outputKey == f.outputKey) = some g →
        f.outputKey = key → (seen.any fun g => g.outputKey == key) = true := by
      rintro g hg rfl
      have hsame := List.find?_some hg
      exact List.any_eq_true.2 ⟨g, List.mem_of_find?_eq_some hg, hsame⟩
    have hmissing : (seen.find? fun g => g.outputKey == f.outputKey) = none →
        f.outputKey = key → (seen.any fun g => g.outputKey == key) = false := by
      rintro hnone rfl
      rw [List.any_eq_false]
      exact List.find?_eq_none.1 hnone
    rw [collisionsAfter]
    by_cases hkey : f.outputKey = key
    · cases hfind : seen.find? fun g => g.outputKey == f.outputKey with
      | none => simp [ih, hkey, hmissing hfind hkey]
      | some g => simp [ih, hkey, hfound g hfind hkey]
    · cases seen.find? fun g => g.outputKey == f.outputKey <;> simp [ih, hkey]

theorem map_winner_collisions (key : String) (files : List SourceFile) :
    ((collisions files).filter fun c => c.key == key).map (·.winner)
      = ((files.filter fun f => f.outputKey == key).map (·.path)).tail := by
  rw [collisions, map_winner_collisionsAfter]
  rfl

/-- The last collision on a key is won by the owner. -/
theorem winner_eq_of_owner? (hf : owner? key files = some f)
    (hc : ((collisions files).filter fun c => c.key == key).getLast? = some c) :
    c.winner = f.path := by
  have hwinners := congrArg List.getLast? (map_winner_collisions key files)
  rw [owner?_eq_getLast?] at hf
  rw [List.getLast?_map, hc, List.getLast?_tail, List.getLast?_map, hf] at hwinners
  split at hwinners
  · cases hwinners
  · exact Option.some.inj hwinners

/-- Without collisions on a key no other file has it. -/
theorem eq_of_owner? (hf : owner? key files = some f)
    (hnone : (collisions files).filter (fun c => c.key == key) = []) {g : SourceFile} (hg : g ∈ files)
    (hkey : g.outputKey = key) : g = f := by
  have hwinners := map_winner_collisions key files
  rw [owner?_eq_getLast?] at hf
  rw [hnone, List.map_nil, eq_comm, ← List.map_tail, List.map_eq_nil_iff] at hwinners
  have hmem : g ∈ files.filter fun f => f.outputKey == key := List.mem_filter.2 ⟨hg, by simpa using hkey⟩
  cases hfiles : files.filter fun f => f.outputKey == key with
  | nil => simp [hfiles] at hmem
  | cons first others =>
    rw [hfiles, List.tail_cons] at hwinners
    rw [hfiles, hwinners, List.mem_singleton] at hmem
    rw [hfiles, hwinners] at hf
    exact hmem.trans (Option.some.inj hf)

end Owner

section Read

variable {cwd : Path} {t t' : Tree}

/-- The text of a file on the disk; none counts as empty. -/
def textOn (cwd : Path) (t : Tree) (p : Path) : String :=
  (textAt cwd t p).toOption.getD ""

/-- What is read of files is what the disk holds. -/
theorem of_mapM_read_eq_ok {entries : List Entry}
    (h : Action.on cwd (files.mapM read) t = (.ok entries, t')) :
    t' = t ∧ entries = files.map (entryOf (textOn cwd t)) ∧
      ∀ f ∈ files, t.read cwd f.path = .ok (textOn cwd t f.path).toUTF8 := by
  induction files generalizing entries t' with
  | nil =>
    obtain ⟨rfl, rfl⟩ := Action.of_on_mapM_nil_eq_ok h
    exact ⟨rfl, rfl, by simp⟩
  | cons f files ih =>
    obtain ⟨e, t₁, es, hfirst, hothers, rfl⟩ := Action.of_on_mapM_cons_eq_ok h
    obtain ⟨rfl, text, hread, rfl⟩ := on_read_eq_ok_iff.1 hfirst
    obtain ⟨rfl, rfl, hreads⟩ := ih hothers
    have htext : textOn cwd t' f.path = text := by
      rw [textOn, textAt_eq_ok_iff.2 hread]
      rfl
    refine ⟨rfl, ?_, List.forall_mem_cons.2 ⟨by rw [htext, hread], hreads⟩⟩
    rw [List.map_cons, entryOf, htext]

theorem of_readAll_eq_ok {entries : List Entry} {found : List Collision}
    (h : Action.on cwd (readAll files) t = (.ok (entries, found), t')) :
    t' = t ∧ entries = Entry.merge (files.map (entryOf (textOn cwd t))) ∧
      found = collisions files ∧
      ∀ f ∈ files, t.read cwd f.path = .ok (textOn cwd t f.path).toUTF8 := by
  rw [readAll] at h
  obtain ⟨read, hread, hdone⟩ := Action.of_on_bind_pure_eq_ok h
  obtain ⟨rfl, rfl⟩ := Prod.mk.inj hdone
  obtain ⟨rfl, rfl, hreads⟩ := of_mapM_read_eq_ok hread
  exact ⟨rfl, rfl, rfl, hreads⟩

end Read

end TextCatalog.SourceFile
