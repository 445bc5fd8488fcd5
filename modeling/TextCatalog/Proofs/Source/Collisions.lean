import TextCatalog.Proofs.Placeholder.Splice
import TextCatalog.Proofs.Source.Owner

/-!
# Collisions

Files with one output key are found out twice: their texts are merged under the key, and each file
but the first is recorded to take the place of the one before it. The two tell one story. A file
either brings a new key or takes a place, and the file that took the place last is the one whose text
is kept.
-/

namespace TextCatalog.SourceFile

open Disk Placeholder

/-- The file is the last one with the key. -/
def IsLast (key : String) (files : List SourceFile) (f : SourceFile) : Prop :=
  ∃ front later, files = front ++ f :: later ∧ f.outputKey = key ∧ ∀ g ∈ later, g.outputKey ≠ key

/-- Some file before the one at place `j` has its key. -/
def IsRepeated (files : List SourceFile) (j : Nat) : Prop :=
  ∃ front f later, files = front ++ f :: later ∧ front.length = j ∧
    ∃ g ∈ front, g.outputKey = f.outputKey

/-- The collision says that the file at place `j` takes the place of the nearest one before it with
its key. -/
def IsRecord (files : List SourceFile) (j : Nat) (c : Collision) : Prop :=
  ∃ front old between new later, files = (front ++ old :: between) ++ new :: later ∧
    (front ++ old :: between).length = j ∧ old.outputKey = new.outputKey ∧
    (∀ g ∈ between, g.outputKey ≠ new.outputKey) ∧ c = ⟨new.outputKey, old.path, new.path⟩

/-- There is one collision for each file that repeats a key, in the order of the files. -/
def Reports (files : List SourceFile) (found : List Collision) : Prop :=
  ∃ places : List Nat, places.Pairwise (· < ·) ∧ (∀ j, j ∈ places ↔ IsRepeated files j) ∧
    List.Forall₂ (IsRecord files) places found

section Records

variable {key : String} {files seen front later : List SourceFile} {f : SourceFile} {j : Nat}

theorem isLast_iff : IsLast key files f ↔ owner? key files = some f := by
  rw [owner?_eq_getLast?, getLast?_filter_eq_some_iff]
  simp only [IsLast, beq_iff_eq, beq_eq_false_iff_ne]
  constructor
  · rintro ⟨front, later, hfiles, hkey, hlater⟩
    exact ⟨hkey, front, later, hfiles, hlater⟩
  · rintro ⟨hkey, front, later, hfiles, hlater⟩
    exact ⟨front, later, hfiles, hkey, hlater⟩

theorem isRepeated_length_iff :
    IsRepeated (front ++ f :: later) front.length ↔ ∃ g ∈ front, g.outputKey = f.outputKey := by
  constructor
  · rintro ⟨front', f', later', hfiles, hlen, hrepeated⟩
    obtain ⟨rfl, htail⟩ := List.append_inj hfiles hlen.symm
    obtain ⟨rfl, -⟩ := List.cons.inj htail
    exact hrepeated
  · exact fun h => ⟨front, f, later, rfl, rfl, h⟩

theorem IsRepeated.lt_length (h : IsRepeated files j) : j < files.length := by
  obtain ⟨front, f, later, rfl, rfl, -⟩ := h
  simp

theorem isRepeated_length_seen_iff : IsRepeated (seen.reverse ++ f :: files) seen.length
    ↔ ∃ g ∈ seen, g.outputKey = f.outputKey := by
  have hiff := @isRepeated_length_iff seen.reverse files f
  simpa using hiff

/-- Among the files seen, last one first, the search finds the nearest. -/
theorem isRecord_of_find? {g : SourceFile}
    (h : seen.find? (fun g => g.outputKey == f.outputKey) = some g) :
    IsRecord (seen.reverse ++ f :: files) seen.length ⟨f.outputKey, g.path, f.path⟩ := by
  obtain ⟨hkey, between, front, rfl, hbetween⟩ := List.find?_eq_some_iff_append.1 h
  refine ⟨front.reverse, g, between.reverse, f, files, ?_, ?_, by simpa using hkey, ?_, rfl⟩
  · simp
  · simp only [List.length_append, List.length_cons, List.length_reverse]
    omega
  · simpa using hbetween

/-- The records of the files behind those in `seen`, which are given last one first. -/
theorem exists_places_collisionsAfter (seen files : List SourceFile) :
    ∃ places : List Nat, places.Pairwise (· < ·) ∧
      (∀ j, j ∈ places ↔ seen.length ≤ j ∧ IsRepeated (seen.reverse ++ files) j) ∧
      List.Forall₂ (IsRecord (seen.reverse ++ files)) places (collisionsAfter seen files) := by
  induction files generalizing seen with
  | nil =>
    refine ⟨[], .nil, fun j => ?_, .nil⟩
    have hnone : seen.length ≤ j → ¬ IsRepeated (seen.reverse ++ []) j := by
      intro hj hrepeated
      have hlt := hrepeated.lt_length
      simp only [List.append_nil, List.length_reverse] at hlt
      omega
    simpa using hnone
  | cons f files ih =>
    obtain ⟨places, hordered, hmem, hrecords⟩ := ih (f :: seen)
    have hlist : (f :: seen).reverse ++ files = seen.reverse ++ f :: files := by simp
    rw [hlist] at hmem hrecords
    rw [collisionsAfter]
    cases hfind : seen.find? fun g => g.outputKey == f.outputKey with
    | none =>
      have hfresh : ¬ IsRepeated (seen.reverse ++ f :: files) seen.length := by
        rw [isRepeated_length_seen_iff]
        simpa using hfind
      refine ⟨places, hordered, fun j => ?_, hrecords⟩
      rw [hmem, List.length_cons]
      refine and_congr_left fun hj => ⟨Nat.le_of_succ_le, fun hle => ?_⟩
      exact Nat.lt_of_le_of_ne hle fun heq => hfresh (heq ▸ hj)
    | some g =>
      have hrepeated : IsRepeated (seen.reverse ++ f :: files) seen.length :=
        isRepeated_length_seen_iff.2
          ⟨g, List.mem_of_find?_eq_some hfind, by simpa using List.find?_some hfind⟩
      have hlater : ∀ j ∈ places, seen.length < j := fun j hj => ((hmem j).1 hj).1
      refine ⟨seen.length :: places, .cons hlater hordered, fun j => ?_,
        .cons (isRecord_of_find? hfind) hrecords⟩
      rw [List.mem_cons, hmem, List.length_cons]
      constructor
      · rintro (rfl | ⟨hle, hj⟩)
        · exact ⟨Nat.le_refl _, hrepeated⟩
        · exact ⟨Nat.le_of_succ_le hle, hj⟩
      · rintro ⟨hle, hj⟩
        exact (Nat.eq_or_lt_of_le hle).imp Eq.symm fun hlt => ⟨hlt, hj⟩

theorem reports_collisions (files : List SourceFile) : Reports files (collisions files) := by
  obtain ⟨places, hordered, hmem, hrecords⟩ := exists_places_collisionsAfter [] files
  exact ⟨places, hordered, by simpa using hmem, hrecords⟩

/-- A file that repeats a key adds a collision, and any other adds an entry. -/
theorem length_foldl_put_add {acc : List Entry} (texts : Path → String)
    (h : ∀ key, key ∈ acc.map Entry.key ↔ ∃ g ∈ seen, g.outputKey = key) :
    ((files.map (entryOf texts)).foldl (fun acc e => Entry.put e acc) acc).length
        + (collisionsAfter seen files).length
      = acc.length + files.length := by
  induction files generalizing seen acc with
  | nil => rfl
  | cons f files ih =>
    have hkeys := @Entry.map_key_put (entryOf texts f) acc
    have hlength := congrArg List.length hkeys
    have hkey : (entryOf texts f).key = f.outputKey := rfl
    rw [List.length_map] at hlength
    have hnext : ∀ key, key ∈ (Entry.put (entryOf texts f) acc).map Entry.key
        ↔ ∃ g ∈ f :: seen, g.outputKey = key := by
      intro key
      rw [hkeys, List.exists_mem_cons_iff, ← h, hkey]
      split
      next hmem =>
        exact ⟨.inr, fun hor => hor.elim (fun heq => heq ▸ hmem) id⟩
      next => simp [or_comm, eq_comm]
    have hrest := ih hnext
    rw [List.map_cons, List.foldl_cons, collisionsAfter, List.length_cons]
    cases hfind : seen.find? fun g => g.outputKey == f.outputKey with
    | none =>
      have hfresh : (entryOf texts f).key ∉ acc.map Entry.key := by
        rw [h, hkey]
        simpa using hfind
      rw [if_neg hfresh, List.length_append, List.length_singleton, List.length_map] at hlength
      dsimp only
      omega
    | some g =>
      have hsame : g.outputKey = f.outputKey := by simpa using List.find?_some hfind
      have hrepeated : (entryOf texts f).key ∈ acc.map Entry.key :=
        (h _).2 ⟨g, List.mem_of_find?_eq_some hfind, hsame⟩
      rw [if_pos hrepeated, List.length_map] at hlength
      rw [List.length_cons]
      omega

theorem length_merge_add_length_collisions (texts : Path → String) (files : List SourceFile) :
    (Entry.merge (files.map (entryOf texts))).length + (collisions files).length
      = files.length := by
  have hnone : ∀ key, key ∈ ([] : List Entry).map Entry.key
      ↔ ∃ g ∈ ([] : List SourceFile), g.outputKey = key := by simp
  calc (Entry.merge (files.map (entryOf texts))).length + (collisions files).length
      = ([] : List Entry).length + files.length := by
        rw [Entry.merge_eq_foldl]
        exact length_foldl_put_add texts hnone
    _ = files.length := Nat.zero_add _

/-- The last collision on a key is won by the last file with the key. -/
theorem exists_isLast_of_getLast? {c : Collision}
    (hc : ((collisions files).filter fun c => c.key == key).getLast? = some c) :
    ∃ f, IsLast key files f ∧ c.winner = f.path := by
  cases howner : owner? key files with
  | some f => exact ⟨f, isLast_iff.2 howner, winner_eq_of_owner? howner hc⟩
  | none =>
    rw [owner?_eq_getLast?, List.getLast?_eq_none_iff] at howner
    have hwinners := map_winner_collisions key files
    rw [howner, List.map_nil, List.tail_nil, List.map_eq_nil_iff] at hwinners
    rw [hwinners] at hc
    cases hc

end Records

section Read

variable {σ : Type} {perform : (op : Op) → σ → Except Cause op.Answer × σ} {state : σ}
  {answer : Path → Except Cause ByteArray} {files : List SourceFile} {f : SourceFile}

/-- What a disk answers is a text. -/
def IsReadable (answer : Path → Except Cause ByteArray) (p : Path) : Prop :=
  ∃ text : String, answer p = .ok text.toUTF8

/-- The text that a disk answers; what is none counts as empty. -/
def textOf (answer : Path → Except Cause ByteArray) (p : Path) : String :=
  match answer p with
  | .ok bytes => (String.fromUTF8? bytes).getD ""
  | .error _ => ""

theorem eq_ok_textOf {p : Path} (h : IsReadable answer p) :
    answer p = .ok (textOf answer p).toUTF8 := by
  obtain ⟨text, htext⟩ := h
  have hdecoded : String.fromUTF8? text.toUTF8 = some text := Text.fromUTF8?_eq_some_iff.2 rfl
  rw [textOf, htext]
  dsimp only
  rw [hdecoded]
  rfl

theorem run_readText_of_not_isReadable {p : Path} (hread : perform (.read p) state = (answer p, state))
    (h : ¬ IsReadable answer p) :
    ∃ cause, (∀ c, answer p = .error c → cause = c) ∧
      (readText p).run perform state = (.error cause, state) := by
  rw [readText, Script.run_step, hread]
  cases hanswer : answer p with
  | error cause =>
    refine ⟨cause, ?_, rfl⟩
    intro c hc
    exact Except.error.inj hc
  | ok bytes =>
    have hnone : String.fromUTF8? bytes = none := by
      rw [Option.eq_none_iff_forall_ne_some]
      intro text htext
      exact h ⟨text, hanswer.trans (congrArg _ (Text.fromUTF8?_eq_some_iff.1 htext))⟩
    refine ⟨.notText, ?_, ?_⟩
    · intro c hc
      cases hc
    · dsimp only
      rw [hnone]
      rfl

theorem run_read_of_not_isReadable (hread : perform (.read f.path) state = (answer f.path, state))
    (h : ¬ IsReadable answer f.path) :
    ∃ cause, (∀ c, answer f.path = .error c → cause = c) ∧
      (read f).run.run perform state = (.error (.readSource f.path cause), state) := by
  obtain ⟨cause, hcause, hscript⟩ := run_readText_of_not_isReadable hread h
  have haction : (Action.ofScript (.readSource f.path) (readText f.path)).run.run perform state
      = (.error (.readSource f.path cause), state) := by
    rw [Action.run_ofScript, hscript]
    rfl
  refine ⟨cause, hcause, ?_⟩
  rw [read, Action.run_bind_of_error haction]

/-- The files are read up to the first one that cannot be. -/
theorem exists_run_mapM_read_eq_error (hread : ∀ p, perform (.read p) state = (answer p, state))
    (h : ∃ f ∈ files, ¬ IsReadable answer f.path) :
    ∃ front f later cause, files = front ++ f :: later ∧
      (∀ g ∈ front, IsReadable answer g.path) ∧ ¬ IsReadable answer f.path ∧
      (∀ c, answer f.path = .error c → cause = c) ∧
      (files.mapM read : Action (List Entry)).run.run perform state
        = (.error (.readSource f.path cause), state) := by
  induction files with
  | nil => simp at h
  | cons f files ih =>
    rw [List.mapM_cons]
    by_cases hf : IsReadable answer f.path
    · have hlater : ∃ g ∈ files, ¬ IsReadable answer g.path := by
        obtain ⟨g, hg, hnot⟩ := h
        refine ⟨g, (List.mem_cons.1 hg).resolve_left ?_, hnot⟩
        rintro rfl
        exact hnot hf
      obtain ⟨front, f', later, cause, rfl, hfront, hf', hcause, hrun⟩ := ih hlater
      have hfirst := run_read_of_ok ((hread f.path).trans (congrArg (·, state) (eq_ok_textOf hf)))
      refine ⟨f :: front, f', later, cause, rfl, List.forall_mem_cons.2 ⟨hf, hfront⟩, hf', hcause, ?_⟩
      rw [Action.run_bind_of_ok hfirst, Action.run_bind_of_error hrun]
    · obtain ⟨cause, hcause, hrun⟩ := run_read_of_not_isReadable (hread f.path) hf
      exact ⟨[], f, files, cause, rfl, by simp, hf, hcause, Action.run_bind_of_error hrun⟩

end Read

/-- **Collisions are resolved and reported exactly.** Of a disk that reading does not change, any
list of files is read as follows. If all of them hold texts, there is one entry for each output key,
in the order of first appearance, with the text of the last file that has the key, and one collision
for each file that repeats a key, in the order of the files, with the nearest file before it. So every
file counts once, as an entry or as a collision, and the file whose text is kept is the one that won
the last collision on its key. If some file holds no text, the error names the first such file. -/
theorem readAll_resolves {σ : Type} {perform : (op : Op) → σ → Except Cause op.Answer × σ} {state : σ}
    {answer : Path → Except Cause ByteArray}
    (hread : ∀ p, perform (.read p) state = (answer p, state)) (files : List SourceFile) :
    ((∀ f ∈ files, IsReadable answer f.path) →
      ∃ entries found, (readAll files).run.run perform state = (.ok (entries, found), state) ∧
        ListsFirsts (files.map SourceFile.outputKey) (entries.map Entry.key) ∧
        (∀ e ∈ entries, ∃ f text, IsLast e.key files f ∧ answer f.path = .ok text.toUTF8 ∧
          e.content = Text.lineFeeds text) ∧
        Reports files found ∧
        files.length = entries.length + found.length ∧
        ∀ key c, (found.filter fun c => c.key == key).getLast? = some c →
          ∃ f, IsLast key files f ∧ c.winner = f.path) ∧
    ((∃ f ∈ files, ¬ IsReadable answer f.path) →
      ∃ front f later cause, files = front ++ f :: later ∧
        (∀ g ∈ front, IsReadable answer g.path) ∧ ¬ IsReadable answer f.path ∧
        (∀ c, answer f.path = .error c → cause = c) ∧
        (readAll files).run.run perform state = (.error (.readSource f.path cause), state)) := by
  constructor
  · intro hall
    have htexts : ∀ f ∈ files,
        perform (.read f.path) state = (.ok (textOf answer f.path).toUTF8, state) := fun f hf =>
      (hread f.path).trans (congrArg (·, state) (eq_ok_textOf (hall f hf)))
    have hkeys : (files.map (entryOf (textOf answer))).map Entry.key
        = files.map SourceFile.outputKey := List.map_map
    refine ⟨Entry.merge (files.map (entryOf (textOf answer))), collisions files,
      Action.run_bind_of_ok (run_mapM_read htexts), ?_, fun e he => ?_, reports_collisions files,
      (length_merge_add_length_collisions _ files).symm, fun key c => exists_isLast_of_getLast?⟩
    · rw [Entry.map_key_merge, hkeys]
      exact listsFirsts_distinct _
    · have hfind := Entry.find?_eq_some_of_mem (Entry.nodup_map_key_merge _) he
      rw [find?_merge_entryOf] at hfind
      obtain ⟨f, howner, rfl⟩ := Option.map_eq_some_iff.1 hfind
      have hlast := isLast_iff.2 howner
      exact ⟨f, _, hlast, eq_ok_textOf (hall f (of_owner?_eq_some howner).1), rfl⟩
  · intro hsome
    obtain ⟨front, f, later, cause, hfiles, hfront, hf, hcause, hrun⟩ :=
      exists_run_mapM_read_eq_error hread hsome
    exact ⟨front, f, later, cause, hfiles, hfront, hf, hcause, Action.run_bind_of_error hrun⟩

section Sample

/-- Four files, three of which have the key `k`. -/
def fourFiles : List SourceFile :=
  [⟨⟨"/a"⟩, "/a", "k"⟩, ⟨⟨"/b"⟩, "/b", "m"⟩, ⟨⟨"/c"⟩, "/c", "k"⟩, ⟨⟨"/d"⟩, "/d", "k"⟩]

def fourTexts : Tree :=
  ⟨[(["a"], .file "1".toUTF8), (["b"], .file "2".toUTF8), (["c"], .file "3".toUTF8),
    (["d"], .file "4\r".toUTF8)], []⟩

theorem readAll_resolves_chain :
    (∀ p, Tree.perform ⟨"/"⟩ (.read p) fourTexts = (fourTexts.read ⟨"/"⟩ p, fourTexts)) ∧
      (∀ f ∈ fourFiles, IsReadable (fourTexts.read ⟨"/"⟩) f.path) ∧
      ∃ entries found, Action.on ⟨"/"⟩ (readAll fourFiles) fourTexts = (.ok (entries, found), fourTexts) ∧
        4 = entries.length + found.length ∧ Reports fourFiles found ∧
        ListsFirsts ["k", "m", "k", "k"] (entries.map Entry.key) := by
  have hread : ∀ p, Tree.perform ⟨"/"⟩ (.read p) fourTexts = (fourTexts.read ⟨"/"⟩ p, fourTexts) :=
    fun _ => rfl
  have hall : ∀ f ∈ fourFiles, IsReadable (fourTexts.read ⟨"/"⟩) f.path := by
    intro f hf
    have hfour : ∀ f ∈ fourFiles, ∃ text ∈ ["1", "2", "3", "4\r"],
        fourTexts.read ⟨"/"⟩ f.path = .ok text.toUTF8 := by decide +kernel
    obtain ⟨text, -, htext⟩ := hfour f hf
    exact ⟨text, htext⟩
  obtain ⟨entries, found, hrun, hkeys, -, hreports, hlength, -⟩ :=
    (readAll_resolves hread fourFiles).1 hall
  exact ⟨hread, hall, entries, found, hrun, hlength, hreports, hkeys⟩

end Sample

end TextCatalog.SourceFile
