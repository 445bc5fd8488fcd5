import Mathlib.Logic.Relation
import TextCatalog.Proofs.Pipeline.Settled

/-!
# Runs of a watched project

A watched project goes on by edits, each with the answer to it. An edit that is ignored changes nothing
that a run would read, and every other one is answered by a run. So what is on the disk is always what a
run would write.
-/

namespace TextCatalog

open Disk

/-- A watched project between two edits. -/
structure Moment (σ : Type) where
  tree : Tree
  memory : σ
  /-- What the last run said. -/
  report : Report

namespace Pipeline

variable {σ : Type} {p : Pipeline} {cwd path : Path} {g : ModuleGraph σ} {m m' : Moment σ}

/-- The edits of the file at a path: it is written, or it is a file and is removed. The root of the
project is not removed. -/
inductive EditsFile (p : Pipeline) (t : Tree) (path : Path) : Edit → Prop
  | write (bytes : ByteArray) : EditsFile p t path (.write path bytes)
  | remove {bytes : ByteArray} (hfile : t.find? path.location = some (.file bytes))
      (hroot : path.normalize ≠ p.context.root.normalize) : EditsFile p t path (.remove path)

/-- The project goes on by one edit of a file that is no artifact, and the answer to it. -/
inductive Advances (p : Pipeline) (cwd : Path) (g : ModuleGraph σ) (m : Moment σ) : Moment σ → Prop
  | edit {path : Path} {e : Edit} {mark : String} {t₁ t₂ : Tree} {outcome : Outcome} {memory : σ}
      (hinner : path.IsInner) (hapart : ∀ a ∈ p.context.artifactPaths, path.normalize ≠ a.normalize)
      (hedits : p.EditsFile m.tree path e) (hedited : m.tree.edit cwd e = (.ok (), t₁))
      (hunused : IsUnused mark p.context.artifactPaths t₁)
      (hanswered : Action.on cwd (p.change ⟨cwd, mark⟩ g path m.memory) t₁
        = (.ok (outcome, memory), t₂)) :
      Advances p cwd g m ⟨t₂, memory, outcome.report?.getD m.report⟩

theorem EditsFile.changes {t t' : Tree} {e : Edit} (hinner : p.IsInner) (h : p.EditsFile t path e)
    (ht : t.Proper) (hpath : path.IsInner) (hedited : t.edit cwd e = (.ok (), t')) :
    t.Changes (· = path.location) t' ∧
      (t.find? p.context.root.location ≠ none → t'.find? p.context.root.location ≠ none) := by
  cases h with
  | write bytes =>
    obtain ⟨hchanges, hfile⟩ := of_edit_write_eq_ok ht hpath.isAbsolute hedited
    refine ⟨hchanges, fun hthere => ?_⟩
    by_cases hroot : p.context.root.location = path.location
    · rw [hroot, hfile]
      simp
    · exact hchanges.find?_ne_none hroot hthere
  | remove hfile hroot =>
    have hchanges := of_edit_remove_eq_ok ht hpath.isAbsolute hfile hedited
    have hne := location_ne_of_normalize_ne hpath hinner.root hroot
    exact ⟨hchanges, hchanges.find?_ne_none (Ne.symm hne)⟩

theorem report?_announce (report : Report) (memory : σ) :
    (p.announce g report memory).1.report? = some report := by
  rw [announce]
  split
  · rfl
  · split <;> rfl

/-- An answer is a run, or the path is irrelevant and nothing happens. -/
theorem of_on_change_eq_ok {t t' : Tree} {mark : String} {memory memory' : σ} {outcome : Outcome}
    (h : Action.on cwd (p.change ⟨cwd, mark⟩ g path memory) t = (.ok (outcome, memory'), t')) :
    (p.isRelevant path = false ∧ outcome.report? = none ∧ t' = t) ∨
      ∃ report, outcome.report? = some report ∧
        Action.on cwd (p.generate ⟨cwd, mark⟩) t = (.ok report, t') := by
  rw [change] at h
  cases hrelevant : p.isRelevant path with
  | false =>
    rw [hrelevant, if_neg (by simp), Action.on_pure] at h
    obtain ⟨rfl, rfl⟩ := h
    exact .inl ⟨rfl, rfl, rfl⟩
  | true =>
    rw [hrelevant, if_pos rfl] at h
    obtain ⟨report, hreport, houtcome⟩ := Action.of_on_bind_pure_eq_ok h
    refine .inr ⟨report, ?_, hreport⟩
    have hannounced : (p.announce g report memory).1.report? = some report :=
      report?_announce report memory
    rwa [← houtcome] at hannounced

theorem IsSettled.of_advances (hinner : p.IsInner) (henclosed : p.IsEnclosed)
    (h : p.Advances cwd g m m') (hsettled : p.IsSettled cwd m.tree m.report) :
    p.IsSettled cwd m'.tree m'.report := by
  cases h with
  | edit hpath hapart hedits hedited hunused hanswered =>
    obtain ⟨hchanges, hthere⟩ := hedits.changes hinner hsettled.proper hpath hedited
    rcases of_on_change_eq_ok hanswered with ⟨hignored, hnone, rfl⟩ | ⟨report, hsome, hreport⟩
    · -- Nothing ran: the edited file is not taken, so what was prepared is still prepared.
      rw [hnone]
      refine hsettled.of_changes hinner hchanges ?_ ?_ (hthere (hsettled.root_ne_none hinner))
      · rintro loc rfl
        rw [← isRelevant_eq_takes hpath, hignored]
      · intro a ha heq
        exact location_ne_of_normalize_ne hpath (hinner.artifacts a ha) (hapart a ha) heq.symm
    · rw [hsome]
      exact .of_generate hinner henclosed hchanges.proper hunused hreport

/-- However a watched project goes on after a first run, its artifacts hold what its sources render to,
and one more run would write nothing and say what the last one said. -/
theorem artifacts_stay_current {host : Host} {root : Path} {config : Config} {t t₁ : Tree}
    {report : Report} {memory : σ} (hcwd : host.cwd.isAbsolute = true)
    (haccepted : ofConfig host root config = .ok p) (henclosed : p.IsEnclosed) (ht : t.Proper)
    (hunused : IsUnused host.mark p.context.artifactPaths t)
    (hstart : Action.on host.cwd (p.generate host) t = (.ok report, t₁))
    (hrun : Relation.ReflTransGen (p.Advances host.cwd g) ⟨t₁, memory, report⟩ m) :
    (∃ prepared, (∀ mark, Action.on host.cwd (p.prepare ⟨host.cwd, mark⟩) m.tree
        = (.ok prepared, m.tree)) ∧
      ∀ a ∈ prepared.artifacts, m.tree.read host.cwd a.path = .ok a.content.toUTF8) ∧
    ∀ mark, ∃ again, Action.on host.cwd (p.generate ⟨host.cwd, mark⟩) m.tree = (.ok again, m.tree) ∧
      again.hasChanges = false ∧ again.files = m.report.files ∧
        again.entries = m.report.entries ∧ again.collisions = m.report.collisions := by
  have hinner := henclosed.isInner hcwd haccepted
  have hsettled : p.IsSettled host.cwd m.tree m.report := by
    induction hrun with
    | refl => exact .of_generate hinner henclosed ht hunused hstart
    | tail _ hstep ih => exact .of_advances hinner henclosed hstep ih
  obtain ⟨prepared, hprepare, hread, -⟩ := hsettled.prepared
  exact ⟨⟨prepared, hprepare, hread⟩, hsettled.generate_eq⟩

section Sample

/-! A project in `/r` whose sources lie beside it, with a manifest at `/t`. -/

def sampleHost : Host := ⟨⟨"/"⟩, "tmp-1-2"⟩

def sampleConfig : Config :=
  { Config.usual with
    included := .one "../*.*", output := .toggle false, manifest := .path ⟨"/t"⟩ }

theorem isSome_ofConfig_sample :
    (ofConfig sampleHost ⟨"/r"⟩ sampleConfig).toOption.isSome = true := by decide +kernel

def sample : Pipeline :=
  (ofConfig sampleHost ⟨"/r"⟩ sampleConfig).toOption.get isSome_ofConfig_sample

def sampleTree (root : Node) (source : String) : Tree :=
  ⟨[(["r"], root), ([source], .file "x".toUTF8)], []⟩

def sampleRun (t : Tree) : Tree :=
  (Action.on sampleHost.cwd (sample.generate sampleHost) t).2

def sampleChanges? (t : Tree) : Option Bool :=
  (Action.on sampleHost.cwd (sample.generate sampleHost) t).1.toOption.map (·.hasChanges)

def sampleAnswer (path : Path) (t : Tree) : Except Error (Outcome × Unit) × Tree :=
  Action.on sampleHost.cwd (sample.change sampleHost .detached path ()) t

theorem ofConfig_sample : ofConfig sampleHost ⟨"/r"⟩ sampleConfig = .ok sample :=
  eq_ok_get isSome_ofConfig_sample

theorem artifactPaths_sample : sample.context.artifactPaths = [⟨"/t"⟩] := by decide +kernel

theorem isEnclosed_sample : sample.IsEnclosed :=
  ⟨by decide +kernel, by decide +kernel, by decide +kernel, by decide +kernel, by decide +kernel⟩

theorem isUnused_sample {t : Tree} (h : t.find? ["t.tmp-1-2"] = none) :
    IsUnused sampleHost.mark sample.context.artifactPaths t := by
  have hbeside : (Path.withExtension ⟨"/t"⟩ sampleHost.mark).location = (["t.tmp-1-2"] : Location) := by
    decide +kernel
  constructor
  · decide +kernel
  · intro a ha bytes
    rw [artifactPaths_sample, List.mem_singleton] at ha
    rw [ha, hbeside, h]
    simp

theorem exists_ok_of_isSome {α : Type} {x : Except Error α × Tree}
    (h : x.1.toOption.isSome = true) : ∃ a, x = (.ok a, x.2) := by
  obtain ⟨result, t⟩ := x
  cases result with
  | error e => cases h
  | ok a => exact ⟨a, rfl⟩

/-- Two edits: of a file that is no source, and of the source. -/
theorem artifacts_stay_current_after_two_edits :
    ∃ (report : Report) (m₁ m₂ : Moment Unit),
      Action.on sampleHost.cwd (sample.generate sampleHost) (sampleTree .directory "a.md")
        = (.ok report, sampleRun (sampleTree .directory "a.md")) ∧
      sample.Advances sampleHost.cwd .detached
        ⟨sampleRun (sampleTree .directory "a.md"), (), report⟩ m₁ ∧
      sample.Advances sampleHost.cwd .detached m₁ m₂ ∧
      (∃ prepared, (∀ mark, Action.on sampleHost.cwd (sample.prepare ⟨sampleHost.cwd, mark⟩) m₂.tree
          = (.ok prepared, m₂.tree)) ∧
        ∀ a ∈ prepared.artifacts, m₂.tree.read sampleHost.cwd a.path = .ok a.content.toUTF8) ∧
      ∀ mark, ∃ again,
        Action.on sampleHost.cwd (sample.generate ⟨sampleHost.cwd, mark⟩) m₂.tree
            = (.ok again, m₂.tree) ∧
          again.hasChanges = false ∧ again.files = m₂.report.files ∧
          again.entries = m₂.report.entries ∧ again.collisions = m₂.report.collisions := by
  let t₀ := sampleTree .directory "a.md"
  let t₁ := sampleRun t₀
  let t₂ := (t₁.edit sampleHost.cwd (.write ⟨"/b"⟩ "x".toUTF8)).2
  let t₃ := (sampleAnswer ⟨"/b"⟩ t₂).2
  let t₄ := (t₃.edit sampleHost.cwd (.write ⟨"/a.md"⟩ "xxxxxxxxxx".toUTF8)).2
  let t₅ := (sampleAnswer ⟨"/a.md"⟩ t₄).2
  obtain ⟨report, hstart⟩ : ∃ report,
      Action.on sampleHost.cwd (sample.generate sampleHost) t₀ = (.ok report, t₁) :=
    exists_ok_of_isSome (by decide +kernel)
  obtain ⟨⟨outcome, _⟩, hfirst⟩ : ∃ answer, sampleAnswer ⟨"/b"⟩ t₂ = (.ok answer, t₃) :=
    exists_ok_of_isSome (by decide +kernel)
  obtain ⟨⟨outcome', _⟩, hsecond⟩ : ∃ answer, sampleAnswer ⟨"/a.md"⟩ t₄ = (.ok answer, t₅) :=
    exists_ok_of_isSome (by decide +kernel)
  have hedited : t₁.edit sampleHost.cwd (.write ⟨"/b"⟩ "x".toUTF8) = (.ok (), t₂) :=
    Prod.ext (by decide +kernel) rfl
  have hedited' : t₃.edit sampleHost.cwd (.write ⟨"/a.md"⟩ "xxxxxxxxxx".toUTF8) = (.ok (), t₄) :=
    Prod.ext (by decide +kernel) rfl
  have hproper : t₀.Proper := by decide +kernel
  have hfree : t₀.find? ["t.tmp-1-2"] = none ∧ t₂.find? ["t.tmp-1-2"] = none ∧
      t₄.find? ["t.tmp-1-2"] = none := by decide +kernel
  have hstep : sample.Advances sampleHost.cwd .detached ⟨t₁, (), report⟩
      ⟨t₃, (), outcome.report?.getD report⟩ :=
    .edit (by decide +kernel) (by decide +kernel) (.write _) hedited (isUnused_sample hfree.2.1) hfirst
  have hstep' : sample.Advances sampleHost.cwd .detached ⟨t₃, (), outcome.report?.getD report⟩
      ⟨t₅, (), outcome'.report?.getD (outcome.report?.getD report)⟩ :=
    .edit (by decide +kernel) (by decide +kernel) (.write _) hedited' (isUnused_sample hfree.2.2) hsecond
  refine ⟨report, _, _, hstart, hstep, hstep', ?_⟩
  exact artifacts_stay_current (by decide) ofConfig_sample isEnclosed_sample hproper
    (isUnused_sample hfree.1) hstart (.tail (.single hstep) hstep')

/-- Without the conditions on edits and on the names of the files beside, artifacts can get out of date,
or no run succeeds any more: a normal path may still try to leave the root directory, the root of the
project may be a file, and a source may have the name of a file beside. -/
theorem stale_without_conditions :
    ofConfig sampleHost ⟨"/r"⟩ sampleConfig = .ok sample ∧ sample.IsEnclosed ∧
    (let path : Path := ⟨"/../a.md"⟩
      let t₀ := sampleTree .directory "a.md"
      let edited := (sampleRun t₀).edit sampleHost.cwd (.write path "xxxxxxxxxx".toUTF8)
      let answered := sampleAnswer path edited.2
      t₀.Proper ∧ sampleChanges? t₀ = some true ∧
        path.isAbsolute = true ∧ path.normalize = path ∧ edited.1 = .ok () ∧
        answered.1 = .ok (.ignored, ()) ∧ sampleChanges? answered.2 = some true) ∧
    (let path : Path := ⟨"/r"⟩
      let t₀ := sampleTree (.file .empty) "a.md"
      let edited := (sampleRun t₀).edit sampleHost.cwd (.remove path)
      let answered := sampleAnswer path edited.2
      t₀.Proper ∧ sampleChanges? t₀ = some true ∧
        path.isAbsolute = true ∧ path.normalize = path ∧ edited.1 = .ok () ∧
        answered.1 = .ok (.ignored, ()) ∧ sampleChanges? answered.2 = none) ∧
    (sampleTree .directory "t.tmp-1-2").Proper ∧
    sampleChanges? (sampleTree .directory "t.tmp-1-2") = some true ∧
    sampleChanges? (sampleRun (sampleTree .directory "t.tmp-1-2")) = some true := by
  refine ⟨ofConfig_sample, isEnclosed_sample, ?_⟩
  decide +kernel

end Sample

end Pipeline

end TextCatalog
