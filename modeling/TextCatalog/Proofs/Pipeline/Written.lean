import TextCatalog.Proofs.Pipeline.Looks
import TextCatalog.Proofs.Pipeline.Settled

/-!
# What a run reports

A run reports of each artifact whether it was written. That is told by what stood in its file when its
turn came, and by what stood there before the run if no other artifact disturbs it.
-/

namespace TextCatalog

open Disk
open RawText (dot)

namespace Pipeline

variable {host : Host} {cwd : Path} {t t₀ t' : Tree} {as : List Artifact.Rendered}
  {ws : List Artifact.Written}

/-- When its turn comes, an artifact can be read just as before the run. -/
def IsUndisturbed (host : Host) (cwd : Path) (as : List Artifact.Rendered) (t : Tree) : Prop :=
  ∀ before a after ws t', as = before ++ a :: after →
    Action.on cwd (before.mapM (write host)) t = (.ok ws, t') →
      ∀ bytes, t'.read cwd a.path = .ok bytes ↔ t.read cwd a.path = .ok bytes

theorem isUndisturbed_of_distinct (ht : t.Proper) (habs : ∀ a ∈ as, a.path.isAbsolute = true)
    (hdots : ∀ a ∈ as, [dot, dot] ∉ a.path.pieces)
    (hapart : as.Pairwise fun a b => b.path.location ≠ a.path.location ∧
      b.path.location ≠ (a.path.withExtension host.mark).location) :
    IsUndisturbed host cwd as t := by
  rintro before a after ws t' rfl hbefore bytes
  obtain ⟨-, -, hfar⟩ := List.pairwise_append.1 hapart
  have hchanges := (read_of_on_mapM_write ht
    (fun b hb => habs b (List.mem_append_left _ hb)) hbefore).1
  have hmem : a ∈ before ++ a :: after := by simp
  refine hchanges.read_eq_ok_iff ht (habs a hmem) ?_ (hdots a hmem)
  rintro ⟨b, hb, heq | heq⟩
  · exact (hfar b hb a (by simp)).1 heq
  · exact (hfar b hb a (by simp)).2 heq

/-- Whether the file of an artifact holds its text. -/
def isCurrent (cwd : Path) (t : Tree) (a : Artifact.Rendered) : Bool :=
  t.read cwd a.path = .ok a.content.toUTF8

theorem isCurrent_iff {a : Artifact.Rendered} :
    isCurrent cwd t a = true ↔ t.read cwd a.path = .ok a.content.toUTF8 :=
  decide_eq_true_iff

/-- What a run reports of an artifact that is written unless it is current. -/
def written (cwd : Path) (t : Tree) (a : Artifact.Rendered) : Artifact.Written :=
  ⟨a.kind, a.path, !isCurrent cwd t a⟩

theorem on_write_eq_ok {a : Artifact.Rendered} {w : Artifact.Written}
    (h : Action.on cwd (write host a) t = (.ok w, t')) :
    w = written cwd t a ∧ (w.changed = false → t' = t) := by
  obtain ⟨hkind, hpath, hupdate⟩ := update_of_on_write h
  obtain ⟨kind, path, changed⟩ := w
  obtain rfl : kind = a.kind := hkind
  obtain rfl : path = a.path := hpath
  rw [written]
  rcases update_cases hupdate with ⟨hchanged, rfl, hread⟩ | ⟨hchanged, hread, -⟩
  · rw [isCurrent_iff.2 hread]
    exact ⟨congrArg _ hchanged, fun _ => rfl⟩
  · have hstale : isCurrent cwd t a = false := by
      rw [← Bool.not_eq_true, isCurrent_iff]
      exact hread
    rw [hstale]
    exact ⟨congrArg _ hchanged, fun hunchanged => by cases hchanged.symm.trans hunchanged⟩

/-- Every artifact is written that was not current before the run. -/
theorem written_of_isUndisturbed
    (hsame : ∀ before a after ws t', as = before ++ a :: after →
      Action.on cwd (before.mapM (write host)) t = (.ok ws, t') →
        ∀ bytes, t'.read cwd a.path = .ok bytes ↔ t₀.read cwd a.path = .ok bytes)
    (h : Action.on cwd (as.mapM (write host)) t = (.ok ws, t')) : ws = as.map (written cwd t₀) := by
  -- The tree `t` goes on with each artifact, and all of them are compared with the one before the run.
  induction as generalizing t ws with
  | nil =>
    exact (Action.of_on_mapM_nil_eq_ok h).1
  | cons a as ih =>
    obtain ⟨w, t₁, ws', hfirst, hrest, rfl⟩ := Action.of_on_mapM_cons_eq_ok h
    have hcurrent : isCurrent cwd t a = isCurrent cwd t₀ a := by
      rw [Bool.eq_iff_iff, isCurrent_iff, isCurrent_iff]
      exact hsame [] a as [] t rfl rfl a.content.toUTF8
    rw [List.map_cons, (on_write_eq_ok hfirst).1, written, hcurrent, ← written, ih ?_ hrest]
    intro before b after ws'' t'' hsplit hbefore
    refine hsame (a :: before) b after (w :: ws'') t'' (by rw [hsplit, List.cons_append]) ?_
    rw [Action.on_mapM_cons, Action.on_bind_of_ok hfirst, Action.on_bind_of_ok hbefore, Action.on_pure]

/-- A run that writes nothing has found every artifact current. -/
theorem isCurrent_of_unchanged (h : Action.on cwd (as.mapM (write host)) t = (.ok ws, t'))
    (hws : ∀ w ∈ ws, w.changed = false) : ∀ a ∈ as, isCurrent cwd t a = true := by
  induction as generalizing t ws with
  | nil => simp
  | cons a as ih =>
    obtain ⟨w, t₁, ws', hfirst, hrest, rfl⟩ := Action.of_on_mapM_cons_eq_ok h
    obtain ⟨hw, hws⟩ := List.forall_mem_cons.1 hws
    obtain ⟨hwritten, htree⟩ := on_write_eq_ok hfirst
    obtain rfl := htree hw
    refine List.forall_mem_cons.2 ⟨?_, ih hrest hws⟩
    rw [hwritten] at hw
    simpa [written] using hw

/-- A run prepares, leaves the tree alone until then, and writes what it reports. -/
theorem exists_prepared {p : Pipeline} {report : Report}
    (h : Action.on host.cwd (p.generate host) t = (.ok report, t')) :
    ∃ prepared, Action.on host.cwd (p.prepare host) t = (.ok prepared, t) ∧
      Action.on host.cwd (prepared.artifacts.mapM (write host)) t = (.ok report.artifacts, t') ∧
      prepared.artifacts.map (·.path) = p.context.artifactPaths := by
  obtain ⟨prepared, t₁, hprepare, hwritten, -⟩ := of_on_generate_eq_ok h
  obtain ⟨result, hlooks⟩ := Action.exists_on_of_looks (p.looks_prepare host) host.cwd t
  obtain ⟨-, rfl⟩ := Prod.mk.inj (hlooks.symm.trans hprepare)
  exact ⟨prepared, hprepare, hwritten, map_path_of_on_prepare hprepare⟩

/-- The artifacts are files of their own: whatever has been prepared, none of them is disturbed. -/
def KeepsApart (p : Pipeline) (host : Host) (t : Tree) : Prop :=
  ∀ prepared, Action.on host.cwd (p.prepare host) t = (.ok prepared, t) →
    IsUndisturbed host host.cwd prepared.artifacts t

theorem keepsApart_of_distinct {p : Pipeline} (ht : t.Proper)
    (hpaths : ∀ a ∈ p.context.artifactPaths, a.isAbsolute = true ∧ [dot, dot] ∉ a.pieces)
    (hapart : p.context.artifactPaths.Pairwise fun a b =>
      b.location ≠ a.location ∧ b.location ≠ (a.withExtension host.mark).location) :
    p.KeepsApart host t := by
  intro prepared hprepare
  rw [← map_path_of_on_prepare hprepare] at hpaths hapart
  rw [List.pairwise_map] at hapart
  have hartifact : ∀ a ∈ prepared.artifacts, a.path.isAbsolute = true ∧ [dot, dot] ∉ a.path.pieces :=
    fun a ha => hpaths a.path (List.mem_map_of_mem ha)
  exact isUndisturbed_of_distinct ht (fun a ha => (hartifact a ha).1)
    (fun a ha => (hartifact a ha).2) hapart

end Pipeline

end TextCatalog
