import TextCatalog.CommandLine.Commands
import TextCatalog.Proofs.Disk.Run

/-!
# Runs of sessions

A session is run on what has been printed and on a tree. It stops at its first failure, with what has
been printed until then. One that only reads leaves the tree as it is.
-/

namespace TextCatalog

open Disk

namespace CommandLine.Session

variable {α β : Type} {cwd : Path} {σ : Session α} {f : α → Session β} {printed printed' : Printed}
  {t t' : Tree}

/-- What a session comes to, what has been printed by then, and the tree that it leaves. -/
def on (cwd : Path) (σ : Session α) (printed : Printed) (t : Tree) :
    (Except Stop α × Printed) × Tree :=
  (σ.run.run printed).run (Tree.perform cwd) t

@[simp]
theorem on_pure (x : α) : on cwd (pure x) printed t = ((.ok x, printed), t) := rfl

@[simp]
theorem on_throw (e : Stop) : on cwd (throw e : Session α) printed t = ((.error e, printed), t) := rfl

theorem on_bind_of_ok {x : α} (h : on cwd σ printed t = ((.ok x, printed'), t')) :
    on cwd (σ >>= f) printed t = on cwd (f x) printed' t' := by
  have hrun := Script.run_bind (Tree.perform cwd) (σ.run.run printed)
    (fun r => (ExceptT.bindCont f r.1).run r.2) t
  rw [on] at h
  rw [h] at hrun
  exact hrun

theorem on_bind_of_error {e : Stop} (h : on cwd σ printed t = ((.error e, printed'), t')) :
    on cwd (σ >>= f) printed t = ((.error e, printed'), t') := by
  have hrun := Script.run_bind (Tree.perform cwd) (σ.run.run printed)
    (fun r => (ExceptT.bindCont f r.1).run r.2) t
  rw [on] at h
  rw [h] at hrun
  exact hrun

theorem of_on_bind_eq_ok {y : β} (h : on cwd (σ >>= f) printed t = ((.ok y, printed'), t')) :
    ∃ x printed₁ t₁, on cwd σ printed t = ((.ok x, printed₁), t₁) ∧
      on cwd (f x) printed₁ t₁ = ((.ok y, printed'), t') := by
  rcases hσ : on cwd σ printed t with ⟨⟨e | x, printed₁⟩, t₁⟩
  · rw [on_bind_of_error hσ] at h
    cases h
  · rw [on_bind_of_ok hσ] at h
    exact ⟨x, printed₁, t₁, rfl, h⟩

@[simp]
theorem on_printLine (s : String) :
    on cwd (printLine s) printed t = ((.ok (), { printed with out := printed.out ++ (s ++ "\n") }), t) :=
  rfl

@[simp]
theorem on_printError (s : String) :
    on cwd (printError s) printed t = ((.ok (), { printed with err := printed.err ++ s }), t) := rfl

@[simp]
theorem on_printErrorLine (s : String) :
    on cwd (printErrorLine s) printed t
      = ((.ok (), { printed with err := printed.err ++ (s ++ "\n") }), t) := rfl

theorem on_disk (s : Script α) :
    on cwd (disk s) printed t
      = ((.ok (s.run (Tree.perform cwd) t).1, printed), (s.run (Tree.perform cwd) t).2) := by
  have hstate := Script.run_bind (Tree.perform cwd) s (fun a => .done (a, printed)) t
  have hrun := Script.run_bind (Tree.perform cwd) (s.bind fun a => .done (a, printed))
    (fun r => .done ((.ok r.1 : Except Stop α), r.2)) t
  rw [hstate] at hrun
  exact hrun

theorem on_work_of_ok {a : Action α} {x : α} (h : Action.on cwd a t = (.ok x, t')) :
    on cwd (work a) printed t = ((.ok x, printed), t') := by
  rw [work, on_bind_of_ok (on_disk a.run)]
  rw [Action.on] at h
  rw [h]
  rfl

theorem on_work_of_error {a : Action α} {e : Error} (h : Action.on cwd a t = (.error e, t')) :
    on cwd (work a) printed t = ((.error (.failed e), printed), t') := by
  rw [work, on_bind_of_ok (on_disk a.run)]
  rw [Action.on] at h
  rw [h]
  rfl

theorem of_on_work_eq_ok {a : Action α} {x : α}
    (h : on cwd (work a) printed t = ((.ok x, printed'), t')) : Action.on cwd a t = (.ok x, t') := by
  rcases ha : Action.on cwd a t with ⟨e | x', t₁⟩
  · rw [on_work_of_error ha] at h
    cases h
  · rw [on_work_of_ok ha] at h
    cases h
    rfl

theorem on_plainly_of_ok {s : Script (Except Cause α)} {x : α}
    (h : s.run (Tree.perform cwd) t = (.ok x, t')) :
    on cwd (plainly s) printed t = ((.ok x, printed), t') := by
  rw [plainly, on_bind_of_ok (on_disk s), h]
  rfl

theorem on_plainly_of_error {s : Script (Except Cause α)} {cause : Cause}
    (h : s.run (Tree.perform cwd) t = (.error cause, t')) :
    on cwd (plainly s) printed t = ((.error (.troubled cause.message), printed), t') := by
  rw [plainly, on_bind_of_ok (on_disk s), h]
  rfl

theorem on_forM_cons (f : α → Session Unit) (x : α) (xs : List α) :
    on cwd ((x :: xs).forM f) printed t = on cwd (do f x; xs.forM f) printed t := rfl

theorem run_result (palette : Palette) (σ : Session α) :
    (Result.run palette σ).run (Tree.perform cwd) t
      = (Result.ofSession palette (on cwd σ ⟨"", ""⟩ t).1, (on cwd σ ⟨"", ""⟩ t).2) :=
  Script.run_bind _ _ _ _

theorem exit_ne_zero_of_error {palette : Palette} {e : Stop} :
    (Result.ofSession palette ((.error e : Except Stop α), printed)).exit ≠ 0 := by
  cases e <;> simp [Result.ofSession]

section Prints

/-- A session that prints and does nothing else. -/
def Prints (σ : Session Unit) : Prop :=
  ∀ cwd printed t, ∃ printed', on cwd σ printed t = ((.ok (), printed'), t)

theorem prints_pure : (pure () : Session Unit).Prints :=
  fun _ _ _ => ⟨_, rfl⟩

theorem prints_printLine (s : String) : (printLine s).Prints :=
  fun _ _ _ => ⟨_, rfl⟩

theorem Prints.bind {σ : Session Unit} {f : Unit → Session Unit} (hσ : σ.Prints)
    (hf : (f ()).Prints) : (σ >>= f).Prints := by
  intro cwd printed t
  obtain ⟨printed₁, hσ⟩ := hσ cwd printed t
  obtain ⟨printed₂, hf⟩ := hf cwd printed₁ t
  exact ⟨printed₂, by rw [on_bind_of_ok hσ, hf]⟩

theorem prints_forM {f : α → Session Unit} (h : ∀ x, (f x).Prints) (xs : List α) :
    (xs.forM f).Prints := by
  induction xs with
  | nil => exact prints_pure
  | cons x xs ih => exact (h x).bind ih

end Prints

section Looks

/-- A session that only looks at the disk. -/
def Looks (σ : Session α) : Prop :=
  ∀ printed, (σ.run.run printed).Asks Op.Looks

theorem Looks.exists_on (h : σ.Looks) (cwd : Path) (printed : Printed) (t : Tree) :
    ∃ result printed', on cwd σ printed t = ((result, printed'), t) :=
  ⟨_, _, Prod.ext rfl (h printed).tree_eq⟩

theorem looks_pure (x : α) : (pure x : Session α).Looks :=
  fun _ => .done _

theorem looks_throw (e : Stop) : (throw e : Session α).Looks :=
  fun _ => .done _

theorem Looks.bind (hσ : σ.Looks) (hf : ∀ x, (f x).Looks) : (σ >>= f).Looks := by
  intro printed
  refine (hσ printed).bind fun ⟨result, printed'⟩ => ?_
  cases result with
  | ok x => exact hf x printed'
  | error e => exact .done _

theorem looks_printLine (s : String) : (printLine s).Looks :=
  fun _ => .done _

theorem looks_printError (s : String) : (printError s).Looks :=
  fun _ => .done _

theorem looks_printErrorLine (s : String) : (printErrorLine s).Looks :=
  looks_printError (s ++ "\n")

theorem looks_forM {f : α → Session Unit} (h : ∀ x, (f x).Looks) (xs : List α) :
    (xs.forM f).Looks := by
  induction xs with
  | nil => exact looks_pure ()
  | cons x xs ih => exact (h x).bind fun _ => ih

theorem looks_disk {s : Script α} (h : s.Asks Op.Looks) : (disk s).Looks :=
  fun _ => (h.bind fun _ => .done _).bind fun _ => .done _

theorem looks_work {a : Action α} (h : a.run.Asks Op.Looks) : (work a).Looks :=
  (looks_disk h).bind fun result => by
    cases result with
    | ok x => exact looks_pure x
    | error e => exact looks_throw (.failed e)

theorem looks_plainly {s : Script (Except Cause α)} (h : s.Asks Op.Looks) : (plainly s).Looks :=
  (looks_disk h).bind fun result => by
    cases result with
    | ok x => exact looks_pure x
    | error cause => exact looks_throw (.troubled cause.message)

end Looks

end CommandLine.Session

end TextCatalog
