import TextCatalog.Proofs.Disk.Run

/-!
# Disks on which operations fail

On a faulty disk any operation may fail, whatever stands on the disk, and it leaves the tree as it is
then. A script ensures something on a tree if it holds however the operations fail: of every tree on the
way, and of the result and the tree at the end.
-/

namespace TextCatalog

namespace Disk

/-- A tree, and for each operation to come whether it fails and why. -/
structure Faulty where
  tree : Tree
  faults : List (Option Cause)

namespace Faulty

/-- Why the operation fails that comes next, if it fails. No file is kept from being removed. -/
def fault? (d : Faulty) : Op → Option Cause
  | .remove _ => none
  | _ => d.faults.head?.join

def perform (cwd : Path) (op : Op) (d : Faulty) : Except Cause op.Answer × Faulty :=
  match d.fault? op with
  | some cause => (.error cause, ⟨d.tree, d.faults.tail⟩)
  | none => ((d.tree.perform cwd op).1, ⟨(d.tree.perform cwd op).2, d.faults.tail⟩)

variable {cwd : Path} {t : Tree} {faults : List (Option Cause)}

theorem perform_cases (op : Op) :
    (∃ cause, perform cwd op ⟨t, faults⟩ = (.error cause, ⟨t, faults.tail⟩)) ∨
      perform cwd op ⟨t, faults⟩ = ((t.perform cwd op).1, ⟨(t.perform cwd op).2, faults.tail⟩) := by
  rw [perform]
  cases fault? ⟨t, faults⟩ op with
  | some cause => exact .inl ⟨cause, rfl⟩
  | none => exact .inr rfl

theorem perform_remove (p : Path) :
    perform cwd (.remove p) ⟨t, faults⟩
      = ((t.perform cwd (.remove p)).1, ⟨(t.perform cwd (.remove p)).2, faults.tail⟩) := rfl

end Faulty

namespace Script

variable {α β σ : Type}

/-- The states behind each operation of a run. -/
def trail (perform : (op : Op) → σ → Except Cause op.Answer × σ) : Script α → σ → List σ
  | done _, _ => []
  | step op next, state =>
    (perform op state).2 :: trail perform (next (perform op state).1) (perform op state).2

theorem trail_bind (perform : (op : Op) → σ → Except Cause op.Answer × σ) (s : Script α)
    (f : α → Script β) (state : σ) :
    (s.bind f).trail perform state = s.trail perform state ++
      (f (s.run perform state).1).trail perform (s.run perform state).2 := by
  induction s generalizing state with
  | done a => rfl
  | step op next ih => exact congrArg (_ :: ·) (ih _ _)

/-- However operations fail in a run on the tree `t`, `during` holds of every tree on the way and `after`
of the result and the tree at the end. -/
def Ensures (cwd : Path) (s : Script α) (t : Tree) (during : Tree → Prop)
    (after : α → Tree → Prop) : Prop :=
  ∀ faults, (∀ d ∈ s.trail (Faulty.perform cwd) ⟨t, faults⟩, during d.tree) ∧
    after (s.run (Faulty.perform cwd) ⟨t, faults⟩).1 (s.run (Faulty.perform cwd) ⟨t, faults⟩).2.tree

namespace Ensures

variable {cwd : Path} {t : Tree} {during during' : Tree → Prop} {after after' : α → Tree → Prop}
  {op : Op} {next : Except Cause op.Answer → Script α}

theorem done {a : α} (h : after a t) : (Script.done a).Ensures cwd t during after :=
  fun _ => ⟨by simp [trail], h⟩

theorem step (ht : during t) (hop : during (t.perform cwd op).2)
    (hfault : ∀ cause, (next (.error cause)).Ensures cwd t during after)
    (hnext : (next (t.perform cwd op).1).Ensures cwd (t.perform cwd op).2 during after) :
    (Script.step op next).Ensures cwd t during after := by
  intro faults
  rw [trail, run_step, List.forall_mem_cons]
  have hperform := @Faulty.perform_cases cwd t faults op
  rcases hperform with ⟨cause, heq⟩ | heq
  · rw [heq]
    obtain ⟨htrail, hlast⟩ := hfault cause faults.tail
    exact ⟨⟨ht, htrail⟩, hlast⟩
  · rw [heq]
    obtain ⟨htrail, hlast⟩ := hnext faults.tail
    exact ⟨⟨hop, htrail⟩, hlast⟩

theorem remove {p : Path} {next : Except Cause (Op.remove p).Answer → Script α}
    (hop : during (t.perform cwd (.remove p)).2)
    (hnext : (next (t.perform cwd (.remove p)).1).Ensures cwd (t.perform cwd (.remove p)).2 during after) :
    (Script.step (.remove p) next).Ensures cwd t during after := by
  intro faults
  rw [trail, run_step, List.forall_mem_cons, Faulty.perform_remove]
  obtain ⟨htrail, hlast⟩ := hnext faults.tail
  exact ⟨⟨hop, htrail⟩, hlast⟩

theorem bind {s : Script α} {f : α → Script β} {last : β → Tree → Prop}
    (hs : s.Ensures cwd t during after)
    (hf : ∀ a t', after a t' → (f a).Ensures cwd t' during last) :
    (s.bind f).Ensures cwd t during last := by
  intro faults
  obtain ⟨htrail, hafter⟩ := hs faults
  obtain ⟨htrail', hlast⟩ := hf _ _ hafter (s.run (Faulty.perform cwd) ⟨t, faults⟩).2.faults
  rw [trail_bind, run_bind, List.forall_mem_append]
  exact ⟨⟨htrail, htrail'⟩, hlast⟩

theorem mono {s : Script α} (hs : s.Ensures cwd t during after)
    (hduring : ∀ t', during t' → during' t') (hafter : ∀ a t', after a t' → after' a t') :
    s.Ensures cwd t during' after' :=
  fun faults => ⟨fun d hd => hduring _ ((hs faults).1 d hd), hafter _ _ (hs faults).2⟩

end Ensures

/-- A relation that the operations of a script respect holds of every tree that a run reaches. -/
theorem Asks.ensures {allowed : Op → Prop} {s : Script α} (hs : s.Asks allowed) {cwd : Path}
    {R : Tree → Tree → Prop} (hrefl : ∀ t, R t t)
    (htrans : ∀ {t t' t'' : Tree}, R t t' → R t' t'' → R t t'')
    (hperform : ∀ op, allowed op → ∀ t, R t (t.perform cwd op).2) (t : Tree) :
    s.Ensures cwd t (R t) fun _ => R t := by
  induction hs generalizing t with
  | done a => exact .done (hrefl t)
  | @step op next hop _ ih =>
    have hreached : R t (t.perform cwd op).2 := hperform op hop t
    refine .step (hrefl t) hreached (fun cause => ih _ t) ?_
    exact (ih _ _).mono (fun _ => htrans hreached) fun _ _ => htrans hreached

theorem Asks.ensures_eq {s : Script α} (hs : s.Asks Op.Looks) (cwd : Path) (t : Tree) :
    s.Ensures cwd t (· = t) fun _ t' => t' = t :=
  hs.ensures (R := fun t t' => t' = t) (fun _ => rfl) (fun h h' => h'.trans h)
    (fun _ hop t => hop.tree_eq cwd t) t

/-- What a script ensures holds where no operation fails. -/
theorem Ensures.run {s : Script α} {cwd : Path} {t : Tree} {during : Tree → Prop}
    {after : α → Tree → Prop} (h : s.Ensures cwd t during after) :
    after (s.run (Tree.perform cwd) t).1 (s.run (Tree.perform cwd) t).2 := by
  have hrun : ∀ {s : Script α} {t : Tree}, s.run (Faulty.perform cwd) ⟨t, []⟩
      = ((s.run (Tree.perform cwd) t).1, ⟨(s.run (Tree.perform cwd) t).2, []⟩) := by
    intro s
    induction s with
    | done a => exact rfl
    | step op next ih =>
      intro t
      rw [run_step, run_step, ← ih]
      cases op <;> rfl
  have hafter := (h []).2
  rwa [hrun] at hafter

end Script

end Disk

namespace Action

open Disk

variable {α β : Type} {cwd : Path} {d d' : Faulty}

/-- What an action gives on a faulty disk, and the disk that it leaves. -/
def onFaulty (cwd : Path) (a : Action α) (d : Faulty) : Except Error α × Faulty :=
  a.run.run (Faulty.perform cwd) d

/-- The disk behind each operation of the action. -/
def trail (cwd : Path) (a : Action α) (d : Faulty) : List Faulty :=
  a.run.trail (Faulty.perform cwd) d

/-- What is ensured holds of what a faulty disk gives. -/
theorem of_onFaulty {a : Action α} {result : Except Error α}
    {during : Tree → Prop} {after : Except Error α → Tree → Prop}
    (hensures : a.run.Ensures cwd d.tree during after) (h : onFaulty cwd a d = (result, d')) :
    (∀ u ∈ trail cwd a d, during u.tree) ∧ after result d'.tree := by
  obtain ⟨htrail, hafter⟩ := hensures d.faults
  change after (onFaulty cwd a d).1 (onFaulty cwd a d).2.tree at hafter
  rw [h] at hafter
  exact ⟨htrail, hafter⟩

theorem onFaulty_bind_of_ok {a : Action α} {f : α → Action β} {x : α}
    (h : onFaulty cwd a d = (.ok x, d')) : onFaulty cwd (a >>= f) d = onFaulty cwd (f x) d' :=
  run_bind_of_ok h

theorem onFaulty_bind_of_error {a : Action α} {f : α → Action β} {e : Error}
    (h : onFaulty cwd a d = (.error e, d')) : onFaulty cwd (a >>= f) d = (.error e, d') :=
  run_bind_of_error h

theorem trail_bind_of_ok {a : Action α} {f : α → Action β} {x : α}
    (h : onFaulty cwd a d = (.ok x, d')) :
    trail cwd (a >>= f) d = trail cwd a d ++ trail cwd (f x) d' := by
  have htrail := Script.trail_bind (Faulty.perform cwd) a.run (ExceptT.bindCont f) d
  rw [show a.run.run (Faulty.perform cwd) d = (.ok x, d') from h] at htrail
  exact htrail

theorem trail_bind_of_error {a : Action α} {f : α → Action β} {e : Error}
    (h : onFaulty cwd a d = (.error e, d')) : trail cwd (a >>= f) d = trail cwd a d := by
  have htrail := Script.trail_bind (Faulty.perform cwd) a.run (ExceptT.bindCont f) d
  rw [show a.run.run (Faulty.perform cwd) d = (.error e, d') from h] at htrail
  exact htrail.trans (List.append_nil _)

theorem ensures_bind {t : Tree} {during : Tree → Prop}
    {middle : Except Error α → Tree → Prop} {last : Except Error β → Tree → Prop} {a : Action α}
    {f : α → Action β} (ha : a.run.Ensures cwd t during middle)
    (hok : ∀ x t', middle (.ok x) t' → (f x).run.Ensures cwd t' during last)
    (herror : ∀ e t', middle (.error e) t' → last (.error e) t') :
    (a >>= f).run.Ensures cwd t during last :=
  ha.bind fun result t' hmiddle => by
    cases result with
    | ok x => exact hok x t' hmiddle
    | error e => exact .done (herror e t' hmiddle)

end Action

end TextCatalog
