import Mathlib.Data.List.Basic
import TextCatalog.Disk.File
import TextCatalog.Disk.Tree
import TextCatalog.Proofs.Text.Bytes

/-!
# Runs of scripts

What a script leaves of a tree follows from what each of its operations leaves of one. An action that
is run on a tree stops at its first error and keeps the tree that it has reached.
-/

namespace TextCatalog

namespace Disk.Script

variable {α β σ : Type}

/-- Whatever the answers are, the script asks for such operations only. -/
inductive Asks (allowed : Op → Prop) : Script α → Prop
  | done (a : α) : Asks allowed (.done a)
  | step {op : Op} {next : Except Cause op.Answer → Script α} (hop : allowed op)
      (hnext : ∀ answer, Asks allowed (next answer)) : Asks allowed (.step op next)

theorem Asks.bind {allowed : Op → Prop} {s : Script α} {f : α → Script β} (hs : s.Asks allowed)
    (hf : ∀ a, (f a).Asks allowed) : (s.bind f).Asks allowed := by
  induction hs with
  | done a => exact hf a
  | step hop _ ih => exact .step hop ih

instance : LawfulMonad Script :=
  LawfulMonad.mk' Script
    (fun s => by
      change Script.bind s (fun a => .done a) = s
      induction s with
      | done a => rfl
      | step op next ih => exact congrArg (Script.step op) (funext ih))
    (fun _ _ => rfl)
    (fun s f g => by
      change Script.bind (Script.bind s f) g = Script.bind s fun a => Script.bind (f a) g
      induction s with
      | done a => rfl
      | step op next ih => exact congrArg (Script.step op) (funext ih))

theorem run_step (perform : (op : Op) → σ → Except Cause op.Answer × σ) (op : Op)
    (next : Except Cause op.Answer → Script α) (state : σ) :
    (step op next).run perform state
      = (next (perform op state).1).run perform (perform op state).2 := rfl

/-- A relation that every operation respects holds between the two ends of a run. -/
theorem Asks.run {allowed : Op → Prop} {s : Script α} (hs : s.Asks allowed)
    {perform : (op : Op) → σ → Except Cause op.Answer × σ} {R : σ → σ → Prop}
    (hrefl : ∀ state, R state state)
    (htrans : ∀ {state middle final}, R state middle → R middle final → R state final)
    (hperform : ∀ op, allowed op → ∀ state, R state (perform op state).2) (state : σ) :
    R state (s.run perform state).2 := by
  induction hs generalizing state with
  | done a => exact hrefl state
  | step hop _ ih => exact htrans (hperform _ hop state) (ih _ _)

end Disk.Script

section Looks

namespace Disk

def Op.Looks : Op → Prop
  | kind _ | below _ | read _ => True
  | makeDirectory _ | write _ _ | rename _ _ | remove _ => False

theorem Op.Looks.tree_eq {op : Op} (h : op.Looks) (cwd : Path) (t : Tree) :
    (Tree.perform cwd op t).2 = t := by
  cases op with
  | kind | below | read => rfl
  | makeDirectory | write | rename | remove => exact h.elim

theorem Script.Asks.tree_eq {α : Type} {s : Script α} (h : s.Asks Op.Looks) {cwd : Path} {t : Tree} :
    (s.run (Tree.perform cwd) t).2 = t :=
  (h.run (R := Eq) (fun _ => rfl) Eq.trans (fun _ hop t => (hop.tree_eq cwd t).symm) t).symm

end Disk

end Looks

section Kinds

namespace Disk

theorem run_kind? (cwd : Path) (t : Tree) (p : Path) :
    (kind? p).run (Tree.perform cwd) t = ((t.node cwd p).toOption.map Node.kind, t) := by
  rw [kind?, Script.run_step]
  dsimp only [Tree.perform]
  cases t.node cwd p <;> rfl

theorem run_isKind (cwd : Path) (t : Tree) (p : Path) (kind : Kind) :
    ∃ there, (do return (← kind? p) = some kind : Script Bool).run (Tree.perform cwd) t = (there, t) ∧
      (there = true ↔ ∃ node, t.node cwd p = .ok node ∧ node.kind = kind) := by
  have hrun : (do return (← kind? p) = some kind : Script Bool).run (Tree.perform cwd) t = _ :=
    Script.run_bind (Tree.perform cwd) (kind? p) _ t
  rw [hrun, run_kind?]
  refine ⟨_, rfl, ?_⟩
  cases t.node cwd p <;> simp [Except.toOption]

theorem run_isFile (cwd : Path) (t : Tree) (p : Path) :
    ∃ there, (isFile p).run (Tree.perform cwd) t = (there, t) ∧
      (there = true ↔ ∃ bytes, t.node cwd p = .ok (.file bytes)) := by
  obtain ⟨there, hrun, hthere⟩ := run_isKind cwd t p .file
  refine ⟨there, hrun, hthere.trans ⟨?_, ?_⟩⟩
  · rintro ⟨_ | _ | _, h, hkind⟩
    case file bytes => exact ⟨bytes, h⟩
    all_goals cases hkind
  · rintro ⟨bytes, h⟩
    exact ⟨_, h, rfl⟩

theorem run_isDirectory (cwd : Path) (t : Tree) (p : Path) :
    ∃ there, (isDirectory p).run (Tree.perform cwd) t = (there, t) ∧
      (there = true ↔ t.node cwd p = .ok .directory) := by
  obtain ⟨there, hrun, hthere⟩ := run_isKind cwd t p .directory
  refine ⟨there, hrun, hthere.trans ⟨?_, fun h => ⟨_, h, rfl⟩⟩⟩
  rintro ⟨_ | _ | _, h, hkind⟩
  case directory => exact h
  all_goals cases hkind

end Disk

end Kinds

section Texts

namespace Disk

variable {cwd p : Path} {t : Tree} {text : String}

/-- The text of the file at a path. -/
def textAt (cwd : Path) (t : Tree) (p : Path) : Except Cause String :=
  match t.read cwd p with
  | .ok bytes =>
    match String.fromUTF8? bytes with
    | some text => .ok text
    | none => .error .notText
  | .error cause => .error cause

theorem run_readText (cwd : Path) (t : Tree) (p : Path) :
    (readText p).run (Tree.perform cwd) t = (textAt cwd t p, t) := by
  rw [readText, Script.run_step, textAt]
  dsimp only [Tree.perform]
  cases t.read cwd p with
  | error cause => rfl
  | ok bytes =>
    dsimp only
    cases String.fromUTF8? bytes <;> rfl

theorem textAt_eq_ok_iff : textAt cwd t p = .ok text ↔ t.read cwd p = .ok text.toUTF8 := by
  rw [textAt]
  cases t.read cwd p with
  | error cause => simp
  | ok bytes =>
    dsimp only
    rw [Except.ok.injEq, ← Text.fromUTF8?_eq_some_iff]
    cases String.fromUTF8? bytes <;> simp

theorem textAt_eq_notFound_iff :
    textAt cwd t p = .error .notFound ↔ t.read cwd p = .error .notFound := by
  rw [textAt]
  cases t.read cwd p with
  | error cause => simp
  | ok bytes =>
    dsimp only
    cases String.fromUTF8? bytes <;> simp

end Disk

end Texts

namespace Action

open Disk

variable {α β : Type}

section Performed

variable {σ : Type} {perform : (op : Op) → σ → Except Cause op.Answer × σ} {state state' : σ}

theorem run_bind_of_ok {a : Action α} {f : α → Action β} {x : α}
    (h : a.run.run perform state = (.ok x, state')) :
    (a >>= f).run.run perform state = (f x).run.run perform state' := by
  have hrun := Script.run_bind perform a.run (ExceptT.bindCont f) state
  rw [h] at hrun
  exact hrun

theorem run_bind_of_error {a : Action α} {f : α → Action β} {e : Error}
    (h : a.run.run perform state = (.error e, state')) :
    (a >>= f).run.run perform state = (.error e, state') := by
  have hrun := Script.run_bind perform a.run (ExceptT.bindCont f) state
  rw [h] at hrun
  exact hrun

theorem run_ofScript (error : Cause → Error) (s : Script (Except Cause α)) :
    (ofScript error s).run.run perform state
      = ((s.run perform state).1.mapError error, (s.run perform state).2) := by
  rw [ofScript]
  exact Script.run_bind _ _ _ _

end Performed

theorem asks_bind {allowed : Op → Prop} {a : Action α} {f : α → Action β}
    (ha : a.run.Asks allowed) (hf : ∀ x, (f x).run.Asks allowed) : (a >>= f).run.Asks allowed :=
  ha.bind fun result => by
    cases result with
    | ok x => exact hf x
    | error e => exact .done _

theorem asks_ask {allowed : Op → Prop} (error : Cause → Error) {op : Op} (hop : allowed op) :
    (ask error op).run.Asks allowed :=
  .step hop fun _ => .done _

theorem asks_ofScript {allowed : Op → Prop} (error : Cause → Error) {s : Script (Except Cause α)}
    (hs : s.Asks allowed) : (ofScript error s).run.Asks allowed :=
  hs.bind fun _ => .done _

theorem asks_lift {allowed : Op → Prop} {s : Script α} (hs : s.Asks allowed) :
    (liftM s : Action α).run.Asks allowed :=
  hs.bind fun _ => .done _

/-- What an action gives on a tree, and the tree that it leaves. -/
def on (cwd : Path) (a : Action α) (t : Tree) : Except Error α × Tree :=
  a.run.run (Tree.perform cwd) t

variable {cwd : Path} {t : Tree}

theorem exists_on_of_looks {a : Action α} (h : a.run.Asks Op.Looks) (cwd : Path) (t : Tree) :
    ∃ result, on cwd a t = (result, t) :=
  ⟨_, Prod.ext rfl h.tree_eq⟩

@[simp]
theorem on_pure (x : α) : on cwd (pure x : Action α) t = (.ok x, t) := rfl

theorem on_bind_of_ok {a : Action α} {f : α → Action β} {x : α} {t' : Tree}
    (h : on cwd a t = (.ok x, t')) : on cwd (a >>= f) t = on cwd (f x) t' :=
  run_bind_of_ok h

theorem on_bind_of_error {a : Action α} {f : α → Action β} {e : Error} {t' : Tree}
    (h : on cwd a t = (.error e, t')) : on cwd (a >>= f) t = (.error e, t') :=
  run_bind_of_error h

theorem of_on_bind_eq_ok {a : Action α} {f : α → Action β} {y : β} {t'' : Tree}
    (h : on cwd (a >>= f) t = (.ok y, t'')) :
    ∃ x t', on cwd a t = (.ok x, t') ∧ on cwd (f x) t' = (.ok y, t'') := by
  rcases ha : on cwd a t with ⟨e | x, t'⟩
  · rw [on_bind_of_error ha] at h
    cases h
  · rw [on_bind_of_ok ha] at h
    exact ⟨x, t', rfl, h⟩

theorem of_on_bind_pure_eq_ok {a : Action α} {f : α → β} {y : β} {t' : Tree}
    (h : on cwd (a >>= fun x => pure (f x)) t = (.ok y, t')) :
    ∃ x, on cwd a t = (.ok x, t') ∧ y = f x := by
  obtain ⟨x, t₁, ha, hlast⟩ := of_on_bind_eq_ok h
  rw [on_pure, Prod.mk.injEq, Except.ok.injEq] at hlast
  obtain ⟨rfl, rfl⟩ := hlast
  exact ⟨x, ha, rfl⟩

theorem on_ofExcept (result : Except Error α) : on cwd (ofExcept result) t = (result, t) := rfl

theorem on_ask (error : Cause → Error) (op : Op) :
    on cwd (ask error op) t
      = ((Tree.perform cwd op t).1.mapError error, (Tree.perform cwd op t).2) := rfl

theorem on_ofScript (error : Cause → Error) (s : Script (Except Cause α)) :
    on cwd (ofScript error s) t
      = ((s.run (Tree.perform cwd) t).1.mapError error, (s.run (Tree.perform cwd) t).2) :=
  run_ofScript error s

theorem on_lift (s : Script α) :
    on cwd (liftM s : Action α) t
      = (.ok (s.run (Tree.perform cwd) t).1, (s.run (Tree.perform cwd) t).2) :=
  Script.run_bind _ _ _ _

theorem on_mapM_nil (f : α → Action β) : on cwd (([] : List α).mapM f) t = (.ok [], t) := rfl

theorem on_mapM_cons (f : α → Action β) (x : α) (xs : List α) :
    on cwd ((x :: xs).mapM f) t
      = on cwd (do let y ← f x; let ys ← xs.mapM f; return y :: ys) t :=
  congrArg (fun a => on cwd a t) List.mapM_cons

theorem of_on_mapM_nil_eq_ok {f : α → Action β} {ys : List β} {t' : Tree}
    (h : on cwd (([] : List α).mapM f) t = (.ok ys, t')) : ys = [] ∧ t' = t := by
  rw [on_mapM_nil, Prod.mk.injEq, Except.ok.injEq] at h
  exact ⟨h.1.symm, h.2.symm⟩

theorem of_on_mapM_cons_eq_ok {f : α → Action β} {x : α} {xs : List α} {ys : List β} {t' : Tree}
    (h : on cwd ((x :: xs).mapM f) t = (.ok ys, t')) :
    ∃ y t₁ ys', on cwd (f x) t = (.ok y, t₁) ∧ on cwd (xs.mapM f) t₁ = (.ok ys', t') ∧
      ys = y :: ys' := by
  rw [on_mapM_cons] at h
  obtain ⟨y, t₁, hfirst, hothers⟩ := of_on_bind_eq_ok h
  obtain ⟨ys', hrest, rfl⟩ := of_on_bind_pure_eq_ok hothers
  exact ⟨y, t₁, ys', hfirst, hrest, rfl⟩

end Action

end TextCatalog
