import TextCatalog.Disk.Cause
import TextCatalog.Path.Basic
/-!
# Scripts of disk operations

A script says what to ask of a disk, one operation after the other, and what to do with each answer.
It holds no disk: it can be run on a tree of files that is a value, on a tree that fails on purpose,
or on the disk of the machine.
-/

namespace TextCatalog.Disk

inductive Kind where
  | file
  | directory
  | link
  deriving DecidableEq, Repr, Inhabited

instance instDecidableEqBytes : DecidableEq ByteArray :=
  ByteArray.instDecidableEq

/-- What a walk below a directory meets, by the names that lead there. -/
structure Listing where
  items : List (List RawText × Kind)
  /-- The directories that cannot be opened, the one that the walk starts from among them. -/
  refused : List (List RawText × Cause)
  deriving Repr

inductive Op where
  /-- What a path leads to, with links followed. -/
  | kind (path : Path)
  /-- Everything below a directory. Links are not followed. -/
  | below (path : Path)
  | read (path : Path)
  /-- Make a directory in one that exists. -/
  | makeDirectory (path : Path)
  /-- Give a file these bytes; it is made if it is missing. -/
  | write (path : Path) (bytes : ByteArray)
  /-- Give a file another path, in the place of a file that may be there. -/
  | rename (path target : Path)
  | remove (path : Path)
  deriving DecidableEq

def Op.Answer : Op → Type
  | kind _ => Kind
  | below _ => Listing
  | read _ => ByteArray
  | makeDirectory _ | write _ _ | rename _ _ | remove _ => Unit

/-- A sequence of operations in which each answer decides how it goes on. -/
inductive Script (α : Type) where
  | done (value : α)
  | step (op : Op) (next : Except Cause op.Answer → Script α)

namespace Script

variable {α β σ : Type}

/-- The script that goes on with `f` where `s` is done. -/
def bind (s : Script α) (f : α → Script β) : Script β :=
  match s with
  | done a => f a
  | step op next => step op fun answer => bind (next answer) f

instance : Monad Script where
  pure := done
  bind := bind

def ask (op : Op) : Script (Except Cause op.Answer) :=
  step op done

/-- Runs a script on a state that performs the operations. -/
def run (perform : (op : Op) → σ → Except Cause op.Answer × σ) : Script α → σ → α × σ
  | done a, state => (a, state)
  | step op next, state =>
    let (answer, state) := perform op state
    run perform (next answer) state

theorem run_bind (perform : (op : Op) → σ → Except Cause op.Answer × σ) (s : Script α)
    (f : α → Script β) (state : σ) :
    (s.bind f).run perform state =
      (f (s.run perform state).1).run perform (s.run perform state).2 := by
  induction s generalizing state with
  | done a => rfl
  | step op next ih => exact ih _ _

end Script

end TextCatalog.Disk
