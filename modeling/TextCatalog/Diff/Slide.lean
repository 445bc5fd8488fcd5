import TextCatalog.Diff.Shortest
/-!
# Sliding changes together

Of several differences that are equally short, the one is taken in which changes stand together: an
added run slides along equal lines, up and then down, and joins the changes that it meets.
-/

namespace TextCatalog.Diff

/-- The runs of a difference around a changed one. Those before it are given from the nearest on. -/
structure Cursor where
  before : List Run
  here : Run
  after : List Run

namespace Cursor

/-- Puts lines that stay in front of the runs, joined to lines that stay already. -/
def pushSame (ls : List String) : List Run → List Run
  | .same more :: runs => .same (ls ++ more) :: runs
  | runs => .same ls :: runs

/-- Appends lines that stay to the run before, which is the first of the list. -/
def appendSame (ls : List String) : List Run → List Run
  | .same more :: runs => .same (more ++ ls) :: runs
  | runs => .same ls :: runs

def weight : List Run → Nat
  | [] => 0
  | r :: runs => r.weight + weight runs

/-- Moves a changed run up: past a run of the other kind, into one of its own kind, and, if it is
added, along lines that stay as far as they end in the same way. -/
def up (c : Cursor) : Cursor :=
  match _hb : c.before, c.here with
  | .same ls :: before, .added new =>
    let n := sharedEnd ls new
    if 0 < n ∧ n < ls.length then
      up ⟨.same (ls.take (ls.length - n)) :: before,
        .added (ls.drop (ls.length - n) ++ new.take (new.length - n)),
        pushSame (new.drop (new.length - n)) c.after⟩
    else if 0 < n then
      up ⟨before, .added (ls ++ new.take (new.length - n)),
        pushSame (new.drop (new.length - n)) c.after⟩
    else if ls.isEmpty then up ⟨before, .added new, c.after⟩
    else c
  | .same ls :: before, .removed old =>
    if ls.isEmpty then up ⟨before, .removed old, c.after⟩ else c
  | .added more :: before, .added new => up ⟨before, .added (more ++ new), c.after⟩
  | .removed more :: before, .removed old => up ⟨before, .removed (more ++ old), c.after⟩
  | other :: before, here => up ⟨before, here, other :: c.after⟩
  | [], _ => c
termination_by weight c.before
decreasing_by
  all_goals
    simp only [_hb, weight, Run.weight, Run.lines, List.length_take]
    omega

/-- Moves a changed run down in the same ways. -/
def down (c : Cursor) : Cursor :=
  match _ha : c.after, c.here with
  | .same ls :: after, .added new =>
    let n := shared ls new
    if 0 < n ∧ n < ls.length then
      down ⟨appendSame (new.take n) c.before, .added (new.drop n ++ ls.take n),
        .same (ls.drop n) :: after⟩
    else if 0 < n then
      down ⟨appendSame (new.take n) c.before, .added (new.drop n ++ ls.take n), after⟩
    else if ls.isEmpty then down ⟨c.before, .added new, after⟩
    else c
  | .same ls :: after, .removed old =>
    if ls.isEmpty then down ⟨c.before, .removed old, after⟩ else c
  | .added more :: after, .added new => down ⟨c.before, .added (new ++ more), after⟩
  | .removed more :: after, .removed old => down ⟨c.before, .removed (old ++ more), after⟩
  | other :: after, here => down ⟨other :: c.before, here, after⟩
  | [], _ => c
termination_by weight c.after
decreasing_by
  all_goals
    simp only [_ha, weight, Run.weight, Run.lines, List.length_drop]
    omega

end Cursor

/-- Goes through the runs and slides those of one kind. The runs that are done come from the nearest
on; each run takes one from `fuel`. -/
def slideWithin (isMoved : Run → Bool) : (fuel : Nat) → (done rest : List Run) → List Run
  | fuel + 1, done, r :: rest =>
    if isMoved r then
      let c := (Cursor.up ⟨done, r, rest⟩).down
      slideWithin isMoved fuel (c.here :: c.before) c.after
    else slideWithin isMoved fuel (r :: done) rest
  | _, done, rest => done.reverse ++ rest

/-- Slides the runs of one kind. No step adds more runs than there are lines. -/
def slideKind (isMoved : Run → Bool) (runs : List Run) : List Run :=
  slideWithin isMoved (2 * Cursor.weight runs + 1) [] runs

def slide (runs : List Run) : List Run :=
  let isRemoved : Run → Bool
    | .removed _ => true
    | _ => false
  let isAdded : Run → Bool
    | .added _ => true
    | _ => false
  slideKind isAdded (slideKind isRemoved runs)

/-- The changes between lines that stay, with the removed lines before the added ones. -/
def gather (removed added : List String) : List Run → List Run
  | [] => changes
  | .same ls :: runs => changes ++ .same ls :: gather [] [] runs
  | .removed ls :: runs => gather (removed ++ ls) added runs
  | .added ls :: runs => gather removed (added ++ ls) runs
where
  changes : List Run :=
    (if removed.isEmpty then [] else [.removed removed]) ++
      (if added.isEmpty then [] else [.added added])

def between (old new : String) : List Run :=
  gather [] [] (slide (shortest (lines old) (lines new)))

example : between "a\nb\n" "a\nx\nb\n" = [.same ["a\n"], .added ["x\n"], .same ["b\n"]] := by cbv
example : between "a\n" "b" = [.removed ["a\n"], .added ["b"]] := by cbv

end TextCatalog.Diff
