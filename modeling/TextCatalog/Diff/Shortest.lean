import TextCatalog.Diff.Basic
/-!
# Shortest differences

A difference with as few removed and added lines as can be. The lines that both texts start and end
with are set aside. For the rest, two searches go out from both ends: after `d` rounds each knows, on
every diagonal, how far `d` changes can lead. Where they first meet the task is cut in two.
-/

namespace TextCatalog.Diff

/-- How far the search has come on each diagonal, in lines of the first text. Diagonal `k` stands at
place `k + shift`. -/
structure Frontier where
  shift : Nat
  reach : Array Nat

namespace Frontier

def get (f : Frontier) (k : Int) : Nat :=
  f.reach.getD (k + f.shift).toNat 0

def set (f : Frontier) (k : Int) (x : Nat) : Frontier :=
  { f with reach := f.reach.setIfInBounds (k + f.shift).toNat x }

/-- The frontier before the first round, with room for `rounds` of them. -/
def start (rounds : Nat) : Frontier :=
  ⟨rounds + 1, Array.replicate (2 * rounds + 3) 0⟩

/-- Where one more change in round `d` leads on diagonal `k`. -/
def next (f : Frontier) (d k : Int) : Nat :=
  if k = -d ∨ (k ≠ d ∧ f.get (k - 1) < f.get (k + 1)) then f.get (k + 1) else f.get (k - 1) + 1

end Frontier

/-- How many equal lines follow from place `x` of the first text and place `y` of the second. -/
def agree (as bs : Array String) (x y : Nat) : Nat :=
  if h : x < as.size ∧ y < bs.size then
    if as[x] = bs[y] then agree as bs (x + 1) (y + 1) + 1 else 0
  else 0
termination_by as.size - x

/-- One search through two texts: forwards, or backwards if both are given from their ends. -/
structure Search where
  as : Array String
  bs : Array String
  frontier : Frontier

namespace Search

/-- Where the equal lines on diagonal `k` start and end in round `d`. -/
def snake (s : Search) (d k : Int) : Nat × Nat :=
  let x := s.frontier.next d k
  (x, x + agree s.as s.bs x (x - k).toNat)

/-- Goes through `count` diagonals of round `d`, from `k` down to every second one. Where `isMeeting`
says that the other search has been reached, the diagonal and its snake are the answer. -/
def roundFrom (isMeeting : Int → Nat → Bool) (d : Nat) :
    (count : Nat) → (k : Int) → Search → Search × Option (Int × Nat × Nat)
  | 0, _, s => (s, none)
  | count + 1, k, s =>
    let (x, reached) := s.snake d k
    let s := { s with frontier := s.frontier.set k reached }
    if isMeeting k reached then (s, some (k, x, reached))
    else roundFrom isMeeting d count (k - 2) s

/-- Goes through the diagonals of round `d`, which are every second one from `d` down to `-d`. -/
def round (isMeeting : Int → Nat → Bool) (d : Nat) (s : Search) :
    Search × Option (Int × Nat × Nat) :=
  s.roundFrom isMeeting d (d + 1) d

end Search

/-- The place, in lines of both texts, where a shortest difference may be cut. `rounds` counts the
rounds that are left, `d` those that are done. -/
def meeting (delta : Int) (forth back : Search) : (rounds d : Nat) → Option (Nat × Nat)
  | 0, _ => none
  | rounds + 1, d =>
    let n := forth.as.size
    let isOdd := delta % 2 = 1
    let metBack (k : Int) (x : Nat) : Bool :=
      isOdd && (k - delta).natAbs + 1 ≤ d && n ≤ x + back.frontier.get (delta - k)
    match forth.round metBack d with
    | (_, some (k, x, _)) => some (x, (x - k).toNat)
    | (forth, none) =>
      let metForth (k : Int) (x : Nat) : Bool :=
        !isOdd && (k - delta).natAbs ≤ d && n ≤ x + forth.frontier.get (delta - k)
      match back.round metForth d with
      | (_, some (k, _, x)) => some (n - x, forth.bs.size - (x - k).toNat)
      | (back, none) => meeting delta forth back rounds (d + 1)

def cutPlace (as bs : List String) : Option (Nat × Nat) :=
  let rounds := (as.length + bs.length + 1) / 2 + 1
  let frontier := Frontier.start rounds
  meeting ((as.length : Int) - bs.length) ⟨as.toArray, bs.toArray, frontier⟩
    ⟨as.reverse.toArray, bs.reverse.toArray, frontier⟩ rounds 0

def stay (ls : List String) : List Run :=
  if ls.isEmpty then [] else [.same ls]

/-- A shortest difference of two lists of lines. Each cut takes one from `fuel`. -/
def shortestWithin : (fuel : Nat) → (as bs : List String) → List Run
  | fuel, as, bs =>
    let lead := shared as bs
    let as' := as.drop lead
    let bs' := bs.drop lead
    let trail := sharedEnd as' bs'
    let left := as'.take (as'.length - trail)
    let right := bs'.take (bs'.length - trail)
    let middle :=
      match left, right with
      | [], [] => []
      | _ :: _, [] => [.removed left]
      | [], _ :: _ => [.added right]
      | _ :: _, _ :: _ =>
        match fuel, cutPlace left right with
        | fuel + 1, some (x, y) =>
          shortestWithin fuel (left.take x) (right.take y) ++
            shortestWithin fuel (left.drop x) (right.drop y)
        | _, _ => [.removed left, .added right]
    stay (as.take lead) ++ middle ++ stay (as'.drop (as'.length - trail))

def shortest (as bs : List String) : List Run :=
  shortestWithin (as.length + bs.length) as bs

example : shortest ["a", "b", "c"] ["a", "x", "c"] =
    [.same ["a"], .added ["x"], .removed ["b"], .same ["c"]] := by cbv

end TextCatalog.Diff
