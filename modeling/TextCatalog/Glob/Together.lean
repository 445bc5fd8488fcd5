import TextCatalog.Glob.Automaton
/-!
# Globs of one list

The globs of a list are compiled together. A glob that fixes a text, with at most one run of
directories before it or everything below after it, needs no automaton, and neither does one that
fixes an extension and nothing else. A glob that ends in an extension has an automaton of its own.
The others share one.
-/

namespace TextCatalog.Glob

/-- What it takes to compare a path with a glob. -/
inductive Means where
  | comparison
  /-- An automaton for paths with the right extension. -/
  | ownAutomaton
  /-- A part of the automaton of the list. -/
  | sharedAutomaton
  deriving DecidableEq, Repr

/-- Whether the tokens are an extension without its dot. -/
def isExtension (ts : List Token) : Bool :=
  ts.all fun t => t.isLiteral && !t.isChar '.' && !t.isChar '/'

/-- Whether the glob is decided by comparing fixed text. -/
def isComparison (g : Glob) : Bool :=
  match g.tokens with
  | [] | [.leadingDirs] => false
  | .leadingDirs :: .anyRun :: .literal '.' :: rest => isExtension rest
  | .leadingDirs :: rest => rest.all Token.isLiteral
  | ts =>
    match ts.reverse with
    | .trailingAll :: before => before.all Token.isLiteral
    | all => all.all Token.isLiteral

/-- Whether the glob ends in a dot and literals other than dots and slashes. -/
def endsInExtension (g : Glob) : Bool :=
  let before := g.tokens.reverse.dropWhile fun t =>
    t.isLiteral && !t.isChar '.' && !t.isChar '/'
  match before with
  | .literal '.' :: _ => true
  | _ => false

def means (g : Glob) : Means :=
  if g.isComparison then .comparison
  else if g.endsInExtension then .ownAutomaton
  else .sharedAutomaton

/-- Why there is no automaton for some globs. -/
inductive Excess where
  | nesting (index : Nat)
  | size
  deriving DecidableEq, Repr

def Excess.message : Excess → String
  | nesting index => "error parsing pattern " ++ toString index
  | size => "error building NFA"

def excess? (gs : List Glob) : Option Excess :=
  match gs.findIdx? fun g => nestingLimit < g.depth with
  | some index => some (.nesting index)
  | none =>
    if sizeLimit < automatonSize false gs ∨ sizeLimit < automatonSize true gs then some .size
    else none

/-- Why the globs of a list cannot be compiled together, if they cannot. The automata of single globs
come first, and their messages name the glob. -/
def refusal? (gs : List Glob) : Option String :=
  let single := (gs.filter fun g => g.means = .ownAutomaton).findSome? fun g =>
    (excess? [g]).map fun e => "error parsing glob '" ++ g.regex ++ "': " ++ e.message
  match single with
  | some message => some message
  | none => (excess? (gs.filter fun g => g.means = .sharedAutomaton)).map Excess.message

example : means ⟨[.leadingDirs, .anyRun, .literal '.', .literal 'c']⟩ = .comparison := by decide
example : means ⟨[.anyRun, .literal '.', .literal 'c']⟩ = .ownAutomaton := by decide

end TextCatalog.Glob
