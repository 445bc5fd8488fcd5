import TextCatalog.Disk.File
/-!
# Sessions

A session is what a command does: it works on a disk and prints as it goes. What has been printed
stays printed when the command stops.
-/

namespace TextCatalog.CommandLine

/-- What has been printed, to the output and to the output for errors. -/
structure Printed where
  out : String
  err : String
  deriving DecidableEq, Repr, Inhabited

/-- Why a command stops before its end. -/
inductive Stop where
  | failed (error : Error)
  /-- Something else failed, as the message says. -/
  | troubled (message : String)
  /-- The command has an answer that is no success. -/
  | unsuccessful
  deriving DecidableEq, Repr

abbrev Session := ExceptT Stop (StateT Printed Disk.Script)

namespace Session

variable {α : Type}

def print (s : String) : Session Unit :=
  modify fun p => { p with out := p.out ++ s }

def printLine (s : String) : Session Unit :=
  print (s ++ "\n")

def printError (s : String) : Session Unit :=
  modify fun p => { p with err := p.err ++ s }

def printErrorLine (s : String) : Session Unit :=
  printError (s ++ "\n")

def disk (s : Disk.Script α) : Session α :=
  ExceptT.lift (StateT.lift s)

/-- Works on the disk; a failure of the library stops the command. -/
def work (a : Action α) : Session α := do
  match ← disk a.run with
  | .ok value => return value
  | .error e => throw (.failed e)

/-- Works on the disk; a failure of the disk stops the command. -/
def plainly (s : Disk.Script (Except Disk.Cause α)) : Session α := do
  match ← disk s with
  | .ok value => return value
  | .error cause => throw (.troubled cause.message)

def start (s : Session α) : Disk.Script (Except Stop α × Printed) :=
  s.run.run ⟨"", ""⟩

end Session

/-- The colours of a terminal, or none. -/
structure Palette where
  isColored : Bool
  deriving DecidableEq, Repr

namespace Palette

/-- The text between two codes of the terminal. -/
def paint (p : Palette) (start stop s : String) : String :=
  if p.isColored then "\x1b[" ++ start ++ "m" ++ s ++ "\x1b[" ++ stop ++ "m" else s

def red (p : Palette) : String → String := p.paint "31" "39"

def green (p : Palette) : String → String := p.paint "32" "39"

def yellow (p : Palette) : String → String := p.paint "33" "39"

def bold (p : Palette) : String → String := p.paint "1" "0"

end Palette

end TextCatalog.CommandLine
