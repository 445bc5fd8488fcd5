import TextCatalog.Pipeline
/-!
# Changes

What a changed file leads to: nothing, if no pattern names it; else a whole run, after which the host
is told to take the virtual module anew.
-/

namespace TextCatalog

/-- The modules that a host has loaded, with the two ways to have them taken anew. `σ` is what the
host remembers. -/
structure ModuleGraph (σ : Type) where
  isLoaded : String → σ → Bool
  /-- Marks the module under the identifier to be evaluated again. -/
  invalidate : String → σ → σ
  /-- Asks everyone to load from the start. -/
  reload : σ → σ

namespace ModuleGraph

inductive Call where
  | invalidate (id : String)
  | reload
  deriving DecidableEq, Repr

/-- A graph that has the modules in `loaded` and remembers its calls. -/
def recording (loaded : List String) : ModuleGraph (List Call) where
  isLoaded id _ := loaded.contains id
  invalidate id calls := calls ++ [.invalidate id]
  reload calls := calls ++ [.reload]

/-- A graph for a host without modules. -/
def detached : ModuleGraph Unit where
  isLoaded _ _ := false
  invalidate _ _ := ()
  reload _ := ()

end ModuleGraph

inductive Outcome where
  /-- No pattern names the file. -/
  | ignored
  | regenerated (report : Report)
  /-- A run, after which the loaded virtual module was invalidated. -/
  | invalidated (report : Report)
  /-- A run, after which a full reload was asked for, since the virtual module was not loaded. -/
  | fullReload (report : Report)
  deriving DecidableEq, Repr

def Outcome.report? : Outcome → Option Report
  | ignored => none
  | regenerated r | invalidated r | fullReload r => some r

namespace Pipeline

def announce {σ : Type} (p : Pipeline) (g : ModuleGraph σ) (report : Report) (state : σ) :
    Outcome × σ :=
  match p.context.virtual with
  | none => (.regenerated report, state)
  | some m =>
    if g.isLoaded m.resolvedId state then
      (.invalidated report, g.invalidate m.resolvedId state)
    else (.fullReload report, g.reload state)

/-- Answers a change of the file at `path`. -/
def change {σ : Type} (p : Pipeline) (host : Host) (g : ModuleGraph σ) (path : Path) (state : σ) :
    Action (Outcome × σ) := do
  if p.isRelevant path then
    let report ← p.generate host
    return p.announce g report state
  else return (.ignored, state)

end Pipeline

end TextCatalog
