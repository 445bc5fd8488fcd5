import TextCatalog.Proofs.Pipeline.Held

/-!
# Notices to a watched project

A host tells of changed files and is told in return which of its modules is out of date. However it and the
tree go on between the notices, it is called once for each run that a notice leads to, and then the run is
over.
-/

namespace TextCatalog

open Disk

variable {μ σ : Type}

/-- The modules of a host by what it hands out: only a module that was found can be invalidated. -/
structure HandleGraph (μ σ : Type) where
  find? : String → σ → Option μ
  invalidate : μ → σ → σ
  reload : σ → σ

inductive Signal (μ : Type) where
  | invalidate (handle : μ)
  | reload
  deriving DecidableEq

namespace HandleGraph

def apply (g : HandleGraph μ σ) (memory : σ) : Signal μ → σ
  | .invalidate handle => g.invalidate handle memory
  | .reload => g.reload memory

/-- The call about the module with this identifier. -/
def signal (g : HandleGraph μ σ) (id : String) (memory : σ) : Signal μ :=
  match g.find? id memory with
  | some handle => .invalidate handle
  | none => .reload

/-- The graph, with every call written down. -/
def recorded (g : HandleGraph μ σ) : ModuleGraph (σ × List (Signal μ)) where
  isLoaded id state := (g.find? id state.1).isSome
  invalidate id state :=
    match g.find? id state.1 with
    | some handle => (g.invalidate handle state.1, state.2 ++ [.invalidate handle])
    | none => state
  reload state := (g.reload state.1, state.2 ++ [.reload])

end HandleGraph

def Outcome.ofCalls (report : Report) : List (Signal μ) → Outcome
  | [] => .regenerated report
  | .invalidate _ :: _ => .invalidated report
  | .reload :: _ => .fullReload report

/-- A host and the tree that it watches, with the calls that it got. -/
structure Scene (μ σ : Type) where
  tree : Tree
  memory : σ
  calls : List (Signal μ)

inductive Event (σ : Type) where
  | edit (e : Edit)
  /-- The host loads or drops modules by itself. -/
  | host (memory : σ)
  | notice (path : Path) (mark : String)

structure Notice (μ σ : Type) where
  path : Path
  mark : String
  before : Scene μ σ
  answer : Except Error Outcome
  after : Scene μ σ

/-- The calls that the host got from the notice to its answer. -/
def Notice.calls (n : Notice μ σ) : List (Signal μ) :=
  n.after.calls.drop n.before.calls.length

namespace Pipeline

variable (p : Pipeline) (cwd : Path) (g : HandleGraph μ σ)

def notify (path : Path) (mark : String) (s : Scene μ σ) : Notice μ σ :=
  match Action.on cwd (p.change ⟨cwd, mark⟩ g.recorded path (s.memory, s.calls)) s.tree with
  | (.ok (outcome, memory, calls), t) => ⟨path, mark, s, .ok outcome, ⟨t, memory, calls⟩⟩
  | (.error e, t) => ⟨path, mark, s, .error e, { s with tree := t }⟩

/-- The notices among the events, and where the events lead. -/
def history : List (Event σ) → Scene μ σ → List (Notice μ σ) × Scene μ σ
  | [], s => ([], s)
  | .edit e :: events, s => history events { s with tree := (s.tree.edit cwd e).2 }
  | .host memory :: events, s => history events { s with memory }
  | .notice path mark :: events, s =>
    let n := p.notify cwd g path mark s
    let (notices, last) := history events n.after
    (n :: notices, last)

/-- A notice is answered by one call if a relevant path has led to a run and there is a virtual module, and
else by none. The artifacts have been written when the host is called. -/
structure IsAnswered (n : Notice μ σ) : Prop where
  recorded : n.after.calls = n.before.calls ++ n.calls
  memory : n.after.memory = n.calls.foldl g.apply n.before.memory
  length_le_one : n.calls.length ≤ 1
  ne_nil_iff : n.calls ≠ [] ↔ p.isRelevant n.path = true ∧ p.context.virtual.isSome = true ∧
    ∃ report t, Action.on cwd (p.generate ⟨cwd, n.mark⟩) n.before.tree = (.ok report, t)
  call : ∀ m ∈ p.context.virtual, ∀ call ∈ n.calls, call = g.signal m.resolvedId n.before.memory
  irrelevant : p.isRelevant n.path = false → n.answer = .ok .ignored ∧ n.after = n.before
  failed : ∀ e t, p.isRelevant n.path = true →
    Action.on cwd (p.generate ⟨cwd, n.mark⟩) n.before.tree = (.error e, t) →
      n.answer = .error e ∧ n.after = { n.before with tree := t }
  regenerated : ∀ report t, p.isRelevant n.path = true →
    Action.on cwd (p.generate ⟨cwd, n.mark⟩) n.before.tree = (.ok report, t) →
      n.answer = .ok (.ofCalls report n.calls) ∧ n.after.tree = t
  held : ∀ report t, Action.on cwd (p.generate ⟨cwd, n.mark⟩) n.before.tree = (.ok report, t) →
    (n.before.tree.IsNew n.mark p.context.artifactPaths →
      (p.HoldsRendered cwd n.mark n.before.tree t ↔ t.LeadsApart cwd p.context.artifactPaths)) ∧
    (n.before.tree.Proper → (p.context.artifactPaths.Pairwise fun a b =>
        a.location ≠ b.location ∧ a.location ≠ (b.withExtension n.mark).location) →
      p.HoldsRendered cwd n.mark n.before.tree t)

def callsAfterRun (memory : σ) : List (Signal μ) :=
  (p.context.virtual.map fun m => g.signal m.resolvedId memory).toList

variable {p cwd g} {path : Path} {mark : String} {s : Scene μ σ} {report : Report} {t : Tree}

section Answer

theorem notify_of_irrelevant (h : p.isRelevant path = false) :
    p.notify cwd g path mark s = ⟨path, mark, s, .ok .ignored, s⟩ := by
  rw [notify, change, if_neg (by simp [h]), Action.on_pure]

theorem notify_of_error {e : Error} (h : p.isRelevant path = true)
    (hrun : Action.on cwd (p.generate ⟨cwd, mark⟩) s.tree = (.error e, t)) :
    p.notify cwd g path mark s = ⟨path, mark, s, .error e, { s with tree := t }⟩ := by
  rw [notify, change, if_pos h, Action.on_bind_of_error hrun]

theorem announce_recorded (report : Report) (memory : σ) (calls : List (Signal μ)) :
    p.announce g.recorded report (memory, calls) =
      (.ofCalls report (p.callsAfterRun g memory), (p.callsAfterRun g memory).foldl g.apply memory,
        calls ++ p.callsAfterRun g memory) := by
  rw [announce, callsAfterRun]
  cases p.context.virtual with
  | none => simp [Outcome.ofCalls]
  | some m =>
    obtain hfound | ⟨handle, hfound⟩ := Option.eq_none_or_eq_some (g.find? m.resolvedId memory)
    · simp [HandleGraph.recorded, HandleGraph.signal, HandleGraph.apply, Outcome.ofCalls, hfound]
    · simp [HandleGraph.recorded, HandleGraph.signal, HandleGraph.apply, Outcome.ofCalls, hfound]

theorem notify_of_ok (h : p.isRelevant path = true)
    (hrun : Action.on cwd (p.generate ⟨cwd, mark⟩) s.tree = (.ok report, t)) :
    p.notify cwd g path mark s = ⟨path, mark, s, .ok (.ofCalls report (p.callsAfterRun g s.memory)),
      ⟨t, (p.callsAfterRun g s.memory).foldl g.apply s.memory,
        s.calls ++ p.callsAfterRun g s.memory⟩⟩ := by
  rw [notify, change, if_pos h, Action.on_bind_of_ok hrun, Action.on_pure, announce_recorded]

theorem held_of_generate (habs : ∀ a ∈ p.context.artifactPaths, a.isAbsolute = true)
    (hrun : Action.on cwd (p.generate ⟨cwd, mark⟩) s.tree = (.ok report, t)) :
    (s.tree.IsNew mark p.context.artifactPaths →
      (p.HoldsRendered cwd mark s.tree t ↔ t.LeadsApart cwd p.context.artifactPaths)) ∧
    (s.tree.Proper → (p.context.artifactPaths.Pairwise fun a b =>
        a.location ≠ b.location ∧ a.location ≠ (b.withExtension mark).location) →
      p.HoldsRendered cwd mark s.tree t) :=
  ⟨fun hnew => holdsRendered_iff_leadsApart habs hnew hrun,
    fun ht hdistinct => holdsRendered_of_distinct ht habs hdistinct hrun⟩

theorem isAnswered_notify (habs : ∀ a ∈ p.context.artifactPaths, a.isAbsolute = true) (path : Path)
    (mark : String) (s : Scene μ σ) : p.IsAnswered cwd g (p.notify cwd g path mark s) := by
  cases hrelevant : p.isRelevant path with
  | false =>
    rw [notify_of_irrelevant hrelevant]
    exact {
      recorded := by simp [Notice.calls]
      memory := by simp [Notice.calls]
      length_le_one := by simp [Notice.calls]
      ne_nil_iff := by simp [Notice.calls, hrelevant]
      call := by simp [Notice.calls]
      irrelevant := fun _ => ⟨rfl, rfl⟩
      failed := fun _ _ h => absurd h (by simp [hrelevant])
      regenerated := fun _ _ h => absurd h (by simp [hrelevant])
      held := fun _ _ => held_of_generate habs }
  | true =>
    rcases hrun : Action.on cwd (p.generate ⟨cwd, mark⟩) s.tree with ⟨e | report, t⟩
    · rw [notify_of_error hrelevant hrun]
      exact {
        recorded := by simp [Notice.calls]
        memory := by simp [Notice.calls]
        length_le_one := by simp [Notice.calls]
        ne_nil_iff := by simp [Notice.calls, hrun]
        call := by simp [Notice.calls]
        irrelevant := fun h => absurd hrelevant (by simp [h])
        failed := fun e' t' _ hrun' => by
          obtain ⟨heq, rfl⟩ := Prod.mk.inj (hrun.symm.trans hrun')
          rw [Except.error.inj heq]
          exact ⟨rfl, rfl⟩
        regenerated := fun _ _ _ hrun' => by cases hrun.symm.trans hrun'
        held := fun _ _ => held_of_generate habs }
    · rw [notify_of_ok hrelevant hrun]
      exact {
        recorded := by simp [Notice.calls]
        memory := by simp [Notice.calls]
        length_le_one := by
          cases hvirtual : p.context.virtual <;> simp [Notice.calls, callsAfterRun, hvirtual]
        ne_nil_iff := by
          cases hvirtual : p.context.virtual <;>
            simp [Notice.calls, callsAfterRun, hvirtual, hrelevant, hrun]
        call := fun m hm call hcall => by
          simpa [Notice.calls, callsAfterRun, Option.mem_def.1 hm] using hcall
        irrelevant := fun h => absurd hrelevant (by simp [h])
        failed := fun _ _ _ hrun' => by cases hrun.symm.trans hrun'
        regenerated := fun report' t' _ hrun' => by
          obtain ⟨heq, rfl⟩ := Prod.mk.inj (hrun.symm.trans hrun')
          obtain rfl := Except.ok.inj heq
          simp [Notice.calls]
        held := fun _ _ => held_of_generate habs }

theorem notify_join (hroot : p.context.root.isAbsolute = true) :
    p.notify cwd g (p.context.root.join path) mark s =
      { p.notify cwd g path mark s with path := p.context.root.join path } := by
  have hrelevant : p.isRelevant (p.context.root.join path) = p.isRelevant path := by
    rw [isRelevant, isRelevant, Path.join_of_isAbsolute _ (Path.isAbsolute_join hroot)]
  rw [notify, notify, change, change, hrelevant]
  split <;> rfl

end Answer

section History

theorem before_notify : (p.notify cwd g path mark s).before = s := by
  rw [notify]
  split <;> rfl

/-- Through any events, a host gets the calls by which its notices are answered. -/
theorem isAnswered_of_mem_history (habs : ∀ a ∈ p.context.artifactPaths, a.isAbsolute = true)
    (events : List (Event σ)) (s : Scene μ σ) :
    (∀ n ∈ (p.history cwd g events s).1, p.IsAnswered cwd g n) ∧
      (p.history cwd g events s).2.calls =
        s.calls ++ (p.history cwd g events s).1.flatMap Notice.calls := by
  induction events generalizing s with
  | nil => exact ⟨by simp [history], by simp [history]⟩
  | cons event events ih =>
    cases event with
    | edit e => exact ih { s with tree := (s.tree.edit cwd e).2 }
    | host memory => exact ih { s with memory }
    | notice path mark =>
      have hanswered : p.IsAnswered cwd g (p.notify cwd g path mark s) :=
        isAnswered_notify habs path mark s
      obtain ⟨hrest, hcalls⟩ := ih (p.notify cwd g path mark s).after
      refine ⟨List.forall_mem_cons.2 ⟨hanswered, hrest⟩, hcalls.trans ?_⟩
      rw [hanswered.recorded, before_notify, List.append_assoc]
      rfl

theorem load_eq_ok_some_iff {m : VirtualModule} (hm : p.context.virtual = some m) (id : String) :
    (∃ source, p.load id = .ok (some source)) ↔ id = m.resolvedId := by
  rw [load, hm]
  by_cases hid : m.resolvedId = id
  · simp [hid, virtualSource, hm, Except.map]
  · simp [hid, Ne.symm hid]

end History

/-- However the tree and the host go on, every notice is answered as it should be, by a call about the module
that the host asks for under the one identifier by which it is known. -/
theorem notices_are_answered {host : Host} {root : Path} {config : Config}
    (hcwd : host.cwd.isAbsolute = true) (haccepted : ofConfig host root config = .ok p)
    (g : HandleGraph μ σ) (events : List (Event σ)) (s : Scene μ σ) :
    ((∀ n ∈ (p.history host.cwd g events s).1, p.IsAnswered host.cwd g n) ∧
      (p.history host.cwd g events s).2.calls =
        s.calls ++ (p.history host.cwd g events s).1.flatMap Notice.calls) ∧
    (∀ path mark (s : Scene μ σ), p.notify host.cwd g (p.context.root.join path) mark s =
      { p.notify host.cwd g path mark s with path := p.context.root.join path }) ∧
    ∀ m ∈ p.context.virtual, p.resolveId m.id = some m.resolvedId ∧
      ∀ id, (∃ source, p.load id = .ok (some source)) ↔ id = m.resolvedId := by
  obtain ⟨hroot, habs⟩ := isAbsolute_of_ofConfig hcwd haccepted
  refine ⟨isAnswered_of_mem_history habs events s, fun path mark s => notify_join hroot,
    fun m hm => ⟨?_, ?_⟩⟩
  · rw [resolveId, Option.mem_def.1 hm]
    simp
  · exact load_eq_ok_some_iff hm

section Sample

/-! Projects in `/r` with a virtual module, and a host that has it loaded. -/

def sampleGraph : HandleGraph String (List String) where
  find? id loaded := loaded.find? (· == id)
  invalidate handle loaded := loaded.erase handle
  reload _ := []

def virtualConfig (output declaration manifest : Target) : Config :=
  { placed "../*.*" output declaration manifest with virtual := some .usual }

def servedId : String := "\x00virtual:text-types"

def sampleScene (t : Tree) : Scene String (List String) :=
  ⟨t, [servedId], []⟩

def sampleNotice (p : Pipeline) (t : Tree) : Notice String (List String) :=
  p.notify sampleHost.cwd sampleGraph ⟨"../a.md"⟩ sampleHost.mark (sampleScene t)

def linkedConfig : Config :=
  virtualConfig (.path ⟨"/l/m"⟩) (.toggle false) (.path ⟨"/t"⟩)

theorem isSome_ofConfig_linked :
    (ofConfig sampleHost ⟨"/r"⟩ linkedConfig).toOption.isSome = true := by decide +kernel

def linked : Pipeline :=
  (ofConfig sampleHost ⟨"/r"⟩ linkedConfig).toOption.get isSome_ofConfig_linked

def linkedTree : Tree :=
  ⟨[(["r"], .directory), (["d"], .directory), (["l"], .link ⟨"/d"⟩), (["a.md"], .file "x".toUTF8)], []⟩

/-- A change that is ignored, one of the source, and one after which the source is no text. -/
def linkedEvents : List (Event (List String)) :=
  [.notice ⟨"/b"⟩ "tmp-1-1", .notice ⟨"../a.md"⟩ sampleHost.mark,
    .edit (.write ⟨"/a.md"⟩ ⟨#[255]⟩), .notice ⟨"/a.md"⟩ "tmp-1-3"]

def linkedHistory : List (Notice String (List String)) × Scene String (List String) :=
  linked.history sampleHost.cwd sampleGraph linkedEvents (sampleScene linkedTree)

theorem notices_are_answered_behind_link :
    sampleHost.cwd.isAbsolute = true ∧ ofConfig sampleHost ⟨"/r"⟩ linkedConfig = .ok linked ∧
    linkedHistory.1.map Notice.calls = [[], [.invalidate servedId], []] ∧
    linkedHistory.2.calls = [.invalidate servedId] ∧
    ∃ n ∈ linkedHistory.1, n.calls = [.invalidate servedId] ∧
      linked.HoldsRendered sampleHost.cwd n.mark n.before.tree n.after.tree := by
  have hcwd : sampleHost.cwd.isAbsolute = true := by decide
  have haccepted : ofConfig sampleHost ⟨"/r"⟩ linkedConfig = .ok linked :=
    eq_ok_get isSome_ofConfig_linked
  have hcalls : linkedHistory.1.map Notice.calls = [[], [.invalidate servedId], []] := by
    decide +kernel
  obtain ⟨⟨hanswered, hall⟩, -⟩ :=
    notices_are_answered hcwd haccepted sampleGraph linkedEvents (sampleScene linkedTree)
  let n := sampleNotice linked linkedTree
  have hmem : n ∈ linkedHistory.1 := by
    have hfirst : linked.notify sampleHost.cwd sampleGraph ⟨"/b"⟩ "tmp-1-1" (sampleScene linkedTree)
        = ⟨⟨"/b"⟩, "tmp-1-1", sampleScene linkedTree, .ok .ignored, sampleScene linkedTree⟩ :=
      notify_of_irrelevant (by decide +kernel)
    rw [linkedHistory, linkedEvents, history, hfirst]
    exact List.mem_cons_of_mem _ List.mem_cons_self
  have hcall : n.calls = [.invalidate servedId] := by decide +kernel
  have hn := hanswered n hmem
  -- The texts are not read from the tree after the run: that they are there follows from where it leads.
  obtain ⟨hrelevant, -, report, t, hrun⟩ := hn.ne_nil_iff.1 (by simp [hcall])
  obtain ⟨-, rfl⟩ := hn.regenerated report t hrelevant hrun
  have hnew : n.before.tree.IsNew n.mark linked.context.artifactPaths :=
    .of_short (by decide +kernel) (by decide +kernel) (by decide +kernel)
  have hapart : n.after.tree.LeadsApart sampleHost.cwd linked.context.artifactPaths :=
    ⟨by decide +kernel, by decide +kernel⟩
  refine ⟨hcwd, haccepted, hcalls, ?_, n, hmem, hcall, ((hn.held report _ hrun).1 hnew).2 hapart⟩
  rw [linkedHistory, hall, List.flatMap_def, ← linkedHistory, hcalls]
  rfl

/-- The host is called when not all artifacts hold their texts, though their paths differ. -/
def IsCalledEarly (declaration : Path) (t : Tree) : Prop :=
  ∃ p, ofConfig sampleHost ⟨"/r"⟩
      (virtualConfig (.toggle false) (.path declaration) (.path ⟨"/t"⟩)) = .ok p ∧
    (p.context.artifactPaths.Pairwise fun a b => a.normalize ≠ b.normalize) ∧
    (sampleNotice p t).calls = [.invalidate servedId] ∧
    ¬ p.HoldsRendered sampleHost.cwd sampleHost.mark t (sampleNotice p t).after.tree

/-- Different paths lead to one file behind a link or above the root directory, and an artifact is lost that
has the name by way of which another is written. -/
theorem called_before_held :
    IsCalledEarly ⟨"/l/t"⟩ ⟨[(["r"], .directory), (["l"], .link ⟨"/"⟩)], []⟩ ∧
    bareTree.Proper ∧ IsCalledEarly ⟨"/../t"⟩ bareTree ∧ IsCalledEarly ⟨"/t.tmp-1-2"⟩ bareTree := by
  refine ⟨⟨_, eq_ok_get (by decide +kernel), by decide +kernel, by decide +kernel, fun h => ?_⟩,
    by decide +kernel,
    ⟨_, eq_ok_get (by decide +kernel), by decide +kernel, by decide +kernel, fun h => ?_⟩,
    ⟨_, eq_ok_get (by decide +kernel), by decide +kernel, by decide +kernel, fun h => ?_⟩⟩
  · exact absurd h.leadsApart.apart (by decide +kernel)
  · exact absurd h.leadsApart.apart (by decide +kernel)
  · exact absurd h.leadsApart.file (by decide +kernel)

end Sample

end Pipeline

end TextCatalog
