import TextCatalog.Proofs.CommandLine.Check
import TextCatalog.Proofs.Disk.Gains

/-!
# The start of a project

A project without a configuration is given one, with a first text. Each is a file that is written where
nothing was, so the project keeps what it has. Once the configuration is there, nothing more is given.
-/

namespace TextCatalog

open Disk

namespace CommandLine

open Session

variable {cwd : Path} {t t' : Tree} {s : Setting} {printed : Printed} {p : Path} {names : Location}

namespace Setting

/-- Where the root of the project is. -/
def top (s : Setting) : Location :=
  (s.host.cwd.join s.root).location

def configPath (s : Setting) : Path :=
  s.root.join ⟨"text-types.toml"⟩

def samplePath (s : Setting) : Path :=
  s.root.join ⟨"src/content/hello.md"⟩

/-- A file is where a configuration may lie in the project. -/
def HasConfig (s : Setting) (t : Tree) : Prop :=
  ∃ p ∈ Config.candidates, ∃ bytes, t.node s.host.cwd (s.root.join p) = .ok (.file bytes)

theorem hasConfig_of_node {bytes : ByteArray} (h : t.node s.host.cwd s.configPath = .ok (.file bytes)) :
    s.HasConfig t :=
  ⟨⟨"text-types.toml"⟩, by simp [Config.candidates], bytes, h⟩

theorem on_find? (s : Setting) (t : Tree) (printed : Printed) :
    ∃ found, on s.host.cwd (disk (Config.find? s.root)) printed t = ((.ok found, printed), t) ∧
      (found.isSome = true ↔ s.HasConfig t) := by
  have htree : ((Config.find? s.root).run (Tree.perform s.host.cwd) t).2 = t :=
    (Config.looks_firstFile? _).tree_eq
  refine ⟨_, by rw [on_disk, htree], ?_⟩
  simp [Config.find?, Config.isSome_run_firstFile?_iff, HasConfig]

theorem steps_configPath (s : Setting) :
    (s.host.cwd.join s.configPath).steps
      = (s.host.cwd.join s.root).steps ++ (["text-types.toml"] : Location).map .name :=
  Path.steps_join_join _ _ (by decide)

theorem steps_samplePath (s : Setting) :
    (s.host.cwd.join s.samplePath).steps
      = (s.host.cwd.join s.root).steps ++ (["src", "content", "hello.md"] : Location).map .name :=
  Path.steps_join_join _ _ (by decide)

theorem location_of_steps (h : p.steps = (s.host.cwd.join s.root).steps ++ names.map .name) :
    p.location = s.top ++ names := by
  rw [Path.location, h, List.foldl_append, Path.foldl_move_name]
  rfl

end Setting

namespace Command

/-- What a project in the directory `top` is given. -/
inductive IsGiven (top : Location) : Location → Node → Prop
  | config : IsGiven top (top ++ (["text-types.toml"] : Location)) (.file sampleConfig.toUTF8)
  | sources : IsGiven top (top ++ (["src"] : Location)) .directory
  | content : IsGiven top (top ++ (["src", "content"] : Location)) .directory
  | sample : IsGiven top (top ++ (["src", "content", "hello.md"] : Location)) (.file sampleText.toUTF8)

theorem IsGiven.of_above {top above below : Location}
    (h : (["src", "content", "hello.md"] : Location) = above ++ below) (habove : above ≠ [])
    (hbelow : below ≠ []) :
    IsGiven top (top ++ above) .directory := by
  rcases above with _ | ⟨first, _ | ⟨second, _ | ⟨third, above⟩⟩⟩
  · exact absurd rfl habove
  · obtain ⟨rfl, -⟩ : Text.bytes "src" = first ∧ _ := by simpa using h
    exact .sources
  · obtain ⟨rfl, rfl, -⟩ : Text.bytes "src" = first ∧ Text.bytes "content" = second ∧ _ := by simpa using h
    exact .content
  · simp [hbelow] at h

section Runs

/-- Writes a file, or stops. -/
def writeFile (p : Path) (bytes : ByteArray) : Session Unit :=
  plainly (Script.ask (.write p bytes))

theorem on_writeFile (p : Path) (bytes : ByteArray) (printed : Printed) :
    (∃ message, on cwd (writeFile p bytes) printed t = ((.error (.troubled message), printed), t)) ∨
      ∃ t', t.write cwd p bytes = .ok t' ∧
        on cwd (writeFile p bytes) printed t = ((.ok (), printed), t') := by
  have hrun : (Script.ask (.write p bytes)).run (Tree.perform cwd) t = t.changed (t.write cwd p bytes) := rfl
  cases hwrite : t.write cwd p bytes with
  | error cause =>
    rw [hwrite] at hrun
    exact .inl ⟨_, on_plainly_of_error hrun⟩
  | ok t' =>
    rw [hwrite] at hrun
    exact .inr ⟨t', rfl, on_plainly_of_ok hrun⟩

/-- Gives a project its first text, unless something is there. -/
def giveSample (s : Setting) : Session Unit := do
  if (← disk (kind? s.samplePath)).isNone then
    plainly (makeRoom s.samplePath)
    writeFile s.samplePath sampleText.toUTF8
    printLine ("Created sample text: " ++ Path.shownFrom s.root s.samplePath)
  nextSteps.forM printLine

theorem runInit_eq (s : Setting) :
    runInit s = (do
      if (← disk (Config.find? s.root)).isSome then
        printLine ("Config file already exists: " ++ s.configPath.display)
      else
        writeFile s.configPath sampleConfig.toUTF8
        printLine "Created text-types.toml"
        giveSample s) :=
  rfl

theorem on_giveSample (ht : t.Proper) (hbase : ∀ front, front <+: (s.host.cwd.join s.root).steps →
    t.find? (front.foldl Path.move []) = some .directory) (printed : Printed) :
    ∃ result printed' t', on s.host.cwd (giveSample s) printed t = ((result, printed'), t') ∧
      t'.Proper ∧ t.Gains (IsGiven s.top) t' := by
  have hkind : on s.host.cwd (disk (kind? s.samplePath)) printed t = _ := on_disk _
  have hends : (nextSteps.forM printLine).Prints := prints_forM prints_printLine nextSteps
  rw [run_kind?] at hkind
  rw [giveSample, on_bind_of_ok hkind]
  dsimp only
  cases hnode : t.node s.host.cwd s.samplePath with
  | ok node =>
    obtain ⟨printed', hprints⟩ := hends s.host.cwd printed t
    exact ⟨.ok (), printed', t, hprints, ht, .refl _ t⟩
  | error cause =>
    have hnone : ∀ old, t.node s.host.cwd s.samplePath ≠ .ok (.file old) := by simp [hnode]
    -- The root is there, so the directories that are made lie below it, and no file comes to light in them.
    have hroom : t.Gains (IsGiven s.top) (t.withRoom s.host.cwd s.samplePath) := by
      refine (Tree.gains_withRoom s.steps_samplePath hbase ht).mono ?_
      rintro loc node ⟨hdir, above, below, hnames, habove, hbelow, hloc⟩
      rw [hdir, hloc]
      exact .of_above hnames habove hbelow
    rw [if_pos (by simp [Except.toOption])]
    rcases hmade : (makeRoom s.samplePath).run (Tree.perform s.host.cwd) t with ⟨result, room⟩
    obtain rfl : t.withRoom s.host.cwd s.samplePath = room := congrArg Prod.snd hmade
    cases result with
    | error cause =>
      exact ⟨_, _, _, on_bind_of_error (on_plainly_of_error hmade), ht.withRoom _ _, hroom⟩
    | ok _ =>
      rw [on_bind_of_ok (on_plainly_of_ok hmade)]
      rcases on_writeFile s.samplePath sampleText.toUTF8 printed with
        ⟨message, hfails⟩ | ⟨t', hwrite, hwritten⟩
      · exact ⟨_, _, _, on_bind_of_error hfails, ht.withRoom _ _, hroom⟩
      · have hcreates := Tree.creates_of_write (ht.withRoom _ _)
          (Tree.node_withRoom_ne_file s.steps_samplePath hbase ht hnone) hwrite
        have hgains := hcreates.gains (Setting.location_of_steps s.steps_samplePath ▸ IsGiven.sample)
        rw [on_bind_of_ok hwritten, on_bind_of_ok (on_printLine _)]
        obtain ⟨printed', hprints⟩ := hends s.host.cwd _ t'
        exact ⟨_, _, _, hprints, hcreates.proper, hroom.trans hgains⟩

/-- A project that has a configuration is told so. -/
theorem on_runInit_of_hasConfig (h : s.HasConfig t) (printed : Printed) :
    ∃ printed', on s.host.cwd (runInit s) printed t = ((.ok (), printed'), t) := by
  obtain ⟨found, hfind, hfound⟩ := s.on_find? t printed
  rw [runInit_eq, on_bind_of_ok hfind, if_pos (hfound.2 h)]
  exact ⟨_, on_printLine _⟩

/-- A project that has none keeps what it has, and has a configuration unless the start fails. -/
theorem on_runInit_of_not_hasConfig (ht : t.Proper) (h : ¬ s.HasConfig t) (printed : Printed) :
    ∃ result printed' t', on s.host.cwd (runInit s) printed t = ((result, printed'), t') ∧
      t.Gains (IsGiven s.top) t' ∧ (result = .ok () → s.HasConfig t') := by
  obtain ⟨found, hfind, hfound⟩ := s.on_find? t printed
  rw [runInit_eq, on_bind_of_ok hfind, if_neg (mt hfound.1 h)]
  rcases on_writeFile s.configPath sampleConfig.toUTF8 printed with
    ⟨message, hfails⟩ | ⟨t₁, hwrite, hwritten⟩
  · exact ⟨_, _, _, on_bind_of_error hfails, .refl _ t, fun hok => by cases hok⟩
  have hcreates := Tree.creates_of_write ht (fun _ hnode => h (Setting.hasConfig_of_node hnode)) hwrite
  have hgains := hcreates.gains (Setting.location_of_steps s.steps_configPath ▸ IsGiven.config)
  -- The way to the configuration goes through the root, so the directories are there as far as the root.
  have hbase : ∀ front, front <+: (s.host.cwd.join s.root).steps →
      t₁.find? (front.foldl Path.move []) = some .directory := by
    rintro front ⟨more, hmore⟩
    refine hgains.keeps _ _ (hcreates.through front
      (more ++ (["text-types.toml"] : Location).map .name) ?_ (by simp))
    rw [s.steps_configPath, ← hmore, List.append_assoc]
  rw [on_bind_of_ok hwritten, on_bind_of_ok (on_printLine _)]
  obtain ⟨result, printed', t', hgive, hproper, hmore⟩ := on_giveSample hcreates.proper hbase _
  refine ⟨result, printed', t', hgive, hgains.trans hmore, fun _ => ?_⟩
  exact Setting.hasConfig_of_node (hmore.node_eq_ok hcreates.proper hproper hcreates.node_eq_ok)

theorem outcome_init_of_on {result : Except Stop Unit}
    (h : on s.host.cwd (runInit s) ⟨"", ""⟩ t = ((result, printed), t')) :
    outcome s t .init = (Result.ofSession s.palette (result, printed), t') :=
  outcome_of_on rfl h

theorem outcome_init_of_hasConfig (h : s.HasConfig t) :
    (outcome s t .init).1.exit = 0 ∧ (outcome s t .init).2 = t := by
  obtain ⟨printed, hrun⟩ := on_runInit_of_hasConfig h ⟨"", ""⟩
  rw [outcome_init_of_on hrun]
  exact ⟨rfl, rfl⟩

theorem outcome_init_of_not_hasConfig (ht : t.Proper) (h : ¬ s.HasConfig t) :
    t.Gains (IsGiven s.top) (outcome s t .init).2 ∧
      ((outcome s t .init).1.exit = 0 → s.HasConfig (outcome s t .init).2) := by
  obtain ⟨result, printed, t', hrun, hgains, hconfig⟩ := on_runInit_of_not_hasConfig ht h ⟨"", ""⟩
  rw [outcome_init_of_on hrun]
  refine ⟨hgains, fun hexit => ?_⟩
  cases result with
  | ok _ => exact hconfig rfl
  | error e => exact absurd hexit exit_ne_zero_of_error

end Runs

/-- The start of a project keeps all that is there, and gives at most a configuration, a first text and the
directories above the text. A project with a configuration is given nothing. And after a start that
succeeds there is one, so a second start succeeds and changes nothing. -/
theorem init_settles (s : Setting) (t : Tree) (ht : t.Proper) :
    let first := outcome s t .init
    let second := outcome s first.2 .init
    t.Gains (IsGiven s.top) first.2 ∧
      (s.HasConfig t → first.1.exit = 0 ∧ first.2 = t) ∧
      (first.1.exit = 0 → s.HasConfig first.2 ∧ second.1.exit = 0 ∧ second.2 = first.2) := by
  have hsettled : s.HasConfig (outcome s t .init).2 → _ := outcome_init_of_hasConfig
  by_cases h : s.HasConfig t
  · obtain ⟨hexit, hsame⟩ := outcome_init_of_hasConfig h
    have hkept : s.HasConfig (outcome s t .init).2 := by rwa [hsame]
    refine ⟨?_, fun _ => ⟨hexit, hsame⟩, fun _ => ⟨hkept, hsettled hkept⟩⟩
    rw [hsame]
    exact .refl _ t
  · obtain ⟨hgains, hconfig⟩ := outcome_init_of_not_hasConfig ht h
    exact ⟨hgains, fun hhas => absurd hhas h, fun hexit => ⟨hconfig hexit, hsettled (hconfig hexit)⟩⟩

/-- A project with a directory where a configuration is looked for, and another one for its sources. -/
def barredTree : Tree :=
  ⟨[(["src"], .directory), ([".text-types.toml"], .directory)], []⟩

theorem init_settles_beside_directories :
    let first := outcome smallSetting barredTree .init
    let second := outcome smallSetting first.2 .init
    barredTree.Proper ∧ ¬ smallSetting.HasConfig barredTree ∧ first.1.exit = 0 ∧
      first.2.find? [".text-types.toml"] = some .directory ∧
      first.2.find? ["src", "content", "hello.md"] = some (.file sampleText.toUTF8) ∧
      second.1.exit = 0 ∧ second.2 = first.2 := by
  have hproper : barredTree.Proper := by decide +kernel
  have hexit : (outcome smallSetting barredTree .init).1.exit = 0 := by decide +kernel
  obtain ⟨hgains, hnothing, hsettles⟩ := init_settles smallSetting barredTree hproper
  have hfile : (outcome smallSetting barredTree .init).2.find? ["src", "content", "hello.md"]
      = some (.file sampleText.toUTF8) := by decide +kernel
  refine ⟨hproper, fun hhas => ?_, hexit, hgains.keeps _ _ (by decide +kernel), hfile, (hsettles hexit).2⟩
  rw [(hnothing hhas).2] at hfile
  exact absurd hfile (by decide +kernel)

end Command

end CommandLine

end TextCatalog
