import TextCatalog.Proofs.CommandLine.Run
import TextCatalog.Proofs.Json.Layout
import TextCatalog.Proofs.Pipeline.Written

/-!
# What a check foretells

A check compares texts and a run compares bytes. Both find the same artifacts current, so a check passes
exactly if a run would write nothing. But a file that is no text stops the check, where a run would just
write it.
-/

namespace TextCatalog

open Disk
open RawText (dot)

namespace CommandLine

open Session

variable {cwd : Path} {t : Tree} {as : List Artifact.Rendered}

/-- Nothing is at the path, or a file that is a text. -/
def IsPlain (cwd : Path) (t : Tree) (p : Path) : Prop :=
  t.read cwd p = .error .notFound ∨ ∃ text : String, t.read cwd p = .ok text.toUTF8

section Looks

theorem Setting.looks_pipeline (s : Setting) : s.pipeline.Looks := by
  refine (looks_work ?_).bind fun config => ?_
  · cases s.config with
    | some path => exact Config.looks_loadFrom path
    | none =>
      refine Action.asks_bind (Config.looks_load s.root) fun found => ?_
      cases found <;> exact .done _
  · have hlast : (work (Action.ofExcept (Pipeline.ofConfig s.host s.root config))).Looks :=
      looks_work (.done _)
    cases s.verbose with
    | false => exact hlast
    | true =>
      have hused (path : Path) :=
        (looks_printLine ("Using config: " ++ path.display)).bind fun _ => hlast
      cases s.config with
      | some path => exact hused path
      | none =>
        refine (looks_disk (Config.looks_firstFile? _)).bind fun found => ?_
        cases found with
        | none => exact hlast
        | some path => exact hused path

namespace Command

theorem looks_staleAmong (as : List Artifact.Rendered) : (staleAmong as).Asks Op.Looks := by
  induction as with
  | nil => exact .done _
  | cons a as ih =>
    refine (looks_readText a.path).bind fun current => ?_
    split
    next text =>
      split
      · exact ih
      · exact ih.bind fun _ => .done _
    next => exact ih.bind fun _ => .done _
    next => exact .done _

theorem looks_runCheck (s : Setting) (showDiff : Bool) (format : Format) :
    (runCheck s showDiff format).Looks := by
  refine s.looks_pipeline.bind fun p => (looks_work (p.looks_prepare s.host)).bind fun prepared => ?_
  refine (looks_plainly (looks_staleAmong prepared.artifacts)).bind fun stale => ?_
  have hlast : (if !stale.isEmpty then throw .unsuccessful else pure () : Session Unit).Looks := by
    split
    · exact looks_throw .unsuccessful
    · exact looks_pure ()
  cases format with
  | json => exact (looks_printLine _).bind fun _ => hlast
  | text =>
    dsimp only
    split
    · exact (looks_printLine _).bind fun _ => hlast
    · refine (looks_printErrorLine _).bind fun _ => (looks_forM (fun st => ?_) stale).bind fun _ =>
        (looks_printErrorLine _).bind fun _ => (looks_printErrorLine _).bind fun _ => hlast
      refine (looks_printErrorLine _).bind fun _ => ?_
      split
      · exact looks_printError _
      · exact looks_pure ()

end Command

end Looks

namespace Command

/-- What a check says of an artifact that is not current. -/
def staleAt (cwd : Path) (t : Tree) (a : Artifact.Rendered) : Stale :=
  ⟨a, (textAt cwd t a.path).toOption⟩

theorem run_staleAmong_cons_of_isPlain {a : Artifact.Rendered} (h : IsPlain cwd t a.path) :
    (staleAmong (a :: as)).run (Tree.perform cwd) t
      = (((staleAmong as).run (Tree.perform cwd) t).1.map fun rest =>
            if Pipeline.isCurrent cwd t a then rest else staleAt cwd t a :: rest,
          ((staleAmong as).run (Tree.perform cwd) t).2) := by
  have hrun : (staleAmong (a :: as)).run (Tree.perform cwd) t = _ :=
    Script.run_bind (Tree.perform cwd) (readText a.path) _ t
  rw [hrun, run_readText]
  rcases h with hmissing | ⟨text, hread⟩
  · have hstale : ¬ Pipeline.isCurrent cwd t a = true := by simp [Pipeline.isCurrent, hmissing]
    simp only [staleAt, textAt_eq_notFound_iff.2 hmissing, hstale]
    exact Script.run_bind (Tree.perform cwd) (staleAmong as) _ t
  · have hcurrent : Pipeline.isCurrent cwd t a = true ↔ text = a.content := by
      rw [Pipeline.isCurrent_iff, hread, Except.ok.injEq]
      exact String.toByteArray_inj
    simp only [staleAt, textAt_eq_ok_iff.2 hread, hcurrent]
    split
    · generalize (staleAmong as).run (Tree.perform cwd) t = others
      obtain ⟨result, t'⟩ := others
      cases result <;> rfl
    · exact Script.run_bind (Tree.perform cwd) (staleAmong as) _ t

theorem run_staleAmong_cons_of_not_isPlain {a : Artifact.Rendered} (h : ¬ IsPlain cwd t a.path) :
    ∃ cause, (staleAmong (a :: as)).run (Tree.perform cwd) t = (.error cause, t) := by
  have hrun : (staleAmong (a :: as)).run (Tree.perform cwd) t = _ :=
    Script.run_bind (Tree.perform cwd) (readText a.path) _ t
  rw [run_readText] at hrun
  rw [hrun]
  dsimp only
  split
  next text htext => exact absurd (.inr ⟨text, textAt_eq_ok_iff.1 htext⟩) h
  next hmissing => exact absurd (.inl (textAt_eq_notFound_iff.1 hmissing)) h
  next cause _ _ => exact ⟨cause, rfl⟩

/-- A check looks at the artifacts until one has a file that cannot be read as a text. -/
theorem run_staleAmong (cwd : Path) (t : Tree) (as : List Artifact.Rendered) :
    (∀ a ∈ as, IsPlain cwd t a.path) ∧
        (staleAmong as).run (Tree.perform cwd) t
          = (.ok ((as.filter fun a => !Pipeline.isCurrent cwd t a).map (staleAt cwd t)), t) ∨
      (¬ ∀ a ∈ as, IsPlain cwd t a.path) ∧
        ∃ cause, (staleAmong as).run (Tree.perform cwd) t = (.error cause, t) := by
  induction as with
  | nil => exact .inl ⟨by simp, rfl⟩
  | cons a as ih =>
    rw [List.forall_mem_cons]
    by_cases ha : IsPlain cwd t a.path
    · rw [run_staleAmong_cons_of_isPlain ha]
      rcases ih with ⟨has, hothers⟩ | ⟨has, cause, hothers⟩
      · rw [hothers]
        refine .inl ⟨⟨ha, has⟩, ?_⟩
        cases hcurrent : Pipeline.isCurrent cwd t a <;> simp [hcurrent, Except.map]
      · rw [hothers]
        exact .inr ⟨fun h => has h.2, cause, rfl⟩
    · exact .inr ⟨fun h => ha h.1, run_staleAmong_cons_of_not_isPlain ha⟩

section Output

variable {s : Setting} {root : Path} {showDiff : Bool} {format : Format} {stale : List Stale}
  {printed : Printed}

/-- What a check prints about a stale artifact. -/
def staleText (s : Setting) (root : Path) (showDiff : Bool) (st : Stale) : String :=
  "  " ++ st.artifact.kind.name ++ " " ++ Path.shownFrom root st.artifact.path ++
    " (" ++ st.status ++ ")\n" ++
    if showDiff then diffText s.palette (st.current.getD "") st.artifact.content else ""

/-- What a check prints in the end. -/
def checkOutput (s : Setting) (root : Path) (showDiff : Bool) (stale : List Stale) : Format → Printed
  | .json => ⟨(staleJson root stale).compact ++ "\n", ""⟩
  | .text =>
    if stale.isEmpty then ⟨"Check passed: all generated artifacts are up to date.\n", ""⟩
    else
      ⟨"", "Check failed.\n" ++ String.join (stale.map (staleText s root showDiff)) ++ "\n" ++
        toString stale.length ++
        " artifact(s) are out of date. Run `text-types generate` to fix.\n"⟩

theorem isPlain_staleJson (root : Path) (stale : List Stale) : (staleJson root stale).IsPlain := by
  refine ⟨trivial, Json.arePlain_iff.2 ?_, trivial⟩
  rw [List.forall_mem_map]
  exact fun _ _ => ⟨trivial, trivial, trivial, trivial⟩

/-- The data that a check prints are read back. -/
theorem parse?_checkOutput (s : Setting) (root : Path) (showDiff : Bool) (stale : List Stale) :
    Json.parse? (checkOutput s root showDiff stale .json).out = some (staleJson root stale) :=
  Json.parse?_compact (isPlain_staleJson root stale) (by decide)

/-- What has been printed, with more behind it. -/
def followedBy (printed more : Printed) : Printed :=
  ⟨printed.out ++ more.out, printed.err ++ more.err⟩

theorem on_stale_forM :
    on cwd (stale.forM fun st => do
        printErrorLine ("  " ++ st.artifact.kind.name ++ " " ++
          Path.shownFrom root st.artifact.path ++ " (" ++ st.status ++ ")")
        if showDiff then
          printError (diffText s.palette (st.current.getD "") st.artifact.content)) printed t
      = ((.ok (), { printed with
          err := printed.err ++ String.join (stale.map (staleText s root showDiff)) }), t) := by
  induction stale generalizing printed with
  | nil => simp [String.join]
  | cons st stale ih =>
    rw [on_forM_cons]
    cases showDiff <;>
      rw [on_bind_of_ok (on_bind_of_ok (on_printErrorLine _)), ih] <;>
      simp [staleText, String.append_assoc]

/-- What a check comes to once it knows which artifacts are stale. -/
theorem on_runCheck_of_ok {p : Pipeline} {prepared : Prepared}
    (hpipeline : on s.host.cwd s.pipeline ⟨"", ""⟩ t = ((.ok p, printed), t))
    (hprepare : Action.on s.host.cwd (p.prepare s.host) t = (.ok prepared, t))
    (hstale : (staleAmong prepared.artifacts).run (Tree.perform s.host.cwd) t = (.ok stale, t)) :
    on s.host.cwd (runCheck s showDiff format) ⟨"", ""⟩ t
      = ((if stale.isEmpty then .ok () else .error .unsuccessful,
          followedBy printed (checkOutput s p.context.root showDiff stale format)), t) := by
  rw [runCheck, on_bind_of_ok hpipeline]
  dsimp only
  rw [on_bind_of_ok (on_work_of_ok hprepare), on_bind_of_ok (on_plainly_of_ok hstale)]
  cases format with
  | json =>
    dsimp only
    rw [on_bind_of_ok (on_printLine _)]
    cases hempty : stale.isEmpty <;> simp [followedBy, checkOutput]
  | text =>
    dsimp only
    cases hempty : stale.isEmpty with
    | true =>
      simp only [if_true]
      rw [on_bind_of_ok (on_printLine _)]
      simp [followedBy, checkOutput, hempty]
    | false =>
      simp only [Bool.false_eq_true, if_false]
      rw [on_bind_of_ok (on_printErrorLine _), on_bind_of_ok on_stale_forM,
        on_bind_of_ok (on_printErrorLine _), on_bind_of_ok (on_printErrorLine _)]
      simp [followedBy, checkOutput, hempty, String.append_assoc]

theorem on_runCheck_of_unprepared {p : Pipeline} {e : Error}
    (hpipeline : on s.host.cwd s.pipeline ⟨"", ""⟩ t = ((.ok p, printed), t))
    (hprepare : Action.on s.host.cwd (p.prepare s.host) t = (.error e, t)) :
    on s.host.cwd (runCheck s showDiff format) ⟨"", ""⟩ t = ((.error (.failed e), printed), t) := by
  rw [runCheck, on_bind_of_ok hpipeline]
  dsimp only
  rw [on_bind_of_error (on_work_of_error hprepare)]

theorem on_runCheck_of_error {p : Pipeline} {prepared : Prepared} {cause : Cause}
    (hpipeline : on s.host.cwd s.pipeline ⟨"", ""⟩ t = ((.ok p, printed), t))
    (hprepare : Action.on s.host.cwd (p.prepare s.host) t = (.ok prepared, t))
    (hstale : (staleAmong prepared.artifacts).run (Tree.perform s.host.cwd) t = (.error cause, t)) :
    on s.host.cwd (runCheck s showDiff format) ⟨"", ""⟩ t
      = ((.error (.troubled cause.message), printed), t) := by
  rw [runCheck, on_bind_of_ok hpipeline]
  dsimp only
  rw [on_bind_of_ok (on_work_of_ok hprepare), on_bind_of_error (on_plainly_of_error hstale)]

end Output

section Runs

variable {s : Setting} {t' : Tree} {p : Pipeline} {printed : Printed} {report : Report}
  {showDiff : Bool} {format : Format}

/-- What a command comes to in a project, and the tree that it leaves. -/
def outcome (s : Setting) (t : Tree) (command : Command) : Result × Tree :=
  (Result.run s.palette (Command.run s command)).run (Tree.perform s.host.cwd) t

/-- A run of the project gives the report and leaves the tree `t'`. -/
structure Generates (s : Setting) (t : Tree) (p : Pipeline) (printed : Printed) (report : Report)
    (t' : Tree) : Prop where
  pipeline : on s.host.cwd s.pipeline ⟨"", ""⟩ t = ((.ok p, printed), t)
  generate : Action.on s.host.cwd (p.generate s.host) t = (.ok report, t')

theorem prints_printReport (s : Setting) (p : Pipeline) (r : Report) : (printReport s p r).Prints := by
  refine (prints_forM (fun a => ?_) r.artifacts).bind ?_
  · dsimp only
    split
    · exact prints_printLine _
    · split
      · exact prints_printLine _
      · exact prints_pure
  · refine (prints_printLine _).bind ?_
    split
    · exact prints_printLine _
    · exact prints_pure

theorem Generates.unique {p' : Pipeline} {printed' : Printed} {report' : Report} {t'' : Tree}
    (h : Generates s t p printed report t') (h' : Generates s t p' printed' report' t'') :
    p = p' ∧ printed = printed' ∧ report = report' ∧ t' = t'' := by
  have hpipeline := h.pipeline.symm.trans h'.pipeline
  rw [Prod.mk.injEq, Prod.mk.injEq, Except.ok.injEq] at hpipeline
  obtain ⟨⟨rfl, rfl⟩, -⟩ := hpipeline
  have hgenerate := h.generate.symm.trans h'.generate
  rw [Prod.mk.injEq, Except.ok.injEq] at hgenerate
  exact ⟨rfl, rfl, hgenerate.1, hgenerate.2⟩

/-- The command that generates succeeds exactly if the run does. -/
theorem exit_generate_eq_zero_iff :
    (outcome s t (.generate false)).1.exit = 0 ↔
      ∃ p printed report, Generates s t p printed report (outcome s t (.generate false)).2 := by
  have hcommand : Command.run s (.generate false) = runGenerate s false := rfl
  rw [outcome, hcommand, run_result]
  obtain ⟨result, printed, hpipeline⟩ := s.looks_pipeline.exists_on s.host.cwd ⟨"", ""⟩ t
  cases result with
  | error e =>
    have hrun : on s.host.cwd (runGenerate s false) ⟨"", ""⟩ t = ((.error e, printed), t) :=
      on_bind_of_error hpipeline
    rw [hrun]
    refine iff_of_false exit_ne_zero_of_error ?_
    rintro ⟨p, printed', report, h⟩
    cases hpipeline.symm.trans h.pipeline
  | ok p =>
    rcases hgenerate : Action.on s.host.cwd (p.generate s.host) t with ⟨e | report, t'⟩
    · have hrun : on s.host.cwd (runGenerate s false) ⟨"", ""⟩ t
          = ((.error (.failed e), printed), t') := by
        rw [runGenerate, on_bind_of_ok hpipeline, on_bind_of_error (on_work_of_error hgenerate)]
      rw [hrun]
      refine iff_of_false exit_ne_zero_of_error ?_
      rintro ⟨p', printed', report, h⟩
      obtain rfl : p = p' := Except.ok.inj (Prod.mk.inj (Prod.mk.inj
        (hpipeline.symm.trans h.pipeline)).1).1
      cases hgenerate.symm.trans h.generate
    · obtain ⟨printed', hreport⟩ := prints_printReport s p report s.host.cwd printed t'
      have hrun : on s.host.cwd (runGenerate s false) ⟨"", ""⟩ t = ((.ok none, printed'), t') := by
        rw [runGenerate, on_bind_of_ok hpipeline, on_bind_of_ok (on_work_of_ok hgenerate),
          on_bind_of_ok hreport]
        rfl
      rw [hrun]
      exact iff_of_true rfl ⟨p, printed, report, hpipeline, hgenerate⟩

/-- What a command without anything to watch comes to. -/
theorem outcome_of_on {command : Command} {σ : Session Unit} {result : Except Stop Unit}
    (hcommand : Command.run s command = (do σ; return none))
    (h : on s.host.cwd σ ⟨"", ""⟩ t = ((result, printed), t')) :
    outcome s t command = (Result.ofSession s.palette (result, printed), t') := by
  rw [outcome, hcommand, run_result]
  cases result with
  | ok _ =>
    rw [on_bind_of_ok h]
    rfl
  | error e =>
    rw [on_bind_of_error h]
    cases e <;> rfl

theorem outcome_check_of_on {result : Except Stop Unit}
    (h : on s.host.cwd (runCheck s showDiff format) ⟨"", ""⟩ t = ((result, printed), t')) :
    outcome s t (.check showDiff format) = (Result.ofSession s.palette (result, printed), t') :=
  outcome_of_on rfl h

/-- What the check comes to where it has the artifacts. -/
theorem check_of_prepared {prepared : Prepared}
    (hpipeline : on s.host.cwd s.pipeline ⟨"", ""⟩ t = ((.ok p, printed), t))
    (hprepare : Action.on s.host.cwd (p.prepare s.host) t = (.ok prepared, t)) :
    let checked := outcome s t (.check showDiff format)
    let stale := (prepared.artifacts.filter fun a => !Pipeline.isCurrent s.host.cwd t a).map
      (staleAt s.host.cwd t)
    (∀ a ∈ prepared.artifacts, IsPlain s.host.cwd t a.path) ∧
        checked.1.exit = (if stale.isEmpty then 0 else 1) ∧
        checked.1.printed = followedBy printed (checkOutput s p.context.root showDiff stale format) ∨
      (¬ ∀ a ∈ prepared.artifacts, IsPlain s.host.cwd t a.path) ∧ checked.1.exit = 2 := by
  intro checked stale
  rcases run_staleAmong s.host.cwd t prepared.artifacts with ⟨hplain, hstale⟩ | ⟨hplain, cause, hstale⟩
  · have hchecked : checked = _ := outcome_check_of_on (on_runCheck_of_ok hpipeline hprepare hstale)
    rw [hchecked]
    refine .inl ⟨hplain, ?_⟩
    change Result.exit (Result.ofSession s.palette (if stale.isEmpty then _ else _, _)) = _ ∧ _
    cases stale.isEmpty <;> exact ⟨rfl, rfl⟩
  · have hchecked : checked = _ := outcome_check_of_on (on_runCheck_of_error hpipeline hprepare hstale)
    rw [hchecked]
    exact .inr ⟨hplain, rfl⟩

theorem isPlain_of_isCurrent {a : Artifact.Rendered} (h : Pipeline.isCurrent cwd t a = true) :
    IsPlain cwd t a.path :=
  .inr ⟨a.content, Pipeline.isCurrent_iff.1 h⟩

theorem status_staleAt {a : Artifact.Rendered} (h : IsPlain cwd t a.path) :
    (staleAt cwd t a).status = "missing" ↔ ∀ bytes, t.read cwd a.path ≠ .ok bytes := by
  rw [Stale.status, staleAt]
  rcases h with hmissing | ⟨text, hread⟩
  · simp [textAt_eq_notFound_iff.2 hmissing, hmissing, Except.toOption]
  · simp [textAt_eq_ok_iff.2 hread, hread, Except.toOption]

/-- A check passes exactly if a run would have nothing to write. -/
theorem exit_check_eq_zero_iff :
    (outcome s t (.check showDiff format)).1.exit = 0 ↔
      ∃ p printed report t', Generates s t p printed report t' ∧ report.hasChanges = false := by
  constructor
  · intro hexit
    obtain ⟨result, printed, hpipeline⟩ := s.looks_pipeline.exists_on s.host.cwd ⟨"", ""⟩ t
    cases result with
    | error e =>
      rw [outcome_check_of_on (on_bind_of_error hpipeline)] at hexit
      exact absurd hexit exit_ne_zero_of_error
    | ok p =>
      obtain ⟨result, hprepare⟩ := Action.exists_on_of_looks (p.looks_prepare s.host) s.host.cwd t
      cases result with
      | error e =>
        rw [outcome_check_of_on (on_runCheck_of_unprepared hpipeline hprepare)] at hexit
        exact absurd hexit exit_ne_zero_of_error
      | ok prepared =>
        rcases check_of_prepared hpipeline hprepare with ⟨-, hempty, -⟩ | ⟨-, htwo⟩
        · have hcurrent : ∀ a ∈ prepared.artifacts, Pipeline.isCurrent s.host.cwd t a = true := by
            rw [hexit] at hempty
            split at hempty
            next hnone => simpa using hnone
            next => cases hempty
          have hwritten : Action.on s.host.cwd (prepared.artifacts.mapM (Pipeline.write s.host)) t = _ :=
            Pipeline.on_mapM_write_of_read fun a ha => Pipeline.isCurrent_iff.1 (hcurrent a ha)
          obtain ⟨report, hgenerate, hunchanged⟩ : ∃ report,
              Action.on s.host.cwd (p.generate s.host) t = (.ok report, t) ∧
                report.hasChanges = false := by
            rw [Pipeline.generate, Action.on_bind_of_ok hprepare, Action.on_bind_of_ok hwritten]
            exact ⟨_, rfl, by simp [Report.hasChanges]⟩
          exact ⟨p, printed, report, t, ⟨hpipeline, hgenerate⟩, hunchanged⟩
        · rw [hexit] at htwo
          cases htwo
  · rintro ⟨p, printed, report, t', h, hunchanged⟩
    obtain ⟨prepared, hprepare, hwritten, -⟩ := Pipeline.exists_prepared h.generate
    have hcurrent := Pipeline.isCurrent_of_unchanged hwritten (by
      simpa [Report.hasChanges] using hunchanged)
    rcases check_of_prepared h.pipeline hprepare with ⟨-, hexit, -⟩ | ⟨hplain, -⟩
    · rw [hexit, if_pos]
      simpa using hcurrent
    · exact absurd (fun a ha => isPlain_of_isCurrent (hcurrent a ha)) hplain

/-- Where a run would write, the check names just what would be written, unless there is a file that is
no text. -/
theorem check_of_hasChanges (h : Generates s t p printed report t') (hchanges : report.hasChanges = true) :
    let checked := outcome s t (.check showDiff format)
    ((∀ a ∈ p.context.artifactPaths, IsPlain s.host.cwd t a) → checked.1.exit = 1 ∧ ∃ stale,
        checked.1.printed = followedBy printed (checkOutput s p.context.root showDiff stale format) ∧
        Json.parse? (checkOutput s p.context.root showDiff stale .json).out = some (.object
          [("ok", .bool false), ("stale", .array (stale.map fun st => .object
            [("kind", .string st.artifact.kind.name),
             ("path", .string (Path.shownFrom p.context.root st.artifact.path)),
             ("status", .string st.status)]))]) ∧
        (∀ st ∈ stale, st.status = "missing" ↔
          ∀ bytes, t.read s.host.cwd st.artifact.path ≠ .ok bytes) ∧
        (p.KeepsApart s.host t → stale.map (fun st => (st.artifact.kind, st.artifact.path))
          = (report.artifacts.filter (·.changed)).map fun w => (w.kind, w.path))) ∧
      ((¬ ∀ a ∈ p.context.artifactPaths, IsPlain s.host.cwd t a) → checked.1.exit = 2) := by
  intro checked
  obtain ⟨prepared, hprepare, hwritten, hpaths⟩ := Pipeline.exists_prepared h.generate
  have hplain : (∀ a ∈ p.context.artifactPaths, IsPlain s.host.cwd t a) ↔
      ∀ a ∈ prepared.artifacts, IsPlain s.host.cwd t a.path := by
    rw [← hpaths, List.forall_mem_map]
  -- A check that passes foretells a run without changes, and there is one run only.
  have hnonzero : checked.1.exit ≠ 0 := by
    intro hzero
    obtain ⟨p', printed', report', t'', h', hunchanged⟩ := exit_check_eq_zero_iff.1 hzero
    obtain ⟨-, -, rfl, -⟩ := h.unique h'
    rw [hchanges] at hunchanged
    cases hunchanged
  rw [hplain]
  rcases check_of_prepared h.pipeline hprepare with ⟨hall, hexit, hprinted⟩ | ⟨hnot, hexit⟩
  · have hsome : ¬ ((prepared.artifacts.filter fun a => !Pipeline.isCurrent s.host.cwd t a).map
        (staleAt s.host.cwd t)).isEmpty = true := by
      intro hnone
      rw [hexit, if_pos hnone] at hnonzero
      exact hnonzero rfl
    refine ⟨fun _ => ⟨?_, _, hprinted, ?_, ?_, fun hapart => ?_⟩, fun hnot => absurd hall hnot⟩
    · rw [hexit, if_neg hsome]
    · rw [parse?_checkOutput, staleJson, Bool.eq_false_iff.2 hsome]
    · intro st hst
      obtain ⟨a, ha, rfl⟩ := List.mem_map.1 hst
      exact status_staleAt (hall a (List.mem_filter.1 ha).1)
    · have hreport := Pipeline.written_of_isUndisturbed (hapart prepared hprepare) hwritten
      rw [hreport, List.filter_map, List.map_map, List.map_map]
      rfl
  · exact ⟨fun hall => absurd hall hnot, fun _ => hexit⟩

end Runs

/-- A check leaves the disk alone. It passes exactly if a run would succeed and have nothing to write, and
where a run would write, it names what would be written, also as data that are read back, as long as every
file there is a text. -/
theorem check_foretells_generate (s : Setting) (t : Tree) (showDiff : Bool) (format : Format) :
    let checked := outcome s t (.check showDiff format)
    let generated := outcome s t (.generate false)
    checked.2 = t ∧
    (generated.1.exit = 0 ↔ ∃ p printed report, Generates s t p printed report generated.2) ∧
    (checked.1.exit = 0 ↔
      ∃ p printed report t', Generates s t p printed report t' ∧ report.hasChanges = false) ∧
    (∀ p printed report t', Generates s t p printed report t' → report.hasChanges = true →
      ((∀ a ∈ p.context.artifactPaths, IsPlain s.host.cwd t a) → checked.1.exit = 1 ∧ ∃ stale,
        checked.1.printed = followedBy printed (checkOutput s p.context.root showDiff stale format) ∧
        Json.parse? (checkOutput s p.context.root showDiff stale .json).out = some (.object
          [("ok", .bool false), ("stale", .array (stale.map fun st => .object
            [("kind", .string st.artifact.kind.name),
             ("path", .string (Path.shownFrom p.context.root st.artifact.path)),
             ("status", .string st.status)]))]) ∧
        (∀ st ∈ stale, st.status = "missing" ↔
          ∀ bytes, t.read s.host.cwd st.artifact.path ≠ .ok bytes) ∧
        (p.KeepsApart s.host t → stale.map (fun st => (st.artifact.kind, st.artifact.path))
          = (report.artifacts.filter (·.changed)).map fun w => (w.kind, w.path))) ∧
      ((¬ ∀ a ∈ p.context.artifactPaths, IsPlain s.host.cwd t a) → checked.1.exit = 2)) ∧
    ∀ p : Pipeline, t.Proper →
      (∀ a ∈ p.context.artifactPaths, a.isAbsolute = true ∧ [dot, dot] ∉ a.pieces) →
      (p.context.artifactPaths.Pairwise fun a b =>
        b.location ≠ a.location ∧ b.location ≠ (a.withExtension s.host.mark).location) →
      p.KeepsApart s.host t := by
  intro checked generated
  refine ⟨?_, exit_generate_eq_zero_iff, exit_check_eq_zero_iff, ?_, ?_⟩
  · obtain ⟨result, printed, hrun⟩ :=
      (looks_runCheck s showDiff format).exists_on s.host.cwd ⟨"", ""⟩ t
    exact congrArg Prod.snd (outcome_check_of_on hrun)
  · intro p printed report t' h hchanges
    exact check_of_hasChanges h hchanges
  · intro p ht hpaths hapart
    exact Pipeline.keepsApart_of_distinct ht hpaths hapart

section Sample

/-! A project in the root directory whose sources lie beside its configuration, with the module in its
usual place. -/

def smallSetting : Setting := ⟨⟨⟨"/"⟩, "tmp-1-2"⟩, none, none, false, ⟨false⟩⟩

/-- The project with one source, and what else is there. -/
def smallTree (others : List (Location × Node)) : Tree :=
  ⟨(["text-types.toml"], .file "include = \"*.md\"\n".toUTF8) :: (["a.md"], .file "x".toUTF8) ::
    others, []⟩

def smallPipeline? : Option Pipeline :=
  (on smallSetting.host.cwd smallSetting.pipeline ⟨"", ""⟩ (smallTree [])).1.1.toOption

theorem check_foretells_generate_of_missing :
    ∃ p printed report t', Generates smallSetting (smallTree []) p printed report t' ∧
      report.hasChanges = true ∧
      (outcome smallSetting (smallTree []) (.check false .json)).1.exit = 1 ∧
      ∃ stale : List Stale,
        stale.map (fun st => (st.artifact.kind, st.artifact.path))
          = (report.artifacts.filter (·.changed)).map (fun w => (w.kind, w.path)) ∧
        ∀ st ∈ stale, st.status = "missing" ↔
          ∀ bytes, (smallTree []).read smallSetting.host.cwd st.artifact.path ≠ .ok bytes := by
  obtain ⟨-, hgenerated, hzero, hchanges, hapart⟩ :=
    check_foretells_generate smallSetting (smallTree []) false .json
  obtain ⟨p, printed, report, h⟩ := hgenerated.1 (by decide +kernel)
  have hexit : (outcome smallSetting (smallTree []) (.check false .json)).1.exit = 1 := by
    decide +kernel
  have hwrites : report.hasChanges = true := by
    rw [← Bool.not_eq_false]
    intro hunchanged
    rw [hzero.2 ⟨p, printed, report, _, h, hunchanged⟩] at hexit
    cases hexit
  have hp : smallPipeline? = some p := by rw [smallPipeline?, h.pipeline]; rfl
  have hpaths : p.context.artifactPaths = [⟨"/src/@generated/text-types/index.ts"⟩] := by
    have hsome : smallPipeline?.map (·.context.artifactPaths)
        = some [⟨"/src/@generated/text-types/index.ts"⟩] := by decide +kernel
    rw [hp] at hsome
    exact Option.some.inj hsome
  have hkeeps : p.KeepsApart smallSetting.host (smallTree []) := by
    apply hapart p (by decide +kernel)
    · rw [hpaths]
      decide +kernel
    · rw [hpaths]
      exact List.pairwise_singleton _ _
  obtain ⟨hplain, hbytes⟩ := hchanges p printed report _ h hwrites
  have hall : ∀ a ∈ p.context.artifactPaths, IsPlain smallSetting.host.cwd (smallTree []) a := by
    by_contra hnot
    rw [hbytes hnot] at hexit
    cases hexit
  obtain ⟨-, stale, -, -, hstatus, hnames⟩ := hplain hall
  exact ⟨p, printed, report, _, h, hwrites, hexit, stale, hnames hkeeps, hstatus⟩

/-- A project without sources, with a declaration and a manifest. -/
def sourceless (declaration manifest : String) : Config :=
  { Config.usual with
    included := .one "b", output := .toggle false, declaration := .path ⟨declaration⟩,
    manifest := .path ⟨manifest⟩ }

/-- The project with a byte for a module that begins no character. -/
def bytesTree : Tree :=
  smallTree [(["src"], .directory), (["src", "@generated"], .directory),
    (["src", "@generated", "text-types"], .directory),
    (["src", "@generated", "text-types", "index.ts"], .file ⟨#[0xff]⟩)]

def manifestTree : Tree :=
  ⟨[(["t"], .file
    (Artifact.Manifest.render [] ⟨Config.usualMaxLiteralLength, .standard⟩).toUTF8)], []⟩

/-- A file that is no text is written by a run, but stops the check. And a file that can only be read
once a directory has been made for another one is missing for the check, though a run leaves it. -/
theorem check_misjudges :
    (bytesTree.Proper ∧
      (outcome smallSetting bytesTree (.check false .text)).1
        = ⟨2, ⟨"", "error: stream did not contain valid UTF-8\n"⟩, none⟩ ∧
      (outcome smallSetting bytesTree (.generate false)).1
        = ⟨0, ⟨"  wrote src/@generated/text-types/index.ts (module)\n" ++
            "Generated 1 text(s): 1 artifact(s) written, 0 unchanged.\n", ""⟩, none⟩) ∧
    ∃ p, Pipeline.ofConfig smallSetting.host ⟨"/"⟩ (sourceless "/x/d.ts" "/x/../t") = .ok p ∧
      manifestTree.Proper ∧ manifestTree.read ⟨"/"⟩ ⟨"/x/../t"⟩ = .error .notFound ∧
      (Action.on ⟨"/"⟩ (p.generate smallSetting.host) manifestTree).1.toOption.map (·.artifacts)
        = some [⟨.declaration, ⟨"/x/d.ts"⟩, true⟩, ⟨.manifest, ⟨"/x/../t"⟩, false⟩] :=
  ⟨by decide +kernel, _, Pipeline.eq_ok_get (by decide +kernel), by decide +kernel⟩

end Sample

end Command

end CommandLine

end TextCatalog
