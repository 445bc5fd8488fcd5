import TextCatalog.Proofs.Artifact.Agreement
import TextCatalog.Proofs.CommandLine.Check
import TextCatalog.Proofs.Path.Shown
import TextCatalog.Proofs.Reader.Served
import TextCatalog.Proofs.Source.Keys
import TextCatalog.Proofs.Source.Owner

/-!
# What is listed and rendered

The commands that show texts read them again, and find for themselves which file a text is from, what its
placeholders are and whether it is short. They say what the artifacts say, but for the one key under which
the object of a module holds no text.
-/

namespace TextCatalog

open Disk

namespace Artifact.Module

open Reader (Object unitsOf)

/-- The object of a module, which the lines of its texts make one after the other. -/
def object? (source : String) : Option Object :=
  ((textLines (Text.split '\n' source)).mapM (entryLine? text?)).map fun texts =>
    texts.foldl (fun o text => o.assign (unitsOf text.1) (unitsOf text.2)) fun _ => none

/-- What the object of a module holds under a key, in code units. -/
def value? (source key : String) : Option (List Nat) :=
  (object? source).bind fun o => o (unitsOf key)

theorem object?_render (entries : List Entry) (o : Options) :
    object? (render entries o) = some (entries.foldl
      (fun (o : Object) e => o.assign (unitsOf e.key) (unitsOf e.content)) fun _ => none) := by
  have htexts : (textLines (Text.split '\n' (render entries o))).mapM (entryLine? text?)
      = some (entries.map fun e => (e.key, e.content)) := by
    rw [textLines_split_render]
    exact mapM_map_eq_some (entryLine?_textLine o) entries
  rw [object?, htexts, Option.map_some, List.foldl_map]

theorem value?_render {entries : List Entry} (hnodup : (entries.map Entry.key).Nodup) (o : Options)
    {key : String} (hkey : key ≠ "__proto__") :
    value? (render entries o) key = (Entry.find? key entries).map fun e => unitsOf e.content := by
  have hlast : (entries.filter fun e => unitsOf e.key == unitsOf key).getLast? = Entry.find? key entries := by
    have hsame := Entry.find?_merge key entries
    rw [Entry.merge_eq_self hnodup] at hsame
    rw [hsame]
    refine congrArg List.getLast? (List.filter_congr fun e _ => ?_)
    rw [Bool.eq_iff_iff, beq_iff_eq, beq_iff_eq, Reader.unitsOf_inj]
  rw [value?, object?_render, Option.bind_some,
    Reader.foldl_assign _ _ _ _ (mt Reader.unitsOf_inj.1 hkey), hlast, Option.or_none]

end Artifact.Module

namespace CommandLine

open Session

/-- The pipeline of a project is that of a configuration. -/
theorem Setting.exists_config {s : Setting} {t t' : Tree} {p : Pipeline} {printed printed' : Printed}
    (h : on s.host.cwd s.pipeline printed t = ((.ok p, printed'), t')) :
    ∃ config, Pipeline.ofConfig s.host s.root config = .ok p := by
  have hlast : ∀ {config : Config} {printed₁ : Printed} {t₁ : Tree},
      on s.host.cwd (work (Action.ofExcept (Pipeline.ofConfig s.host s.root config))) printed₁ t₁
        = ((.ok p, printed'), t') → ∃ config, Pipeline.ofConfig s.host s.root config = .ok p := by
    intro config printed₁ t₁ hwork
    have haction := of_on_work_eq_ok hwork
    rw [Action.on_ofExcept] at haction
    exact ⟨config, (Prod.mk.inj haction).1⟩
  rw [Setting.pipeline] at h
  obtain ⟨config, printed₁, t₁, -, h⟩ := of_on_bind_eq_ok h
  cases hverbose : s.verbose with
  | false =>
    rw [hverbose] at h
    exact hlast h
  | true =>
    -- A path that is printed first makes no difference to what comes after it.
    have hused : ∀ {path : Path} {printed₂ : Printed} {t₂ : Tree},
        on s.host.cwd (do
            printLine ("Using config: " ++ path.display)
            work (Action.ofExcept (Pipeline.ofConfig s.host s.root config))) printed₂ t₂
          = ((.ok p, printed'), t') → ∃ config, Pipeline.ofConfig s.host s.root config = .ok p := by
      intro path printed₂ t₂ hprint
      obtain ⟨-, printed₃, t₃, -, hprint⟩ := of_on_bind_eq_ok hprint
      exact hlast hprint
    rw [hverbose] at h
    cases hconfig : s.config with
    | some path =>
      rw [hconfig] at h
      exact hused h
    | none =>
      rw [hconfig] at h
      obtain ⟨found, printed₂, t₂, -, h⟩ := of_on_bind_eq_ok h
      cases found with
      | none => exact hlast h
      | some path => exact hused h

namespace Command

variable {s : Setting} {t : Tree} {p : Pipeline} {printed : Printed} {prepared : Prepared}

section Listed

theorem field?_json (l : Listed) :
    l.json.field? "key" = some (.string l.key) ∧ l.json.field? "file" = some (.string l.file) ∧
      l.json.field? "variables" = some (.array (l.names.map .string)) ∧
      l.json.field? "literal" = some (.bool l.isLiteral) :=
  ⟨rfl, rfl, rfl, rfl⟩

theorem isPlain_listed (listed : List Listed) : (Json.array (listed.map Listed.json)).IsPlain := by
  refine Json.arePlain_iff.2 (List.forall_mem_map.2 fun l _ => ⟨trivial, trivial, trivial, ?_, trivial⟩)
  exact Json.arePlain_iff.2 (List.forall_mem_map.2 fun _ _ => trivial)

/-- What is listed of an entry is what the manifest says of it. -/
theorem field?_listed_eq_field?_manifest (c : Context) (files : List SourceFile) (e : Entry)
    {name : String} (hname : name ∈ ["key", "variables", "literal"]) :
    (Listed.ofEntry c files e).json.field? name
      = (Artifact.Manifest.field (.ofEntry c.options e)).field? name := by
  simp only [List.mem_cons, List.not_mem_nil, or_false] at hname
  rcases hname with rfl | rfl | rfl <;> rfl

theorem lastValue?_eq_some_iff {args : List (String × String)} {name value : String} :
    lastValue? args name = some value ↔
      ∃ before after, args = before ++ (name, value) :: after ∧ ∀ a ∈ after, a.1 ≠ name := by
  constructor
  · intro h
    obtain ⟨⟨found, value⟩, hfind, rfl⟩ := Option.map_eq_some_iff.1 h
    obtain ⟨hname, after, before, hargs, hafter⟩ := List.find?_eq_some_iff_append.1 hfind
    obtain rfl : found = name := by simpa using hname
    refine ⟨before.reverse, after.reverse, by simpa using congrArg List.reverse hargs, fun a ha => ?_⟩
    simpa using hafter a (List.mem_reverse.1 ha)
  · rintro ⟨before, after, rfl, hafter⟩
    have hfind : ((before ++ (name, value) :: after).reverse.find? fun a => a.1 == name)
        = some (name, value) := by
      refine List.find?_eq_some_iff_append.2 ⟨by simp, after.reverse, before.reverse, by simp, ?_⟩
      intro a ha
      simpa using hafter a (List.mem_reverse.1 ha)
    rw [lastValue?, hfind]
    rfl

end Listed

section Runs

/-- Preparing collects the files, reads them and renders what was read. -/
theorem of_on_prepare (hprepare : Action.on s.host.cwd (p.prepare s.host) t = (.ok prepared, t)) :
    Action.on s.host.cwd (p.collect s.host) t = (.ok prepared.files, t) ∧
      Action.on s.host.cwd (SourceFile.readAll prepared.files) t
        = (.ok (prepared.entries, prepared.collisions), t) := by
  rw [Pipeline.prepare] at hprepare
  obtain ⟨files, t₁, hcollect, hothers⟩ := Action.of_on_bind_eq_ok hprepare
  obtain ⟨⟨entries, found⟩, hread, rfl⟩ := Action.of_on_bind_pure_eq_ok hothers
  obtain ⟨result, hlooks⟩ := Action.exists_on_of_looks
    (SourceFile.looks_collect s.host.cwd p.context.root p.selection p.context.stripPrefix) s.host.cwd t
  obtain rfl : t = t₁ := congrArg Prod.snd (hlooks.symm.trans hcollect)
  exact ⟨hcollect, hread⟩

theorem on_texts (hprepare : Action.on s.host.cwd (p.prepare s.host) t = (.ok prepared, t)) :
    on s.host.cwd (texts s p) printed t = ((.ok (prepared.files, prepared.entries), printed), t) := by
  obtain ⟨hcollect, hread⟩ := of_on_prepare hprepare
  rw [texts, on_bind_of_ok (on_work_of_ok hcollect), on_bind_of_ok (on_work_of_ok hread)]
  rfl

variable (hpipeline : on s.host.cwd s.pipeline ⟨"", ""⟩ t = ((.ok p, printed), t))
  (hprepare : Action.on s.host.cwd (p.prepare s.host) t = (.ok prepared, t))

include hpipeline hprepare

theorem outcome_list_json :
    outcome s t (.list .json) = (⟨0, followedBy printed
      ⟨(Json.array ((prepared.entries.map (Listed.ofEntry p.context prepared.files)).map
        Listed.json)).compact ++ "\n", ""⟩, none⟩, t) := by
  have hlist : on s.host.cwd (runList s .json) ⟨"", ""⟩ t = ((.ok (), followedBy printed
      ⟨(Json.array ((prepared.entries.map (Listed.ofEntry p.context prepared.files)).map
        Listed.json)).compact ++ "\n", ""⟩), t) := by
    rw [runList, on_bind_of_ok hpipeline, on_bind_of_ok (on_texts hprepare)]
    dsimp only
    rw [on_printLine, followedBy, String.append_empty]
  exact outcome_of_on rfl hlist

theorem outcome_render_of_some {key : String} {e : Entry}
    (he : Entry.find? key prepared.entries = some e) (args : List (String × String)) :
    let rendered := Placeholder.substitute p.context.options.delimiters (lastValue? args) e.content
    outcome s t (.render key args) = (⟨0, followedBy printed
      ⟨if Text.endsWithChar '\n' rendered then rendered else rendered ++ "\n", ""⟩, none⟩, t) := by
  intro rendered
  have hrender : on s.host.cwd (runRender s key args) ⟨"", ""⟩ t = ((.ok (), followedBy printed
      ⟨if Text.endsWithChar '\n' rendered then rendered else rendered ++ "\n", ""⟩), t) := by
    rw [runRender, on_bind_of_ok hpipeline, on_bind_of_ok (on_texts hprepare)]
    dsimp only
    rw [he]
    dsimp only
    rw [followedBy, String.append_empty]
    rfl
  exact outcome_of_on rfl hrender

theorem exit_render_of_none {key : String} (hnone : Entry.find? key prepared.entries = none)
    (args : List (String × String)) :
    (outcome s t (.render key args)).1.exit = 2 ∧ (outcome s t (.render key args)).2 = t := by
  have hrender : on s.host.cwd (runRender s key args) ⟨"", ""⟩ t = ((.error (.troubled
      ("unknown text key `" ++ key ++ "`. Run `text-types list` to see every key.")), printed), t) := by
    rw [runRender, on_bind_of_ok hpipeline, on_bind_of_ok (on_texts hprepare)]
    dsimp only
    rw [hnone]
    rfl
  rw [outcome_of_on rfl hrender]
  exact ⟨rfl, rfl⟩

omit hpipeline

theorem nodup_key_of_prepared : (prepared.entries.map Entry.key).Nodup := by
  obtain ⟨-, hread⟩ := of_on_prepare hprepare
  obtain ⟨-, hentries, -⟩ := SourceFile.of_readAll_eq_ok hread
  rw [hentries]
  exact Entry.nodup_map_key_merge _

theorem find?_of_mem_prepared {e : Entry} (he : e ∈ prepared.entries) :
    Entry.find? e.key prepared.entries = some e :=
  Entry.find?_eq_some_of_mem (nodup_key_of_prepared hprepare) he

/-- Every entry is the text of the owner of its key. -/
theorem exists_owner {e : Entry} (he : e ∈ prepared.entries) :
    ∃ f text, SourceFile.owner? e.key prepared.files = some f ∧
      t.read s.host.cwd f.path = .ok text.toUTF8 ∧ e.content = Text.lineFeeds text := by
  have hfind := find?_of_mem_prepared hprepare he
  obtain ⟨-, hread⟩ := of_on_prepare hprepare
  obtain ⟨-, hentries, -, hreads⟩ := SourceFile.of_readAll_eq_ok hread
  rw [hentries, SourceFile.find?_merge_entryOf] at hfind
  obtain ⟨f, howner, rfl⟩ := Option.map_eq_some_iff.1 hfind
  exact ⟨f, _, howner, hreads f (SourceFile.of_owner?_eq_some howner).1, rfl⟩

end Runs

/-- The file `f` holds `content` but for its line ends, and is where the module has it from under the key of
the file. -/
structure IsSource (s : Setting) (t : Tree) (prepared : Prepared) (module : String) (f : SourceFile)
    (content : String) : Prop where
  mem : f ∈ prepared.files
  read : ∃ text, t.read s.host.cwd f.path = .ok text.toUTF8 ∧ content = Text.lineFeeds text
  value : f.outputKey ≠ "__proto__" →
    Artifact.Module.value? module f.outputKey = some (Artifact.Reader.unitsOf content)
  winner : ∀ c, (prepared.collisions.filter fun c => c.key == f.outputKey).getLast? = some c →
    c.winner = f.path
  alone : (prepared.collisions.filter fun c => c.key == f.outputKey) = [] →
    ∀ g ∈ prepared.files, g.outputKey = f.outputKey → g = f

theorem isSource_of_owner? {module : String} {e : Entry} {f : SourceFile}
    (hprepare : Action.on s.host.cwd (p.prepare s.host) t = (.ok prepared, t))
    (howner : SourceFile.owner? e.key prepared.files = some f)
    (hread : ∃ text, t.read s.host.cwd f.path = .ok text.toUTF8 ∧ e.content = Text.lineFeeds text)
    (hvalue : e.key ≠ "__proto__" →
      Artifact.Module.value? module e.key = some (Artifact.Reader.unitsOf e.content)) :
    IsSource s t prepared module f e.content := by
  obtain ⟨-, hreadAll⟩ := of_on_prepare hprepare
  obtain ⟨-, -, hcollisions, -⟩ := SourceFile.of_readAll_eq_ok hreadAll
  obtain ⟨hmem, hkey⟩ := SourceFile.of_owner?_eq_some howner
  rw [← hkey] at howner hvalue
  refine ⟨hmem, hread, hvalue, fun c hc => ?_, fun hnone g hg hsame => ?_⟩
  · exact SourceFile.winner_eq_of_owner? howner (hcollisions ▸ hc)
  · exact SourceFile.eq_of_owner? howner (hcollisions ▸ hnone) hg hsame

section Shown

variable (hpipeline : on s.host.cwd s.pipeline ⟨"", ""⟩ t = ((.ok p, printed), t))
  (hprepare : Action.on s.host.cwd (p.prepare s.host) t = (.ok prepared, t))

include hpipeline hprepare

/-- The file that is listed with a key is its source, and it is named as its path from the root is read. -/
theorem exists_source_of_mem {e : Entry} (he : e ∈ prepared.entries) :
    let item := (Listed.ofEntry p.context prepared.files e).json
    ∃ f seen,
      IsSource s t prepared (Artifact.Module.render prepared.entries p.context.options) f e.content ∧
      f.outputKey = e.key ∧ item.field? "file" = some (.string seen.display) ∧
      (s.host.cwd.isAbsolute = true → (p.context.root.join seen).components = f.path.components) := by
  intro item
  obtain ⟨f, text, howner, hread⟩ := exists_owner hprepare he
  obtain ⟨hmem, hkey⟩ := SourceFile.of_owner?_eq_some howner
  refine ⟨f, Path.seenFrom p.context.root f.path, ?_, hkey, ?_, ?_⟩
  · refine isSource_of_owner? hprepare howner ⟨text, hread⟩ fun hne => ?_
    rw [Artifact.Module.value?_render (nodup_key_of_prepared hprepare) _ hne,
      find?_of_mem_prepared hprepare he, Option.map_some]
  · rw [(field?_json _).2.1, Listed.ofEntry, howner]
    rfl
  · intro hcwd
    obtain ⟨config, hconfig⟩ := Setting.exists_config hpipeline
    obtain ⟨hroot, -⟩ := Pipeline.isAbsolute_of_ofConfig hcwd hconfig
    exact Path.components_join_seenFrom hroot
      (SourceFile.isAbsolute_of_collect hroot (of_on_prepare hprepare).1 f hmem)

/-- The keys of the entries can be rendered, and no others. -/
theorem exit_render_eq_zero_iff (key : String) (args : List (String × String)) :
    (outcome s t (.render key args)).2 = t ∧
      ((outcome s t (.render key args)).1.exit = 0 ↔ ∃ e ∈ prepared.entries, e.key = key) := by
  cases hentry : Entry.find? key prepared.entries with
  | none =>
    obtain ⟨hexit, htree⟩ := exit_render_of_none hpipeline hprepare hentry args
    refine ⟨htree, iff_of_false (by rw [hexit]; decide) ?_⟩
    rintro ⟨e, he, rfl⟩
    rw [find?_of_mem_prepared hprepare he] at hentry
    cases hentry
  | some e =>
    have hrendered := outcome_render_of_some hpipeline hprepare hentry args
    exact ⟨congrArg Prod.snd hrendered, iff_of_true (congrArg (fun r => r.1.exit) hrendered)
      ⟨e, Entry.of_find?_eq_some hentry⟩⟩

end Shown

/-- What is listed and what is rendered agree with the artifacts. The list is data with the keys of the
manifest, in its order, with the same placeholder names and the same flag, and the file that it names is
where the module has the text from, the winner of the last collision on the key. It is named by its path from
the root, as that is read. A key can be rendered exactly if it is listed, and then the text of this file is
printed with the values filled in, of several for one name the last. -/
theorem commands_agree_with_artifacts (s : Setting) (t : Tree) {p : Pipeline} {printed : Printed}
    {prepared : Prepared} (hpipeline : on s.host.cwd s.pipeline ⟨"", ""⟩ t = ((.ok p, printed), t))
    (hprepare : Action.on s.host.cwd (p.prepare s.host) t = (.ok prepared, t)) :
    let module := Artifact.Module.render prepared.entries p.context.options
    ∃ (text : String) (listed items : List Json),
      outcome s t (.list .json) = (⟨0, followedBy printed ⟨text, ""⟩, none⟩, t) ∧
      Json.parse? text = some (.array listed) ∧
      (Artifact.Manifest.document prepared.entries p.context.options).field? "texts"
        = some (.array items) ∧
      (∀ name ∈ ["key", "variables", "literal"],
        listed.map (Json.field? name) = items.map (Json.field? name)) ∧
      (∀ item ∈ listed, ∃ f content seen, IsSource s t prepared module f content ∧
        item.field? "key" = some (.string f.outputKey) ∧
        item.field? "file" = some (.string seen.display) ∧
        (s.host.cwd.isAbsolute = true → (p.context.root.join seen).components = f.path.components) ∧
        (RawText.IsText seen.text → seen = ⟨seen.display⟩) ∧
        ∀ args,
          let filled := Placeholder.substitute p.context.options.delimiters (lastValue? args) content
          (outcome s t (.render f.outputKey args)).1.printed = followedBy printed
            ⟨if Text.endsWithChar '\n' filled then filled else filled ++ "\n", ""⟩) ∧
      ∀ key args,
        (outcome s t (.render key args)).2 = t ∧
        ((outcome s t (.render key args)).1.exit = 0 ↔
          ∃ item ∈ listed, item.field? "key" = some (.string key)) ∧
        ∀ name value, lastValue? args name = some value ↔
          ∃ before after, args = before ++ (name, value) :: after ∧ ∀ a ∈ after, a.1 ≠ name := by
  intro module
  refine ⟨_, _, (Artifact.Model.ofEntries prepared.entries p.context.options).items.map
    Artifact.Manifest.field, outcome_list_json hpipeline hprepare,
    Json.parse?_compact (isPlain_listed _) (by decide), rfl, ?_, ?_, ?_⟩
  · intro name hname
    rw [Artifact.Model.ofEntries, List.map_map, List.map_map, List.map_map, List.map_map]
    exact List.map_congr_left fun e _ =>
      field?_listed_eq_field?_manifest p.context prepared.files e hname
  · intro item hitem
    obtain ⟨l, hl, rfl⟩ := List.mem_map.1 hitem
    obtain ⟨e, he, rfl⟩ := List.mem_map.1 hl
    obtain ⟨f, seen, hsource, hkey, hfile, hseen⟩ := exists_source_of_mem hpipeline hprepare he
    refine ⟨f, e.content, seen, hsource, by rw [(field?_json _).1, hkey]; rfl, hfile, hseen, fun htext => ?_,
      fun args => ?_⟩
    · rw [Path.display, htext.bytes_lossy]
    · rw [hkey, outcome_render_of_some hpipeline hprepare (find?_of_mem_prepared hprepare he) args]
  · intro key args
    have hlisted : (∃ item ∈ (prepared.entries.map (Listed.ofEntry p.context prepared.files)).map
        Listed.json, item.field? "key" = some (.string key)) ↔ ∃ e ∈ prepared.entries, e.key = key := by
      simp only [List.map_map, List.mem_map, exists_exists_and_eq_and, Function.comp_apply,
        (field?_json _).1, Option.some.injEq, Json.string.injEq]
      rfl
    obtain ⟨htree, hexit⟩ := exit_render_eq_zero_iff hpipeline hprepare key args
    exact ⟨htree, hexit.trans hlisted.symm, fun _ _ => lastValue?_eq_some_iff⟩

section Sample

open SourceFile

def pairDocument : String := "include = \"**/*.md\"\n[key_transform]\nstrip_prefix = \"/x/\"\n"

def pairConfig : Config := { Config.usual with included := .one "**/*.md", stripPrefix := some "/x/" }

theorem parse_pairDocument : Config.parse pairDocument = .ok pairConfig := by
  obtain ⟨fields, hfields⟩ : ∃ fields, Toml.parse? pairDocument = some fields :=
    Option.isSome_iff_exists.1 (by decide +kernel)
  have hnames : (Toml.parse? pairDocument).map (fun fields => fields.map fun f => f.1.name)
      = some ["include", "key_transform"] := by decide +kernel
  have hset : (Toml.parse? pairDocument).map (fun fields =>
      fields.foldlM (fun c f => Config.set c f.1 f.2) Config.usual) = some (.ok pairConfig) := by
    decide +kernel
  rw [hfields] at hnames hset
  have hsorted : Config.sorted fields = fields := by
    refine List.mergeSort_of_pairwise ?_
    have hpairwise : (fields.map fun f => f.1.name).Pairwise fun a b => decide (a ≤ b) = true := by
      have hread : (fields.map fun f => f.1.name) = ["include", "key_transform"] := Option.some.inj hnames
      rw [hread]
      decide +kernel
    exact List.pairwise_map.1 hpairwise
  have hread : Config.ofFields fields = .ok pairConfig := by
    rw [Config.ofFields, hsorted]
    exact Option.some.inj hset
  rw [Config.parse, hfields]
  dsimp only
  rw [hread]

theorem isSome_pair :
    (Pipeline.ofConfig smallSetting.host ⟨"/"⟩ pairConfig).toOption.isSome = true := by decide +kernel

def pairPipeline : Pipeline :=
  (Pipeline.ofConfig smallSetting.host ⟨"/"⟩ pairConfig).toOption.get isSome_pair

/-- Three texts, of which the first and the last have one key. -/
def pairTree : Tree :=
  ⟨[(["text-types.toml"], .file pairDocument.toUTF8), (["a.md"], .file "first".toUTF8),
    (["b.md"], .file "second".toUTF8), (["x"], .directory),
    (["x", "a.md"], .file "Hi \x7b\x7b n \x7d\x7d\r\n".toUTF8)], []⟩

theorem on_pair : on smallSetting.host.cwd smallSetting.pipeline ⟨"", ""⟩ pairTree
    = ((.ok pairPipeline, ⟨"", ""⟩), pairTree) := by
  have hread : Action.on ⟨"/"⟩ (Action.ofScript .io (Disk.readText ⟨"/text-types.toml"⟩)) pairTree
      = (.ok pairDocument, pairTree) := Prod.ext (by decide +kernel) rfl
  have hloadFrom : Action.on ⟨"/"⟩ (Config.loadFrom ⟨"/text-types.toml"⟩) pairTree
      = (.ok pairConfig, pairTree) := by
    rw [Config.loadFrom, Action.on_bind_of_ok hread, Action.on_ofExcept, parse_pairDocument]
  have hfind : Action.on ⟨"/"⟩ (liftM (Config.find? ⟨"/"⟩)) pairTree
      = (.ok (some ⟨"/text-types.toml"⟩), pairTree) := Prod.ext (by decide +kernel) rfl
  have hload : Action.on ⟨"/"⟩ (Config.load ⟨"/"⟩) pairTree = (.ok (some pairConfig), pairTree) := by
    rw [Config.load, Action.on_bind_of_ok hfind]
    dsimp only
    rw [Action.on_bind_of_ok hloadFrom]
    rfl
  have hconfig : Pipeline.ofConfig smallSetting.host ⟨"/"⟩ pairConfig = .ok pairPipeline :=
    Pipeline.eq_ok_get isSome_pair
  refine (on_bind_of_ok (on_work_of_ok (Action.on_bind_of_ok hload))).trans ?_
  exact on_work_of_ok (congrArg (·, pairTree) hconfig)

def pairFiles : List SourceFile :=
  [⟨⟨"/a.md"⟩, "/a.md", "a.md"⟩, ⟨⟨"/b.md"⟩, "/b.md", "b.md"⟩, ⟨⟨"/x/a.md"⟩, "/x/a.md", "a.md"⟩]

theorem collect_pair : Action.on ⟨"/"⟩ (pairPipeline.collect smallSetting.host) pairTree
    = (.ok pairFiles, pairTree) := by
  have hthere : pairTree.node ⟨"/"⟩ ⟨"/"⟩ = .ok .directory := by decide +kernel
  have habsolute : Path.absolute? ⟨"/"⟩ ⟨"/"⟩ = some ⟨"/"⟩ := by decide +kernel
  have hgather : Action.on ⟨"/"⟩ (gather pairPipeline.selection (Path.normalize ⟨"/"⟩)
      pairPipeline.selection.bases) pairTree = (.ok (pairFiles.map (·.path)), pairTree) :=
    Prod.ext (by decide +kernel) (looks_gather _ _ _).tree_eq
  have hroot : pairPipeline.context.root = ⟨"/"⟩ := by decide +kernel
  have hcollect := on_collect_of_gather hthere habsolute hgather pairPipeline.context.stripPrefix
  rw [Except.map, arrange, Path.distinct_eq_self (by decide +kernel),
    List.mergeSort_of_pairwise (by decide +kernel)] at hcollect
  have hfiles : (pairFiles.map (·.path)).map
      (ofPath (Path.normalize ⟨"/"⟩) pairPipeline.context.stripPrefix) = pairFiles := by decide +kernel
  rw [hfiles] at hcollect
  rw [Pipeline.collect, hroot]
  exact hcollect

def pairPrepared : Prepared :=
  let entries : List Entry := [⟨"a.md", "Hi \x7b\x7b n \x7d\x7d\n"⟩, ⟨"b.md", "second"⟩]
  ⟨pairFiles, entries, [⟨"a.md", ⟨"/a.md"⟩, ⟨"/x/a.md"⟩⟩], Pipeline.artifacts pairPipeline.context entries⟩

theorem prepare_pair : Action.on ⟨"/"⟩ (pairPipeline.prepare smallSetting.host) pairTree
    = (.ok pairPrepared, pairTree) := by
  have hread : Action.on ⟨"/"⟩ (readAll pairFiles) pairTree
      = (.ok (pairPrepared.entries, pairPrepared.collisions), pairTree) :=
    Prod.ext (by decide +kernel) (looks_readAll pairFiles).tree_eq
  rw [Pipeline.prepare, Action.on_bind_of_ok collect_pair, Action.on_bind_of_ok hread]
  rfl

/-- What is printed for the list of the pair. -/
def pairList : String :=
  "[\x7b\"file\":\"x/a.md\",\"key\":\"a.md\",\"literal\":true,\"variables\":[\"n\"]\x7d," ++
    "\x7b\"file\":\"b.md\",\"key\":\"b.md\",\"literal\":true,\"variables\":[]\x7d]\n"

/-- What is listed of the pair. -/
def pairListed : List Listed :=
  [⟨"a.md", "x/a.md", ["n"], true⟩, ⟨"b.md", "b.md", [], true⟩]

theorem commands_agree_with_artifacts_of_pair :
    on smallSetting.host.cwd smallSetting.pipeline ⟨"", ""⟩ pairTree
        = ((.ok pairPipeline, ⟨"", ""⟩), pairTree) ∧
      Action.on smallSetting.host.cwd (pairPipeline.prepare smallSetting.host) pairTree
        = (.ok pairPrepared, pairTree) ∧
      pairPrepared.collisions = [⟨"a.md", ⟨"/a.md"⟩, ⟨"/x/a.md"⟩⟩] ∧
      (outcome smallSetting pairTree (.list .json)).1.printed = ⟨pairList, ""⟩ ∧
      Json.parse? pairList = some (.array (pairListed.map Listed.json)) ∧
      ∃ f ∈ pairFiles, f.path = ⟨"/x/a.md"⟩ ∧ f.outputKey = "a.md" ∧
        Artifact.Module.value? (Artifact.Module.render pairPrepared.entries pairPipeline.context.options)
          f.outputKey = some (Artifact.Reader.unitsOf "Hi \x7b\x7b n \x7d\x7d\n") ∧
        (outcome smallSetting pairTree (.render "a.md" [("n", "x"), ("n", "y")])).1.printed
          = ⟨"Hi y\n", ""⟩ := by
  refine ⟨on_pair, prepare_pair, rfl, ?_⟩
  obtain ⟨text, listed, items, hlist, hread, -, -, hsources, -⟩ :=
    commands_agree_with_artifacts smallSetting pairTree on_pair prepare_pair
  have hitems : pairPrepared.entries.map (Listed.ofEntry pairPipeline.context pairPrepared.files)
      = pairListed := by decide +kernel
  have hprinted := outcome_list_json on_pair prepare_pair
  rw [hitems] at hprinted
  have htext : text = (Json.array (pairListed.map Listed.json)).compact ++ "\n" := by
    have hout := congrArg (fun r => r.1.printed.out) (hlist.symm.trans hprinted)
    dsimp only [followedBy] at hout
    rw [String.empty_append, String.empty_append] at hout
    exact hout
  have hpair : text = pairList := htext.trans (by decide +kernel)
  have hlisted : listed = pairListed.map Listed.json := by
    have hcompact : Json.parse? ((Json.array (pairListed.map Listed.json)).compact ++ "\n")
        = some (.array (pairListed.map Listed.json)) :=
      Json.parse?_compact (isPlain_listed pairListed) (by decide)
    rw [← htext, hread] at hcompact
    exact Json.array.inj (Option.some.inj hcompact)
  subst hpair hlisted
  obtain ⟨f, content, seen, hsource, hkey, -, -, -, hrender⟩ := hsources _ List.mem_cons_self
  have hf : f.outputKey = "a.md" := (Json.string.inj (Option.some.inj hkey)).symm
  have hpath : f.path = ⟨"/x/a.md"⟩ :=
    (hsource.winner ⟨"a.md", ⟨"/a.md"⟩, ⟨"/x/a.md"⟩⟩ (by rw [hf]; rfl)).symm
  have hcontent : content = "Hi \x7b\x7b n \x7d\x7d\n" := by
    obtain ⟨text, htext, rfl⟩ := hsource.read
    have hbytes : pairTree.read smallSetting.host.cwd ⟨"/x/a.md"⟩
        = .ok "Hi \x7b\x7b n \x7d\x7d\r\n".toUTF8 := by decide +kernel
    rw [hpath, hbytes] at htext
    obtain rfl := String.toByteArray_inj.1 (Except.ok.inj htext)
    decide +kernel
  refine ⟨congrArg (fun r => r.1.printed) hlist, hread, f, hsource.mem, hpath, hf,
    hcontent ▸ hsource.value (by rw [hf]; decide), ?_⟩
  have hfilled : Placeholder.substitute pairPipeline.context.options.delimiters
      (lastValue? [("n", "x"), ("n", "y")]) "Hi \x7b\x7b n \x7d\x7d\n" = "Hi y\n" := by
    decide +kernel
  have hprints := hrender [("n", "x"), ("n", "y")]
  dsimp only at hprints
  rw [hf, hcontent, hfilled, if_pos (by decide)] at hprints
  exact hprints

/-- The project with one text, which the pattern takes. -/
def loneTree (pattern : String) (name : RawText) : Tree :=
  ⟨[(["text-types.toml"], .file ("include = \"" ++ pattern ++ "\"\n").toUTF8),
    ([name], .file "x".toUTF8)], []⟩

def project? (t : Tree) : Option (Pipeline × Prepared) :=
  (on smallSetting.host.cwd smallSetting.pipeline ⟨"", ""⟩ t).1.1.toOption.bind fun p =>
    (Action.on smallSetting.host.cwd (p.prepare smallSetting.host) t).1.toOption.map (p, ·)

theorem exists_of_project? {α : Type} {shown : Pipeline × Prepared → α} {a : α} {t : Tree}
    (h : (project? t).map shown = some a) :
    ∃ p printed prepared,
      on smallSetting.host.cwd smallSetting.pipeline ⟨"", ""⟩ t = ((.ok p, printed), t) ∧
      Action.on smallSetting.host.cwd (p.prepare smallSetting.host) t = (.ok prepared, t) ∧
      shown (p, prepared) = a := by
  obtain ⟨result, printed, hpipeline⟩ :=
    smallSetting.looks_pipeline.exists_on smallSetting.host.cwd ⟨"", ""⟩ t
  rw [project?, hpipeline] at h
  cases result with
  | error e => cases h
  | ok p =>
    obtain ⟨answer, hprepare⟩ :=
      Action.exists_on_of_looks (p.looks_prepare smallSetting.host) smallSetting.host.cwd t
    dsimp only [Except.toOption, Option.bind_some] at h
    rw [hprepare] at h
    cases answer with
    | error e => cases h
    | ok prepared => exact ⟨p, printed, prepared, hpipeline, hprepare, Option.some.inj h⟩

/-- The object of a module has no text under the key of its prototype, which is listed, and a name that is
not UTF-8 is not the one that is listed for it. -/
theorem listed_without_source :
    (∃ p printed prepared,
      let t := loneTree "_*" "__proto__"
      on smallSetting.host.cwd smallSetting.pipeline ⟨"", ""⟩ t = ((.ok p, printed), t) ∧
        Action.on smallSetting.host.cwd (p.prepare smallSetting.host) t = (.ok prepared, t) ∧
        (outcome smallSetting t (.list .json)).1.printed = followedBy printed
          ⟨"[\x7b\"file\":\"__proto__\",\"key\":\"__proto__\",\"literal\":true,\"variables\":[]\x7d]\n", ""⟩ ∧
        Artifact.Module.value? (Artifact.Module.render prepared.entries p.context.options) "__proto__"
          = none) ∧
    ∃ p printed prepared,
      let t := loneTree "*.md" ([0xFF] ++ Text.bytes ".md")
      on smallSetting.host.cwd smallSetting.pipeline ⟨"", ""⟩ t = ((.ok p, printed), t) ∧
        Action.on smallSetting.host.cwd (p.prepare smallSetting.host) t = (.ok prepared, t) ∧
        (outcome smallSetting t (.list .json)).1.printed = followedBy printed
          ⟨"[\x7b\"file\":\"\uFFFD.md\",\"key\":\"\uFFFD.md\",\"literal\":true,\"variables\":[]\x7d]\n", ""⟩ ∧
        p.context.root = ⟨"/"⟩ ∧ t.read smallSetting.host.cwd ⟨"/\uFFFD.md"⟩ = .error .notFound := by
  refine ⟨?_, ?_⟩
  · have hproject : (project? (loneTree "_*" "__proto__")).map (fun r =>
        (r.2.entries, r.2.entries.map (Listed.ofEntry r.1.context r.2.files)))
          = some ([⟨"__proto__", "x"⟩], [⟨"__proto__", "__proto__", [], true⟩]) := by decide +kernel
    obtain ⟨p, printed, prepared, hpipeline, hprepare, hshown⟩ := exists_of_project? hproject
    obtain ⟨hentries, hlisted⟩ := Prod.mk.inj hshown
    refine ⟨p, printed, prepared, hpipeline, hprepare, ?_, ?_⟩
    · rw [outcome_list_json hpipeline hprepare, hlisted]
      exact congrArg (fun text => followedBy printed ⟨text, ""⟩) (by decide +kernel)
    · rw [Artifact.Module.value?, Artifact.Module.object?_render, hentries]
      decide +kernel
  · have hproject : (project? (loneTree "*.md" ([0xFF] ++ Text.bytes ".md"))).map (fun r =>
        (r.1.context.root, r.2.entries.map (Listed.ofEntry r.1.context r.2.files)))
          = some (⟨"/"⟩, [⟨"\uFFFD.md", "\uFFFD.md", [], true⟩]) := by decide +kernel
    obtain ⟨p, printed, prepared, hpipeline, hprepare, hshown⟩ := exists_of_project? hproject
    obtain ⟨hroot, hlisted⟩ := Prod.mk.inj hshown
    refine ⟨p, printed, prepared, hpipeline, hprepare, ?_, hroot, by decide +kernel⟩
    rw [outcome_list_json hpipeline hprepare, hlisted]
    exact congrArg (fun text => followedBy printed ⟨text, ""⟩) (by decide +kernel)

end Sample

end Command

end CommandLine

end TextCatalog
