import TextCatalog.Proofs.Path.Relative
import TextCatalog.Proofs.Selection.Base
import TextCatalog.Proofs.Source.Keys

/-!
# Collection is exact

Below the root the walk from the base directories finds just the files that the patterns take and whose
hidden names they spell out, as a walk of the whole disk would, where their names are UTF-8. A file
elsewhere is found only below a base directory. The files come in the order of their canonical keys, and
those of them whose names are UTF-8 have different keys.
-/

namespace TextCatalog

open Disk
open RawText (IsText)

namespace Selection

/-- Every name that starts with a dot is spelled out by an include pattern. -/
def Spells (s : Selection) (names : List RawText) : Prop :=
  ∀ name ∈ names, name.head? = some RawText.dot → s.namesHidden name = true

instance (s : Selection) (names : List RawText) : Decidable (s.Spells names) :=
  inferInstanceAs (Decidable (∀ name ∈ names, _))

theorem spells_iff {s : Selection} {names : List RawText} : s.Spells names ↔ names.all s.admits = true := by
  rw [Spells, List.all_eq_true]
  refine forall₂_congr fun name _ => ?_
  by_cases hdot : name.head? = some RawText.dot <;> simp [admits, hdot]

end Selection

namespace SourceFile

open TextCatalog.Path (IsInner IsName IsTextFrom namesIn ofLocation)

variable {t : Tree} {cwd root base : Path} {s : Selection} {loc : Location}
  {included excluded : List String} {strip : Option String}

/-- The patterns ask for a file at the location: they take its path relative to the root, and spell out
the hidden names of this path. -/
structure IsAsked (s : Selection) (root : Path) (loc : Location) : Prop where
  taken : takes s root loc = true
  spelled : s.Spells (namesIn (Path.relative root (ofLocation loc)))

instance (s : Selection) (root : Path) (loc : Location) : Decidable (IsAsked s root loc) :=
  decidable_of_iff (takes s root loc = true ∧
      s.Spells (namesIn (Path.relative root (ofLocation loc))))
    ⟨fun ⟨htaken, hspelled⟩ => ⟨htaken, hspelled⟩, fun h => ⟨h.taken, h.spelled⟩⟩

/-- The location lies in the directory, and no hidden name stands between that is not spelled out. -/
def LeadsTo (s : Selection) (directory loc : Location) : Prop :=
  ∃ names, names ≠ [] ∧ loc = directory ++ names ∧ names.all s.admits = true

/-- The location lies below the root, by names that are UTF-8, or the walk from a base directory leads
there. -/
def IsWithin (s : Selection) (root : Path) (loc : Location) : Prop :=
  (∃ names, names ≠ [] ∧ loc = root.location ++ names ∧ ∀ n ∈ names, IsText n) ∨
    ∃ base ∈ s.bases, LeadsTo s (root.join base).location loc

section Bases

theorem location_join (hroot : root.isAbsolute = true) (hbase : base.isAbsolute = false) :
    (root.join base).location = base.steps.foldl Path.move root.location := by
  rw [Path.location, Path.steps_join (Path.text_ne_nil_of_isAbsolute hroot) hbase,
    List.foldl_append, Path.location]

/-- Steps keep names at the start of a location and add names of their own. -/
theorem exists_foldl_move_eq (steps : List Path.Component) (kept added : Location) :
    ∃ kept' added', steps.foldl Path.move (kept ++ added) = kept' ++ added' ∧ kept' <+: kept ∧
      ∀ n ∈ added', n ∈ added ∨ .name n ∈ steps := by
  induction steps generalizing kept added with
  | nil => exact ⟨kept, added, rfl, List.prefix_rfl, fun n hn => .inl hn⟩
  | cons c steps ih =>
    have hsame : ∀ {kept' added' : Location}, Path.move (kept ++ added) c = kept' ++ added' →
        kept' <+: kept → (∀ n ∈ added', n ∈ added ∨ .name n = c) →
        ∃ kept' added', (c :: steps).foldl Path.move (kept ++ added) = kept' ++ added' ∧
          kept' <+: kept ∧ ∀ n ∈ added', n ∈ added ∨ .name n ∈ c :: steps := by
      intro kept' added' hmove hkept hadded
      obtain ⟨kept'', added'', hfold, hkept', hadded'⟩ := ih kept' added'
      refine ⟨kept'', added'', by rw [List.foldl_cons, hmove, hfold], hkept'.trans hkept, ?_⟩
      intro n hn
      rcases hadded' n hn with hn | hn
      · rcases hadded n hn with hn | rfl
        · exact .inl hn
        · exact .inr (List.mem_cons_self ..)
      · exact .inr (List.mem_cons_of_mem _ hn)
    cases c with
    | root | current => exact hsame rfl List.prefix_rfl fun n hn => .inl hn
    | name m =>
      refine hsame (List.append_assoc kept added [m]) List.prefix_rfl fun n hn => ?_
      rcases List.mem_append.1 hn with hn | hn
      · exact .inl hn
      · exact .inr (congrArg Path.Component.name (List.mem_singleton.1 hn))
    | parent =>
      rcases List.eq_nil_or_concat added with rfl | ⟨front, last, rfl⟩
      · have hup : Path.move (kept ++ []) .parent = kept.dropLast ++ [] := by
          rw [List.append_nil, List.append_nil, Path.move]
        exact hsame hup (List.dropLast_prefix kept) (by simp)
      · have hup : Path.move (kept ++ front.concat last) .parent = kept ++ front := by
          rw [Path.move, List.concat_eq_append, ← List.append_assoc, List.dropLast_concat]
        exact hsame hup List.prefix_rfl fun n hn => .inl (by simp [hn])

theorem namesIn_relative {front up down : Location} (hparts : Path.Parts root loc front up down) :
    namesIn (Path.relative root (ofLocation loc)) = down := by
  rw [hparts.relative_eq, Path.namesIn_append_map]

/-- The walk from a base directory passes no hidden name that is not spelled out: below the directory it
does not go there, and the directory itself is named by the pattern. -/
theorem spells_of_leadsTo (hroot : root.IsInner) (hs : Selection.compile included excluded = .ok s)
    (hbase : base ∈ s.bases) (hloc : ∀ n ∈ loc, IsName n)
    (h : LeadsTo s (root.join base).location loc) :
    s.Spells (namesIn (Path.relative root (ofLocation loc))) := by
  obtain ⟨names, -, hbelow, hadmits⟩ := h
  obtain ⟨pattern, hpattern, rfl⟩ := Selection.exists_of_mem_bases hs hbase
  obtain ⟨kept, added, hfold, hkept, hadded⟩ :=
    exists_foldl_move_eq (Pattern.base pattern).steps root.location []
  rw [location_join hroot.isAbsolute (Pattern.isAbsolute_base pattern),
    ← List.append_nil root.location, hfold, List.append_assoc] at hbelow
  obtain ⟨front, up, down, hparts⟩ := Path.exists_parts hroot hloc
  obtain ⟨more, hmore⟩ := hparts.prefix_front hkept ⟨added ++ names, hbelow.symm⟩
  have hdown : more ++ down = added ++ names := by
    have heq := hparts.loc_eq
    rw [hbelow, ← hmore, List.append_assoc] at heq
    exact (List.append_cancel_left heq).symm
  rw [namesIn_relative hparts, Selection.spells_iff, List.all_eq_true]
  intro n hn
  have hmem : n ∈ added ++ names := hdown ▸ List.mem_append_right more hn
  rcases List.mem_append.1 hmem with hmem | hmem
  · have hstep := (hadded n hmem).resolve_left (by simp)
    exact Selection.admits_of_mem_steps_base hs hpattern hstep
  · exact List.all_eq_true.1 hadmits n hmem

/-- What is asked for below the root lies below the base directory of the pattern that takes it. -/
theorem exists_leadsTo (hroot : root.IsInner) (hs : Selection.compile included excluded = .ok s)
    {names : Location} (hne : names ≠ []) (hnames : ∀ n ∈ names, IsName n)
    (htext : ∀ n ∈ names, IsText n) (h : IsAsked s root (root.location ++ names)) :
    ∃ base ∈ s.bases, LeadsTo s (root.join base).location (root.location ++ names) := by
  have hloc : ∀ n ∈ root.location ++ names, IsName n := by
    intro n hn
    rcases List.mem_append.1 hn with hn | hn
    · exact Path.isName_of_mem_location hn
    · exact hnames n hn
  obtain ⟨front, up, down, hparts⟩ := Path.exists_parts hroot hloc
  -- Below the root the way goes down only, by the names themselves.
  obtain ⟨rfl, rfl⟩ : up = [] ∧ down = names := by
    obtain ⟨more, hmore⟩ :=
      hparts.prefix_front List.prefix_rfl (List.prefix_append root.location names)
    have hup : more ++ up = [] := by
      have heq := hparts.root_eq
      rw [← hmore, List.append_assoc] at heq
      exact List.append_right_eq_self.1 heq.symm
    obtain ⟨rfl, rfl⟩ := List.append_eq_nil_iff.1 hup
    rw [List.append_nil] at hmore
    have heq := hparts.loc_eq
    rw [← hmore] at heq
    exact ⟨rfl, (List.append_cancel_left heq).symm⟩
  have hadmits := Selection.spells_iff.1 h.spelled
  have hshown : Path.slashed (Path.relative root (ofLocation (root.location ++ down)))
      = String.intercalate "/" (down.map RawText.lossy) := by
    rw [hparts.relative_eq, Path.slashed_relative]
    rfl
  have htaken := h.taken
  rw [namesIn_relative hparts] at hadmits
  rw [takes, hshown] at htaken
  obtain ⟨base, hbase, first, rest, rfl, hrest, hsteps⟩ :=
    Selection.exists_base_of_selects_read hs hne hnames htext htaken
  refine ⟨base, hbase, rest, hrest, ?_, ?_⟩
  · rw [location_join hroot.isAbsolute (Selection.isAbsolute_of_mem_bases hs hbase), hsteps,
      Path.foldl_move_name, List.append_assoc]
  · rw [List.all_append, Bool.and_eq_true] at hadmits
    exact hadmits.2

end Bases

section Exact

/-- The walks from the base directories find what is asked for and within reach. -/
theorem exists_isFound_iff (ht : t.Proper) (hroot : root.IsInner)
    (hs : Selection.compile included excluded = .ok s) {bytes : ByteArray}
    (hfile : t.find? loc = some (.file bytes)) (hfits : Tree.Fits loc) :
    (∃ base ∈ s.bases, IsFound t s root (root.join base).location loc) ↔
      IsAsked s root loc ∧ IsWithin s root loc := by
  have hloc : ∀ n ∈ loc, IsName n := fun n hn => ht.isName_of_find? hfile hn
  constructor
  · rintro ⟨base, hbase, hfound⟩
    exact ⟨⟨hfound.taken, spells_of_leadsTo hroot hs hbase hloc hfound.below⟩,
      .inr ⟨base, hbase, hfound.below⟩⟩
  · rintro ⟨hasked, hwithin⟩
    obtain ⟨base, hbase, hleads⟩ : ∃ base ∈ s.bases, LeadsTo s (root.join base).location loc := by
      rcases hwithin with ⟨names, hne, rfl, htext⟩ | hleads
      · exact exists_leadsTo hroot hs hne (fun n hn => hloc n (List.mem_append_right _ hn)) htext hasked
      · exact hleads
    refine ⟨base, hbase, ?_, hleads, hasked.taken, bytes, hfile⟩
    obtain ⟨names, -, rfl, -⟩ := hleads
    exact hfits.of_append

/-- Collecting fails with a directory that a walk comes to and cannot open, or it finds exactly the files
that the patterns ask for, below the root wherever they are and elsewhere where a walk leads. Each of them
is found once, and they come in the order of their canonical keys, by which those are told apart whose
names are UTF-8. -/
theorem collect_exact (ht : t.Proper) (hroot : root.IsInner) {node : Node}
    (hthere : t.node cwd root = .ok node) (hs : Selection.compile included excluded = .ok s)
    (hbases : ∀ base ∈ s.bases, (root.join base).IsInner) (strip : Option String) :
    (∃ base ∈ s.bases, ∃ loc cause, IsShut t s (root.join base).location loc cause ∧
      Action.on cwd (collect cwd root s strip) t = (.error (.walk (ofLocation loc) cause), t)) ∨
    ∃ files, Action.on cwd (collect cwd root s strip) t = (.ok files, t) ∧
      (∀ base ∈ s.bases, ∀ loc cause, ¬ IsShut t s (root.join base).location loc cause) ∧
      (∀ f ∈ files, ∃ loc bytes, t.find? loc = some (.file bytes) ∧ IsAsked s root loc ∧
        IsWithin s root loc ∧ f = ofPath root strip (ofLocation loc)) ∧
      (∀ loc bytes, t.find? loc = some (.file bytes) → Tree.Fits loc →
        (ofPath root strip (ofLocation loc) ∈ files ↔
          IsAsked s root loc ∧ IsWithin s root loc)) ∧
      files.Pairwise fun f g => f ≠ g ∧ f.canonicalKey ≤ g.canonicalKey ∧
        (IsTextFrom root f.path → IsTextFrom root g.path → f.canonicalKey < g.canonicalKey) := by
  rcases on_gather cwd s ht hroot hbases with
    ⟨paths, hgather, hopen, hmem⟩ | ⟨base, hbase, loc, cause, hshut, hgather⟩
  · have hnormal : ∀ q ∈ paths, IsNormal q := by
      intro q hq
      obtain ⟨base, -, loc, rfl, hfound⟩ := (hmem q).1 hq
      obtain ⟨bytes, hfind⟩ := hfound.file
      exact isNormal_ofLocation fun n hn => ht.isName_of_find? hfind hn
    refine .inr ⟨arrange root strip paths, ?_, hopen, ?_, ?_,
      pairwise_arrange_of_isNormal hroot hnormal strip⟩
    · rw [on_collect hroot hthere hgather, Except.map, ← hroot.normalize_eq,
        arrange_normalize hroot.isAbsolute]
    · intro f hf
      obtain ⟨q, hq, rfl⟩ := (mem_arrange hnormal).1 hf
      obtain ⟨base, hbase, loc, rfl, hfound⟩ := (hmem q).1 hq
      obtain ⟨bytes, hfind⟩ := hfound.file
      have hloc : ∀ n ∈ loc, IsName n := fun n hn => ht.isName_of_find? hfind hn
      exact ⟨loc, bytes, hfind, ⟨hfound.taken, spells_of_leadsTo hroot hs hbase hloc hfound.below⟩,
        .inr ⟨base, hbase, hfound.below⟩, rfl⟩
    · intro loc bytes hfile hfits
      have hloc : ∀ n ∈ loc, IsName n := fun n hn => ht.isName_of_find? hfile hn
      rw [← exists_isFound_iff ht hroot hs hfile hfits, mem_arrange hnormal]
      constructor
      · rintro ⟨q, hq, heq⟩
        obtain ⟨base, hbase, loc', rfl, hfound⟩ := (hmem q).1 hq
        obtain ⟨bytes', hfind⟩ := hfound.file
        have hlocation := congrArg (fun f => f.path.location) heq
        have hsame : loc = loc' := by
          simpa [ofPath, Path.location_ofLocation hloc,
            Path.location_ofLocation fun n hn => ht.isName_of_find? hfind hn] using hlocation
        exact ⟨base, hbase, hsame ▸ hfound⟩
      · rintro ⟨base, hbase, hfound⟩
        exact ⟨_, (hmem _).2 ⟨base, hbase, loc, rfl, hfound⟩, rfl⟩
  · exact .inl ⟨base, hbase, loc, cause, hshut, by rw [on_collect hroot hthere hgather, Except.map]⟩

end Exact

section Sample

/-! A project in `/r` whose pattern starts with a star, which takes two dots as it takes any name. -/

def starSelection : Selection :=
  ⟨[⟨.anyRun :: "/a.md".toList.map .literal⟩], [], [], [⟨""⟩]⟩

def starTree : Tree :=
  ⟨[(["r"], .directory), (["r", "b"], .directory), (["r", "b", "a.md"], .file "y".toUTF8),
    (["a.md"], .file "x".toUTF8)], []⟩

theorem compile_star : Selection.compile ["*/a.md"] [] = .ok starSelection := by
  with_unfolding_all rfl

def collected? (root : Path) (s : Selection) (t : Tree) : Option (List Path) :=
  (Action.on ⟨"/"⟩ (collect ⟨"/"⟩ root s none) t).1.toOption.map (List.map path)

theorem collected?_eq_none {e : Error} {t' : Tree}
    (h : Action.on ⟨"/"⟩ (collect ⟨"/"⟩ root s none) t = (.error e, t')) : collected? root s t = none := by
  rw [collected?, h]
  rfl

theorem collect_exact_of_star :
    ∃ files, Action.on ⟨"/"⟩ (collect ⟨"/"⟩ ⟨"/r"⟩ starSelection none) starTree
        = (.ok files, starTree) ∧
      ofPath ⟨"/r"⟩ none (ofLocation ["r", "b", "a.md"]) ∈ files ∧
      ofPath ⟨"/r"⟩ none (ofLocation ["a.md"]) ∉ files := by
  have hproper : starTree.Proper := by decide +kernel
  have hroot : IsInner ⟨"/r"⟩ := by decide +kernel
  have hthere : starTree.node ⟨"/"⟩ ⟨"/r"⟩ = .ok .directory := by decide +kernel
  have hbases : ∀ base ∈ starSelection.bases, IsInner (Path.join ⟨"/r"⟩ base) := by decide +kernel
  have hsome : collected? ⟨"/r"⟩ starSelection starTree ≠ none := by decide +kernel
  obtain ⟨_, -, _, _, -, hfails⟩ | ⟨files, hcollect, -, -, hiff, -⟩ :=
    collect_exact hproper hroot hthere compile_star hbases none
  · exact absurd (collected?_eq_none hfails) hsome
  refine ⟨files, hcollect, ?_, ?_⟩
  · refine (hiff ["r", "b", "a.md"] "y".toUTF8 (by decide +kernel) ⟨by decide, by decide⟩).2
      ⟨by decide +kernel, .inl ⟨["b", "a.md"], by decide, by decide +kernel, by simp⟩⟩
  · intro hmem
    obtain ⟨-, hwithin⟩ :=
      (hiff ["a.md"] "x".toUTF8 (by decide +kernel) ⟨by decide, by decide⟩).1 hmem
    have hlocation : Path.location ⟨"/r"⟩ = (["r"] : Location) := by decide +kernel
    have hother : Text.bytes "a.md" ≠ Text.bytes "r" := by decide
    rcases hwithin with ⟨names, -, heq, -⟩ | ⟨base, hbase, names, -, heq, -⟩
    · rw [hlocation] at heq
      exact hother (List.cons.inj heq).1
    · obtain rfl : base = ⟨""⟩ := List.mem_singleton.1 hbase
      have hbelow : (Path.join ⟨"/r"⟩ ⟨""⟩).location = (["r"] : Location) := by decide +kernel
      rw [hbelow] at heq
      exact hother (List.cons.inj heq).1

def hiddenSelection : Selection :=
  ⟨[⟨.leadingDirs :: "a.md".toList.map .literal⟩,
      ⟨"../../".toList.map .literal ++ .anyRun :: ".txt".toList.map .literal⟩],
    [], [], [⟨""⟩, ⟨"../.."⟩]⟩

def hiddenTree : Tree :=
  ⟨[([".h"], .directory), ([".h", "r"], .directory), ([".h", "b"], .directory),
    ([".h", "b", "a.md"], .file "x".toUTF8)], []⟩

theorem compile_hidden :
    Selection.compile ["**/a.md", "../../*.txt"] [] = .ok hiddenSelection := by
  have hincluded : Pattern.compile ["**/a.md", "../../*.txt"] = .ok hiddenSelection.included :=
    Pattern.compile_of_parseAll (by with_unfolding_all rfl) (by decide +kernel)
  have hdotted : (["**/a.md", "../../*.txt"].flatMap Pattern.segments).filter
      Pattern.isDotSegment = [] := by decide +kernel
  have hbases : Path.distinct (["**/a.md", "../../*.txt"].map Pattern.base)
      = hiddenSelection.bases := Path.distinct_eq_self (by decide +kernel)
  have hnormal : Pattern.normalizeAll ["**/a.md", "../../*.txt"] = ["**/a.md", "../../*.txt"] := by
    decide +kernel
  have hnone : Pattern.compile [] = .ok [] := by with_unfolding_all rfl
  have hexcluded : Pattern.normalizeAll [] = [] := rfl
  rw [Selection.compile, hnormal, hexcluded, hdotted, hbases, hincluded, hnone]
  rfl

/-! A project in `/r` with names that are single bytes and no UTF-8. -/

def brokenSelection : Selection :=
  ⟨[⟨"\uFFFD/a.md".toList.map .literal⟩], [], [], [⟨"\uFFFD"⟩]⟩

def brokenTree : Tree :=
  ⟨[(["r"], .directory), (["r", [0xFF]], .directory), (["r", [0xFF], "a.md"], .file "x".toUTF8),
    (["r", "b"], .directory), (["r", "b", "a.md"], .file "y".toUTF8),
    (["r", [0xFE]], .directory), (["r", [0xFE], "a.md"], .file "z".toUTF8)], []⟩

theorem compile_broken : Selection.compile ["\uFFFD/a.md"] [] = .ok brokenSelection := by
  with_unfolding_all rfl

/-- Where the files of the three directories stand. -/
def brokenTexts : List Location :=
  [["r", [0xFF], "a.md"], ["r", "b", "a.md"], ["r", [0xFE], "a.md"]]

/-- Two of them are read alike and have one key. -/
theorem collected_alike :
    ∃ files, Action.on ⟨"/"⟩ (collect ⟨"/"⟩ ⟨"/r"⟩ starSelection none) brokenTree = (.ok files, brokenTree) ∧
      ∃ f ∈ files, ∃ g ∈ files, f.path.location = (["r", [0xFF], "a.md"] : Location) ∧
        g.path.location = (["r", [0xFE], "a.md"] : Location) ∧ f.canonicalKey = g.canonicalKey := by
  have hgather : Action.on ⟨"/"⟩ (gather starSelection (ofLocation (Path.location ⟨"/r"⟩))
      starSelection.bases) brokenTree = (.ok (brokenTexts.map ofLocation), brokenTree) :=
    Prod.ext (by decide +kernel) rfl
  have hthere : brokenTree.node ⟨"/"⟩ ⟨"/r"⟩ = .ok .directory := by decide +kernel
  have hnormal : ∀ q ∈ brokenTexts.map ofLocation, IsNormal q := by
    have hnames : ∀ loc ∈ brokenTexts, ∀ n ∈ loc, IsName n := by decide +kernel
    exact List.forall_mem_map.2 fun loc hloc => isNormal_ofLocation (hnames loc hloc)
  refine ⟨_, on_collect (by decide +kernel) hthere hgather, ?_⟩
  refine ⟨_, (mem_arrange hnormal).2 ⟨ofLocation ["r", [0xFF], "a.md"], ?_, rfl⟩,
    _, (mem_arrange hnormal).2 ⟨ofLocation ["r", [0xFE], "a.md"], ?_, rfl⟩, ?_⟩
  all_goals decide +kernel

/-- Outside of the root, files that the patterns ask for may not be found: no base directory may lie
above them, or only one that the hidden names in the path of the root itself keep apart from them. Nor may
they be found below it where their names are not UTF-8 and stand in a base directory, and two of them may
have one key. And a directory that cannot be opened fails them all. -/
theorem asked_not_collected :
    (starTree.Proper ∧ IsInner ⟨"/r"⟩ ∧ starTree.node ⟨"/"⟩ ⟨"/r"⟩ = .ok .directory ∧
      Selection.compile ["*/a.md"] [] = .ok starSelection ∧
      (∀ base ∈ starSelection.bases, IsInner (Path.join ⟨"/r"⟩ base)) ∧
      starTree.node ⟨"/"⟩ (ofLocation ["a.md"]) = .ok (.file "x".toUTF8) ∧
      IsAsked starSelection ⟨"/r"⟩ ["a.md"] ∧
      collected? ⟨"/r"⟩ starSelection starTree = some [⟨"/r/b/a.md"⟩]) ∧
    (hiddenTree.Proper ∧ IsInner ⟨"/.h/r"⟩ ∧ hiddenTree.node ⟨"/"⟩ ⟨"/.h/r"⟩ = .ok .directory ∧
      Selection.compile ["**/a.md", "../../*.txt"] [] = .ok hiddenSelection ∧
      (∀ base ∈ hiddenSelection.bases, IsInner (Path.join ⟨"/.h/r"⟩ base)) ∧
      hiddenTree.node ⟨"/"⟩ (ofLocation [".h", "b", "a.md"]) = .ok (.file "x".toUTF8) ∧
      IsAsked hiddenSelection ⟨"/.h/r"⟩ [".h", "b", "a.md"] ∧
      collected? ⟨"/.h/r"⟩ hiddenSelection hiddenTree = some []) ∧
    (brokenTree.Proper ∧ brokenTree.node ⟨"/"⟩ ⟨"/r"⟩ = .ok .directory ∧
      Selection.compile ["\uFFFD/a.md"] [] = .ok brokenSelection ∧
      (∀ base ∈ brokenSelection.bases, IsInner (Path.join ⟨"/r"⟩ base)) ∧
      brokenTree.node ⟨"/"⟩ (ofLocation ["r", [0xFF], "a.md"]) = .ok (.file "x".toUTF8) ∧
      IsAsked brokenSelection ⟨"/r"⟩ ["r", [0xFF], "a.md"] ∧
      collected? ⟨"/r"⟩ brokenSelection brokenTree = some []) ∧
    (∃ files, Action.on ⟨"/"⟩ (collect ⟨"/"⟩ ⟨"/r"⟩ starSelection none) brokenTree = (.ok files, brokenTree) ∧
      ∃ f ∈ files, ∃ g ∈ files, f.path.location = (["r", [0xFF], "a.md"] : Location) ∧
        g.path.location = (["r", [0xFE], "a.md"] : Location) ∧ f.canonicalKey = g.canonicalKey) ∧
    collected? ⟨"/r"⟩ starSelection { starTree with closed := [["r", "b"]] } = none := by
  refine ⟨⟨?_, ?_, ?_, compile_star, ?_⟩, ⟨?_, ?_, ?_, compile_hidden, ?_⟩,
    ⟨?_, ?_, compile_broken, ?_⟩, collected_alike, ?_⟩
  all_goals decide +kernel

end Sample

end SourceFile

end TextCatalog
