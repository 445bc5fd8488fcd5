import TextCatalog.Proofs.Selection.Braces
import TextCatalog.Proofs.Source.Append

/-!
# Braces and the list of their alternatives

From a root on a proper tree a pattern with two alternatives in braces collects what the two patterns
collect that are written out, of the files with UTF-8 names and hidden names in the braces aside: these are
looked for in the text of the pattern between its slashes, where they do not start a segment. Its walk
starts higher, and may come to a directory that cannot be opened.
-/

namespace TextCatalog

open Disk
open RawText (IsText)

namespace SourceFile

open TextCatalog.Path (IsName IsTextFrom Way ofLocation)
open TextCatalog.Pattern (braces Alternation StandsAlone BeginsNoDots kept)
open Glob (IsUngrouped IsLiteralText)

variable {t t' : Tree} {cwd rootPath q : Path} {s sb : Selection} {pre a b post : String}
  {included excluded : List String} {strip : Option String} {files fb : List SourceFile} {f : SourceFile}

theorem exists_slashed_parent (rest : List Path.Component) :
    ∃ more, Path.slashed (.parent :: rest) = ".." ++ more := by
  have hfirst : ∀ pieces : List String, ∃ more, String.intercalate "/" (".." :: pieces) = ".." ++ more := by
    intro pieces
    by_cases hnil : pieces = []
    · exact ⟨"", by simp [hnil]⟩
    · exact ⟨_, by rw [String.intercalate_cons_of_ne_nil hnil, String.append_assoc]⟩
  exact hfirst _

/-- A selection that stays below the root collects files below the root only. -/
theorem exists_below_of_mem (ht : t.Proper) (hcwd : cwd.isAbsolute = true)
    (hq : cwd.absolute? rootPath = some q) (hs : Selection.compile included excluded = .ok s)
    (hbelow : s.StaysBelow) (h : Action.on cwd (collect cwd rootPath s strip) t = (.ok files, t'))
    (hf : f ∈ files) :
    ∃ names bytes, names ≠ [] ∧ t.find? (q.way.names ++ names) = some (.file bytes) ∧
      f = ofPath q.way.path strip (q.way.below names).path := by
  have hroot : ∀ n ∈ q.way.names, IsName n := fun _ => Path.isName_of_mem_way
  obtain ⟨base, hbase, w, rfl, hmet⟩ := (mem_collect_iff ht hcwd hq h f).1 hf
  obtain ⟨bytes, hfile⟩ := hmet.file
  rcases hbelow with hsteps | hselects
  · obtain ⟨names, hne, rfl, -⟩ := hmet.below
    have hway : (q.way.path.join base).way = q.way := by
      rw [way_join hroot (Selection.isAbsolute_of_mem_bases hs hbase), hsteps base hbase]
      rfl
    rw [hway] at hfile ⊢
    exact ⟨names, bytes, hne, hfile, rfl⟩
  · obtain ⟨c, rest, hpath, hdot⟩ := hselects _ hmet.selected
    rcases Way.relative_path_cases hroot (hmet.isName ht) with ⟨names, rfl, hrelative⟩ | ⟨up, hrelative⟩
    · refine ⟨names, bytes, ?_, hfile, rfl⟩
      rintro rfl
      rw [hrelative] at hpath
      cases hpath
    · obtain ⟨more, hmore⟩ := exists_slashed_parent up
      rw [hrelative, hmore, String.toList_append] at hpath
      exact absurd (List.cons.inj hpath).1.symm hdot

/-- A path below the root is UTF-8 if the names from there are. -/
theorem isTextFrom_below_iff (hq : q.isAbsolute = true) {names : Location} (hnames : ∀ n ∈ names, IsName n) :
    IsTextFrom q (q.way.below names).path ↔ ∀ n ∈ names, IsText n := by
  have hrelative : Path.relative q (q.way.below names).path = names.map .name := by
    rw [← Way.relative_below (fun _ => Path.isName_of_mem_way) hnames, Path.relative, Path.relative,
      ← Path.normalize_eq_path hq, Path.normalComponents_normalize hq]
  rw [IsTextFrom, hrelative, Path.namesIn_map]

/-- Of the files below the root that fit the patterns written out, the one with braces collects the same,
unless an alternative begins the name of a hidden entry. -/
theorem mem_collect_braces {ta tb : Tree} {names : Location} {bytes : ByteArray}
    (ht : t.Proper) (hcwd : cwd.isAbsolute = true) (hq : cwd.absolute? rootPath = some q)
    (hbraces : Selection.IsBraces pre a b post excluded s sb)
    (hfiles : Action.on cwd (collect cwd rootPath s strip) t = (.ok files, ta))
    (hfb : Action.on cwd (collect cwd rootPath sb strip) t = (.ok fb, tb)) (hne : names ≠ [])
    (hfile : t.find? (q.way.names ++ names) = some (.file bytes))
    (htext : IsTextFrom q (ofPath q.way.path strip (q.way.below names).path).path)
    (hfits : Tree.FitsWay (ofPath q.way.path strip (q.way.below names).path).path.way) :
    (ofPath q.way.path strip (q.way.below names).path ∈ fb →
      ofPath q.way.path strip (q.way.below names).path ∈ files) ∧
    ((∀ x ∈ [a, b], BeginsNoDots pre.toList (kept post).toList x.toList) →
      ofPath q.way.path strip (q.way.below names).path ∈ files →
      ofPath q.way.path strip (q.way.below names).path ∈ fb) := by
  have hnames : ∀ n ∈ names, IsName n := fun n hn =>
    ht.isName_of_find? hfile (List.mem_append_right _ hn)
  have hway : (q.way.below names).path.way = q.way.below names :=
    Way.way_path fun n hn => ht.isName_of_find? hfile hn
  rw [ofPath, hway] at hfits
  rw [ofPath, isTextFrom_below_iff (Path.isAbsolute_of_absolute? hcwd hq) hnames] at htext
  have hread : ∀ n ∈ names.map RawText.lossy, IsName (Text.bytes n) :=
    List.forall_mem_map.2 fun n hn => (hnames n hn).lossy
  rw [mem_collect_below_iff ht hcwd hq hbraces.braces hfb hne htext hfits hfile,
    mem_collect_below_iff ht hcwd hq hbraces.list hfiles hne htext hfits hfile,
    hbraces.selects_eq (List.map_eq_nil_iff.not.2 hne) hread, List.all_eq_true, List.all_eq_true]
  constructor
  · exact And.imp_right fun hall n hn => (hbraces.admits_iff (hnames n hn)).1 (hall n hn)
  · exact fun hbegins => And.imp_right fun hall n hn =>
      (hbraces.admits_iff (hnames n hn)).2 hbegins (hall n hn)

/-- **Braces mean the list of their alternatives.** Where the two patterns written out compile, the one
with braces is refused for nothing but the size of its program, and collecting for it fails with nothing but
a directory that its walk comes to and cannot open. Of the files whose names are UTF-8 and whose paths fit
it collects none that the two do not. It collects all of theirs unless an alternative begins the name of
a hidden entry, whose dot the braces keep from being a segment's first character. -/
theorem collect_braces (ht : t.Proper) (hcwd : cwd.isAbsolute = true) (h : Alternation pre a b post)
    (halone : StandsAlone pre a b post)
    (hs : Selection.compile [pre ++ a ++ post, pre ++ b ++ post] excluded = .ok s)
    (hq : cwd.absolute? rootPath = some q)
    (hfiles : Action.on cwd (collect cwd rootPath s strip) t = (.ok files, t')) :
    (∃ e, Selection.compile [braces pre a b post] excluded = .error e ∧
      ∃ patterns ∈ Selection.lists [braces pre a b post] excluded, Pattern.Outgrows patterns e) ∨
    ∃ sb, Selection.compile [braces pre a b post] excluded = .ok sb ∧
      ((∃ base ∈ sb.bases, ∃ w cause, IsBarred t sb.admits (q.way.path.join base).way w cause ∧
        Action.on cwd (collect cwd rootPath sb strip) t = (.error (.walk w.path cause), t)) ∨
      ∃ fb, Action.on cwd (collect cwd rootPath sb strip) t = (.ok fb, t) ∧
        (∀ base ∈ sb.bases, ∀ w cause, ¬ IsBarred t sb.admits (q.way.path.join base).way w cause) ∧
        ∀ f, IsTextFrom q f.path → Tree.FitsWay f.path.way → (f ∈ fb → f ∈ files) ∧
          ((∀ x ∈ [a, b], BeginsNoDots pre.toList (kept post).toList x.toList) → f ∈ files → f ∈ fb)) := by
  refine (Selection.compile_braces h halone hs).symm.imp id ?_
  rintro ⟨sb, hsb⟩
  obtain ⟨node, -, -, hthere, -⟩ := of_on_collect_eq_ok hfiles
  refine ⟨sb, hsb, (collect_cases ht hcwd hthere hq sb strip).symm.imp id ?_⟩
  rintro ⟨fb, hfb, hopen, -⟩
  have hbraces : Selection.IsBraces pre a b post excluded s sb := ⟨h, halone, hs, hsb⟩
  obtain ⟨hbelow, hbelowBraces⟩ := hbraces.staysBelow
  refine ⟨fb, hfb, hopen, fun f htext hfits => ⟨fun hf => ?_, fun hbegins hf => ?_⟩⟩
  · obtain ⟨names, bytes, hne, hfile, rfl⟩ :=
      exists_below_of_mem ht hcwd hq hsb hbelowBraces hfb hf
    exact (mem_collect_braces ht hcwd hq hbraces hfiles hfb hne hfile htext hfits).1 hf
  · obtain ⟨names, bytes, hne, hfile, rfl⟩ := exists_below_of_mem ht hcwd hq hs hbelow hfiles hf
    exact (mem_collect_braces ht hcwd hq hbraces hfiles hfb hne hfile htext hfits).2 hbegins hf

section Sample

/-! Alternatives in a project in `/r` with a file in a hidden directory and one two directories down. -/

def branchTree : Tree :=
  ⟨[(["r"], .directory), (["r", "x"], .directory), (["r", "x", ".h"], .directory),
    (["r", "x", ".h", "a.md"], .file "x".toUTF8), (["r", "x", "y"], .directory),
    (["r", "x", "y", "d"], .directory), (["r", "x", "y", "d", "f"], .file "y".toUTF8)], []⟩

theorem compile_of_parseAll {globs hidden : List Glob} {bases : List Path}
    (patterns dotted : List String) (hnormal : Pattern.normalizeAll included = patterns)
    (hread : Pattern.parseAll patterns = .ok globs) (hfit : Glob.refusal? globs = none)
    (hdotted : Pattern.dotSegments patterns = dotted) (hhidden : Pattern.parseAll dotted = .ok hidden)
    (hfits : Glob.refusal? hidden = none) (hbases : patterns.map Pattern.base = bases)
    (hdistinct : bases.Pairwise fun p q => Path.le p q = true ∧ p.components ≠ q.components) :
    Selection.compile included [] = .ok ⟨globs, [], hidden, bases⟩ := by
  have hdots : Pattern.compile (Pattern.dotSegments patterns) = .ok hidden :=
    hdotted ▸ Pattern.compile_of_parseAll hhidden hfits
  rw [Selection.compile_eq_ok_iff, hnormal, hbases]
  exact ⟨Pattern.compile_of_parseAll hread hfit, by with_unfolding_all rfl, hdots,
    (Path.distinct_eq_self hdistinct).symm⟩

def noteTokens : List Glob.Token := .literal '/' :: .anyRun :: ".md".toList.map .literal

def hiddenPair : Selection :=
  ⟨[⟨"x/.g".toList.map .literal ++ noteTokens⟩, ⟨"x/.h".toList.map .literal ++ noteTokens⟩], [],
    [⟨".g".toList.map .literal⟩, ⟨".h".toList.map .literal⟩], [⟨"x/.g"⟩, ⟨"x/.h"⟩]⟩

theorem compile_hiddenNotes :
    Selection.compile ["x/." ++ "g" ++ "/*.md", "x/." ++ "h" ++ "/*.md"] [] = .ok hiddenPair :=
  compile_of_parseAll ["x/.g/*.md", "x/.h/*.md"] [".g", ".h"] (by decide +kernel)
    (by with_unfolding_all rfl) (by decide +kernel) (by decide +kernel) (by with_unfolding_all rfl)
    (by decide +kernel) (by decide +kernel) (by decide +kernel)

theorem compile_hiddenBraces :
    Selection.compile [braces "x/." "g" "h" "/*.md"] [] = .ok
      ⟨[⟨"x/.".toList.map .literal
          ++ .oneOf ["g".toList.map .literal, "h".toList.map .literal] :: noteTokens⟩], [],
        [⟨[.literal '.', .oneOf ["g".toList.map .literal, "h".toList.map .literal]]⟩], [⟨"x"⟩]⟩ :=
  compile_of_parseAll [braces "x/." "g" "h" "/*.md"] [".\x7bg,h\x7d"] (by decide +kernel)
    (by with_unfolding_all rfl) (by decide +kernel) (by decide +kernel) (by with_unfolding_all rfl)
    (by decide +kernel) (by decide +kernel) (by decide +kernel)

theorem alternation_of_x {pre a b post : String} (hpre : pre.toList.head? = some 'x')
    (hpost : IsUngrouped pre.toList ∧ IsUngrouped post.toList)
    (hne : ∀ x ∈ [a, b], x ≠ "" ∧ IsLiteralText x.toList) : Alternation pre a b post := by
  obtain ⟨cs, hcs⟩ := List.head?_eq_some_iff.1 hpre
  exact ⟨⟨'x', cs, hcs, by decide, by decide, by decide⟩, hpost.1, hpost.2, fun x hx => (hne x hx).1,
    fun x hx => (hne x hx).2⟩

/-- Behind the dot of a hidden directory the braces are in the segment that spells it out. -/
theorem collect_braces_of_hidden :
    (branchTree.Proper ∧ Alternation "x/." "g" "h" "/*.md" ∧ StandsAlone "x/." "g" "h" "/*.md") ∧
    ∃ sb fb, Selection.compile [braces "x/." "g" "h" "/*.md"] [] = .ok sb ∧
      Action.on ⟨"/"⟩ (collect ⟨"/"⟩ ⟨"/r"⟩ sb none) branchTree = (.ok fb, branchTree) ∧
      ofPath ⟨"/r"⟩ none ⟨"/r/x/.h/a.md"⟩ ∈ fb := by
  have hproper : branchTree.Proper := by decide +kernel
  have hthere : branchTree.node ⟨"/"⟩ ⟨"/r"⟩ = .ok .directory := by decide +kernel
  have habsolute : Path.absolute? ⟨"/"⟩ ⟨"/r"⟩ = some ⟨"/r"⟩ := by decide +kernel
  have halternation : Alternation "x/." "g" "h" "/*.md" :=
    alternation_of_x (by decide) (by decide +kernel) (by decide +kernel)
  have halone : StandsAlone "x/." "g" "h" "/*.md" :=
    ⟨by decide +kernel, by decide +kernel, by decide +kernel, by decide +kernel, by decide +kernel⟩
  refine ⟨⟨hproper, halternation, halone⟩, ?_⟩
  obtain ⟨files, hfiles, -⟩ := exists_collect_of_some hproper hthere habsolute
    (s := hiddenPair) (by decide +kernel)
  obtain ⟨e, herror, -⟩ | ⟨sb, hsb, ⟨_, -, _, _, -, hfails⟩ | ⟨fb, hfb, -, hsame⟩⟩ :=
    collect_braces hproper (by decide) halternation halone compile_hiddenNotes habsolute hfiles
  · rw [compile_hiddenBraces] at herror
    cases herror
  · obtain rfl := Except.ok.inj (compile_hiddenBraces.symm.trans hsb)
    exact absurd (collected?_eq_none hfails) (by decide +kernel)
  · refine ⟨sb, fb, hsb, hfb, ?_⟩
    have hfits : Tree.FitsWay (Way.below (Path.way ⟨"/r"⟩) ["x", ".h", "a.md"]) :=
      ⟨by decide, by decide⟩
    have hfile : branchTree.find? ["r", "x", ".h", "a.md"] = some (.file "x".toUTF8) := by
      decide +kernel
    have hmem := (mem_collect_below_iff hproper (by decide) habsolute compile_hiddenNotes hfiles
      (by decide) (by decide +kernel) hfits hfile).2 ⟨by decide +kernel, by decide +kernel⟩
    refine (hsame _ (by decide +kernel) ⟨by decide +kernel, by decide +kernel⟩).2 ?_ hmem
    intro x hx
    obtain rfl | rfl := by simpa using hx
    all_goals exact ⟨by decide +kernel, by decide +kernel⟩

/-- What the alternatives collect written out, and in braces if that does not fail. -/
def Collects (t : Tree) (pre a b post : String) (files : List Path) (inBraces : Option (List Path)) :
    Prop :=
  ∃ s sb, Selection.compile [pre ++ a ++ post, pre ++ b ++ post] [] = .ok s ∧
    Selection.compile [braces pre a b post] [] = .ok sb ∧
    collected? ⟨"/r"⟩ s t = some files ∧ collected? ⟨"/r"⟩ sb t = inBraces

/-- The selection of one glob without hidden names whose base directory is `x`. -/
def belowX (tokens : List Glob.Token) : Selection :=
  ⟨[⟨tokens⟩], [], [], [⟨"x"⟩]⟩

theorem compile_belowX {tokens : List Glob.Token} (pattern : String)
    (hnormal : Pattern.normalizeAll [pattern] = [pattern])
    (hread : Pattern.parseAll [pattern] = .ok [⟨tokens⟩]) (hfit : Glob.refusal? [⟨tokens⟩] = none)
    (hdotted : Pattern.dotSegments [pattern] = []) (hbase : Pattern.base pattern = ⟨"x"⟩) :
    Selection.compile [pattern] [] = .ok (belowX tokens) :=
  compile_of_parseAll [pattern] [] hnormal hread hfit hdotted rfl (by decide +kernel)
    (congrArg (fun base => [base]) hbase) (List.pairwise_singleton ..)

def dottedPair : Selection :=
  ⟨[⟨"x/.h".toList.map .literal ++ noteTokens⟩, ⟨"x/g".toList.map .literal ++ noteTokens⟩], [],
    [⟨".h".toList.map .literal⟩], [⟨"x/.h"⟩, ⟨"x/g"⟩]⟩

def starredPair : Selection :=
  ⟨[⟨"x/y".toList.map .literal ++ [.trailingAll]⟩, ⟨"x/z".toList.map .literal ++ [.trailingAll]⟩], [],
    [], [⟨"x/y"⟩, ⟨"x/z"⟩]⟩

def blankPair : Selection :=
  ⟨[⟨"x/y/d/f".toList.map .literal⟩, ⟨"x/z/f".toList.map .literal⟩], [], [], [⟨"x/y/d"⟩, ⟨"x/z"⟩]⟩

/-- The names of two directories that are not there, and that of one as it is read. -/
def plainPair : Selection :=
  ⟨[⟨"x/z".toList.map .literal ++ noteTokens⟩, ⟨"x/\uFFFD".toList.map .literal ++ noteTokens⟩], [], [],
    [⟨"x/z"⟩, ⟨"x/\uFFFD"⟩]⟩

def unreadBranch : Tree :=
  ⟨[(["r"], .directory), (["r", "x"], .directory), (["r", "x", [0xFF]], .directory),
    (["r", "x", [0xFF], "a.md"], .file "x".toUTF8)], []⟩

/-- In braces a hidden directory is not spelled out, two stars behind a slash are not read as directories,
and white space at the end is not taken off. The walk starts above the braces, so that it may be barred, or
come to a name that is only read as one in the braces. -/
theorem braces_collect_less :
    branchTree.Proper ∧
    (Alternation "x/" ".h" "g" "/*.md" ∧
      Collects branchTree "x/" ".h" "g" "/*.md" [⟨"/r/x/.h/a.md"⟩] (some [])) ∧
    (Alternation "x/" "y/" "z/" "**" ∧
      Collects branchTree "x/" "y/" "z/" "**" [⟨"/r/x/y/d/f"⟩] (some [])) ∧
    (Alternation "x/" "y/d/f " "z/f" "" ∧
      Collects branchTree "x/" "y/d/f " "z/f" "" [⟨"/r/x/y/d/f"⟩] (some [])) ∧
    unreadBranch.Proper ∧ Alternation "x/" "z" "\uFFFD" "/*.md" ∧
      Collects unreadBranch "x/" "z" "\uFFFD" "/*.md" [] (some [ofLocation ["r", "x", [0xFF], "a.md"]]) ∧
      Collects { branchTree with closed := [["r", "x", "y"]] } "x/" "z" "\uFFFD" "/*.md" [] none := by
  have hhidden : Selection.compile ["x/" ++ ".h" ++ "/*.md", "x/" ++ "g" ++ "/*.md"] []
      = .ok dottedPair :=
    compile_of_parseAll ["x/.h/*.md", "x/g/*.md"] [".h"] (by decide +kernel)
      (by with_unfolding_all rfl) (by decide +kernel) (by decide +kernel) (by with_unfolding_all rfl)
      (by decide +kernel) (by decide +kernel) (by decide +kernel)
  have hhiddenBraces : Selection.compile [braces "x/" ".h" "g" "/*.md"] [] = .ok (belowX
      ("x/".toList.map .literal
        ++ .oneOf [".h".toList.map .literal, "g".toList.map .literal] :: noteTokens)) :=
    compile_belowX _ (by decide +kernel) (by with_unfolding_all rfl) (by decide +kernel)
      (by decide +kernel) (by decide +kernel)
  have hstars : Selection.compile ["x/" ++ "y/" ++ "**", "x/" ++ "z/" ++ "**"] [] = .ok starredPair :=
    compile_of_parseAll ["x/y/**", "x/z/**"] [] (by decide +kernel)
      (by with_unfolding_all rfl) (by decide +kernel) (by decide +kernel) rfl (by decide +kernel)
      (by decide +kernel) (by decide +kernel)
  have hstarsBraces : Selection.compile [braces "x/" "y/" "z/" "**"] [] = .ok (belowX
      ("x/".toList.map .literal
        ++ [.oneOf ["y/".toList.map .literal, "z/".toList.map .literal], .anyRun, .anyRun])) :=
    compile_belowX _ (by decide +kernel) (by with_unfolding_all rfl) (by decide +kernel)
      (by decide +kernel) (by decide +kernel)
  have hblank : Selection.compile ["x/" ++ "y/d/f " ++ "", "x/" ++ "z/f" ++ ""] [] = .ok blankPair :=
    compile_of_parseAll ["x/y/d/f", "x/z/f"] [] (by decide +kernel)
      (by with_unfolding_all rfl) (by decide +kernel) (by decide +kernel) rfl (by decide +kernel)
      (by decide +kernel) (by decide +kernel)
  have hblankBraces : Selection.compile [braces "x/" "y/d/f " "z/f" ""] [] = .ok (belowX
      ("x/".toList.map .literal
        ++ [.oneOf ["y/d/f ".toList.map .literal, "z/f".toList.map .literal]])) :=
    compile_belowX _ (by decide +kernel) (by with_unfolding_all rfl) (by decide +kernel)
      (by decide +kernel) (by decide +kernel)
  have hplain : Selection.compile ["x/" ++ "z" ++ "/*.md", "x/" ++ "\uFFFD" ++ "/*.md"] []
      = .ok plainPair :=
    compile_of_parseAll ["x/z/*.md", "x/\uFFFD/*.md"] [] (by decide +kernel)
      (by with_unfolding_all rfl) (by decide +kernel) (by decide +kernel) rfl (by decide +kernel)
      (by decide +kernel) (by decide +kernel)
  have hplainBraces : Selection.compile [braces "x/" "z" "\uFFFD" "/*.md"] [] = .ok (belowX
      ("x/".toList.map .literal
        ++ .oneOf ["z".toList.map .literal, "\uFFFD".toList.map .literal] :: noteTokens)) :=
    compile_belowX _ (by decide +kernel) (by with_unfolding_all rfl) (by decide +kernel)
      (by decide +kernel) (by decide +kernel)
  refine ⟨by decide +kernel, ⟨?_, _, _, hhidden, hhiddenBraces, ?_, ?_⟩,
    ⟨?_, _, _, hstars, hstarsBraces, ?_, ?_⟩, ⟨?_, _, _, hblank, hblankBraces, ?_, ?_⟩,
    by decide +kernel, ?_, ⟨_, _, hplain, hplainBraces, ?_, ?_⟩, _, _, hplain, hplainBraces, ?_, ?_⟩
  · exact alternation_of_x (by decide) (by decide +kernel) (by decide +kernel)
  · decide +kernel
  · decide +kernel
  · exact alternation_of_x (by decide) (by decide +kernel) (by decide +kernel)
  · decide +kernel
  · decide +kernel
  · exact alternation_of_x (by decide) (by decide +kernel) (by decide +kernel)
  · decide +kernel
  · decide +kernel
  · exact alternation_of_x (by decide) (by decide +kernel) (by decide +kernel)
  · decide +kernel
  · decide +kernel
  · decide +kernel
  · decide +kernel

end Sample

end SourceFile

end TextCatalog
