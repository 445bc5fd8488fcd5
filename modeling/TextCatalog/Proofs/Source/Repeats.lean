import TextCatalog.Proofs.Source.Keys
import TextCatalog.Proofs.Source.Rooted

/-!
# What is collected twice

Collected files are told apart by their normal paths, which keep the two dots that try to leave the root
directory of the disk. So a file is collected once by each number of such dots with which a walk meets it:
once, unless two base directories climb differently far beyond the root directory and both lead there.
-/

namespace TextCatalog

namespace Path

open Component

section Climbing

variable {root w w' : Way}

theorem Way.eq_iff : w = w' ↔ w.ups = w'.ups ∧ w.names = w'.names := by
  cases w
  cases w'
  exact Way.mk.injEq ..  ▸ Iff.rfl

theorem Way.ups_le_ups_follow (w : Way) (cs : List Component) : w.ups ≤ (w.follow cs).ups := by
  induction cs generalizing w with
  | nil => exact le_rfl
  | cons c cs ih =>
    have hstep : w.ups ≤ (w.go c).ups := by
      cases c with
      | root | current | name => exact le_rfl
      | parent =>
        rw [go]
        split
        · exact Nat.le_succ w.ups
        · exact le_rfl
    exact hstep.trans (ih (w.go c))

theorem sharedLength_append (front as bs : List Component) :
    sharedLength (front ++ as) (front ++ bs) = front.length + sharedLength as bs := by
  induction front with
  | nil => exact (Nat.zero_add _).symm
  | cons c front ih =>
    rw [List.cons_append, List.cons_append, sharedLength, if_pos rfl, ih, List.length_cons]
    omega

/-- Two dots that both ways start with make no difference to the relative path. -/
theorem relative_out (k : Nat) (hroot : ∀ n ∈ root.names, IsName n) (hw : ∀ n ∈ w.names, IsName n) :
    relative (Way.path ⟨k + root.ups, root.names⟩) (Way.path ⟨k + w.ups, w.names⟩)
      = relative root.path w.path := by
  have hout : ∀ v : Way, (⟨k + v.ups, v.names⟩ : Way).components
      = List.replicate k .parent ++ v.components := by
    intro v
    rw [Way.components, Way.components, ← List.append_assoc, List.replicate_append_replicate]
  have hnormal : ∀ v : Way, (∀ n ∈ v.names, IsName n) →
      v.path.normalComponents = .root :: v.components := by
    intro v hv
    rw [normalComponents_eq_way v.isAbsolute_path, Way.way_path hv]
  have hlength : ∀ cs : List Component, (.root :: (List.replicate k .parent ++ cs) : List Component).length
      = k + 1 + cs.length := by
    intro cs
    rw [List.length_cons, List.length_append, List.length_replicate]
    omega
  have hshared : sharedLength (.root :: (List.replicate k .parent ++ root.components))
      (.root :: (List.replicate k .parent ++ w.components))
      = k + 1 + sharedLength root.components w.components := by
    rw [sharedLength, if_pos rfl, sharedLength_append, List.length_replicate]
    omega
  have hdrop : (.root :: (List.replicate k .parent ++ w.components)).drop
      (k + 1 + sharedLength root.components w.components)
      = (.root :: w.components).drop (sharedLength root.components w.components + 1) := by
    rw [Nat.add_right_comm, List.drop_succ_cons, List.drop_succ_cons, List.drop_append,
      List.length_replicate, Nat.add_sub_cancel_left, List.drop_eq_nil_of_le (by simp)]
    rfl
  have hcount : k + 1 + root.components.length - (k + 1 + sharedLength root.components w.components)
      = root.components.length + 1 - (sharedLength root.components w.components + 1) := by omega
  rw [relative, relative, hnormal root hroot, hnormal w hw, hnormal ⟨k + root.ups, root.names⟩ hroot,
    hnormal ⟨k + w.ups, w.names⟩ hw, hout, hout, hshared, hdrop, hlength, hcount, sharedLength,
    if_pos rfl, List.length_cons]

theorem isInner_path (hw : ∀ n ∈ w.names, IsName n) (hups : w.ups = 0) : w.path.IsInner := by
  obtain ⟨ups, names⟩ := w
  obtain rfl : ups = 0 := hups
  refine ⟨Way.isAbsolute_path _, ?_⟩
  rw [normalComponents_eq_way (Way.isAbsolute_path _), Way.way_path hw]
  simp [Way.components]

/-- Ways that climb as far as the root at least have different keys, if they are UTF-8 from there. -/
theorem canonical_inj_of_ups_le (hroot : ∀ n ∈ root.names, IsName n) (hw : ∀ n ∈ w.names, IsName n)
    (hw' : ∀ n ∈ w'.names, IsName n) (hups : root.ups ≤ w.ups) (hups' : root.ups ≤ w'.ups)
    (htext : IsTextFrom root.path w.path) (htext' : IsTextFrom root.path w'.path)
    (h : Key.canonical root.path w.path = Key.canonical root.path w'.path) : w = w' := by
  have hout : ∀ {v : Way}, (∀ n ∈ v.names, IsName n) → root.ups ≤ v.ups →
      relative root.path v.path
        = relative (Way.path ⟨0, root.names⟩) (Way.path ⟨v.ups - root.ups, v.names⟩) := by
    intro v hv hle
    have hinner : ∀ n ∈ (⟨0, root.names⟩ : Way).names, IsName n := hroot
    have hbelow : ∀ n ∈ (⟨v.ups - root.ups, v.names⟩ : Way).names, IsName n := hv
    have hrelative := relative_out root.ups hinner hbelow
    rwa [Nat.add_zero, Nat.add_sub_cancel' hle] at hrelative
  have hinner : (Way.path ⟨0, root.names⟩).IsInner := isInner_path (w := ⟨0, root.names⟩) hroot rfl
  rw [IsTextFrom, hout hw hups] at htext
  rw [IsTextFrom, hout hw' hups'] at htext'
  rw [Key.canonical, Key.canonical, hout hw hups, hout hw' hups'] at h
  replace h := Key.normalize_eq_of_canonical_eq hinner (Way.isAbsolute_path _) (Way.isAbsolute_path _)
    htext htext' h
  rw [Way.normalize_path (w := ⟨w.ups - root.ups, w.names⟩) hw,
    Way.normalize_path (w := ⟨w'.ups - root.ups, w'.names⟩) hw'] at h
  have hsame : (⟨w.ups - root.ups, w.names⟩ : Way) = ⟨w'.ups - root.ups, w'.names⟩ :=
    Way.path_inj hw hw' h
  obtain ⟨hclimb, hnames⟩ := Way.mk.inj hsame
  exact Way.eq_iff.2 ⟨by omega, hnames⟩

end Climbing

end Path

open Disk

namespace SourceFile

open TextCatalog.Path (IsName IsTextFrom Way)

variable {t : Tree} {cwd rootPath q base : Path} {s : Selection} {root w : Way}
  {included excluded : List String} {strip : Option String} {files : List SourceFile} {f g : SourceFile}

/-- Where the walk from a base directory starts. -/
def walkStart (root : Way) (base : Path) : Way :=
  (root.path.join base).way

section Met

variable {admits : RawText → Bool} {selects : String → Bool} {start : Path → Way} {bases : List Path}
  {here : Way}

theorem IsMet.ups_eq (h : IsMet t admits selects root here w) : w.ups = here.ups := by
  obtain ⟨names, -, rfl, -⟩ := h.below
  rfl

theorem IsMet.eq_of_names (h : IsMet t admits selects root here w) : w = ⟨here.ups, w.names⟩ :=
  Way.eq_iff.2 ⟨h.ups_eq, rfl⟩

theorem IsMet.way_ofPath (h : IsMet t admits selects root here w) (ht : t.Proper) :
    (ofPath root.path strip w.path).path.way = w :=
  Way.way_path (h.isName ht)

theorem IsMet.location_ofPath (h : IsMet t admits selects root here w) (ht : t.Proper) :
    (ofPath root.path strip w.path).path.location = w.names :=
  Way.location_path (h.isName ht)

/-- The files are those that the walks from the base directories meet. -/
def AreMet (t : Tree) (admits : RawText → Bool) (selects : String → Bool) (root : Way) (strip : Option String)
    (start : Path → Way) (bases : List Path) (files : List SourceFile) : Prop :=
  ∀ f, f ∈ files ↔ ∃ base ∈ bases, ∃ w : Way, f = ofPath root.path strip w.path ∧
    IsMet t admits selects root (start base) w

namespace AreMet

/-- Two dots at the start apart, the results are different files. -/
theorem eq_of_location (h : AreMet t admits selects root strip start bases files) (ht : t.Proper)
    (hf : f ∈ files) (hg : g ∈ files) (hlocation : f.path.location = g.path.location)
    (hups : f.path.way.ups = g.path.way.ups) : f = g := by
  obtain ⟨base, -, w, rfl, hmet⟩ := (h f).1 hf
  obtain ⟨base', -, w', rfl, hmet'⟩ := (h g).1 hg
  rw [hmet.location_ofPath ht, hmet'.location_ofPath ht] at hlocation
  rw [hmet.way_ofPath ht, hmet'.way_ofPath ht] at hups
  rw [Way.eq_iff.2 ⟨hups, hlocation⟩]

theorem exists_find? (h : AreMet t admits selects root strip start bases files) (ht : t.Proper)
    (cwd : Path) (hf : f ∈ files) :
    ∃ bytes, t.find? f.path.location = some (.file bytes) ∧
      ∀ node, t.node cwd f.path = .ok node → node = .file bytes := by
  obtain ⟨base, -, w, rfl, hmet⟩ := (h f).1 hf
  obtain ⟨bytes, hfile⟩ := hmet.file
  refine ⟨bytes, by rw [hmet.location_ofPath ht, hfile], fun node hnode => ?_⟩
  have hfind := ((Tree.node_path_iff ht (hmet.isName ht)).1 hnode).2
  exact Option.some.inj (hfind.symm.trans hfile)

theorem ups_eq (h : AreMet t admits selects root strip start bases files) (ht : t.Proper)
    (hclimb : ∀ base ∈ bases, ∀ base' ∈ bases, (start base).ups = (start base').ups)
    (hf : f ∈ files) (hg : g ∈ files) : f.path.way.ups = g.path.way.ups := by
  obtain ⟨base, hbase, w, rfl, hmet⟩ := (h f).1 hf
  obtain ⟨base', hbase', w', rfl, hmet'⟩ := (h g).1 hg
  rw [hmet.way_ofPath ht, hmet'.way_ofPath ht, hmet.ups_eq, hmet'.ups_eq]
  exact hclimb base hbase base' hbase'

/-- A location has two results exactly if two walks that start differently far beyond the root directory
both meet it. -/
theorem repeats_iff (h : AreMet t admits selects root strip start bases files) (ht : t.Proper)
    (loc : Location) :
    (∃ f ∈ files, ∃ g ∈ files, f ≠ g ∧ f.path.location = loc ∧ g.path.location = loc) ↔
      ∃ base ∈ bases, ∃ base' ∈ bases, (start base).ups ≠ (start base').ups ∧
        IsMet t admits selects root (start base) ⟨(start base).ups, loc⟩ ∧
        IsMet t admits selects root (start base') ⟨(start base').ups, loc⟩ := by
  constructor
  · rintro ⟨f, hf, g, hg, hne, hlocation, hlocation'⟩
    have hups : f.path.way.ups ≠ g.path.way.ups := fun hups =>
      hne (h.eq_of_location ht hf hg (hlocation.trans hlocation'.symm) hups)
    obtain ⟨base, hbase, w, rfl, hmet⟩ := (h f).1 hf
    obtain ⟨base', hbase', w', rfl, hmet'⟩ := (h g).1 hg
    rw [hmet.location_ofPath ht] at hlocation
    rw [hmet'.location_ofPath ht] at hlocation'
    have hw := hlocation ▸ hmet.eq_of_names
    have hw' := hlocation' ▸ hmet'.eq_of_names
    rw [hmet.way_ofPath ht, hmet'.way_ofPath ht, hw, hw'] at hups
    rw [hw] at hmet
    rw [hw'] at hmet'
    exact ⟨base, hbase, base', hbase', hups, hmet, hmet'⟩
  · rintro ⟨base, hbase, base', hbase', hups, hmet, hmet'⟩
    refine ⟨_, (h _).2 ⟨base, hbase, _, rfl, hmet⟩, _, (h _).2 ⟨base', hbase', _, rfl, hmet'⟩, ?_,
      hmet.location_ofPath ht, hmet'.location_ofPath ht⟩
    intro heq
    exact hups (Way.eq_iff.1 (ofPath_inj (hmet.isName ht) (hmet'.isName ht) heq)).1

end AreMet

end Met

section Collected

/-- A walk starts as far beyond the root directory as the root of the project at least. -/
theorem ups_le_of_isMet (hs : Selection.compile included excluded = .ok s) (hbase : base ∈ s.bases)
    (hroot : ∀ n ∈ root.names, IsName n)
    (h : IsMet t s.admits s.selects root (walkStart root base) w) : root.ups ≤ w.ups := by
  rw [h.ups_eq, walkStart, way_join hroot (Selection.isAbsolute_of_mem_bases hs hbase)]
  exact Way.ups_le_ups_follow root base.steps

theorem pairwise_of_areMet (ht : t.Proper) (hcwd : cwd.isAbsolute = true)
    (hq : cwd.absolute? rootPath = some q) (hs : Selection.compile included excluded = .ok s) {t' : Tree}
    (hcollect : Action.on cwd (collect cwd rootPath s strip) t = (.ok files, t'))
    (hmet : AreMet t s.admits s.selects q.way strip (walkStart q.way) s.bases files) :
    files.Pairwise fun f g => f ≠ g ∧ f.canonicalKey ≤ g.canonicalKey ∧
      (IsTextFrom q.way.path f.path → IsTextFrom q.way.path g.path → f.canonicalKey < g.canonicalKey) := by
  have hnames : ∀ n ∈ q.way.names, IsName n := fun _ => Path.isName_of_mem_way
  obtain ⟨-, q', paths, -, hq', hgather, rfl⟩ := of_on_collect_eq_ok hcollect
  obtain rfl : q = q' := Option.some.inj (hq.symm.trans hq')
  rw [Path.normalize_eq_path (Path.isAbsolute_of_absolute? hcwd hq)] at hgather hmet ⊢
  have hpaths := isNormal_of_gather q.way.isAbsolute_path hgather
  refine (pairwise_arrange q.way.path strip paths).imp_of_mem fun {f g} hf hg hfg => ?_
  refine ⟨hfg.1, hfg.2, fun htext htext' => lt_of_le_of_ne hfg.2 fun hkey => hfg.1 ?_⟩
  obtain ⟨base, hbase, w, rfl, hw⟩ := (hmet f).1 hf
  obtain ⟨base', hbase', w', rfl, hw'⟩ := (hmet g).1 hg
  rw [Path.canonical_inj_of_ups_le hnames (hw.isName ht) (hw'.isName ht)
    (ups_le_of_isMet hs hbase hnames hw) (ups_le_of_isMet hs hbase' hnames hw') htext htext' hkey]

/-- Where no walk is barred, the same file is collected more than once exactly if two base directories that
climb differently far beyond the root directory both lead to it by spelled paths that are selected; if all
climb equally far, the results are different files. They come in the order of their keys, and each has a
key of its own among those that are UTF-8. -/
theorem collect_repeats_iff (ht : t.Proper) (hcwd : cwd.isAbsolute = true) {node : Node}
    (hthere : t.node cwd rootPath = .ok node) (hq : cwd.absolute? rootPath = some q)
    (hs : Selection.compile included excluded = .ok s) (strip : Option String) :
    (∃ base ∈ s.bases, ∃ w cause, IsBarred t s.admits (walkStart q.way base) w cause ∧
      Action.on cwd (collect cwd rootPath s strip) t = (.error (.walk w.path cause), t)) ∨
    ∃ files, Action.on cwd (collect cwd rootPath s strip) t = (.ok files, t) ∧
      (∀ base ∈ s.bases, ∀ w cause, ¬ IsBarred t s.admits (walkStart q.way base) w cause) ∧
      (files.Pairwise fun f g => f ≠ g ∧ f.canonicalKey ≤ g.canonicalKey ∧
        (IsTextFrom q.way.path f.path → IsTextFrom q.way.path g.path →
          f.canonicalKey < g.canonicalKey)) ∧
      (∀ f ∈ files, ∃ bytes, t.find? f.path.location = some (.file bytes) ∧
        ∀ node, t.node cwd f.path = .ok node → node = .file bytes) ∧
      (∀ f ∈ files, ∀ g ∈ files, f.path.location = g.path.location →
        f.path.way.ups = g.path.way.ups → f = g) ∧
      (∀ loc, (∃ f ∈ files, ∃ g ∈ files, f ≠ g ∧ f.path.location = loc ∧ g.path.location = loc) ↔
        ∃ base ∈ s.bases, ∃ base' ∈ s.bases,
          (walkStart q.way base).ups ≠ (walkStart q.way base').ups ∧
          IsMet t s.admits s.selects q.way (walkStart q.way base) ⟨(walkStart q.way base).ups, loc⟩ ∧
          IsMet t s.admits s.selects q.way (walkStart q.way base')
            ⟨(walkStart q.way base').ups, loc⟩) ∧
      ((∀ base ∈ s.bases, ∀ base' ∈ s.bases,
          (walkStart q.way base).ups = (walkStart q.way base').ups) →
        files.Pairwise fun f g => f.path.location ≠ g.path.location) := by
  rcases collect_cases ht hcwd hthere hq s strip with ⟨files, hcollect, hopen, hmem⟩ | hbarred
  · have hmet : AreMet t s.admits s.selects q.way strip (walkStart q.way) s.bases files := hmem
    have hpairs := pairwise_of_areMet ht hcwd hq hs hcollect hmet
    refine .inr ⟨files, hcollect, hopen, hpairs, fun f hf => hmet.exists_find? ht cwd hf,
      fun f hf g hg => hmet.eq_of_location ht hf hg, hmet.repeats_iff ht, fun hclimb => ?_⟩
    exact hpairs.imp_of_mem fun {f g} hf hg hfg hlocation =>
      hfg.1 (hmet.eq_of_location ht hf hg hlocation (hmet.ups_eq ht hclimb hf hg))
  · exact .inl hbarred

end Collected

section Sample

/-! A project in the root directory, with one pattern that tries to leave it. -/

def climbingSelection : Selection :=
  ⟨["../t/a.md", "t/a.md"].map fun pattern => ⟨pattern.toList.map .literal⟩, [], [],
    [⟨"../t"⟩, ⟨"t"⟩]⟩

def climbingTree : Tree :=
  ⟨[(["t"], .directory), (["t", "a.md"], .file "x".toUTF8)], []⟩

theorem compile_climbing :
    Selection.compile ["../t/a.md", "t/a.md"] [] = .ok climbingSelection := by
  have hnormal : Pattern.normalizeAll ["../t/a.md", "t/a.md"] = ["../t/a.md", "t/a.md"] := by
    decide +kernel
  have hdotted : (["../t/a.md", "t/a.md"].flatMap Pattern.segments).filter Pattern.isDotSegment = [] := by
    decide +kernel
  rw [Selection.compile_eq_ok_iff, hnormal, hdotted]
  refine ⟨Pattern.compile_of_parseAll (by with_unfolding_all rfl) (by decide +kernel),
    by with_unfolding_all rfl, by with_unfolding_all rfl, ?_⟩
  exact (Path.distinct_eq_self (by decide +kernel)).symm

/-- The file is met from below the root directory, and once more from beyond it. -/
theorem isMet_climbing {base : Path} (hbase : base ∈ climbingSelection.bases) :
    IsMet climbingTree climbingSelection.admits climbingSelection.selects (Path.way ⟨"/"⟩)
      (walkStart (Path.way ⟨"/"⟩) base) ⟨(walkStart (Path.way ⟨"/"⟩) base).ups, ["t", "a.md"]⟩ := by
  have hfile : ∃ bytes, climbingTree.find? ["t", "a.md"] = some (.file bytes) :=
    ⟨"x".toUTF8, by decide +kernel⟩
  have hcases : base = ⟨"../t"⟩ ∨ base = ⟨"t"⟩ := by simpa [climbingSelection] using hbase
  rcases hcases with rfl | rfl
  all_goals
    exact ⟨⟨by decide +kernel, by decide +kernel⟩, ⟨["a.md"], by decide, by decide +kernel,
      by decide +kernel⟩, by decide +kernel, hfile⟩

theorem collects_climbing :
    ∃ files, Action.on ⟨"/"⟩ (collect ⟨"/"⟩ ⟨"/"⟩ climbingSelection none) climbingTree
      = (.ok files, climbingTree) := by
  have hthere : climbingTree.node ⟨"/"⟩ ⟨"/"⟩ = .ok .directory := by decide +kernel
  have habsolute : Path.absolute? ⟨"/"⟩ ⟨"/"⟩ = some ⟨"/"⟩ := by decide +kernel
  have hgather : Action.on ⟨"/"⟩ (gather climbingSelection (Path.normalize ⟨"/"⟩)
      climbingSelection.bases) climbingTree = (.ok [⟨"/../t/a.md"⟩, ⟨"/t/a.md"⟩], climbingTree) :=
    Prod.ext (by decide +kernel) rfl
  exact ⟨_, on_collect_of_gather hthere habsolute hgather none⟩

theorem collect_repeats_beyond_root :
    climbingTree.Proper ∧ Selection.compile ["../t/a.md", "t/a.md"] [] = .ok climbingSelection ∧
      ∃ files, Action.on ⟨"/"⟩ (collect ⟨"/"⟩ ⟨"/"⟩ climbingSelection none) climbingTree
          = (.ok files, climbingTree) ∧
        (files.Pairwise fun f g => f ≠ g ∧ f.canonicalKey ≤ g.canonicalKey) ∧
        ∃ f ∈ files, ∃ g ∈ files, f ≠ g ∧ f.path.location = (["t", "a.md"] : Location) ∧
          g.path.location = (["t", "a.md"] : Location) := by
  have hproper : climbingTree.Proper := by decide +kernel
  have hthere : climbingTree.node ⟨"/"⟩ ⟨"/"⟩ = .ok .directory := by decide +kernel
  have habsolute : Path.absolute? ⟨"/"⟩ ⟨"/"⟩ = some ⟨"/"⟩ := by decide +kernel
  obtain ⟨found, hfound⟩ := collects_climbing
  rcases collect_repeats_iff hproper (by decide) hthere habsolute compile_climbing none with
    ⟨_, -, _, _, -, hfails⟩ | ⟨files, hcollect, -, hpairs, -, -, hrepeats, -⟩
  · cases hfound.symm.trans hfails
  refine ⟨hproper, compile_climbing, files, hcollect, hpairs.imp fun h => ⟨h.1, h.2.1⟩,
    (hrepeats ["t", "a.md"]).2 ?_⟩
  exact ⟨⟨"../t"⟩, by decide, ⟨"t"⟩, by decide, by decide +kernel, isMet_climbing (by decide),
    isMet_climbing (by decide)⟩

/-- One file of the disk is collected under two keys. -/
theorem collected_twice :
    climbingTree.Proper ∧ Selection.compile ["../t/a.md", "t/a.md"] [] = .ok climbingSelection ∧
      ∃ files, Action.on ⟨"/"⟩ (collect ⟨"/"⟩ ⟨"/"⟩ climbingSelection none) climbingTree
          = (.ok files, climbingTree) ∧
        ∃ f ∈ files, ∃ g ∈ files, f.canonicalKey = "/../t/a.md" ∧ g.canonicalKey = "/t/a.md" ∧
          climbingTree.node ⟨"/"⟩ f.path = .ok (.file "x".toUTF8) ∧
          f.path.location = (["t", "a.md"] : Location) ∧
          climbingTree.node ⟨"/"⟩ g.path = .ok (.file "x".toUTF8) ∧
          g.path.location = (["t", "a.md"] : Location) := by
  have hproper : climbingTree.Proper := by decide +kernel
  have habsolute : Path.absolute? ⟨"/"⟩ ⟨"/"⟩ = some ⟨"/"⟩ := by decide +kernel
  obtain ⟨files, hcollect⟩ := collects_climbing
  have hmem := mem_collect_iff hproper (by decide) habsolute hcollect
  refine ⟨hproper, compile_climbing, files, hcollect,
    _, (hmem _).2 ⟨⟨"../t"⟩, by decide, _, rfl, isMet_climbing (by decide)⟩,
    _, (hmem _).2 ⟨⟨"t"⟩, by decide, _, rfl, isMet_climbing (by decide)⟩, ?_, ?_, ?_, ?_, ?_, ?_⟩
  all_goals decide +kernel

end Sample

end SourceFile

end TextCatalog
