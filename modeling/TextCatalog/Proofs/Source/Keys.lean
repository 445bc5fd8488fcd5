import TextCatalog.Proofs.Path.Normal
import TextCatalog.Proofs.Source.Collect
import TextCatalog.Proofs.Source.Prefix

/-!
# What keys tell

The canonical key of a path, resolved against the root, gives the normal form of the path again exactly
if the names that lead there from the root are UTF-8. So the keys of such paths are as different as their
normal forms, and no two of the files that are collected with UTF-8 names share one.
-/

namespace TextCatalog

open RawText (slash IsText)
open TextCatalog.Path (IsInner IsName IsTextFrom Way)

namespace Path.Way

variable {w w' : Way}

/-- Where the way leads as it is read from a text. -/
def shown (w : Way) : Way :=
  ⟨w.ups, (w.names.map RawText.lossy).map Text.bytes⟩

theorem forall_isName_shown (hnames : ∀ n ∈ w.names, IsName n) : ∀ n ∈ w.shown.names, IsName n := by
  rw [shown, List.forall_mem_map, List.forall_mem_map]
  exact fun n hn => (hnames n hn).lossy

theorem shown_eq_iff : w.shown = w ↔ ∀ n ∈ w.names, IsText n := by
  constructor
  · intro h n hn
    rw [← h] at hn
    obtain ⟨s, -, rfl⟩ := List.mem_map.1 hn
    exact RawText.isText_bytes s
  · intro h
    rw [shown, RawText.map_bytes_lossy h]

theorem bytes_slashed_components (w : Way) :
    Text.bytes (slashed w.components) = [slash].intercalate w.shown.pieces := by
  have hdots : Text.bytes ".." = [RawText.dot, RawText.dot] := by decide
  rw [slashed_components, RawText.bytes_intercalate, shownPieces, List.map_append, List.map_replicate, hdots]
  rfl

/-- Ways that climb equally far come apart at their names. -/
theorem follow_components_inj {start : Way} (hups : w.ups = w'.ups)
    (h : start.follow w.components = start.follow w'.components) : w = w' := by
  obtain ⟨ups, names⟩ := w
  obtain ⟨ups', names'⟩ := w'
  obtain rfl : ups = ups' := hups
  rw [components, components, follow_append, follow_append, follow_names, follow_names] at h
  obtain rfl : names = names' := List.append_cancel_left (congrArg Way.names h)
  rfl

end Path.Way

namespace Key

variable {root p q : Path}

theorem exists_canonical_eq (hroot : root.IsInner) (hp : p.isAbsolute = true) :
    ∃ w : Way, Path.relative root p = w.components ∧ canonical root p = "/" ++ Path.slashed w.components ∧
      (∀ n ∈ w.names, IsName n) ∧ root.way.follow w.components = p.way := by
  obtain ⟨w, hrelative, hnames, hfollow⟩ := Path.exists_relative_eq hroot hp
  exact ⟨w, hrelative, by rw [canonical, hrelative], hnames, hfollow⟩

/-- Resolved against the root, the key leads where the path leads, exactly if no name is read as another
one. -/
theorem normalize_join_canonical_iff (hroot : root.IsInner) (hp : p.isAbsolute = true) :
    (root.join ⟨unrooted (canonical root p)⟩).normalize = p.normalize ↔ IsTextFrom root p := by
  obtain ⟨w, hrelative, hkey, hnames, hfollow⟩ := exists_canonical_eq hroot hp
  have hshown := Way.forall_isName_shown hnames
  have hway : (root.join ⟨unrooted (canonical root p)⟩).way = root.way.follow w.shown.components := by
    rw [hkey, unrooted_append, Way.bytes_slashed_components, Path.way,
      Path.steps_join (Path.text_ne_nil_of_isAbsolute hroot.isAbsolute) (Way.isAbsolute_pieces hshown),
      Way.steps_pieces hshown, Way.follow_append]
    rfl
  have htext : Path.namesIn (Path.relative root p) = w.names := by
    rw [hrelative, Way.components, Path.namesIn_append_map]
  rw [Path.normalize_eq_iff_way (Path.isAbsolute_join hroot.isAbsolute) hp, hway, ← hfollow, IsTextFrom,
    htext, ← Way.shown_eq_iff]
  exact ⟨Way.follow_components_inj rfl, congrArg fun v : Way => root.way.follow v.components⟩

theorem normalize_eq_of_canonical_eq (hroot : root.IsInner) (hp : p.isAbsolute = true)
    (hq : q.isAbsolute = true) (htext : IsTextFrom root p) (htext' : IsTextFrom root q)
    (h : canonical root p = canonical root q) : p.normalize = q.normalize := by
  rw [← (normalize_join_canonical_iff hroot hp).2 htext, h,
    (normalize_join_canonical_iff hroot hq).2 htext']

end Key

namespace SourceFile

open Disk

variable {t t' : Tree} {cwd root : Path} {s : Selection} {strip : Option String}
  {files : List SourceFile}

theorem isNormal_pathBelow {directory : Path} (h : directory.isAbsolute = true)
    (names : List RawText) : IsNormal (pathBelow directory names) := by
  refine ⟨_, ?_, rfl⟩
  rw [Path.components_of_isAbsolute h]
  exact isAbsolute_ofComponents _

theorem isNormal_of_gather (hroot : root.isAbsolute = true) {bases paths : List Path}
    (h : Action.on cwd (gather s root bases) t = (.ok paths, t')) : ∀ q ∈ paths, IsNormal q := by
  induction bases generalizing t paths with
  | nil =>
    obtain rfl := Except.ok.inj (Prod.mk.inj h).1
    simp
  | cons base bases ih =>
    have hdirectory : (root.join base).normalize.isAbsolute = true :=
      Path.isAbsolute_normalize (Path.isAbsolute_join hroot)
    rw [gather] at h
    dsimp only at h
    obtain ⟨there, t₁, -, h⟩ := Action.of_on_bind_eq_ok h
    cases there with
    | false => exact ih h
    | true =>
      simp only [if_true] at h
      obtain ⟨items, t₂, -, h⟩ := Action.of_on_bind_eq_ok h
      obtain ⟨others, hothers, rfl⟩ := Action.of_on_bind_pure_eq_ok h
      refine List.forall_mem_append.2 ⟨?_, ih hothers⟩
      rw [List.forall_mem_map]
      exact fun item _ => isNormal_pathBelow hdirectory item.1

theorem arrange_normalize (hroot : root.isAbsolute = true) (strip : Option String) (paths : List Path) :
    arrange root.normalize strip paths = arrange root strip paths := by
  have hkeys : ofPath root.normalize strip = ofPath root strip := by
    funext q
    rw [ofPath, ofPath, Key.canonical, Key.canonical, Path.relative, Path.relative,
      Path.normalComponents_normalize hroot]
  rw [arrange, arrange, hkeys]

/-- The paths of a project with an absolute root are normal forms. -/
theorem isNormal_of_collect (hroot : root.isAbsolute = true)
    (h : Action.on cwd (collect cwd root s strip) t = (.ok files, t')) :
    ∃ paths, files = arrange root strip paths ∧ ∀ q ∈ paths, IsNormal q := by
  obtain ⟨-, q, paths, -, hq, hgather, rfl⟩ := of_on_collect_eq_ok h
  obtain ⟨q', hq', habs, hsteps⟩ := Path.absolute?_of_isAbsolute cwd hroot
  obtain rfl := Option.some.inj (hq.symm.trans hq')
  have hnormal : q.normalize = root.normalize := by
    rw [Path.normalize, Path.normalize, Path.normalComponents_congr habs hroot hsteps]
  exact ⟨paths, by rw [hnormal, arrange_normalize hroot],
    isNormal_of_gather (Path.isAbsolute_normalize habs) hgather⟩

theorem canonicalKey_of_mem_arrange {paths : List Path} {f : SourceFile}
    (hf : f ∈ arrange root strip paths) : f.canonicalKey = Key.canonical root f.path := by
  rw [arrange, List.mem_mergeSort] at hf
  obtain ⟨q, -, rfl⟩ := List.mem_map.1 hf
  rfl

theorem isAbsolute_of_collect (hroot : root.isAbsolute = true)
    (h : Action.on cwd (collect cwd root s strip) t = (.ok files, t')) :
    ∀ f ∈ files, f.path.isAbsolute = true := by
  obtain ⟨paths, rfl, hpaths⟩ := isNormal_of_collect hroot h
  intro f hf
  rw [arrange, List.mem_mergeSort] at hf
  obtain ⟨q, hq, rfl⟩ := List.mem_map.1 hf
  obtain ⟨p, habs, rfl⟩ := hpaths q (Path.mem_of_mem_distinct hq)
  exact Path.isAbsolute_normalize habs

/-- Files come in the order of their keys, and are known by their paths, and where these are UTF-8 by their
keys. -/
theorem pairwise_arrange_of_isNormal {paths : List Path} (hroot : root.IsInner)
    (hpaths : ∀ q ∈ paths, IsNormal q) (strip : Option String) :
    (arrange root strip paths).Pairwise fun f g => f ≠ g ∧ f.canonicalKey ≤ g.canonicalKey ∧
      (IsTextFrom root f.path → IsTextFrom root g.path → f.canonicalKey < g.canonicalKey) := by
  refine (pairwise_arrange root strip paths).imp_of_mem fun {f g} hf hg hfg => ?_
  refine ⟨hfg.1, hfg.2, fun htext htext' => lt_of_le_of_ne hfg.2 fun hkey => hfg.1 ?_⟩
  rw [canonicalKey_of_mem_arrange hf, canonicalKey_of_mem_arrange hg] at hkey
  obtain ⟨p, hp, rfl⟩ := (mem_arrange hpaths).1 hf
  obtain ⟨q, hq, rfl⟩ := (mem_arrange hpaths).1 hg
  obtain ⟨p, habs, rfl⟩ := hpaths p hp
  obtain ⟨q, habs', rfl⟩ := hpaths q hq
  have hsame := Key.normalize_eq_of_canonical_eq hroot (Path.isAbsolute_normalize habs)
    (Path.isAbsolute_normalize habs') htext htext' hkey
  rw [Path.normalize_normalize habs, Path.normalize_normalize habs'] at hsame
  rw [hsame]

end SourceFile

namespace Key

open Disk

section Sample

end Sample

end Key

end TextCatalog
