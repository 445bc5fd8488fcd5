import TextCatalog.Proofs.Disk.Change
import TextCatalog.Proofs.Path.Below
import TextCatalog.Source

/-!
# Walks from the base directories

On a proper tree gathering finds, from whatever root, the files that stand below a base directory, are
led to by names that are admitted and are selected; or it fails with a directory that it comes to in this
way and that cannot be opened. A root or a base directory may try to leave the root directory of the disk:
its path keeps the two dots, and what is found below it keeps them too.
-/

namespace TextCatalog

open Disk

namespace SourceFile

open TextCatalog.Path (IsName Way)

variable {t : Tree} {cwd : Path} {s : Selection} {root base w : Way} {names : Location}
  {admits : RawText → Bool} {selects : String → Bool} {cause : Cause}

/-- A walk from the directory at `base` meets a file at `w`: the names from there on are admitted, and the
path from the root is selected. -/
structure IsMet (t : Tree) (admits : RawText → Bool) (selects : String → Bool) (root base w : Way) :
    Prop where
  fits : Tree.FitsWay base
  below : ∃ names, names ≠ [] ∧ w = base.below names ∧ names.all admits = true
  selected : selects (Path.slashed (Path.relative root.path w.path)) = true
  file : ∃ bytes, t.find? w.names = some (.file bytes)

/-- A walk from the directory at `base` comes to a directory at `w` that cannot be opened. -/
structure IsBarred (t : Tree) (admits : RawText → Bool) (base w : Way) (cause : Cause) : Prop where
  fits : Tree.FitsWay base
  below : ∃ names, w = base.below names ∧ names.all admits = true
  directory : t.find? w.names = some .directory
  refused : t.refusal? w.path w.names = some cause

theorem IsMet.mono {admits' : RawText → Bool} {selects' : String → Bool}
    (h : IsMet t admits selects root base w) (hadmits : ∀ n, admits n = true → admits' n = true)
    (hselects : ∀ p, selects p = true → selects' p = true) :
    IsMet t admits' selects' root base w := by
  obtain ⟨names, hne, hw, hall⟩ := h.below
  refine ⟨h.fits, ⟨names, hne, hw, ?_⟩, hselects _ h.selected, h.file⟩
  exact List.all_eq_true.2 fun n hn => hadmits n (List.all_eq_true.1 hall n hn)

theorem IsMet.find?_base (h : IsMet t admits selects root base w) (ht : t.Proper) :
    t.find? base.names = some .directory := by
  obtain ⟨names, hne, rfl, -⟩ := h.below
  obtain ⟨bytes, hfind⟩ := h.file
  exact ht.find?_of_append hne hfind

theorem IsMet.isName (h : IsMet t admits selects root base w) (ht : t.Proper) : ∀ n ∈ w.names, IsName n := by
  obtain ⟨bytes, hfind⟩ := h.file
  exact fun n hn => ht.isName_of_find? hfind hn

section Gather

theorem kind_eq_file {node : Node} : node.kind = .file ↔ ∃ bytes, node = .file bytes := by
  cases node <;> simp [Node.kind]

theorem pathBelow_path (hbase : ∀ n ∈ base.names, IsName n) (hnames : ∀ n ∈ names, IsName n) :
    pathBelow base.path names = (base.below names).path := by
  have hspelled : Path.ofComponents (base.path.components ++ names.map .name)
      = (base.below names).path := by
    rw [Path.components_of_isAbsolute base.isAbsolute_path, Way.steps_path hbase, List.cons_append,
      ← Way.components_below, Way.path]
  rw [pathBelow, hspelled, Way.normalize_path (Way.forall_names_below.2 ⟨hbase, hnames⟩)]

/-- The items below a base directory that are selected are the files that a walk from it meets. -/
theorem mem_selected_iff (ht : t.Proper) (hbase : ∀ n ∈ base.names, IsName n)
    (hfits : Tree.FitsWay base) {q : Path} :
    q ∈ (((t.below base.names).map fun n => (n.1, n.2.kind)).filter fun item =>
        isSelected s root.path base.path item.1 item.2).map (fun item => pathBelow base.path item.1) ↔
      ∃ w : Way, q = w.path ∧ IsMet t s.admits s.selects root base w := by
  constructor
  · intro hq
    obtain ⟨item, hitem, rfl⟩ := List.mem_map.1 hq
    obtain ⟨hitem, hselected⟩ := List.mem_filter.1 hitem
    obtain ⟨⟨names, node⟩, hbelow, rfl⟩ := List.mem_map.1 hitem
    obtain ⟨hne, hfind⟩ := (Tree.mem_below_iff ht).1 hbelow
    have hpath : pathBelow base.path names = (base.below names).path :=
      pathBelow_path hbase fun n hn => ht.isName_of_find? hfind (List.mem_append_right _ hn)
    rw [isSelected, hpath] at hselected
    simp only [Bool.and_eq_true, beq_iff_eq] at hselected
    obtain ⟨⟨hkind, hadmits⟩, htaken⟩ := hselected
    obtain ⟨bytes, rfl⟩ := kind_eq_file.1 hkind
    exact ⟨base.below names, hpath, hfits, ⟨names, hne, rfl, hadmits⟩, htaken, bytes, hfind⟩
  · rintro ⟨w, rfl, hmet⟩
    obtain ⟨names, hne, rfl, hadmits⟩ := hmet.below
    obtain ⟨bytes, hfind⟩ := hmet.file
    have hpath : pathBelow base.path names = (base.below names).path :=
      pathBelow_path hbase fun n hn => ht.isName_of_find? hfind (List.mem_append_right _ hn)
    refine List.mem_map.2 ⟨(names, .file), List.mem_filter.2 ⟨?_, ?_⟩, hpath⟩
    · exact List.mem_map.2 ⟨(names, .file bytes), (Tree.mem_below_iff ht).2 ⟨hne, hfind⟩, rfl⟩
    · rw [isSelected, hpath, hadmits, hmet.selected]
      rfl

theorem on_isDirectory (t : Tree) (cwd p : Path) :
    ∃ there, Action.on cwd (liftM (isDirectory p) : Action Bool) t = (.ok there, t) ∧
      (there = true ↔ t.node cwd p = .ok .directory) := by
  obtain ⟨there, hrun, hthere⟩ := run_isDirectory cwd t p
  exact ⟨there, by rw [Action.on_lift, hrun], hthere⟩

/-- The path of a directory that a walk comes to is spelled by the names on the way. -/
theorem descend_path (hbase : ∀ n ∈ base.names, IsName n) (hnames : ∀ n ∈ names, IsName n) :
    base.path.descend names = (base.below names).path := by
  induction names generalizing base with
  | nil => rw [Path.descend, List.foldl_nil, Way.below, List.append_nil]
  | cons n names ih =>
    obtain ⟨hn, hnames⟩ := List.forall_mem_cons.1 hnames
    have hnext : ∀ n' ∈ (base.below [n]).names, IsName n' :=
      Way.forall_names_below.2 ⟨hbase, by simpa using hn⟩
    have hstep : base.path.join ⟨n⟩ = (base.below [n]).path := Way.join_path hbase hn
    rw [Path.descend, List.foldl_cons, hstep, ← Path.descend, ih hnext hnames, ← Way.below_append]
    rfl

/-- What a walk is refused are the directories it comes to, itself among them, that cannot be opened. -/
theorem mem_refused_iff (ht : t.Proper) (hbase : ∀ n ∈ base.names, IsName n)
    (hdir : t.find? base.names = some .directory) :
    (names, cause) ∈ (t.listing base.path base.names).refused ↔
      t.find? (base.below names).names = some .directory ∧
        t.refusal? (base.below names).path (base.below names).names = some cause := by
  have hthere : ∀ node, (names, node) ∈ ([], Node.directory) :: t.below base.names ↔
      t.find? (base.names ++ names) = some node := by
    intro node
    rw [List.mem_cons, Tree.mem_below_iff ht]
    by_cases hnil : names = []
    · subst hnil
      simp [hdir, eq_comm]
    · simp [hnil]
  have hpath : t.find? (base.names ++ names) = some .directory →
      base.path.descend names = (base.below names).path := fun hfind =>
    descend_path hbase fun n hn => ht.isName_of_find? hfind (List.mem_append_right _ hn)
  simp only [Tree.listing, List.mem_filterMap]
  constructor
  · rintro ⟨⟨names', node⟩, hmem, hrefused⟩
    split at hrefused
    next hnode =>
      obtain ⟨cause', hcause, heq⟩ := Option.map_eq_some_iff.1 hrefused
      obtain ⟨rfl, rfl⟩ := Prod.mk.inj heq
      obtain rfl : node = .directory := hnode
      have hfind := (hthere _).1 hmem
      exact ⟨hfind, hpath hfind ▸ hcause⟩
    next => cases hrefused
  · rintro ⟨hfind, hcause⟩
    refine ⟨(names, .directory), (hthere _).2 hfind, ?_⟩
    have hcause' : t.refusal? (base.path.descend names) (base.names ++ names) = some cause :=
      (hpath hfind).symm ▸ hcause
    simp [hcause']

/-- A walk lists what is below, or it is barred. -/
theorem on_walk (cwd : Path) (s : Selection) (ht : t.Proper) (hbase : ∀ n ∈ base.names, IsName n)
    (hdir : t.node cwd base.path = .ok .directory) :
    (Action.on cwd (walk s base.path) t
        = (.ok ((t.below base.names).map fun n => (n.1, n.2.kind)), t) ∧
      ∀ w cause, ¬ IsBarred t s.admits base w cause) ∨
    ∃ w cause, IsBarred t s.admits base w cause ∧
      Action.on cwd (walk s base.path) t = (.error (.walk w.path cause), t) := by
  obtain ⟨hfits, hfind⟩ := (Tree.node_path_iff ht hbase).1 hdir
  have hcontents := Tree.contents_eq ht (Way.isAbsolute_path _) hdir
  rw [Way.location_path hbase] at hcontents
  have hask : Action.on cwd (Action.ask .io (.below base.path)) t
      = (.ok (t.listing base.path base.names), t) := by
    rw [Action.on_ask, Tree.perform, hcontents]
    rfl
  rw [walk, Action.on_bind_of_ok hask]
  split
  next names cause hfound =>
    have hadmits : names.all s.admits = true := by simpa using List.find?_some hfound
    obtain ⟨hthere, hrefused⟩ := (mem_refused_iff ht hbase hfind).1 (List.mem_of_find?_eq_some hfound)
    refine .inr ⟨base.below names, cause, ⟨hfits, ⟨names, rfl, hadmits⟩, hthere, hrefused⟩, ?_⟩
    have hnames : ∀ n ∈ names, IsName n := fun n hn =>
      ht.isName_of_find? hthere (List.mem_append_right _ hn)
    rw [Action.on_ofExcept, descend_path hbase hnames]
  next hnone =>
    refine .inl ⟨rfl, ?_⟩
    rintro w cause ⟨-, ⟨names, rfl, hadmits⟩, hthere, hrefused⟩
    exact List.find?_eq_none.1 hnone _ ((mem_refused_iff ht hbase hfind).2 ⟨hthere, hrefused⟩) hadmits

theorem IsBarred.find?_base (h : IsBarred t admits base w cause) (ht : t.Proper) :
    t.find? base.names = some .directory := by
  obtain ⟨names, rfl, -⟩ := h.below
  by_cases hnil : names = []
  · have hfind := h.directory
    rwa [hnil, Way.below, List.append_nil] at hfind
  · exact ht.find?_of_append hnil h.directory

/-- Walks from the base directories are barred, and gathering says so, or the gathered paths are those of
the files that they meet. -/
theorem on_gather_path (cwd : Path) (s : Selection) (ht : t.Proper) (root : Way) (bases : List Path) :
    (∃ paths, Action.on cwd (gather s root.path bases) t = (.ok paths, t) ∧
      (∀ base ∈ bases, ∀ w cause, ¬ IsBarred t s.admits (root.path.join base).way w cause) ∧
      ∀ q, q ∈ paths ↔ ∃ base ∈ bases, ∃ w : Way, q = w.path ∧
        IsMet t s.admits s.selects root (root.path.join base).way w) ∨
    ∃ base ∈ bases, ∃ w cause, IsBarred t s.admits (root.path.join base).way w cause ∧
      Action.on cwd (gather s root.path bases) t = (.error (.walk w.path cause), t) := by
  induction bases with
  | nil => exact .inl ⟨[], rfl, by simp, by simp⟩
  | cons base bases ih =>
    have hnames : ∀ n ∈ (root.path.join base).way.names, IsName n := fun _ => Path.isName_of_mem_way
    have hdirectory : (root.path.join base).normalize = (root.path.join base).way.path :=
      Path.normalize_eq_path (Path.isAbsolute_join root.isAbsolute_path)
    obtain ⟨there, hthere, hiff⟩ := on_isDirectory t cwd (root.path.join base).way.path
    rw [gather, hdirectory]
    dsimp only
    rw [Action.on_bind_of_ok hthere]
    cases there with
    | false =>
      -- Below a directory that is not there nothing is met, and nothing is come to.
      have hnone : ∀ {names}, Tree.FitsWay (root.path.join base).way →
          t.find? (root.path.join base).way.names = some .directory → names := by
        intro names hfits hfind
        exact absurd (hiff.2 ((Tree.node_path_iff ht hnames).2 ⟨hfits, hfind⟩)) (by simp)
      refine ih.imp ?_ ?_
      · rintro ⟨others, hothers, hopen, hmem⟩
        refine ⟨others, hothers, List.forall_mem_cons.2 ⟨fun w cause h => ?_, hopen⟩, fun q => ?_⟩
        · exact hnone h.fits (h.find?_base ht)
        · rw [hmem q, List.exists_mem_cons_iff]
          refine ⟨.inr, fun h => h.resolve_left ?_⟩
          rintro ⟨w, -, hmet⟩
          exact hnone hmet.fits (hmet.find?_base ht)
      · rintro ⟨other, hother, hbarred⟩
        exact ⟨other, List.mem_cons_of_mem _ hother, hbarred⟩
    | true =>
      have hdir := hiff.1 rfl
      have hfits := ((Tree.node_path_iff ht hnames).1 hdir).1
      simp only [if_true]
      rcases on_walk cwd s ht hnames hdir with ⟨hwalk, hopen⟩ | ⟨w, cause, hbarred, hwalk⟩
      · rw [Action.on_bind_of_ok hwalk]
        rcases ih with ⟨others, hothers, hopens, hmem⟩ | ⟨other, hother, w, cause, hbarred, hothers⟩
        · rw [Action.on_bind_of_ok hothers, Action.on_pure]
          refine .inl ⟨_, rfl, List.forall_mem_cons.2 ⟨hopen, hopens⟩, fun q => ?_⟩
          rw [List.mem_append, mem_selected_iff ht hnames hfits, hmem q, List.exists_mem_cons_iff]
        · rw [Action.on_bind_of_error hothers]
          exact .inr ⟨other, List.mem_cons_of_mem _ hother, w, cause, hbarred, rfl⟩
      · rw [Action.on_bind_of_error hwalk]
        exact .inr ⟨base, List.mem_cons_self, w, cause, hbarred, rfl⟩

end Gather

end SourceFile

end TextCatalog
