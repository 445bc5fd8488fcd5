import TextCatalog.Proofs.Disk.Room

/-!
# What a tree gains

Work that adds to a tree leaves all that was there just as it was. A file that is written where no file was
adds to a proper tree, and so does the room that is made for it. If the path goes on by names alone from a
directory that is there, then only the directories with those names can be new.
-/

namespace TextCatalog.Disk.Tree

open RawText (slash dot)
open TextCatalog.Path (LiesAbove move)
open TextCatalog.Path.Component (ofPiece?)

/-- From `t` to `t'` nothing is lost or becomes something else, and such nodes only are new. -/
structure Gains (allowed : Location → Node → Prop) (t t' : Tree) : Prop where
  keeps : ∀ loc node, t.find? loc = some node → t'.find? loc = some node
  gained : ∀ loc node, t.find? loc = none → t'.find? loc = some node → allowed loc node

variable {t t' t'' : Tree} {cwd p : Path} {follows : Bool → Bool} {here loc : Location} {place : Place}
  {node : Node} {bytes : ByteArray} {allowed : Location → Node → Prop} {pieces : List RawText}
  {base front more : List Path.Component} {names : Location}

namespace Gains

theorem refl (allowed : Location → Node → Prop) (t : Tree) : t.Gains allowed t := by
  refine ⟨fun _ _ h => h, fun loc node hnone hfind => ?_⟩
  rw [hnone] at hfind
  cases hfind

theorem mono {others : Location → Node → Prop} (h : t.Gains allowed t')
    (hsub : ∀ loc node, allowed loc node → others loc node) : t.Gains others t' :=
  ⟨h.keeps, fun loc node hnone hfind => hsub loc node (h.gained loc node hnone hfind)⟩

theorem trans (h : t.Gains allowed t') (h' : t'.Gains allowed t'') : t.Gains allowed t'' := by
  refine ⟨fun loc node hfind => h'.keeps loc node (h.keeps loc node hfind), fun loc node hnone hfind => ?_⟩
  cases hbetween : t'.find? loc with
  | none => exact h'.gained loc node hbetween hfind
  | some other =>
    obtain rfl : other = node := Option.some.inj ((h'.keeps loc other hbetween).symm.trans hfind)
    exact h.gained loc other hnone hbetween

theorem put (hnone : t.find? loc = none) (hallowed : allowed loc node) :
    t.Gains allowed (t.put loc node) := by
  constructor
  · intro other found hfind
    have hne : other ≠ loc := by
      rintro rfl
      cases hnone.symm.trans hfind
    rw [find?_put_of_ne hne, hfind]
  · intro other found hother hfind
    by_cases heq : other = loc
    · subst heq
      rw [find?_put_self (ne_nil_of_find?_eq_none hnone)] at hfind
      exact Option.some.inj hfind ▸ hallowed
    · rw [find?_put_of_ne heq, hother] at hfind
      cases hfind

end Gains

section Ways

/-- A path goes through directories: wherever it is before one of its steps, there is one. -/
theorem Leads.find?_foldl_move (h : t.Leads here pieces place) (ht : t.Proper)
    (hhere : t.find? here = some .directory) (hsteps : pieces.filterMap ofPiece? = front ++ more)
    (hmore : more ≠ []) : t.find? (front.foldl move here) = some .directory := by
  induction h generalizing front with
  | stop => exact absurd (List.append_eq_nil_iff.1 hsteps.symm).2 hmore
  | idle hidle _ ih =>
    rw [List.filterMap_cons_none (Path.ofPiece?_of_isIdlePiece hidle)] at hsteps
    exact ih hhere hsteps
  | up _ ih =>
    rw [List.filterMap_cons_some (by decide : ofPiece? [dot, dot] = some .parent)] at hsteps
    rcases List.cons_eq_append_iff.1 hsteps with ⟨rfl, -⟩ | ⟨rest, rfl, hrest⟩
    · exact hhere
    · exact ih (ht.find?_dropLast hhere) hrest
  | @last here piece rest hname hlast =>
    rw [List.filterMap_cons_some (Path.ofPiece?_of_isName hname)] at hsteps
    rcases List.cons_eq_append_iff.1 hsteps with ⟨rfl, -⟩ | ⟨others, rfl, hothers⟩
    · exact hhere
    · obtain ⟨c, cs, hne⟩ := List.exists_cons_of_ne_nil (List.append_ne_nil_of_right_ne_nil others hmore)
      have hnot := not_all_empty (hothers.trans hne)
      rw [hlast] at hnot
      cases hnot
  | down hname _ _ hdir _ ih =>
    rw [List.filterMap_cons_some (Path.ofPiece?_of_isName hname)] at hsteps
    rcases List.cons_eq_append_iff.1 hsteps with ⟨rfl, -⟩ | ⟨rest, rfl, hrest⟩
    · exact hhere
    · exact ih hdir hrest

/-- What a path leads to, it leads to after more has come. -/
theorem Gains.node_eq_ok (h : t.Gains allowed t') (ht : t.Proper) (ht' : t'.Proper)
    (hnode : t.node cwd p = .ok node) : t'.node cwd p = .ok node := by
  obtain ⟨place, hfit, hleads, hshort, hfind, hslash⟩ := (node_eq_ok_iff_leads ht).1 hnode
  exact (node_eq_ok_iff_leads ht').2
    ⟨place, hfit, hleads.mono fun loc => h.keeps loc .directory, hshort, h.keeps _ _ hfind, hslash⟩

end Ways

section Files

/-- A file is written where nothing was. -/
structure Creates (cwd p : Path) (bytes : ByteArray) (t t' : Tree) : Prop where
  vacant : t.find? (cwd.join p).location = none
  eq_put : t' = t.put (cwd.join p).location (.file bytes)
  proper : t'.Proper
  node_eq_ok : t'.node cwd p = .ok (.file bytes)
  through : ∀ front more, (cwd.join p).steps = front ++ more → more ≠ [] →
    t.find? (front.foldl move []) = some .directory

theorem creates_of_write (ht : t.Proper) (hnone : ∀ old, t.node cwd p ≠ .ok (.file old))
    (h : t.write cwd p bytes = .ok t') : Creates cwd p bytes t t' := by
  obtain ⟨loc, hresolve, hshort, hdir, rfl⟩ := exists_of_write h
  obtain ⟨hfit, hleads⟩ := leads_of_resolve ht hresolve
  obtain rfl : loc = (cwd.join p).location := hleads.loc_eq
  have hvacant : t.find? (cwd.join p).location = none := by
    cases hfind : t.find? (cwd.join p).location with
    | none => rfl
    | some found =>
      cases found with
      | file old =>
        have hnode : t.node cwd p = .ok (.file old) := (node_eq_ok_iff_leads ht).2
          ⟨_, hfit, hleads, hshort, hfind, by simp [Place.hasSlash]⟩
        exact absurd hnode (hnone old)
      | directory => exact absurd hfind hdir
      | link target => exact absurd hfind ht.ne_link
  have hproper : (t.put (cwd.join p).location (.file bytes)).Proper := by
    obtain ⟨dir, name, hloc, hname, hparent⟩ := hleads.isIn ht rfl
    rw [hloc] at hdir ⊢
    exact ht.put hname hparent (by simp [Node.kind]) fun hthere => absurd hthere hdir
  have hgains : t.Gains (fun _ _ => True) (t.put (cwd.join p).location (.file bytes)) :=
    .put hvacant trivial
  refine ⟨hvacant, rfl, hproper, ?_, fun front more => hleads.find?_foldl_move ht rfl⟩
  exact (node_eq_ok_iff_leads hproper).2
    ⟨_, hfit, hleads.mono fun loc => hgains.keeps loc .directory, hshort,
      find?_put_self (ne_nil_of_find?_eq_none hvacant), by simp [Place.hasSlash]⟩

theorem Creates.gains (h : Creates cwd p bytes t t')
    (hallowed : allowed (cwd.join p).location (.file bytes)) : t.Gains allowed t' := by
  rw [h.eq_put]
  exact .put h.vacant hallowed

end Files

section Rooms

theorem Proper.withRoom (ht : t.Proper) (cwd p : Path) : (t.withRoom cwd p).Proper := by
  refine (asks_makeRoom_above p).run (R := fun t t' => t.Proper → t'.Proper) (fun _ ht => ht)
    (fun h h' ht => h' (h ht)) ?_ t ht
  rintro op ⟨dir, -, rfl | rfl⟩ t ht
  · exact ht
  · rw [perform]
    cases hadd : t.add cwd dir .directory with
    | error cause => exact ht
    | ok made =>
      obtain ⟨loc, slash, hresolve, -, hnone, rfl⟩ := exists_of_add hadd
      obtain ⟨top, name, rfl, hname, hdir⟩ := (leads_of_resolve ht hresolve).2.isIn ht rfl
      exact ht.put hname hdir (by decide) fun hthere => by cases hnone.symm.trans hthere

/-- Where a path goes on by names, a directory above it is on the way to the first of them, or at one of them
but the last. -/
theorem HasAbove.cases_names (h : t.HasAbove cwd p loc) (ht : t.Proper)
    (hsteps : (cwd.join p).steps = base ++ names.map .name) :
    (∃ front, front <+: base ∧ loc = front.foldl move []) ∨
      ∃ above below, names = above ++ below ∧ below ≠ [] ∧ loc = base.foldl move [] ++ above := by
  obtain ⟨dir, slash, hdir, hresolve⟩ := h
  have hloc : loc = (cwd.join dir).steps.foldl move [] := (leads_of_resolve ht hresolve).2.loc_eq
  rcases hdir.steps_join_prefix cwd with hbegins | hprefix
  · exact absurd hresolve (resolve_ne_named hbegins)
  rw [hsteps] at hprefix
  rcases List.eq_nil_or_concat names with rfl | ⟨names, last, rfl⟩
  · rw [List.map_nil, List.append_nil] at hprefix
    exact .inl ⟨_, hprefix.trans (List.dropLast_prefix base), hloc⟩
  rw [List.concat_eq_append, List.map_append, ← List.append_assoc, List.map_singleton,
    List.dropLast_concat] at hprefix
  rcases List.prefix_or_prefix_of_prefix hprefix (List.prefix_append base _) with hfront | ⟨above, habove⟩
  · exact .inl ⟨_, hfront, hloc⟩
  rw [← habove, List.prefix_append_right_inj] at hprefix
  obtain ⟨more, hmore⟩ := hprefix
  obtain ⟨above, others, rfl, rfl, -⟩ := List.map_eq_append_iff.1 hmore.symm
  refine .inr ⟨above, others ++ [last], by simp, by simp, ?_⟩
  rw [hloc, ← habove, List.foldl_append, Path.foldl_move_name]

variable (hsteps : (cwd.join p).steps = base ++ names.map .name)
  (hbase : ∀ front, front <+: base → t.find? (front.foldl move []) = some .directory)

include hsteps hbase

/-- A directory above the path that is missing stands at one of the names. -/
theorem HasAbove.exists_names_of_none (h : t'.HasAbove cwd p loc) (ht' : t'.Proper)
    (hnone : t.find? loc = none) :
    ∃ above below, names = above ++ below ∧ above ≠ [] ∧ below ≠ [] ∧
      loc = base.foldl move [] ++ above := by
  rcases h.cases_names ht' hsteps with ⟨front, hfront, rfl⟩ | ⟨above, below, hnames, hbelow, rfl⟩
  · cases hnone.symm.trans (hbase front hfront)
  · refine ⟨above, below, hnames, ?_, hbelow, rfl⟩
    rintro rfl
    rw [List.append_nil, hbase base List.prefix_rfl] at hnone
    cases hnone

theorem gains_withRoom (ht : t.Proper) :
    t.Gains (fun loc node => node = .directory ∧ ∃ above below, names = above ++ below ∧ above ≠ [] ∧
      below ≠ [] ∧ loc = base.foldl move [] ++ above) (t.withRoom cwd p) := by
  have hmade := t.hasMade_withRoom cwd p
  constructor
  · intro loc node hfind
    rcases hmade.grows loc with hsame | ⟨hnone, -⟩
    · rw [hsame, hfind]
    · cases hnone.symm.trans hfind
  · intro loc node hnone hfind
    rcases hmade.grows loc with hsame | ⟨-, hdir, habove⟩
    · cases (hsame.trans hnone).symm.trans hfind
    · exact ⟨Option.some.inj (hfind.symm.trans hdir),
        habove.exists_names_of_none hsteps hbase (ht.withRoom cwd p) hnone⟩

/-- Room that is made for a file uncovers none. -/
theorem node_withRoom_ne_file (ht : t.Proper) (hnone : ∀ old, t.node cwd p ≠ .ok (.file old))
    (old : ByteArray) : (t.withRoom cwd p).node cwd p ≠ .ok (.file old) := by
  intro hnode
  have hmade := t.hasMade_withRoom cwd p
  rcases hmade.first with hsame | ⟨loc, hloc, habove⟩
  · rw [hsame] at hnode
    exact hnone old hnode
  obtain ⟨above, below, rfl, -, hbelow, rfl⟩ := habove.exists_names_of_none hsteps hbase ht hloc
  obtain ⟨place, -, hleads, -, hfind, -⟩ := (node_eq_ok_iff_leads (ht.withRoom cwd p)).1 hnode
  have hplace : place.loc = base.foldl move [] ++ above ++ below := by
    have hend : place.loc = (cwd.join p).steps.foldl move [] := hleads.loc_eq
    rw [hend, hsteps, List.foldl_append, Path.foldl_move_name, List.append_assoc]
  rw [hplace] at hfind
  -- The file was there before, and then so were the directories above it.
  rcases hmade.grows (base.foldl move [] ++ above ++ below) with hsame | ⟨-, hdir, -⟩
  · cases hloc.symm.trans (ht.find?_of_append hbelow (hsame.symm.trans hfind))
  · cases hfind.symm.trans hdir

end Rooms

end TextCatalog.Disk.Tree
