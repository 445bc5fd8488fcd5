import TextCatalog.Proofs.Disk.Course
import TextCatalog.Proofs.Path.Above

/-!
# Room for a file

Room is made for a file by the directories above it, whatever links are on the way. What has been made is
new, so that a path that does not go up again from there ends where nothing was.
-/

namespace TextCatalog.Disk

open RawText (slash dot)
open TextCatalog.Path (IsName IsStep LiesAbove isIdlePiece)
open TextCatalog.Path.Component (ofPiece?)
open TextCatalog.Disk.Tree

variable {t t' t'' : Tree} {cwd p : Path} {loc : Location}

section Asked

/-- Operations that look for a directory above the path, or make it. -/
def Op.AsksAbove (p : Path) (op : Op) : Prop :=
  ∃ dir : Path, dir.LiesAbove p ∧ (op = .kind dir ∨ op = .makeDirectory dir)

theorem asks_makeDirectoriesBy_above {steps : List Path.Component}
    (hsteps : steps.reverse <+: p.components.dropLast) :
    (makeDirectoriesBy steps (.ofComponents steps.reverse)).Asks (Op.AsksAbove p) := by
  have hasked : ∀ dir : Path, dir.LiesAbove p →
      Op.AsksAbove p (.kind dir) ∧ Op.AsksAbove p (.makeDirectory dir) :=
    fun dir hdir => ⟨⟨dir, hdir, .inl rfl⟩, ⟨dir, hdir, .inr rfl⟩⟩
  induction steps with
  | nil =>
    obtain ⟨hlook, hmake⟩ := hasked _ ⟨_, hsteps, rfl⟩
    exact asks_makeDirectoryIn hlook hmake (.done _)
  | cons step above ih =>
    obtain ⟨hlook, hmake⟩ := hasked _ ⟨_, hsteps, rfl⟩
    have habove : above.reverse <+: p.components.dropLast := by
      rw [List.reverse_cons] at hsteps
      exact (List.prefix_append _ _).trans hsteps
    by_cases htop : step = .root ∧ above = []
    · obtain ⟨rfl, rfl⟩ := htop
      exact asks_makeDirectoryIn hlook hmake (.done _)
    · rw [makeDirectoriesBy]
      · exact asks_makeDirectoryIn hlook hmake (ih habove)
      · simpa using htop

theorem asks_makeRoom_above (p : Path) : (makeRoom p).Asks (Op.AsksAbove p) := by
  rw [makeRoom]
  split
  next => exact .done _
  next dir hparent =>
    obtain rfl : dir = .ofComponents p.components.dropLast := by
      rw [Path.parent?] at hparent
      split at hparent
      next => cases hparent
      next => cases hparent
      next => exact (Option.some.inj hparent).symm
    have hall : p.components.dropLast.reverse.reverse <+: p.components.dropLast := by simp
    have hasks := asks_makeDirectoriesBy_above hall
    rw [List.reverse_reverse] at hasks
    rwa [makeDirectories, Path.components_ofComponents_dropLast]

end Asked

section Made

/-- A directory above the path is at the location, or is to be. -/
def Tree.HasAbove (t : Tree) (cwd p : Path) (loc : Location) : Prop :=
  ∃ dir slash, LiesAbove dir p ∧ t.resolve cwd (fun _ => false) dir = .ok (.named loc slash)

/-- From `t` to `t'` directories above the path have been made where nothing was, and the first of them in
`t` itself. -/
structure Tree.HasMade (cwd p : Path) (t t' : Tree) : Prop where
  grows : ∀ loc, t'.find? loc = t.find? loc ∨
    t.find? loc = none ∧ t'.find? loc = some .directory ∧ t'.HasAbove cwd p loc
  first : t' = t ∨ ∃ loc, t.find? loc = none ∧ t.HasAbove cwd p loc

theorem Tree.HasAbove.of_keepsLeads (hkeep : KeepsLeads (fun _ => False) t t')
    (h : t.HasAbove cwd p loc) : t'.HasAbove cwd p loc := by
  obtain ⟨dir, slash, hdir, hresolve⟩ := h
  exact ⟨dir, slash, hdir, resolve_of_keepsLeads hkeep hresolve⟩

namespace Tree.HasMade

theorem refl (cwd p : Path) (t : Tree) : HasMade cwd p t t :=
  ⟨fun _ => .inl rfl, .inl rfl⟩

theorem keepsLeads (h : HasMade cwd p t t') : KeepsLeads (fun _ => False) t t' := by
  intro loc hleads
  rcases h.grows loc with hsame | ⟨hnone, -⟩
  · exact .inl hsame
  · rw [hnone] at hleads
    exact hleads.elim

theorem trans (h : HasMade cwd p t t') (h' : HasMade cwd p t' t'') : HasMade cwd p t t'' := by
  constructor
  · intro loc
    rcases h'.grows loc with hsame | ⟨hnone, hdir, habove⟩
    · rw [hsame]
      refine (h.grows loc).imp_right fun ⟨hnone, hdir, habove⟩ => ⟨hnone, hdir, ?_⟩
      exact habove.of_keepsLeads h'.keepsLeads
    · rcases h.grows loc with hsame | ⟨-, hdir', -⟩
      · exact .inr ⟨hsame ▸ hnone, hdir, habove⟩
      · cases hnone.symm.trans hdir'
  · rcases h.first with rfl | hfirst
    · exact h'.first
    · exact .inr hfirst

end Tree.HasMade

theorem Op.AsksAbove.hasMade {op : Op} (hop : op.AsksAbove p) (cwd : Path) (t : Tree) :
    HasMade cwd p t (perform cwd op t).2 := by
  obtain ⟨dir, hdir, rfl | rfl⟩ := hop
  · exact .refl cwd p t
  · rw [perform]
    cases hadd : t.add cwd dir .directory with
    | error cause => exact .refl cwd p t
    | ok made =>
      obtain ⟨loc, slash, hresolve, -, hnone, rfl⟩ := exists_of_add hadd
      have habove : t.HasAbove cwd p loc := ⟨dir, slash, hdir, hresolve⟩
      refine ⟨fun other => ?_, .inr ⟨loc, hnone, habove⟩⟩
      by_cases hother : other = loc
      · rw [hother]
        exact .inr ⟨hnone, find?_put_self (ne_nil_of_find?_eq_none hnone),
          habove.of_keepsLeads (keepsLeads_put_of_none hnone)⟩
      · exact .inl (find?_put_of_ne hother)

/-- The tree with the directories above the path, as far as they could be made. -/
def Tree.withRoom (t : Tree) (cwd p : Path) : Tree :=
  ((makeRoom p).run (perform cwd) t).2

theorem Tree.hasMade_withRoom (t : Tree) (cwd p : Path) : HasMade cwd p t (t.withRoom cwd p) :=
  (asks_makeRoom_above p).run (HasMade.refl cwd p) HasMade.trans (fun _ hop => hop.hasMade cwd) t

end Made

namespace Tree

section Below

variable {follows : Bool → Bool} {links : Nat} {here top : Location} {name : RawText} {slash : Bool}
  {pieces names before : List RawText} {more : List Path.Component} {place : Place} {e : Stand}

theorem not_all_empty {c : Path.Component} (h : pieces.filterMap ofPiece? = c :: more) :
    pieces.all List.isEmpty = false := by
  rw [← Bool.not_eq_true]
  intro hall
  rw [Path.filterMap_ofPiece?_of_all_empty hall] at h
  cases h

/-- A course that does not go up, and on which there are no links, ends below where it is. -/
theorem Course.exists_below (h : Course t ⟨links, here, pieces⟩ e) (hends : Ends e place)
    (hdots : [dot, dot] ∉ pieces)
    (hlinks : ∀ names target, names ≠ [] → t.find? (here ++ names) ≠ some (.link target)) :
    ∃ names, place.loc = here ++ names := by
  generalize hs : (⟨links, here, pieces⟩ : Stand) = s at h
  induction h using Relation.ReflTransGen.head_induction_on generalizing links here pieces with
  | refl =>
    subst hs
    cases hends with
    | stop => exact ⟨[], (List.append_nil here).symm⟩
    | last => exact ⟨[_], rfl⟩
  | head hstep _ ih =>
    subst hs
    cases hstep with
    | idle => exact ih (fun hmem => hdots (List.mem_cons_of_mem _ hmem)) hlinks rfl
    | up => simp at hdots
    | link _ _ _ _ hlink => exact absurd hlink (hlinks _ _ (by simp))
    | @down _ _ piece rest =>
      obtain ⟨names, hnames⟩ := ih (fun hmem => hdots (List.mem_cons_of_mem _ hmem))
        (fun names target _ => by
          rw [List.append_assoc]
          exact hlinks _ target (by simp)) rfl
      exact ⟨piece :: names, by rw [hnames, List.append_assoc, List.singleton_append]⟩

/-- Where the next name is one at or below which there are no links, a course that does not go up ends
there or below. -/
theorem Course.exists_below_name (h : Course t ⟨links, here, pieces⟩ e) (hends : Ends e place)
    (hpieces : pieces.filterMap ofPiece? = .name name :: more) (hdots : [dot, dot] ∉ pieces)
    (hlinks : ∀ names target, t.find? (here ++ [name] ++ names) ≠ some (.link target)) :
    ∃ names, place.loc = here ++ [name] ++ names := by
  generalize hs : (⟨links, here, pieces⟩ : Stand) = s at h
  have hfirst : ∀ {piece : RawText} {rest : List RawText}, ¬ isIdlePiece piece = true → piece ≠ [dot, dot] →
      (piece :: rest).filterMap ofPiece? = .name name :: more → piece = name := by
    intro piece rest hidle hdots heq
    rw [List.filterMap_cons_some (Path.ofPiece?_of_not_isIdlePiece hidle hdots)] at heq
    exact Path.Component.name.inj (List.cons.inj heq).1
  induction h using Relation.ReflTransGen.head_induction_on generalizing links pieces with
  | refl =>
    subst hs
    cases hends with
    | stop => cases hpieces
    | last hidle hup =>
      obtain rfl := hfirst hidle hup hpieces
      exact ⟨[], (List.append_nil _).symm⟩
  | head hstep hrest ih =>
    subst hs
    cases hstep with
    | idle hidle =>
      rw [List.filterMap_cons_none (Path.ofPiece?_of_isIdlePiece hidle)] at hpieces
      exact ih hpieces (fun hmem => hdots (List.mem_cons_of_mem _ hmem)) rfl
    | up => simp at hdots
    | link hidle hup _ _ hlink =>
      obtain rfl := hfirst hidle hup hpieces
      rw [← List.append_nil (here ++ _)] at hlink
      exact absurd hlink (hlinks [] _)
    | down hidle hup =>
      obtain rfl := hfirst hidle hup hpieces
      have hdots' := fun hmem => hdots (List.mem_cons_of_mem _ hmem)
      exact Course.exists_below hrest hends hdots' fun names target _ => hlinks names target

/-- Pieces that name nothing are passed over. -/
theorem exists_course_of_name (hpieces : pieces.filterMap ofPiece? = .name name :: more) (t : Tree)
    (links : Nat) (here : Location) :
    ∃ rest, rest.filterMap ofPiece? = more ∧
      Course t ⟨links, here, pieces⟩ ⟨links, here, name :: rest⟩ := by
  induction pieces with
  | nil => cases hpieces
  | cons piece pieces ih =>
    by_cases hidle : isIdlePiece piece = true
    · rw [List.filterMap_cons_none (Path.ofPiece?_of_isIdlePiece hidle)] at hpieces
      obtain ⟨rest, hrest, hcourse⟩ := ih hpieces
      exact ⟨rest, hrest, .head (.idle hidle) hcourse⟩
    · by_cases hdots : piece = [dot, dot]
      · subst hdots
        cases hpieces
      · rw [List.filterMap_cons_some (Path.ofPiece?_of_not_isIdlePiece hidle hdots)] at hpieces
        obtain ⟨hname, hmore⟩ := List.cons.inj hpieces
        obtain rfl := Path.Component.name.inj hname
        exact ⟨pieces, hmore, .refl⟩

theorem not_all_empty_of_names (hne : names ≠ []) (hnames : ∀ n ∈ names, IsName n) :
    names.all List.isEmpty = false := by
  obtain ⟨name, others, rfl⟩ := List.exists_cons_of_ne_nil hne
  have hname := (hnames name List.mem_cons_self).ne_nil
  simp [hname]

/-- The first pieces of a path lead to where the others begin, and they lead there as well when other pieces
follow. -/
theorem Course.exists_behind {xs ys : List RawText} (h : Course t ⟨links, here, before ++ xs⟩ e)
    (hends : Ends e place) (hxs : xs.all List.isEmpty = false) (hys : ys.all List.isEmpty = false) :
    ∃ links' dir, Course t ⟨links', dir, xs⟩ e ∧
      Course t ⟨links, here, before ++ ys⟩ ⟨links', dir, ys⟩ := by
  generalize hs : (⟨links, here, before ++ xs⟩ : Stand) = s at h
  induction h using Relation.ReflTransGen.head_induction_on generalizing links here before with
  | refl =>
    subst hs
    cases before with
    | nil => exact ⟨links, here, .refl, .refl⟩
    | cons piece before =>
      cases hends with
      | last _ _ hlast => exact absurd hlast (by simp [all_append_eq_false hxs before])
  | head hstep hrest ih =>
    subst hs
    cases before with
    | nil => exact ⟨links, here, .head hstep hrest, .refl⟩
    | cons piece before =>
      cases hstep with
      | idle hidle =>
        obtain ⟨links', dir, hfrom, hto⟩ := ih rfl
        exact ⟨links', dir, hfrom, .head (.idle hidle) hto⟩
      | up =>
        obtain ⟨links', dir, hfrom, hto⟩ := ih rfl
        exact ⟨links', dir, hfrom, .head .up hto⟩
      | @link links _ _ _ target hidle hdots _ hshort hlink =>
        have hpieces : target.pieces ++ before ++ xs = target.pieces ++ (before ++ xs) :=
          List.append_assoc _ _ _
        obtain ⟨links', dir, hfrom, hto⟩ := ih (congrArg (Stand.mk links _) hpieces)
        rw [List.append_assoc] at hto
        exact ⟨links', dir, hfrom, .head (.link hidle hdots (all_append_eq_false hys _) hshort hlink) hto⟩
      | down hidle hdots _ hshort hdir =>
        obtain ⟨links', dir, hfrom, hto⟩ := ih rfl
        exact ⟨links', dir, hfrom, .head (.down hidle hdots (all_append_eq_false hys _) hshort hdir) hto⟩

/-- When a course ends at the last of some names, the same names with more behind them lead to the directory
in which the last one is looked for. -/
theorem Course.exists_at_name {ys : List RawText} (h : Course t ⟨links, here, names⟩ e)
    (hends : Ends e (.named loc slash)) (hne : names ≠ []) (hnames : ∀ n ∈ names, IsName n)
    (hys : ys.filterMap ofPiece? = names.map .name ++ more) :
    ∃ links' dir rest name, loc = dir ++ [name] ∧ rest.filterMap ofPiece? = .name name :: more ∧
      Course t ⟨links, here, ys⟩ ⟨links', dir, rest⟩ := by
  induction names generalizing links here ys with
  | nil => exact absurd rfl hne
  | cons name others ih =>
    obtain ⟨hname, hothers⟩ := List.forall_mem_cons.1 hnames
    obtain ⟨rest, hrest, hto⟩ := exists_course_of_name hys t links here
    by_cases hlast : others = []
    · subst hlast
      rcases Relation.ReflTransGen.cases_head h with rfl | ⟨_, hstep, -⟩
      · cases hends with
        | last => exact ⟨links, here, ys, name, rfl, hys, .refl⟩
      · cases hstep with
        | idle hidle => exact absurd hidle hname.not_isIdlePiece
        | up => exact absurd rfl hname.ne_dots
        | link _ _ hmore => cases hmore
        | down _ _ hmore => cases hmore
    · have hmore : others.all List.isEmpty = false := not_all_empty_of_names hlast hothers
      have hmore' : rest.all List.isEmpty = false := by
        obtain ⟨other, others, rfl⟩ := List.exists_cons_of_ne_nil hlast
        exact not_all_empty hrest
      rcases Relation.ReflTransGen.cases_head h with rfl | ⟨_, hstep, hfrom⟩
      · cases hends with
        | last _ _ hnone => simp [hmore] at hnone
      · cases hstep with
        | idle hidle => exact absurd hidle hname.not_isIdlePiece
        | up => exact absurd rfl hname.ne_dots
        | link hidle hdots _ hshort hlink =>
          obtain ⟨links', dir, hfrom', hbehind⟩ := Course.exists_behind hfrom hends hmore hmore'
          obtain ⟨links'', dir', rest', last, hloc, hlast, hon⟩ := ih hfrom' hlast hothers hrest
          refine ⟨links'', dir', rest', last, hloc, hlast, hto.trans (.head ?_ (hbehind.trans hon))⟩
          exact .link hidle hdots hmore' hshort hlink
        | down hidle hdots _ hshort hdir =>
          obtain ⟨links', dir, rest', last, hloc, hlast, hon⟩ := ih hfrom hlast hothers hrest
          refine ⟨links', dir, rest', last, hloc, hlast, hto.trans (.head ?_ hon)⟩
          exact .down hidle hdots hmore' hshort hdir

/-- Where a path begins it ends at no name. -/
theorem resolve_ne_named {dir : Path} (h : dir.text ∈ [[], [RawText.slash], [dot]]) :
    t.resolve cwd follows dir ≠ .ok (.named loc slash) := by
  intro hresolve
  obtain ⟨hfit, e, place, hcourse, hends, -⟩ := exists_course_of_resolve hresolve
  have hout : t.resolve cwd follows dir = t.outcome follows (start cwd dir) := resolve_of_fit hfit
  rw [hresolve, outcome, start] at hout
  obtain ⟨text⟩ := dir
  have hcases : text = [] ∨ text = [RawText.slash] ∨ text = [dot] := by simpa using h
  rcases hcases with rfl | rfl | rfl
  · exact absurd hfit (by decide)
  · rw [Path.join_of_isAbsolute cwd (by decide), linkLimit, walk, walkBy_of_all_empty (by decide)] at hout
    cases hout
  · obtain ⟨before, hbefore⟩ := Path.exists_pieces_join cwd ⟨[dot]⟩
    have hlast : Path.lastPiece? (cwd.join ⟨[dot]⟩).pieces = some [dot] := by
      rw [hbefore _ rfl, lastPiece?_append]
      rfl
    have hname := (endsBy_of_walk hlast hout.symm).isName
    cases hname

/-- Where a directory above the path is, and there are no links from there on, the path ends there or below
if it does not go up. -/
theorem HasAbove.exists_below (h : t.HasAbove cwd p loc) (hdots : [dot, dot] ∉ p.pieces)
    (hlinks : ∀ names target, t.find? (loc ++ names) ≠ some (.link target))
    (hresolve : t.resolve cwd follows p = .ok place) : ∃ names, place.loc = loc ++ names := by
  obtain ⟨dir, slash, hdir, hresolve'⟩ := h
  obtain ⟨-, e, _, hcourse, hends, hstop, -⟩ := exists_course_of_resolve hresolve'
  obtain rfl := Except.ok.inj (hstop.symm.trans hresolve')
  rcases hdir.exists_names hdots with
    hbegins | ⟨lead, rest, names, more, hpieces, hpieces', hne, hnames, hrest, hmore, habsolute⟩
  · exact absurd hresolve' (resolve_ne_named hbegins)
  obtain ⟨before, hbefore⟩ := Path.exists_pieces_join cwd p
  have hrest' : rest.all List.isEmpty = false := by
    obtain ⟨name, others, rfl⟩ := List.exists_cons_of_ne_nil hne
    exact not_all_empty hrest
  -- The pieces before the steps lead to one directory, and from there the names of `dir` come first.
  rw [start, hbefore dir habsolute, hpieces', ← List.append_assoc] at hcourse
  obtain ⟨links', here, hfrom, hto⟩ :=
    Course.exists_behind hcourse hends (not_all_empty_of_names hne hnames) hrest'
  obtain ⟨links'', top, pieces, name, rfl, hname, hon⟩ := Course.exists_at_name hfrom hends hne hnames hrest
  have hstart : start cwd p = ⟨linkLimit, [], before ++ lead ++ rest⟩ := by
    rw [start, hbefore p rfl, hpieces, List.append_assoc]
  obtain ⟨hfit, -⟩ := exists_course_of_resolve hresolve
  rw [resolve_of_fit hfit, hstart, Course.outcome_eq hto, Course.outcome_eq hon] at hresolve
  obtain ⟨e', place', hcourse', hends'⟩ := exists_course hresolve
  have hdots' : [dot, dot] ∉ pieces := by
    rw [← Path.parent_mem_filterMap_iff, hname, List.mem_cons, not_or]
    exact ⟨by simp, hmore⟩
  obtain ⟨below, hbelow⟩ := Course.exists_below_name hcourse' hends' hname hdots' hlinks
  rw [Course.outcome_eq hcourse'] at hresolve
  rcases hends'.place_eq hresolve with rfl | ⟨loc, slash, target, rfl, hlink⟩
  · exact ⟨below, hbelow⟩
  · refine absurd ?_ (hlinks below target)
    rw [← hbelow]
    exact hlink

end Below

end Tree

end TextCatalog.Disk
