import Mathlib.Logic.Relation
import TextCatalog.Proofs.Disk.Linked

/-!
# The course of a walk

While more is to come, a walk goes from stand to stand in the same way whether or not a link at the end of
the path is followed. So its course can be retraced in a later tree that has the same directories and links,
and where the course goes through a link with more to come behind it, the link leads to a directory.
-/

namespace TextCatalog.Disk.Tree

open RawText (slash dot)
open TextCatalog.Path (isIdlePiece)

/-- Where a walk has got to, what is left of the path, and how many links may still be followed. -/
structure Stand where
  links : Nat
  here : Location
  pieces : List RawText

/-- The directory from which the target of a link at the location is walked. -/
def linkStart (target : Path) (loc : Location) : Location :=
  if target.isAbsolute then [] else loc.dropLast

def outcome (t : Tree) (follows : Bool → Bool) (s : Stand) : Except Cause Place :=
  walk t follows s.links s.here s.pieces

/-- The walk goes on to the next stand, with a name behind it only if more is to come. -/
inductive Step (t : Tree) : Stand → Stand → Prop
  | idle {links : Nat} {here : Location} {piece : RawText} {rest : List RawText}
      (hidle : isIdlePiece piece = true) : Step t ⟨links, here, piece :: rest⟩ ⟨links, here, rest⟩
  | up {links : Nat} {here : Location} {rest : List RawText} :
      Step t ⟨links, here, [dot, dot] :: rest⟩ ⟨links, here.dropLast, rest⟩
  | link {links : Nat} {here : Location} {piece : RawText} {rest : List RawText} {target : Path}
      (hidle : ¬ isIdlePiece piece = true) (hdots : piece ≠ [dot, dot])
      (hmore : rest.all List.isEmpty = false) (hshort : (here ++ [piece]).IsShort)
      (hlink : t.find? (here ++ [piece]) = some (.link target)) :
      Step t ⟨links + 1, here, piece :: rest⟩
        ⟨links, linkStart target (here ++ [piece]), target.pieces ++ rest⟩
  | down {links : Nat} {here : Location} {piece : RawText} {rest : List RawText}
      (hidle : ¬ isIdlePiece piece = true) (hdots : piece ≠ [dot, dot])
      (hmore : rest.all List.isEmpty = false) (hshort : (here ++ [piece]).IsShort)
      (hdir : t.find? (here ++ [piece]) = some .directory) :
      Step t ⟨links, here, piece :: rest⟩ ⟨links, here ++ [piece], rest⟩

/-- Nothing is left of the path, or its last name. -/
inductive Ends : Stand → Place → Prop
  | stop (links : Nat) (here : Location) : Ends ⟨links, here, []⟩ (.unnamed here)
  | last {links : Nat} {here : Location} {piece : RawText} {rest : List RawText}
      (hidle : ¬ isIdlePiece piece = true) (hdots : piece ≠ [dot, dot])
      (hlast : rest.all List.isEmpty = true) :
      Ends ⟨links, here, piece :: rest⟩ (.named (here ++ [piece]) (!rest.isEmpty))

/-- The walk goes from the one stand to the other. -/
abbrev Course (t : Tree) : Stand → Stand → Prop :=
  Relation.ReflTransGen (Step t)

variable {t t' : Tree} {follows : Bool → Bool} {links : Nat} {here loc : Location} {piece : RawText}
  {rest pieces : List RawText} {place : Place} {s s' e : Stand} {target : Path}
  {pass : Location → List RawText → Except Cause Place}

section Unfolded

theorem walkBy_link (hidle : ¬ isIdlePiece piece = true) (hdots : piece ≠ [dot, dot])
    (hfollows : rest.all List.isEmpty = true → follows (!rest.isEmpty) = true)
    (hshort : (here ++ [piece]).IsShort)
      (hlink : t.find? (here ++ [piece]) = some (.link target)) :
    t.walkBy follows pass here (piece :: rest)
      = pass (linkStart target (here ++ [piece])) (target.pieces ++ rest) := by
  have hgo : ¬ (rest.all List.isEmpty && !follows (!rest.isEmpty)) = true := by
    intro hstop
    obtain ⟨hlast, hnot⟩ := Bool.and_eq_true_iff.1 hstop
    rw [hfollows hlast] at hnot
    cases hnot
  rw [walkBy, if_neg hidle, if_neg hdots]
  dsimp only
  rw [if_neg hgo, look_of_isShort hshort, hlink, linkStart, List.dropLast_concat]

theorem walkBy_down (hidle : ¬ isIdlePiece piece = true) (hdots : piece ≠ [dot, dot])
    (hmore : rest.all List.isEmpty = false) (hshort : (here ++ [piece]).IsShort)
    (hdir : t.find? (here ++ [piece]) = some .directory) :
    t.walkBy follows pass here (piece :: rest) = t.walkBy follows pass (here ++ [piece]) rest := by
  rw [walkBy, if_neg hidle, if_neg hdots]
  dsimp only
  rw [hmore, Bool.false_and, if_neg (by simp), look_of_isShort hshort, hdir]
  simp

theorem walkBy_long (hidle : ¬ isIdlePiece piece = true) (hdots : piece ≠ [dot, dot])
    (hfollows : follows (!rest.isEmpty) = true) (hlong : ¬ (here ++ [piece]).IsShort) :
    t.walkBy follows pass here (piece :: rest) = .error .nameTooLong := by
  have hlook : t.look (here ++ [piece]) = .error .nameTooLong := by
    cases hlook : t.look (here ++ [piece]) with
    | ok found => exact absurd (of_look_eq_ok hlook).1 hlong
    | error cause =>
      rw [look] at hlook
      split at hlook
      · exact hlook.symm
      · cases hlook
  rw [walkBy, if_neg hidle, if_neg hdots]
  dsimp only
  rw [if_neg (by simp [hfollows]), hlook]

end Unfolded

section Courses

theorem Step.outcome_eq (h : Step t s s') : t.outcome follows s = t.outcome follows s' := by
  cases h with
  | @idle links here piece rest hidle =>
    cases links <;> rw [outcome, outcome, walk, walkBy, if_pos hidle]
  | @up links here rest =>
    cases links <;> rw [outcome, outcome, walk, walkBy, if_neg (by decide), if_pos rfl]
  | @link links here piece rest target hidle hdots hmore hshort hlink =>
    rw [outcome, walk, walkBy_link hidle hdots (by simp [hmore]) hshort hlink]
    rfl
  | @down links here piece rest hidle hdots hmore hshort hdir =>
    cases links <;> rw [outcome, outcome, walk, walkBy_down hidle hdots hmore hshort hdir]

theorem Course.outcome_eq (h : Course t s s') : t.outcome follows s = t.outcome follows s' := by
  induction h with
  | refl => rfl
  | tail _ hstep ih => rw [ih, hstep.outcome_eq]

theorem Course.links_le (h : Course t s s') : s'.links ≤ s.links := by
  induction h with
  | refl => exact le_rfl
  | tail _ hstep ih => cases hstep <;> simp at ih ⊢ <;> omega

/-- A walk that ends well has come to an end of the path. -/
theorem exists_course_of_walkBy
    (hpass : ∀ here pieces, pass here pieces = .ok place →
      ∃ n, links = n + 1 ∧ ∃ e place', Course t ⟨n, here, pieces⟩ e ∧ Ends e place')
    (h : t.walkBy follows pass here pieces = .ok place) :
    ∃ e place', Course t ⟨links, here, pieces⟩ e ∧ Ends e place' := by
  replace h := goes_of_walkBy h
  induction h with
  | arrives => exact ⟨_, _, .refl, .stop links _⟩
  | idle hidle _ ih =>
    obtain ⟨e, place', hcourse, hends⟩ := ih
    exact ⟨e, place', .head (.idle hidle) hcourse, hends⟩
  | up _ ih =>
    obtain ⟨e, place', hcourse, hends⟩ := ih
    exact ⟨e, place', .head .up hcourse, hends⟩
  | stops hidle hdots hlast => exact ⟨_, _, .refl, .last hidle hdots hlast⟩
  | @follows here piece rest target hidle hdots _ hshort hlink hpassed =>
    cases hlast : rest.all List.isEmpty with
    | true => exact ⟨_, _, .refl, .last hidle hdots hlast⟩
    | false =>
      obtain ⟨n, rfl, e, place', hcourse, hends⟩ := hpass _ _ hpassed
      refine ⟨e, place', .head (.link hidle hdots hlast hshort hlink) ?_, hends⟩
      rwa [linkStart, List.dropLast_concat]
  | enters hidle hdots hmore hshort hdir _ ih =>
    obtain ⟨e, place', hcourse, hends⟩ := ih
    exact ⟨e, place', .head (.down hidle hdots hmore hshort hdir) hcourse, hends⟩

theorem exists_course (h : t.outcome follows s = .ok place) : ∃ e place', Course t s e ∧ Ends e place' := by
  obtain ⟨links, here, pieces⟩ := s
  rw [outcome] at h
  induction links generalizing here pieces with
  | zero => exact exists_course_of_walkBy (fun _ _ hpass => by cases hpass) h
  | succ n ih => exact exists_course_of_walkBy (fun here pieces hpass => ⟨n, rfl, ih here pieces hpass⟩) h

end Courses

section End

theorem Ends.outcome_eq (h : Ends e place) : t.outcome (fun _ => false) e = .ok place := by
  cases h with
  | stop links here => cases links <;> rw [outcome, walk, walkBy]
  | @last links here piece rest hidle hdots hlast =>
    cases links <;> exact (Goes.stops hidle hdots hlast rfl (by simp)).walkBy_eq

/-- Without a link at the end it does not matter whether one is followed. -/
theorem Ends.outcome_of_ne_link (h : Ends e place) (hshort : place.IsShort)
    (hlink : ∀ target, t.find? place.loc ≠ some (.link target)) : t.outcome follows e = .ok place := by
  cases h with
  | stop links here => cases links <;> rw [outcome, walk, walkBy]
  | @last links here piece rest hidle hdots hlast =>
    cases links <;> exact (Goes.stops hidle hdots hlast rfl fun _ => ⟨hshort, hlink⟩).walkBy_eq

theorem Ends.place_eq {place' : Place} (h : Ends e place') (hwalk : t.outcome follows e = .ok place) :
    place' = place ∨ ∃ loc slash target, place' = .named loc slash ∧ t.find? loc = some (.link target) := by
  cases h with
  | stop links here =>
    cases links <;> rw [outcome, walk, walkBy] at hwalk <;> exact .inl (Except.ok.inj hwalk)
  | @last links here piece rest hidle hdots hlast =>
    have hgoes : ∃ pass, t.Goes follows pass place here (piece :: rest) := by
      cases links <;> exact ⟨_, goes_of_walkBy hwalk⟩
    obtain ⟨pass, hgoes⟩ := hgoes
    cases hgoes with
    | idle hidle' => exact absurd hidle' hidle
    | up => exact absurd rfl hdots
    | stops _ _ _ hplace => exact .inl hplace.symm
    | follows _ _ _ _ hlink => exact .inr ⟨_, _, _, rfl, hlink⟩
    | enters _ _ hmore => simp [hlast] at hmore

/-- A link at the end of the path is followed, or it cannot be. -/
theorem Ends.outcome_of_link {slash : Bool} (h : Ends e (.named loc slash))
    (hlink : t.find? loc = some (.link target)) :
    t.outcome (fun _ => true) e = .error .tooManyLinks ∨
      t.outcome (fun _ => true) e = .error .nameTooLong ∨
      ∃ links rest, links < e.links ∧ rest.all List.isEmpty = true ∧ t.outcome (fun _ => true) e
        = t.outcome (fun _ => true) ⟨links, linkStart target loc, target.pieces ++ rest⟩ := by
  cases h with
  | @last links here piece rest hidle hdots hlast =>
    by_cases hshort : (here ++ [piece]).IsShort
    · cases links with
      | zero => exact .inl (walkBy_link hidle hdots (fun _ => rfl) hshort hlink)
      | succ links =>
        exact .inr (.inr ⟨links, rest, Nat.lt_succ_self links, hlast,
          walkBy_link hidle hdots (fun _ => rfl) hshort hlink⟩)
    · cases links <;> exact .inr (.inl (walkBy_long hidle hdots rfl hshort))

end End

section Retraced

variable {lost : Location → Prop}

/-- Every directory and every link of `t` is in `t'`, but for links that are lost. -/
def KeepsLeads (lost : Location → Prop) (t t' : Tree) : Prop :=
  ∀ loc, LeadsOn (t.find? loc) → t'.find? loc = t.find? loc ∨
    lost loc ∧ ∃ target, t.find? loc = some (.link target)

theorem leadsOn_iff {found : Option Node} :
    LeadsOn found ↔ found = some .directory ∨ ∃ target, found = some (.link target) := by
  cases found with
  | none => simp [LeadsOn]
  | some node => cases node <;> simp [LeadsOn]

theorem KeepsLeads.of_ne_link (h : KeepsLeads lost t t')
    (hlink : ∀ loc target, lost loc → t.find? loc ≠ some (.link target)) :
    KeepsLeads (fun _ => False) t t' :=
  fun loc hleads => .inl ((h loc hleads).resolve_right fun ⟨hlost, target, hfind⟩ =>
    hlink loc target hlost hfind)

/-- Nothing but a link is lost where something is put in place of no directory. -/
theorem keepsLeads_put {node : Node} (hdir : t.find? loc ≠ some .directory) :
    KeepsLeads (· = loc) t (t.put loc node) := by
  intro other hleads
  by_cases hother : other = loc
  · subst hother
    exact .inr ⟨rfl, (leadsOn_iff.1 hleads).resolve_left hdir⟩
  · exact .inl (find?_put_of_ne hother)

theorem keepsLeads_put_of_ne_link {node : Node} (hdir : t.find? loc ≠ some .directory)
    (hlink : ∀ target, t.find? loc ≠ some (.link target)) :
    KeepsLeads (fun _ => False) t (t.put loc node) :=
  (keepsLeads_put hdir).of_ne_link fun _ target hother => hother ▸ hlink target

theorem keepsLeads_put_of_none {node : Node} (hnone : t.find? loc = none) :
    KeepsLeads (fun _ => False) t (t.put loc node) :=
  keepsLeads_put_of_ne_link (by simp [hnone]) (by simp [hnone])

/-- The course goes through a link that is lost, with more to come behind it. -/
def Crosses (lost : Location → Prop) (t : Tree) (s e : Stand) : Prop :=
  ∃ loc target links rest, lost loc ∧ t.find? loc = some (.link target) ∧
    rest.all List.isEmpty = false ∧ Course t s ⟨links, linkStart target loc, target.pieces ++ rest⟩ ∧
    Course t ⟨links, linkStart target loc, target.pieces ++ rest⟩ e

theorem Step.retrace (h : Step t s s') (hkeep : KeepsLeads lost t t') (hcourse : Course t s' e) :
    Step t' s s' ∨ Crosses lost t s e := by
  have hstep := h
  cases h with
  | idle hidle => exact .inl (.idle hidle)
  | up => exact .inl .up
  | link hidle hdots hmore hshort hlink =>
    rcases hkeep _ (by rw [hlink]; trivial) with hsame | ⟨hlost, -⟩
    · exact .inl (.link hidle hdots hmore hshort (hsame.trans hlink))
    · exact .inr ⟨_, _, _, _, hlost, hlink, hmore, .single hstep, hcourse⟩
  | down hidle hdots hmore hshort hdir =>
    rcases hkeep _ (by rw [hdir]; trivial) with hsame | ⟨-, target, hlink⟩
    · exact .inl (.down hidle hdots hmore hshort (hsame.trans hdir))
    · cases hdir.symm.trans hlink

/-- A course is retraced in the later tree unless it crosses a link that is lost. -/
theorem Course.retrace (h : Course t s e) (hkeep : KeepsLeads lost t t') :
    Course t' s e ∨ Crosses lost t s e := by
  induction h using Relation.ReflTransGen.head_induction_on with
  | refl => exact .inl .refl
  | head hstep hrest ih =>
    rcases hstep.retrace hkeep hrest with hstep' | hcrosses
    · rcases ih with hcourse | ⟨loc, target, links, rest, hlost, hlink, hmore, hto, hfrom⟩
      · exact .inl (.head hstep' hcourse)
      · exact .inr ⟨loc, target, links, rest, hlost, hlink, hmore, .head hstep hto, hfrom⟩
    · exact .inr hcrosses

/-- The walk ends at a directory, unless there are too many links on the way. -/
def LeadsIn (t : Tree) (s : Stand) : Prop :=
  t.outcome (fun _ => true) s = .error .tooManyLinks ∨
    ∃ place, t.outcome (fun _ => true) s = .ok place ∧ t.nodeAt place = .ok .directory

theorem Step.leadsIn (h : Step t s s') (hin : t.LeadsIn s') : t.LeadsIn s := by
  rwa [LeadsIn, h.outcome_eq]

theorem all_append_eq_false (hmore : rest.all List.isEmpty = false) (pieces : List RawText) :
    (pieces ++ rest).all List.isEmpty = false := by
  rw [List.all_append, hmore, Bool.and_false]

/-- Pieces with more to come behind them lead to a directory, if the links suffice. -/
theorem Course.leadsIn {n : Nat} {slashes : List RawText} (h : Course t ⟨n, here, pieces ++ rest⟩ e)
    (hends : Ends e place) (hmore : rest.all List.isEmpty = false)
    (hslashes : slashes.all List.isEmpty = true) (hlinks : links ≤ n) :
    t.LeadsIn ⟨links, here, pieces ++ slashes⟩ := by
  generalize hs : (⟨n, here, pieces ++ rest⟩ : Stand) = s at h
  induction h using Relation.ReflTransGen.head_induction_on generalizing n here pieces links with
  | refl =>
    subst hs
    cases pieces with
    | nil => cases links <;> exact .inr ⟨_, walkBy_of_all_empty hslashes, rfl⟩
    | cons piece pieces =>
      cases hends with
      | last _ _ hlast => exact absurd hlast (by simp [all_append_eq_false hmore pieces])
  | head hstep hrest ih =>
    subst hs
    cases pieces with
    | nil => cases links <;> exact .inr ⟨_, walkBy_of_all_empty hslashes, rfl⟩
    | cons piece pieces =>
      cases hstep with
      | idle hidle => exact (Step.idle hidle).leadsIn (ih hlinks rfl)
      | up => exact Step.up.leadsIn (ih hlinks rfl)
      | @link n _ _ _ target hidle hdots _ hshort hlink =>
        cases links with
        | zero => exact .inl (walkBy_link hidle hdots (fun _ => rfl) hshort hlink)
        | succ links =>
          have hpassed : t.outcome (fun _ => true) ⟨links + 1, here, piece :: pieces ++ slashes⟩ = _ :=
            walkBy_link hidle hdots (fun _ => rfl) hshort hlink
          have hin : t.LeadsIn ⟨links, linkStart target _, target.pieces ++ pieces ++ slashes⟩ :=
            ih (Nat.le_of_succ_le_succ hlinks) (by rw [List.append_assoc]; rfl)
          rw [List.append_assoc] at hin
          rw [LeadsIn, hpassed]
          exact hin
      | down hidle hdots _ hshort hdir =>
        have hin := ih hlinks rfl
        cases hlast : (pieces ++ slashes).all List.isEmpty with
        | false => exact (Step.down hidle hdots hlast hshort hdir).leadsIn hin
        | true =>
          have hnode : t.nodeAt (.named (here ++ [piece]) (!(pieces ++ slashes).isEmpty))
              = .ok .directory := by
            rw [nodeAt, look_of_isShort hshort, hdir]
            simp
          have hlink : ∀ target, t.find? (here ++ [piece]) ≠ some (.link target) := by simp [hdir]
          exact .inr ⟨_, (Ends.last hidle hdots hlast).outcome_of_ne_link hshort hlink, hnode⟩

end Retraced

section Resolved

variable {cwd p : Path} {slash : Bool} {bytes : ByteArray}

/-- Where the walk along a path begins. -/
def start (cwd p : Path) : Stand :=
  ⟨linkLimit, [], (cwd.join p).pieces⟩

theorem resolve_of_fit (hfit : unfit? p = none) :
    t.resolve cwd follows p = t.outcome follows (start cwd p) := by
  rw [resolve, hfit]
  rfl

/-- The walk along a path that ends well comes to an end of the path, where it stops if no link is
followed. -/
theorem exists_course_of_resolve (h : t.resolve cwd follows p = .ok place) :
    unfit? p = none ∧ ∃ e place', Course t (start cwd p) e ∧ Ends e place' ∧
      t.resolve cwd (fun _ => false) p = .ok place' ∧
      (place' = place ∨
        ∃ loc slash target, place' = .named loc slash ∧ t.find? loc = some (.link target)) := by
  have hfit : unfit? p = none := by
    rw [resolve] at h
    split at h
    next => cases h
    next hfit => exact hfit
  rw [resolve_of_fit hfit] at h
  obtain ⟨e, place', hcourse, hends⟩ := exists_course h
  refine ⟨hfit, e, place', hcourse, hends, ?_, hends.place_eq (hcourse.outcome_eq ▸ h)⟩
  rw [resolve_of_fit hfit, hcourse.outcome_eq, hends.outcome_eq]

theorem resolve_of_keepsLeads (hkeep : KeepsLeads (fun _ => False) t t')
    (h : t.resolve cwd (fun _ => false) p = .ok place) : t'.resolve cwd (fun _ => false) p = .ok place := by
  obtain ⟨hfit, e, place', hcourse, hends, hstop, -⟩ := exists_course_of_resolve h
  obtain rfl : place' = place := Except.ok.inj (hstop.symm.trans h)
  rcases hcourse.retrace hkeep with hcourse' | ⟨_, _, _, _, hlost, -⟩
  · rw [resolve_of_fit hfit, hcourse'.outcome_eq, hends.outcome_eq]
  · exact hlost.elim

/-- When the link at the end of a path is lost, the path leads there as before, or it went through the
link itself and led to a directory. -/
theorem resolve_of_lost (hkeep : KeepsLeads (· = loc) t t')
    (h : t.resolve cwd (fun _ => false) p = .ok (.named loc slash)) :
    t'.resolve cwd (fun _ => false) p = .ok (.named loc slash) ∨
      ∃ cause, cause ≠ .notFound ∧ t.read cwd p = .error cause := by
  obtain ⟨hfit, e, place', hcourse, hends, hstop, -⟩ := exists_course_of_resolve h
  obtain rfl : place' = .named loc slash := Except.ok.inj (hstop.symm.trans h)
  have herror : ∀ cause, cause ≠ .notFound → t.outcome (fun _ => true) e = .error cause →
      ∃ cause, cause ≠ .notFound ∧ t.read cwd p = .error cause := by
    intro cause hcause hout
    refine ⟨cause, hcause, ?_⟩
    rw [read, node, resolve_of_fit hfit, hcourse.outcome_eq, hout]
  rcases hcourse.retrace hkeep with hcourse' | ⟨_, target, links, rest, rfl, hlink, hmore, hto, hfrom⟩
  · exact .inl (by rw [resolve_of_fit hfit, hcourse'.outcome_eq, hends.outcome_eq])
  · right
    rcases hends.outcome_of_link hlink with hmany | hlong | ⟨links', rest', hlinks, hlast, hout⟩
    · exact herror _ (by simp) hmany
    · exact herror _ (by simp) hlong
    · -- At the end of the path the link leads where it led on the way, if the links suffice.
      have hin := hfrom.leadsIn hends hmore hlast (hlinks.le.trans hfrom.links_le)
      rw [LeadsIn, ← hout] at hin
      rcases hin with hmany | ⟨place, hplace, hdir⟩
      · exact herror _ (by simp) hmany
      · refine ⟨.isADirectory, by simp, ?_⟩
        rw [read, node, resolve_of_fit hfit, hcourse.outcome_eq, hplace]
        dsimp only
        rw [hdir]

theorem read_of_resolve (h : t.resolve cwd (fun _ => false) p = .ok (.named loc false)) (hshort : loc.IsShort)
    (hfile : t.find? loc = some (.file bytes)) : t.read cwd p = .ok bytes := by
  obtain ⟨hfit, e, place', hcourse, hends, hstop, -⟩ := exists_course_of_resolve h
  obtain rfl : place' = .named loc false := Except.ok.inj (hstop.symm.trans h)
  have hout : t.outcome (fun _ => true) e = .ok (.named loc false) :=
    hends.outcome_of_ne_link hshort fun target hlink => by cases hfile.symm.trans hlink
  rw [read_eq_ok_iff, node, resolve_of_fit hfit, hcourse.outcome_eq, hout]
  dsimp only
  rw [nodeAt, look_of_isShort hshort, hfile]
  simp

end Resolved

end TextCatalog.Disk.Tree
