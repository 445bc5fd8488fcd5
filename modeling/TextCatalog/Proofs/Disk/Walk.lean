import TextCatalog.Proofs.Disk.Proper
import TextCatalog.Proofs.Path.Join

/-!
# Where paths lead in a proper tree

Without links a walk goes where the pieces of the path say, and it succeeds if it finds a directory at
each piece that another one follows. So it succeeds again in every tree that has these directories.
-/

namespace TextCatalog.Disk

open RawText (slash dot)
open TextCatalog.Path (IsName)

/-- The last name is not too long to be looked up. -/
def Location.IsShort (loc : Location) : Prop :=
  ∀ name ∈ loc.getLast?, name.length ≤ Tree.nameLimit

namespace Place

/-- What stands at the place can be looked up. -/
def IsShort : Place → Prop
  | unnamed _ => True
  | named loc _ => loc.IsShort

/-- Whether the path goes on with slashes behind the name. -/
def hasSlash : Place → Bool
  | unnamed _ => false
  | named _ slash => slash

/-- The place is a directory of the tree, or a name in one. -/
def IsIn (t : Tree) : Place → Prop
  | unnamed loc => t.find? loc = some .directory
  | named loc _ => ∃ dir name, loc = dir ++ [name] ∧ IsName name ∧ t.find? dir = some .directory

end Place

namespace Tree

/-- The pieces lead from a directory to a place, through directories of the tree. -/
inductive Leads (t : Tree) : Location → List RawText → Place → Prop
  | stop (here : Location) : Leads t here [] (.unnamed here)
  | idle {here : Location} {piece : RawText} {rest : List RawText} {place : Place}
      (hidle : Path.isIdlePiece piece = true) (hrest : Leads t here rest place) :
      Leads t here (piece :: rest) place
  | up {here : Location} {rest : List RawText} {place : Place}
      (hrest : Leads t here.dropLast rest place) : Leads t here ([dot, dot] :: rest) place
  | last {here : Location} {piece : RawText} {rest : List RawText} (hname : IsName piece)
      (hlast : rest.all List.isEmpty = true) :
      Leads t here (piece :: rest) (.named (here ++ [piece]) (!rest.isEmpty))
  | down {here : Location} {piece : RawText} {rest : List RawText} {place : Place}
      (hname : IsName piece) (hlast : rest.all List.isEmpty = false)
      (hshort : (here ++ [piece]).IsShort) (hdir : t.find? (here ++ [piece]) = some .directory)
      (hrest : Leads t (here ++ [piece]) rest place) : Leads t here (piece :: rest) place

section Look

variable {t : Tree} {loc : Location} {found : Option Node}

theorem look_of_isShort (h : loc.IsShort) : t.look loc = .ok (t.find? loc) := by
  have hfits : ¬ (loc.getLast?.any fun name => nameLimit < name.length) = true := by
    cases hlast : loc.getLast? with
    | none => simp
    | some name => simpa using h name hlast
  rw [look, if_neg hfits]

theorem of_look_eq_ok (h : t.look loc = .ok found) : loc.IsShort ∧ found = t.find? loc := by
  rw [look] at h
  split at h
  · cases h
  next hfits =>
    refine ⟨fun name hname => ?_, (Except.ok.inj h).symm⟩
    rw [Option.mem_def.1 hname] at hfits
    simpa using hfits

end Look

section Leads

theorem isName_of_not_isIdlePiece {piece : RawText} (hidle : ¬ Path.isIdlePiece piece = true)
    (hdots : piece ≠ [dot, dot]) (hslash : slash ∉ piece) : IsName piece := by
  simp only [Path.isIdlePiece, Bool.or_eq_true, beq_iff_eq, not_or] at hidle
  exact ⟨hidle.1, hidle.2, hdots, hslash⟩

variable {t t' : Tree} {follows : Bool → Bool} {links : Nat} {here : Location} {pieces : List RawText}
  {place : Place} {pass : Location → List RawText → Except Cause Place}

/-- How a walk comes to its place: past pieces that name nothing, up where two dots stand, and where a name
stands it stops, follows the link that is there, or enters the directory. -/
inductive Goes (t : Tree) (follows : Bool → Bool) (pass : Location → List RawText → Except Cause Place)
    (place : Place) : Location → List RawText → Prop
  | arrives {here : Location} (hplace : place = .unnamed here) : Goes t follows pass place here []
  | idle {here : Location} {piece : RawText} {rest : List RawText} (hidle : Path.isIdlePiece piece = true)
      (hrest : Goes t follows pass place here rest) : Goes t follows pass place here (piece :: rest)
  | up {here : Location} {rest : List RawText} (hrest : Goes t follows pass place here.dropLast rest) :
      Goes t follows pass place here ([dot, dot] :: rest)
  | stops {here : Location} {piece : RawText} {rest : List RawText}
      (hidle : ¬ Path.isIdlePiece piece = true) (hdots : piece ≠ [dot, dot])
      (hlast : rest.all List.isEmpty = true) (hplace : place = .named (here ++ [piece]) (!rest.isEmpty))
      (hfound : follows (!rest.isEmpty) = true → (here ++ [piece]).IsShort ∧
        ∀ target, t.find? (here ++ [piece]) ≠ some (.link target)) :
      Goes t follows pass place here (piece :: rest)
  | follows {here : Location} {piece : RawText} {rest : List RawText} {target : Path}
      (hidle : ¬ Path.isIdlePiece piece = true) (hdots : piece ≠ [dot, dot])
      (hfollows : rest.all List.isEmpty = true → follows (!rest.isEmpty) = true)
      (hshort : (here ++ [piece]).IsShort) (hlink : t.find? (here ++ [piece]) = some (.link target))
      (hpass : pass (if target.isAbsolute then [] else here) (target.pieces ++ rest) = .ok place) :
      Goes t follows pass place here (piece :: rest)
  | enters {here : Location} {piece : RawText} {rest : List RawText}
      (hidle : ¬ Path.isIdlePiece piece = true) (hdots : piece ≠ [dot, dot])
      (hmore : rest.all List.isEmpty = false) (hshort : (here ++ [piece]).IsShort)
      (hdir : t.find? (here ++ [piece]) = some .directory)
      (hrest : Goes t follows pass place (here ++ [piece]) rest) :
      Goes t follows pass place here (piece :: rest)

theorem goes_of_walkBy (h : t.walkBy follows pass here pieces = .ok place) :
    t.Goes follows pass place here pieces := by
  induction pieces generalizing here with
  | nil =>
    rw [walkBy] at h
    exact .arrives (Except.ok.inj h).symm
  | cons piece rest ih =>
    by_cases hidle : Path.isIdlePiece piece = true
    · rw [walkBy, if_pos hidle] at h
      exact .idle hidle (ih h)
    by_cases hdots : piece = [dot, dot]
    · rw [walkBy, if_neg hidle, if_pos hdots] at h
      exact hdots ▸ .up (ih h)
    rw [walkBy, if_neg hidle, if_neg hdots] at h
    dsimp only at h
    split at h
    next hstop =>
      obtain ⟨hlast, hfollows⟩ := Bool.and_eq_true_iff.1 hstop
      refine .stops hidle hdots hlast (Except.ok.inj h).symm fun hfollowed => ?_
      rw [hfollowed] at hfollows
      cases hfollows
    next hgo =>
      split at h
      next => cases h
      next target hlook =>
        obtain ⟨hshort, hlink⟩ := of_look_eq_ok hlook
        exact .follows hidle hdots (fun hlast => by simpa [hlast] using hgo) hshort hlink.symm h
      next found hlink hlook =>
        obtain ⟨hshort, rfl⟩ := of_look_eq_ok hlook
        split at h
        next hlast => exact .stops hidle hdots hlast (Except.ok.inj h).symm fun _ => ⟨hshort, hlink⟩
        next hlast =>
          split at h
          next => cases h
          next hdir => exact .enters hidle hdots (by simpa using hlast) hshort hdir (ih h)
          next => cases h

theorem Goes.walkBy_eq (h : t.Goes follows pass place here pieces) :
    t.walkBy follows pass here pieces = .ok place := by
  induction h with
  | arrives hplace => rw [walkBy, hplace]
  | idle hidle _ ih => rw [walkBy, if_pos hidle, ih]
  | up _ ih => rw [walkBy, if_neg (by decide), if_pos rfl, ih]
  | @stops here piece rest hidle hdots hlast hplace hfound =>
    rw [walkBy, if_neg hidle, if_neg hdots, hplace]
    dsimp only
    split
    · rfl
    next hgo =>
      obtain ⟨hshort, hlink⟩ := hfound (by simpa [hlast] using hgo)
      rw [look_of_isShort hshort]
      split
      next h => cases h
      next h => exact absurd (Except.ok.inj h) (hlink _)
      next => rfl
  | follows hidle hdots hfollows hshort hlink hpass =>
    have hgo : ∀ {isLast : Bool} {slash : Bool}, (isLast = true → slash = true) →
        ¬ (isLast && !slash) = true := by decide
    rw [walkBy, if_neg hidle, if_neg hdots]
    dsimp only
    rw [if_neg (hgo hfollows), look_of_isShort hshort, hlink]
    exact hpass
  | enters hidle hdots hmore hshort hdir _ ih =>
    rw [walkBy, if_neg hidle, if_neg hdots]
    dsimp only
    rw [hmore, Bool.false_and, if_neg (by simp), look_of_isShort hshort, hdir]
    simpa using ih

theorem leads_of_walkBy (ht : t.Proper) (hpieces : ∀ piece ∈ pieces, slash ∉ piece)
    (h : t.walkBy follows pass here pieces = .ok place) : t.Leads here pieces place := by
  replace h := goes_of_walkBy h
  induction h with
  | @arrives here hplace => exact hplace ▸ .stop here
  | idle hidle _ ih => exact .idle hidle (ih (List.forall_mem_cons.1 hpieces).2)
  | up _ ih => exact .up (ih (List.forall_mem_cons.1 hpieces).2)
  | stops hidle hdots hlast hplace =>
    exact hplace ▸ .last (isName_of_not_isIdlePiece hidle hdots (hpieces _ List.mem_cons_self)) hlast
  | follows _ _ _ _ hlink => exact absurd hlink ht.ne_link
  | enters hidle hdots hmore hshort hdir _ ih =>
    obtain ⟨hpiece, hrest⟩ := List.forall_mem_cons.1 hpieces
    exact .down (isName_of_not_isIdlePiece hidle hdots hpiece) hmore hshort hdir (ih hrest)

theorem walkBy_of_leads (ht : t.Proper) (hleads : t.Leads here pieces place) (hshort : place.IsShort) :
    t.walkBy follows pass here pieces = .ok place := by
  refine Goes.walkBy_eq ?_
  induction hleads with
  | stop here => exact .arrives rfl
  | idle hidle _ ih => exact .idle hidle (ih hshort)
  | up _ ih => exact .up (ih hshort)
  | last hname hlast =>
    exact .stops hname.not_isIdlePiece hname.ne_dots hlast rfl fun _ => ⟨hshort, fun _ => ht.ne_link⟩
  | down hname hmore hpassed hdir _ ih =>
    exact .enters hname.not_isIdlePiece hname.ne_dots hmore hpassed hdir (ih hshort)

theorem leads_of_walk (ht : t.Proper) (hpieces : ∀ piece ∈ pieces, slash ∉ piece)
    (h : walk t follows links here pieces = .ok place) : t.Leads here pieces place := by
  cases links <;> exact leads_of_walkBy ht hpieces h

theorem walk_of_leads (ht : t.Proper) (hleads : t.Leads here pieces place) (hshort : place.IsShort) :
    walk t follows links here pieces = .ok place := by
  cases links <;> exact walkBy_of_leads ht hleads hshort

/-- Pieces without two dots lead on from where they start. -/
theorem Leads.exists_loc_eq (h : t.Leads here pieces place) (hdots : [dot, dot] ∉ pieces) :
    ∃ more, place.loc = here ++ more := by
  induction h with
  | stop here => exact ⟨[], (List.append_nil here).symm⟩
  | idle _ _ ih => exact ih fun hmem => hdots (List.mem_cons_of_mem _ hmem)
  | up => simp at hdots
  | @last here piece => exact ⟨[piece], rfl⟩
  | @down here piece _ _ _ _ _ _ _ ih =>
    obtain ⟨more, hmore⟩ := ih fun hmem => hdots (List.mem_cons_of_mem _ hmem)
    exact ⟨piece :: more, by rw [hmore, List.append_assoc, List.singleton_append]⟩

/-- Pieces without two dots lead to a file in every tree that has it. -/
theorem Leads.of_file {bytes : ByteArray} (h : t.Leads here pieces place) (hdots : [dot, dot] ∉ pieces)
    (hfile : t.find? place.loc = some (.file bytes)) (ht' : t'.Proper)
    (hfile' : t'.find? place.loc = some (.file bytes)) : t'.Leads here pieces place := by
  induction h with
  | stop here => exact .stop here
  | idle hidle _ ih =>
    exact .idle hidle (ih (fun hmem => hdots (List.mem_cons_of_mem _ hmem)) hfile hfile')
  | up => simp at hdots
  | last hname hlast => exact .last hname hlast
  | @down here piece rest place hname hlast hshort hdir hrest ih =>
    have hdots' : [dot, dot] ∉ rest := fun hmem => hdots (List.mem_cons_of_mem _ hmem)
    obtain ⟨more, hmore⟩ := hrest.exists_loc_eq hdots'
    have hne : more ≠ [] := by
      rintro rfl
      rw [hmore, List.append_nil, hdir] at hfile
      cases hfile
    exact .down hname hlast hshort (ht'.find?_of_append hne (hmore ▸ hfile')) (ih hdots' hfile hfile')

theorem Leads.mono (hleads : t.Leads here pieces place)
    (hkeep : ∀ loc, t.find? loc = some .directory → t'.find? loc = some .directory) :
    t'.Leads here pieces place := by
  induction hleads with
  | stop here => exact .stop here
  | idle hidle _ ih => exact .idle hidle ih
  | up _ ih => exact .up ih
  | last hname hlast => exact .last hname hlast
  | down hname hlast hshort hdir _ ih => exact .down hname hlast hshort (hkeep _ hdir) ih

theorem Leads.loc_eq (hleads : t.Leads here pieces place) :
    place.loc = (pieces.filterMap Path.Component.ofPiece?).foldl Path.move here := by
  induction hleads with
  | stop here => rfl
  | idle hidle _ ih => rw [List.filterMap_cons_none (Path.ofPiece?_of_isIdlePiece hidle), ih]
  | up _ ih => exact ih
  | last hname hlast =>
    rw [List.filterMap_cons_some (Path.ofPiece?_of_isName hname), List.foldl_cons,
      Path.filterMap_ofPiece?_of_all_empty hlast]
    rfl
  | down hname _ _ _ _ ih =>
    rw [List.filterMap_cons_some (Path.ofPiece?_of_isName hname), List.foldl_cons, ih]
    rfl

theorem Leads.isIn (ht : t.Proper) (hleads : t.Leads here pieces place)
    (hhere : t.find? here = some .directory) : place.IsIn t := by
  induction hleads with
  | stop here => exact hhere
  | idle _ _ ih => exact ih hhere
  | up _ ih => exact ih (ht.find?_dropLast hhere)
  | last hname _ => exact ⟨_, _, rfl, hname, hhere⟩
  | down _ _ _ hdir _ ih => exact ih hdir

theorem leads_of_names (ht : t.Proper) {names : Location} {node : Node} (hne : names ≠ [])
    (hshort : ∀ name ∈ names, name.length ≤ nameLimit)
    (hfind : t.find? (here ++ names) = some node) :
    t.Leads here names (.named (here ++ names) false) := by
  induction names generalizing here with
  | nil => exact absurd rfl hne
  | cons name names ih =>
    have hname : IsName name := ht.isName_of_find? hfind (by simp)
    have happend : here ++ name :: names = (here ++ [name]) ++ names := by simp
    obtain ⟨hfirst, hrest⟩ := List.forall_mem_cons.1 hshort
    by_cases hnil : names = []
    · subst hnil
      exact .last hname rfl
    · have hlast : names.all List.isEmpty = false := by
        obtain ⟨next, others, rfl⟩ := List.exists_cons_of_ne_nil hnil
        have hnext : IsName next := ht.isName_of_find? hfind (by simp)
        simp [hnext.ne_nil]
      rw [happend] at hfind ⊢
      refine .down hname hlast ?_ (ht.find?_of_append hnil hfind) (ih hnil hrest hfind)
      intro last hlast
      obtain rfl : name = last := by simpa using hlast
      exact hfirst

theorem isShort_of_leads {names : Location} (hleads : t.Leads here names place)
    (hnames : ∀ name ∈ names, IsName name) (hlast : place.IsShort) :
    ∀ name ∈ names, name.length ≤ nameLimit := by
  induction hleads with
  | stop => simp
  | idle hidle => exact absurd hidle (hnames _ List.mem_cons_self).not_isIdlePiece
  | up => exact absurd rfl (hnames [dot, dot] (by simp)).ne_dots
  | @last here piece rest hname hempty =>
    obtain ⟨-, hrest⟩ := List.forall_mem_cons.1 hnames
    have hnil : rest = [] := by
      apply List.eq_nil_iff_forall_not_mem.2
      intro other hother
      exact (hrest other hother).ne_nil (by simpa using List.all_eq_true.1 hempty other hother)
    subst hnil
    simpa using hlast piece (by simp)
  | @down here piece rest place hname _ hshort _ _ ih =>
    obtain ⟨-, hrest⟩ := List.forall_mem_cons.1 hnames
    exact List.forall_mem_cons.2 ⟨hshort piece (by simp), ih hrest hlast⟩

end Leads

end Tree

end TextCatalog.Disk
