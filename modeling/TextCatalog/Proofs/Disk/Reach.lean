import TextCatalog.Proofs.Disk.Walk
import TextCatalog.Proofs.Path.Below

/-!
# Absolute paths in a proper tree

An absolute path ends at its location, if the tree has the directories on the way. The operations on
such a path ask for what stands at its location and change nothing but that.
-/

namespace TextCatalog.Disk.Tree

open RawText (slash dot)
open TextCatalog.Path (IsName)

variable {t t' : Tree} {cwd p : Path} {follows : Bool → Bool} {place : Place} {node : Node}

section Leads

theorem leads_of_resolve (ht : t.Proper) (h : t.resolve cwd follows p = .ok place) :
    unfit? p = none ∧ t.Leads [] (cwd.join p).pieces place := by
  rw [resolve] at h
  split at h
  next => cases h
  next hfit =>
    exact ⟨hfit, leads_of_walk ht (fun _ hpiece => Text.not_mem_of_mem_splitList hpiece) h⟩

theorem resolve_of_leads (ht : t.Proper) (hfit : unfit? p = none)
    (hleads : t.Leads [] (cwd.join p).pieces place) (hshort : place.IsShort) :
    t.resolve cwd follows p = .ok place := by
  rw [resolve, hfit]
  exact walk_of_leads ht hleads hshort

theorem nodeAt_eq_ok_iff (hin : place.IsIn t) :
    t.nodeAt place = .ok node ↔ place.IsShort ∧ t.find? place.loc = some node ∧
      (place.hasSlash = true → node = .directory) := by
  cases place with
  | unnamed loc =>
    have hdir : t.find? loc = some .directory := hin
    simp [nodeAt, Place.IsShort, Place.loc, Place.hasSlash, hdir]
  | named loc slash =>
    constructor
    · intro h
      rw [nodeAt] at h
      split at h
      next => cases h
      next => cases h
      next found hlook =>
        obtain ⟨hshort, hfind⟩ := of_look_eq_ok hlook
        split at h
        · cases h
        next hslash =>
          obtain rfl := Except.ok.inj h
          refine ⟨hshort, hfind.symm, fun hs => ?_⟩
          by_contra hne
          exact hslash ⟨hs, hne⟩
    · rintro ⟨hshort, hfind, hslash⟩
      have hfind : t.find? loc = some node := hfind
      have hkind : ¬ (slash = true ∧ node ≠ .directory) := fun h => h.2 (hslash h.1)
      rw [nodeAt, look_of_isShort hshort, hfind]
      simp only
      rw [if_neg hkind]

/-- What a path names is what stands where it leads. -/
theorem node_eq_ok_iff_leads (ht : t.Proper) :
    t.node cwd p = .ok node ↔ ∃ place, unfit? p = none ∧ t.Leads [] (cwd.join p).pieces place ∧
      place.IsShort ∧ t.find? place.loc = some node ∧ (place.hasSlash = true → node = .directory) := by
  constructor
  · intro h
    rw [Tree.node] at h
    split at h
    next => cases h
    next place hresolve =>
      obtain ⟨hfit, hleads⟩ := leads_of_resolve ht hresolve
      exact ⟨place, hfit, hleads, (nodeAt_eq_ok_iff (hleads.isIn ht rfl)).1 h⟩
  · rintro ⟨place, hfit, hleads, hshort, hthere⟩
    rw [Tree.node, resolve_of_leads ht hfit hleads hshort]
    exact (nodeAt_eq_ok_iff (hleads.isIn ht rfl)).2 ⟨hshort, hthere⟩

end Leads

/-- The absolute path leads to the place. -/
structure Reaches (t : Tree) (p : Path) (place : Place) : Prop where
  fit : unfit? p = none
  leads : t.Leads [] p.pieces place

section Resolve

theorem reaches_of_resolve (ht : t.Proper) (hp : p.isAbsolute = true)
    (h : t.resolve cwd follows p = .ok place) : t.Reaches p place := by
  obtain ⟨hfit, hleads⟩ := leads_of_resolve ht h
  rw [Path.join_of_isAbsolute cwd hp] at hleads
  exact ⟨hfit, hleads⟩

theorem Reaches.resolve (h : t.Reaches p place) (ht : t.Proper) (hp : p.isAbsolute = true)
    (hshort : place.IsShort) : t.resolve cwd follows p = .ok place := by
  refine resolve_of_leads ht h.fit ?_ hshort
  rw [Path.join_of_isAbsolute cwd hp]
  exact h.leads

theorem Reaches.loc_eq (h : t.Reaches p place) : place.loc = p.location :=
  h.leads.loc_eq

theorem Reaches.isIn (h : t.Reaches p place) (ht : t.Proper) : place.IsIn t :=
  h.leads.isIn ht rfl

theorem Reaches.mono (h : t.Reaches p place)
    (hkeep : ∀ loc, t.find? loc = some .directory → t'.find? loc = some .directory) :
    t'.Reaches p place :=
  ⟨h.fit, h.leads.mono hkeep⟩

theorem node_eq_ok_iff (ht : t.Proper) (hp : p.isAbsolute = true) :
    t.node cwd p = .ok node ↔ ∃ place, t.Reaches p place ∧ place.IsShort ∧
      t.find? p.location = some node ∧ (place.hasSlash = true → node = .directory) := by
  rw [node_eq_ok_iff_leads ht, Path.join_of_isAbsolute cwd hp]
  constructor
  · rintro ⟨place, hfit, hleads, hshort, hfind, hslash⟩
    have hreach : t.Reaches p place := ⟨hfit, hleads⟩
    exact ⟨place, hreach, hshort, hreach.loc_eq ▸ hfind, hslash⟩
  · rintro ⟨place, hreach, hshort, hfind, hslash⟩
    exact ⟨place, hreach.fit, hreach.leads, hshort, hreach.loc_eq ▸ hfind, hslash⟩

theorem read_eq_ok_iff {bytes : ByteArray} :
    t.read cwd p = .ok bytes ↔ t.node cwd p = .ok (.file bytes) := by
  rw [Tree.read]
  split
  next h => simp [h]
  next h => simp [h]
  next node hfile h =>
    rw [h]
    constructor
    · intro heq
      cases heq
    · intro heq
      exact absurd (Except.ok.inj heq) (hfile bytes)

theorem contents_eq (ht : t.Proper) (hp : p.isAbsolute = true)
    (h : t.node cwd p = .ok .directory) : t.contents cwd p = .ok (t.listing p p.location) := by
  obtain ⟨place, hreach, hshort, hfind, hslash⟩ := (node_eq_ok_iff ht hp).1 h
  have hnode := (nodeAt_eq_ok_iff (hreach.isIn ht)).2 ⟨hshort, hreach.loc_eq ▸ hfind, hslash⟩
  rw [contents, hreach.resolve ht hp hshort]
  simp only
  rw [hnode, hreach.loc_eq]

end Resolve

section Normal

open TextCatalog.Path (Way)

variable {t : Tree} {cwd : Path} {loc : Location} {w : Way} {node : Node}

/-- The normal path that leads this way can be asked for: it is not too long, and neither are its
names. -/
structure FitsWay (w : Way) : Prop where
  fit : unfit? w.path = none
  short : ∀ name ∈ w.names, name.length ≤ nameLimit

/-- The normal path of the location can be asked for: it is not too long, and neither are its
names. -/
structure Fits (loc : Location) : Prop where
  fit : unfit? (Path.ofLocation loc) = none
  short : ∀ name ∈ loc, name.length ≤ nameLimit

theorem fits_iff : Fits loc ↔ FitsWay ⟨0, loc⟩ :=
  ⟨fun h => ⟨h.fit, h.short⟩, fun h => ⟨h.fit, h.short⟩⟩

/-- A way is no longer than what leads on from it. -/
theorem FitsWay.of_below {names : Location} (h : FitsWay (w.below names)) : FitsWay w := by
  refine ⟨?_, fun name hname => h.short name (List.mem_append_left names hname)⟩
  obtain ⟨more, htext⟩ := w.exists_text_below names
  have hne : w.path.text ≠ [] := Path.text_ne_nil_of_isAbsolute w.isAbsolute_path
  have hfit := h.fit
  rw [unfit?] at hfit ⊢
  split at hfit
  · cases hfit
  next hnul =>
    split at hfit
    · cases hfit
    · split at hfit
      · cases hfit
      next hlong =>
        rw [htext] at hnul hlong
        rw [if_neg, if_neg hne, if_neg]
        · rw [List.length_append] at hlong
          omega
        · intro hmem
          simp_all

theorem Fits.of_append {above names : Location} (h : Fits (above ++ names)) : Fits above :=
  fits_iff.2 (FitsWay.of_below (w := ⟨0, above⟩) (fits_iff.1 h))

theorem leads_empty_iff {here : Location} {rest : List RawText} {place : Place} :
    t.Leads here ([] :: rest) place ↔ t.Leads here rest place := by
  refine ⟨fun h => ?_, .idle rfl⟩
  generalize hpieces : [] :: rest = pieces at h
  cases h with
  | stop => cases hpieces
  | idle _ hrest =>
    obtain ⟨-, rfl⟩ := List.cons.inj hpieces
    exact hrest
  | up => simp at hpieces
  | last hname => exact absurd (List.cons.inj hpieces).1.symm hname.ne_nil
  | down hname => exact absurd (List.cons.inj hpieces).1.symm hname.ne_nil

theorem leads_up_iff {here : Location} {rest : List RawText} {place : Place} :
    t.Leads here ([dot, dot] :: rest) place ↔ t.Leads here.dropLast rest place := by
  refine ⟨fun h => ?_, .up⟩
  generalize hpieces : [dot, dot] :: rest = pieces at h
  cases h with
  | stop => cases hpieces
  | idle hidle =>
    obtain ⟨rfl, -⟩ := List.cons.inj hpieces
    cases hidle
  | up hrest =>
    obtain ⟨-, rfl⟩ := List.cons.inj hpieces
    exact hrest
  | last hname => exact absurd (List.cons.inj hpieces).1.symm hname.ne_dots
  | down hname => exact absurd (List.cons.inj hpieces).1.symm hname.ne_dots

/-- Above the root directory there is only the root directory. -/
theorem leads_ups_iff {k : Nat} {rest : List RawText} {place : Place} :
    t.Leads [] (List.replicate k [dot, dot] ++ rest) place ↔ t.Leads [] rest place := by
  induction k with
  | zero => rfl
  | succ k ih => rw [List.replicate_succ, List.cons_append, leads_up_iff, List.dropLast_nil, ih]

theorem leads_path_iff {place : Place} (hw : ∀ name ∈ w.names, IsName name) :
    t.Leads [] w.path.pieces place ↔ t.Leads [] w.names place := by
  rw [Way.pieces_path hw, leads_empty_iff]
  split
  next hnil =>
    obtain ⟨-, hnames⟩ := List.append_eq_nil_iff.1 hnil
    rw [leads_empty_iff, hnames]
  next => exact leads_ups_iff

/-- A normal path names what stands at its names, if it can be asked for. -/
theorem node_path_iff (ht : t.Proper) (hw : ∀ name ∈ w.names, IsName name) :
    t.node cwd w.path = .ok node ↔ FitsWay w ∧ t.find? w.names = some node := by
  rw [node_eq_ok_iff ht w.isAbsolute_path, Way.location_path hw]
  constructor
  · rintro ⟨place, hreach, hshort, hfind, -⟩
    exact ⟨⟨hreach.fit, isShort_of_leads ((leads_path_iff hw).1 hreach.leads) hw hshort⟩, hfind⟩
  · rintro ⟨hfits, hfind⟩
    by_cases hne : w.names = []
    · have hleads : t.Leads [] w.names (.unnamed []) := by
        rw [hne]
        exact .stop []
      exact ⟨.unnamed [], ⟨hfits.fit, (leads_path_iff hw).2 hleads⟩, trivial, hfind,
        by simp [Place.hasSlash]⟩
    · have hleads := leads_of_names ht hne hfits.short (List.nil_append w.names ▸ hfind)
      refine ⟨.named w.names false, ⟨hfits.fit, (leads_path_iff hw).2 hleads⟩, ?_, hfind,
        by simp [Place.hasSlash]⟩
      intro name hname
      exact hfits.short name (List.mem_of_getLast? hname)

end Normal

section Operations

variable {t t' : Tree} {cwd p target : Path} {bytes : ByteArray}

theorem exists_of_write (h : t.write cwd p bytes = .ok t') :
    ∃ loc, t.resolve cwd (fun slash => !slash) p = .ok (.named loc false) ∧ loc.IsShort ∧
      t.find? loc ≠ some .directory ∧ t' = t.put loc (.file bytes) := by
  rw [write] at h
  split at h
  next => cases h
  next => cases h
  next => cases h
  next loc hresolve =>
    split at h
    next => cases h
    next => cases h
    next found hdir hlook =>
      obtain ⟨hshort, rfl⟩ := of_look_eq_ok hlook
      exact ⟨loc, hresolve, hshort, hdir, (Except.ok.inj h).symm⟩

theorem exists_of_add (h : t.add cwd p .directory = .ok t') :
    ∃ loc slash, t.resolve cwd (fun _ => false) p = .ok (.named loc slash) ∧ loc.IsShort ∧
      t.find? loc = none ∧ t' = t.put loc .directory := by
  rw [add] at h
  split at h
  next => cases h
  next => cases h
  next loc slash hresolve =>
    split at h
    next => cases h
    next => cases h
    next hlook =>
      rw [if_neg (by simp)] at h
      obtain ⟨hshort, hnone⟩ := of_look_eq_ok hlook
      exact ⟨loc, slash, hresolve, hshort, hnone.symm, (Except.ok.inj h).symm⟩

theorem exists_of_rename (h : t.rename cwd p target = .ok t') :
    ∃ old new node, t.resolve cwd (fun _ => false) p = .ok (.named old false) ∧
      t.resolve cwd (fun _ => false) target = .ok (.named new false) ∧ new.IsShort ∧
      t.find? new ≠ some .directory ∧ t.find? old = some node ∧ node ≠ .directory ∧
      t' = (t.erase old).put new node := by
  rw [rename] at h
  split at h
  next => cases h
  next => cases h
  next => cases h
  next => cases h
  next old slash new slash' hold hnew =>
    split at h
    next => cases h
    next => cases h
    next => cases h
    next => cases h
    next node there hdir hlook hlook' =>
      obtain ⟨-, hfind⟩ := of_look_eq_ok hlook
      obtain ⟨hshort, rfl⟩ := of_look_eq_ok hlook'
      split at h
      · cases h
      next hslash =>
        obtain ⟨rfl, rfl⟩ : slash = false ∧ slash' = false := by simpa using hslash
        split at h
        · cases h
        next hthere =>
          exact ⟨old, new, node, hold, hnew, hshort, hthere, hfind.symm, hdir, (Except.ok.inj h).symm⟩

theorem of_write_eq_ok (ht : t.Proper) (hp : p.isAbsolute = true)
    (h : t.write cwd p bytes = .ok t') :
    t.Reaches p (.named p.location false) ∧ Location.IsShort p.location ∧
      t.find? p.location ≠ some .directory ∧ t' = t.put p.location (.file bytes) := by
  obtain ⟨loc, hresolve, hshort, hdir, rfl⟩ := exists_of_write h
  have hreach := reaches_of_resolve ht hp hresolve
  obtain rfl : loc = p.location := hreach.loc_eq
  exact ⟨hreach, hshort, hdir, rfl⟩

theorem of_add_eq_ok (ht : t.Proper) (hp : p.isAbsolute = true)
    (h : t.add cwd p .directory = .ok t') :
    ∃ slash, t.Reaches p (.named p.location slash) ∧ Location.IsShort p.location ∧
      t.find? p.location = none ∧ t' = t.put p.location .directory := by
  obtain ⟨loc, slash, hresolve, hshort, hnone, rfl⟩ := exists_of_add h
  have hreach := reaches_of_resolve ht hp hresolve
  obtain rfl : loc = p.location := hreach.loc_eq
  exact ⟨slash, hreach, hshort, hnone, rfl⟩

theorem of_remove_eq_ok (ht : t.Proper) (hp : p.isAbsolute = true)
    (h : t.remove cwd p = .ok t') :
    t.find? p.location ≠ none ∧ t.find? p.location ≠ some .directory ∧
      t' = t.erase p.location := by
  rw [remove] at h
  split at h
  next => cases h
  next => cases h
  next loc slash hresolve =>
    obtain rfl : loc = p.location := (reaches_of_resolve ht hp hresolve).loc_eq
    split at h
    next => cases h
    next => cases h
    next => cases h
    next node hdir hlook =>
      obtain ⟨-, hfind⟩ := of_look_eq_ok hlook
      split at h
      · cases h
      · rw [← hfind]
        exact ⟨by simp, fun hnode => hdir (Option.some.inj hnode), (Except.ok.inj h).symm⟩

theorem of_rename_eq_ok (ht : t.Proper) (hp : p.isAbsolute = true) (htarget : target.isAbsolute = true)
    (h : t.rename cwd p target = .ok t') :
    t.Reaches target (.named target.location false) ∧ Location.IsShort target.location ∧
      t.find? target.location ≠ some .directory ∧
      ∃ node, t.find? p.location = some node ∧ node ≠ .directory ∧
        t' = (t.erase p.location).put target.location node := by
  obtain ⟨old, new, node, hold, hnew, hshort, hthere, hfind, hdir, rfl⟩ := exists_of_rename h
  obtain rfl : old = p.location := (reaches_of_resolve ht hp hold).loc_eq
  have hreach := reaches_of_resolve ht htarget hnew
  obtain rfl : new = target.location := hreach.loc_eq
  exact ⟨hreach, hshort, hthere, node, hfind, hdir, rfl⟩

end Operations

end TextCatalog.Disk.Tree
