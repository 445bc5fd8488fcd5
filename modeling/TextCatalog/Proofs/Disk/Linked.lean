import TextCatalog.Proofs.Disk.Change

/-!
# Paths in a tree with links

Where a path leads in a tree with links depends on all that stands on the way. It leads to the same place
in a later tree, unless it ends there in a file that is new. The name at which it ends is the last of its
pieces, unless a link at that name is followed.
-/

namespace TextCatalog.Disk.Tree

open RawText (slash)

variable {t t' t'' : Tree} {follows : Bool → Bool} {links : Nat} {here loc : Location}
  {pieces : List RawText} {place place' : Place} {places others : Location → Prop}
  {pass pass' : Location → List RawText → Except Cause Place}

section Later

/-- Whether a path can go on behind what stands somewhere. -/
def LeadsOn : Option Node → Prop
  | some .directory | some (.link _) => True
  | some (.file _) | none => False

/-- Ways through `t` are ways through `t'`, but for the places, at which `t'` has files: elsewhere it has
what `t` has, or no way goes on in `t` and there is no link in `t'`. -/
def KeepsWays (places : Location → Prop) (t t' : Tree) : Prop :=
  ∀ loc, (places loc ∧ ∃ bytes, t'.find? loc = some (.file bytes)) ∨ t'.find? loc = t.find? loc ∨
    ¬ LeadsOn (t.find? loc) ∧ ∀ target, t'.find? loc ≠ some (.link target)

theorem KeepsWays.of_link (h : KeepsWays places t t') {target : Path}
    (hlink : t.find? loc = some (.link target)) :
    (places loc ∧ ∃ bytes, t'.find? loc = some (.file bytes)) ∨ t'.find? loc = some (.link target) := by
  rcases h loc with hfile | hsame | ⟨hleaf, -⟩
  · exact .inl hfile
  · exact .inr (hsame.trans hlink)
  · rw [hlink] at hleaf
    exact absurd trivial hleaf

theorem KeepsWays.of_directory (h : KeepsWays places t t') (hdir : t.find? loc = some .directory) :
    (∃ bytes, t'.find? loc = some (.file bytes)) ∨ t'.find? loc = some .directory := by
  rcases h loc with hfile | hsame | ⟨hleaf, -⟩
  · exact .inl hfile.2
  · exact .inr (hsame.trans hdir)
  · rw [hdir] at hleaf
    exact absurd trivial hleaf

/-- Walks along the same pieces, of which the later follows every link, end at the same place, or the
later one at a new file. -/
theorem KeepsWays.walkBy_eq (h : KeepsWays places t t')
    (hpass : ∀ here pieces, pass here pieces = .ok place → pass' here pieces = .ok place' →
      place' = place ∨ places place'.loc)
    (hend : ∀ target, t'.find? place.loc ≠ some (.link target))
    (hwalk : t.walkBy follows pass here pieces = .ok place)
    (hwalk' : t'.walkBy (fun _ => true) pass' here pieces = .ok place') :
    place' = place ∨ places place'.loc := by
  replace hwalk := goes_of_walkBy hwalk
  -- The later walk goes on as the earlier does, if there is no new file at the name.
  induction hwalk with
  | arrives hplace =>
    rw [walkBy] at hwalk'
    exact .inl ((Except.ok.inj hwalk').symm.trans hplace.symm)
  | idle hidle _ ih =>
    rw [walkBy, if_pos hidle] at hwalk'
    exact ih hwalk'
  | up _ ih =>
    rw [walkBy, if_neg (by decide), if_pos rfl] at hwalk'
    exact ih hwalk'
  | stops hidle hdots hlast hplace =>
    cases goes_of_walkBy hwalk' with
    | idle hidle' => exact absurd hidle' hidle
    | up => exact absurd rfl hdots
    | stops _ _ _ hplace' => exact .inl (hplace'.trans hplace.symm)
    | @follows _ _ _ target _ _ _ _ hlink =>
      rw [hplace] at hend
      exact absurd hlink (hend target)
    | enters _ _ hmore => simp [hlast] at hmore
  | follows hidle hdots _ _ hlink hpassed =>
    cases goes_of_walkBy hwalk' with
    | idle hidle' => exact absurd hidle' hidle
    | up => exact absurd rfl hdots
    | stops _ _ _ hplace' hfound =>
      rcases h.of_link hlink with ⟨hplace, -⟩ | hlink'
      · exact .inr (hplace' ▸ hplace)
      · exact absurd hlink' ((hfound rfl).2 _)
    | follows _ _ _ _ hfound hpassed' =>
      rcases h.of_link hlink with ⟨-, bytes, hfile⟩ | hlink'
      · simp [hfile] at hfound
      · obtain rfl : _ = _ := Node.link.inj (Option.some.inj (hlink'.symm.trans hfound))
        exact hpass _ _ hpassed hpassed'
    | enters _ _ _ _ hdir =>
      rcases h.of_link hlink with ⟨-, bytes, hfile⟩ | hlink' <;> simp_all
  | enters hidle hdots hmore _ hdir _ ih =>
    cases goes_of_walkBy hwalk' with
    | idle hidle' => exact absurd hidle' hidle
    | up => exact absurd rfl hdots
    | stops _ _ hlast => simp [hmore] at hlast
    | follows _ _ _ _ hlink => rcases h.of_directory hdir with ⟨bytes, hfile⟩ | hdir' <;> simp_all
    | enters _ _ _ _ _ hrest => exact ih hrest.walkBy_eq

theorem KeepsWays.walk_eq (h : KeepsWays places t t')
    (hend : ∀ target, t'.find? place.loc ≠ some (.link target))
    (hwalk : walk t follows links here pieces = .ok place)
    (hwalk' : walk t' (fun _ => true) links here pieces = .ok place') :
    place' = place ∨ places place'.loc := by
  induction links generalizing here pieces with
  | zero => exact h.walkBy_eq (fun _ _ hpass => by cases hpass) hend hwalk hwalk'
  | succ links ih => exact h.walkBy_eq (fun _ _ => ih) hend hwalk hwalk'

theorem KeepsWays.resolve_eq (h : KeepsWays places t t') {cwd p : Path}
    (hend : ∀ target, t'.find? place.loc ≠ some (.link target))
    (hresolve : t.resolve cwd follows p = .ok place)
    (hresolve' : t'.resolve cwd (fun _ => true) p = .ok place') :
    place' = place ∨ places place'.loc := by
  rw [resolve] at hresolve hresolve'
  cases hfit : unfit? p with
  | some cause =>
    rw [hfit] at hresolve
    cases hresolve
  | none =>
    rw [hfit] at hresolve hresolve'
    exact h.walk_eq hend hresolve hresolve'

end Later

section Last

open TextCatalog.Path (lastPiece? isIdlePiece ofPiece?_of_not_isIdlePiece)

theorem lastPiece?_append (pieces rest : List RawText) :
    lastPiece? (pieces ++ rest) = (lastPiece? rest).or (lastPiece? pieces) := by
  rw [lastPiece?, List.reverse_append, List.find?_append, lastPiece?, lastPiece?]

theorem lastPiece?_cons (piece : RawText) (rest : List RawText) :
    lastPiece? (piece :: rest) = (lastPiece? rest).or (if piece = [] then none else some piece) := by
  rw [← List.singleton_append, lastPiece?_append]
  by_cases h : piece = [] <;> simp [lastPiece?, h]

theorem lastPiece?_eq_none_iff : lastPiece? pieces = none ↔ pieces.all List.isEmpty = true := by
  simp [lastPiece?]

theorem lastPiece?_cons_of_ne_none (h : lastPiece? pieces ≠ none) (piece : RawText) :
    lastPiece? (piece :: pieces) = lastPiece? pieces := by
  obtain ⟨last, hlast⟩ := Option.ne_none_iff_exists'.1 h
  rw [lastPiece?_cons, hlast, Option.some_or]

theorem lastPiece?_ne_none_of_more (h : pieces.all List.isEmpty = false) : lastPiece? pieces ≠ none := by
  rw [Ne, lastPiece?_eq_none_iff, h]
  decide

theorem eq_of_lastPiece?_cons {piece last : RawText} (hidle : ¬ isIdlePiece piece = true)
    (hempty : pieces.all List.isEmpty = true) (h : lastPiece? (piece :: pieces) = some last) :
    piece = last := by
  have hpiece : piece ≠ [] := by
    rintro rfl
    exact hidle rfl
  rw [lastPiece?_cons, lastPiece?_eq_none_iff.2 hempty, if_neg hpiece] at h
  exact Option.some.inj h

theorem walkBy_of_all_empty (h : pieces.all List.isEmpty = true) :
    t.walkBy follows pass here pieces = .ok (.unnamed here) := by
  induction pieces with
  | nil => rw [walkBy]
  | cons piece rest ih =>
    obtain ⟨hpiece, hrest⟩ := Bool.and_eq_true_iff.1 (List.all_cons.symm.trans h)
    obtain rfl : piece = [] := by simpa using hpiece
    rw [walkBy, if_pos (by decide), ih hrest]

/-- A walk does not come to a name where none is left. -/
theorem Goes.lastPiece?_ne_none {loc : Location} {slash : Bool}
    (h : t.Goes follows pass (.named loc slash) here pieces) : lastPiece? pieces ≠ none := by
  intro hnone
  have hwalk := h.walkBy_eq
  rw [walkBy_of_all_empty (lastPiece?_eq_none_iff.1 hnone)] at hwalk
  cases hwalk

/-- The walk ends at the name `last`, or a link at that name is followed. -/
structure EndsBy (t : Tree) (follows : Bool → Bool) (last : RawText) (loc : Location) : Prop where
  isName : Path.Component.ofPiece? last = some (.name last)
  found : (∃ dir, loc = dir ++ [last]) ∨
    (∃ slash, follows slash = true) ∧ ∃ dir target, t.find? (dir ++ [last]) = some (.link target)

variable {last : RawText} {slash : Bool}

theorem endsBy_of_walkBy
    (hpass : ∀ here pieces, lastPiece? pieces = some last →
      pass here pieces = .ok (.named loc slash) → t.EndsBy follows last loc)
    (hlast : lastPiece? pieces = some last)
    (h : t.walkBy follows pass here pieces = .ok (.named loc slash)) : t.EndsBy follows last loc := by
  replace h := goes_of_walkBy h
  induction h with
  | arrives => cases hlast
  | idle _ hrest ih =>
    rw [lastPiece?_cons_of_ne_none hrest.lastPiece?_ne_none] at hlast
    exact ih hlast
  | up hrest ih =>
    rw [lastPiece?_cons_of_ne_none hrest.lastPiece?_ne_none] at hlast
    exact ih hlast
  | @stops here piece rest hidle hdots hempty hplace =>
    obtain rfl := eq_of_lastPiece?_cons hidle hempty hlast
    exact ⟨ofPiece?_of_not_isIdlePiece hidle hdots, .inl ⟨here, (Place.named.inj hplace).1⟩⟩
  | @follows here piece rest target hidle hdots hfollows hshort hlink hpassed =>
    cases hempty : rest.all List.isEmpty with
    | true =>
      obtain rfl := eq_of_lastPiece?_cons hidle hempty hlast
      exact ⟨ofPiece?_of_not_isIdlePiece hidle hdots, .inr ⟨⟨_, hfollows hempty⟩, here, target, hlink⟩⟩
    | false =>
      have hrest := lastPiece?_ne_none_of_more hempty
      rw [lastPiece?_cons_of_ne_none hrest] at hlast
      exact hpass _ _ (by rw [lastPiece?_append, hlast, Option.some_or]) hpassed
  | enters _ _ hmore _ _ _ ih =>
    rw [lastPiece?_cons_of_ne_none (lastPiece?_ne_none_of_more hmore)] at hlast
    exact ih hlast

theorem endsBy_of_walk (hlast : lastPiece? pieces = some last)
    (h : walk t follows links here pieces = .ok (.named loc slash)) : t.EndsBy follows last loc := by
  induction links generalizing here pieces with
  | zero => exact endsBy_of_walkBy (fun _ _ _ hpass => by cases hpass) hlast h
  | succ links ih => exact endsBy_of_walkBy (fun _ _ => ih) hlast h

theorem endsBy_of_resolve {cwd p : Path} (hp : p.isAbsolute = true)
    (h : t.resolve cwd follows p = .ok (.named loc slash)) :
    ∃ last, lastPiece? p.pieces = some last ∧ t.EndsBy follows last loc := by
  rw [resolve, Path.join_of_isAbsolute cwd hp] at h
  split at h
  · cases h
  · cases hlast : lastPiece? p.pieces with
    | some last => exact ⟨last, rfl, endsBy_of_walk hlast h⟩
    | none =>
      have hempty := lastPiece?_eq_none_iff.1 hlast
      rw [linkLimit, walk, walkBy_of_all_empty hempty] at h
      cases h

/-- If no link at its end is followed, a path ends at one of its own names. -/
theorem exists_name_of_resolve {cwd p : Path} (hp : p.isAbsolute = true)
    (h : t.resolve cwd (fun _ => false) p = .ok (.named loc slash)) :
    ∃ dir last, loc = dir ++ [last] ∧ .name last ∈ p.steps := by
  obtain ⟨last, hlast, hends⟩ := endsBy_of_resolve hp h
  have hmem : last ∈ p.pieces := List.mem_reverse.1 (List.mem_of_find?_eq_some hlast)
  rcases hends.found with ⟨dir, rfl⟩ | ⟨⟨_, hfollows⟩, -⟩
  · exact ⟨dir, last, rfl, List.mem_filterMap.2 ⟨last, hmem, hends.isName⟩⟩
  · cases hfollows

/-- A path that ends where nothing stands ends there again when something has been put there, with no link
followed at its end, if no link has its last name. -/
theorem walkBy_put {node : Node} (hnone : t.find? loc = none)
    (hlink : ∀ dir target, t.find? (dir ++ [last]) ≠ some (.link target))
    (hpass : ∀ here pieces, lastPiece? pieces = some last →
      pass here pieces = .ok (.named loc slash) → pass' here pieces = .ok (.named loc slash))
    (hlast : lastPiece? pieces = some last)
    (h : t.walkBy follows pass here pieces = .ok (.named loc slash)) :
    (t.put loc node).walkBy (fun _ => false) pass' here pieces = .ok (.named loc slash) := by
  have hthere : ∀ {other : Location} {found : Node}, t.find? other = some found →
      (t.put loc node).find? other = some found := by
    intro other found hfound
    rw [find?_put_of_ne ?_, hfound]
    rintro rfl
    cases hnone.symm.trans hfound
  refine Goes.walkBy_eq ?_
  replace h := goes_of_walkBy h
  induction h with
  | arrives => cases hlast
  | idle hidle hrest ih =>
    rw [lastPiece?_cons_of_ne_none hrest.lastPiece?_ne_none] at hlast
    exact .idle hidle (ih hlast)
  | up hrest ih =>
    rw [lastPiece?_cons_of_ne_none hrest.lastPiece?_ne_none] at hlast
    exact .up (ih hlast)
  | stops hidle hdots hempty hplace => exact .stops hidle hdots hempty hplace (by simp)
  | @follows here piece rest target hidle hdots hfollows hshort hfound hpassed =>
    have hmore : rest.all List.isEmpty = false := by
      by_contra hempty
      obtain rfl := eq_of_lastPiece?_cons hidle (by simpa using hempty) hlast
      exact hlink here target hfound
    rw [lastPiece?_cons_of_ne_none (lastPiece?_ne_none_of_more hmore)] at hlast
    exact .follows hidle hdots (by simp [hmore]) hshort (hthere hfound)
      (hpass _ _ (by rw [lastPiece?_append, hlast, Option.some_or]) hpassed)
  | enters hidle hdots hmore hshort hdir _ ih =>
    rw [lastPiece?_cons_of_ne_none (lastPiece?_ne_none_of_more hmore)] at hlast
    exact .enters hidle hdots hmore hshort (hthere hdir) (ih hlast)

theorem walk_put {node : Node} (hnone : t.find? loc = none)
    (hlink : ∀ dir target, t.find? (dir ++ [last]) ≠ some (.link target))
    (hlast : lastPiece? pieces = some last)
    (h : walk t follows links here pieces = .ok (.named loc slash)) :
    walk (t.put loc node) (fun _ => false) links here pieces = .ok (.named loc slash) := by
  induction links generalizing here pieces with
  | zero => exact walkBy_put hnone hlink (fun _ _ _ hpass => by cases hpass) hlast h
  | succ links ih => exact walkBy_put hnone hlink (fun _ _ => ih) hlast h

theorem resolve_put {cwd p : Path} {node : Node} (hp : p.isAbsolute = true) (hnone : t.find? loc = none)
    (hlink : ∀ dir target, t.find? (dir ++ [last]) ≠ some (.link target))
    (hlast : lastPiece? p.pieces = some last) (h : t.resolve cwd follows p = .ok (.named loc slash)) :
    (t.put loc node).resolve cwd (fun _ => false) p = .ok (.named loc slash) := by
  rw [resolve, Path.join_of_isAbsolute cwd hp] at h ⊢
  split at h
  · cases h
  · exact walk_put hnone hlink hlast h

end Last

end TextCatalog.Disk.Tree
