import Mathlib.Logic.Relation
import TextCatalog.Disk.Edit
import TextCatalog.Proofs.Disk.Reach
import TextCatalog.Proofs.Disk.Run

/-!
# What a change leaves as it is

A change of a proper tree at some places keeps every directory, and elsewhere it does nothing but make
directories where nothing was, which can be opened. Bringing a file up to date and editing one are such
changes, at the location of the file alone.
-/

namespace TextCatalog.Disk

open RawText (slash dot)

namespace Tree

open TextCatalog.Path (IsName)

/-- The directory at the location can be opened by its normal path. -/
def Opens (t : Tree) (loc : Location) : Prop :=
  t.refusal? (Path.ofLocation loc) loc = none

theorem opens_iff {t : Tree} {loc : Location} :
    t.Opens loc ↔ unfit? (Path.ofLocation loc) = none ∧ loc.IsShort ∧ loc ∉ t.closed := by
  rw [Opens, refusal?]
  constructor
  · intro h
    split at h
    next => cases h
    next => cases h
    next hfit hlook =>
      obtain ⟨hshort, -⟩ := of_look_eq_ok hlook
      exact ⟨hfit, hshort, by simpa using h⟩
  · rintro ⟨hfit, hshort, hclosed⟩
    rw [hfit, look_of_isShort hshort]
    simp [hclosed]

theorem Opens.of_subset {t t' : Tree} {loc : Location} (hclosed : t'.closed ⊆ t.closed) (h : t.Opens loc) :
    t'.Opens loc := by
  obtain ⟨hfit, hshort, hopen⟩ := opens_iff.1 h
  exact opens_iff.2 ⟨hfit, hshort, fun hmem => hopen (hclosed hmem)⟩

/-- From `t` to `t'` only the places have changed, and directories have been made. All of these can be opened
but for those of `t` that could not. -/
structure Changes (places : Location → Prop) (t t' : Tree) : Prop where
  proper : t'.Proper
  directory : ∀ loc, t.find? loc = some .directory → t'.find? loc = some .directory
  elsewhere : ∀ loc, ¬ places loc →
    t'.find? loc = t.find? loc ∨ t.find? loc = none ∧ t'.find? loc = some .directory
  opens : ∀ loc, t'.find? loc = some .directory → (t.find? loc = some .directory → t.Opens loc) →
    t'.Opens loc

namespace Changes

variable {t t' t'' : Tree} {places others : Location → Prop} {loc : Location} {bytes : ByteArray}

theorem refl (places : Location → Prop) (ht : t.Proper) : t.Changes places t :=
  ⟨ht, fun _ h => h, fun _ _ => .inl rfl, fun _ hdir hopens => hopens hdir⟩

theorem trans (h : t.Changes places t') (h' : t'.Changes places t'') : t.Changes places t'' := by
  refine ⟨h'.proper, fun loc hdir => h'.directory loc (h.directory loc hdir), ?_,
    fun loc hdir hopens => h'.opens loc hdir fun hdir' => h.opens loc hdir' hopens⟩
  intro loc hloc
  rcases h.elsewhere loc hloc with hsame | ⟨hnone, hdir⟩
  · rcases h'.elsewhere loc hloc with hsame' | ⟨hnone', hdir'⟩
    · exact .inl (hsame'.trans hsame)
    · exact .inr ⟨hsame ▸ hnone', hdir'⟩
  · exact .inr ⟨hnone, h'.directory loc hdir⟩

theorem mono (h : t.Changes places t') (hsub : ∀ loc, places loc → others loc) :
    t.Changes others t' :=
  ⟨h.proper, h.directory, fun loc hloc => h.elsewhere loc fun hmem => hloc (hsub loc hmem), h.opens⟩

theorem find?_file_iff (h : t.Changes places t') (hloc : ¬ places loc) :
    t'.find? loc = some (.file bytes) ↔ t.find? loc = some (.file bytes) := by
  rcases h.elsewhere loc hloc with hsame | ⟨hnone, hdir⟩
  · rw [hsame]
  · simp [hnone, hdir]

theorem find?_ne_none (h : t.Changes places t') (hloc : ¬ places loc) (hthere : t.find? loc ≠ none) :
    t'.find? loc ≠ none := by
  rcases h.elsewhere loc hloc with hsame | ⟨hnone, -⟩
  · rwa [hsame]
  · exact absurd hnone hthere

theorem put (ht : t.Proper) {dir : Location} {name : RawText} {node : Node} (hname : IsName name)
    (hdir : t.find? dir = some .directory) (hlink : node.kind ≠ .link)
    (hfree : t.find? (dir ++ [name]) ≠ some .directory)
    (hopens : node = .directory →
      unfit? (Path.ofLocation (dir ++ [name])) = none ∧ Location.IsShort (dir ++ [name])) :
    t.Changes (· = dir ++ [name]) (t.put (dir ++ [name]) node) := by
  constructor
  · exact ht.put hname hdir hlink fun h => absurd h hfree
  · intro loc hloc
    have hne : loc ≠ dir ++ [name] := by
      intro heq
      exact hfree (heq ▸ hloc)
    rw [find?_put_of_ne hne, hloc]
  · exact fun loc hloc => .inl (find?_put_of_ne hloc)
  · intro loc hthere hopened
    by_cases hloc : loc = dir ++ [name]
    · subst hloc
      rw [find?_put_self (by simp)] at hthere
      obtain ⟨hfit, hshort⟩ := hopens (Option.some.inj hthere)
      exact opens_iff.2 ⟨hfit, hshort, by simp [Tree.put, Option.some.inj hthere]⟩
    · rw [find?_put_of_ne hloc] at hthere
      refine (hopened hthere).of_subset ?_
      rw [Tree.put]
      split
      · exact List.filter_subset_self _
      · exact List.Subset.refl _

theorem erase (ht : t.Proper) (hfile : t.find? loc ≠ some .directory) :
    t.Changes (· = loc) (t.erase loc) := by
  constructor
  · exact ht.erase hfile
  · intro other hother
    have hne : other ≠ loc := by
      intro heq
      exact hfile (heq ▸ hother)
    rw [find?_erase_of_ne hne, hother]
  · exact fun other hother => .inl (find?_erase_of_ne hother)
  · intro other hthere hopened
    have hne : other ≠ loc := by
      rintro rfl
      by_cases hroot : other = []
      · exact hfile (hroot ▸ rfl)
      · rw [find?_erase_self hroot] at hthere
        cases hthere
    rw [find?_erase_of_ne hne] at hthere
    exact (hopened hthere).of_subset (List.Subset.refl t.closed)

theorem read_eq_ok {cwd p : Path} (h : t.Changes places t') (ht : t.Proper)
    (hp : p.isAbsolute = true) (hloc : ¬ places p.location) (hread : t.read cwd p = .ok bytes) :
    t'.read cwd p = .ok bytes := by
  obtain ⟨place, hreach, hshort, hfind, hslash⟩ := (node_eq_ok_iff ht hp).1 (read_eq_ok_iff.1 hread)
  apply read_eq_ok_iff.2
  apply (node_eq_ok_iff h.proper hp).2
  exact ⟨place, hreach.mono h.directory, hshort, (h.find?_file_iff hloc).2 hfind, hslash⟩

/-- A file that is reached without two dots is read elsewhere just as before. -/
theorem read_eq_ok_iff {cwd p : Path} (h : t.Changes places t') (ht : t.Proper)
    (hp : p.isAbsolute = true) (hloc : ¬ places p.location) (hdots : [dot, dot] ∉ p.pieces) :
    t'.read cwd p = .ok bytes ↔ t.read cwd p = .ok bytes := by
  refine ⟨fun hread => ?_, h.read_eq_ok ht hp hloc⟩
  obtain ⟨place, hreach, hshort, hfind, hslash⟩ :=
    (node_eq_ok_iff h.proper hp).1 (Tree.read_eq_ok_iff.1 hread)
  have hfile := (h.find?_file_iff hloc).1 hfind
  have hleads := hreach.leads.of_file hdots (hreach.loc_eq ▸ hfind) ht (hreach.loc_eq ▸ hfile)
  apply Tree.read_eq_ok_iff.2
  apply (node_eq_ok_iff ht hp).2
  exact ⟨place, ⟨hreach.fit, hleads⟩, hshort, hfile, hslash⟩

end Changes

/-- A path is no shorter than the normal path of its location, so that one can be asked for as well. -/
theorem unfit?_ofLocation {p : Path} (hp : p.isAbsolute = true) (h : unfit? p = none) :
    unfit? (Path.ofLocation p.location) = none := by
  have hlength := Path.length_ofLocation_location hp
  have hne := Path.text_ne_nil_of_isAbsolute (Path.isAbsolute_ofLocation p.location)
  rw [unfit?] at h ⊢
  split at h
  · cases h
  next hnul =>
    split at h
    · cases h
    split at h
    · cases h
    next hlong =>
      rw [if_neg, if_neg hne, if_neg (by omega)]
      rw [List.contains_iff_mem] at hnul ⊢
      intro hmem
      rw [Path.text_ofLocation, List.mem_cons] at hmem
      rcases hmem with hslash | hmem
      · exact absurd hslash (by decide)
      · obtain hsep | ⟨n, hn, hbyte⟩ := Text.mem_of_mem_intercalateList hmem
        · exact absurd (List.mem_singleton.1 hsep) (by decide)
        · exact hnul (Text.subset_of_mem_splitList (Path.mem_pieces_of_mem_location hn) hbyte)

theorem Reaches.put {t : Tree} {p : Path} {slash : Bool} {node : Node} (ht : t.Proper)
    (h : t.Reaches p (.named p.location slash)) (hlink : node.kind ≠ .link)
    (hfree : t.find? p.location ≠ some .directory)
    (hopens : node = .directory → p.isAbsolute = true ∧ Location.IsShort p.location) :
    t.Changes (· = p.location) (t.put p.location node) := by
  obtain ⟨dir, name, hloc, hname, hdir⟩ := h.isIn ht
  have hfit : p.isAbsolute = true → unfit? (Path.ofLocation p.location) = none :=
    fun hp => unfit?_ofLocation hp h.fit
  rw [hloc] at hfree hopens hfit ⊢
  exact Changes.put ht hname hdir hlink hfree fun hnode => (hopens hnode).imp_left hfit

theorem read_put {t t' : Tree} {cwd p : Path} {bytes : ByteArray} (hp : p.isAbsolute = true)
    (ht' : t'.Proper) (hkeep : ∀ loc, t.find? loc = some .directory → t'.find? loc = some .directory)
    (hreach : t.Reaches p (.named p.location false)) (hshort : Location.IsShort p.location)
    (hfind : t'.find? p.location = some (.file bytes)) : t'.read cwd p = .ok bytes := by
  apply read_eq_ok_iff.2
  apply (node_eq_ok_iff ht' hp).2
  exact ⟨_, hreach.mono hkeep, hshort, hfind, by simp [Place.hasSlash]⟩

end Tree

section Directories

variable {t : Tree} {cwd p : Path}

/-- Operations that look for an absolute path or make a directory there. -/
def Op.MakesRoom (op : Op) : Prop :=
  ∃ p : Path, p.isAbsolute = true ∧ (op = .kind p ∨ op = .makeDirectory p)

theorem Op.MakesRoom.changes {op : Op} (hop : op.MakesRoom) (ht : t.Proper) :
    t.Changes (fun _ => False) (Tree.perform cwd op t).2 := by
  obtain ⟨p, hp, rfl | rfl⟩ := hop
  · exact .refl _ ht
  · rw [Tree.perform]
    cases hadd : t.add cwd p .directory with
    | error cause => exact .refl _ ht
    | ok t' =>
      obtain ⟨slash, hreach, hshort, hnone, rfl⟩ := Tree.of_add_eq_ok ht hp hadd
      have hput : t.Changes (· = p.location) (t.put p.location .directory) :=
        hreach.put ht (by decide) (by simp [hnone]) fun _ => ⟨hp, hshort⟩
      refine ⟨hput.proper, hput.directory, fun loc _ => ?_, hput.opens⟩
      by_cases hloc : loc = p.location
      · subst hloc
        exact .inr ⟨hnone, Tree.find?_put_self (Tree.ne_nil_of_find?_eq_none hnone)⟩
      · exact hput.elsewhere loc hloc

/-- Operations that look for one of the directories above an absolute path, or make it. -/
def Op.MakesRoomFor (p : Path) (op : Op) : Prop :=
  ∃ dir : Path, dir.isAbsolute = true ∧ dir.steps <+: p.steps.dropLast ∧
    (op = .kind dir ∨ op = .makeDirectory dir)

theorem asks_makeDirectoryIn {allowed : Op → Prop} {makeParent : Unit → Script (Except Cause Unit)}
    (hlook : allowed (.kind p)) (hmake : allowed (.makeDirectory p))
    (hparent : (makeParent ()).Asks allowed) : (makeDirectoryIn makeParent p).Asks allowed := by
  have hthere : ∀ cause : Cause, Script.Asks allowed
      (do return if ← isDirectory p then .ok () else .error cause : Script (Except Cause Unit)) := by
    have hkind : (isDirectory p).Asks allowed :=
      .step hlook fun answer => by cases answer <;> exact .done _
    exact fun cause => hkind.bind fun _ => .done _
  rw [makeDirectoryIn]
  split
  · exact .done _
  · refine .step hmake fun answer => ?_
    split
    next => exact .done _
    next =>
      refine hparent.bind fun made => ?_
      cases made with
      | error cause => exact .done _
      | ok _ =>
        refine .step hmake fun again => ?_
        cases again with
        | ok _ => exact .done _
        | error cause => exact hthere cause
    next => exact hthere _

theorem isAbsolute_ofComponents (cs : List Path.Component) :
    (Path.ofComponents (.root :: cs)).isAbsolute = true :=
  Path.isAbsolute_iff.2 ⟨_, rfl⟩

theorem asks_makeDirectoriesBy {steps : List Path.Component} {dir : Path}
    (hdir : dir.isAbsolute = true) (hsteps : dir.components = steps.reverse)
    (hsub : dir.steps <+: p.steps.dropLast) : (makeDirectoriesBy steps dir).Asks (Op.MakesRoomFor p) := by
  have hlook : Op.MakesRoomFor p (.kind dir) := ⟨dir, hdir, hsub, .inl rfl⟩
  have hmake : Op.MakesRoomFor p (.makeDirectory dir) := ⟨dir, hdir, hsub, .inr rfl⟩
  rw [Path.components_of_isAbsolute hdir] at hsteps
  induction steps generalizing dir with
  | nil => cases hsteps
  | cons step above ih =>
    rcases above.eq_nil_or_concat' with rfl | ⟨inner, top, rfl⟩
    · obtain ⟨rfl, -⟩ : _ ∧ _ := by simpa using hsteps
      exact asks_makeDirectoryIn hlook hmake (.done _)
    · obtain ⟨rfl, hinner⟩ : .root = top ∧ dir.steps = inner.reverse ++ [step] := by
        simpa using hsteps
      have hvalid : ∀ c ∈ inner.reverse, c = .parent ∨ ∃ n, c = .name n ∧ Path.IsName n := by
        intro c hc
        exact Path.mem_steps (hinner ▸ List.mem_append_left _ hc)
      have habove := Path.steps_ofComponents hvalid
      have habsolute := isAbsolute_ofComponents inner.reverse
      have hsub' : (Path.ofComponents (.root :: inner.reverse)).steps <+: p.steps.dropLast := by
        rw [habove]
        exact (hinner ▸ List.prefix_append _ _ : inner.reverse <+: dir.steps).trans hsub
      have hparent : (makeDirectoriesBy (inner ++ [Path.Component.root])
          (Path.ofComponents (inner ++ [Path.Component.root]).reverse)).Asks (Op.MakesRoomFor p) := by
        rw [List.reverse_append]
        exact ih habsolute (by simp [habove]) hsub' ⟨_, habsolute, hsub', .inl rfl⟩
          ⟨_, habsolute, hsub', .inr rfl⟩
      rw [makeDirectoriesBy]
      · exact asks_makeDirectoryIn hlook hmake hparent
      · simp

/-- Room is made for a path by directories above it. -/
theorem asks_makeRoom (hp : p.isAbsolute = true) : (makeRoom p).Asks (Op.MakesRoomFor p) := by
  rw [makeRoom]
  split
  next => exact .done _
  next dir hparent =>
    have hdir : dir = Path.ofComponents (.root :: p.steps.dropLast) := by
      rw [Path.parent?, Path.components_of_isAbsolute hp] at hparent
      split at hparent
      next => cases hparent
      next => cases hparent
      next last hroot hlast =>
        have hne : p.steps ≠ [] := by
          intro hnil
          rw [hnil] at hlast
          exact hroot (Option.some.inj hlast).symm
        rw [List.dropLast_cons_of_ne_nil hne] at hparent
        exact (Option.some.inj hparent).symm
    have hsteps : dir.steps = p.steps.dropLast := by
      rw [hdir, Path.steps_ofComponents fun c hc => Path.mem_steps (List.dropLast_subset _ hc)]
    have habsolute : dir.isAbsolute = true := hdir ▸ isAbsolute_ofComponents _
    have hprefix : dir.steps <+: p.steps.dropLast := ⟨[], by rw [List.append_nil, hsteps]⟩
    exact asks_makeDirectoriesBy habsolute dir.components.reverse_reverse.symm hprefix

theorem Op.MakesRoomFor.makesRoom {op : Op} (hop : op.MakesRoomFor p) : op.MakesRoom := by
  obtain ⟨dir, hdir, -, hop⟩ := hop
  exact ⟨dir, hdir, hop⟩

/-- From the one tree to the other, directories above the path have been looked for and made. -/
def Tree.RoomFor (cwd p : Path) : Tree → Tree → Prop :=
  Relation.ReflTransGen fun t t' => ∃ op, Op.MakesRoomFor p op ∧ (Tree.perform cwd op t).2 = t'

theorem Tree.roomFor_makeRoom (cwd : Path) (hp : p.isAbsolute = true) (t : Tree) :
    Tree.RoomFor cwd p t ((makeRoom p).run (Tree.perform cwd) t).2 :=
  (asks_makeRoom hp).run (fun _ => .refl) .trans (fun op hop _ => .single ⟨op, hop, rfl⟩) t

theorem Tree.RoomFor.changes {room : Tree} (h : Tree.RoomFor cwd p t room) (ht : t.Proper) :
    t.Changes (fun _ => False) room := by
  induction h with
  | refl => exact .refl _ ht
  | tail _ hop ih =>
    obtain ⟨op, hop, rfl⟩ := hop
    exact ih.trans (hop.makesRoom.changes ih.proper)

/-- Making room for a file makes directories and changes nothing else. -/
theorem changes_makeRoom (cwd : Path) (hp : p.isAbsolute = true) (ht : t.Proper) :
    t.Changes (fun _ => False) ((makeRoom p).run (Tree.perform cwd) t).2 :=
  (Tree.roomFor_makeRoom cwd hp t).changes ht

end Directories

end TextCatalog.Disk
