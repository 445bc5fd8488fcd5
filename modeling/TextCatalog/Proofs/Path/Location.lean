import Mathlib.Data.List.Basic
import Mathlib.Data.String.Basic
import TextCatalog.Path.Basic
import TextCatalog.Proofs.Text.Raw
import TextCatalog.Proofs.Text.Split

/-!
# Locations of paths

On a disk without links a path leads where its steps lead: a name goes down, two dots go up, and above
the root directory there is nothing. The lexical normal form of an absolute path keeps the two dots
that try to leave the root; where it keeps none, it is spelled by the names of the location.
-/

namespace TextCatalog.Path

open Component
open RawText (slash dot)

/-- A name that a directory can hold. -/
structure IsName (name : RawText) : Prop where
  ne_nil : name ≠ []
  ne_dot : name ≠ [dot]
  ne_dots : name ≠ [dot, dot]
  slash_not_mem : slash ∉ name

instance (name : RawText) : Decidable (IsName name) :=
  decidable_of_iff (name ≠ [] ∧ name ≠ [dot] ∧ name ≠ [dot, dot] ∧ slash ∉ name)
    ⟨fun ⟨hempty, hdot, hdots, hslash⟩ => ⟨hempty, hdot, hdots, hslash⟩,
      fun h => ⟨h.ne_nil, h.ne_dot, h.ne_dots, h.slash_not_mem⟩⟩

theorem isName_bytes_iff {s : String} :
    IsName (Text.bytes s) ↔ s ≠ "" ∧ s ≠ "." ∧ s ≠ ".." ∧ '/' ∉ s.toList := by
  have hne : ∀ s', Text.bytes s ≠ Text.bytes s' ↔ s ≠ s' := fun _ =>
    RawText.bytes_injective.ne_iff
  rw [← hne "", ← hne ".", ← hne "..", ← RawText.slash_mem_bytes_iff]
  exact ⟨fun ⟨hempty, hdot, hdots, hslash⟩ => ⟨hempty, hdot, hdots, hslash⟩,
    fun ⟨hempty, hdot, hdots, hslash⟩ => ⟨hempty, hdot, hdots, hslash⟩⟩

/-- A name is read as a name. -/
theorem IsName.lossy {n : RawText} (h : IsName n) : IsName (Text.bytes n.lossy) := by
  have hread : ∀ s : String, '\uFFFD' ∉ s.toList → n ≠ Text.bytes s → n.lossy ≠ s :=
    fun s hs hne heq => hne ((RawText.lossy_eq_iff hs).1 heq)
  exact isName_bytes_iff.2 ⟨hread "" (by decide) h.ne_nil, hread "." (by decide) h.ne_dot,
    hread ".." (by decide) h.ne_dots, mt RawText.slash_mem_lossy_iff.1 h.slash_not_mem⟩

/-- The names that lead to where a step goes from a location. -/
def move (loc : List RawText) : Component → List RawText
  | name n => loc ++ [n]
  | parent => loc.dropLast
  | root | current => loc

/-- The steps that the pieces of a path stand for. -/
def steps (p : Path) : List Component :=
  p.pieces.filterMap ofPiece?

/-- The names that lead from the root directory to where a path seen from there ends. -/
def location (p : Path) : List RawText :=
  p.steps.foldl move []

/-- The normal path of a location. -/
def ofLocation (loc : List RawText) : Path :=
  ofComponents (.root :: loc.map .name)

/-- An absolute path whose normal form does not leave the root directory. -/
structure IsInner (p : Path) : Prop where
  isAbsolute : p.isAbsolute = true
  parent_not_mem : .parent ∉ p.normalComponents

instance (p : Path) : Decidable p.IsInner :=
  decidable_of_iff (p.isAbsolute = true ∧ .parent ∉ p.normalComponents)
    ⟨fun ⟨habs, hparent⟩ => ⟨habs, hparent⟩, fun h => ⟨h.isAbsolute, h.parent_not_mem⟩⟩

section Steps

variable {p q : Path}

theorem ofPiece?_of_isName {name : RawText} (h : IsName name) : ofPiece? name = some (.name name) := by
  simp [ofPiece?, h.ne_nil, h.ne_dot, h.ne_dots]

theorem mem_steps {c : Component} (h : c ∈ p.steps) : c = .parent ∨ ∃ n, c = .name n ∧ IsName n := by
  obtain ⟨piece, hpiece, hc⟩ := List.mem_filterMap.1 h
  rw [ofPiece?] at hc
  split at hc
  · simp at hc
  next hidle =>
    split at hc
    · exact .inl (Option.some.inj hc).symm
    next hdots =>
      obtain ⟨hempty, hdot⟩ := not_or.1 hidle
      exact .inr ⟨piece, (Option.some.inj hc).symm,
        ⟨hempty, hdot, hdots, Text.not_mem_of_mem_splitList hpiece⟩⟩

theorem root_not_mem_steps : .root ∉ p.steps := by
  intro h
  rcases mem_steps h with h | ⟨n, h, -⟩ <;> simp at h

theorem isAbsolute_iff : p.isAbsolute = true ↔ ∃ rest, p.text = slash :: rest := by
  rw [isAbsolute, beq_iff_eq, List.head?_eq_some_iff]

theorem pieces_of_isAbsolute (h : p.isAbsolute = true) : ∃ rest, p.pieces = [] :: rest := by
  obtain ⟨rest, hrest⟩ := isAbsolute_iff.1 h
  exact ⟨Text.splitList slash rest, by rw [pieces, hrest, Text.splitList, if_pos rfl]⟩

theorem isAbsolute_of_pieces {rest : List RawText} (h : p.pieces = [] :: rest) (hne : p.text ≠ []) :
    p.isAbsolute = true := by
  obtain ⟨b, bs, hbs⟩ := List.exists_cons_of_ne_nil hne
  rw [pieces, hbs, Text.splitList] at h
  split at h
  next hslash => exact isAbsolute_iff.2 ⟨bs, by rw [hbs, hslash]⟩
  next =>
    split at h <;> simp at h

theorem text_ne_nil_of_isAbsolute (h : p.isAbsolute = true) : p.text ≠ [] := by
  obtain ⟨rest, hrest⟩ := isAbsolute_iff.1 h
  simp [hrest]

theorem components_of_isAbsolute (h : p.isAbsolute = true) : p.components = .root :: p.steps := by
  rw [components, if_pos h, steps]

theorem normalComponents_of_isAbsolute (h : p.isAbsolute = true) :
    p.normalComponents = (p.steps.foldl pushNormal [.root]).reverse := by
  rw [normalComponents, components_of_isAbsolute h]
  rfl

/-- Two dots that have found no name before them stay. -/
theorem parent_mem_foldl_pushNormal {stack : List Component} (cs : List Component)
    (h : .parent ∈ stack) : .parent ∈ cs.foldl pushNormal stack := by
  induction cs generalizing stack with
  | nil => exact h
  | cons c cs ih =>
    refine ih ?_
    cases c with
    | current => exact h
    | root => exact List.mem_cons_of_mem _ h
    | name n => exact List.mem_cons_of_mem _ h
    | parent =>
      cases stack with
      | nil => simp at h
      | cons top below =>
        cases top with
        | name n => simpa [pushNormal] using h
        | root | current | parent => simp [pushNormal]

theorem foldl_pushNormal {cs : List Component} {loc : List RawText} (hroot : .root ∉ cs)
    (h : .parent ∉ cs.foldl pushNormal ((loc.map .name).reverse ++ [.root])) :
    cs.foldl pushNormal ((loc.map .name).reverse ++ [.root])
      = ((cs.foldl move loc).map .name).reverse ++ [.root] := by
  induction cs generalizing loc with
  | nil => rfl
  | cons c cs ih =>
    rw [List.mem_cons, not_or] at hroot
    rw [List.foldl_cons] at h ⊢
    cases c with
    | root => simp at hroot
    | current => exact ih hroot.2 h
    | name n =>
      have hpush : pushNormal ((loc.map .name).reverse ++ [.root]) (.name n)
          = ((loc ++ [n]).map .name).reverse ++ [.root] := by
        simp [pushNormal]
      rw [hpush] at h ⊢
      exact ih hroot.2 h
    | parent =>
      rcases List.eq_nil_or_concat loc with rfl | ⟨before, n, rfl⟩
      · exact absurd (parent_mem_foldl_pushNormal cs (by simp [pushNormal])) h
      · have hpush : pushNormal (((before ++ [n]).map .name).reverse ++ [.root]) .parent
            = (before.map .name).reverse ++ [.root] := by
          simp [pushNormal]
        rw [List.concat_eq_append] at h ⊢
        rw [hpush] at h ⊢
        simpa [move] using ih hroot.2 h

/-- A path that does not leave the root directory has a normal form that spells its location. -/
theorem IsInner.normalComponents_eq (h : p.IsInner) :
    p.normalComponents = .root :: p.location.map .name := by
  have hnormal := normalComponents_of_isAbsolute h.isAbsolute
  have hparent : .parent ∉ p.steps.foldl pushNormal ((([] : List RawText).map .name).reverse ++ [.root]) := by
    have hmem := h.parent_not_mem
    rw [hnormal, List.mem_reverse] at hmem
    exact hmem
  have hfold := foldl_pushNormal root_not_mem_steps hparent
  rw [hnormal]
  simpa [location] using congrArg List.reverse hfold

theorem IsInner.normalize_eq (h : p.IsInner) : p.normalize = ofLocation p.location := by
  rw [normalize, h.normalComponents_eq, ofLocation]

theorem isName_of_mem_location {n : RawText} (h : n ∈ p.location) : IsName n := by
  have hmoves : ∀ (cs : List Component) (loc : List RawText),
      (∀ c ∈ cs, c = .parent ∨ ∃ n, c = .name n ∧ IsName n) → (∀ n ∈ loc, IsName n) →
        ∀ n ∈ cs.foldl move loc, IsName n := by
    intro cs
    induction cs with
    | nil => exact fun loc _ hloc => hloc
    | cons c cs ih =>
      intro loc hcs hloc
      obtain ⟨hc, hcs⟩ := List.forall_mem_cons.1 hcs
      refine ih (move loc c) hcs ?_
      rcases hc with rfl | ⟨n, rfl, hn⟩
      · exact fun n hn => hloc n (List.dropLast_subset loc hn)
      · intro n' hn'
        rcases List.mem_append.1 hn' with hn' | hn'
        · exact hloc n' hn'
        · rw [List.mem_singleton.1 hn']
          exact hn
  exact hmoves p.steps [] (fun c hc => mem_steps hc) (by simp) n h

end Steps

section OfLocation

variable {loc : List RawText}

theorem text_ofLocation (loc : List RawText) :
    (ofLocation loc).text = slash :: [slash].intercalate loc := by
  simp [ofLocation, ofComponents, Function.comp_def, Component.text]

/-- The pieces of a normal path: nothing before the slash at its start, and then the names. -/
theorem pieces_ofLocation (hloc : ∀ n ∈ loc, IsName n) :
    (ofLocation loc).pieces = [] :: if loc = [] then [[]] else loc := by
  rw [pieces, text_ofLocation, Text.splitList, if_pos rfl]
  split
  next hnil =>
    subst hnil
    rfl
  next hne => rw [Text.splitList_intercalate hne fun n hn => (hloc n hn).slash_not_mem]

/-- Names are read as steps to them. -/
theorem filterMap_ofPiece? (hnames : ∀ n ∈ loc, IsName n) : loc.filterMap ofPiece? = loc.map .name := by
  rw [← List.filterMap_eq_map]
  exact List.filterMap_congr fun n hn => ofPiece?_of_isName (hnames n hn)

theorem steps_ofLocation (hloc : ∀ n ∈ loc, IsName n) : (ofLocation loc).steps = loc.map .name := by
  rw [steps, pieces_ofLocation hloc]
  split
  next hnil => simp [hnil, ofPiece?]
  next => simpa [ofPiece?] using filterMap_ofPiece? hloc

theorem foldl_move_name (loc names : List RawText) :
    (names.map Component.name).foldl move loc = loc ++ names := by
  induction names generalizing loc with
  | nil => simp
  | cons n names ih => rw [List.map_cons, List.foldl_cons, move, ih, List.append_assoc]; rfl

theorem location_ofLocation (hloc : ∀ n ∈ loc, IsName n) : (ofLocation loc).location = loc := by
  rw [location, steps_ofLocation hloc, foldl_move_name, List.nil_append]

theorem isAbsolute_ofLocation (loc : List RawText) : (ofLocation loc).isAbsolute = true :=
  isAbsolute_iff.2 ⟨_, text_ofLocation loc⟩

theorem normalComponents_ofLocation (hloc : ∀ n ∈ loc, IsName n) :
    (ofLocation loc).normalComponents = .root :: loc.map .name := by
  have hpush : ∀ (names : List RawText) (stack : List Component),
      (names.map Component.name).foldl pushNormal stack
        = (names.map Component.name).reverse ++ stack := by
    intro names
    induction names with
    | nil => simp
    | cons n names ih =>
      intro stack
      rw [List.map_cons, List.foldl_cons, ih]
      simp [pushNormal]
  rw [normalComponents_of_isAbsolute (isAbsolute_ofLocation loc), steps_ofLocation hloc, hpush]
  simp

end OfLocation

section Length

variable {p : Path}

/-- How many bytes names take with a slash before each. -/
def spelledLength : List RawText → Nat
  | [] => 0
  | n :: names => n.length + 1 + spelledLength names

theorem length_intercalate {names : List RawText} (h : names ≠ []) :
    ([slash].intercalate names).length + 1 = spelledLength names := by
  induction names with
  | nil => exact absurd rfl h
  | cons n names ih =>
    by_cases hnil : names = []
    · simp [hnil, spelledLength]
    · have hnames := ih hnil
      rw [List.intercalate_cons_of_ne_nil hnil, List.length_append, List.length_append, spelledLength,
        List.length_singleton]
      omega

theorem spelledLength_append (names names' : List RawText) :
    spelledLength (names ++ names') = spelledLength names + spelledLength names' := by
  induction names with
  | nil => exact (Nat.zero_add _).symm
  | cons n names ih =>
    rw [List.cons_append, spelledLength, spelledLength, ih]
    omega

theorem spelledLength_foldl_move (pieces loc : List RawText) :
    spelledLength ((pieces.filterMap ofPiece?).foldl move loc)
      ≤ spelledLength loc + spelledLength pieces := by
  induction pieces generalizing loc with
  | nil => exact Nat.le_add_right ..
  | cons piece pieces ih =>
    rw [spelledLength]
    cases hpiece : ofPiece? piece with
    | none =>
      rw [List.filterMap_cons_none hpiece]
      have hrest := ih loc
      omega
    | some c =>
      rw [List.filterMap_cons_some hpiece, List.foldl_cons]
      have hrest := ih (move loc c)
      have hmove : spelledLength (move loc c) ≤ spelledLength loc + (piece.length + 1) := by
        rw [ofPiece?] at hpiece
        split at hpiece
        · cases hpiece
        split at hpiece
        · obtain rfl := Option.some.inj hpiece
          rcases List.eq_nil_or_concat loc with rfl | ⟨front, n, rfl⟩
          · exact Nat.zero_le _
          · rw [move, List.concat_eq_append, List.dropLast_concat, spelledLength_append]
            omega
        · obtain rfl := Option.some.inj hpiece
          rw [move, spelledLength_append, spelledLength]
          exact Nat.le_refl _
      omega

/-- The normal path of a location is no longer than a path that leads there. -/
theorem length_ofLocation_location (h : p.isAbsolute = true) :
    (ofLocation p.location).text.length ≤ p.text.length := by
  obtain ⟨rest, hrest⟩ := isAbsolute_iff.1 h
  have hpieces : p.pieces = [] :: Text.splitList slash rest := by
    rw [pieces, hrest, Text.splitList, if_pos rfl]
  have hlength := length_intercalate (Text.splitList_ne_nil slash rest)
  rw [Text.intercalate_splitList] at hlength
  have hmoves := spelledLength_foldl_move (Text.splitList slash rest) []
  have hlocation : p.location = ((Text.splitList slash rest).filterMap ofPiece?).foldl move [] := by
    rw [location, steps, hpieces]
    rfl
  rw [text_ofLocation, hlocation, hrest, List.length_cons, List.length_cons]
  by_cases hnil : ((Text.splitList slash rest).filterMap ofPiece?).foldl move [] = []
  · rw [hnil]
    simp
  · have hspelled := length_intercalate hnil
    have hzero : spelledLength [] = 0 := rfl
    omega

theorem mem_pieces_of_mem_location {n : RawText} (h : n ∈ p.location) : n ∈ p.pieces := by
  have hmoves : ∀ (pieces loc : List RawText), ∀ n ∈ (pieces.filterMap ofPiece?).foldl move loc,
      n ∈ loc ∨ n ∈ pieces := by
    intro pieces
    induction pieces with
    | nil => exact fun loc n hn => .inl hn
    | cons piece pieces ih =>
      intro loc n hn
      cases hpiece : ofPiece? piece with
      | none =>
        rw [List.filterMap_cons_none hpiece] at hn
        exact (ih loc n hn).imp_right (List.mem_cons_of_mem piece)
      | some c =>
        rw [List.filterMap_cons_some hpiece, List.foldl_cons] at hn
        rcases ih (move loc c) n hn with hmem | hmem
        · rw [ofPiece?] at hpiece
          split at hpiece
          · cases hpiece
          split at hpiece
          · obtain rfl := Option.some.inj hpiece
            exact .inl (List.dropLast_subset loc hmem)
          · obtain rfl := Option.some.inj hpiece
            exact (List.mem_append.1 hmem).imp_right fun heq => by simp [List.mem_singleton.1 heq]
        · exact .inr (List.mem_cons_of_mem piece hmem)
  simpa using hmoves p.pieces [] n h

end Length

end TextCatalog.Path
