import TextCatalog.Proofs.Path.Normal

/-!
# What lies below a way

The normal paths of absolute paths are the ways out of and into the root directory. Seen from one of
them, a normal path is either names that lead down from it, or it starts with two dots.
-/

namespace TextCatalog.Path

open Component
open RawText (slash)

namespace Way

variable {w w' root : Way} {names : List RawText}

/-- The way that goes on by these names. -/
def below (w : Way) (names : List RawText) : Way :=
  { w with names := w.names ++ names }

theorem components_below (w : Way) (names : List RawText) :
    (w.below names).components = w.components ++ names.map .name := by
  simp [components, below]

theorem pieces_below (w : Way) (names : List RawText) :
    (w.below names).pieces = w.pieces ++ names := by
  simp [pieces, below]

/-- What leads on is written behind. -/
theorem exists_text_below (w : Way) (names : List RawText) :
    ∃ more, (w.below names).path.text = w.path.text ++ more := by
  rw [text_path, text_path, pieces_below]
  by_cases hw : w.pieces = []
  · exact ⟨[slash].intercalate names, by rw [hw]; rfl⟩
  · by_cases hnames : names = []
    · exact ⟨[], by rw [hnames, List.append_nil, List.append_nil]⟩
    · rw [Text.intercalate_append hw hnames]
      exact ⟨slash :: [slash].intercalate names, by simp⟩

theorem follow_map_name (w : Way) (names : List RawText) :
    w.follow (names.map .name) = w.below names :=
  follow_names w.ups w.names names

theorem below_append (w : Way) (names names' : List RawText) :
    w.below (names ++ names') = (w.below names).below names' := by
  simp [below]

theorem forall_names_below {p : RawText → Prop} :
    (∀ n ∈ (w.below names).names, p n) ↔ (∀ n ∈ w.names, p n) ∧ ∀ n ∈ names, p n := by
  simp [below, or_imp, forall_and]

theorem way_path (hw : ∀ n ∈ w.names, IsName n) : w.path.way = w := by
  rw [way, steps_path hw, follow_components]

theorem path_inj (hw : ∀ n ∈ w.names, IsName n) (hw' : ∀ n ∈ w'.names, IsName n)
    (h : w.path = w'.path) : w = w' := by
  rw [← way_path hw, h, way_path hw']

theorem normalize_path (hw : ∀ n ∈ w.names, IsName n) : w.path.normalize = w.path := by
  rw [normalize_eq_path w.isAbsolute_path, way_path hw]

theorem ofLocation_eq_path (loc : List RawText) : ofLocation loc = path ⟨0, loc⟩ := rfl

theorem pieces_path (hw : ∀ n ∈ w.names, IsName n) :
    w.path.pieces = [] :: if w.pieces = [] then [[]] else w.pieces := by
  rw [Path.pieces, text_path]
  exact (Text.splitList_append [] _).trans (congrArg (Text.splitList slash [] ++ ·) (split_pieces hw))

/-- Only the path of the root directory ends in a slash. -/
theorem getLast?_path_ne (hw : ∀ n ∈ w.names, IsName n) (hne : w.pieces ≠ []) :
    w.path.text.getLast? ≠ some slash := by
  intro hlast
  obtain ⟨front, htext⟩ := List.getLast?_eq_some_iff.1 hlast
  have hsplit : w.path.pieces = Text.splitList slash front ++ [[]] := by
    rw [Path.pieces, htext, Text.splitList_append]
    rfl
  rw [pieces_path hw, if_neg hne] at hsplit
  obtain ⟨piece, pieces, hpieces⟩ := List.exists_cons_of_ne_nil (Text.splitList_ne_nil slash front)
  rw [hpieces, List.cons_append] at hsplit
  have hmem : [] ∈ w.pieces := by
    rw [(List.cons.inj hsplit).2]
    exact List.mem_append_right _ (List.mem_singleton.2 rfl)
  exact (of_mem_pieces hw hmem).1 rfl

/-- A name is written behind a slash, which the path of the root directory has already. -/
theorem join_path (hw : ∀ n ∈ w.names, IsName n) {name : RawText} (hname : IsName name) :
    w.path.join ⟨name⟩ = (w.below [name]).path := by
  have hrelative : isAbsolute ⟨name⟩ = false := by
    rw [← Bool.not_eq_true, isAbsolute_iff]
    rintro ⟨rest, rfl⟩
    exact hname.slash_not_mem List.mem_cons_self
  have htext : (w.below [name]).path = ⟨slash :: [slash].intercalate (w.pieces ++ [name])⟩ := by
    rw [← pieces_below, ← text_path]
  rw [join, if_neg (by simp [hrelative]), if_neg (by simp [text_path]), htext]
  by_cases hnil : w.pieces = []
  · simp [text_path, hnil]
  · rw [if_neg (getLast?_path_ne hw hnil), text_path, Text.intercalate_append hnil (by simp)]
    simp

/-- A step moves the names as it moves a location. -/
theorem names_follow (w : Way) (cs : List Component) :
    (w.follow cs).names = cs.foldl move w.names := by
  induction cs generalizing w with
  | nil => rfl
  | cons c cs ih =>
    have hstep : (w.go c).names = move w.names c := by
      cases c with
      | root | current | name => rfl
      | parent =>
        rw [go, move]
        split
        next hnil => rw [hnil]; rfl
        next => rfl
    rw [List.foldl_cons, ← hstep, ← ih]
    rfl

/-- Above the root directory there is nothing, so a path that tries to leave it ends at its names. -/
theorem location_path (hw : ∀ n ∈ w.names, IsName n) : w.path.location = w.names := by
  have hnames := names_follow start w.components
  rw [follow_components] at hnames
  rw [location, steps_path hw, hnames]
  rfl

/-- From one way to another the relative path goes down by names, or it goes up first. -/
theorem relative_path_cases (hroot : ∀ n ∈ root.names, IsName n) (hw : ∀ n ∈ w.names, IsName n) :
    (∃ names, w = root.below names ∧ relative root.path w.path = names.map .name) ∨
      ∃ rest, relative root.path w.path = .parent :: rest := by
  obtain ⟨front, up, down, hup, hdown, -, hrelative⟩ :=
    exists_relative_eq_append root.isAbsolute_path w.isAbsolute_path
  rw [way_path hroot] at hup
  rw [way_path hw] at hdown
  cases up with
  | cons c up => exact .inr ⟨_, hrelative⟩
  | nil =>
    obtain ⟨⟨ups, names⟩, rfl, -⟩ := exists_components_of_suffix ⟨front, hdown.symm⟩
    cases ups with
    | succ ups => exact .inr ⟨_, hrelative⟩
    | zero =>
      have hnames : components ⟨0, names⟩ = names.map .name := by simp [components]
      refine .inl ⟨names, components_injective ?_, by rw [hrelative, hnames]; rfl⟩
      rw [components_below, hdown, hup, hnames, List.append_nil]

theorem slashed_map_name (names : List RawText) :
    slashed (names.map .name) = String.intercalate "/" (names.map RawText.lossy) :=
  slashed_relative 0 names

/-- Below a way the relative path is made of the names that lead on. -/
theorem relative_below (hroot : ∀ n ∈ root.names, IsName n) (hnames : ∀ n ∈ names, IsName n) :
    relative root.path (root.below names).path = names.map .name := by
  obtain ⟨front, up, down, hup, hdown, hpart, hrelative⟩ :=
    exists_relative_eq_append root.isAbsolute_path (root.below names).isAbsolute_path
  rw [way_path hroot] at hup
  rw [way_path (forall_names_below.2 ⟨hroot, hnames⟩), components_below, hup, List.append_assoc]
    at hdown
  have hrest : up ++ names.map .name = down := List.append_cancel_left hdown
  cases up with
  | nil => rw [hrelative, ← hrest]; rfl
  | cons c up => exact absurd (by rw [← hrest]; rfl) (hpart c rfl)

theorem slashed_relative_below (hroot : ∀ n ∈ root.names, IsName n) (hnames : ∀ n ∈ names, IsName n) :
    slashed (relative root.path (root.below names).path)
      = String.intercalate "/" (names.map RawText.lossy) := by
  rw [relative_below hroot hnames, slashed_map_name]

end Way

end TextCatalog.Path
