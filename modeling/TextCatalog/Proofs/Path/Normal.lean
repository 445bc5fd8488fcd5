import Mathlib.Data.List.Induction
import TextCatalog.Proofs.Path.Relative

/-!
# Normal forms

The normal form of an absolute path is a number of two dots that leave the root directory, and then
names. Read again it is what it was, so a path is known by it, and from the normal form of a directory
the relative path leads to the normal form of what it was made for.
-/

namespace TextCatalog.Path

open Component
open RawText (slash dot)

/-- Where a path leads that may leave the root directory. -/
structure Way where
  ups : Nat
  names : List RawText
  deriving DecidableEq

namespace Way

variable {w : Way}

def start : Way := ⟨0, []⟩

def components (w : Way) : List Component :=
  List.replicate w.ups .parent ++ w.names.map .name

def pieces (w : Way) : List RawText :=
  List.replicate w.ups [dot, dot] ++ w.names

/-- Where a step goes: up from a name, and out where there is none. -/
def go (w : Way) : Component → Way
  | name n => { w with names := w.names ++ [n] }
  | parent => if w.names = [] then { w with ups := w.ups + 1 } else { w with names := w.names.dropLast }
  | root | current => w

def follow (w : Way) (cs : List Component) : Way :=
  cs.foldl go w

/-- The normal path that leads there. -/
def path (w : Way) : Path :=
  ofComponents (.root :: w.components)

theorem pushNormal_components (w : Way) {c : Component} (hc : c ≠ .root) :
    pushNormal (w.components.reverse ++ [.root]) c = (w.go c).components.reverse ++ [.root] := by
  obtain ⟨ups, names⟩ := w
  cases c with
  | root => exact absurd rfl hc
  | current => rfl
  | name n => simp [pushNormal, go, components]
  | parent =>
    rcases List.eq_nil_or_concat names with rfl | ⟨before, n, rfl⟩
    · have hstack : ∀ k : Nat, (components ⟨k, []⟩).reverse = List.replicate k .parent := by
        simp [components]
      rw [go, if_pos rfl, hstack, hstack]
      cases ups <;> rfl
    · simp [pushNormal, go, components]

theorem foldl_pushNormal_components {cs : List Component} (hroot : .root ∉ cs) (w : Way) :
    cs.foldl pushNormal (w.components.reverse ++ [.root])
      = (w.follow cs).components.reverse ++ [.root] := by
  induction cs generalizing w with
  | nil => rfl
  | cons c cs ih =>
    obtain ⟨hc, hcs⟩ := not_or.1 (List.mem_cons.not.1 hroot)
    rw [List.foldl_cons, pushNormal_components w (Ne.symm hc), ih hcs]
    rfl

theorem follow_append (w : Way) (cs cs' : List Component) :
    w.follow (cs ++ cs') = (w.follow cs).follow cs' :=
  List.foldl_append ..

theorem follow_names (ups : Nat) (names names' : List RawText) :
    follow ⟨ups, names⟩ (names'.map .name) = ⟨ups, names ++ names'⟩ := by
  induction names' generalizing names with
  | nil => simp [follow]
  | cons n names' ih =>
    rw [List.append_cons, ← ih]
    rfl

theorem follow_out (ups k : Nat) :
    follow ⟨ups, []⟩ (List.replicate k .parent) = ⟨ups + k, []⟩ := by
  induction k generalizing ups with
  | zero => rfl
  | succ k ih =>
    rw [show ups + (k + 1) = ups + 1 + k by omega, ← ih]
    rfl

/-- As many steps up as there are names lead back. -/
theorem follow_up (ups : Nat) (front up : List RawText) :
    follow ⟨ups, front ++ up⟩ (List.replicate up.length .parent) = ⟨ups, front⟩ := by
  induction up using List.reverseRecOn with
  | nil => simp [follow]
  | append_singleton up n ih =>
    rw [List.length_append, List.length_singleton, ← ih]
    simp [follow, List.replicate_succ, go, ← List.append_assoc]

theorem follow_components (w : Way) : start.follow w.components = w := by
  rw [start, components, follow_append, follow_out, follow_names]
  simp

theorem components_injective : Function.Injective components := by
  intro w w' h
  rw [← follow_components w, h, follow_components]

theorem filterMap_ofPiece?_pieces (hnames : ∀ n ∈ w.names, IsName n) :
    w.pieces.filterMap ofPiece? = w.components := by
  have hdots : ofPiece? [dot, dot] = some .parent := by decide
  rw [pieces, components, List.filterMap_append, filterMap_ofPiece? hnames, List.filterMap_replicate, hdots]

theorem slashed_components (w : Way) :
    slashed w.components = String.intercalate "/" (shownPieces w.ups w.names) :=
  slashed_relative w.ups w.names

theorem of_mem_pieces (hnames : ∀ n ∈ w.names, IsName n) {piece : RawText} (h : piece ∈ w.pieces) :
    piece ≠ [] ∧ slash ∉ piece := by
  rcases List.mem_append.1 h with hup | hname
  · rw [(List.mem_replicate.1 hup).2]
    decide
  · exact ⟨(hnames piece hname).ne_nil, (hnames piece hname).slash_not_mem⟩

theorem split_pieces (hnames : ∀ n ∈ w.names, IsName n) :
    Text.splitList slash ([slash].intercalate w.pieces)
      = if w.pieces = [] then [[]] else w.pieces := by
  split
  next hnil =>
    rw [hnil]
    rfl
  next hne => exact Text.splitList_intercalate hne fun _ hpiece => (of_mem_pieces hnames hpiece).2

/-- A way written down is read as the same steps. -/
theorem steps_pieces (hnames : ∀ n ∈ w.names, IsName n) :
    steps ⟨[slash].intercalate w.pieces⟩ = w.components := by
  rw [steps, Path.pieces, split_pieces hnames, ← filterMap_ofPiece?_pieces hnames]
  split
  next hnil => simp [hnil, ofPiece?]
  next => rfl

theorem isAbsolute_pieces (hnames : ∀ n ∈ w.names, IsName n) :
    isAbsolute ⟨[slash].intercalate w.pieces⟩ = false := by
  rw [← Bool.not_eq_true]
  intro habs
  obtain ⟨rest, hrest⟩ := pieces_of_isAbsolute habs
  rw [Path.pieces, split_pieces hnames] at hrest
  split at hrest
  next hnil =>
    rw [hnil] at habs
    exact absurd habs (by decide)
  next =>
    have hmem : [] ∈ w.pieces := by rw [hrest]; simp
    exact (of_mem_pieces hnames hmem).1 rfl

theorem text_path (w : Way) : w.path.text = slash :: [slash].intercalate w.pieces := by
  have htexts : w.components.map Component.text = w.pieces := by
    simp [components, pieces, Function.comp_def, Component.text]
  rw [path, ofComponents, htexts]

theorem isAbsolute_path (w : Way) : w.path.isAbsolute = true :=
  isAbsolute_iff.2 ⟨_, text_path w⟩

theorem steps_path (hnames : ∀ n ∈ w.names, IsName n) : w.path.steps = w.components := by
  have hpath : w.path = ⟨[] ++ slash :: [slash].intercalate w.pieces⟩ := by
    rw [List.nil_append, ← text_path]
  rw [hpath, steps_append_slash, steps_pieces hnames]
  rfl

theorem forall_isName_follow {cs : List Component} (hw : ∀ n ∈ w.names, IsName n)
    (hcs : ∀ c ∈ cs, c = .parent ∨ ∃ n, c = .name n ∧ IsName n) :
    ∀ n ∈ (w.follow cs).names, IsName n := by
  induction cs generalizing w with
  | nil => exact hw
  | cons c cs ih =>
    obtain ⟨hc, hcs⟩ := List.forall_mem_cons.1 hcs
    refine ih (w := w.go c) ?_ hcs
    rcases hc with rfl | ⟨n, rfl, hn⟩
    · rw [go]
      split
      · exact hw
      · exact fun n hn => hw n (List.dropLast_subset _ hn)
    · exact List.forall_mem_append.2 ⟨hw, List.forall_mem_singleton.2 hn⟩

end Way

variable {root p q : Path}

/-- Where a path seen from the root directory leads. -/
def way (p : Path) : Way :=
  Way.start.follow p.steps

theorem isName_of_mem_way {n : RawText} (h : n ∈ p.way.names) : IsName n :=
  Way.forall_isName_follow (by simp [Way.start]) (fun _ hc => mem_steps hc) n h

section Normal

theorem normalComponents_eq_way (h : p.isAbsolute = true) :
    p.normalComponents = .root :: p.way.components := by
  have hfold := Way.foldl_pushNormal_components (root_not_mem_steps (p := p)) .start
  rw [normalComponents_of_isAbsolute h]
  simpa [Way.start, Way.components, way] using congrArg List.reverse hfold

theorem normalize_eq_path (h : p.isAbsolute = true) : p.normalize = p.way.path := by
  rw [normalize, normalComponents_eq_way h, Way.path]

theorem isAbsolute_normalize (h : p.isAbsolute = true) : p.normalize.isAbsolute = true := by
  rw [normalize_eq_path h]
  exact p.way.isAbsolute_path

theorem steps_normalize (h : p.isAbsolute = true) : p.normalize.steps = p.way.components := by
  rw [normalize_eq_path h, Way.steps_path fun _ => isName_of_mem_way]

theorem way_normalize (h : p.isAbsolute = true) : p.normalize.way = p.way := by
  rw [way, steps_normalize h, Way.follow_components]

/-- The normal form is spelled by the normal components. -/
theorem components_normalize (h : p.isAbsolute = true) :
    p.normalize.components = p.normalComponents := by
  rw [components_of_isAbsolute (isAbsolute_normalize h), steps_normalize h,
    normalComponents_eq_way h]

theorem normalComponents_normalize (h : p.isAbsolute = true) :
    p.normalize.normalComponents = p.normalComponents := by
  rw [normalComponents_eq_way (isAbsolute_normalize h), way_normalize h, normalComponents_eq_way h]

theorem normalize_normalize (h : p.isAbsolute = true) : p.normalize.normalize = p.normalize := by
  rw [Path.normalize, normalComponents_normalize h, ← Path.normalize]

theorem normalize_eq_iff_way (hp : p.isAbsolute = true) (hq : q.isAbsolute = true) :
    p.normalize = q.normalize ↔ p.way = q.way := by
  constructor
  · intro h
    rw [← way_normalize hp, h, way_normalize hq]
  · intro h
    rw [normalize_eq_path hp, h, normalize_eq_path hq]

theorem IsInner.normalize (h : p.IsInner) : p.normalize.IsInner :=
  ⟨isAbsolute_normalize h.isAbsolute,
    (normalComponents_normalize h.isAbsolute).symm ▸ h.parent_not_mem⟩

theorem IsInner.way_eq (h : p.IsInner) : p.way = ⟨0, p.location⟩ := by
  have heq := h.normalComponents_eq
  rw [normalComponents_eq_way h.isAbsolute] at heq
  exact Way.components_injective (List.cons.inj heq).2

end Normal

section Relative

/-- The relative path from a directory: two dots for each name of it that does not lead on, and then what
follows the names that do. -/
structure Departs (root p : Path) (front up : List RawText) (down : List Component) : Prop where
  root_eq : root.location = front ++ up
  way_eq : p.way.components = front.map .name ++ down
  part : ∀ n ∈ up.head?, .name n ∉ down.head?
  relative_eq : relative root p = List.replicate up.length .parent ++ down

/-- Two ways part where they share no more, and there the relative path turns from the one to the
other. -/
theorem exists_relative_eq_append (hroot : root.isAbsolute = true) (hp : p.isAbsolute = true) :
    ∃ front up down, root.way.components = front ++ up ∧ p.way.components = front ++ down ∧
      (∀ c ∈ up.head?, c ∉ down.head?) ∧
      relative root p = List.replicate up.length .parent ++ down := by
  obtain ⟨front, up, down, hup, hdown, hlength, hpart⟩ :=
    exists_append_of_sharedLength root.way.components p.way.components
  have hshared : sharedLength (.root :: root.way.components) (.root :: p.way.components)
      = front.length + 1 := by
    rw [sharedLength, if_pos rfl, hlength]
  have hcount : (.root :: root.way.components : List Component).length - (front.length + 1)
      = up.length := by
    rw [hup, List.length_cons, List.length_append]
    omega
  have hnot : .root ∉ down := by
    intro hmem
    have hcomponents : .root ∈ p.way.components := hdown ▸ List.mem_append_right _ hmem
    simp [Way.components] at hcomponents
  refine ⟨front, up, down, hup, hdown, hpart, ?_⟩
  rw [relative, normalComponents_eq_way hroot, normalComponents_eq_way hp, hshared, hcount, hdown,
    List.drop_succ_cons, List.drop_left' rfl]
  cases down with
  | nil => rfl
  | cons c down =>
    cases c with
    | root => simp at hnot
    | _ => rfl

theorem exists_departs (hroot : root.IsInner) (hp : p.isAbsolute = true) :
    ∃ front up down, Departs root p front up down := by
  obtain ⟨front, up, down, hup, hdown, hpart, hrelative⟩ :=
    exists_relative_eq_append hroot.isAbsolute hp
  have hnames : root.way.components = root.location.map .name := by
    rw [hroot.way_eq]
    simp [Way.components]
  obtain ⟨front, up, heq, rfl, rfl⟩ := List.map_eq_append_iff.1 (hnames.symm.trans hup)
  refine ⟨front, up, down, heq, hdown, fun n hn hmem => hpart (.name n) (by simpa using hn) hmem, ?_⟩
  rw [hrelative, List.length_map]

theorem Way.exists_components_of_suffix {w : Way} {cs : List Component} (h : cs <:+ w.components) :
    ∃ w' : Way, cs = w'.components ∧ ∀ n ∈ w'.names, n ∈ w.names := by
  obtain ⟨ups, names⟩ := w
  induction ups with
  | zero =>
    have hnames : components ⟨0, names⟩ = names.map .name := by simp [components]
    obtain ⟨front, hfront⟩ := h
    obtain ⟨before, after, rfl, -, rfl⟩ := List.map_eq_append_iff.1 (hnames.symm.trans hfront.symm)
    exact ⟨⟨0, after⟩, by simp [components], fun n hn => List.mem_append_right _ hn⟩
  | succ ups ih =>
    rcases List.suffix_cons_iff.1 h with rfl | hrest
    · exact ⟨⟨ups + 1, names⟩, rfl, fun _ hn => hn⟩
    · exact ih hrest

/-- The relative path leads from the directory to where the path leads. -/
theorem exists_relative_eq (hroot : root.IsInner) (hp : p.isAbsolute = true) :
    ∃ w : Way, relative root p = w.components ∧ (∀ n ∈ w.names, IsName n) ∧
      root.way.follow w.components = p.way := by
  obtain ⟨front, up, down, hdeparts⟩ := exists_departs hroot hp
  obtain ⟨⟨k, names⟩, rfl, hnames⟩ :=
    Way.exists_components_of_suffix ⟨_, hdeparts.way_eq.symm⟩
  have hway : (⟨up.length + k, names⟩ : Way).components
      = List.replicate up.length .parent ++ (⟨k, names⟩ : Way).components := by
    rw [Way.components, Way.components, ← List.append_assoc, List.replicate_append_replicate]
  refine ⟨⟨up.length + k, names⟩, hdeparts.relative_eq.trans hway.symm,
    fun n hn => isName_of_mem_way (hnames n hn), ?_⟩
  calc root.way.follow (⟨up.length + k, names⟩ : Way).components
      = (Way.follow ⟨0, front⟩) (⟨k, names⟩ : Way).components := by
        rw [hway, Way.follow_append, hroot.way_eq, hdeparts.root_eq, Way.follow_up]
    _ = Way.start.follow (front.map .name ++ (⟨k, names⟩ : Way).components) := by
        rw [Way.follow_append, Way.start, Way.follow_names, List.nil_append]
    _ = p.way := by rw [← hdeparts.way_eq, Way.follow_components]

end Relative

end TextCatalog.Path
