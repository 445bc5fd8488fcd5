import TextCatalog.Proofs.Path.Join

/-!
# Directories above a path

The directories above a path are written by the first of its components. A path that is seen from another
directory is read from there with the pieces that it has by itself.
-/

namespace TextCatalog.Path

open Component
open RawText (slash dot)

/-- How a path begins, by its pieces and by its components: at the root, at the directory that it is seen
from, or with a step. -/
inductive Begins : List RawText → List Component → Prop
  | root : Begins [[]] [.root]
  | current : Begins [[dot]] [.current]
  | step : Begins [] []

/-- The directory `dir` lies above the path `p`, or is the one that holds it. -/
def LiesAbove (dir p : Path) : Prop :=
  ∃ cs, cs <+: p.components.dropLast ∧ dir = ofComponents cs

variable {p q dir : Path} {lead rest : List RawText} {head cs : List Component}

/-- A path begins in one of three ways, and its steps follow. -/
theorem exists_begins (p : Path) :
    ∃ lead head rest, Begins lead head ∧ p.pieces = lead ++ rest ∧
      p.components = head ++ rest.filterMap ofPiece? := by
  rw [components]
  split
  next habsolute =>
    obtain ⟨rest, hrest⟩ := pieces_of_isAbsolute habsolute
    exact ⟨[[]], [.root], rest, .root, hrest, by rw [hrest]; rfl⟩
  next =>
    split
    next hdot =>
      obtain ⟨rest, hrest⟩ := List.head?_eq_some_iff.1 hdot
      exact ⟨[[dot]], [.current], rest, .current, hrest, by rw [hrest]; rfl⟩
    next => exact ⟨[], [], p.pieces, .step, rfl, rfl⟩

/-- A step that a path can have after its beginning. -/
def IsStep (c : Component) : Prop :=
  c = .parent ∨ ∃ n, c = .name n ∧ IsName n

theorem IsStep.slash_not_mem {c : Component} (h : IsStep c) : slash ∉ c.text := by
  rcases h with rfl | ⟨n, rfl, hn⟩
  · decide
  · exact hn.slash_not_mem

theorem IsStep.ofPiece?_text {c : Component} (h : IsStep c) : ofPiece? c.text = some c := by
  rcases h with rfl | ⟨n, rfl, hn⟩
  · decide
  · exact ofPiece?_of_isName hn

theorem parent_mem_filterMap_iff {pieces : List RawText} :
    .parent ∈ pieces.filterMap ofPiece? ↔ [dot, dot] ∈ pieces := by
  constructor
  · intro h
    obtain ⟨piece, hpiece, hparent⟩ := List.mem_filterMap.1 h
    rw [ofPiece?] at hparent
    split at hparent
    · cases hparent
    · split at hparent
      next hdots => exact hdots ▸ hpiece
      next => cases hparent
  · exact fun h => List.mem_filterMap.2 ⟨[dot, dot], h, by decide⟩

theorem filterMap_text (hcs : ∀ c ∈ cs, IsStep c) : (cs.map Component.text).filterMap ofPiece? = cs := by
  rw [List.filterMap_map]
  exact (List.filterMap_congr fun c hc => (hcs c hc).ofPiece?_text).trans List.filterMap_some

theorem isStep_of_mem {c : Component} (hpieces : p.pieces = lead ++ rest)
    (hc : c ∈ rest.filterMap ofPiece?) : IsStep c := by
  refine mem_steps (p := p) ?_
  rw [steps, hpieces, List.filterMap_append]
  exact List.mem_append_right _ hc

/-- The pieces of a path that is written by its components. -/
theorem pieces_ofComponents (hbegins : Begins lead head) (hcs : ∀ c ∈ cs, IsStep c) (hne : cs ≠ []) :
    (ofComponents (head ++ cs)).pieces = lead ++ cs.map Component.text := by
  have htexts : ∀ text ∈ cs.map Component.text, slash ∉ text := by
    simpa using fun c hc => (hcs c hc).slash_not_mem
  have hsplit : Text.splitList slash ([slash].intercalate (cs.map Component.text)) = cs.map Component.text :=
    Text.splitList_intercalate (by simpa using hne) htexts
  cases hbegins with
  | root =>
    exact (Text.splitList_append [] _).trans (congrArg (Text.splitList slash [] ++ ·) hsplit)
  | current => exact Text.splitList_intercalate (by simp) (List.forall_mem_cons.2 ⟨by decide, htexts⟩)
  | step =>
    obtain ⟨c, others, rfl⟩ := List.exists_cons_of_ne_nil hne
    rcases hcs c (List.mem_cons_self) with rfl | ⟨n, rfl, -⟩ <;> exact hsplit

theorem components_ofComponents (hbegins : Begins lead head) (hcs : ∀ c ∈ cs, IsStep c) :
    (ofComponents (head ++ cs)).components = head ++ cs := by
  by_cases hne : cs = []
  · subst hne
    cases hbegins <;> decide
  · have hpieces := pieces_ofComponents hbegins hcs hne
    have hread := filterMap_text hcs
    obtain ⟨c, others, hcons⟩ := List.exists_cons_of_ne_nil hne
    have hfirst : ofPiece? c.text = some c := (hcs c (by simp [hcons])).ofPiece?_text
    have hrelative : ∀ {q : Path} {piece : RawText}, q.pieces.head? = some piece → piece ≠ [] →
        ¬ q.isAbsolute = true := by
      intro q piece hhead hpiece habsolute
      obtain ⟨rest, hrest⟩ := pieces_of_isAbsolute habsolute
      rw [hrest, List.head?_cons] at hhead
      exact hpiece (Option.some.inj hhead).symm
    rw [components]
    cases hbegins with
    | root =>
      have hrooted : (ofComponents ([.root] ++ cs)).isAbsolute = true := isAbsolute_iff.2 ⟨_, rfl⟩
      rw [if_pos hrooted, hpieces, List.filterMap_append, hread]
      rfl
    | current =>
      rw [if_neg (hrelative (by rw [hpieces]; rfl) (by decide : [dot] ≠ [])), hpieces,
        List.singleton_append, List.head?_cons, if_pos rfl, List.filterMap_cons_none (by decide), hread]
      rfl
    | step =>
      have hhead : (ofComponents ([] ++ cs)).pieces.head? = some c.text := by
        rw [hpieces, hcons]
        rfl
      have hnil : c.text ≠ [] := fun heq => absurd hfirst (by rw [heq]; simp [ofPiece?])
      have hdot : c.text ≠ [dot] := fun heq => absurd hfirst (by rw [heq]; simp [ofPiece?])
      rw [if_neg (hrelative hhead hnil), hhead, if_neg (by simpa using hdot), hpieces]
      exact hread

/-- The directory that holds a path is read with the components that it is written by. -/
theorem components_ofComponents_dropLast (p : Path) :
    (ofComponents p.components.dropLast).components = p.components.dropLast := by
  obtain ⟨lead, head, rest, hbegins, hpieces, hcomponents⟩ := exists_begins p
  rw [hcomponents]
  by_cases hne : rest.filterMap ofPiece? = []
  · rw [hne]
    cases hbegins <;> decide
  · rw [List.dropLast_append_of_ne_nil hne]
    exact components_ofComponents hbegins fun c hc => isStep_of_mem hpieces (List.dropLast_subset _ hc)

theorem isAbsolute_iff_components : p.isAbsolute = true ↔ p.components.head? = some .root := by
  constructor
  · intro h
    rw [components_of_isAbsolute h]
    rfl
  · intro h
    obtain ⟨lead, head, rest, hbegins, hpieces, hcomponents⟩ := exists_begins p
    rw [hcomponents] at h
    cases hbegins with
    | root =>
      refine isAbsolute_of_pieces hpieces fun hempty => ?_
      have hnone : p.components = [] := by
        rw [show p = ⟨[]⟩ from congrArg Path.mk hempty]
        decide
      simp [hnone] at hcomponents
    | current => cases h
    | step =>
      have hroot : .root ∈ rest.filterMap ofPiece? := List.mem_of_head? h
      rcases isStep_of_mem hpieces hroot with heq | ⟨n, heq, -⟩ <;> cases heq

/-- A directory above a path is where the path begins, or it is written by first steps of the path, though
not by all. -/
theorem LiesAbove.cases (h : LiesAbove dir p) :
    dir.text ∈ [[], [slash], [dot]] ∨ ∃ lead rest front, p.pieces = lead ++ rest ∧
      dir.pieces = lead ++ front.map Component.text ∧ front ≠ [] ∧ (∀ c ∈ front, IsStep c) ∧
      front <+: (rest.filterMap ofPiece?).dropLast ∧ dir.isAbsolute = p.isAbsolute := by
  obtain ⟨cs, hcs, rfl⟩ := h
  obtain ⟨lead, head, rest, hbegins, hpieces, hcomponents⟩ := exists_begins p
  have hprefix : cs <+: head ++ rest.filterMap ofPiece? :=
    hcomponents ▸ hcs.trans (List.dropLast_prefix _)
  have hbefore : ∀ cs, cs <+: head → (ofComponents cs).text ∈ [[], [slash], [dot]] := by
    intro cs hcs
    have hone : ∀ {c : Component}, cs <+: [c] → cs = [] ∨ cs = [c] := by
      intro c hc
      rcases List.prefix_cons_iff.1 hc with hnil | ⟨others, heq, hnil⟩
      · exact .inl hnil
      · exact .inr (by rw [heq, List.prefix_nil.1 hnil])
    cases hbegins with
    | root => rcases hone hcs with rfl | rfl <;> decide
    | current => rcases hone hcs with rfl | rfl <;> decide
    | step =>
      rw [List.prefix_nil.1 hcs]
      decide
  rcases List.prefix_or_prefix_of_prefix hprefix (List.prefix_append head _) with hinside | ⟨front, rfl⟩
  · exact .inl (hbefore cs hinside)
  by_cases hne : front = []
  · left
    rw [hne, List.append_nil]
    exact hbefore head List.prefix_rfl
  right
  have hfront : front <+: rest.filterMap ofPiece? := (List.prefix_append_right_inj head).1 hprefix
  have hsteps : ∀ c ∈ front, IsStep c := fun c hc => isStep_of_mem hpieces (hfront.subset hc)
  have hlast : front <+: (rest.filterMap ofPiece?).dropLast := by
    have hmore : rest.filterMap ofPiece? ≠ [] := fun hnil => hne (List.prefix_nil.1 (hnil ▸ hfront))
    rw [hcomponents, List.dropLast_append_of_ne_nil hmore] at hcs
    exact (List.prefix_append_right_inj head).1 hcs
  refine ⟨lead, rest, front, hpieces, pieces_ofComponents hbegins hsteps hne, hne, hsteps, hlast, ?_⟩
  rw [Bool.eq_iff_iff, isAbsolute_iff_components, isAbsolute_iff_components,
    components_ofComponents hbegins hsteps, hcomponents]
  obtain ⟨more, hmore⟩ := hfront
  obtain ⟨c, others, rfl⟩ := List.exists_cons_of_ne_nil hne
  rw [← hmore]
  cases hbegins <;> rfl

/-- If the path has no two dots, it is written by names. -/
theorem LiesAbove.exists_names (h : LiesAbove dir p) (hdots : [dot, dot] ∉ p.pieces) :
    dir.text ∈ [[], [slash], [dot]] ∨ ∃ lead rest names more, p.pieces = lead ++ rest ∧
      dir.pieces = lead ++ names ∧ names ≠ [] ∧ (∀ n ∈ names, IsName n) ∧
      rest.filterMap ofPiece? = names.map .name ++ more ∧ .parent ∉ more ∧
      dir.isAbsolute = p.isAbsolute := by
  rcases h.cases with hbegins | ⟨lead, rest, front, hpieces, hpieces', hne, hsteps, hfront, habsolute⟩
  · exact .inl hbegins
  obtain ⟨more, hmore⟩ := hfront.trans (List.dropLast_prefix _)
  have hup : .parent ∉ front ++ more := by
    rw [hmore, parent_mem_filterMap_iff]
    exact fun hmem => hdots (hpieces ▸ List.mem_append_right lead hmem)
  have hfront : ∀ c ∈ front, ∃ n, c = .name n ∧ IsName n := by
    intro c hc
    refine (hsteps c hc).resolve_left ?_
    rintro rfl
    exact hup (List.mem_append_left _ hc)
  have hread : (front.map Component.text).map Component.name = front := by
    rw [List.map_map]
    refine (List.map_congr_left fun c hc => ?_).trans (List.map_id front)
    obtain ⟨n, rfl, -⟩ := hfront c hc
    rfl
  refine .inr ⟨lead, rest, front.map Component.text, more, hpieces, hpieces', by simpa using hne, ?_, ?_, ?_,
    habsolute⟩
  · intro n hn
    obtain ⟨c, hc, rfl⟩ := List.mem_map.1 hn
    obtain ⟨n, rfl, hname⟩ := hfront c hc
    exact hname
  · rw [hread, hmore]
  · exact fun hmem => hup (List.mem_append_right front hmem)

/-- Seen from a directory, a path is read with its own pieces behind those of the directory. -/
theorem exists_pieces_join (cwd p : Path) :
    ∃ before, ∀ q : Path, q.isAbsolute = p.isAbsolute → (cwd.join q).pieces = before ++ q.pieces := by
  by_cases hp : p.isAbsolute = true
  · exact ⟨[], fun q hq => by rw [join_of_isAbsolute cwd (hq.trans hp)]; rfl⟩
  have hjoin : ∀ q : Path, q.isAbsolute = p.isAbsolute → cwd.join q = if cwd.text = [] then q else
      if cwd.text.getLast? = some slash then ⟨cwd.text ++ q.text⟩ else ⟨cwd.text ++ slash :: q.text⟩ :=
    fun q hq => by rw [join, if_neg (hq ▸ hp)]
  by_cases hempty : cwd.text = []
  · exact ⟨[], fun q hq => by rw [hjoin q hq, if_pos hempty]; rfl⟩
  by_cases hend : cwd.text.getLast? = some slash
  · obtain ⟨front, hfront⟩ := List.getLast?_eq_some_iff.1 hend
    refine ⟨Text.splitList slash front, fun q hq => ?_⟩
    rw [hjoin q hq, if_neg hempty, if_pos hend, hfront, List.append_assoc]
    exact Text.splitList_append front q.text
  · refine ⟨cwd.pieces, fun q hq => ?_⟩
    rw [hjoin q hq, if_neg hempty, if_neg hend]
    exact Text.splitList_append cwd.text q.text

/-- Seen from a directory, a directory above a path is reached with the first steps of the path, but not with
all. -/
theorem LiesAbove.steps_join_prefix (h : LiesAbove dir p) (cwd : Path) :
    dir.text ∈ [[], [slash], [dot]] ∨ (cwd.join dir).steps <+: (cwd.join p).steps.dropLast := by
  rcases h.cases with hbegins | ⟨lead, rest, front, hpieces, hpieces', hne, hsteps, hfront, habsolute⟩
  · exact .inl hbegins
  right
  obtain ⟨before, hbefore⟩ := exists_pieces_join cwd p
  have hmore : rest.filterMap ofPiece? ≠ [] := by
    intro hnil
    rw [hnil] at hfront
    exact hne (List.prefix_nil.1 hfront)
  rw [steps, hbefore dir habsolute, hpieces', steps, hbefore p rfl, hpieces, List.filterMap_append,
    List.filterMap_append, filterMap_text hsteps, List.filterMap_append, List.filterMap_append,
    ← List.append_assoc, ← List.append_assoc, List.dropLast_append_of_ne_nil hmore]
  exact (List.prefix_append_right_inj _).2 hfront

theorem isAbsolute_join_iff (p q : Path) :
    (p.join q).isAbsolute = true ↔ p.isAbsolute = true ∨ q.isAbsolute = true := by
  refine ⟨fun h => ?_, fun h => h.elim isAbsolute_join fun hq => (join_of_isAbsolute p hq).symm ▸ hq⟩
  by_cases hq : q.isAbsolute = true
  · exact .inr hq
  by_cases hempty : p.text = []
  · rw [join, if_neg hq, if_pos hempty] at h
    exact .inr h
  left
  obtain ⟨b, bs, hbs⟩ := List.exists_cons_of_ne_nil hempty
  obtain ⟨rest, hrest⟩ := isAbsolute_iff.1 h
  rw [join, if_neg hq, if_neg hempty] at hrest
  refine isAbsolute_iff.2 ⟨bs, ?_⟩
  split at hrest <;> simp_all

/-- A relative path adds its own steps to those of a directory, from wherever the directory is seen. -/
theorem steps_join_join (cwd root : Path) (hq : q.isAbsolute = false) :
    (cwd.join (root.join q)).steps = (cwd.join root).steps ++ q.steps := by
  have happend : ∀ p q : Path, q.isAbsolute = false → (p.join q).steps = p.steps ++ q.steps := by
    intro p q hq
    by_cases hempty : p.text = []
    · have hnone : p.steps = [] := by
        rw [show p = ⟨[]⟩ from congrArg Path.mk hempty]
        decide
      rw [hnone, join, if_neg (by simp [hq]), if_pos hempty]
      rfl
    · exact steps_join hempty hq
  by_cases hroot : root.isAbsolute = true
  · rw [join_of_isAbsolute cwd hroot, join_of_isAbsolute cwd (isAbsolute_join hroot), happend root q hq]
  · have hjoined : (root.join q).isAbsolute = false := by
      rw [← Bool.not_eq_true, isAbsolute_join_iff]
      simp [hroot, hq]
    rw [happend cwd _ hjoined, happend root q hq, happend cwd root (by simpa using hroot),
      List.append_assoc]

end TextCatalog.Path
