import Mathlib.Data.List.Induction
import TextCatalog.Disk.Tree
import TextCatalog.Proofs.Path.Location

/-!
# Proper trees

A tree is proper if it could be a disk without links: each location holds one node at most, its names
could stand in directories, and what stands anywhere stands in a directory. Putting a node into a
directory and erasing a file keep a tree proper.
-/

namespace TextCatalog.Disk.Tree

open TextCatalog.Path (IsName)

/-- What every disk without links is like. -/
structure Proper (t : Tree) : Prop where
  nodup : (t.nodes.map Prod.fst).Nodup
  names : ∀ n ∈ t.nodes, n.1 ≠ [] ∧ ∀ name ∈ n.1, IsName name
  parents : ∀ n ∈ t.nodes, t.find? n.1.dropLast = some .directory
  linkless : ∀ n ∈ t.nodes, n.2.kind ≠ .link

instance (t : Tree) : Decidable t.Proper :=
  decidable_of_iff ((t.nodes.map Prod.fst).Nodup ∧
      (∀ n ∈ t.nodes, n.1 ≠ [] ∧ ∀ name ∈ n.1, IsName name) ∧
      (∀ n ∈ t.nodes, t.find? n.1.dropLast = some .directory) ∧ ∀ n ∈ t.nodes, n.2.kind ≠ .link)
    ⟨fun ⟨hnodup, hnames, hparents, hlinkless⟩ => ⟨hnodup, hnames, hparents, hlinkless⟩,
      fun h => ⟨h.nodup, h.names, h.parents, h.linkless⟩⟩

variable {t : Tree} {loc dir : Location} {name : RawText} {node : Node}

@[simp]
theorem find?_nil (t : Tree) : t.find? [] = some .directory := rfl

theorem ne_nil_of_find?_eq_none (h : t.find? loc = none) : loc ≠ [] := by
  rintro rfl
  cases h

theorem mem_of_find? (h : t.find? loc = some node) (hloc : loc ≠ []) : (loc, node) ∈ t.nodes := by
  rw [find?, if_neg hloc, Option.map_eq_some_iff] at h
  obtain ⟨⟨loc', node'⟩, hfind, rfl⟩ := h
  have hmem := List.mem_of_find?_eq_some hfind
  have heq : loc' = loc := by simpa using List.find?_some hfind
  rwa [← heq]

namespace Proper

theorem find?_of_mem (ht : t.Proper) (h : (loc, node) ∈ t.nodes) : t.find? loc = some node := by
  have hloc : loc ≠ [] := (ht.names _ h).1
  obtain ⟨front, back, hnodes⟩ := List.append_of_mem h
  have hnodup := ht.nodup
  rw [hnodes, List.map_append, List.map_cons, List.nodup_append] at hnodup
  have hfront : front.find? (fun n => n.1 == loc) = none := by
    apply List.find?_eq_none.2
    intro n hn heq
    exact hnodup.2.2 n.1 (List.mem_map_of_mem hn) loc (by simp) (by simpa using heq)
  rw [find?, if_neg hloc, hnodes, List.find?_append, hfront]
  simp

theorem isName_of_find? (ht : t.Proper) (h : t.find? loc = some node) (hname : name ∈ loc) :
    IsName name := by
  have hloc : loc ≠ [] := List.ne_nil_of_mem hname
  exact (ht.names _ (mem_of_find? h hloc)).2 name hname

theorem find?_dropLast (ht : t.Proper) (h : t.find? loc = some node) :
    t.find? loc.dropLast = some .directory := by
  by_cases hloc : loc = []
  · rw [hloc]
    rfl
  · exact ht.parents _ (mem_of_find? h hloc)

/-- Above what stands somewhere there are directories only. -/
theorem find?_of_append (ht : t.Proper) {above below : Location} (hbelow : below ≠ [])
    (h : t.find? (above ++ below) = some node) : t.find? above = some .directory := by
  induction below using List.reverseRecOn generalizing node with
  | nil => exact absurd rfl hbelow
  | append_singleton below name ih =>
    have hparent := ht.find?_dropLast h
    rw [← List.append_assoc, List.dropLast_concat] at hparent
    by_cases hnil : below = []
    · rwa [hnil, List.append_nil] at hparent
    · exact ih hnil hparent

theorem ne_link (ht : t.Proper) {target : Path} : t.find? loc ≠ some (.link target) := by
  intro h
  by_cases hloc : loc = []
  · simp [hloc] at h
  · exact ht.linkless _ (mem_of_find? h hloc) rfl

theorem put (ht : t.Proper) (hname : IsName name) (hdir : t.find? dir = some .directory)
    (hlink : node.kind ≠ .link)
    (hkeep : t.find? (dir ++ [name]) = some .directory → node = .directory) :
    (t.put (dir ++ [name]) node).Proper := by
  have hloc : dir ++ [name] ≠ [] := by simp
  have hmem : ∀ n, n ∈ (t.put (dir ++ [name]) node).nodes →
      n = (dir ++ [name], node) ∨ n ∈ t.nodes ∧ n.1 ≠ dir ++ [name] := by
    intro n hn
    simpa [Tree.put] using hn
  constructor
  · have hrest := ht.nodup.sublist ((List.filter_sublist (p := fun n => n.1 != dir ++ [name])).map Prod.fst)
    apply List.nodup_cons.2 ⟨_, hrest⟩
    simp
  · intro n hn
    rcases hmem n hn with rfl | ⟨hn, -⟩
    · refine ⟨hloc, fun other hother => ?_⟩
      rcases List.mem_append.1 hother with hother | hother
      · exact ht.isName_of_find? hdir hother
      · rwa [List.mem_singleton.1 hother]
    · exact ht.names n hn
  · intro n hn
    have hparent : t.find? n.1.dropLast = some .directory := by
      rcases hmem n hn with rfl | ⟨hn, -⟩
      · rw [List.dropLast_concat, hdir]
      · exact ht.parents n hn
    by_cases heq : n.1.dropLast = dir ++ [name]
    · rw [heq] at hparent ⊢
      rw [find?_put_self hloc, hkeep hparent]
    · rw [find?_put_of_ne heq, hparent]
  · intro n hn
    rcases hmem n hn with rfl | ⟨hn, -⟩
    · exact hlink
    · exact ht.linkless n hn

theorem erase (ht : t.Proper) (hfile : t.find? loc ≠ some .directory) : (t.erase loc).Proper := by
  have hmem : ∀ n, n ∈ (t.erase loc).nodes → n ∈ t.nodes := fun n hn => (List.mem_filter.1 hn).1
  constructor
  · exact ht.nodup.sublist (List.filter_sublist.map Prod.fst)
  · exact fun n hn => ht.names n (hmem n hn)
  · intro n hn
    have hparent := ht.parents n (hmem n hn)
    have hne : n.1.dropLast ≠ loc := by
      intro heq
      exact hfile (heq ▸ hparent)
    rw [find?_erase_of_ne hne, hparent]
  · exact fun n hn => ht.linkless n (hmem n hn)

end Proper

theorem from?_eq_some_iff {top loc rest : Location} :
    Location.from? top loc = some rest ↔ loc = top ++ rest := by
  induction top generalizing loc with
  | nil => simp [Location.from?]
  | cons a top ih =>
    cases loc with
    | nil => simp [Location.from?]
    | cons b loc =>
      by_cases hab : a = b
      · simp [Location.from?, hab, ih]
      · simp [Location.from?, hab, Ne.symm hab]

/-- What lies below a location is what stands at the locations that continue it. -/
theorem mem_below_iff (ht : t.Proper) {names : Location} :
    (names, node) ∈ t.below loc ↔ names ≠ [] ∧ t.find? (loc ++ names) = some node := by
  rw [below, List.mem_filterMap]
  constructor
  · rintro ⟨⟨loc', node'⟩, hmem, hfrom⟩
    dsimp only at hfrom
    split at hfrom
    next first rest hrest =>
      obtain ⟨rfl, rfl⟩ := Prod.mk.inj (Option.some.inj hfrom)
      rw [← from?_eq_some_iff.1 hrest]
      exact ⟨by simp, ht.find?_of_mem hmem⟩
    next => simp at hfrom
  · rintro ⟨hnames, hfind⟩
    obtain ⟨first, rest, rfl⟩ := List.exists_cons_of_ne_nil hnames
    refine ⟨(loc ++ first :: rest, node), mem_of_find? hfind (by simp), ?_⟩
    dsimp only
    rw [from?_eq_some_iff.2 rfl]

end TextCatalog.Disk.Tree
