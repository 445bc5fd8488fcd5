import TextCatalog.Key
import TextCatalog.Proofs.Path.Join
import TextCatalog.Proofs.Text.Raw

/-!
# Relative paths

Seen from a directory, a location is two dots for each name of the directory that does not lead there,
and then the names that do. Two dots are no name, so the text that is made of these splits into them again.
-/

namespace TextCatalog.Path

open Component
open RawText (IsText)

section Shared

/-- Two lists part where they share no more. -/
theorem exists_append_of_sharedLength (as bs : List Component) :
    ∃ front up down, as = front ++ up ∧ bs = front ++ down ∧ sharedLength as bs = front.length ∧
      ∀ a ∈ up.head?, a ∉ down.head? := by
  induction as generalizing bs with
  | nil => exact ⟨[], [], bs, rfl, rfl, by simp [sharedLength], by simp⟩
  | cons a as ih =>
    cases bs with
    | nil => exact ⟨[], a :: as, [], rfl, rfl, by simp [sharedLength], by simp⟩
    | cons b bs =>
      by_cases hab : a = b
      · subst hab
        obtain ⟨front, up, down, has, hbs, hlength, hpart⟩ := ih bs
        refine ⟨a :: front, up, down, by rw [has]; rfl, by rw [hbs]; rfl, ?_, hpart⟩
        rw [sharedLength, if_pos rfl, hlength, List.length_cons]
      · refine ⟨[], a :: as, b :: bs, rfl, rfl, ?_, ?_⟩
        · rw [sharedLength, if_neg hab]
          rfl
        · simpa using Ne.symm hab

end Shared

/-- The names among the components. -/
def namesIn (cs : List Component) : List RawText :=
  cs.filterMap fun
    | name n => some n
    | _ => none

theorem namesIn_append_map (ups : Nat) (names : List RawText) :
    namesIn (List.replicate ups .parent ++ names.map .name) = names := by
  rw [namesIn, List.filterMap_append, List.filterMap_replicate, List.filterMap_map]
  exact congrFun List.filterMap_eq_map' names |>.trans (List.map_id names)

theorem namesIn_map (names : List RawText) : namesIn (names.map .name) = names :=
  namesIn_append_map 0 names

/-- The path as it is seen from the root is UTF-8. -/
def IsTextFrom (root p : Path) : Prop :=
  ∀ n ∈ namesIn (relative root p), IsText n

instance (root p : Path) : Decidable (IsTextFrom root p) :=
  inferInstanceAs (Decidable (∀ n ∈ namesIn (relative root p), IsText n))

section Relative

variable {root : Path} {loc up down : List RawText}

/-- The pieces of a relative path as a text: two dots for each step up, and then the names as they are
read. -/
def shownPieces (ups : Nat) (names : List RawText) : List String :=
  List.replicate ups ".." ++ names.map RawText.lossy

/-- The way from a directory to a location goes up to where they part, and down from there. -/
structure Parts (root : Path) (loc front up down : List RawText) : Prop where
  root_eq : root.location = front ++ up
  loc_eq : loc = front ++ down
  part : ∀ a ∈ up.head?, a ∉ down.head?
  relative_eq : relative root (ofLocation loc) = List.replicate up.length .parent ++ down.map .name

theorem slashed_relative (ups : Nat) (down : List RawText) :
    slashed (List.replicate ups .parent ++ down.map .name)
      = String.intercalate "/" (shownPieces ups down) := by
  rw [slashed, shownPieces, List.filterMap_append, List.filterMap_replicate, List.filterMap_map]
  exact congrArg (fun names => String.intercalate "/" (List.replicate ups ".." ++ names))
    (congrFun List.filterMap_eq_map' down)

theorem exists_parts (hroot : root.IsInner) (hloc : ∀ n ∈ loc, IsName n) :
    ∃ front up down, Parts root loc front up down := by
  obtain ⟨front, up, down, hup, hdown, hlength, hpart⟩ :=
    exists_append_of_sharedLength (root.location.map .name) (loc.map .name)
  obtain ⟨front', up', heq, hfront, rfl⟩ := List.map_eq_append_iff.1 hup
  obtain ⟨front'', down', rfl, hfront', rfl⟩ := List.map_eq_append_iff.1 hdown
  obtain rfl : front' = front'' :=
    List.map_injective_iff.2 (fun _ _ => Component.name.inj) (hfront.trans hfront'.symm)
  have hshared : sharedLength (.root :: root.location.map .name)
      (.root :: (front' ++ down').map .name) = front'.length + 1 := by
    rw [sharedLength, if_pos rfl, hlength, ← hfront, List.length_map]
  have hrelative : relative root (ofLocation (front' ++ down'))
      = List.replicate up'.length .parent ++ down'.map .name := by
    rw [relative, hroot.normalComponents_eq, normalComponents_ofLocation hloc, hshared, heq,
      List.drop_succ_cons, List.map_append, List.map_append, List.length_cons, List.length_append,
      List.length_map, List.length_map,
      List.drop_left' (List.length_map Component.name)]
    have hcount : front'.length + up'.length + 1 - (front'.length + 1) = up'.length := by omega
    rw [hcount]
    cases down' <;> rfl
  refine ⟨front', up', down', heq, rfl, ?_, hrelative⟩
  intro a ha hmem
  exact hpart (.name a) (by simpa using ha) (by simpa using hmem)

/-- What leads to both leads to where they part. -/
theorem Parts.prefix_front {front above : List RawText} (h : Parts root loc front up down)
    (hroot : above <+: root.location) (hloc : above <+: loc) : above <+: front := by
  rcases List.prefix_or_prefix_of_prefix hroot ⟨up, h.root_eq.symm⟩ with habove | ⟨more, rfl⟩
  · exact habove
  · cases more with
    | nil => simp
    | cons n more =>
      obtain ⟨rest, hrest⟩ := hroot
      obtain ⟨rest', hrest'⟩ := hloc
      rw [h.root_eq, List.append_assoc] at hrest
      rw [h.loc_eq, List.append_assoc] at hrest'
      have hup : up = n :: (more ++ rest) := (List.append_cancel_left hrest).symm
      have hdown : down = n :: (more ++ rest') := (List.append_cancel_left hrest').symm
      exact absurd (by rw [hdown]; rfl) (h.part n (by rw [hup]; rfl))

end Relative

end TextCatalog.Path
