/-!
# Splitting and prefixes

Cutting a text at a separator and taking a known prefix off it, on characters and on strings.
-/

namespace TextCatalog.Text

/-- The pieces between the occurrences of `sep`; there is one more piece than there are
separators. -/
def splitList {α : Type} [DecidableEq α] (sep : α) : List α → List (List α)
  | [] => [[]]
  | c :: cs =>
    if c = sep then [] :: splitList sep cs
    else
      match splitList sep cs with
      | [] => [[c]]
      | piece :: pieces => (c :: piece) :: pieces

def split (sep : Char) (s : String) : List String :=
  (splitList sep s.toList).map String.ofList

/-- What follows `lead` in `cs`, if `cs` starts with it. -/
def restAfter? : (lead cs : List Char) → Option (List Char)
  | [], cs => some cs
  | _ :: _, [] => none
  | l :: lead, c :: cs => if l = c then restAfter? lead cs else none

def after? (lead s : String) : Option String :=
  (restAfter? lead.toList s.toList).map String.ofList

def startsWith (lead s : String) : Bool :=
  (restAfter? lead.toList s.toList).isSome

def endsWithChar (c : Char) (s : String) : Bool :=
  s.toList.getLast? == some c

/-- The parts before and after the first `sep`, if there is one. -/
def cutAt? (sep : Char) : List Char → Option (List Char × List Char)
  | [] => none
  | c :: cs => if c = sep then some ([], cs) else (cutAt? sep cs).map fun r => (c :: r.1, r.2)

theorem restAfter?_eq_some_iff {lead cs rest : List Char} :
    restAfter? lead cs = some rest ↔ cs = lead ++ rest := by
  induction lead generalizing cs with
  | nil => simp [restAfter?, eq_comm]
  | cons l lead ih =>
    cases cs with
    | nil => simp [restAfter?]
    | cons c cs =>
      by_cases h : l = c
      · simp [restAfter?, h, ih]
      · simp [restAfter?, h, Ne.symm h]

theorem after?_eq_some_iff {lead s rest : String} : after? lead s = some rest ↔ s = lead ++ rest := by
  simp only [after?, Option.map_eq_some_iff, restAfter?_eq_some_iff]
  constructor
  · rintro ⟨cs, h, rfl⟩
    apply String.toList_inj.1
    simp [h]
  · rintro rfl
    exact ⟨rest.toList, by simp, by simp⟩

theorem startsWith_iff {lead s : String} : startsWith lead s = true ↔ ∃ rest, s = lead ++ rest := by
  simp only [← after?_eq_some_iff, ← Option.isSome_iff_exists]
  rw [startsWith, after?, Option.isSome_map]

theorem startsWith_eq_false_iff {lead s : String} :
    startsWith lead s = false ↔ ∀ rest, s.toList ≠ lead.toList ++ rest := by
  rw [startsWith, Option.isSome_eq_false_iff, Option.isNone_iff_eq_none,
    Option.eq_none_iff_forall_ne_some]
  simp only [ne_eq, restAfter?_eq_some_iff]

theorem splitList_ne_nil {α : Type} [DecidableEq α] (sep : α) (cs : List α) :
    splitList sep cs ≠ [] := by
  induction cs with
  | nil => simp [splitList]
  | cons c cs ih =>
    rw [splitList]
    split
    · simp
    · split <;> simp

end TextCatalog.Text
