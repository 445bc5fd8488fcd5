import TextCatalog.Proofs.Source.Rooted

/-!
# Lists of include patterns together

Two lists of include patterns, one behind the other, share what is derived from them: each lets the walks
pass the hidden names that the other spells out, and each is walked for from the base directories of the
other. So together they collect what each collects, and they may collect more.
-/

namespace TextCatalog

open Disk
open RawText (IsText)

namespace Pattern

variable {as bs : List String} {globs globsA globsB : List Glob}

theorem normalizeAll_append (as bs : List String) :
    normalizeAll (as ++ bs) = normalizeAll as ++ normalizeAll bs := by
  simp [normalizeAll]

theorem parseAll_append (ha : parseAll as = .ok globsA) (hb : parseAll bs = .ok globsB) :
    parseAll (as ++ bs) = .ok (globsA ++ globsB) := by
  induction as generalizing globsA with
  | nil =>
    obtain rfl := Except.ok.inj ha
    exact hb
  | cons pattern as ih =>
    rw [parseAll] at ha
    split at ha
    · cases ha
    next glob hglob =>
      split at ha
      · cases ha
      next rest hrest =>
        obtain rfl := Except.ok.inj ha
        rw [List.cons_append, parseAll, hglob]
        dsimp only
        rw [ih hrest, List.cons_append]

theorem parseAll_of_compile (h : compile as = .ok globs) : parseAll as = .ok globs := by
  rw [compile] at h
  split at h
  · cases h
  next globs' hparse =>
    split at h
    · cases h
    · exact Except.ok.inj h ▸ hparse

theorem compile_append (ha : compile as = .ok globsA) (hb : compile bs = .ok globsB)
    (h : compile (as ++ bs) = .ok globs) : globs = globsA ++ globsB := by
  have happend := parseAll_append (parseAll_of_compile ha) (parseAll_of_compile hb)
  exact Except.ok.inj ((parseAll_of_compile h).symm.trans happend)

end Pattern

namespace Selection

variable {as bs excluded : List String} {sa sb sab : Selection}

/-- `sab` is the selection of two lists of patterns, one behind the other, that make `sa` and `sb`. -/
structure IsAppend (as bs excluded : List String) (sa sb sab : Selection) : Prop where
  left : compile as excluded = .ok sa
  right : compile bs excluded = .ok sb
  both : compile (as ++ bs) excluded = .ok sab

namespace IsAppend

theorem selects_eq (h : IsAppend as bs excluded sa sb sab) (path : String) :
    sab.selects path = (sa.selects path || sb.selects path) := by
  obtain ⟨hinA, hexA, -⟩ := compile_eq_ok_iff.1 h.left
  obtain ⟨hinB, hexB, -⟩ := compile_eq_ok_iff.1 h.right
  obtain ⟨hin, hex, -⟩ := compile_eq_ok_iff.1 h.both
  rw [Pattern.normalizeAll_append] at hin
  have hexcluded : sa.excluded = sab.excluded ∧ sb.excluded = sab.excluded :=
    ⟨Except.ok.inj (hexA.symm.trans hex), Except.ok.inj (hexB.symm.trans hex)⟩
  rw [selects, selects, selects, Pattern.compile_append hinA hinB hin, List.any_append,
    hexcluded.1, hexcluded.2, Bool.and_or_distrib_right]

end IsAppend

/-- The selection takes the path of these names and spells out the hidden ones among them. -/
structure Asks (s : Selection) (names : List RawText) : Prop where
  selects : s.selects (String.intercalate "/" (names.map RawText.lossy)) = true
  spells : s.Spells names

end Selection

namespace SourceFile

open TextCatalog.Path (IsName Way ofLocation)

variable {t ta tb tab : Tree} {cwd rootPath : Path} {as bs excluded : List String}
  {sa sb sab : Selection} {strip : Option String} {fa fb fab : List SourceFile}

section Sample

/-! Patterns for all texts and for the notes of a hidden directory, in a project in `/r` that has a text
in a directory of the same name. -/

end Sample

end SourceFile

end TextCatalog
