import Mathlib.Data.List.Basic
import TextCatalog.Text.Units

/-!
# Code units

A text as generated code sees it: a list of UTF-16 code units. A character above U+FFFF is two of
them, and the second of such a pair begins no character. So a text can only be taken apart where it
is taken apart into characters.
-/

namespace TextCatalog.Text

/-- The UTF-16 code units of a character, as numbers. -/
def charUnits (c : Char) : List Nat :=
  if c.toNat < 0x10000 then [c.toNat]
  else [0xD800 + (c.toNat - 0x10000) / 0x400, 0xDC00 + (c.toNat - 0x10000) % 0x400]

def codeUnits (cs : List Char) : List Nat :=
  cs.flatMap charUnits

/-- Whether a unit is the second one of a pair. -/
def IsTrail (u : Nat) : Prop :=
  0xDC00 ≤ u ∧ u < 0xE000

@[simp]
theorem codeUnits_nil : codeUnits [] = [] := rfl

@[simp]
theorem codeUnits_cons (c : Char) (cs : List Char) :
    codeUnits (c :: cs) = charUnits c ++ codeUnits cs := rfl

@[simp]
theorem codeUnits_append (as bs : List Char) :
    codeUnits (as ++ bs) = codeUnits as ++ codeUnits bs := by
  simp [codeUnits]

/-- The two forms of a character: one unit that is no part of a pair, or a pair. -/
theorem charUnits_cases (c : Char) :
    (charUnits c = [c.toNat] ∧ ¬ IsTrail c.toNat) ∨
      ∃ lead trail, charUnits c = [lead, trail] ∧ 0xD800 ≤ lead ∧ lead < 0xDC00 ∧ IsTrail trail := by
  have hvalid : c.toNat < 0xD800 ∨ 0xDFFF < c.toNat ∧ c.toNat < 0x110000 := c.valid
  by_cases h : c.toNat < 0x10000
  · left
    refine ⟨by simp [charUnits, h], ?_⟩
    simp only [IsTrail]
    omega
  · right
    refine ⟨0xD800 + (c.toNat - 0x10000) / 0x400, 0xDC00 + (c.toNat - 0x10000) % 0x400,
      by simp [charUnits, h], by omega, by omega, ?_⟩
    simp only [IsTrail]
    omega

theorem charUnits_ne_nil (c : Char) : charUnits c ≠ [] := by
  rcases charUnits_cases c with ⟨h, -⟩ | ⟨lead, trail, h, -⟩ <;> simp [h]

theorem codeUnits_eq_nil_iff {cs : List Char} : codeUnits cs = [] ↔ cs = [] := by
  cases cs with
  | nil => simp
  | cons c cs => simp [charUnits_ne_nil]

/-- No character begins with the second unit of a pair. -/
theorem not_isTrail_head {cs : List Char} {u : Nat} {us : List Nat} (h : codeUnits cs = u :: us) :
    ¬ IsTrail u := by
  cases cs with
  | nil => simp at h
  | cons c cs =>
    rcases charUnits_cases c with ⟨hc, hne⟩ | ⟨lead, trail, hc, hlead⟩
    · rw [codeUnits_cons, hc] at h
      obtain ⟨rfl, -⟩ := List.cons.inj h
      exact hne
    · rw [codeUnits_cons, hc] at h
      obtain ⟨rfl, -⟩ := List.cons.inj h
      simp only [IsTrail]
      omega

/-- A character is determined by its units and by what follows them. -/
theorem charUnits_append_inj {c c' : Char} {us us' : List Nat}
    (h : charUnits c ++ us = charUnits c' ++ us') : c = c' ∧ us = us' := by
  have hvalid : c.toNat < 0xD800 ∨ 0xDFFF < c.toNat ∧ c.toNat < 0x110000 := c.valid
  have hvalid' : c'.toNat < 0xD800 ∨ 0xDFFF < c'.toNat ∧ c'.toNat < 0x110000 := c'.valid
  have hchar : c.toNat = c'.toNat ∧ us = us' := by
    unfold charUnits at h
    split at h <;> split at h <;> simp only [List.cons_append, List.nil_append, List.cons.injEq] at h
    · exact h
    · omega
    · omega
    · exact ⟨by omega, h.2.2⟩
  exact ⟨Char.toNat_inj.1 hchar.1, hchar.2⟩

/-- What starts with the units of a text starts with the text. -/
theorem codeUnits_eq_append_left {cs lead : List Char} {us : List Nat}
    (h : codeUnits cs = codeUnits lead ++ us) : ∃ rest, cs = lead ++ rest ∧ us = codeUnits rest := by
  induction lead generalizing cs with
  | nil => exact ⟨cs, rfl, by simpa using h.symm⟩
  | cons l lead ih =>
    cases cs with
    | nil => simp [charUnits_ne_nil] at h
    | cons c cs =>
      rw [codeUnits_cons, codeUnits_cons, List.append_assoc] at h
      obtain ⟨rfl, htail⟩ := charUnits_append_inj h
      obtain ⟨rest, rfl, hrest⟩ := ih htail
      exact ⟨rest, rfl, hrest⟩

theorem codeUnits_injective : Function.Injective codeUnits := by
  intro as bs h
  have happend : codeUnits as = codeUnits bs ++ [] := by simpa using h
  obtain ⟨rest, rfl, hrest⟩ := codeUnits_eq_append_left happend
  simp [codeUnits_eq_nil_iff.1 hrest.symm]

/-- Units that are taken apart before a unit that is no second one of a pair are taken apart into
characters. -/
theorem codeUnits_eq_append {cs : List Char} {us vs : List Nat} (h : codeUnits cs = us ++ vs)
    (hvs : ∀ v ∈ vs.head?, ¬ IsTrail v) :
    ∃ as bs, cs = as ++ bs ∧ us = codeUnits as ∧ vs = codeUnits bs := by
  induction cs generalizing us with
  | nil =>
    have hnil : us = [] ∧ vs = [] := by simpa using h.symm
    exact ⟨[], [], rfl, hnil.1, hnil.2⟩
  | cons c cs ih =>
    cases us with
    | nil => exact ⟨[], c :: cs, rfl, rfl, h.symm⟩
    | cons u us =>
      rcases charUnits_cases c with ⟨hc, -⟩ | ⟨lead, trail, hc, -, -, htrail⟩
      · rw [codeUnits_cons, hc, List.singleton_append, List.cons_append, List.cons.injEq] at h
        obtain ⟨rfl, htail⟩ := h
        obtain ⟨as, bs, rfl, rfl, hbs⟩ := ih htail
        exact ⟨c :: as, bs, rfl, by simp [hc], hbs⟩
      · rw [codeUnits_cons, hc, List.cons_append, List.cons_append, List.nil_append,
          List.cons_append, List.cons.injEq] at h
        obtain ⟨rfl, htail⟩ := h
        cases us with
        | nil =>
          rw [List.nil_append] at htail
          exact absurd htrail (hvs trail (by simp [← htail]))
        | cons u' us =>
          rw [List.cons_append, List.cons.injEq] at htail
          obtain ⟨rfl, htail⟩ := htail
          obtain ⟨as, bs, rfl, rfl, hbs⟩ := ih htail
          exact ⟨c :: as, bs, rfl, by simp [hc], hbs⟩

theorem length_codeUnits (s : String) : (codeUnits s.toList).length = units s := by
  have hfold : ∀ (cs : List Char) (n : Nat),
      cs.foldl (fun n c => n + unitCount c) n = n + (codeUnits cs).length := by
    intro cs
    induction cs with
    | nil => simp
    | cons c cs ih =>
      intro n
      have hcount : (charUnits c).length = unitCount c := by
        unfold charUnits unitCount
        split <;> rfl
      rw [List.foldl_cons, ih, codeUnits_cons, List.length_append, hcount, Nat.add_assoc]
  simp [units, hfold]

end TextCatalog.Text
