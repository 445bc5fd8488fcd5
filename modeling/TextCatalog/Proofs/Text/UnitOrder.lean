import Mathlib.Data.String.Basic
import TextCatalog.Proofs.Text.CodeUnits

/-!
# Two orders of texts

Ordered by code units, texts come as they come ordered by characters, but for one thing: a character
above U+FFFF is a pair of units, and the first of the pair comes before the characters from U+E000 to
U+FFFF.
-/

namespace TextCatalog.Text

/-- The texts first differ in two characters that come the other way round by their code units. -/
def Disputed (as bs : List Char) : Prop :=
  ∃ front c d cs ds, as = front ++ c :: cs ∧ bs = front ++ d :: ds ∧
    0xE000 ≤ c.toNat ∧ c.toNat < 0x10000 ∧ 0x10000 ≤ d.toNat

section Characters

variable {c d : Char} {as bs : List Char}

theorem disputed_cons_self : Disputed (c :: as) (c :: bs) ↔ Disputed as bs := by
  constructor
  · rintro ⟨front, a, b, as', bs', has, hbs, hlow, hhigh, hpair⟩
    cases front with
    | nil =>
      obtain rfl := (List.cons.inj has).1
      obtain rfl := (List.cons.inj hbs).1
      omega
    | cons first front =>
      exact ⟨front, a, b, as', bs', (List.cons.inj has).2, (List.cons.inj hbs).2, hlow, hhigh, hpair⟩
  · rintro ⟨front, a, b, as', bs', rfl, rfl, hrange⟩
    exact ⟨c :: front, a, b, as', bs', rfl, rfl, hrange⟩

theorem disputed_cons_of_ne (h : c ≠ d) :
    Disputed (c :: as) (d :: bs) ↔ 0xE000 ≤ c.toNat ∧ c.toNat < 0x10000 ∧ 0x10000 ≤ d.toNat := by
  constructor
  · rintro ⟨front, a, b, as', bs', has, hbs, hrange⟩
    cases front with
    | nil =>
      obtain rfl := (List.cons.inj has).1
      obtain rfl := (List.cons.inj hbs).1
      exact hrange
    | cons first front =>
      obtain rfl := (List.cons.inj has).1
      exact absurd (List.cons.inj hbs).1.symm h
  · exact fun hrange => ⟨[], c, d, as, bs, rfl, rfl, hrange⟩

theorem not_disputed_nil : ¬ Disputed [] bs := by
  rintro ⟨front, a, b, as', bs', has, -⟩
  simp at has

/-- Of two characters the lesser one comes first by its units too, unless it is one unit behind those of
pairs and the other one a pair. -/
theorem charUnits_append_lt_iff (h : c < d) (us vs : List Nat) :
    charUnits c ++ us < charUnits d ++ vs ↔
      ¬ (0xE000 ≤ c.toNat ∧ c.toNat < 0x10000 ∧ 0x10000 ≤ d.toNat) := by
  have hlt : c.toNat < d.toNat := h
  have hvalid : c.toNat < 0xD800 ∨ 0xDFFF < c.toNat ∧ c.toNat < 0x110000 := c.valid
  have hvalid' : d.toNat < 0xD800 ∨ 0xDFFF < d.toNat ∧ d.toNat < 0x110000 := d.valid
  unfold charUnits
  split <;> split <;> simp only [List.cons_append, List.nil_append, List.cons_lt_cons_iff]
  · omega
  · omega
  · omega
  · omega

/-- Texts without characters above U+FFFF are never disputed. -/
theorem not_disputed_of_forall_lt (h : ∀ c ∈ bs, c.toNat < 0x10000) : ¬ Disputed as bs := by
  rintro ⟨front, c, d, cs, ds, -, rfl, -, -, hhigh⟩
  exact absurd (h d (by simp)) (by omega)

theorem Disputed.lt (h : Disputed as bs) : as < bs := by
  obtain ⟨front, c, d, cs, ds, rfl, rfl, -, hlow, hhigh⟩ := h
  have hcd : c < d := show c.toNat < d.toNat by omega
  exact List.append_left_lt (List.cons_lt_cons_iff.2 (.inl hcd))

/-- Where the first text comes first by its characters, it comes first by its units unless the two are
disputed. -/
theorem codeUnits_lt_iff (h : as < bs) : codeUnits as < codeUnits bs ↔ ¬ Disputed as bs := by
  induction as generalizing bs with
  | nil =>
    obtain ⟨b, bs, rfl⟩ := List.exists_cons_of_ne_nil (show bs ≠ [] by rintro rfl; cases h)
    obtain ⟨u, us, hb⟩ := List.exists_cons_of_ne_nil (charUnits_ne_nil b)
    simp [hb, not_disputed_nil]
  | cons a as ih =>
    obtain ⟨b, bs, rfl⟩ := List.exists_cons_of_ne_nil (show bs ≠ [] by rintro rfl; cases h)
    rw [codeUnits_cons, codeUnits_cons]
    rcases List.cons_lt_cons_iff.1 h with hab | ⟨rfl, htail⟩
    · rw [charUnits_append_lt_iff hab, disputed_cons_of_ne hab.ne]
    · rw [disputed_cons_self, ← ih htail]
      rcases charUnits_cases a with ⟨ha, -⟩ | ⟨lead, trail, ha, -⟩ <;>
        simp only [ha, List.cons_append, List.nil_append, List.cons_lt_cons_self]

end Characters

end TextCatalog.Text
