import Mathlib.Data.List.Basic
import TextCatalog.Json.Parse
import TextCatalog.Text.Blank

/-!
# Reading quoted strings back

The reader of JSON strings undoes both written forms: what a code module escapes beyond JSON, the two
separators, it escapes in a way that JSON also knows. No line of a file is cut inside of a quoted
string, because every control character is escaped.
-/

namespace TextCatalog.Text

open Json

section Hexadecimal

theorem hexValue?_hexDigit {n : Nat} (h : n < 16) : hexValue? (hexDigit n) = some n := by
  have hall : ∀ n < 16, hexValue? (hexDigit n) = some n := by decide
  exact hall n h

theorem hex4?_hexDigit {n : Nat} (h : n < 0x10000) :
    hex4? (hexDigit (n / 4096 % 16)) (hexDigit (n / 256 % 16)) (hexDigit (n / 16 % 16))
      (hexDigit (n % 16)) = some n := by
  have hdigits : ((n / 4096 % 16 * 16 + n / 256 % 16) * 16 + n / 16 % 16) * 16 + n % 16 = n := by
    omega
  simp [hex4?, hexValue?_hexDigit, Nat.mod_lt, hdigits]

theorem charOfCode?_toNat (c : Char) : charOfCode? c.toNat = some c := by
  have hvalid : c.toNat.isValidChar := c.valid
  rw [charOfCode?, if_pos hvalid, Char.ofNat_toNat]

/-- The escape of a code below the surrogates is read as one character, whatever follows it. -/
theorem stringBody_unicodeEscape {c : Char} (h : c.toNat < 0xD800) (acc rest : List Char) :
    stringBody acc (unicodeEscape c.toNat ++ rest) = stringBody (c :: acc) rest := by
  have hcode := hex4?_hexDigit (n := c.toNat) (by omega)
  have hchar := charOfCode?_toNat c
  rw [unicodeEscape]
  generalize hexDigit (c.toNat / 4096 % 16) = d₁ at *
  generalize hexDigit (c.toNat / 256 % 16) = d₂ at *
  generalize hexDigit (c.toNat / 16 % 16) = d₃ at *
  generalize hexDigit (c.toNat % 16) = d₄ at *
  simp only [List.cons_append, List.nil_append]
  -- The reader looks for the second half of a pair, but the code is not a first half.
  by_cases hpair : ∃ e f g h tail, rest = '\\' :: 'u' :: e :: f :: g :: h :: tail
  · obtain ⟨e, f, g, h', tail, rfl⟩ := hpair
    have hhigh : ¬ (0xD800 ≤ c.toNat ∧ c.toNat < 0xDC00) := by omega
    rw [stringBody]
    simp [hcode, hchar, hhigh]
  · rw [stringBody]
    · simp [hcode, hchar]
    · rintro e f g h' tail rfl
      exact hpair ⟨e, f, g, h', tail, rfl⟩

end Hexadecimal

section Escapes

/-- A character is written behind a backslash, by its code or as it is. -/
theorem escapeChar_cases (c : Char) :
    (∃ e, simpleEscape? e = some c ∧ escapeChar c = ['\\', e]) ∨
      (c.toNat < 0x20 ∧ escapeChar c = unicodeEscape c.toNat) ∨
      (c ≠ '"' ∧ c ≠ '\\' ∧ 0x20 ≤ c.toNat ∧ escapeChar c = [c]) := by
  rw [escapeChar.eq_def]
  split
  case h_8 hquote hslash _ _ _ _ _ =>
    split
    next hlow => exact .inr (.inl ⟨hlow, rfl⟩)
    next hlow => exact .inr (.inr ⟨hquote, hslash, Nat.le_of_not_lt hlow, rfl⟩)
  all_goals exact .inl ⟨_, rfl, rfl⟩

/-- The separators are written by their codes, too, and no other character differently. -/
theorem escapeCodeChar_cases (c : Char) :
    (∃ e, simpleEscape? e = some c ∧ escapeCodeChar c = ['\\', e]) ∨
      (c.toNat < 0xD800 ∧ escapeCodeChar c = unicodeEscape c.toNat) ∨
      (c ≠ '"' ∧ c ≠ '\\' ∧ 0x20 ≤ c.toNat ∧ c ≠ '\u2028' ∧ c ≠ '\u2029' ∧
        escapeCodeChar c = [c]) := by
  rw [escapeCodeChar]
  split
  next hsep =>
    refine .inr (.inl ⟨?_, rfl⟩)
    simp only [Bool.or_eq_true, decide_eq_true_eq] at hsep
    rcases hsep with rfl | rfl <;> decide
  next hsep =>
    simp only [Bool.or_eq_true, decide_eq_true_eq, not_or] at hsep
    rcases escapeChar_cases c with hpair | ⟨hlow, hcode⟩ | ⟨hquote, hslash, hlow, hself⟩
    · exact .inl hpair
    · exact .inr (.inl ⟨by omega, hcode⟩)
    · exact .inr (.inr ⟨hquote, hslash, hlow, hsep.1, hsep.2, hself⟩)

end Escapes

section Reading

variable {escape : Char → List Char}

theorem stringBody_plain {c : Char} (hquote : c ≠ '"') (hslash : c ≠ '\\') (hc : 0x20 ≤ c.toNat)
    (acc rest : List Char) : stringBody acc (c :: rest) = stringBody (c :: acc) rest := by
  rw [stringBody, if_neg (Nat.not_lt_of_le hc)] <;> simp_all

theorem stringBody_simpleEscape {c e : Char} (h : simpleEscape? e = some c) (acc rest : List Char) :
    stringBody acc ('\\' :: e :: rest) = stringBody (c :: acc) rest := by
  have hu : e ≠ 'u' := by
    rintro rfl
    cases h
  rw [stringBody, h]
  · rfl
  all_goals
    intros
    exact hu ‹_›

theorem stringBody_escapeChar (c : Char) (acc rest : List Char) :
    stringBody acc (escapeChar c ++ rest) = stringBody (c :: acc) rest := by
  rcases escapeChar_cases c with ⟨e, he, h⟩ | ⟨hlow, h⟩ | ⟨hquote, hslash, hlow, h⟩
  · rw [h]
    exact stringBody_simpleEscape he acc rest
  · rw [h]
    exact stringBody_unicodeEscape (by omega) acc rest
  · rw [h]
    exact stringBody_plain hquote hslash hlow acc rest

theorem stringBody_escapeCodeChar (c : Char) (acc rest : List Char) :
    stringBody acc (escapeCodeChar c ++ rest) = stringBody (c :: acc) rest := by
  rcases escapeCodeChar_cases c with ⟨e, he, h⟩ | ⟨hlow, h⟩ | ⟨hquote, hslash, hlow, -, -, h⟩
  · rw [h]
    exact stringBody_simpleEscape he acc rest
  · rw [h]
    exact stringBody_unicodeEscape hlow acc rest
  · rw [h]
    exact stringBody_plain hquote hslash hlow acc rest

/-- Characters that are escaped one by one are read one by one. -/
theorem stringBody_flatMap (hescape : ∀ c acc rest,
      stringBody acc (escape c ++ rest) = stringBody (c :: acc) rest)
    (cs acc rest : List Char) :
    stringBody acc (cs.flatMap escape ++ '"' :: rest) = some (acc.reverse ++ cs, rest) := by
  induction cs generalizing acc with
  | nil => simp [stringBody]
  | cons c cs ih =>
    rw [List.flatMap_cons, List.append_assoc, hescape, ih]
    simp

theorem length_lt_of_stringBody {acc cs out rest : List Char}
    (h : stringBody acc cs = some (out, rest)) : rest.length < cs.length := by
  fun_induction stringBody acc cs with
  | case1 acc tail =>
    obtain ⟨-, rfl⟩ : acc.reverse = out ∧ tail = rest := by simpa using h
    simp
  | case2 acc a b c d e f g k tail ihjoined ihsingle =>
    simp only [Option.bind_eq_bind, Option.bind_eq_some_iff] at h
    obtain ⟨high, -, h⟩ := h
    simp only [List.length_cons] at ihsingle ⊢
    split at h
    · simp only [Option.bind_eq_some_iff] at h
      obtain ⟨low, -, h⟩ := h
      split at h
      · obtain ⟨joined, -, h⟩ := Option.bind_eq_some_iff.1 h
        have htail := ihjoined joined h
        omega
      · simp at h
    · obtain ⟨single, -, h⟩ := Option.bind_eq_some_iff.1 h
      have htail := ihsingle single h
      omega
  | case3 acc a b c d tail _ ih =>
    simp only [Option.bind_eq_bind, Option.bind_eq_some_iff] at h
    obtain ⟨code, -, single, -, h⟩ := h
    have htail := ih single h
    simp only [List.length_cons]
    omega
  | case4 acc c tail _ _ ih =>
    simp only [Option.bind_eq_bind, Option.bind_eq_some_iff] at h
    obtain ⟨single, -, h⟩ := h
    have htail := ih single h
    simp only [List.length_cons]
    omega
  | case5 => simp at h
  | case6 acc c tail _ _ _ _ _ ih =>
    have htail := ih h
    simp only [List.length_cons]
    omega
  | case7 => simp at h

end Reading

section Lines

/-- The character is no control character below U+0020 and none of the two separators. -/
def IsShown (c : Char) : Prop :=
  0x20 ≤ c.toNat ∧ c ≠ '\u2028' ∧ c ≠ '\u2029'

instance (c : Char) : Decidable (IsShown c) :=
  inferInstanceAs (Decidable (_ ∧ _ ∧ _))

variable {c x : Char}

theorem IsShown.isLineEnd (h : IsShown c) : isLineEnd c = false := by
  obtain ⟨hlow, hsep⟩ := h
  have hfeed : c ≠ '\n' := by
    rintro rfl
    exact absurd hlow (by decide)
  have hreturn : c ≠ '\r' := by
    rintro rfl
    exact absurd hlow (by decide)
  simp [Text.isLineEnd, hfeed, hreturn, hsep]

theorem isShown_of_mem_unicodeEscape {n : Nat} (h : x ∈ unicodeEscape n) : IsShown x := by
  have hdigit : ∀ n < 16, IsShown (hexDigit n) := by decide
  have hmod : ∀ m, IsShown (hexDigit (m % 16)) := fun m => hdigit _ (Nat.mod_lt _ (by omega))
  simp only [unicodeEscape, List.mem_cons, List.not_mem_nil, or_false] at h
  rcases h with rfl | rfl | rfl | rfl | rfl | rfl
  · decide
  · decide
  all_goals exact hmod _

theorem isShown_of_simpleEscape? {e : Char} (h : simpleEscape? e = some c) : IsShown e := by
  rw [simpleEscape?.eq_def] at h
  split at h
  case h_9 => cases h
  all_goals decide

theorem isShown_of_mem_escapeCodeChar (h : x ∈ escapeCodeChar c) : IsShown x := by
  rcases escapeCodeChar_cases c with ⟨e, he, hc⟩ | ⟨-, hc⟩ | ⟨-, -, hlow, hsep, hsep', hc⟩
  · rw [hc] at h
    rcases List.mem_pair.1 h with rfl | rfl
    · decide
    · exact isShown_of_simpleEscape? he
  · rw [hc] at h
    exact isShown_of_mem_unicodeEscape h
  · rw [hc, List.mem_singleton] at h
    exact h ▸ ⟨hlow, hsep, hsep'⟩

theorem isShown_of_mem_literal {s : String} (h : x ∈ (literal s).toList) : IsShown x := by
  simp only [literal, quoteWith, String.toList_ofList, List.cons_append, List.mem_cons,
    List.mem_append, List.mem_flatMap, List.not_mem_nil, or_false] at h
  rcases h with rfl | ⟨c, -, hc⟩ | rfl
  · decide
  · exact isShown_of_mem_escapeCodeChar hc
  · decide

theorem isLineEnd_of_mem_literal {s : String} (h : x ∈ (literal s).toList) :
    isLineEnd x = false :=
  (isShown_of_mem_literal h).isLineEnd

theorem newline_not_mem_literal (s : String) : '\n' ∉ (literal s).toList := fun h =>
  absurd (isLineEnd_of_mem_literal h) (by decide)

end Lines

end TextCatalog.Text
