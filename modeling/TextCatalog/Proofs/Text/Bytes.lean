import Mathlib.Data.List.Basic
import TextCatalog.Text.Units

/-!
# Bytes of a text

No character is written by bytes with which another one begins. So bytes that start with the bytes of a
text belong to a text that starts with it.
-/

namespace TextCatalog.Text

@[simp]
theorem bytesOf_nil : bytesOf [] = [] := rfl

@[simp]
theorem bytesOf_cons (c : Char) (cs : List Char) :
    bytesOf (c :: cs) = String.utf8EncodeChar c ++ bytesOf cs := rfl

@[simp]
theorem bytesOf_append (as bs : List Char) : bytesOf (as ++ bs) = bytesOf as ++ bytesOf bs := by
  simp [bytesOf]

/-- A character is determined by its bytes and by what follows them. -/
theorem utf8EncodeChar_append_inj {c c' : Char} {bs bs' : List UInt8}
    (h : String.utf8EncodeChar c ++ bs = String.utf8EncodeChar c' ++ bs') : c = c' ∧ bs = bs' := by
  have hdecode : ∀ (c : Char) (bs : List UInt8),
      (String.utf8EncodeChar c ++ bs).toByteArray.utf8DecodeChar? 0 = some c := by
    intro c bs
    rw [List.toByteArray_append]
    exact ByteArray.utf8DecodeChar?_utf8EncodeChar_append
  obtain rfl : c = c' := by
    have hc := hdecode c bs
    rw [h, hdecode c' bs'] at hc
    exact (Option.some.inj hc).symm
  exact ⟨rfl, List.append_cancel_left h⟩

/-- What starts with the bytes of a text starts with the text. -/
theorem bytesOf_eq_append_left {cs lead : List Char} {bs : List UInt8}
    (h : bytesOf cs = bytesOf lead ++ bs) : ∃ rest, cs = lead ++ rest ∧ bs = bytesOf rest := by
  induction lead generalizing cs with
  | nil => exact ⟨cs, rfl, by simpa using h.symm⟩
  | cons l lead ih =>
    cases cs with
    | nil => simp [String.utf8EncodeChar_ne_nil] at h
    | cons c cs =>
      rw [bytesOf_cons, bytesOf_cons, List.append_assoc] at h
      obtain ⟨rfl, htail⟩ := utf8EncodeChar_append_inj h
      obtain ⟨rest, rfl, hrest⟩ := ih htail
      exact ⟨rest, rfl, hrest⟩

/-- A byte below 128 writes a character by itself. -/
theorem toNat_of_mem_utf8EncodeChar {c : Char} {b : UInt8} (h : b ∈ String.utf8EncodeChar c)
    (hb : b.toNat < 128) : c.toNat = b.toNat := by
  have hlow : ∀ n, 128 ≤ n → n < 256 → b ≠ UInt8.ofNat n := by
    rintro n hlow hhigh rfl
    rw [UInt8.toNat_ofNat'] at hb
    omega
  dsimp only [String.utf8EncodeChar] at h
  split at h
  · obtain rfl := List.mem_singleton.1 h
    rw [UInt8.toNat_ofNat', Char.toNat]
    omega
  · -- All bytes of a character that takes more than one are above.
    refine absurd h ?_
    repeat' split
    all_goals simp only [List.mem_cons, List.not_mem_nil, or_false, not_or]
    all_goals repeat' apply And.intro
    all_goals exact hlow _ (by omega) (by omega)

/-- Bytes are read as a text exactly if they are the bytes of one. -/
theorem fromUTF8?_eq_some_iff {bs : ByteArray} {s : String} :
    String.fromUTF8? bs = some s ↔ bs = s.toUTF8 := by
  constructor
  · intro h
    rw [String.fromUTF8?] at h
    split at h
    · rw [← Option.some.inj h]
      rfl
    · cases h
  · rintro rfl
    exact dif_pos s.isValidUTF8

end TextCatalog.Text
