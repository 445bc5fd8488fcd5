import TextCatalog.Proofs.Text.Bytes
import TextCatalog.Text.Raw

/-!
# What raw texts are read as

Bytes are read as characters and as broken pieces, in turn. A piece that is broken has no byte below 128,
so that no slash and no dot is made up or lost. The bytes of a text are read as that text, and bytes that
are read without a U+FFFD are those of a text.
-/

namespace TextCatalog.RawText

variable {raw rest : RawText} {s : String}

/-- Bytes that are UTF-8. -/
def IsText (raw : RawText) : Prop :=
  ∃ s : String, raw = Text.bytes s

/-- How bytes are read: a character by its bytes, and U+FFFD for bytes that stand for none. -/
inductive Reads : RawText → List Char → Prop
  | nil : Reads [] []
  | char (c : Char) {rest : RawText} {cs : List Char} (h : Reads rest cs) :
    Reads (String.utf8EncodeChar c ++ rest) (c :: cs)
  | broken {piece rest : RawText} {cs : List Char} (hne : piece ≠ [])
    (hhigh : ∀ b ∈ piece, 128 ≤ b.toNat) (h : Reads rest cs) : Reads (piece ++ rest) ('\uFFFD' :: cs)

section Front

theorem charsBehind_eq_drop (skip : Nat) (raw : RawText) :
    charsBehind skip raw = charsBehind 0 (raw.drop skip) := by
  induction raw generalizing skip with
  | nil => cases skip <;> rfl
  | cons first rest ih =>
    cases skip with
    | zero => rfl
    | succ skip => exact ih skip

/-- A character at the front of bytes is read from the first four of them. -/
theorem utf8DecodeChar?_take {c : Char} (rest : RawText) :
    ((String.utf8EncodeChar c ++ rest).take 4).toByteArray.utf8DecodeChar? 0 = some c := by
  have hlength : (String.utf8EncodeChar c).length ≤ 4 := by
    rw [String.length_utf8EncodeChar]
    exact Char.utf8Size_le_four c
  rw [List.take_append, List.take_of_length_le hlength, List.toByteArray_append]
  exact ByteArray.utf8DecodeChar?_utf8EncodeChar_append

/-- Bytes from which a character is read start with those of the character. -/
theorem exists_of_utf8DecodeChar? {c : Char} (h : (raw.take 4).toByteArray.utf8DecodeChar? 0 = some c) :
    ∃ rest, raw = String.utf8EncodeChar c ++ rest := by
  have hbytes := String.toByteArray_utf8EncodeChar_of_utf8DecodeChar?_eq_some h
  have htake : String.utf8EncodeChar c = (raw.take 4).take c.utf8Size := by
    have hdata := congrArg (fun bs : ByteArray => bs.data.toList) hbytes
    simpa using hdata
  refine ⟨raw.drop c.utf8Size, ?_⟩
  rw [htake, List.take_take, Nat.min_eq_left (Char.utf8Size_le_four c), List.take_append_drop]

/-- A byte below 128 is a character by itself. -/
theorem le_of_utf8DecodeChar?_eq_none {first : UInt8}
    (h : ((first :: rest).take 4).toByteArray.utf8DecodeChar? 0 = none) : 128 ≤ first.toNat := by
  by_contra hlow
  have hsingle : String.utf8EncodeChar (Char.ofUInt8 first) = [first] := by
    have hval : (Char.ofUInt8 first).val = first.toUInt32 := rfl
    have hsize : (Char.ofUInt8 first).utf8Size = 1 := by
      rw [Char.utf8Size_eq_one_iff, hval, UInt32.le_iff_toNat_le, UInt8.toNat_toUInt32]
      exact Nat.le_of_lt_succ (Nat.lt_of_not_le hlow)
    rw [String.utf8EncodeChar_eq_singleton hsize, hval]
    simp
  have hread := utf8DecodeChar?_take (c := Char.ofUInt8 first) rest
  rw [hsingle, List.singleton_append, h] at hread
  cases hread

theorem le_of_isTail {b : UInt8} (h : isTail b = true) : 128 ≤ b.toNat := by
  simp only [isTail, Bool.and_eq_true, decide_eq_true_eq, UInt8.le_iff_toNat_le] at h
  exact h.1

theorem le_of_isSecond {first second : UInt8} (h : isSecond first second = true) :
    128 ≤ second.toNat := by
  simp only [isSecond, isTail] at h
  split_ifs at h <;> simp [UInt8.le_iff_toNat_le] at h <;> omega

theorem le_of_mem_take_begun {first b : UInt8} (h : b ∈ rest.take (begun first rest)) :
    128 ≤ b.toNat := by
  cases rest with
  | nil => simp at h
  | cons second rest =>
    rw [begun] at h
    split at h
    next hsecond =>
      split at h
      next hthird =>
        cases rest with
        | nil => simp at hthird
        | cons third rest =>
          have htail : isTail third = true := by simpa using (Bool.and_eq_true_iff.1 hthird).2
          have hb : b = second ∨ b = third := by simpa using h
          rcases hb with rfl | rfl
          · exact le_of_isSecond hsecond
          · exact le_of_isTail htail
      next =>
        obtain rfl : b = second := by simpa using h
        exact le_of_isSecond hsecond
    next => simp at h

end Front

/-- Bytes are read as `lossy` reads them. -/
theorem reads_lossy (raw : RawText) : Reads raw raw.lossy.toList := by
  rw [lossy, String.toList_ofList]
  induction hlength : raw.length using Nat.strongRecOn generalizing raw with
  | _ length ih =>
    subst hlength
    cases raw with
    | nil => exact .nil
    | cons first rest =>
      rw [charsBehind, charsBehind_eq_drop, front]
      split
      next c hc =>
        obtain ⟨more, hmore⟩ := exists_of_utf8DecodeChar? hc
        have hlength : c.utf8Size + more.length = rest.length + 1 := by
          have hlengths := congrArg List.length hmore
          rw [List.length_append, String.length_utf8EncodeChar, List.length_cons] at hlengths
          exact hlengths.symm
        have hsize := Char.utf8Size_pos c
        obtain rfl : rest.drop (c.utf8Size - 1) = more := by
          have hdrop := congrArg (List.drop c.utf8Size) hmore
          rw [← String.length_utf8EncodeChar, List.drop_left, String.length_utf8EncodeChar] at hdrop
          rw [← hdrop, ← List.drop_succ_cons, Nat.sub_add_cancel hsize]
        rw [hmore]
        exact .char c (ih _ (by simp only [List.length_drop, List.length_cons]; omega) _ rfl)
      next hnone =>
        have hhigh : ∀ b ∈ first :: rest.take (begun first rest), 128 ≤ b.toNat :=
          List.forall_mem_cons.2 ⟨le_of_utf8DecodeChar?_eq_none hnone, fun b hb => le_of_mem_take_begun hb⟩
        have hwhole : first :: rest
            = (first :: rest.take (begun first rest)) ++ rest.drop (begun first rest) := by
          rw [List.cons_append, List.take_append_drop]
        nth_rewrite 1 [hwhole]
        exact .broken (by simp) hhigh (ih _ (by simp only [List.length_drop, List.length_cons]; omega) _ rfl)

/-- The bytes of characters are read as those characters. -/
theorem charsBehind_bytesOf (cs : List Char) : charsBehind 0 (Text.bytesOf cs) = cs := by
  induction cs with
  | nil => rfl
  | cons c cs ih =>
    obtain ⟨first, more, hfirst⟩ := List.exists_cons_of_ne_nil (String.utf8EncodeChar_ne_nil (c := c))
    have hread := utf8DecodeChar?_take (c := c) (Text.bytesOf cs)
    have hlength : more.length = c.utf8Size - 1 := by
      rw [← String.length_utf8EncodeChar, hfirst, List.length_cons, Nat.add_sub_cancel]
    rw [Text.bytesOf_cons]
    rw [hfirst, List.cons_append] at hread ⊢
    have hfront : front first (more ++ Text.bytesOf cs) = (c, more.length) := by
      rw [front, hread, hlength]
    rw [charsBehind, charsBehind_eq_drop, hfront, List.drop_left, ih]

@[simp]
theorem lossy_bytes (s : String) : lossy (Text.bytes s) = s := by
  rw [lossy, Text.bytes, charsBehind_bytesOf, String.ofList_toList]

@[simp]
theorem isText_bytes (s : String) : IsText (Text.bytes s) := ⟨s, rfl⟩

theorem IsText.bytes_lossy (h : IsText raw) : Text.bytes raw.lossy = raw := by
  obtain ⟨s, rfl⟩ := h
  rw [lossy_bytes]

/-- Names that are UTF-8 are told by what they are read as. -/
theorem map_bytes_lossy {names : List RawText} (hnames : ∀ n ∈ names, IsText n) :
    (names.map lossy).map Text.bytes = names := by
  rw [List.map_map]
  exact (List.map_congr_left fun n hn => (hnames n hn).bytes_lossy).trans (List.map_id names)

instance (raw : RawText) : Decidable (IsText raw) :=
  decidable_of_iff (Text.bytes raw.lossy = raw) ⟨fun h => ⟨_, h.symm⟩, IsText.bytes_lossy⟩

theorem bytes_injective : Function.Injective Text.bytes :=
  Function.LeftInverse.injective lossy_bytes

section Reads

variable {cs : List Char}

theorem Reads.eq_bytesOf (h : Reads raw cs) (hcs : '\uFFFD' ∉ cs) : raw = Text.bytesOf cs := by
  induction h with
  | nil => rfl
  | char c h ih => rw [Text.bytesOf_cons, ih fun hmem => hcs (List.mem_cons_of_mem c hmem)]
  | broken => exact absurd (List.mem_cons_self ..) hcs

/-- A character below 128 is read from its byte and from nothing else. -/
theorem Reads.mem_iff (h : Reads raw cs) {c : Char} {b : UInt8} (hc : String.utf8EncodeChar c = [b])
    (hb : b.toNat < 128) : c ∈ cs ↔ b ∈ raw := by
  have hcb : c.toNat = b.toNat := Text.toNat_of_mem_utf8EncodeChar (by simp [hc]) hb
  induction h with
  | nil => simp
  | char c' h ih =>
    rw [List.mem_cons, List.mem_append]
    refine or_congr ⟨?_, fun hmem => ?_⟩ ih
    · rintro rfl
      simp [hc]
    · exact Char.toNat_inj.1 (hcb.trans (Text.toNat_of_mem_utf8EncodeChar hmem hb).symm)
  | broken hne hhigh h ih =>
    rw [List.mem_cons, List.mem_append]
    refine or_congr ⟨?_, fun hmem => ?_⟩ ih
    · rintro rfl
      exact absurd hb (by rw [← hcb]; decide)
    · exact absurd (hhigh b hmem) (by omega)

end Reads

theorem slash_mem_lossy_iff : '/' ∈ raw.lossy.toList ↔ slash ∈ raw :=
  (reads_lossy raw).mem_iff (by decide) (by decide)

theorem slash_mem_bytes_iff {s : String} : slash ∈ Text.bytes s ↔ '/' ∈ s.toList := by
  rw [← slash_mem_lossy_iff, lossy_bytes]

/-- The bytes of a text start with a dot where the text does. -/
theorem head?_bytes_eq_dot_iff {s : String} :
    (Text.bytes s).head? = some dot ↔ s.toList.head? = some '.' := by
  rw [Text.bytes]
  cases s.toList with
  | nil => simp
  | cons c cs =>
    have hfirst : (String.utf8EncodeChar c ++ Text.bytesOf cs).head? = (String.utf8EncodeChar c).head? :=
      List.head?_append_of_ne_nil _ String.utf8EncodeChar_ne_nil
    rw [Text.bytesOf_cons, hfirst, List.head?_cons, Option.some.injEq]
    constructor
    · intro h
      have hcode := Text.toNat_of_mem_utf8EncodeChar (List.mem_of_mem_head? h) (by decide)
      exact Char.toNat_inj.1 hcode
    · rintro rfl
      rfl

theorem bytes_intercalate (sep : String) (pieces : List String) :
    Text.bytes (String.intercalate sep pieces)
      = (Text.bytes sep).intercalate (pieces.map Text.bytes) := by
  have hchars : ∀ sep (pieces : List (List Char)),
      Text.bytesOf (sep.intercalate pieces) = (Text.bytesOf sep).intercalate (pieces.map Text.bytesOf) := by
    intro sep pieces
    induction pieces with
    | nil => rfl
    | cons piece pieces ih =>
      cases pieces with
      | nil => simp
      | cons next pieces =>
        simp only [List.map_cons, List.intercalate_cons_cons, Text.bytesOf_append] at ih ⊢
        rw [ih]
  rw [Text.bytes, String.toList_intercalate, hchars, List.map_map]
  rfl

/-- A text without U+FFFD is read from its own bytes only. -/
theorem lossy_eq_iff (hs : '\uFFFD' ∉ s.toList) : raw.lossy = s ↔ raw = Text.bytes s := by
  constructor
  · rintro rfl
    exact (reads_lossy raw).eq_bytesOf hs
  · rintro rfl
    exact lossy_bytes s

end TextCatalog.RawText
