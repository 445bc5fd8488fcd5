import TextCatalog.Glob.Match
import TextCatalog.Proofs.Glob.Reading
import TextCatalog.Proofs.Text.Bytes

/-!
# Places that globs lead to

A token leads on from places that are marked already. A literal leads over its own bytes only, and so a
glob that starts with literals and something that asks for a slash takes only what starts with these
literals and a slash.
-/

namespace TextCatalog.Glob

open RawText (slash)

/-- The place before the byte with this index is marked. -/
def Marks.At (marks : Marks) (i : Nat) : Prop :=
  marks[i]? = some true

namespace Marks

variable {bytes : List UInt8} {marks others : Marks} {p : UInt8 → Bool} {i : Nat}

theorem at_start : (start bytes).At i ↔ i = 0 := by
  cases i with
  | zero => simp [At, start]
  | succ i => simp [At, start, List.getElem?_replicate]

theorem at_advance :
    (advance p bytes marks).At i ↔ ∃ j b, i = j + 1 ∧ marks.At j ∧ bytes[j]? = some b ∧ p b = true := by
  cases i with
  | zero => simp [At, advance]
  | succ i =>
    simp only [At, advance, List.getElem?_cons_succ, List.getElem?_zipWith_eq_some]
    constructor
    · rintro ⟨b, m, hb, hm, heq⟩
      obtain ⟨rfl, hp⟩ := Bool.and_eq_true_iff.1 heq
      exact ⟨i, b, rfl, hm, hb, hp⟩
    · rintro ⟨j, b, hij, hm, hb, hp⟩
      obtain rfl := Nat.succ.inj hij
      exact ⟨b, true, hb, hm, by simp [hp]⟩

theorem at_of_union (h : (union marks others).At i) : marks.At i ∨ others.At i := by
  obtain ⟨a, b, ha, hb, heq⟩ := List.getElem?_zipWith_eq_some.1 h
  rcases Bool.or_eq_true_iff.1 heq with rfl | rfl
  · exact .inl ha
  · exact .inr hb

theorem exists_at_of_spreadFrom {live : Bool} (h : (spreadFrom p live bytes marks).At i) :
    live = true ∨ ∃ j, marks.At j := by
  induction bytes generalizing live marks i with
  | nil =>
    cases marks with
    | nil => simp [At, spreadFrom] at h
    | cons m marks =>
      cases i with
      | zero =>
        rcases Bool.or_eq_true_iff.1 (Option.some.inj h) with rfl | rfl
        · exact .inl rfl
        · exact .inr ⟨0, rfl⟩
      | succ i => exact .inr ⟨i + 1, h⟩
  | cons b bytes ih =>
    cases marks with
    | nil => simp [At, spreadFrom] at h
    | cons m marks =>
      have hhere : (live || m) = true → live = true ∨ ∃ j, At (m :: marks) j := by
        intro hor
        rcases Bool.or_eq_true_iff.1 hor with rfl | rfl
        · exact .inl rfl
        · exact .inr ⟨0, rfl⟩
      cases i with
      | zero => exact hhere (Option.some.inj h)
      | succ i =>
        rcases ih h with hlive | ⟨j, hj⟩
        · exact hhere (Bool.and_eq_true_iff.1 hlive).1
        · exact .inr ⟨j + 1, hj⟩

theorem exists_at_of_spread (h : (spread p bytes marks).At i) : ∃ j, marks.At j :=
  (exists_at_of_spreadFrom h).resolve_left (by simp)

theorem at_of_atEnd (h : marks.atEnd = true) : marks.At (marks.length - 1) := by
  rw [atEnd, List.getLast?_eq_getElem?] at h
  cases hlast : marks[marks.length - 1]? with
  | none => simp [hlast] at h
  | some m =>
    obtain rfl : m = true := by simpa [hlast] using h
    exact hlast

theorem exists_at_of_atEnd (h : marks.atEnd = true) : ∃ i, marks.At i :=
  ⟨_, at_of_atEnd h⟩

end Marks

section Steps

variable {bytes : List UInt8} {marks : Marks} {i : Nat}

theorem exists_at_of_foldl_advance {xs : List UInt8}
    (h : (xs.foldl (fun m x => Marks.advance (· == x) bytes m) marks).At i) :
    ∃ j, marks.At j ∧ i = j + xs.length ∧ ∃ rest, bytes.drop j = xs ++ rest := by
  induction xs generalizing marks with
  | nil => exact ⟨i, h, rfl, bytes.drop i, rfl⟩
  | cons x xs ih =>
    obtain ⟨j, hj, rfl, rest, hrest⟩ := ih h
    obtain ⟨k, b, rfl, hk, hb, hx⟩ := Marks.at_advance.1 hj
    obtain rfl : b = x := by simpa using hx
    refine ⟨k, hk, by simp; omega, rest, ?_⟩
    rw [List.drop_eq_getElem_cons (List.getElem?_eq_some_iff.1 hb).1, hrest,
      (List.getElem?_eq_some_iff.1 hb).2]
    rfl

mutual

/-- A token leads nowhere unless from somewhere. -/
theorem exists_at_of_step (t : Token) (marks : Marks) (i : Nat) (h : (t.step bytes marks).At i) :
    ∃ j, marks.At j := by
  cases t with
  | literal c =>
    obtain ⟨j, hj, -⟩ := exists_at_of_foldl_advance h
    exact ⟨j, hj⟩
  | anyByte | byteClass =>
    obtain ⟨j, -, -, hj, -⟩ := Marks.at_advance.1 h
    exact ⟨j, hj⟩
  | anyRun => exact Marks.exists_at_of_spread h
  | leadingDirs =>
    rcases Marks.at_of_union h with hj | hj
    · exact ⟨i, hj⟩
    · obtain ⟨j, -, -, hj, -⟩ := Marks.at_advance.1 hj
      exact Marks.exists_at_of_spread hj
  | trailingAll =>
    obtain ⟨j, hj⟩ := Marks.exists_at_of_spread h
    obtain ⟨k, -, -, hk, -⟩ := Marks.at_advance.1 hj
    exact ⟨k, hk⟩
  | betweenDirs =>
    rcases Marks.at_of_union h with hj | hj
    · obtain ⟨k, -, -, hk, -⟩ := Marks.at_advance.1 hj
      exact ⟨k, hk⟩
    · obtain ⟨j, -, -, hj, -⟩ := Marks.at_advance.1 hj
      obtain ⟨j, hj⟩ := Marks.exists_at_of_spread hj
      obtain ⟨k, -, -, hk, -⟩ := Marks.at_advance.1 hj
      exact ⟨k, hk⟩
  | oneOf branches =>
    rw [Token.step] at h
    split at h
    · exact ⟨i, h⟩
    · exact exists_at_of_stepBranches branches marks i h

theorem exists_at_of_stepSeq (ts : List Token) (marks : Marks) (i : Nat)
    (h : (stepSeq bytes marks ts).At i) : ∃ j, marks.At j := by
  cases ts with
  | nil => exact ⟨i, h⟩
  | cons t ts =>
    obtain ⟨j, hj⟩ := exists_at_of_stepSeq ts (t.step bytes marks) i h
    exact exists_at_of_step t marks j hj

theorem exists_at_of_stepBranches (branches : List (List Token)) (marks : Marks) (i : Nat)
    (h : (stepBranches bytes marks branches).At i) : ∃ j, marks.At j := by
  cases branches with
  | nil => simp [stepBranches, Marks.At, List.getElem?_replicate] at h
  | cons b bs =>
    rw [stepBranches] at h
    split at h
    · exact exists_at_of_stepBranches bs marks i h
    · rcases Marks.at_of_union h with h | h
      · exact exists_at_of_stepSeq b marks i h
      · exact exists_at_of_stepBranches bs marks i h

end

/-- What asks for a slash leads on only where there is one. -/
theorem exists_slash_of_step {t : Token} (ht : t.asksSlash = true)
    (h : (t.step bytes marks).At i) : ∃ j, marks.At j ∧ bytes[j]? = some slash := by
  have hadvance : ∀ {i : Nat}, (Marks.advance (· == slash) bytes marks).At i →
      ∃ j, marks.At j ∧ bytes[j]? = some slash := by
    intro i hi
    obtain ⟨j, b, -, hj, hb, hslash⟩ := Marks.at_advance.1 hi
    exact ⟨j, hj, by rw [hb, beq_iff_eq.1 hslash]⟩
  cases t with
  | literal c =>
    obtain rfl : c = '/' := by
      unfold Token.asksSlash at ht
      split at ht <;> simp_all
    exact hadvance h
  | trailingAll =>
    obtain ⟨j, hj⟩ := Marks.exists_at_of_spread h
    exact hadvance hj
  | betweenDirs =>
    rcases Marks.at_of_union h with hj | hj
    · exact hadvance hj
    · obtain ⟨j, -, -, hj, -⟩ := Marks.at_advance.1 hj
      obtain ⟨k, hk⟩ := Marks.exists_at_of_spread hj
      exact hadvance hk
  | anyByte | anyRun | leadingDirs | byteClass | oneOf => cases ht

theorem stepSeq_append (ts ts' : List Token) :
    stepSeq bytes marks (ts ++ ts') = stepSeq bytes (stepSeq bytes marks ts) ts' := by
  induction ts generalizing marks with
  | nil => rfl
  | cons t ts ih => exact ih

theorem stepSeq_literals (text : List Char) :
    stepSeq bytes marks (text.map .literal)
      = (Text.bytesOf text).foldl (fun m x => Marks.advance (· == x) bytes m) marks := by
  induction text generalizing marks with
  | nil => rfl
  | cons c text ih => rw [List.map_cons, stepSeq, ih, Text.bytesOf_cons, List.foldl_append]; rfl

end Steps

section Accepts

variable {g : Glob} {bytes : List UInt8} {path : String} {text : List Char} {sep : Token} {ts : List Token}

theorem takesAll_eq_false {t : Token} (ht : t ∈ g.tokens) (hall : t ≠ .leadingDirs) :
    g.takesAll = false := by
  rw [takesAll]
  split
  next htokens => exact absurd (List.mem_singleton.1 (htokens ▸ ht)) hall
  next => rfl

/-- Whether the tokens lead from the start of the bytes to their end. -/
def spans (g : Glob) (bytes : List UInt8) : Bool :=
  (stepSeq bytes (Marks.start bytes) g.tokens).atEnd

theorem spans_of_matchesBytes (htakes : g.takesAll = false) (h : g.matchesBytes bytes = true) :
    g.spans bytes = true := by
  rw [matchesBytes, htakes, if_neg (by simp), Bool.and_eq_true] at h
  exact h.1

/-- A glob that starts with a literal leads over what starts with it only. -/
theorem exists_eq_cons_of_spans {c : Char} (htokens : g.tokens = .literal c :: ts)
    (h : g.spans bytes = true) : ∃ rest, bytes = Text.bytesOf [c] ++ rest := by
  rw [spans, htokens, stepSeq] at h
  obtain ⟨i, hi⟩ := Marks.exists_at_of_atEnd h
  obtain ⟨j, hj⟩ := exists_at_of_stepSeq _ _ _ hi
  obtain ⟨start, hstart, -, rest, hrest⟩ := exists_at_of_foldl_advance hj
  obtain rfl := Marks.at_start.1 hstart
  rw [List.drop_zero] at hrest
  exact ⟨rest, by simpa using hrest⟩

/-- A glob that starts with plain text and a slash takes only what starts with them. -/
theorem exists_eq_append_of_accepts (htokens : g.tokens = text.map .literal ++ sep :: ts)
    (hsep : sep.asksSlash = true) (h : g.accepts path = true) :
    ∃ rest, path.toList = text ++ '/' :: rest := by
  have htakes : g.takesAll = false := by
    refine takesAll_eq_false (t := sep) (by simp [htokens]) ?_
    rintro rfl
    cases hsep
  have hspans := spans_of_matchesBytes htakes h
  rw [spans, htokens, stepSeq_append, stepSeq_literals, stepSeq] at hspans
  obtain ⟨i, hi⟩ := Marks.exists_at_of_atEnd hspans
  obtain ⟨j, hj⟩ := exists_at_of_stepSeq _ _ _ hi
  obtain ⟨k, hk, hslash⟩ := exists_slash_of_step hsep hj
  obtain ⟨start, hstart, rfl, rest, hrest⟩ := exists_at_of_foldl_advance hk
  obtain rfl := Marks.at_start.1 hstart
  rw [List.drop_zero] at hrest
  -- The byte of the slash comes right after the bytes of the text.
  have hbytes : Text.bytesOf path.toList = Text.bytesOf (text ++ ['/']) ++ rest.drop 1 := by
    rw [hrest, Nat.zero_add, List.getElem?_append_right (Nat.le_refl _), Nat.sub_self] at hslash
    obtain ⟨b, rest, rfl⟩ : ∃ b rest', rest = b :: rest' := by
      cases rest with
      | nil => simp at hslash
      | cons b rest => exact ⟨b, rest, rfl⟩
    obtain rfl : b = slash := by simpa using hslash
    rw [← Text.bytes, hrest, Text.bytesOf_append, List.append_assoc]
    rfl
  obtain ⟨rest', hpath, -⟩ := Text.bytesOf_eq_append_left hbytes
  exact ⟨rest', by simpa using hpath⟩

/-- The bytes that the marks are moved over are counted off, wherever they stand. -/
theorem at_foldl_advance {bytes xs rest : List UInt8} {marks : Marks} {i : Nat} (hi : marks.At i)
    (hrest : bytes.drop i = xs ++ rest) :
    (xs.foldl (fun m x => Marks.advance (· == x) bytes m) marks).At (i + xs.length) := by
  induction xs generalizing i marks with
  | nil => exact hi
  | cons x xs ih =>
    have hx : bytes[i]? = some x := by
      rw [← Nat.add_zero i, ← List.getElem?_drop, hrest]
      rfl
    have hnext : bytes.drop (i + 1) = xs ++ rest := by
      rw [← List.tail_drop, hrest]
      rfl
    have hmoved : (Marks.advance (· == x) bytes marks).At (i + 1) :=
      Marks.at_advance.2 ⟨i, x, rfl, hi, hx, beq_self_eq_true x⟩
    rw [List.length_cons, Nat.add_comm xs.length, ← Nat.add_assoc]
    exact ih hmoved hnext

theorem length_foldl_advance {bytes xs : List UInt8} {marks : Marks}
    (h : marks.length = bytes.length + 1) :
    (xs.foldl (fun m x => Marks.advance (· == x) bytes m) marks).length = bytes.length + 1 := by
  induction xs generalizing marks with
  | nil => exact h
  | cons x xs ih => exact ih (by simp [Marks.advance, h])

/-- A glob of literals takes only what they spell. -/
theorem eq_of_matchesBytes (hne : text ≠ []) (htokens : g.tokens = text.map .literal)
    (h : g.matchesBytes bytes = true) : bytes = Text.bytesOf text := by
  obtain ⟨c, cs, rfl⟩ := List.exists_cons_of_ne_nil hne
  have htakes : g.takesAll = false :=
    takesAll_eq_false (t := .literal c) (htokens ▸ List.mem_cons_self) (by simp)
  have hspans := spans_of_matchesBytes htakes h
  rw [spans, htokens, stepSeq_literals] at hspans
  have hlength : (Marks.start bytes).length = bytes.length + 1 := by simp [Marks.start]
  have hend := Marks.at_of_atEnd hspans
  rw [length_foldl_advance hlength, Nat.add_sub_cancel] at hend
  obtain ⟨start, hstart, hall, rest, hrest⟩ := exists_at_of_foldl_advance hend
  obtain rfl := Marks.at_start.1 hstart
  rw [List.drop_zero] at hrest
  obtain rfl : rest = [] := by
    rw [hrest, List.length_append] at hall
    exact List.length_eq_zero_iff.1 (by omega)
  exact hrest.trans (List.append_nil _)

/-- The literals that spell a path take it. -/
theorem accepts_of_literals (h : g.tokens = path.toList.map .literal) : g.accepts path = true := by
  have hliteral : g.tokens.all Token.isLiteral = true := by
    simp [h, Token.isLiteral]
  have hreads : g.readsName = false := by
    rw [readsName]
    split
    · split
      next rest hrest => simp [hrest, Token.isLiteral] at hliteral
      next => simp [hliteral]
    · rfl
  have htakes : g.takesAll = false := by
    rw [takesAll]
    split
    next hall => simp [hall, Token.isLiteral] at hliteral
    next => rfl
  have hstart : (Marks.start (Text.bytes path)).At 0 := Marks.at_start.2 rfl
  have hrest : (Text.bytes path).drop 0 = Text.bytes path ++ [] := by simp
  have hat := at_foldl_advance hstart hrest
  have hlength : (Marks.start (Text.bytes path)).length = (Text.bytes path).length + 1 := by
    simp [Marks.start]
  rw [accepts, matchesBytes, htakes, hreads, if_neg (by simp), h, stepSeq_literals,
    ← Text.bytes, Marks.atEnd, List.getLast?_eq_getElem?, length_foldl_advance hlength]
  rw [Nat.zero_add, Marks.At] at hat
  rw [Nat.add_sub_cancel, hat]
  rfl

end Accepts

end TextCatalog.Glob
