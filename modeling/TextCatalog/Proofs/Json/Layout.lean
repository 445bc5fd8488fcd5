import Mathlib.Data.List.DropRight
import TextCatalog.Proofs.Text.Quoted

/-!
# Reading documents back

The reader gives back every document whose numbers are integers of 64 bits, with whatever white space it is
laid out. The two layouts that documents are written in are cases of this. The induction is on the value; a
text is long enough to pay for the steps down into it, since an item and a value each pass a character.
-/

namespace TextCatalog.Json

open Text

section Space

theorem skipSpace_cons {c : Char} (h : c ∉ [' ', '\t', '\n', '\r']) (cs : List Char) :
    skipSpace (c :: cs) = c :: cs := by
  rw [skipSpace, List.dropWhile_cons_of_neg]
  simpa [and_assoc] using h

theorem skipSpace_idem (cs : List Char) : skipSpace (skipSpace cs) = skipSpace cs :=
  List.dropWhile_idempotent _ _

variable {space : List Char}

theorem skipSpace_append (h : skipSpace space = []) (cs : List Char) :
    skipSpace (space ++ cs) = skipSpace cs :=
  List.dropWhile_append_of_pos (List.dropWhile_eq_nil_iff.1 h)

theorem value_skipSpace (fuel : Nat) (cs : List Char) :
    value fuel (skipSpace cs) = value fuel cs := by
  cases fuel with
  | zero => rfl
  | succ fuel => rw [value, value, skipSpace_idem]

theorem value_append (fuel : Nat) (h : skipSpace space = []) (cs : List Char) :
    value fuel (space ++ cs) = value fuel cs := by
  rw [← value_skipSpace, skipSpace_append h, value_skipSpace]

theorem items_skipSpace (fuel : Nat) (acc : List Json) (cs : List Char) :
    items fuel acc (skipSpace cs) = items fuel acc cs := by
  cases fuel with
  | zero => rfl
  | succ fuel => rw [items, items, value_skipSpace]

theorem fields_skipSpace (fuel : Nat) (acc : List (String × Json)) (cs : List Char) :
    fields fuel acc (skipSpace cs) = fields fuel acc cs := by
  cases fuel with
  | zero => rfl
  | succ fuel => rw [fields, fields, skipSpace_idem]

end Space

section Integers

/-- What may follow a number: nothing that would continue it. -/
def EndsNumber (cs : List Char) : Prop :=
  ∀ c ∈ cs.head?, c.isDigit = false ∧ c ∉ ['.', 'e', 'E']

theorem endsNumber_cons {c : Char} (h : c.isDigit = false ∧ c ∉ ['.', 'e', 'E']) (cs : List Char) :
    EndsNumber (c :: cs) := by
  simpa [EndsNumber] using h

theorem endsNumber_append {space cs : List Char} (h : skipSpace space = []) (hcs : EndsNumber cs) :
    EndsNumber (space ++ cs) := by
  cases space with
  | nil => exact hcs
  | cons c space =>
    have hspace := List.dropWhile_eq_nil_iff.1 h c (by simp)
    simp only [Bool.or_eq_true, beq_iff_eq] at hspace
    rcases hspace with ((rfl | rfl) | rfl) | rfl <;> exact endsNumber_cons (by decide) _

theorem natOfDigits_toDigits (n : Nat) : natOfDigits (Nat.toDigits 10 n) = n := by
  have hvalue := Nat.ofDigitChars_ten_toDigits (n := n)
  rw [Nat.ofDigitChars_eq_foldl] at hvalue
  simpa [natOfDigits, Nat.mul_comm] using hvalue

/-- A number other than zero is written without a leading zero. -/
theorem eq_zero_of_head?_toDigits {n : Nat} (h : (Nat.toDigits 10 n).head? = some '0') : n = 0 := by
  induction n using Nat.strongRecOn with
  | ind n ih =>
    by_cases hn : n < 10
    · have hdigit : ∀ n < 10, n.digitChar = '0' → n = 0 := by decide
      rw [Nat.toDigits_of_lt_base hn] at h
      exact hdigit n hn (by simpa using h)
    · rw [Nat.toDigits_of_base_le (by omega) (by omega),
        List.head?_append_of_ne_nil _ Nat.toDigits_ne_nil] at h
      have hquotient := ih (n / 10) (by omega) h
      omega

theorem unsignedNumber_toDigits {negative : Bool} {n : Nat} {rest : List Char}
    (hn : fitsWord negative n = true) (hrest : EndsNumber rest) :
    unsignedNumber negative (Nat.toDigits 10 n ++ rest)
      = some (integer (if negative then -(n : Int) else n), rest) := by
  have hdigits : ∀ c ∈ Nat.toDigits 10 n, c.isDigit = true := fun c hc =>
    Nat.isDigit_of_mem_toDigits (by omega) (by omega) hc
  have hstop : rest.takeWhile Char.isDigit = [] ∧ rest.dropWhile Char.isDigit = rest := by
    cases rest with
    | nil => simp
    | cons c cs => simp [(hrest c rfl).1]
  have hwhole : (Nat.toDigits 10 n ++ rest).takeWhile Char.isDigit = Nat.toDigits 10 n := by
    rw [List.takeWhile_append_of_pos hdigits, hstop.1, List.append_nil]
  have hafter : (Nat.toDigits 10 n ++ rest).dropWhile Char.isDigit = rest := by
    rw [List.dropWhile_append_of_pos hdigits, hstop.2]
  have hlead : ((Nat.toDigits 10 n).isEmpty
      || ((Nat.toDigits 10 n).head? == some '0' && (Nat.toDigits 10 n).length != 1)) = false := by
    by_cases hhead : (Nat.toDigits 10 n).head? = some '0'
    · rw [eq_zero_of_head?_toDigits hhead]
      rfl
    · simp [hhead]
  simp only [unsignedNumber, hwhole, hafter, hlead]
  cases rest with
  | nil =>
    cases negative <;> simp_all [natOfDigits_toDigits]
  | cons c cs =>
    have hc := (hrest c rfl).2
    simp only [List.mem_cons, List.not_mem_nil, or_false, not_or] at hc
    cases negative <;> simp_all [natOfDigits_toDigits]

theorem leaf_integer (n : Int) :
    leaf (integer n)
      = if 0 ≤ n then Nat.toDigits 10 n.toNat else '-' :: Nat.toDigits 10 (-n).toNat := by
  rw [leaf, Int.toString_eq_repr, Int.repr_eq_if]
  split
  · exact Nat.toList_repr
  · simp

theorem exists_toDigits_eq_cons (n : Nat) :
    ∃ d ds, Nat.toDigits 10 n = d :: ds ∧ d.isDigit = true := by
  obtain ⟨d, ds, hdigits⟩ := List.exists_cons_of_ne_nil (Nat.toDigits_ne_nil (n := n) (b := 10))
  refine ⟨d, ds, hdigits, ?_⟩
  exact Nat.isDigit_of_mem_toDigits (b := 10) (n := n) (by omega) (by omega) (by simp [hdigits])

theorem value_integer {n : Int} (hn : fitsWord (n < 0) n.natAbs = true) {fuel : Nat} {rest : List Char}
    (hrest : EndsNumber rest) :
    value (fuel + 1) (leaf (integer n) ++ rest) = some (integer n, rest) := by
  rw [leaf_integer]
  by_cases hsign : 0 ≤ n
  · obtain ⟨d, ds, hdigits, hd⟩ := exists_toDigits_eq_cons n.toNat
    have hne : d ≠ ' ' ∧ d ≠ '\t' ∧ d ≠ '\n' ∧ d ≠ '\r' ∧ d ≠ '"' ∧ d ≠ '[' ∧ d ≠ '{' ∧ d ≠ 't' ∧
        d ≠ 'f' ∧ d ≠ 'n' ∧ d ≠ '-' := by
      refine ⟨?_, ?_, ?_, ?_, ?_, ?_, ?_, ?_, ?_, ?_, ?_⟩ <;> (rintro rfl; revert hd; decide)
    have hfits : fitsWord false n.toNat = true := by
      rw [decide_eq_false (by omega)] at hn
      rwa [show n.toNat = n.natAbs by omega]
    have hnumber := unsignedNumber_toDigits hfits hrest
    rw [if_pos hsign, value]
    rw [hdigits] at hnumber ⊢
    rw [List.cons_append, skipSpace_cons (by simp [hne])]
    rw [List.cons_append] at hnumber
    simp [hne, hnumber, Int.toNat_of_nonneg hsign]
  · have hfits : fitsWord true (-n).toNat = true := by
      rw [decide_eq_true (by omega)] at hn
      rwa [show (-n).toNat = n.natAbs by omega]
    have hnumber := unsignedNumber_toDigits hfits hrest
    have hback : -((-n).toNat : Int) = n := by omega
    rw [if_pos rfl, hback] at hnumber
    rw [if_neg hsign, value, List.cons_append, skipSpace_cons (by decide)]
    simp [hnumber]

end Integers

section Values

mutual

/-- A value that reading gives back: its numbers are integers of 64 bits. -/
def IsPlain : Json → Prop
  | null => True
  | bool _ => True
  | integer n => fitsWord (n < 0) n.natAbs = true
  | number _ => False
  | string _ => True
  | array items => ArePlain items
  | object fields => ArePlainFields fields

def ArePlain : List Json → Prop
  | [] => True
  | item :: items => IsPlain item ∧ ArePlain items

def ArePlainFields : List (String × Json) → Prop
  | [] => True
  | (_, value) :: fields => IsPlain value ∧ ArePlainFields fields

end

theorem arePlain_iff {items : List Json} : ArePlain items ↔ ∀ item ∈ items, IsPlain item := by
  induction items with
  | nil => simp [ArePlain]
  | cons item items ih => rw [ArePlain, ih, List.forall_mem_cons]

theorem stringBody_quoteWith (s : String) (rest : List Char) :
    quoteWith escapeChar s.toList ++ rest
        = '"' :: (s.toList.flatMap escapeChar ++ '"' :: rest) ∧
      stringBody [] (s.toList.flatMap escapeChar ++ '"' :: rest) = some (s.toList, rest) :=
  ⟨by simp [quoteWith], stringBody_flatMap stringBody_escapeChar s.toList [] rest⟩

end Values

/-- The white space of a text: before each item and field and before what closes them, by how deep they
stand, and behind the colon of a field. -/
structure Layout where
  gap : Nat → List Char
  behindColon : List Char
  skipSpace_gap : ∀ depth, skipSpace (gap depth) = []
  skipSpace_behindColon : skipSpace behindColon = []

namespace Layout

mutual

def chars (l : Layout) (depth : Nat) : Json → List Char
  | array [] => ['[', ']']
  | array items => '[' :: l.itemChars (depth + 1) items ++ l.gap depth ++ [']']
  | object [] => ['{', '}']
  | object fields => '{' :: l.fieldChars (depth + 1) fields ++ l.gap depth ++ ['}']
  | null => leaf null
  | bool b => leaf (bool b)
  | integer n => leaf (integer n)
  | number x => leaf (number x)
  | string s => leaf (string s)

def itemChars (l : Layout) (depth : Nat) : List Json → List Char
  | [] => []
  | [item] => l.gap depth ++ l.chars depth item
  | item :: items => l.gap depth ++ l.chars depth item ++ ',' :: l.itemChars depth items

def fieldChars (l : Layout) (depth : Nat) : List (String × Json) → List Char
  | [] => []
  | [(key, value)] =>
    l.gap depth ++ quoteWith escapeChar key.toList ++ ':' :: l.behindColon ++ l.chars depth value
  | (key, value) :: fields =>
    l.gap depth ++ quoteWith escapeChar key.toList ++ ':' :: l.behindColon ++ l.chars depth value ++
      ',' :: l.fieldChars depth fields

end

def compact : Layout := ⟨fun _ => [], [], fun _ => rfl, rfl⟩

theorem skipSpace_newline (depth : Nat) : skipSpace (newline depth) = [] := by
  rw [skipSpace, List.dropWhile_eq_nil_iff, newline]
  intro c hc
  rcases List.mem_cons.1 hc with rfl | hc
  · rfl
  · rw [List.eq_of_mem_replicate hc]
    rfl

def indented : Layout := ⟨newline, [' '], skipSpace_newline, rfl⟩

mutual

theorem compactChars_eq (depth : Nat) : ∀ v : Json, compactChars v = compact.chars depth v
  | null | bool _ | integer _ | number _ | string _ => rfl
  | array [] | object [] => rfl
  | array (item :: items) => by
    rw [compactChars, chars, compactItems_eq (depth + 1) (item :: items)]
    · simp [compact]
    · simp
  | object (field :: fields) => by
    rw [compactChars, chars, compactFields_eq (depth + 1) (field :: fields)]
    · simp [compact]
    · simp

theorem compactItems_eq (depth : Nat) :
    ∀ items : List Json, compactItems items = compact.itemChars depth items
  | [] => rfl
  | [item] => by
    rw [compactItems, itemChars, compactChars_eq depth item]
    rfl
  | item :: next :: items => by
    rw [compactItems, itemChars, compactChars_eq depth item, compactItems_eq depth (next :: items)]
    · rfl
    · simp
    · simp

theorem compactFields_eq (depth : Nat) :
    ∀ fields : List (String × Json), compactFields fields = compact.fieldChars depth fields
  | [] => rfl
  | [(key, v)] => by
    rw [compactFields, fieldChars, compactChars_eq depth v]
    simp [compact]
  | (key, v) :: next :: fields => by
    rw [compactFields, fieldChars, compactChars_eq depth v, compactFields_eq depth (next :: fields)]
    · simp [compact]
    · simp
    · simp

end

mutual

theorem indentedChars_eq (depth : Nat) : ∀ v : Json, indentedChars depth v = indented.chars depth v
  | null | bool _ | integer _ | number _ | string _ => rfl
  | array [] | object [] => rfl
  | array (item :: items) => by
    rw [indentedChars, chars, indentedItems_eq (depth + 1) (item :: items)]
    · rfl
    · simp
    · simp
  | object (field :: fields) => by
    rw [indentedChars, chars, indentedFields_eq (depth + 1) (field :: fields)]
    · rfl
    · simp
    · simp

theorem indentedItems_eq (depth : Nat) :
    ∀ items : List Json, indentedItems depth items = indented.itemChars depth items
  | [] => rfl
  | [item] => by
    rw [indentedItems, itemChars, indentedChars_eq depth item]
    rfl
  | item :: next :: items => by
    rw [indentedItems, itemChars, indentedChars_eq depth item, indentedItems_eq depth (next :: items)]
    · rfl
    · simp
    · simp

theorem indentedFields_eq (depth : Nat) :
    ∀ fields : List (String × Json), indentedFields depth fields = indented.fieldChars depth fields
  | [] => rfl
  | [(key, v)] => by
    rw [indentedFields, fieldChars, indentedChars_eq depth v]
    simp [indented]
  | (key, v) :: next :: fields => by
    rw [indentedFields, fieldChars, indentedChars_eq depth v, indentedFields_eq depth (next :: fields)]
    · simp [indented]
    · simp
    · simp

end

section Values

variable (l : Layout)

theorem exists_chars_eq_cons (depth : Nat) {v : Json} (hv : IsPlain v) :
    ∃ c cs, l.chars depth v = c :: cs ∧ c ∉ [' ', '\t', '\n', '\r'] ∧ c ≠ ']' := by
  cases v with
  | null => exact ⟨'n', _, rfl, by decide, by decide⟩
  | bool b => cases b <;> exact ⟨_, _, rfl, by decide, by decide⟩
  | integer n =>
    rw [chars, leaf_integer]
    split
    · obtain ⟨d, ds, hdigits, hd⟩ := exists_toDigits_eq_cons n.toNat
      refine ⟨d, ds, hdigits, ?_, ?_⟩
      · intro hmem
        simp only [List.mem_cons, List.not_mem_nil, or_false] at hmem
        rcases hmem with rfl | rfl | rfl | rfl <;> revert hd <;> decide
      · rintro rfl
        revert hd
        decide
    · exact ⟨'-', _, rfl, by decide, by decide⟩
  | number x => exact hv.elim
  | string s => exact ⟨'"', _, rfl, by decide, by decide⟩
  | array items => cases items <;> exact ⟨'[', _, rfl, by decide, by decide⟩
  | object fields => cases fields <;> exact ⟨'{', _, rfl, by decide, by decide⟩

/-- The items of an array start with one that does not close it. -/
theorem skipSpace_itemChars (depth : Nat) {items : List Json} (hne : items ≠ [])
    (hitems : ArePlain items) (rest : List Char) :
    ∃ c cs, skipSpace (l.itemChars depth items ++ rest) = c :: cs ∧ c ≠ ']' := by
  obtain ⟨item, items, rfl⟩ := List.exists_cons_of_ne_nil hne
  obtain ⟨c, cs, hchars, hspace, hclose⟩ := l.exists_chars_eq_cons depth hitems.1
  obtain ⟨more, hmore⟩ : ∃ more, l.itemChars depth (item :: items) = l.gap depth ++ c :: more := by
    cases items with
    | nil => exact ⟨cs, by rw [itemChars, hchars]⟩
    | cons next items =>
      refine ⟨cs ++ ',' :: l.itemChars depth (next :: items), ?_⟩
      rw [itemChars, hchars, List.append_assoc, List.cons_append]
      simp
  refine ⟨c, more ++ rest, ?_, hclose⟩
  rw [hmore, List.append_assoc, skipSpace_append (l.skipSpace_gap depth), List.cons_append,
    skipSpace_cons hspace]

theorem skipSpace_fieldChars (depth : Nat) {fields : List (String × Json)} (hne : fields ≠ [])
    (rest : List Char) :
    ∃ cs, skipSpace (l.fieldChars depth fields ++ rest) = '"' :: cs := by
  obtain ⟨⟨key, v⟩, fields, rfl⟩ := List.exists_cons_of_ne_nil hne
  obtain ⟨more, hmore⟩ : ∃ more, l.fieldChars depth ((key, v) :: fields) = l.gap depth ++ '"' :: more := by
    let field := key.toList.flatMap escapeChar ++ '"' :: ':' :: l.behindColon ++ l.chars depth v
    cases fields with
    | nil => exact ⟨field, by simp [field, fieldChars, quoteWith]⟩
    | cons next fields =>
      exact ⟨field ++ ',' :: l.fieldChars depth (next :: fields), by simp [field, fieldChars, quoteWith]⟩
  exact ⟨more ++ rest, by rw [hmore, List.append_assoc, skipSpace_append (l.skipSpace_gap depth),
    List.cons_append, skipSpace_cons (by decide)]⟩

section Fields

variable {depth fuel : Nat} {key : String} {v : Json} {acc : List (String × Json)}
  {cs rest more : List Char}

theorem fields_comma (hv : value fuel cs = some (v, rest)) (hmore : skipSpace rest = ',' :: more) :
    fields (fuel + 1) acc
        (l.gap depth ++ (quoteWith escapeChar key.toList ++ ':' :: (l.behindColon ++ cs)))
      = fields fuel ((key, v) :: acc) more := by
  obtain ⟨hchars, hbody⟩ := stringBody_quoteWith key (':' :: (l.behindColon ++ cs))
  rw [hchars, fields, skipSpace_append (l.skipSpace_gap depth), skipSpace_cons (by decide)]
  simp only [hbody]
  rw [skipSpace_cons (by decide)]
  simp only [value_append _ l.skipSpace_behindColon, hv, hmore, String.ofList_toList]

theorem fields_brace (hv : value fuel cs = some (v, rest)) (hmore : skipSpace rest = '}' :: more) :
    fields (fuel + 1) acc
        (l.gap depth ++ (quoteWith escapeChar key.toList ++ ':' :: (l.behindColon ++ cs)))
      = some (((key, v) :: acc).reverse, more) := by
  obtain ⟨hchars, hbody⟩ := stringBody_quoteWith key (':' :: (l.behindColon ++ cs))
  rw [hchars, fields, skipSpace_append (l.skipSpace_gap depth), skipSpace_cons (by decide)]
  simp only [hbody]
  rw [skipSpace_cons (by decide)]
  simp [value_append _ l.skipSpace_behindColon, hv, hmore]

end Fields

/-- An array is read if its items are. -/
theorem value_array_cons {depth fuel : Nat} {item : Json} {items' : List Json} {rest : List Char}
    (hv : ArePlain (item :: items'))
    (hitems : items fuel [] (l.itemChars (depth + 1) (item :: items') ++ (l.gap depth ++ ']' :: rest))
      = some (item :: items', rest)) :
    value (fuel + 1) (l.chars depth (array (item :: items')) ++ rest)
      = some (array (item :: items'), rest) := by
  have hchars : l.chars depth (array (item :: items')) ++ rest
      = '[' :: (l.itemChars (depth + 1) (item :: items') ++ (l.gap depth ++ ']' :: rest)) := by
    simp [chars]
  obtain ⟨c, cs, hspace, hc⟩ := l.skipSpace_itemChars (depth + 1) (by simp) hv (l.gap depth ++ ']' :: rest)
  rw [← items_skipSpace, hspace] at hitems
  rw [hchars, value, skipSpace_cons (by decide)]
  simp only
  rw [hspace]
  simp [hc, hitems]

/-- An object is read if its fields are. -/
theorem value_object_cons {depth fuel : Nat} {field : String × Json} {fields' : List (String × Json)}
    {rest : List Char}
    (hfields : fields fuel []
        (l.fieldChars (depth + 1) (field :: fields') ++ (l.gap depth ++ '}' :: rest))
      = some (field :: fields', rest)) :
    value (fuel + 1) (l.chars depth (object (field :: fields')) ++ rest)
      = some (object (field :: fields'), rest) := by
  have hchars : l.chars depth (object (field :: fields')) ++ rest
      = '{' :: (l.fieldChars (depth + 1) (field :: fields') ++ (l.gap depth ++ '}' :: rest)) := by
    simp [chars]
  obtain ⟨cs, hspace⟩ := l.skipSpace_fieldChars (depth + 1) (List.cons_ne_nil field fields')
    (l.gap depth ++ '}' :: rest)
  rw [← fields_skipSpace, hspace] at hfields
  rw [hchars, value, skipSpace_cons (by decide)]
  simp only
  rw [hspace]
  simp [hfields]

theorem skipSpace_gap_cons (depth : Nat) {c : Char} (h : c ∉ [' ', '\t', '\n', '\r']) (cs : List Char) :
    skipSpace (l.gap depth ++ c :: cs) = c :: cs := by
  rw [skipSpace_append (l.skipSpace_gap depth), skipSpace_cons h]

mutual

/-- A plain value is read back, and its text ends where reading stops. -/
theorem value_chars (depth : Nat) : ∀ (v : Json) (fuel : Nat) (rest : List Char),
    IsPlain v → 2 * (l.chars depth v).length ≤ fuel → EndsNumber rest →
      value fuel (l.chars depth v ++ rest) = some (v, rest)
  | v, 0, rest, hv, hfuel, _ => by
    obtain ⟨c, cs, hchars, -⟩ := l.exists_chars_eq_cons depth hv
    rw [hchars] at hfuel
    simp at hfuel
  | null, fuel + 1, rest, _, _, _ => by
    have hchars : l.chars depth null ++ rest = 'n' :: 'u' :: 'l' :: 'l' :: rest := rfl
    rw [hchars, value, skipSpace_cons (by decide)]
    rfl
  | bool true, fuel + 1, rest, _, _, _ => by
    have hchars : l.chars depth (bool true) ++ rest = 't' :: 'r' :: 'u' :: 'e' :: rest := rfl
    rw [hchars, value, skipSpace_cons (by decide)]
    rfl
  | bool false, fuel + 1, rest, _, _, _ => by
    have hchars : l.chars depth (bool false) ++ rest = 'f' :: 'a' :: 'l' :: 's' :: 'e' :: rest := rfl
    rw [hchars, value, skipSpace_cons (by decide)]
    rfl
  | integer n, _ + 1, _, hv, _, hrest => value_integer hv hrest
  | string s, fuel + 1, rest, _, _, _ => by
    obtain ⟨hchars, hbody⟩ := stringBody_quoteWith s rest
    rw [chars, leaf, hchars, value, skipSpace_cons (by decide)]
    simp [hbody]
  | array [], fuel + 1, rest, _, _, _ => by
    have hchars : l.chars depth (array []) ++ rest = '[' :: ']' :: rest := rfl
    rw [hchars, value, skipSpace_cons (by decide)]
    simp only
    rw [skipSpace_cons (by decide)]
    rfl
  | array (item :: items'), fuel + 1, rest, hv, hfuel, _ => by
    simp only [chars, List.length_cons, List.length_append] at hfuel
    exact l.value_array_cons hv (items_itemChars (depth + 1) (item :: items') fuel depth [] rest
      (by simp) hv (by omega))
  | object [], fuel + 1, rest, _, _, _ => by
    have hchars : l.chars depth (object []) ++ rest = '{' :: '}' :: rest := rfl
    rw [hchars, value, skipSpace_cons (by decide)]
    simp only
    rw [skipSpace_cons (by decide)]
    rfl
  | object (field :: fields'), fuel + 1, rest, hv, hfuel, _ => by
    simp only [chars, List.length_cons, List.length_append] at hfuel
    exact l.value_object_cons (fields_fieldChars (depth + 1) (field :: fields') fuel depth [] rest
      (by simp) hv (by omega))

theorem items_itemChars (depth : Nat) : ∀ (xs : List Json) (fuel outer : Nat)
    (acc : List Json) (rest : List Char),
    xs ≠ [] → ArePlain xs → 2 * (l.itemChars depth xs).length + 1 ≤ fuel →
      items fuel acc (l.itemChars depth xs ++ (l.gap outer ++ ']' :: rest))
        = some (acc.reverse ++ xs, rest)
  | [], _, _, _, _, hne, _, _ => absurd rfl hne
  | _ :: _, 0, _, _, _, _, _, hfuel => absurd hfuel (by omega)
  | [x], fuel + 1, outer, acc, rest, _, hxs, hfuel => by
    simp only [itemChars, List.length_append] at hfuel
    have hx := value_chars depth x fuel (l.gap outer ++ ']' :: rest) hxs.1 (by omega)
      (endsNumber_append (l.skipSpace_gap outer) (endsNumber_cons (by decide) rest))
    rw [itemChars, List.append_assoc, items, value_append _ (l.skipSpace_gap depth), hx]
    simp only
    rw [l.skipSpace_gap_cons outer (by decide)]
    simp
  | x :: y :: xs, fuel + 1, outer, acc, rest, _, hxs, hfuel => by
    simp only [itemChars, List.length_append, List.length_cons] at hfuel
    have hx := value_chars depth x fuel
      (',' :: (l.itemChars depth (y :: xs) ++ (l.gap outer ++ ']' :: rest)))
      hxs.1 (by omega) (endsNumber_cons (by decide) _)
    have hys := items_itemChars depth (y :: xs) fuel outer (x :: acc) rest (by simp) hxs.2 (by omega)
    rw [itemChars.eq_3 _ _ _ _ (by simp), List.append_assoc, List.append_assoc, items,
      value_append _ (l.skipSpace_gap depth), List.cons_append, hx]
    simp only
    rw [skipSpace_cons (by decide)]
    simp [hys]

theorem fields_fieldChars (depth : Nat) : ∀ (xs : List (String × Json)) (fuel outer : Nat)
    (acc : List (String × Json)) (rest : List Char),
    xs ≠ [] → ArePlainFields xs → 2 * (l.fieldChars depth xs).length + 1 ≤ fuel →
      fields fuel acc (l.fieldChars depth xs ++ (l.gap outer ++ '}' :: rest))
        = some (acc.reverse ++ xs, rest)
  | [], _, _, _, _, hne, _, _ => absurd rfl hne
  | _ :: _, 0, _, _, _, _, _, hfuel => absurd hfuel (by omega)
  | [(key, v)], fuel + 1, outer, acc, rest, _, hxs, hfuel => by
    simp only [fieldChars, List.length_append, List.length_cons] at hfuel
    have hv := value_chars depth v fuel (l.gap outer ++ '}' :: rest) hxs.1 (by omega)
      (endsNumber_append (l.skipSpace_gap outer) (endsNumber_cons (by decide) rest))
    have hchars : l.fieldChars depth [(key, v)] ++ (l.gap outer ++ '}' :: rest)
        = l.gap depth ++ (quoteWith escapeChar key.toList ++ ':' :: (l.behindColon ++
          (l.chars depth v ++ (l.gap outer ++ '}' :: rest)))) := by
      simp [fieldChars]
    rw [hchars, l.fields_brace hv (l.skipSpace_gap_cons outer (by decide) rest)]
    simp
  | (key, v) :: y :: xs, fuel + 1, outer, acc, rest, _, hxs, hfuel => by
    simp only [fieldChars, List.length_append, List.length_cons] at hfuel
    have hv := value_chars depth v fuel
      (',' :: (l.fieldChars depth (y :: xs) ++ (l.gap outer ++ '}' :: rest)))
      hxs.1 (by omega) (endsNumber_cons (by decide) _)
    have hys := fields_fieldChars depth (y :: xs) fuel outer ((key, v) :: acc) rest
      (by simp) hxs.2 (by omega)
    have hchars : l.fieldChars depth ((key, v) :: y :: xs) ++ (l.gap outer ++ '}' :: rest)
        = l.gap depth ++ (quoteWith escapeChar key.toList ++ ':' :: (l.behindColon ++
          (l.chars depth v ++ ',' :: (l.fieldChars depth (y :: xs) ++ (l.gap outer ++ '}' :: rest))))) := by
      simp [fieldChars]
    rw [hchars, l.fields_comma hv (skipSpace_cons (by decide) _), hys]
    simp

end

/-- A plain document is read back from its text, whatever white space follows it. -/
theorem parse?_chars (depth : Nat) {v : Json} (hv : IsPlain v) {s space : String}
    (hs : s.toList = l.chars depth v) (hspace : skipSpace space.toList = []) :
    parse? (s ++ space) = some v := by
  have hchars : (s ++ space).toList = l.chars depth v ++ space.toList := by
    rw [String.toList_append, hs]
  have hends : EndsNumber (space.toList ++ []) := endsNumber_append hspace (by simp [EndsNumber])
  have hvalue := l.value_chars depth v (2 * (l.chars depth v ++ space.toList).length + 2) space.toList
    hv (by simp only [List.length_append]; omega) (List.append_nil space.toList ▸ hends)
  simp only [parse?, hchars, hvalue, hspace]
  rfl

end Values

end Layout

variable {v : Json} {space : String}

theorem parse?_indented (hv : IsPlain v) (hspace : skipSpace space.toList = []) :
    parse? (v.indented ++ space) = some v :=
  Layout.indented.parse?_chars 0 hv (by rw [indented, String.toList_ofList, Layout.indentedChars_eq]) hspace

theorem parse?_compact (hv : IsPlain v) (hspace : skipSpace space.toList = []) :
    parse? (v.compact ++ space) = some v :=
  Layout.compact.parse?_chars 0 hv (by rw [compact, String.toList_ofList, Layout.compactChars_eq 0]) hspace

end TextCatalog.Json
