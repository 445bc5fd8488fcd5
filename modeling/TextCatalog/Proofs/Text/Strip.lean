import Mathlib.Data.List.TakeWhile
import TextCatalog.Text.Blank

/-!
# Stripping

What is left of a text without the characters of a class at both ends. Two classes leave the same of
a text exactly when, without the characters that both have, neither end shows one that only one has.
-/

namespace TextCatalog.Text

variable {α : Type} {p q : α → Bool} {l : List α}

/-- The list without the items satisfying `p` at either end. -/
def stripBy (p : α → Bool) (l : List α) : List α :=
  ((l.dropWhile p).reverse.dropWhile p).reverse

theorem trimChars_eq_stripBy (cs : List Char) : trimChars cs = stripBy isBlank cs := rfl

theorem dropWhile_append_of_all {front back : List α} (h : ∀ a ∈ front, p a = true) :
    (front ++ back).dropWhile p = back.dropWhile p := by
  induction front with
  | nil => rfl
  | cons a front ih =>
    rw [List.cons_append, List.dropWhile_cons_of_pos (h a (by simp))]
    exact ih fun b hb => h b (by simp [hb])

theorem dropWhile_of_head (h : ∀ a ∈ l.head?, p a = false) : l.dropWhile p = l := by
  cases l with
  | nil => rfl
  | cons a l => rw [List.dropWhile_cons_of_neg (by simpa using h a rfl)]

theorem dropTrailing_append {p : Char → Bool} {xs ys : List Char}
    (h : dropTrailing p ys = [] → ∀ c ∈ xs.getLast?, p c = false) :
    dropTrailing p (xs ++ ys) = xs ++ dropTrailing p ys := by
  rw [dropTrailing, List.reverse_append, List.dropWhile_append]
  by_cases hnil : ys.reverse.dropWhile p = []
  · have hys : dropTrailing p ys = [] := by rw [dropTrailing, hnil, List.reverse_nil]
    have hxs : xs.reverse.dropWhile p = xs.reverse :=
      dropWhile_of_head (by simpa [List.head?_reverse] using h hys)
    rw [hys, hnil, hxs]
    simp
  · rw [if_neg (by simpa using hnil), List.reverse_append, List.reverse_reverse, dropTrailing]

/-- Between ends of the class, a middle whose own ends are not of the class is what is left. -/
theorem stripBy_eq {front middle back : List α} (hfront : ∀ a ∈ front, p a = true)
    (hback : ∀ a ∈ back, p a = true) (hhead : ∀ a ∈ middle.head?, p a = false)
    (hlast : ∀ a ∈ middle.getLast?, p a = false) : stripBy p (front ++ middle ++ back) = middle := by
  unfold stripBy
  rw [List.append_assoc, dropWhile_append_of_all hfront]
  cases middle with
  | nil => simp [List.dropWhile_eq_nil_iff.2 hback]
  | cons a middle =>
    have hkept : (a :: middle ++ back).dropWhile p = a :: middle ++ back :=
      dropWhile_of_head (by simpa using hhead)
    have hkept' : (a :: middle).reverse.dropWhile p = (a :: middle).reverse :=
      dropWhile_of_head (by simpa only [List.head?_reverse] using hlast)
    rw [hkept, List.reverse_append, dropWhile_append_of_all (by simpa using hback), hkept',
      List.reverse_reverse]

/-- What is stripped off is of the class, and the ends of what is left are not. -/
theorem exists_stripBy (p : α → Bool) (l : List α) :
    ∃ front back, l = front ++ stripBy p l ++ back ∧ (∀ a ∈ front, p a = true) ∧
      (∀ a ∈ back, p a = true) ∧ (∀ a ∈ (stripBy p l).head?, p a = false) ∧
      ∀ a ∈ (stripBy p l).getLast?, p a = false := by
  have hends : ∀ m : List α, ∃ front, m = front ++ m.dropWhile p ∧ (∀ a ∈ front, p a = true) ∧
      ∀ a ∈ (m.dropWhile p).head?, p a = false := by
    intro m
    refine ⟨m.takeWhile p, List.takeWhile_append_dropWhile.symm,
      fun a ha => List.mem_takeWhile_imp ha, ?_⟩
    intro a ha
    have hnot := List.head?_dropWhile_not p m
    rw [Option.mem_def.1 ha] at hnot
    simpa using hnot
  obtain ⟨front, hl, hfront, hhead⟩ := hends l
  obtain ⟨back, hrev, hback, hlast⟩ := hends (l.dropWhile p).reverse
  have hmiddle : l.dropWhile p = stripBy p l ++ back.reverse := by
    have := congrArg List.reverse hrev
    simpa [stripBy] using this
  refine ⟨front, back.reverse, by rw [List.append_assoc, ← hmiddle, ← hl], hfront,
    by simpa using hback, ?_, by simpa [stripBy] using hlast⟩
  intro a ha
  refine hhead a ?_
  rw [hmiddle, List.head?_append, Option.mem_def.1 ha]
  rfl

/-- An item that is not of the class stops the stripping at the front. -/
theorem head?_stripBy {front back : List α} {a : α} (hfront : ∀ b ∈ front, p b = true)
    (ha : p a = false) : (stripBy p (front ++ a :: back)).head? = some a := by
  have hkept : (a :: back).dropWhile p = a :: back := dropWhile_of_head (by simpa using ha)
  unfold stripBy
  rw [dropWhile_append_of_all hfront, hkept, List.reverse_cons, List.head?_reverse,
    List.dropWhile_append]
  split <;> simp [ha]

theorem stripBy_reverse (p : α → Bool) (l : List α) :
    stripBy p l.reverse = (stripBy p l).reverse := by
  obtain ⟨front, back, hl, hfront, hback, hhead, hlast⟩ := exists_stripBy p l
  have hrev : l.reverse = back.reverse ++ (stripBy p l).reverse ++ front.reverse := by
    have := congrArg List.reverse hl
    simpa only [List.reverse_append, List.append_assoc] using this
  rw [hrev]
  exact stripBy_eq (by simpa using hback) (by simpa using hfront) (by simpa using hlast)
    (by simpa using hhead)

theorem getLast?_stripBy {front back : List α} {a : α} (hback : ∀ b ∈ back, p b = true)
    (ha : p a = false) : (stripBy p (front ++ a :: back)).getLast? = some a := by
  have h : (stripBy p (back.reverse ++ a :: front.reverse)).head? = some a :=
    head?_stripBy (by simpa using hback) ha
  rw [List.getLast?_eq_head?_reverse, ← stripBy_reverse]
  simpa using h

end TextCatalog.Text
