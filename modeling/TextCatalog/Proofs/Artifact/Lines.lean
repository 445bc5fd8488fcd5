import Mathlib.Data.List.Basic
import Mathlib.Data.String.Basic
import TextCatalog.Artifact.Model
import TextCatalog.Proofs.Text.Split

/-!
# Lines and blocks

An artifact of code is read line by line. A block is what stands between a line that opens it and the
next line that closes it, so it can be found without knowing what the other lines say.
-/

namespace TextCatalog.Artifact

open Text

/-- The lines between the first line `opening` and the first line `closing` after it. -/
def block (opening closing : String) (ls : List String) : List String :=
  (ls.dropWhile (· ≠ opening)).tail.takeWhile (· ≠ closing)

section Split

theorem unlines_append (ls ls' : List String) : unlines (ls ++ ls') = unlines ls ++ unlines ls' := by
  apply String.toList_inj.1
  simp [unlines]

theorem unlines_singleton (l : String) : unlines [l] = l ++ "\n" := by
  apply String.toList_inj.1
  simp [unlines]

theorem toList_unlines_cons (l : String) (ls : List String) :
    (unlines (l :: ls)).toList = l.toList ++ '\n' :: (unlines ls).toList := by
  simp [unlines]

/-- A fixed line is its list of characters already, so nothing has to be decoded. -/
theorem newline_not_mem_ofList {cs : List Char} (h : '\n' ∉ cs) :
    '\n' ∉ (String.ofList cs).toList := by
  rwa [String.toList_ofList]

theorem split_unlines_append {ls : List String} (h : ∀ l ∈ ls, '\n' ∉ l.toList) (s : String) :
    split '\n' (unlines ls ++ s) = ls ++ split '\n' s := by
  induction ls with
  | nil => simp [unlines, String.join]
  | cons l ls ih =>
    obtain ⟨hl, hls⟩ := List.forall_mem_cons.1 h
    have hchars : (unlines (l :: ls) ++ s).toList = l.toList ++ '\n' :: (unlines ls ++ s).toList := by
      simp [toList_unlines_cons]
    rw [split, hchars, splitList_append, splitList_of_not_mem hl, List.singleton_append,
      List.map_cons, String.ofList_toList, List.cons_append, ← ih hls, split]

theorem split_unlines {ls : List String} (h : ∀ l ∈ ls, '\n' ∉ l.toList) :
    split '\n' (unlines ls) = ls ++ [""] := by
  simpa [split, splitList] using split_unlines_append h ""

end Split

section Block

variable {opening closing : String} {before body : List String}

theorem block_append (hbefore : opening ∉ before) (hbody : closing ∉ body) (after : List String) :
    block opening closing (before ++ opening :: (body ++ closing :: after)) = body := by
  have hskip : ∀ l ∈ before, decide (l ≠ opening) = true := by
    intro l hl
    simpa using fun heq : l = opening => hbefore (heq ▸ hl)
  have htake : ∀ l ∈ body, decide (l ≠ closing) = true := by
    intro l hl
    simpa using fun heq : l = closing => hbody (heq ▸ hl)
  rw [block, List.dropWhile_append_of_pos hskip, List.dropWhile_cons_of_neg (by simp),
    List.tail_cons, List.takeWhile_append_of_pos htake, List.takeWhile_cons_of_neg (by simp),
    List.append_nil]

end Block

end TextCatalog.Artifact
