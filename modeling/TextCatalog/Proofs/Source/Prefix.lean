import TextCatalog.Key

/-!
# Prefixes of output keys

A prefix to strip counts as if a slash were written before it. What stands behind it in a canonical key
is the output key, and a key without it loses its own slash only. The empty prefix alone is no slash: it
is found in every key, and nothing is stripped.
-/

namespace TextCatalog.Key

variable {lead key rest : String}

theorem unrooted_append (s : String) : unrooted ("/" ++ s) = s := by
  rw [unrooted, Text.after?_eq_some_iff.2 rfl, Option.getD_some]

/-- The prefix with a slash before it. -/
def rooted (lead : String) : String :=
  if Text.startsWith "/" lead then lead else "/" ++ lead

theorem rooted_of_startsWith (h : Text.startsWith "/" lead = true) : rooted lead = lead :=
  if_pos h

theorem rooted_of_not_startsWith (h : Text.startsWith "/" lead = false) : rooted lead = "/" ++ lead :=
  if_neg (by simp [h])

theorem after?_append_append (front lead s : String) :
    Text.after? (front ++ lead) (front ++ s) = Text.after? lead s := by
  ext rest
  rw [Text.after?_eq_some_iff, Text.after?_eq_some_iff, String.append_assoc]
  simp

/-- No key starts with a prefix that is not empty and does not start with a slash. -/
theorem after?_eq_none (hne : lead ≠ "") (h : Text.startsWith "/" lead = false) :
    Text.after? lead ("/" ++ rest) = none := by
  refine Option.eq_none_iff_forall_ne_some.2 fun tail htail => ?_
  have hchars := congrArg String.toList (Text.after?_eq_some_iff.1 htail)
  obtain ⟨c, cs, hcs⟩ := List.exists_cons_of_ne_nil (mt String.toList_eq_nil_iff.1 hne)
  rw [String.toList_append, String.toList_append, hcs] at hchars
  obtain rfl : '/' = c := (List.cons.inj hchars).1
  have hlead : lead = "/" ++ String.ofList cs := String.toList_inj.1 (by simp [hcs])
  rw [Text.startsWith_iff.2 ⟨_, hlead⟩] at h
  cases h

/-- Whether a slash was written before the prefix makes no difference. -/
theorem output_some (hne : lead ≠ "") (rest : String) :
    output (some lead) ("/" ++ rest) = (Text.after? (rooted lead) ("/" ++ rest)).getD rest := by
  rw [output, unrooted_append]
  cases hrooted : Text.startsWith "/" lead with
  | true =>
    rw [rooted_of_startsWith hrooted]
    cases Text.after? lead ("/" ++ rest) <;> rfl
  | false =>
    rw [rooted_of_not_startsWith hrooted, after?_append_append, after?_eq_none hne hrooted]
    rfl

theorem output_empty (key : String) : output (some "") key = key := by
  rw [output, Text.after?_eq_some_iff.2 (String.empty_append).symm]

/-- An output key is what the canonical key has behind the prefix with a slash before it, and else what it
has behind its own slash. For the empty prefix it is the canonical key. -/
theorem output_strips_rooted (lead : String) (hkey : Text.startsWith "/" key = true) :
    (lead ≠ "" →
      (∀ rest, key = rooted lead ++ rest → output (some lead) key = rest) ∧
      ((∀ rest, key ≠ rooted lead ++ rest) → "/" ++ output (some lead) key = key) ∧
      (Text.startsWith "/" lead = false →
        output (some lead) key = output (some ("/" ++ lead)) key)) ∧
    output (some "") key = key ∧ "/" ++ output none key = key := by
  obtain ⟨own, rfl⟩ := Text.startsWith_iff.1 hkey
  refine ⟨fun hne => ⟨fun rest hrest => ?_, fun hother => ?_, fun hrooted => ?_⟩, output_empty _, ?_⟩
  · rw [output_some hne, Text.after?_eq_some_iff.2 hrest, Option.getD_some]
  · have hnone : Text.after? (rooted lead) ("/" ++ own) = none :=
      Option.eq_none_iff_forall_ne_some.2 fun rest hrest => hother rest (Text.after?_eq_some_iff.1 hrest)
    rw [output_some hne, hnone, Option.getD_none]
  · have hslash : Text.startsWith "/" ("/" ++ lead) = true := Text.startsWith_iff.2 ⟨lead, rfl⟩
    have hne' : "/" ++ lead ≠ "" := by
      intro hempty
      rw [hempty] at hslash
      cases hslash
    rw [output_some hne, output_some hne', rooted_of_startsWith hslash, rooted_of_not_startsWith hrooted]
  · rw [output, unrooted_append]

section Sample

theorem output_strips_rooted_of_part :
    Text.startsWith "/" "/src/content/a.md" = true ∧ "src/con" ≠ "" ∧
      Text.startsWith "/" "src/con" = false ∧
      output (some "src/con") "/src/content/a.md" = "tent/a.md" ∧
      output (some "src/con") "/src/content/a.md" = output (some "/src/con") "/src/content/a.md" := by
  have hkey : Text.startsWith "/" "/src/content/a.md" = true := by decide
  have hrooted : Text.startsWith "/" "src/con" = false := by decide
  obtain ⟨hstrips, -, hsame⟩ := (output_strips_rooted "src/con" hkey).1 (by decide)
  exact ⟨hkey, by decide, hrooted, hstrips "tent/a.md" (by decide), hsame hrooted⟩

/-- With a slash before it the empty prefix would strip the slash of a key, as no prefix does. -/
theorem output_keeps_slash_of_empty :
    Text.startsWith "/" "/a.md" = true ∧ "/a.md" = rooted "" ++ "a.md" ∧
      output (some "") "/a.md" ≠ "a.md" ∧ output (some "") "/a.md" ≠ output (some "/") "/a.md" ∧
      output (some "") "/a.md" ≠ output none "/a.md" := by decide

end Sample

end TextCatalog.Key
