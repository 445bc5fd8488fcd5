import TextCatalog.Proofs.Glob.Reading
import TextCatalog.Proofs.Text.Split

/-!
# Texts that are no globs

Whether the rest of a text can be read depends on how many braces are open, not on what has been read.
So what follows a glob and a slash is at fault by itself or not at all, and a text is a glob whose slashes
stand outside of braces, classes and escapes exactly when all its segments are globs.
-/

namespace TextCatalog.Glob

/-- What is wrong, if anything. -/
def fault? : Except Fault Glob → Option Fault
  | .ok _ => none
  | .error fault => some fault

mutual

/-- What is wrong with the rest of a text, if anything, while `depth` braces are open. -/
def faultAt (depth : Nat) : List Char → Option Fault
  | [] => if depth = 0 then none else some .unclosedGroup
  | '[' :: '!' :: cs | '[' :: '^' :: cs => faultIn depth ⟨true, [], false⟩ cs
  | '[' :: cs => faultIn depth ⟨false, [], false⟩ cs
  | '{' :: cs => faultAt (depth + 1) cs
  | '}' :: cs => if depth = 0 then some .unopenedGroup else faultAt (depth - 1) cs
  | '\\' :: _ :: cs => faultAt depth cs
  | ['\\'] => some .danglingEscape
  | _ :: cs => faultAt depth cs

/-- What is wrong with the rest of a class and with the text behind it. -/
def faultIn (depth : Nat) (k : OpenClass) : List Char → Option Fault
  | [] => some .unclosedClass
  | ']' :: cs =>
    if k.ranges.isEmpty then faultIn depth { k with ranges := [(']', ']')] } cs
    else faultAt depth cs
  | '-' :: cs =>
    match k.dash with
    | .ok k => faultIn depth k cs
    | .error fault => some fault
  | c :: cs =>
    match k.add c with
    | .ok k => faultIn depth k cs
    | .error fault => some fault

end

namespace Reading

variable {r r' : Reading}

/-- How many braces are open. -/
def depth (r : Reading) : Nat := r.groups.length

@[simp]
theorem depth_nextBranch (r : Reading) : r.nextBranch.depth = r.depth := by
  obtain ⟨current, _ | ⟨g, gs⟩⟩ := r <;> rfl

theorem depth_of_closeGroup? (h : r.closeGroup? = some r') : r.depth = r'.depth + 1 := by
  obtain ⟨current, _ | ⟨g, gs⟩⟩ := r
  · cases h
  · obtain rfl := Option.some.inj h
    rfl

theorem closeGroup?_eq_none_iff : r.closeGroup? = none ↔ r.depth = 0 := by
  obtain ⟨current, _ | ⟨g, gs⟩⟩ := r <;> simp [closeGroup?, depth]

@[simp]
theorem depth_doubleStar (r : Reading) (before next : Option Char) :
    (r.doubleStar before next).depth = r.depth := by
  rw [doubleStar, depth, depth]
  dsimp only
  repeat' split
  all_goals rfl

theorem fault?_finish (r : Reading) :
    fault? r.finish = if r.depth = 0 then none else some .unclosedGroup := by
  obtain ⟨current, _ | ⟨g, gs⟩⟩ := r <;> rfl

end Reading

/-- What has been read does not matter to the rest, beyond the number of open braces. -/
theorem fault?_readTokens (r : Reading) (before : Option Char) (cs : List Char) :
    fault? (readTokens r before cs) = faultAt r.depth cs := by
  induction r, before, cs using readTokens.induct
    (motive_2 := fun r k cs => fault? (readClass r k cs) = faultIn r.depth k cs) with
  | case1 r => rw [readTokens, Reading.fault?_finish, faultAt]
  | case2 _ _ _ ih => exact ih
  | case3 _ _ _ ih =>
    rw [Reading.depth_doubleStar] at ih
    exact ih
  | case4 _ _ cs hslash ih =>
    rw [Reading.depth_doubleStar] at ih
    rw [readTokens]
    exacts [ih, hslash]
  | case5 _ _ _ hstars hstar ih =>
    rw [readTokens]
    exacts [ih, hstars, hstar]
  | case6 _ _ _ ih | case7 _ _ _ ih => exact ih
  | case8 _ _ _ hbang hcaret ih =>
    rw [readTokens, faultAt]
    exacts [ih, hbang, hcaret, hbang, hcaret]
  | case9 _ _ _ ih => exact ih
  | case10 r _ _ closed hclose ih =>
    have hdepth := Reading.depth_of_closeGroup? hclose
    rw [readTokens, hclose, faultAt, if_neg (by omega), hdepth, Nat.add_sub_cancel]
    exact ih
  | case11 _ _ _ hclose =>
    rw [readTokens, hclose, faultAt, if_pos (Reading.closeGroup?_eq_none_iff.1 hclose)]
    rfl
  | case12 _ _ _ _ ih => exact ih
  | case13 => rfl
  | case14 _ _ _ ih =>
    rw [Reading.depth_nextBranch] at ih
    exact ih
  | case15 _ _ c _ _ _ _ _ _ _ _ _ _ _ _ _ ih =>
    rw [readTokens, faultAt]
    · exact ih
    all_goals assumption
  | case16 => rfl
  | case17 _ _ _ hempty ih => rw [readClass, faultIn, if_pos hempty, if_pos hempty, ih]
  | case18 _ _ _ hempty ih =>
    rw [readClass, faultIn, if_neg hempty, if_neg hempty]
    exact ih
  | case19 _ _ _ _ hdash ih => rw [readClass, faultIn, hdash, ih]
  | case20 _ _ _ _ hdash =>
    rw [readClass, faultIn, hdash]
    rfl
  | case21 _ _ _ _ hbracket hdash _ hadd ih =>
    rw [readClass, faultIn, hadd]
    exacts [ih, hbracket, hdash, hbracket, hdash]
  | case22 _ _ _ _ hbracket hdash _ hadd =>
    rw [readClass, faultIn, hadd]
    exacts [rfl, hbracket, hdash, hbracket, hdash]

/-- After a glob and a slash reading starts anew. -/
theorem faultAt_append {depth : Nat} {cs rest : List Char} (h : faultAt depth cs = none) :
    faultAt depth (cs ++ '/' :: rest) = faultAt 0 rest := by
  induction depth, cs using faultAt.induct
    (motive_2 := fun depth k cs => faultIn depth k cs = none →
      faultIn depth k (cs ++ '/' :: rest) = faultAt 0 rest) with
  | case1 => rfl
  | case2 _ hdepth =>
    rw [faultAt, if_neg hdepth] at h
    cases h
  | case3 _ _ ih | case4 _ _ ih => exact ih h
  | case5 _ cs hbang hcaret ih =>
    rw [faultAt] at h
    · cases cs with
      | nil => cases h
      | cons c cs =>
        rw [List.cons_append, List.cons_append, faultAt]
        · exact ih h
        · rintro _ heq
          exact hbang cs (by rw [(List.cons.inj heq).1])
        · rintro _ heq
          exact hcaret cs (by rw [(List.cons.inj heq).1])
    all_goals assumption
  | case6 _ _ ih => exact ih h
  | case7 => cases h
  | case8 _ _ hdepth ih =>
    rw [faultAt, if_neg hdepth] at h
    rw [List.cons_append, faultAt, if_neg hdepth, ih h]
  | case9 _ _ _ ih => exact ih h
  | case10 => cases h
  | case11 _ c cs _ _ hbracket hopen hclose hpair hlast ih =>
    have hescape : c ≠ '\\' := by
      rintro rfl
      cases cs with
      | nil => exact hlast rfl rfl
      | cons d cs => exact hpair d cs rfl rfl
    rw [faultAt] at h
    · rw [List.cons_append, faultAt]
      · exact ih h
      all_goals simp_all
    all_goals assumption
  | case12 _ _ h => cases h
  | case13 _ _ _ hempty ih h =>
    rw [faultIn, if_pos hempty] at h
    rw [List.cons_append, faultIn, if_pos hempty, ih h]
  | case14 _ _ _ hempty ih h =>
    rw [faultIn, if_neg hempty] at h
    rw [List.cons_append, faultIn, if_neg hempty, ih h]
  | case15 _ _ _ _ hdash ih h =>
    rw [faultIn, hdash] at h
    rw [List.cons_append, faultIn, hdash]
    exact ih h
  | case16 _ _ _ _ hdash h =>
    rw [faultIn, hdash] at h
    cases h
  | case17 _ _ _ _ hbracket hdash _ hadd ih h =>
    rw [faultIn, hadd] at h
    · rw [List.cons_append, faultIn, hadd]
      exacts [ih h, hbracket, hdash]
    all_goals assumption
  | case18 _ _ _ _ hbracket hdash _ hadd h =>
    rw [faultIn, hadd] at h
    · cases h
    all_goals assumption

end TextCatalog.Glob

namespace TextCatalog.Pattern

variable {pattern lead rest : String}

/-- The text is a glob by itself. -/
def IsGlob (pattern : String) : Prop :=
  Glob.fault? (Glob.parse pattern) = none

instance : DecidablePred IsGlob := fun pattern =>
  inferInstanceAs (Decidable (Glob.fault? (Glob.parse pattern) = none))

/-- Every slash stands outside of braces, classes and escapes: the text before it is a glob by itself. -/
def CutsOutside (pattern : String) : Prop :=
  ∀ lead rest, pattern = lead ++ "/" ++ rest → IsGlob lead

theorem isGlob_iff_faultAt : IsGlob pattern ↔ Glob.faultAt 0 pattern.toList = none := by
  rw [IsGlob, Glob.parse, Glob.fault?_readTokens]
  rfl

theorem isGlob_iff : IsGlob pattern ↔ ∃ glob, Glob.parse pattern = .ok glob := by
  rw [IsGlob]
  cases Glob.parse pattern <;> simp [Glob.fault?]

theorem not_isGlob_iff : ¬ IsGlob pattern ↔ ∃ fault, Glob.parse pattern = .error fault := by
  rw [IsGlob]
  cases Glob.parse pattern <;> simp [Glob.fault?]

/-- What follows a glob and a slash decides whether all of it is a glob. -/
theorem isGlob_append_slash (hlead : IsGlob lead) : IsGlob (lead ++ "/" ++ rest) ↔ IsGlob rest := by
  have hchars : (lead ++ "/" ++ rest).toList = lead.toList ++ '/' :: rest.toList := by simp
  rw [isGlob_iff_faultAt, isGlob_iff_faultAt, hchars, Glob.faultAt_append (isGlob_iff_faultAt.1 hlead)]

/-- The slashes after a first segment are that segment's and those of the rest. -/
theorem cutsOutside_append_slash (hlead : '/' ∉ lead.toList) :
    CutsOutside (lead ++ "/" ++ rest) ↔ IsGlob lead ∧ CutsOutside rest := by
  constructor
  · intro hcuts
    have hfirst : IsGlob lead := hcuts lead rest rfl
    refine ⟨hfirst, fun lead' rest' heq => (isGlob_append_slash hfirst).1 (hcuts _ rest' ?_)⟩
    simp [heq, String.append_assoc]
  · rintro ⟨hfirst, hcuts⟩ lead' rest' heq
    have hchars : lead.toList ++ '/' :: rest.toList = lead'.toList ++ '/' :: rest'.toList := by
      simpa using congrArg String.toList heq
    rcases List.append_eq_append_iff.1 hchars with ⟨more, hlead', hmore⟩ | ⟨more, hmore, hrest⟩
    · cases more with
      | nil =>
        obtain rfl : lead' = lead := String.toList_inj.1 (by simpa using hlead')
        exact hfirst
      | cons c more =>
        obtain ⟨rfl, hrest⟩ := List.cons.inj hmore
        have hlead' : lead' = lead ++ "/" ++ String.ofList more := by
          apply String.toList_inj.1
          simpa using hlead'
        rw [hlead', isGlob_append_slash hfirst]
        exact hcuts _ rest' (by apply String.toList_inj.1; simpa using hrest)
    · cases more with
      | nil =>
        obtain rfl : lead' = lead := String.toList_inj.1 (by simpa using hmore.symm)
        exact hfirst
      | cons c more =>
        obtain ⟨rfl, -⟩ := List.cons.inj hrest
        simp [hmore] at hlead

/-- The segments of a pattern are globs exactly when the pattern is one and is cut outside of all glob
syntax. -/
theorem forall_segments_isGlob_iff :
    (∀ segment ∈ segments pattern, IsGlob segment) ↔ IsGlob pattern ∧ CutsOutside pattern := by
  have hpieces : ∀ pieces : List String, pieces ≠ [] → (∀ piece ∈ pieces, '/' ∉ piece.toList) →
      ((∀ piece ∈ pieces, IsGlob piece) ↔
        IsGlob (String.intercalate "/" pieces) ∧ CutsOutside (String.intercalate "/" pieces)) := by
    intro pieces hne hslash
    induction pieces with
    | nil => exact absurd rfl hne
    | cons first pieces ih =>
      obtain ⟨hfirst, hslash⟩ := List.forall_mem_cons.1 hslash
      by_cases hnil : pieces = []
      · subst hnil
        have hcuts : CutsOutside first := by
          rintro lead rest rfl
          simp at hfirst
        simp [hcuts]
      · rw [String.intercalate_cons_of_ne_nil hnil, cutsOutside_append_slash hfirst,
          List.forall_mem_cons, ih hnil hslash]
        constructor
        · rintro ⟨hglob, hrest, hcuts⟩
          exact ⟨(isGlob_append_slash hglob).2 hrest, hglob, hcuts⟩
        · rintro ⟨hall, hglob, hcuts⟩
          exact ⟨hglob, (isGlob_append_slash hglob).1 hall, hcuts⟩
  have hjoined : String.intercalate "/" (segments pattern) = pattern := Text.intercalate_split pattern
  have hne : segments pattern ≠ [] := by
    intro hnil
    exact Text.splitList_ne_nil '/' pattern.toList (List.map_eq_nil_iff.1 hnil)
  have hiff := hpieces (segments pattern) hne fun _ => Text.not_mem_of_mem_split
  rwa [hjoined] at hiff

end TextCatalog.Pattern
