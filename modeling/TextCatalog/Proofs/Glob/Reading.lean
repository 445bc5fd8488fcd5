import Mathlib.Data.List.Basic
import TextCatalog.Selection

/-!
# Plain text in globs

Characters that begin no glob syntax are read as literals. A slash after plain text at the start of a
glob may be read together with two stars behind it, but it stays something that asks for a slash.
-/

namespace TextCatalog.Glob

namespace Reading

/-- The property is kept by everything that is done while a glob is read. -/
structure Keeps (P : Reading → Prop) : Prop where
  push : ∀ {r} t, P r → P (r.push t)
  openGroup : ∀ {r}, P r → P r.openGroup
  nextBranch : ∀ {r}, P r → P r.nextBranch
  closeGroup : ∀ {r r'}, r.closeGroup? = some r' → P r → P r'
  doubleStar : ∀ {r} before next, P r → P (r.doubleStar before next)

theorem of_finish_eq_ok {r : Reading} {g : Glob} (h : r.finish = .ok g) :
    r.groups = [] ∧ g = ⟨r.current.reverse⟩ := by
  rw [finish] at h
  split at h
  next hgroups => exact ⟨hgroups, (Except.ok.inj h).symm⟩
  next => cases h

/-- What is kept while a glob is read holds at its end, where no brace is open. -/
theorem Keeps.readTokens {P : Reading → Prop} (hkeeps : Keeps P) {r : Reading}
    {before : Option Char} {cs : List Char} {g : Glob} (hr : P r)
    (h : Glob.readTokens r before cs = .ok g) :
    ∃ last, P last ∧ last.groups = [] ∧ g = ⟨last.current.reverse⟩ := by
  induction r, before, cs using readTokens.induct
    (motive_2 := fun r k cs => P r → readClass r k cs = .ok g →
      ∃ last, P last ∧ last.groups = [] ∧ g = ⟨last.current.reverse⟩) with
  | case1 r => exact ⟨r, hr, of_finish_eq_ok h⟩
  | case2 _ _ _ ih => exact ih (hkeeps.push _ hr) h
  | case3 _ _ _ ih => exact ih (hkeeps.doubleStar _ _ hr) h
  | case4 _ _ _ hslash ih =>
    rw [Glob.readTokens] at h
    exacts [ih (hkeeps.doubleStar _ _ hr) h, hslash]
  | case5 _ _ _ hstars hstar ih =>
    rw [Glob.readTokens] at h
    exacts [ih (hkeeps.push _ hr) h, hstars, hstar]
  | case6 _ _ _ ih | case7 _ _ _ ih => exact ih hr h
  | case8 _ _ _ hbang hcaret ih =>
    rw [Glob.readTokens] at h
    exacts [ih hr h, hbang, hcaret]
  | case9 _ _ _ ih => exact ih (hkeeps.openGroup hr) h
  | case10 _ _ _ _ hclose ih =>
    rw [Glob.readTokens, hclose] at h
    exact ih (hkeeps.closeGroup hclose hr) h
  | case11 _ _ _ hclose =>
    rw [Glob.readTokens, hclose] at h
    cases h
  | case12 _ _ _ _ ih => exact ih (hkeeps.push _ hr) h
  | case13 => cases h
  | case14 _ _ _ ih => exact ih (hkeeps.nextBranch hr) h
  | case15 _ _ c _ _ _ _ _ _ _ _ _ _ _ _ _ ih =>
    rw [Glob.readTokens] at h
    · exact ih (hkeeps.push _ hr) h
    all_goals assumption
  | case16 _ _ _ h => cases h
  | case17 _ _ _ hempty ih hr h =>
    rw [readClass, if_pos hempty] at h
    exact ih hr h
  | case18 _ _ _ hempty ih hr h =>
    rw [readClass, if_neg hempty] at h
    exact ih (hkeeps.push _ hr) h
  | case19 _ _ _ _ hdash ih hr h =>
    rw [readClass, hdash] at h
    exact ih hr h
  | case20 _ _ _ _ hdash hr h =>
    rw [readClass, hdash] at h
    cases h
  | case21 _ _ _ _ hbracket hdash _ hadd ih hr h =>
    rw [readClass, hadd] at h
    exacts [ih hr h, hbracket, hdash]
  | case22 _ _ _ _ hbracket hdash _ hadd hr h =>
    rw [readClass, hadd] at h
    · cases h
    · exact hbracket
    · exact hdash

end Reading

section Plain

variable {g : Glob} {before : Option Char} {text rest : List Char}

theorem readTokens_plain {current : List Token} (htext : ∀ c ∈ text, c ∉ Pattern.metaChars)
    (h : readTokens ⟨current, []⟩ before (text ++ rest) = .ok g) :
    ∃ before, readTokens ⟨(text.map .literal).reverse ++ current, []⟩ before rest = .ok g := by
  induction text generalizing before current with
  | nil => exact ⟨before, h⟩
  | cons c text ih =>
    obtain ⟨hc, htext⟩ := List.forall_mem_cons.1 htext
    simp only [Pattern.metaChars, List.mem_cons, List.not_mem_nil, or_false, not_or] at hc
    obtain ⟨hstar, hmark, hbracket, hbrace, hescape⟩ := hc
    rw [List.cons_append] at h
    suffices hread : readTokens ⟨.literal c :: current, []⟩ (some c) (text ++ rest) = .ok g by
      simpa using ih htext hread
    by_cases hclose : c = '}'
    · -- Outside of braces nothing can be closed.
      subst hclose
      cases h
    · by_cases hcomma : c = ','
      · subst hcomma
        exact h
      · rw [readTokens] at h
        · exact h
        all_goals simp_all

end Plain

section Slash

/-- Whether the token takes a slash before anything else. -/
def Token.asksSlash : Token → Bool
  | literal '/' | trailingAll | betweenDirs => true
  | _ => false

namespace Reading

/-- The tokens outside of all braces, last one first. -/
def outermost (r : Reading) : List Token :=
  match r.groups.getLast? with
  | none => r.current
  | some g => g.outer

/-- After the tokens `front` a slash is asked for. -/
def Follows (front : List Token) (r : Reading) : Prop :=
  ∃ ts sep, Token.asksSlash sep = true ∧ r.outermost = ts ++ sep :: front

variable {front : List Token} {r r' : Reading} {current : List Token} {g : OpenGroup}
  {gs : List OpenGroup}

theorem outermost_nil : outermost ⟨current, []⟩ = current := rfl

theorem outermost_cons (current' : List Token) :
    outermost ⟨current, g :: gs⟩ = outermost ⟨current', g :: gs⟩ := by
  cases gs <;> rfl

theorem outermost_group (g' : OpenGroup) :
    outermost ⟨current, g :: g' :: gs⟩ = outermost ⟨current, g' :: gs⟩ := by
  rw [outermost, outermost, List.getLast?_cons_cons]

theorem Follows.push (t : Token) (h : r.Follows front) : (r.push t).Follows front := by
  obtain ⟨ts, sep, hsep, heq⟩ := h
  obtain ⟨current, _ | ⟨g, gs⟩⟩ := r
  · exact ⟨t :: ts, sep, hsep, congrArg (t :: ·) heq⟩
  · exact ⟨ts, sep, hsep, (outermost_cons current).trans heq⟩

/-- Two stars may take the place of the last token. -/
theorem Follows.replace {t last : Token} (ht : t.asksSlash = true)
    (h : Follows front ⟨last :: current, gs⟩) : Follows front ⟨t :: current, gs⟩ := by
  obtain ⟨ts, sep, hsep, heq⟩ := h
  cases gs with
  | nil =>
    rw [outermost_nil] at heq
    cases ts with
    | nil => exact ⟨[], t, ht, congrArg (t :: ·) (List.cons.inj heq).2⟩
    | cons first ts => exact ⟨t :: ts, sep, hsep, congrArg (t :: ·) (List.cons.inj heq).2⟩
  | cons g gs => exact ⟨ts, sep, hsep, (outermost_cons _).trans heq⟩

theorem Follows.replaced {t last : Token} (ht : t.asksSlash = true) :
    Follows front ⟨last :: current, gs⟩ → Follows front (match last with
      | .leadingDirs => ⟨last :: current, gs⟩
      | .trailingAll => ⟨last :: current, gs⟩
      | _ => ⟨t :: current, gs⟩) := by
  intro h
  split
  · exact h
  · exact h
  · exact h.replace ht

theorem Follows.doubleStar (before next : Option Char) (h : r.Follows front) :
    (r.doubleStar before next).Follows front := by
  have hplain : ∀ slashAfter : Bool,
      (if slashAfter then ((r.push .anyRun).push .anyRun).push (.literal '/')
        else (r.push .anyRun).push .anyRun).Follows front := by
    intro slashAfter
    cases slashAfter
    · exact (h.push _).push _
    · exact ((h.push _).push _).push _
  rw [Reading.doubleStar]
  dsimp only
  split
  · split
    · exact h.push _
    · exact hplain _
  next last below hcurrent =>
    obtain ⟨current, gs⟩ := r
    obtain rfl : current = last :: below := hcurrent
    split
    · exact hplain _
    · split
      · exact h.replaced rfl
      · exact h.replaced rfl
      · split
        · exact hplain _
        · exact h.replaced rfl
      · split
        · exact hplain _
        · exact h.replaced rfl
      · exact hplain _

theorem keeps_follows (front : List Token) : Keeps (Follows front) where
  push t h := h.push t
  openGroup {r} h := by
    obtain ⟨ts, sep, hsep, heq⟩ := h
    obtain ⟨current, _ | ⟨g, gs⟩⟩ := r
    · exact ⟨ts, sep, hsep, heq⟩
    · exact ⟨ts, sep, hsep, (outermost_group g).trans ((outermost_cons current).trans heq)⟩
  nextBranch {r} h := by
    obtain ⟨current, _ | ⟨g, gs⟩⟩ := r
    · exact h.push _
    · obtain ⟨ts, sep, hsep, heq⟩ := h
      cases gs with
      | nil => exact ⟨ts, sep, hsep, heq⟩
      | cons g' gs =>
        rw [outermost_group] at heq
        exact ⟨ts, sep, hsep, (outermost_group g').trans ((outermost_cons current).trans heq)⟩
  closeGroup {r r'} hclose h := by
    obtain ⟨current, _ | ⟨g, gs⟩⟩ := r
    · cases hclose
    · obtain ⟨ts, sep, hsep, heq⟩ := h
      obtain rfl := Option.some.inj hclose
      cases gs with
      | nil => exact ⟨_ :: ts, sep, hsep, congrArg (_ :: ·) heq⟩
      | cons g' gs =>
        rw [outermost_group] at heq
        exact ⟨ts, sep, hsep, (outermost_cons current).trans heq⟩
  doubleStar before next h := h.doubleStar before next

end Reading

variable {g : Glob} {s : String} {text rest : List Char}

/-- A text without glob syntax is read as the literals that it is made of. -/
theorem tokens_of_parse_plain (hplain : ∀ c ∈ s.toList, c ∉ Pattern.metaChars)
    (h : Glob.parse s = .ok g) : g.tokens = s.toList.map .literal := by
  rw [Glob.parse, ← List.append_nil s.toList] at h
  obtain ⟨before, hread⟩ := readTokens_plain hplain h
  rw [readTokens] at hread
  obtain ⟨-, rfl⟩ := Reading.of_finish_eq_ok hread
  simp

/-- Plain text and a slash at the start of a glob are read as literals and something that asks for a
slash. -/
theorem tokens_of_parse_slash (hplain : ∀ c ∈ text, c ∉ Pattern.metaChars)
    (hs : s.toList = text ++ '/' :: rest) (h : Glob.parse s = .ok g) :
    ∃ sep ts, Token.asksSlash sep = true ∧ g.tokens = text.map .literal ++ sep :: ts := by
  rw [Glob.parse, hs, ← List.singleton_append, ← List.append_assoc] at h
  have hslash : ∀ c ∈ text ++ ['/'], c ∉ Pattern.metaChars := by
    intro c hc
    rcases List.mem_append.1 hc with hc | hc
    · exact hplain c hc
    · obtain rfl : c = '/' := by simpa using hc
      decide
  obtain ⟨before, hread⟩ := readTokens_plain hslash h
  have hfollows : Reading.Follows (text.map .literal).reverse
      ⟨((text ++ ['/']).map .literal).reverse ++ [], []⟩ :=
    ⟨[], .literal '/', rfl, by simp [Reading.outermost_nil]⟩
  obtain ⟨⟨current, gs⟩, ⟨ts, sep, hsep, heq⟩, hgroups, rfl⟩ :=
    (Reading.keeps_follows _).readTokens hfollows hread
  obtain rfl : gs = [] := hgroups
  rw [Reading.outermost_nil] at heq
  exact ⟨sep, ts.reverse, hsep, by simp [heq]⟩

end Slash

end TextCatalog.Glob
