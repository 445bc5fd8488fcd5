import TextCatalog.Proofs.Glob.Reading
import TextCatalog.Proofs.Text.Split

/-!
# Reading around braces

A text of literals, question marks and stars is read by itself, whatever stands before and after it, but
for two stars that are a whole segment: these are read together with the slashes around them. So between
two such texts braces are read as the alternatives, each of which is read there alone in the same way.
-/

namespace TextCatalog.Glob

/-- The characters that open, part or close something. -/
def groupChars : List Char := ['{', '}', '[', ',', '\\']

/-- The text is made of literals, question marks and stars. -/
def IsUngrouped (cs : List Char) : Prop :=
  ∀ c ∈ cs, c ∉ groupChars

/-- The text stands for itself, in braces too. -/
def IsLiteralText (cs : List Char) : Prop :=
  ∀ c ∈ cs, c ∉ groupChars ∧ c ≠ '*' ∧ c ≠ '?'

/-- The first segment is two stars. -/
def StarsFirst (cs : List Char) : Prop :=
  Text.firstPiece '/' cs = ['*', '*']

/-- The last segment is two stars. -/
def StarsLast (cs : List Char) : Prop :=
  Text.lastPiece '/' cs = ['*', '*']

instance : DecidablePred IsUngrouped := fun cs =>
  List.decidableBAll (fun c => c ∉ groupChars) cs

instance : DecidablePred IsLiteralText := fun cs =>
  List.decidableBAll (fun c => c ∉ groupChars ∧ c ≠ '*' ∧ c ≠ '?') cs

instance : DecidablePred StarsFirst := fun cs =>
  inferInstanceAs (Decidable (Text.firstPiece '/' cs = ['*', '*']))

instance : DecidablePred StarsLast := fun cs =>
  inferInstanceAs (Decidable (Text.lastPiece '/' cs = ['*', '*']))

/-- What is read at a time of a text that opens nothing: a question mark, two stars with a slash behind
them or without, a star that is not followed by another, or a literal. -/
inductive Items : List Char → Prop where
  | nil : Items []
  | mark {cs : List Char} : Items cs → Items ('?' :: cs)
  | starsSlash {cs : List Char} : Items cs → Items ('*' :: '*' :: '/' :: cs)
  | stars {cs : List Char} : (∀ rest, cs ≠ '/' :: rest) → Items cs → Items ('*' :: '*' :: cs)
  | star {cs : List Char} : (∀ rest, cs ≠ '*' :: rest) → Items cs → Items ('*' :: cs)
  | literal {c : Char} {cs : List Char} :
    c ∉ groupChars → c ≠ '*' → c ≠ '?' → Items cs → Items (c :: cs)

theorem IsUngrouped.items {cs : List Char} (h : IsUngrouped cs) : Items cs := by
  induction hlen : cs.length using Nat.strongRecOn generalizing cs with
  | ind n ih =>
    subst hlen
    have hlater : ∀ front rest, front ≠ [] → cs = front ++ rest → Items rest := by
      rintro front rest hfront rfl
      have hpos : 0 < front.length := List.length_pos_iff.2 hfront
      refine ih _ ?_ (fun c hc => h c (List.mem_append_right front hc)) rfl
      rw [List.length_append]
      omega
    cases cs with
    | nil => exact .nil
    | cons c cs =>
      have hcs : Items cs := hlater [c] cs (by simp) rfl
      by_cases hmark : c = '?'
      · exact hmark ▸ .mark hcs
      by_cases hstar : c = '*'
      · subst hstar
        -- The second star decides, and then the slash behind it.
        by_cases htwo : ∃ rest, cs = '*' :: rest
        · obtain ⟨rest, rfl⟩ := htwo
          by_cases hslash : ∃ behind, rest = '/' :: behind
          · obtain ⟨behind, rfl⟩ := hslash
            exact .starsSlash (hlater ['*', '*', '/'] behind (by simp) rfl)
          · exact .stars (not_exists.1 hslash) (hlater ['*', '*'] rest (by simp) rfl)
        · exact .star (not_exists.1 htwo) hcs
      · exact .literal (h c (by simp)) hstar hmark hcs

section Items

variable {r : Reading} {before : Option Char} {c : Char} {cs : List Char}

theorem readTokens_stars (h : ∀ rest, cs ≠ '/' :: rest) :
    readTokens r before ('*' :: '*' :: cs)
      = readTokens (r.doubleStar before cs.head?) (some '*') cs := by
  rw [readTokens]
  exact h

theorem readTokens_star (h : ∀ rest, cs ≠ '*' :: rest) :
    readTokens r before ('*' :: cs) = readTokens (r.push .anyRun) (some '*') cs := by
  rw [readTokens]
  · exact fun rest heq => h _ heq
  · exact h

theorem readTokens_literal (hc : c ∉ groupChars) (hstar : c ≠ '*') (hmark : c ≠ '?') :
    readTokens r before (c :: cs) = readTokens (r.push (.literal c)) (some c) cs := by
  simp only [groupChars, List.mem_cons, List.not_mem_nil, or_false, not_or] at hc
  obtain ⟨hopen, hclose, hclass, hcomma, hescape⟩ := hc
  rw [readTokens]
  all_goals simp_all

/-- A literal text is read as its literals, in braces too. -/
theorem readTokens_literals {text : List Char} (htext : IsLiteralText text) (current : List Token)
    (gs : List OpenGroup) (before : Option Char) (rest : List Char) :
    readTokens ⟨current, gs⟩ before (text ++ rest)
      = readTokens ⟨(text.map .literal).reverse ++ current, gs⟩ (text.getLast?.or before) rest := by
  induction text generalizing current before with
  | nil => rfl
  | cons c text ih =>
    obtain ⟨⟨hc, hstar, hmark⟩, htext⟩ := List.forall_mem_cons.1 htext
    have hlast : (c :: text).getLast?.or before = text.getLast?.or (some c) := by
      rw [List.getLast?_cons]
      cases text.getLast? <;> rfl
    calc readTokens ⟨current, gs⟩ before (c :: (text ++ rest))
        = readTokens ⟨.literal c :: current, gs⟩ (some c) (text ++ rest) :=
          readTokens_literal hc hstar hmark
      _ = readTokens ⟨(text.map .literal).reverse ++ .literal c :: current, gs⟩
            (text.getLast?.or (some c)) rest := ih htext _ _
      _ = readTokens ⟨((c :: text).map .literal).reverse ++ current, gs⟩
            ((c :: text).getLast?.or before) rest := by simp [hlast]

end Items

namespace Reading

/-- The tokens `base` stand before what has been read. -/
def onto (base : List Token) (r : Reading) : Reading :=
  { r with current := r.current ++ base }

variable {r : Reading} {base : List Token} {before next : Option Char}

theorem doubleStar_ne_nil : (r.doubleStar before next).current ≠ [] := by
  obtain ⟨current, groups⟩ := r
  rw [doubleStar]
  dsimp only
  repeat' split
  all_goals simp_all [push]

theorem groups_doubleStar : (r.doubleStar before next).groups = r.groups := by
  rw [doubleStar]
  dsimp only
  repeat' split
  all_goals rfl

/-- Two stars see no further than the last token. -/
theorem onto_doubleStar (h : r.current ≠ []) :
    (r.doubleStar before next).onto base = (r.onto base).doubleStar before next := by
  obtain ⟨current, groups⟩ := r
  obtain ⟨last, below, rfl⟩ := List.exists_cons_of_ne_nil h
  rw [doubleStar, doubleStar]
  dsimp only [onto, List.cons_append]
  repeat' split
  all_goals first | rfl | simp_all [push]

/-- The tokens of two stars that are no whole segment, last one first. -/
def starTokens (next : Option Char) : List Token :=
  if next = some '/' then [.literal '/', .anyRun, .anyRun] else [.anyRun, .anyRun]

/-- The two stars are no whole segment: something other than a slash stands before or after them. -/
def PartOfSegment (current : List Token) (before next : Option Char) : Prop :=
  (current ≠ [] ∧ before ≠ some '/') ∨ ∃ c, next = some c ∧ c ≠ '/'

theorem doubleStar_eq {current : List Token} (h : PartOfSegment current before next) :
    doubleStar ⟨current, []⟩ before next = ⟨starTokens next ++ current, []⟩ := by
  have hplain : (let slashAfter := next == some '/'
      let plain := (push ⟨current, []⟩ .anyRun).push .anyRun
      if slashAfter then plain.push (.literal '/') else plain)
        = ⟨starTokens next ++ current, []⟩ := by
    by_cases hnext : next = some '/' <;> simp [hnext, push, starTokens]
  rw [← hplain, doubleStar]
  cases current with
  | nil =>
    obtain ⟨hne, -⟩ | ⟨c, rfl, hc⟩ := h
    · exact absurd rfl hne
    · simp [hc]
  | cons last below =>
    obtain ⟨-, hbefore⟩ | ⟨c, rfl, hc⟩ := h
    · simp [hbefore]
    · dsimp only
      split
      · rfl
      · split <;> simp_all

end Reading

section Read

variable {r : Reading} {before : Option Char} {cs : List Char}

/-- What has been read is read on in the same way, whatever tokens stand before it. -/
theorem exists_readTokens_onto (hcs : Items cs) (r : Reading) (before : Option Char)
    (hgroups : r.groups = []) (hne : r.current ≠ []) :
    ∃ ts, ∀ base, readTokens (r.onto base) before cs = .ok ⟨base.reverse ++ ts⟩ := by
  induction hcs generalizing r before with
  | nil =>
    obtain ⟨current, groups⟩ := r
    obtain rfl : groups = [] := hgroups
    exact ⟨current.reverse, fun base => by simp [readTokens, Reading.onto, Reading.finish]⟩
  | mark _ ih => exact ih (r.push .anyByte) (some '?') hgroups (by simp [Reading.push])
  | starsSlash _ ih =>
    obtain ⟨ts, hts⟩ := ih _ (some '/')
      (Reading.groups_doubleStar.trans hgroups) Reading.doubleStar_ne_nil
    refine ⟨ts, fun base => ?_⟩
    rw [readTokens, ← Reading.onto_doubleStar hne, hts]
  | stars hslash _ ih =>
    obtain ⟨ts, hts⟩ := ih _ (some '*')
      (Reading.groups_doubleStar.trans hgroups) Reading.doubleStar_ne_nil
    refine ⟨ts, fun base => ?_⟩
    rw [readTokens_stars hslash, ← Reading.onto_doubleStar hne, hts]
  | star hstar _ ih =>
    obtain ⟨ts, hts⟩ := ih (r.push .anyRun) (some '*') hgroups (by simp [Reading.push])
    exact ⟨ts, fun base => (readTokens_star hstar).trans (hts base)⟩
  | @literal c _ hc hstar hmark _ ih =>
    obtain ⟨ts, hts⟩ :=
      ih (r.push (.literal c)) (some c) hgroups (by simp [Reading.push])
    exact ⟨ts, fun base => (readTokens_literal hc hstar hmark).trans (hts base)⟩

/-- Behind other tokens a text is read in the same way, whatever they are, but two stars at its start
after a slash. -/
theorem exists_readTokens_behind (hcs : Items cs) :
    ∃ ts, ∀ base before, base ≠ [] → (StarsFirst cs → before ≠ some '/') →
      readTokens ⟨base, []⟩ before cs = .ok ⟨base.reverse ++ ts⟩ := by
  have hown : ∀ (own : List Token) (before : Option Char) {rest : List Char}, own ≠ [] →
      Items rest → ∃ ts, ∀ base, readTokens ⟨own ++ base, []⟩ before rest
        = .ok ⟨base.reverse ++ ts⟩ :=
    fun own before _ hne hrest => exists_readTokens_onto hrest ⟨own, []⟩ before rfl hne
  cases hcs with
  | nil => exact ⟨[], fun base before _ _ => by simp [readTokens, Reading.finish]⟩
  | mark hrest =>
    obtain ⟨ts, hts⟩ := hown [.anyByte] (some '?') (by simp) hrest
    exact ⟨ts, fun base before _ _ => hts base⟩
  | starsSlash hrest =>
    obtain ⟨ts, hts⟩ := hown (Reading.starTokens (some '/')) (some '/') (by decide)
      hrest
    refine ⟨ts, fun base before hbase hstars => ?_⟩
    rw [readTokens, Reading.doubleStar_eq (.inl ⟨hbase, hstars rfl⟩), hts]
  | @stars cs hslash hrest =>
    obtain ⟨ts, hts⟩ := hown (Reading.starTokens cs.head?) (some '*')
      (by rw [Reading.starTokens]; split <;> simp) hrest
    refine ⟨ts, fun base before hbase hstars => ?_⟩
    have hpart : Reading.PartOfSegment base before cs.head? := by
      cases cs with
      | nil => exact .inl ⟨hbase, hstars rfl⟩
      | cons c cs => exact .inr ⟨c, rfl, fun heq => hslash cs (by rw [heq])⟩
    rw [readTokens_stars hslash, Reading.doubleStar_eq hpart, hts]
  | star hstar hrest =>
    obtain ⟨ts, hts⟩ := hown [.anyRun] (some '*') (by simp) hrest
    exact ⟨ts, fun base before _ _ => (readTokens_star hstar).trans (hts base)⟩
  | literal hc hstar hmark hrest =>
    obtain ⟨ts, hts⟩ := hown [.literal _] (some _) (by simp) hrest
    exact ⟨ts, fun base before _ _ => (readTokens_literal hc hstar hmark).trans (hts base)⟩

/-- The last segment is two stars, in a text that is read after these tokens and this character. -/
def EndsInStars (current : List Token) (before : Option Char) (cs : List Char) : Prop :=
  ((current = [] ∨ before = some '/') ∧ cs = ['*', '*']) ∨ ∃ front, cs = front ++ ['/', '*', '*']

/-- Stars at the end stay there when something is read before them. -/
theorem EndsInStars.append {current current' : List Token} {before before' : Option Char}
    (h : EndsInStars current' before' cs) (lead : List Char)
    (hslash : current' = [] ∨ before' = some '/' → lead.getLast? = some '/') :
    EndsInStars current before (lead ++ cs) := by
  rcases h with ⟨hfresh, rfl⟩ | ⟨front, rfl⟩
  · obtain ⟨front, rfl⟩ := List.getLast?_eq_some_iff.1 (hslash hfresh)
    exact .inr ⟨front, by simp⟩
  · exact .inr ⟨lead ++ front, by simp⟩

theorem readTokens_stars_of_ne_slash {next : Char} (hnext : next ≠ '/') (current : List Token)
    (before : Option Char) (rest : List Char) :
    readTokens ⟨current, []⟩ before ('*' :: '*' :: next :: rest)
      = readTokens ⟨.anyRun :: .anyRun :: current, []⟩ (some '*') (next :: rest) := by
  rw [readTokens_stars fun rest heq => hnext (List.cons.inj heq).1, List.head?_cons,
    Reading.doubleStar_eq (.inr ⟨next, rfl, hnext⟩), Reading.starTokens, if_neg (by simpa using hnext)]
  rfl

/-- Behind stars that are no whole segment a slash is read as it is. -/
theorem readTokens_stars_slash {current : List Token} (hne : current ≠ []) (hbefore : before ≠ some '/')
    (rest : List Char) :
    readTokens ⟨current, []⟩ before ('*' :: '*' :: '/' :: rest)
      = readTokens ⟨.anyRun :: .anyRun :: current, []⟩ (some '*') ('/' :: rest) := by
  let r : Reading := ⟨.anyRun :: .anyRun :: current, []⟩
  calc readTokens ⟨current, []⟩ before ('*' :: '*' :: '/' :: rest)
      = readTokens (r.push (.literal '/')) (some '/') rest := by
        rw [readTokens, Reading.doubleStar_eq (.inl ⟨hne, hbefore⟩)]
        rfl
    _ = readTokens r (some '*') ('/' :: rest) :=
        (readTokens_literal (by decide) (by decide) (by decide)).symm

/-- Before other characters a text is read in the same way, whatever they are, but two stars at its end
before a slash. -/
theorem exists_readTokens_before (hcs : Items cs) (current : List Token) (before : Option Char) :
    ∃ front last, ∀ next rest, next ≠ '*' → (next = '/' → ¬ EndsInStars current before cs) →
      readTokens ⟨current, []⟩ before (cs ++ next :: rest)
        = readTokens ⟨front, []⟩ last (next :: rest) := by
  induction hcs generalizing current before with
  | nil => exact ⟨current, before, fun next rest _ _ => rfl⟩
  | @mark cs _ ih =>
    obtain ⟨front, last, hread⟩ := ih (.anyByte :: current) (some '?')
    refine ⟨front, last, fun next rest hnext hstars => ?_⟩
    exact hread next rest hnext fun h hends => hstars h (hends.append ['?'] (by simp))
  | @starsSlash cs _ ih =>
    obtain ⟨front, last, hread⟩ :=
      ih (Reading.doubleStar ⟨current, []⟩ before (some '/')).current (some '/')
    have hgroups : Reading.doubleStar ⟨current, []⟩ before (some '/')
        = ⟨(Reading.doubleStar ⟨current, []⟩ before (some '/')).current, []⟩ :=
      congrArg (Reading.mk _) Reading.groups_doubleStar
    refine ⟨front, last, fun next rest hnext hstars => ?_⟩
    calc readTokens ⟨current, []⟩ before ('*' :: '*' :: '/' :: (cs ++ next :: rest))
        = readTokens ⟨_, []⟩ (some '/') (cs ++ next :: rest) := by rw [readTokens, hgroups]
      _ = readTokens ⟨front, []⟩ last (next :: rest) := hread next rest hnext fun h hends =>
          hstars h (hends.append ['*', '*', '/'] (by simp))
  | @stars cs hslash _ ih =>
    obtain ⟨front, last, hread⟩ := ih (.anyRun :: .anyRun :: current) (some '*')
    cases cs with
    | cons c cs =>
      refine ⟨front, last, fun next rest hnext hends => ?_⟩
      calc readTokens ⟨current, []⟩ before ('*' :: '*' :: c :: (cs ++ next :: rest))
          = readTokens ⟨.anyRun :: .anyRun :: current, []⟩ (some '*') (c :: cs ++ next :: rest) :=
            readTokens_stars_of_ne_slash (fun heq => hslash cs (by rw [heq])) _ _ _
        _ = readTokens ⟨front, []⟩ last (next :: rest) := hread next rest hnext fun h hends' =>
            hends h (hends'.append ['*', '*'] (by simp))
    | nil =>
      refine ⟨.anyRun :: .anyRun :: current, some '*', fun next rest hnext hends => ?_⟩
      by_cases hslash : next = '/'
      · subst hslash
        obtain ⟨hne, hbefore⟩ := not_or.1 fun hfresh => hends rfl (.inl ⟨hfresh, rfl⟩)
        exact readTokens_stars_slash hne hbefore rest
      · exact readTokens_stars_of_ne_slash hslash current before rest
  | @star cs hstar _ ih =>
    obtain ⟨front, last, hread⟩ := ih (.anyRun :: current) (some '*')
    refine ⟨front, last, fun next rest hnext hstars => ?_⟩
    have hfollows : ∀ more, cs ++ next :: rest ≠ '*' :: more := by
      rintro more heq
      cases cs with
      | nil => exact hnext (List.cons.inj heq).1
      | cons c cs => exact hstar cs (by rw [(List.cons.inj heq).1])
    calc readTokens ⟨current, []⟩ before ('*' :: (cs ++ next :: rest))
        = readTokens ⟨.anyRun :: current, []⟩ (some '*') (cs ++ next :: rest) :=
          readTokens_star hfollows
      _ = readTokens ⟨front, []⟩ last (next :: rest) := hread next rest hnext fun h hends =>
          hstars h (hends.append ['*'] (by simp))
  | @literal c cs hc hstar hmark _ ih =>
    obtain ⟨front, last, hread⟩ := ih (.literal c :: current) (some c)
    refine ⟨front, last, fun next rest hnext hstars => ?_⟩
    calc readTokens ⟨current, []⟩ before (c :: (cs ++ next :: rest))
        = readTokens ⟨.literal c :: current, []⟩ (some c) (cs ++ next :: rest) :=
          readTokens_literal hc hstar hmark
      _ = readTokens ⟨front, []⟩ last (next :: rest) := hread next rest hnext fun h hends =>
          hstars h (hends.append [c] (by simp))

end Read

/-- Two alternatives in braces. -/
def inBraces (as bs : List Char) : List Char :=
  '{' :: as ++ ',' :: bs ++ ['}']

/-- What stands around an alternative. -/
structure Surrounds (pre post : List Char) : Prop where
  pre : IsUngrouped pre
  post : IsUngrouped post

/-- A literal text that can be written between `pre` and `post` without a slash next to two stars. -/
structure Alternative (pre post text : List Char) : Prop where
  ne_nil : text ≠ []
  literal : IsLiteralText text
  starsLast : StarsLast pre → text.head? ≠ some '/'
  starsFirst : StarsFirst post → text.getLast? ≠ some '/'

variable {pre post text as bs : List Char}

/-- **Reading around braces.** There are tokens before and after the alternatives that are the same for
each of them alone and for both in braces. -/
theorem exists_readTokens_around (h : Surrounds pre post) :
    ∃ front back, (∀ {text : List Char}, Alternative pre post text →
        readTokens .start none (pre ++ text ++ post) = .ok ⟨front ++ text.map .literal ++ back⟩) ∧
      ∀ {as bs : List Char}, Alternative pre post as → Alternative pre post bs →
        readTokens .start none (pre ++ inBraces as bs ++ post)
          = .ok ⟨front ++ .oneOf [as.map .literal, bs.map .literal] :: back⟩ := by
  obtain ⟨front, last, hfront⟩ := exists_readTokens_before h.pre.items [] none
  obtain ⟨back, hback⟩ := exists_readTokens_behind h.post.items
  refine ⟨front.reverse, back, fun {text} htext => ?_, fun {as bs} has hbs => ?_⟩
  · obtain ⟨c, cs, rfl⟩ := List.exists_cons_of_ne_nil htext.ne_nil
    obtain ⟨⟨-, hstar, -⟩, -⟩ := List.forall_mem_cons.1 htext.literal
    have hbefore : c = '/' → ¬ EndsInStars [] none pre := by
      rintro rfl (⟨-, rfl⟩ | ⟨more, rfl⟩)
      · exact htext.starsLast rfl rfl
      · exact htext.starsLast (Text.lastPiece_of_not_mem (by decide) more) rfl
    have hbehind : StarsFirst post → (c :: cs).getLast?.or last ≠ some '/' := by
      intro hstars
      rw [List.getLast?_cons, Option.some_or, ← List.getLast?_cons]
      exact htext.starsFirst hstars
    calc readTokens ⟨[], []⟩ none (pre ++ (c :: cs) ++ post)
        = readTokens ⟨[], []⟩ none (pre ++ c :: (cs ++ post)) := by simp
      _ = readTokens ⟨front, []⟩ last ((c :: cs) ++ post) := hfront c _ hstar hbefore
      _ = readTokens ⟨((c :: cs).map Token.literal).reverse ++ front, []⟩
            ((c :: cs).getLast?.or last) post := readTokens_literals htext.literal _ _ _ _
      _ = .ok ⟨(((c :: cs).map Token.literal).reverse ++ front).reverse ++ back⟩ :=
          hback _ _ (by simp) hbehind
      _ = .ok ⟨front.reverse ++ (c :: cs).map Token.literal ++ back⟩ := by simp
  · let opened : OpenGroup := ⟨front, []⟩
    let parted : OpenGroup := ⟨front, [(as.map .literal).reverse]⟩
    calc readTokens ⟨[], []⟩ none (pre ++ inBraces as bs ++ post)
        = readTokens ⟨[], []⟩ none (pre ++ '{' :: (as ++ ',' :: (bs ++ '}' :: post))) := by
          simp [inBraces]
      _ = readTokens ⟨front, []⟩ last ('{' :: (as ++ ',' :: (bs ++ '}' :: post))) :=
          hfront '{' _ (by decide) (by simp)
      _ = readTokens ⟨[], [opened]⟩ (some '{') (as ++ ',' :: (bs ++ '}' :: post)) := by
          rw [readTokens]
          rfl
      _ = readTokens ⟨(as.map .literal).reverse ++ [], [opened]⟩ _ (',' :: (bs ++ '}' :: post)) :=
          readTokens_literals has.literal _ _ _ _
      _ = readTokens ⟨[], [parted]⟩ (some ',') (bs ++ '}' :: post) := by
          rw [readTokens, List.append_nil]
          rfl
      _ = readTokens ⟨(bs.map .literal).reverse ++ [], [parted]⟩ _ ('}' :: post) :=
          readTokens_literals hbs.literal _ _ _ _
      _ = readTokens ⟨.oneOf [as.map .literal, bs.map .literal] :: front, []⟩ (some '}') post := by
          rw [readTokens, List.append_nil]
          simp [Reading.closeGroup?, parted]
      _ = .ok ⟨(.oneOf [as.map .literal, bs.map .literal] :: front).reverse ++ back⟩ :=
          hback _ _ (by simp) (by simp)
      _ = .ok ⟨front.reverse ++ .oneOf [as.map .literal, bs.map .literal] :: back⟩ := by simp

end TextCatalog.Glob
