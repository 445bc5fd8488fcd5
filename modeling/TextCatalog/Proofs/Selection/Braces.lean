import TextCatalog.Proofs.Selection.Dots
import TextCatalog.Proofs.Text.Strip

/-!
# Patterns with braces

A pattern with two alternatives in braces takes what the two patterns take that are written out, and its
segments name no other hidden files.
-/

namespace TextCatalog

open Glob (IsUngrouped IsLiteralText Alternative inBraces)
open TextCatalog.Path (IsName)

namespace Pattern

section Normal

/-- The text without the white space at its end. -/
def kept (post : String) : String :=
  String.ofList (Text.dropTrailing Text.isBlank post.toList)

/-- A pattern that starts with no dot, slash or white space loses the white space at its end only. -/
theorem normalize_append {text post : String} {c : Char} {cs : List Char} (htext : text.toList = c :: cs)
    (hdot : c ≠ '.') (hslash : c ≠ '/') (hblank : Text.isBlank c = false)
    (hend : kept post = "" → ∀ c ∈ text.toList.getLast?, Text.isBlank c = false) :
    normalize (text ++ post) = text ++ kept post := by
  have htrim : Text.trimChars (text ++ post).toList
      = c :: (cs ++ Text.dropTrailing Text.isBlank post.toList) := by
    have hfront : (text ++ post).toList.dropWhile Text.isBlank = text.toList ++ post.toList := by
      rw [String.toList_append, htext, List.cons_append, List.dropWhile_cons_of_neg (by simp [hblank])]
    rw [Text.trimChars, hfront, Text.dropTrailing_append, htext, List.cons_append]
    intro hnil
    exact hend (by rw [kept, hnil])
  have hrest : Text.restAfter? ['/'] (c :: (cs ++ Text.dropTrailing Text.isBlank post.toList)) = none := by
    rw [Text.restAfter?, if_neg (Ne.symm hslash)]
  have hhere : ∀ rest : List Char, dropHere (c :: rest) = c :: rest := by
    intro rest
    rw [dropHere]
    rintro rest' heq
    exact hdot (List.cons.inj heq).1
  apply String.toList_inj.1
  rw [normalize, htrim, hrest, Option.getD_none, hhere]
  simp [kept, htext]

end Normal

/-- The pattern with two alternatives in braces. -/
def braces (pre a b post : String) : String :=
  pre ++ "\x7b" ++ a ++ "," ++ b ++ "\x7d" ++ post

/-- Two alternatives that are literal texts between texts that open nothing, in a pattern of which
nothing is taken off the front. -/
structure Alternation (pre a b post : String) : Prop where
  first : ∃ c cs, pre.toList = c :: cs ∧ c ≠ '.' ∧ c ≠ '/' ∧ Text.isBlank c = false
  pre : IsUngrouped pre.toList
  post : IsUngrouped post.toList
  ne_empty : ∀ x ∈ [a, b], x ≠ ""
  literal : ∀ x ∈ [a, b], IsLiteralText x.toList

/-- The alternatives are read between the two texts as they are in braces: no slash of theirs makes a whole
segment of two stars, no white space is taken off them, and no slash of theirs cuts a segment that starts
with a dot. -/
structure StandsAlone (pre a b post : String) : Prop where
  starsLast : Glob.StarsLast pre.toList → ∀ x ∈ [a, b], x.toList.head? ≠ some '/'
  starsFirst : Glob.StarsFirst (kept post).toList → ∀ x ∈ [a, b], x.toList.getLast? ≠ some '/'
  blank : kept post = "" → ∀ x ∈ [a, b], ∀ c ∈ x.toList.getLast?, Text.isBlank c = false
  cuts : CutsNoDots pre.toList a.toList b.toList

section Strings

variable {pre a b post x : String}

theorem toList_braces : (braces pre a b post).toList
    = pre.toList ++ inBraces a.toList b.toList ++ post.toList := by
  simp [braces, inBraces]

theorem kept_subset : ∀ c ∈ (kept post).toList, c ∈ post.toList := by
  intro c hc
  rw [kept, String.toList_ofList, Text.dropTrailing, List.mem_reverse] at hc
  exact List.mem_reverse.1 (List.dropWhile_subset _ hc)

theorem Alternation.isAround (h : Alternation pre a b post) :
    IsAround pre.toList a.toList b.toList (kept post).toList := by
  have hne := h.ne_empty
  have hliteral := h.literal
  simp only [List.mem_cons, List.not_mem_nil, or_false, forall_eq_or_imp, forall_eq] at hne hliteral
  refine ⟨⟨h.pre, fun c hc => h.post c (kept_subset c hc)⟩, ?_, ?_⟩
  · simpa using hne
  · simpa using hliteral

theorem Alternation.alternative (h : Alternation pre a b post) (halone : StandsAlone pre a b post)
    (hx : x ∈ [a, b]) : Alternative pre.toList (kept post).toList x.toList where
  ne_nil := by simpa using h.ne_empty x hx
  literal := h.literal x hx
  starsLast hstars := halone.starsLast hstars x hx
  starsFirst hstars := halone.starsFirst hstars x hx

theorem Alternation.normalizeAll_braces (h : Alternation pre a b post) :
    normalizeAll [braces pre a b post] = [braces pre a b (kept post)] := by
  obtain ⟨c, cs, hpre, hdot, hslash, hblank⟩ := h.first
  have htext : (pre ++ "\x7b" ++ a ++ "," ++ b ++ "\x7d").toList
      = c :: (cs ++ inBraces a.toList b.toList) := by
    simp [hpre, inBraces]
  have hlast : ∀ d ∈ (c :: (cs ++ inBraces a.toList b.toList)).getLast?, Text.isBlank d = false := by
    intro d hd
    rw [inBraces, ← List.append_assoc, ← List.cons_append, List.getLast?_concat] at hd
    obtain rfl := Option.some.inj hd
    decide
  have hnormal : normalize (braces pre a b post) = braces pre a b (kept post) :=
    normalize_append htext hdot hslash hblank fun _ => htext ▸ hlast
  have hne : braces pre a b (kept post) ≠ "" := by
    rw [ne_eq, ← String.toList_eq_nil_iff, toList_braces, hpre]
    simp
  rw [normalizeAll, List.map_singleton, hnormal, List.filter_cons_of_pos (by simpa using hne),
    List.filter_nil]

theorem Alternation.normalize_alternative (h : Alternation pre a b post)
    (halone : StandsAlone pre a b post) (hx : x ∈ [a, b]) :
    normalize (pre ++ x ++ post) = pre ++ x ++ kept post ∧ pre ++ x ++ kept post ≠ "" := by
  obtain ⟨c, cs, hpre, hdot, hslash, hblank⟩ := h.first
  have htext : (pre ++ x).toList = c :: (cs ++ x.toList) := by simp [hpre]
  have hne : x.toList ≠ [] := by simpa using h.ne_empty x hx
  refine ⟨normalize_append htext hdot hslash hblank fun hkept d hd => ?_, ?_⟩
  · rw [String.toList_append, List.getLast?_append_of_ne_nil _ hne] at hd
    exact halone.blank hkept x hx d hd
  · rw [ne_eq, ← String.toList_eq_nil_iff, String.toList_append, htext]
    simp

theorem Alternation.normalizeAll_pair (h : Alternation pre a b post)
    (halone : StandsAlone pre a b post) :
    normalizeAll [pre ++ a ++ post, pre ++ b ++ post]
      = [pre ++ a ++ kept post, pre ++ b ++ kept post] := by
  obtain ⟨ha, hane⟩ := h.normalize_alternative halone (x := a) (by simp)
  obtain ⟨hb, hbne⟩ := h.normalize_alternative halone (x := b) (by simp)
  simp [normalizeAll, ha, hb, hane, hbne]

/-- A pattern that starts with glob syntax has no base directory. -/
theorem leads_eq_nil {pattern : String} {c : Char} {cs : List Char} (hc : c ∈ metaChars)
    (hpattern : pattern.toList = c :: cs) : leads pattern = [] := by
  have hslash : c ≠ '/' := by
    rintro rfl
    simp [metaChars] at hc
  obtain ⟨piece, pieces, hpieces⟩ := List.exists_cons_of_ne_nil (Text.splitList_ne_nil '/' cs)
  have hsegments : segments pattern = String.ofList (c :: piece) :: pieces.map String.ofList := by
    rw [segments, Text.split, hpattern, Text.splitList, if_neg hslash, hpieces, List.map_cons]
  have hplain : isPlain (String.ofList (c :: piece)) = false := by simp [isPlain, hc]
  rw [leads, hsegments]
  cases pieces with
  | nil => rfl
  | cons next pieces =>
    rw [List.map_cons, List.dropLast_cons_cons, List.takeWhile_cons_of_neg (Bool.not_eq_true _ ▸ hplain)]

end Strings

end Pattern

namespace Selection

open Pattern (braces Alternation StandsAlone BeginsNoDots kept NamedBy)

variable {included excluded : List String} {s : Selection} {n : RawText}

/-- A path of names is selected exactly if an include pattern takes it and no exclude pattern. -/
theorem any_accepts_iff (h : compile included excluded = .ok s) {path : String} :
    s.included.any (·.accepts path) = true ↔ ∃ pattern ∈ Pattern.normalizeAll included,
      ∃ g, Glob.parse pattern = .ok g ∧ g.accepts path = true := by
  obtain ⟨hincluded, -, -⟩ := of_compile_eq_ok h
  rw [List.any_eq_true]
  constructor
  · rintro ⟨glob, hglob, haccepts⟩
    obtain ⟨pattern, hpattern, hparse⟩ := hincluded.exists_pattern glob hglob
    exact ⟨pattern, hpattern, glob, hparse, haccepts⟩
  · rintro ⟨pattern, hpattern, glob, hparse, haccepts⟩
    obtain ⟨glob', hglob', hparse'⟩ := hincluded.exists_glob pattern hpattern
    obtain rfl := Except.ok.inj (hparse.symm.trans hparse')
    exact ⟨glob, hglob', haccepts⟩

/-- What is selected lies below the root: either all walks start there, or no path that leads out of it is
selected. -/
def StaysBelow (s : Selection) : Prop :=
  (∀ base ∈ s.bases, base.steps = []) ∨
    ∀ path, s.selects path = true → ∃ c rest, path.toList = c :: rest ∧ c ≠ '.'

theorem staysBelow_of_meta (h : compile included excluded = .ok s) {c : Char}
    (hc : c ∈ Pattern.metaChars)
    (hfirst : ∀ pattern ∈ Pattern.normalizeAll included, ∃ cs, pattern.toList = c :: cs) :
    s.StaysBelow := by
  refine .inl fun base hbase => ?_
  obtain ⟨pattern, hpattern, rfl⟩ := exists_of_mem_bases h hbase
  obtain ⟨cs, hcs⟩ := hfirst pattern hpattern
  rw [Pattern.steps_base, Pattern.leads_eq_nil hc hcs, List.map_nil, List.filterMap_nil]

theorem staysBelow_of_literal (h : compile included excluded = .ok s) {c : Char} (hc : c ≠ '.')
    (hfirst : ∀ pattern ∈ Pattern.normalizeAll included, ∀ g path, Glob.parse pattern = .ok g →
      g.accepts path = true → ∃ rest, path.toList = c :: rest) :
    s.StaysBelow := by
  refine .inr fun path hselects => ?_
  rw [selects, Bool.and_eq_true, any_accepts_iff h] at hselects
  obtain ⟨⟨pattern, hpattern, g, hparse, haccepts⟩, -⟩ := hselects
  obtain ⟨rest, hrest⟩ := hfirst pattern hpattern g _ hparse haccepts
  cases hafter : Text.after? "/" path with
  | some more =>
    obtain rfl := Text.after?_eq_some_iff.1 hafter
    exact ⟨'/', more.toList, by simp, by decide⟩
  | none =>
    rw [hafter, Option.getD_none] at hrest
    exact ⟨c, rest, hrest, hc⟩

section Alternatives

variable {pre a b post : String} {sb : Selection}

/-- The selections of two alternatives written out and in braces. -/
structure IsBraces (pre a b post : String) (excluded : List String) (s sb : Selection) : Prop where
  alternation : Alternation pre a b post
  alone : StandsAlone pre a b post
  list : compile [pre ++ a ++ post, pre ++ b ++ post] excluded = .ok s
  braces : compile [braces pre a b post] excluded = .ok sb

namespace IsBraces

theorem exists_read (h : Alternation pre a b post) (halone : StandsAlone pre a b post) :
    ∃ g ga gb, Glob.parse (Pattern.braces pre a b (kept post)) = .ok g ∧
      Glob.parse (pre ++ a ++ kept post) = .ok ga ∧ Glob.parse (pre ++ b ++ kept post) = .ok gb ∧
      g.takesAll = false ∧ (∀ bytes, g.spans bytes = (ga.spans bytes || gb.spans bytes)) ∧
      ∀ bytes, Glob.endsInParent bytes = false →
        g.matchesBytes bytes = (ga.matchesBytes bytes || gb.matchesBytes bytes) := by
  have hread := Glob.exists_read_braces h.isAround.surrounds
    (h.alternative halone (x := a) (by simp)) (h.alternative halone (x := b) (by simp))
  simpa only [Glob.parse, Pattern.toList_braces, String.toList_append] using hread

theorem selects_eq (h : IsBraces pre a b post excluded s sb) {names : List String} (hne : names ≠ [])
    (hnames : ∀ n ∈ names, IsName n) :
    sb.selects (String.intercalate "/" names) = s.selects (String.intercalate "/" names) := by
  obtain ⟨g, ga, gb, hg, hga, hgb, -, -, hmatches⟩ := exists_read h.alternation h.alone
  have hends : Glob.endsInParent (Text.bytes (String.intercalate "/" names)) = false := by
    rw [RawText.bytes_intercalate]
    exact Glob.endsInParent_intercalate (List.forall_mem_map.2 hnames)
  have hexcluded : sb.excluded = s.excluded :=
    Except.ok.inj ((compile_eq_ok_iff.1 h.braces).2.1.symm.trans (compile_eq_ok_iff.1 h.list).2.1)
  have hincluded : sb.included.any (·.accepts (String.intercalate "/" names))
      = s.included.any (·.accepts (String.intercalate "/" names)) := by
    rw [Bool.eq_iff_iff, any_accepts_iff h.braces, any_accepts_iff h.list,
      h.alternation.normalizeAll_braces, h.alternation.normalizeAll_pair h.alone]
    simp [hg, hga, hgb, Glob.accepts, hmatches _ hends]
  rw [selects, selects, after?_intercalate hne fun n hn => isSegment (hnames n hn), Option.getD_none,
    hincluded, hexcluded]

/-- With braces no other hidden names are admitted, and the same ones where no alternative begins a segment
with a dot. -/
theorem admits_iff (h : IsBraces pre a b post excluded s sb) (hn : IsName n) :
    (sb.admits n = true → s.admits n = true) ∧
      ((∀ x ∈ [a, b], BeginsNoDots pre.toList (kept post).toList x.toList) →
        s.admits n = true → sb.admits n = true) := by
  obtain ⟨hone, hother⟩ :=
    Pattern.namedBy_braces h.alternation.isAround h.alone.cuts hn
  have hbraces : sb.namesHidden n = true
      ↔ NamedBy (pre.toList ++ Glob.inBraces a.toList b.toList ++ (kept post).toList) n := by
    rw [namesHidden_iff h.braces, h.alternation.normalizeAll_braces]
    simp [Pattern.toList_braces]
  have hlist : s.namesHidden n = true
      ↔ ∃ x ∈ [a, b], NamedBy (pre.toList ++ x.toList ++ (kept post).toList) n := by
    rw [namesHidden_iff h.list, h.alternation.normalizeAll_pair h.alone]
    simp
  simp only [admits, Bool.or_eq_true, hbraces, hlist]
  refine ⟨Or.imp_right fun hnamed => ?_, fun hbegins => Or.imp_right ?_⟩
  · simpa using hone hnamed
  · rintro ⟨x, hx, hnamed⟩
    refine hother x.toList ?_ (hbegins x hx) hnamed
    exact List.mem_map_of_mem (f := String.toList) hx

theorem exists_read_first (h : Alternation pre a b post) {x : String} (hx : x ∈ [a, b]) {c : Char}
    {cs : List Char} (hpre : pre.toList = c :: cs) (hslash : c ≠ '/') (hplain : c ∉ Pattern.metaChars) :
    ∃ ts, Glob.parse (pre ++ x ++ kept post) = .ok ⟨.literal c :: ts⟩ := by
  have hrest : Glob.IsUngrouped (cs ++ x.toList ++ (kept post).toList) := by
    intro d hd
    rw [List.mem_append, List.mem_append] at hd
    rcases hd with (hd | hd) | hd
    · exact h.pre d (hpre ▸ List.mem_cons_of_mem c hd)
    · exact (h.literal x hx d hd).1
    · exact h.post d (Pattern.kept_subset d hd)
  have hstart : c ∉ Glob.groupChars ∧ c ≠ '*' ∧ c ≠ '?' := by
    refine ⟨h.pre c (hpre ▸ List.mem_cons_self), ?_, ?_⟩
    all_goals
      rintro rfl
      simp [Pattern.metaChars] at hplain
  obtain ⟨ts, hts⟩ := Glob.exists_readTokens_behind hrest.items
  refine ⟨ts, ?_⟩
  have hchars : (pre ++ x ++ kept post).toList = c :: (cs ++ x.toList ++ (kept post).toList) := by
    simp [hpre]
  calc Glob.parse (pre ++ x ++ kept post)
      = Glob.readTokens ⟨[], []⟩ none (c :: (cs ++ x.toList ++ (kept post).toList)) := by
        rw [Glob.parse, hchars]
        rfl
    _ = Glob.readTokens ⟨[.literal c], []⟩ (some c) (cs ++ x.toList ++ (kept post).toList) :=
        Glob.readTokens_literal hstart.1 hstart.2.1 hstart.2.2
    _ = .ok ⟨[.literal c].reverse ++ ts⟩ := hts _ _ (by simp) fun _ => by simpa using hslash

/-- Neither the alternatives written out nor those in braces select what is not below the root. -/
theorem staysBelow (h : IsBraces pre a b post excluded s sb) : s.StaysBelow ∧ sb.StaysBelow := by
  obtain ⟨c, cs, hpre, hdot, hslash, -⟩ := h.alternation.first
  by_cases hmeta : c ∈ Pattern.metaChars
  · constructor
    · refine staysBelow_of_meta h.list hmeta ?_
      rw [h.alternation.normalizeAll_pair h.alone]
      simp [hpre]
    · refine staysBelow_of_meta h.braces hmeta ?_
      rw [h.alternation.normalizeAll_braces]
      simp [Pattern.toList_braces, hpre]
  · obtain ⟨g, ga, gb, hg, hga, hgb, htakes, hspans, -⟩ := exists_read h.alternation h.alone
    obtain ⟨tsa, htsa⟩ := exists_read_first h.alternation (x := a) (by simp) hpre hslash hmeta
    obtain ⟨tsb, htsb⟩ := exists_read_first h.alternation (x := b) (by simp) hpre hslash hmeta
    obtain rfl := Except.ok.inj (hga.symm.trans htsa)
    obtain rfl := Except.ok.inj (hgb.symm.trans htsb)
    have hstarts : ∀ ts path, Glob.spans ⟨.literal c :: ts⟩ (Text.bytes path) = true →
        ∃ rest, path.toList = c :: rest := by
      intro ts path hspan
      obtain ⟨rest, hrest⟩ := Glob.exists_eq_cons_of_spans rfl hspan
      obtain ⟨rest, hpath, -⟩ := Text.bytesOf_eq_append_left hrest
      exact ⟨rest, hpath⟩
    have halone : ∀ ts path, Glob.accepts ⟨.literal c :: ts⟩ path = true →
        ∃ rest, path.toList = c :: rest := by
      intro ts path haccepts
      have hmore : Glob.takesAll ⟨.literal c :: ts⟩ = false :=
        Glob.takesAll_eq_false (t := .literal c) List.mem_cons_self (by simp)
      exact hstarts ts path (Glob.spans_of_matchesBytes hmore haccepts)
    constructor
    · refine staysBelow_of_literal h.list hdot ?_
      rw [h.alternation.normalizeAll_pair h.alone]
      intro pattern hpattern g' path hparse haccepts
      obtain rfl | rfl := by simpa using hpattern
      · obtain rfl := Except.ok.inj (hga.symm.trans hparse)
        exact halone _ _ haccepts
      · obtain rfl := Except.ok.inj (hgb.symm.trans hparse)
        exact halone _ _ haccepts
    · refine staysBelow_of_literal h.braces hdot ?_
      rw [h.alternation.normalizeAll_braces]
      intro pattern hpattern g' path hparse haccepts
      obtain rfl := List.mem_singleton.1 hpattern
      obtain rfl := Except.ok.inj (hg.symm.trans hparse)
      have hspan := Glob.spans_of_matchesBytes htakes haccepts
      rw [hspans, Bool.or_eq_true] at hspan
      exact hspan.elim (hstarts _ path) (hstarts _ path)

end IsBraces

/-- Where the alternatives written out are accepted, those in braces are too, or they are too much for one
automaton. -/
theorem compile_braces (h : Alternation pre a b post) (halone : StandsAlone pre a b post)
    (hlist : compile [pre ++ a ++ post, pre ++ b ++ post] excluded = .ok s) :
    (∃ sb, compile [braces pre a b post] excluded = .ok sb) ∨
      ∃ e, compile [braces pre a b post] excluded = .error e ∧
        ∃ patterns ∈ lists [braces pre a b post] excluded, Pattern.Outgrows patterns e := by
  cases hcompile : compile [braces pre a b post] excluded with
  | ok sb => exact .inl ⟨sb, rfl⟩
  | error e =>
    refine .inr ⟨e, rfl, ((judgedBy_flatten _ _).blames e hcompile).resolve_left ?_⟩
    obtain ⟨hlisted, -⟩ := (judgedBy_flatten _ _).accepts_iff.1 ⟨s, hlist⟩
    obtain ⟨g, -, -, hg, -⟩ := IsBraces.exists_read h halone
    refine Pattern.not_blames ?_
    simp only [lists, List.flatten_cons, List.flatten_nil, List.append_nil, List.forall_mem_append,
      h.normalizeAll_braces, h.normalizeAll_pair halone, List.forall_mem_singleton] at hlisted ⊢
    obtain ⟨-, hexcluded, hdotted⟩ := hlisted
    refine ⟨Pattern.isGlob_iff.2 ⟨g, hg⟩, hexcluded, fun segment hsegment => ?_⟩
    obtain ⟨pattern, hpattern, hpiece⟩ := Pattern.mem_dotSegments_iff.1 hsegment
    obtain rfl := List.mem_singleton.1 hpattern
    rw [Pattern.toList_braces] at hpiece
    refine Pattern.isGlob_iff.2 (Pattern.isRead_of_dotPiece h.isAround halone.cuts ?_ hpiece)
    intro x hx piece hpiece
    have hsegment : String.ofList piece ∈
        Pattern.dotSegments [pre ++ a ++ kept post, pre ++ b ++ kept post] := by
      obtain rfl | rfl := by simpa using hx
      · exact Pattern.mem_dotSegments_iff.2 ⟨pre ++ a ++ kept post, by simp, by simpa using hpiece⟩
      · exact Pattern.mem_dotSegments_iff.2 ⟨pre ++ b ++ kept post, by simp, by simpa using hpiece⟩
    obtain ⟨gp, hgp⟩ := Pattern.isGlob_iff.1 (hdotted _ hsegment)
    rw [Glob.parse, String.toList_ofList] at hgp
    exact ⟨gp, hgp⟩

end Alternatives

end Selection

end TextCatalog
