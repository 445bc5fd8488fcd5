import TextCatalog.Proofs.Path.Location

/-!
# Joined and absolute paths

Joining appends steps, however the slashes between them are written, and what makes a path absolute
keeps its steps.
-/

namespace TextCatalog.Path

open Component
open RawText (slash dot)

variable {p q : Path}

theorem join_of_isAbsolute (p : Path) (h : q.isAbsolute = true) : p.join q = q := by
  rw [join, if_pos h]

theorem steps_append_slash (s t : RawText) :
    steps ⟨s ++ slash :: t⟩ = steps ⟨s⟩ ++ steps ⟨t⟩ := by
  rw [steps, pieces, steps, pieces, steps, pieces, Text.splitList_append, List.filterMap_append]

theorem ofPiece?_of_isIdlePiece {piece : RawText} (h : isIdlePiece piece = true) :
    ofPiece? piece = none := by
  have hidle : piece = [] ∨ piece = [dot] := by simpa [isIdlePiece] using h
  rw [ofPiece?, if_pos hidle]

theorem ofPiece?_of_not_isIdlePiece {piece : RawText} (hidle : ¬ isIdlePiece piece = true)
    (hdots : piece ≠ [dot, dot]) : ofPiece? piece = some (.name piece) := by
  have hne : ¬ (piece = [] ∨ piece = [dot]) := by simpa [isIdlePiece] using hidle
  rw [ofPiece?, if_neg hne, if_neg hdots]

theorem IsName.not_isIdlePiece {name : RawText} (h : IsName name) : ¬ isIdlePiece name = true := by
  simp [isIdlePiece, h.ne_nil, h.ne_dot]

theorem filterMap_ofPiece?_of_all_empty {pieces : List RawText} (h : pieces.all List.isEmpty = true) :
    pieces.filterMap ofPiece? = [] := by
  apply List.filterMap_eq_nil_iff.2
  intro piece hpiece
  obtain rfl : piece = [] := by simpa using List.all_eq_true.1 h piece hpiece
  rfl

/-- Pieces put together are read as the steps that each of them stands for. -/
theorem steps_intercalate {pieces : List RawText} (h : ∀ piece ∈ pieces, slash ∉ piece) :
    steps ⟨[slash].intercalate pieces⟩ = pieces.filterMap ofPiece? := by
  by_cases hnil : pieces = []
  · subst hnil
    decide
  · have hsplit : Text.splitList slash ([slash].intercalate pieces) = pieces :=
      Text.splitList_intercalate hnil h
    rw [steps, Path.pieces, hsplit]

theorem steps_join (hp : p.text ≠ []) (hq : q.isAbsolute = false) :
    (p.join q).steps = p.steps ++ q.steps := by
  rw [join, if_neg (by simp [hq]), if_neg hp]
  split
  next hend =>
    obtain ⟨front, hfront⟩ := List.getLast?_eq_some_iff.1 hend
    have hp : p = ⟨front ++ slash :: []⟩ := by rw [← hfront]
    have hjoined : p.text ++ q.text = front ++ slash :: q.text := by simp [hfront]
    rw [hjoined, steps_append_slash, hp, steps_append_slash]
    simp [steps, pieces, Text.splitList, ofPiece?]
  next => exact steps_append_slash p.text q.text

theorem isAbsolute_join (h : p.isAbsolute = true) : (p.join q).isAbsolute = true := by
  by_cases hq : q.isAbsolute = true
  · rw [join_of_isAbsolute p hq, hq]
  · obtain ⟨rest, hrest⟩ := isAbsolute_iff.1 h
    rw [join, if_neg hq, if_neg (text_ne_nil_of_isAbsolute h)]
    split
    · exact isAbsolute_iff.2 ⟨rest ++ q.text, by simp [hrest]⟩
    · exact isAbsolute_iff.2 ⟨rest ++ slash :: q.text, by simp [hrest]⟩

section Absolute

theorem text_name (n : RawText) : (Component.name n).text = n := rfl

theorem steps_text {c : Component} (hc : c = .parent ∨ ∃ n, c = .name n ∧ IsName n) :
    steps ⟨c.text⟩ = [c] ∧ isAbsolute ⟨c.text⟩ = false := by
  rcases hc with rfl | ⟨n, rfl, hn⟩
  · exact ⟨by decide, by decide⟩
  · constructor
    · rw [text_name, steps, pieces, Text.splitList_of_not_mem hn.slash_not_mem]
      simp [ofPiece?_of_isName hn]
    · rw [← Bool.not_eq_true, isAbsolute_iff]
      rintro ⟨rest, hrest : n = slash :: rest⟩
      exact hn.slash_not_mem (by simp [hrest])

/-- Steps written down are read again. -/
theorem steps_ofComponents {cs : List Component}
    (hcs : ∀ c ∈ cs, c = .parent ∨ ∃ n, c = .name n ∧ IsName n) :
    (ofComponents (.root :: cs)).steps = cs := by
  have hpiece : ∀ c ∈ cs, ofPiece? c.text = some c ∧ slash ∉ c.text := by
    intro c hc
    rcases hcs c hc with rfl | ⟨n, rfl, hn⟩
    · exact ⟨by decide, by decide⟩
    · exact ⟨ofPiece?_of_isName hn, hn.slash_not_mem⟩
  have hpath : ofComponents (.root :: cs)
      = ⟨[] ++ slash :: [slash].intercalate (cs.map Component.text)⟩ := rfl
  have hread : (cs.map Component.text).filterMap ofPiece? = cs := by
    rw [List.filterMap_map]
    exact (List.filterMap_congr fun c hc => (hpiece c hc).1).trans List.filterMap_some
  rw [hpath, steps_append_slash, steps_intercalate, hread]
  · rfl
  · simpa using fun c hc => (hpiece c hc).2

theorem foldl_join {cs : List Component} (hcs : ∀ c ∈ cs, c = .parent ∨ ∃ n, c = .name n ∧ IsName n)
    (h : p.isAbsolute = true) :
    (cs.foldl (fun q c => q.join ⟨c.text⟩) p).isAbsolute = true ∧
      (cs.foldl (fun q c => q.join ⟨c.text⟩) p).steps = p.steps ++ cs := by
  induction cs generalizing p with
  | nil => simp [h]
  | cons c cs ih =>
    obtain ⟨hc, hcs⟩ := List.forall_mem_cons.1 hcs
    obtain ⟨hsteps, hrelative⟩ := steps_text hc
    obtain ⟨habs, hfold⟩ := ih hcs (isAbsolute_join (q := ⟨c.text⟩) h)
    refine ⟨habs, ?_⟩
    rw [List.foldl_cons, hfold, steps_join (text_ne_nil_of_isAbsolute h) hrelative, hsteps,
      List.append_assoc]
    rfl

theorem absolute?_of_isAbsolute (cwd : Path) (h : p.isAbsolute = true) :
    ∃ q, cwd.absolute? p = some q ∧ q.isAbsolute = true ∧ q.steps = p.steps := by
  have hfold : ∀ start : Path, start.isAbsolute = true → start.steps = [] →
      (p.steps.foldl (fun q c => q.join ⟨c.text⟩) start).isAbsolute = true ∧
        (p.steps.foldl (fun q c => q.join ⟨c.text⟩) start).steps = p.steps := by
    intro start hstart hnil
    simpa [hnil] using foldl_join (fun c hc => mem_steps hc) hstart
  have hdone : ∀ whole : Path, whole.isAbsolute = true ∧ whole.steps = p.steps →
      ∃ q, some (if p.text.getLast? = some slash then whole.join ⟨[]⟩ else whole) = some q ∧
        q.isAbsolute = true ∧ q.steps = p.steps := by
    rintro whole ⟨habs, hsteps⟩
    refine ⟨_, rfl, ?_⟩
    split
    · refine ⟨isAbsolute_join habs, ?_⟩
      rw [steps_join (text_ne_nil_of_isAbsolute habs) (by decide), hsteps]
      simp [steps, pieces, Text.splitList, ofPiece?]
    · exact ⟨habs, hsteps⟩
  rw [absolute?, if_neg (text_ne_nil_of_isAbsolute h)]
  simp only [h, components_of_isAbsolute h, if_true]
  by_cases hdouble : ([slash, slash].isPrefixOf p.text && !([slash, slash, slash].isPrefixOf p.text)) = true
  · simp only [hdouble, if_true]
    exact hdone _ (hfold ⟨[slash, slash]⟩ (by decide) (by decide))
  · simp only [hdouble]
    exact hdone _ (hfold ⟨[slash]⟩ (by decide) (by decide))

theorem isAbsolute_of_absolute? {cwd : Path} (hcwd : cwd.isAbsolute = true)
    (h : cwd.absolute? p = some q) : q.isAbsolute = true := by
  by_cases hp : p.isAbsolute = true
  · obtain ⟨q', hq', habs, -⟩ := absolute?_of_isAbsolute cwd hp
    rw [hq'] at h
    rw [← Option.some.inj h, habs]
  · have hfold : ∀ (cs : List Component) (start : Path), start.isAbsolute = true →
        (cs.foldl (fun q c => q.join ⟨c.text⟩) start).isAbsolute = true := by
      intro cs
      induction cs with
      | nil => exact fun _ hstart => hstart
      | cons c cs ih => exact fun start hstart => ih _ (isAbsolute_join hstart)
    simp only [absolute?, hp] at h
    split at h
    · simp at h
    · rw [← Option.some.inj h]
      split
      · exact isAbsolute_join (hfold _ _ hcwd)
      · exact hfold _ _ hcwd

end Absolute

section Normal

theorem normalComponents_congr (hp : p.isAbsolute = true) (hq : q.isAbsolute = true)
    (h : p.steps = q.steps) : p.normalComponents = q.normalComponents := by
  rw [normalComponents_of_isAbsolute hp, normalComponents_of_isAbsolute hq, h]

theorem location_congr (h : p.steps = q.steps) : p.location = q.location := by
  rw [location, location, h]

/-- Seen from the normal form of a directory, a path leads where it leads from the directory. -/
theorem IsInner.normalComponents_join (hp : p.IsInner) (q : Path) :
    ((ofLocation p.location).join q).normalComponents = (p.join q).normalComponents := by
  by_cases hq : q.isAbsolute = true
  · rw [join_of_isAbsolute _ hq, join_of_isAbsolute _ hq]
  · have hq : q.isAbsolute = false := by simpa using hq
    have hloc : ∀ n ∈ p.location, IsName n := fun n hn => isName_of_mem_location hn
    have hnormal := isAbsolute_ofLocation p.location
    have hstack : (ofLocation p.location).steps.foldl pushNormal [.root]
        = p.steps.foldl pushNormal [.root] := by
      have hsame : (ofLocation p.location).normalComponents = p.normalComponents := by
        rw [normalComponents_ofLocation hloc, hp.normalComponents_eq]
      rw [normalComponents_of_isAbsolute hnormal,
        normalComponents_of_isAbsolute hp.isAbsolute] at hsame
      exact List.reverse_injective hsame
    rw [normalComponents_of_isAbsolute (isAbsolute_join hnormal),
      normalComponents_of_isAbsolute (isAbsolute_join hp.isAbsolute),
      steps_join (text_ne_nil_of_isAbsolute hnormal) hq,
      steps_join (text_ne_nil_of_isAbsolute hp.isAbsolute) hq,
      List.foldl_append, List.foldl_append, hstack]

end Normal

section Extension

theorem of_dropWhile_pieces {last : RawText} {before : List RawText}
    (h : p.pieces.reverse.dropWhile isIdlePiece = last :: before) :
    ¬ isIdlePiece last = true ∧ ∃ after, p.pieces = before.reverse ++ last :: after := by
  constructor
  · have hhead := List.head?_dropWhile_not isIdlePiece p.pieces.reverse
    rw [h] at hhead
    simpa using hhead
  · have hpieces := congrArg List.reverse
      (List.takeWhile_append_dropWhile (p := isIdlePiece) (l := p.pieces.reverse))
    rw [h] at hpieces
    exact ⟨(p.pieces.reverse.takeWhile isIdlePiece).reverse, by simpa using hpieces.symm⟩

theorem isAbsolute_withExtension (extension : RawText) (h : p.isAbsolute = true) :
    (p.withExtension extension).isAbsolute = true := by
  obtain ⟨rest, hrest⟩ := pieces_of_isAbsolute h
  rw [withExtension]
  dsimp only
  split
  next => exact h
  next last before hlast =>
    obtain ⟨hidle, after, hpieces⟩ := of_dropWhile_pieces hlast
    split
    next => exact h
    rw [hrest] at hpieces
    rcases hbefore : before.reverse with _ | ⟨first, others⟩
    · rw [hbefore] at hpieces
      obtain ⟨rfl, -⟩ := List.cons.inj hpieces
      exact absurd rfl hidle
    · rw [hbefore] at hpieces
      obtain ⟨rfl, -⟩ := List.cons.inj hpieces
      obtain ⟨second, tail, htail⟩ :
          ∃ second tail, others ++ [if stem last = [dot] ∧ p.pieces.getLast? = some last then
            [dot, dot] else stem last ++ dot :: extension] = second :: tail :=
        List.exists_cons_of_ne_nil (by simp)
      rw [List.cons_append, htail]
      exact isAbsolute_iff.2 ⟨[slash].intercalate (second :: tail), by
        rw [List.intercalate_cons_cons]; simp⟩

theorem not_mem_stem {name : RawText} {b : UInt8} (h : b ∉ name) : b ∉ stem name := by
  rw [stem]
  split
  next first before hdrop =>
    split
    · exact h
    · intro hmem
      have hbefore : b ∈ before := by simpa using hmem
      have hsuffix := List.dropWhile_suffix (· ≠ dot) (l := name.reverse)
      rw [hdrop] at hsuffix
      exact h (List.mem_reverse.1 (hsuffix.subset (List.mem_cons_of_mem _ hbefore)))
  next => exact h

/-- The last of the pieces that is not empty. -/
def lastPiece? (pieces : List RawText) : Option RawText :=
  pieces.reverse.find? (· ≠ [])

theorem exists_dropWhile_of_lastPiece? {pieces : List RawText} {last : RawText}
    (h : lastPiece? pieces = some last) (hname : ofPiece? last = some (.name last)) :
    ∃ before, pieces.reverse.dropWhile isIdlePiece = last :: before := by
  have hidle : ¬ isIdlePiece last = true := by
    intro hidle
    rw [ofPiece?_of_isIdlePiece hidle] at hname
    cases hname
  rw [lastPiece?] at h
  generalize pieces.reverse = reversed at h
  induction reversed with
  | nil => cases h
  | cons piece others ih =>
    by_cases hpiece : piece = []
    · subst hpiece
      exact ih (by simpa using h)
    · obtain rfl : piece = last := by simpa [hpiece] using h
      exact ⟨others, List.dropWhile_cons_of_neg hidle⟩

/-- Where the path with another extension ends in a name, it ends in that extension. -/
theorem exists_stem_of_lastPiece? {extension last : RawText} (hextension : slash ∉ extension)
    (h : lastPiece? (p.withExtension extension).pieces = some last)
    (hname : ofPiece? last = some (.name last)) : ∃ stem, last = stem ++ dot :: extension := by
  have hdots : last ≠ [dot, dot] := by
    rintro rfl
    cases hname
  rw [withExtension] at h
  dsimp only at h
  split at h
  next hnil =>
    obtain ⟨before, hbefore⟩ := exists_dropWhile_of_lastPiece? h hname
    cases hnil.symm.trans hbefore
  next name before hdrop =>
    split at h
    next hup =>
      obtain ⟨before', hbefore⟩ := exists_dropWhile_of_lastPiece? h hname
      exact absurd ((List.cons.inj (hdrop.symm.trans hbefore)).1.symm.trans hup) hdots
    obtain ⟨-, after, hpieces⟩ := of_dropWhile_pieces hdrop
    have hslash : ∀ piece ∈ p.pieces, slash ∉ piece := fun _ => Text.not_mem_of_mem_splitList
    rw [hpieces] at hslash
    have hstem : slash ∉ stem name := not_mem_stem (hslash name (by simp))
    generalize hlast : (if stem name = [dot] ∧ p.pieces.getLast? = some name then [dot, dot]
      else stem name ++ dot :: extension) = new at h
    have hnew : new ≠ [] ∧ slash ∉ new ∧
        (new ≠ [dot, dot] → ∃ stem, new = stem ++ dot :: extension) := by
      rw [← hlast]
      split
      · exact ⟨by decide, by decide, fun hne => absurd rfl hne⟩
      · exact ⟨by simp, by simpa [hstem, hextension] using (by decide : slash ≠ dot), fun _ => ⟨_, rfl⟩⟩
    have hsplit : Path.pieces ⟨[slash].intercalate (before.reverse ++ [new])⟩
        = before.reverse ++ [new] := by
      refine Text.splitList_intercalate (by simp) fun piece hpiece => ?_
      rcases List.mem_append.1 hpiece with hold | hlast
      · exact hslash piece (List.mem_append_left _ hold)
      · exact List.mem_singleton.1 hlast ▸ hnew.2.1
    rw [hsplit] at h
    obtain rfl : new = last := by simpa [lastPiece?, hnew.1] using h
    exact hnew.2.2 hdots

end Extension

end TextCatalog.Path
