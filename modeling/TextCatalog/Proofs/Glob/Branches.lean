import TextCatalog.Proofs.Glob.Around
import TextCatalog.Proofs.Glob.Places
import TextCatalog.Proofs.Path.Location

/-!
# Alternatives

Every token leads on from each place by itself: from two rows of marks together it leads where it leads
from either. So alternatives take what one of them takes with what stands around the braces.
-/

namespace TextCatalog.Glob

open RawText (slash)

namespace Marks

variable {bytes : List UInt8} {p : UInt8 → Bool} {a b : Marks}

theorem getElem?_union (a b : Marks) (i : Nat) :
    (union a b)[i]? = match a[i]?, b[i]? with
      | some x, some y => some (x || y)
      | _, _ => none := by
  rw [union, List.getElem?_zipWith]
  cases a[i]? <;> cases b[i]? <;> rfl

theorem union_union_union_comm (a₁ a₂ b₁ b₂ : Marks) :
    union (union a₁ a₂) (union b₁ b₂) = union (union a₁ b₁) (union a₂ b₂) := by
  apply List.ext_getElem?
  intro i
  simp only [getElem?_union]
  cases a₁[i]? <;> cases a₂[i]? <;> cases b₁[i]? <;> cases b₂[i]?
  all_goals simp [Bool.or_assoc, Bool.or_left_comm]

theorem length_union (h : a.length = b.length) : (union a b).length = a.length := by
  simp [union, h]

theorem union_false (h : a.length = b.length) : union a (b.map fun _ => false) = a := by
  induction a generalizing b with
  | nil => rfl
  | cons x a ih =>
    cases b with
    | nil => simp at h
    | cons y b =>
      have hrest : union a (b.map fun _ => false) = a := ih (Nat.succ.inj h)
      rw [List.map_cons, union, List.zipWith_cons_cons, Bool.or_false, ← union, hrest]

theorem map_false_union (a b : Marks) :
    (union a b).map (fun _ => false) = union (a.map fun _ => false) (b.map fun _ => false) := by
  rw [union, union, List.map_zipWith, List.zipWith_map]
  rfl

theorem advance_union (p : UInt8 → Bool) (bytes : List UInt8) (a b : Marks) :
    advance p bytes (union a b) = union (advance p bytes a) (advance p bytes b) := by
  apply List.ext_getElem?
  intro i
  cases i with
  | zero => simp [advance, union]
  | succ i =>
    rw [getElem?_union]
    simp only [advance, List.getElem?_cons_succ, List.getElem?_zipWith, getElem?_union]
    cases bytes[i]? <;> cases a[i]? <;> cases b[i]? <;> simp [Bool.and_or_distrib_right]

theorem spreadFrom_union (p : UInt8 → Bool) (live live' : Bool) (bytes : List UInt8) (a b : Marks) :
    spreadFrom p (live || live') bytes (union a b)
      = union (spreadFrom p live bytes a) (spreadFrom p live' bytes b) := by
  induction bytes generalizing live live' a b with
  | nil =>
    cases a with
    | nil => rfl
    | cons x a =>
      cases b with
      | nil => rfl
      | cons y b =>
        have hhere : (live || live' || (x || y)) = (live || x || (live' || y)) := by
          cases live <;> cases live' <;> cases x <;> cases y <;> rfl
        simp only [union, List.zipWith_cons_cons, spreadFrom, hhere]
  | cons c bytes ih =>
    cases a with
    | nil => rfl
    | cons x a =>
      cases b with
      | nil =>
        cases hlive : live <;> simp [union, spreadFrom]
      | cons y b =>
        have hhere : (live || live' || (x || y)) = (live || x || (live' || y)) := by
          cases live <;> cases live' <;> cases x <;> cases y <;> rfl
        have hnext := ih ((live || x) && p c) ((live' || y) && p c) a b
        rw [← Bool.and_or_distrib_right] at hnext
        simp only [union] at hnext ⊢
        simp only [List.zipWith_cons_cons, spreadFrom, hhere, hnext]

theorem spread_union (p : UInt8 → Bool) (bytes : List UInt8) (a b : Marks) :
    spread p bytes (union a b) = union (spread p bytes a) (spread p bytes b) :=
  spreadFrom_union p false false bytes a b

theorem foldl_advance_union (bytes xs : List UInt8) (a b : Marks) :
    xs.foldl (fun m x => advance (· == x) bytes m) (union a b)
      = union (xs.foldl (fun m x => advance (· == x) bytes m) a)
        (xs.foldl (fun m x => advance (· == x) bytes m) b) := by
  induction xs generalizing a b with
  | nil => rfl
  | cons x xs ih => rw [List.foldl_cons, advance_union, ih, List.foldl_cons, List.foldl_cons]

theorem length_advance (h : a.length = bytes.length + 1) :
    (advance p bytes a).length = bytes.length + 1 := by
  simp [advance, h]

theorem length_spreadFrom {live : Bool} (h : a.length = bytes.length + 1) :
    (spreadFrom p live bytes a).length = bytes.length + 1 := by
  induction bytes generalizing live a with
  | nil =>
    obtain ⟨x, rfl⟩ := List.length_eq_one_iff.1 h
    rfl
  | cons c bytes ih =>
    obtain ⟨x, a, rfl⟩ := List.exists_cons_of_length_eq_add_one h
    rw [spreadFrom, List.length_cons, ih (Nat.succ.inj h), List.length_cons]

theorem length_spread (h : a.length = bytes.length + 1) :
    (spread p bytes a).length = bytes.length + 1 :=
  length_spreadFrom h

theorem atEnd_union (h : a.length = b.length) : (union a b).atEnd = (a.atEnd || b.atEnd) := by
  rw [atEnd, atEnd, atEnd, List.getLast?_eq_getElem?, List.getLast?_eq_getElem?,
    List.getLast?_eq_getElem?, length_union h, h, getElem?_union]
  by_cases hnil : b = []
  · subst hnil
    obtain rfl := List.length_eq_zero_iff.1 h
    rfl
  · have hpos := List.length_pos_iff.2 hnil
    rw [List.getElem?_eq_getElem (by omega), List.getElem?_eq_getElem (by omega)]
    rfl

end Marks

section Steps

variable {bytes : List UInt8}

mutual

/-- From two rows of marks together a token leads where it leads from either. -/
theorem step_union (t : Token) (a b : Marks) :
    t.step bytes (Marks.union a b) = Marks.union (t.step bytes a) (t.step bytes b) := by
  cases t with
  | literal c => exact Marks.foldl_advance_union bytes _ a b
  | anyByte | byteClass => exact Marks.advance_union _ bytes a b
  | anyRun => exact Marks.spread_union _ bytes a b
  | leadingDirs =>
    simp only [Token.step]
    rw [Marks.spread_union, Marks.advance_union, Marks.union_union_union_comm]
  | trailingAll =>
    simp only [Token.step]
    rw [Marks.advance_union, Marks.spread_union]
  | betweenDirs =>
    simp only [Token.step]
    rw [Marks.advance_union, Marks.spread_union, Marks.advance_union, Marks.union_union_union_comm]
  | oneOf branches =>
    rw [Token.step, Token.step, Token.step]
    split
    · rfl
    · exact stepBranches_union branches a b

theorem stepSeq_union (ts : List Token) (a b : Marks) :
    stepSeq bytes (Marks.union a b) ts = Marks.union (stepSeq bytes a ts) (stepSeq bytes b ts) := by
  cases ts with
  | nil => rfl
  | cons t ts =>
    rw [stepSeq, stepSeq, stepSeq, step_union t a b]
    exact stepSeq_union ts _ _

theorem stepBranches_union (branches : List (List Token)) (a b : Marks) :
    stepBranches bytes (Marks.union a b) branches
      = Marks.union (stepBranches bytes a branches) (stepBranches bytes b branches) := by
  cases branches with
  | nil => exact Marks.map_false_union a b
  | cons first branches =>
    simp only [stepBranches]
    split
    · exact stepBranches_union branches a b
    · rw [stepSeq_union first a b, stepBranches_union branches a b, Marks.union_union_union_comm]

end

mutual

theorem length_step (t : Token) (marks : Marks) (h : marks.length = bytes.length + 1) :
    (t.step bytes marks).length = bytes.length + 1 := by
  cases t with
  | literal c => exact length_foldl_advance h
  | anyByte | byteClass => exact Marks.length_advance h
  | anyRun => exact Marks.length_spread h
  | leadingDirs =>
    have hon : (Marks.advance (· == slash) bytes (Marks.spread (fun _ => true) bytes marks)).length
        = bytes.length + 1 := Marks.length_advance (Marks.length_spread h)
    rw [Token.step, Marks.length_union (h.trans hon.symm), h]
  | trailingAll => exact Marks.length_spread (Marks.length_advance h)
  | betweenDirs =>
    have honce : (Marks.advance (· == slash) bytes marks).length = bytes.length + 1 :=
      Marks.length_advance h
    have hon : (Marks.advance (· == slash) bytes (Marks.spread (fun _ => true) bytes
        (Marks.advance (· == slash) bytes marks))).length = bytes.length + 1 :=
      Marks.length_advance (Marks.length_spread honce)
    rw [Token.step, Marks.length_union (honce.trans hon.symm), honce]
  | oneOf branches =>
    rw [Token.step]
    split
    · exact h
    · exact length_stepBranches branches marks h

theorem length_stepSeq (ts : List Token) (marks : Marks) (h : marks.length = bytes.length + 1) :
    (stepSeq bytes marks ts).length = bytes.length + 1 := by
  cases ts with
  | nil => exact h
  | cons t ts => exact length_stepSeq ts _ (length_step t marks h)

theorem length_stepBranches (branches : List (List Token)) (marks : Marks)
    (h : marks.length = bytes.length + 1) :
    (stepBranches bytes marks branches).length = bytes.length + 1 := by
  cases branches with
  | nil => simpa [stepBranches] using h
  | cons first branches =>
    have hfirst := length_stepSeq first marks h
    have hrest := length_stepBranches branches marks h
    rw [stepBranches]
    split
    · exact hrest
    · rw [Marks.length_union (hfirst.trans hrest.symm), hfirst]

end

/-- Two alternatives that are not silent lead where the one or the other leads, with what stands before
and after them. -/
theorem stepSeq_oneOf {as bs : List Token} (has : silentSeq as = false) (hbs : silentSeq bs = false)
    (front back : List Token) {marks : Marks} (h : marks.length = bytes.length + 1) :
    stepSeq bytes marks (front ++ .oneOf [as, bs] :: back)
      = Marks.union (stepSeq bytes marks (front ++ as ++ back))
        (stepSeq bytes marks (front ++ bs ++ back)) := by
  have hfront := length_stepSeq front marks h
  have hsilent : allSilent [as, bs] = false := by simp [allSilent, has]
  have hboth : Token.step bytes (stepSeq bytes marks front) (.oneOf [as, bs])
      = Marks.union (stepSeq bytes (stepSeq bytes marks front) as)
        (stepSeq bytes (stepSeq bytes marks front) bs) := by
    have hlast : Marks.union (stepSeq bytes (stepSeq bytes marks front) bs)
        ((stepSeq bytes marks front).map fun _ => false)
          = stepSeq bytes (stepSeq bytes marks front) bs :=
      Marks.union_false ((length_stepSeq bs _ hfront).trans hfront.symm)
    rw [Token.step, if_neg (by simp [hsilent]), stepBranches, if_neg (by simp [has]), stepBranches,
      if_neg (by simp [hbs]), stepBranches, hlast]
  rw [stepSeq_append, stepSeq, hboth, stepSeq_union, List.append_assoc, List.append_assoc,
    stepSeq_append, stepSeq_append, stepSeq_append, stepSeq_append]

theorem atEnd_stepSeq_oneOf {as bs : List Token} (has : silentSeq as = false)
    (hbs : silentSeq bs = false) (front back : List Token) (bytes : List UInt8) :
    (stepSeq bytes (Marks.start bytes) (front ++ .oneOf [as, bs] :: back)).atEnd
      = ((stepSeq bytes (Marks.start bytes) (front ++ as ++ back)).atEnd ||
        (stepSeq bytes (Marks.start bytes) (front ++ bs ++ back)).atEnd) := by
  have hstart : (Marks.start bytes).length = bytes.length + 1 := by simp [Marks.start]
  have hlength := fun ts => length_stepSeq ts _ hstart
  rw [stepSeq_oneOf has hbs front back hstart, Marks.atEnd_union ((hlength _).trans (hlength _).symm)]

end Steps

section Accepts

open TextCatalog.Path (IsName)

/-- No path of names ends in two dots. -/
theorem endsInParent_intercalate {names : List RawText} (hnames : ∀ n ∈ names, IsName n) :
    endsInParent ([slash].intercalate names) = false := by
  rw [endsInParent, beq_eq_false_iff_ne]
  rcases names.eq_nil_or_concat' with rfl | ⟨init, last, rfl⟩
  · decide
  have hlast : IsName last := hnames last (by simp)
  have hkept : ∀ b ∈ last.reverse, notSlash b = true := by
    intro b hb
    rw [notSlash, bne_iff_ne]
    rintro rfl
    exact hlast.slash_not_mem (List.mem_reverse.1 hb)
  obtain ⟨lead, hlead, hstop⟩ : ∃ lead, [slash].intercalate (init ++ [last]) = lead ++ last ∧
      lead.reverse.takeWhile notSlash = [] := by
    by_cases hinit : init = []
    · exact ⟨[], by simp [hinit], rfl⟩
    · refine ⟨[slash].intercalate init ++ [slash], ?_, ?_⟩
      · rw [Text.intercalate_append hinit (by simp), List.intercalate_singleton]
      · rw [List.reverse_append]
        rfl
  rw [hlead, List.reverse_append, List.takeWhile_append_of_pos hkept, hstop, List.append_nil]
  intro h
  exact hlast.ne_dots (List.reverse_injective h)

/-- Bytes that do not end in two dots are judged by whether the tokens lead over them. -/
theorem matchesBytes_eq_spans {g : Glob} (htakes : g.takesAll = false) {bytes : List UInt8}
    (h : endsInParent bytes = false) : g.matchesBytes bytes = g.spans bytes := by
  rw [matchesBytes, htakes, if_neg (by simp), h, Bool.and_false, Bool.not_false, Bool.and_true, spans]

variable {front back : List Token} {as bs : List Char}

theorem takesAll_around (has : as ≠ []) : takesAll ⟨front ++ as.map .literal ++ back⟩ = false := by
  obtain ⟨c, cs, rfl⟩ := List.exists_cons_of_ne_nil has
  exact takesAll_eq_false (t := .literal c) (by simp) (by simp)

theorem takesAll_oneOf (branches : List (List Token)) :
    takesAll ⟨front ++ .oneOf branches :: back⟩ = false :=
  takesAll_eq_false (t := .oneOf branches) (by simp) (by simp)

/-- Alternatives lead over what one of them leads over with what stands around. -/
theorem spans_oneOf (has : as ≠ []) (hbs : bs ≠ []) (bytes : List UInt8) :
    spans ⟨front ++ .oneOf [as.map .literal, bs.map .literal] :: back⟩ bytes
      = (spans ⟨front ++ as.map .literal ++ back⟩ bytes ||
        spans ⟨front ++ bs.map .literal ++ back⟩ bytes) := by
  have hloud : ∀ {cs : List Char}, cs ≠ [] → silentSeq (cs.map .literal) = false := by
    intro cs hcs
    obtain ⟨c, cs, rfl⟩ := List.exists_cons_of_ne_nil hcs
    rfl
  exact atEnd_stepSeq_oneOf (hloud has) (hloud hbs) front back _

/-- **Alternatives in braces.** The pattern with braces and the two that are written out can be read, and
it takes what one of them takes, but for what ends in two dots. -/
theorem exists_read_braces {pre post : List Char} (h : Surrounds pre post)
    (has : Alternative pre post as) (hbs : Alternative pre post bs) :
    ∃ g ga gb, readTokens .start none (pre ++ inBraces as bs ++ post) = .ok g ∧
      readTokens .start none (pre ++ as ++ post) = .ok ga ∧
      readTokens .start none (pre ++ bs ++ post) = .ok gb ∧
      g.takesAll = false ∧ (∀ bytes, g.spans bytes = (ga.spans bytes || gb.spans bytes)) ∧
      ∀ bytes, endsInParent bytes = false →
        g.matchesBytes bytes = (ga.matchesBytes bytes || gb.matchesBytes bytes) := by
  obtain ⟨front, back, halone, hboth⟩ := exists_readTokens_around h
  have hspans : ∀ bytes, _ := @spans_oneOf front back as bs has.ne_nil hbs.ne_nil
  refine ⟨_, _, _, hboth has hbs, halone has, halone hbs, takesAll_oneOf _, hspans, ?_⟩
  intro bytes hbytes
  rw [matchesBytes_eq_spans (takesAll_oneOf _) hbytes, hspans,
    matchesBytes_eq_spans (takesAll_around has.ne_nil) hbytes,
    matchesBytes_eq_spans (takesAll_around hbs.ne_nil) hbytes]

end Accepts

end TextCatalog.Glob
