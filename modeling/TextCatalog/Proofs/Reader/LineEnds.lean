import TextCatalog.Proofs.Reader.Served

/-!
# Line endings in one pass

Replacing the pairs first and the returns left alone then is the same as one pass from left to right, which
is how a virtual module does it. The pass is described by a relation, and what it keeps follows from that.
-/

namespace TextCatalog.Text

variable {c : Char} {cs ds out out' : List Char}

/-- One pass from left to right that makes a line feed of each match of `\r\n?` and keeps all else. A return
takes the line feed behind it along. -/
inductive OnePass : List Char → List Char → Prop
  | stop : OnePass [] []
  | pair {cs out : List Char} (hrest : OnePass cs out) : OnePass ('\r' :: '\n' :: cs) ('\n' :: out)
  | alone {cs out : List Char} (hhead : cs.head? ≠ some '\n') (hrest : OnePass cs out) :
      OnePass ('\r' :: cs) ('\n' :: out)
  | other {c : Char} {cs out : List Char} (hc : c ≠ '\r') (hrest : OnePass cs out) :
      OnePass (c :: cs) (c :: out)

/-- Whether a character is no part of a line ending. -/
def isInLine (c : Char) : Bool :=
  c != '\r' && c != '\n'

namespace OnePass

theorem unique (h : OnePass cs out) (h' : OnePass cs out') : out = out' := by
  induction h generalizing out' with
  | stop =>
    cases h'
    rfl
  | pair _ ih =>
    cases h' with
    | pair hrest => rw [ih hrest]
    | alone hhead => exact absurd rfl hhead
    | other hc => exact absurd rfl hc
  | alone hhead _ ih =>
    cases h' with
    | pair => exact absurd rfl hhead
    | alone _ hrest => rw [ih hrest]
    | other hc => exact absurd rfl hc
  | other hc _ ih =>
    cases h' with
    | pair | alone => exact absurd rfl hc
    | other _ hrest => rw [ih hrest]

theorem return_not_mem (h : OnePass cs out) : '\r' ∉ out := by
  induction h with
  | stop => exact List.not_mem_nil
  | pair _ ih | alone _ _ ih => simpa using ih
  | other hc _ ih => simpa using ⟨Ne.symm hc, ih⟩

theorem filter_eq (h : OnePass cs out) : out.filter isInLine = cs.filter isInLine := by
  induction h with
  | stop => rfl
  | pair _ ih | alone _ _ ih => simpa [isInLine] using ih
  | other _ _ ih => simp only [List.filter_cons, ih]

theorem of_return_not_mem (h : '\r' ∉ cs) : OnePass cs cs := by
  induction cs with
  | nil => exact .stop
  | cons c cs ih =>
    obtain ⟨hc, hcs⟩ := not_or.1 (mt List.mem_cons.2 h)
    exact .other (Ne.symm hc) (ih hcs)

/-- Two texts can be passed one by one unless the seam cuts a pair. -/
theorem append (h : OnePass cs out) (h' : OnePass ds out')
    (hseam : ¬ (cs.getLast? = some '\r' ∧ ds.head? = some '\n')) :
    OnePass (cs ++ ds) (out ++ out') := by
  have hinner : ∀ {c : Char} {cs : List Char},
      ¬ ((c :: cs).getLast? = some '\r' ∧ ds.head? = some '\n') →
        ¬ (cs.getLast? = some '\r' ∧ ds.head? = some '\n') := by
    rintro c cs hseam ⟨hlast, hhead⟩
    exact hseam ⟨by simp [List.getLast?_cons, hlast], hhead⟩
  induction h with
  | stop => exact h'
  | pair _ ih => exact .pair (ih (hinner (hinner hseam)))
  | @alone cs _ hhead _ ih =>
    refine .alone ?_ (ih (hinner hseam))
    cases cs with
    | nil => exact fun hline => hseam ⟨rfl, hline⟩
    | cons c cs => exact hhead
  | other hc _ ih => exact .other hc (ih (hinner hseam))

end OnePass

theorem onePass_lineFeedChars (cs : List Char) : OnePass cs (lineFeedChars cs) := by
  rw [lineFeedChars]
  fun_induction joinPairs cs with
  | case1 => exact .stop
  | case2 cs ih => exact .pair ih
  | case3 c cs hpair ih =>
    rw [List.map_cons]
    split
    next hreturn =>
      subst hreturn
      refine .alone (fun hhead => ?_) ih
      obtain ⟨rest, rfl⟩ := List.head?_eq_some_iff.1 hhead
      exact hpair rest rfl rfl
    next hother => exact .other hother ih

theorem onePass_iff : OnePass cs out ↔ out = lineFeedChars cs := by
  refine ⟨fun h => h.unique (onePass_lineFeedChars cs), ?_⟩
  rintro rfl
  exact onePass_lineFeedChars cs

theorem lineFeedChars_append_iff :
    lineFeedChars (cs ++ ds) = lineFeedChars cs ++ lineFeedChars ds ↔
      ¬ (cs.getLast? = some '\r' ∧ ds.head? = some '\n') := by
  have happend : ∀ {as bs : List Char}, ¬ (as.getLast? = some '\r' ∧ bs.head? = some '\n') →
      lineFeedChars (as ++ bs) = lineFeedChars as ++ lineFeedChars bs := fun hseam =>
    (onePass_iff.1 ((onePass_lineFeedChars _).append (onePass_lineFeedChars _) hseam)).symm
  refine ⟨?_, happend⟩
  -- A pair that is cut becomes two line feeds instead of one.
  rintro h ⟨hlast, hhead⟩
  obtain ⟨front, rfl⟩ := List.getLast?_eq_some_iff.1 hlast
  obtain ⟨back, rfl⟩ := List.head?_eq_some_iff.1 hhead
  have hwhole : lineFeedChars (front ++ '\r' :: '\n' :: back)
      = lineFeedChars front ++ '\n' :: lineFeedChars back := happend (by simp)
  have hfront : lineFeedChars (front ++ ['\r']) = lineFeedChars front ++ ['\n'] := happend (by simp)
  have hback : lineFeedChars ('\n' :: back) = '\n' :: lineFeedChars back := rfl
  rw [hfront, hback, List.append_assoc, List.singleton_append, hwhole] at h
  simpa using congrArg List.length h

/-- A text comes out as from one pass over its characters, and as from the pass of a virtual module over its
code units. Nothing but line endings is touched, none of them has a return afterwards, and texts can be
joined before or after unless that joins a pair. -/
theorem lineFeeds_pass_once (s : String) :
    (∀ out, OnePass s.toList out ↔ out = (lineFeeds s).toList) ∧
      Artifact.Reader.lineFeedUnits (Artifact.Reader.unitsOf s)
        = Artifact.Reader.unitsOf (lineFeeds s) ∧
      '\r' ∉ (lineFeeds s).toList ∧
      (lineFeeds s).toList.filter isInLine = s.toList.filter isInLine ∧
      lineFeeds (lineFeeds s) = lineFeeds s ∧
      ∀ more, lineFeeds (s ++ more) = lineFeeds s ++ lineFeeds more ↔
        ¬ (s.toList.getLast? = some '\r' ∧ more.toList.head? = some '\n') := by
  have hlines : ∀ text : String, (lineFeeds text).toList = lineFeedChars text.toList := fun text =>
    String.toList_ofList
  have hiff : ∀ out, OnePass s.toList out ↔ out = (lineFeeds s).toList := by
    intro out
    rw [hlines, onePass_iff]
  have hpass : OnePass s.toList (lineFeeds s).toList := (hiff _).2 rfl
  refine ⟨hiff, ?_, hpass.return_not_mem, hpass.filter_eq, ?_, fun more => ?_⟩
  · rw [Artifact.Reader.unitsOf, Artifact.Reader.unitsOf, Artifact.Reader.lineFeedUnits_codeUnits,
      hlines]
  · rw [← String.toList_inj, hlines]
    exact (onePass_iff.1 (.of_return_not_mem hpass.return_not_mem)).symm
  · rw [← lineFeedChars_append_iff, ← String.toList_inj]
    simp only [hlines, String.toList_append]

example : lineFeeds ("a\r" ++ "\nb") ≠ lineFeeds "a\r" ++ lineFeeds "\nb" := by decide

end TextCatalog.Text
