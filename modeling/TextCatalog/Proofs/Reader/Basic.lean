import TextCatalog.Proofs.Placeholder.Match
import TextCatalog.Proofs.Text.CodeUnits
import TextCatalog.Proofs.Text.Strip

/-!
# The reader of a generated module

Generated code fills in placeholders by itself, with the rules of its own language. It sees UTF-16
code units, looks for the matches of `/opening(.+?)closing/g`, strips the white space of its language
off what they enclose, and puts the argument of that name in their place. The matches that it finds
among the units are the matches among the characters.
-/

namespace TextCatalog.Artifact.Reader

open Placeholder Text

/-- Whether `.` does not match a unit: LF, CR, U+2028 and U+2029. -/
def endsLine (u : Nat) : Bool :=
  u == 0x0A || u == 0x0D || u == 0x2028 || u == 0x2029

/-- The white space and line terminators that the reader strips, as closed intervals. -/
def spaceRanges : List (Nat × Nat) :=
  [(0x09, 0x0D), (0x20, 0x20), (0xA0, 0xA0), (0x1680, 0x1680), (0x2000, 0x200A),
   (0x2028, 0x2029), (0x202F, 0x202F), (0x205F, 0x205F), (0x3000, 0x3000), (0xFEFF, 0xFEFF)]

/-- Whether the reader strips a unit off the ends of a name. -/
def isSpace (u : Nat) : Bool :=
  spaceRanges.any fun r => r.1 ≤ u && u ≤ r.2

/-- Matches `(.+?)closing`: one unit is taken, and another one only where the closing delimiter does
not follow. The answer is what was captured and what comes after the match. -/
def lazyRun (closing : List Nat) : List Nat → Option (List Nat × List Nat)
  | [] => none
  | u :: us =>
    if endsLine u then none
    else
      match us.dropPrefix? closing with
      | some rest => some ([u], rest)
      | none => (lazyRun closing us).map fun r => (u :: r.1, r.2)

/-- Matches `opening(.+?)closing` at the start of the units. -/
def matchAt? (opening closing us : List Nat) : Option (List Nat × List Nat) :=
  (us.dropPrefix? opening).bind (lazyRun closing)

/-- A part of a content: a unit outside of all matches, or what a match has captured. -/
inductive Part where
  | unit (u : Nat)
  | hole (captured : List Nat)

section Units

variable {opening closing us rest run : List Nat}

theorem dropPrefix?_eq_some_iff_append {lead : List Nat} :
    us.dropPrefix? lead = some rest ↔ us = lead ++ rest := by
  simp [List.dropPrefix?_eq_some_iff]

theorem ne_append_of_dropPrefix? {lead : List Nat} (h : us.dropPrefix? lead = none) :
    us ≠ lead ++ rest := fun heq => by
  rw [dropPrefix?_eq_some_iff_append.2 heq] at h
  simp at h

/-- The run that is captured is the shortest one. -/
theorem lazyRun_eq_some (h : lazyRun closing us = some (run, rest)) :
    us = run ++ (closing ++ rest) ∧ run ≠ [] ∧ (∀ u ∈ run, endsLine u = false) ∧
      ∀ run' rest', us = run' ++ (closing ++ rest') → run' ≠ [] → run.length ≤ run'.length := by
  induction us generalizing run with
  | nil => simp [lazyRun] at h
  | cons u us ih =>
    rw [lazyRun] at h
    split at h
    · simp at h
    next hline =>
      split at h
      next rest₀ hrest =>
        obtain ⟨rfl, rfl⟩ := Prod.mk.inj (Option.some.inj h)
        refine ⟨by simp [dropPrefix?_eq_some_iff_append.1 hrest], by simp, by simpa using hline, ?_⟩
        intro run' rest' _ hne
        exact List.length_pos_iff.2 hne
      next hnone =>
        obtain ⟨⟨run₀, rest₀⟩, hsome, heq⟩ := Option.map_eq_some_iff.1 h
        obtain ⟨rfl, rfl⟩ := Prod.mk.inj heq
        obtain ⟨hus, hne, hlines, hshort⟩ := ih hsome
        refine ⟨by simp [hus], by simp, by simpa [hline] using hlines, ?_⟩
        intro run' rest' heq' hne'
        cases run' with
        | nil => exact absurd rfl hne'
        | cons u' run' =>
          have htail : us = run' ++ (closing ++ rest') := (List.cons.inj heq').2
          cases run' with
          | nil => exact (ne_append_of_dropPrefix? hnone htail).elim
          | cons u'' run' => exact Nat.succ_le_succ (hshort _ rest' htail (by simp))

/-- Where nothing is captured, every run before a closing delimiter is empty or ends a line. -/
theorem exists_endsLine_of_lazyRun (h : lazyRun closing us = none)
    (heq : us = run ++ (closing ++ rest)) (hne : run ≠ []) : ∃ u ∈ run, endsLine u = true := by
  induction us generalizing run with
  | nil => simp_all
  | cons u us ih =>
    cases run with
    | nil => exact absurd rfl hne
    | cons u' run =>
      obtain ⟨rfl, htail⟩ := List.cons.inj heq
      rw [lazyRun] at h
      split at h
      next hline => exact ⟨u, by simp, hline⟩
      next hline =>
        split at h
        · simp at h
        next hnone =>
          cases run with
          | nil => exact (ne_append_of_dropPrefix? hnone htail).elim
          | cons u'' run =>
            obtain ⟨x, hx, hxline⟩ := ih (Option.map_eq_none_iff.1 h) htail (by simp)
            exact ⟨x, List.mem_cons_of_mem _ hx, hxline⟩

theorem length_lt_of_matchAt? {r : List Nat × List Nat} (h : matchAt? opening closing us = some r) :
    r.2.length < us.length := by
  obtain ⟨after, hafter, hrun⟩ := Option.bind_eq_some_iff.1 h
  obtain ⟨heq, hne, -⟩ := lazyRun_eq_some hrun
  have hpos := List.length_pos_iff.2 hne
  rw [dropPrefix?_eq_some_iff_append.1 hafter, heq]
  simp only [List.length_append]
  omega

end Units

/-- The parts of a content, from left to right. After a match the search goes on at its end. -/
def parts (opening closing : List Nat) : List Nat → List Part
  | [] => []
  | u :: us =>
    match _h : matchAt? opening closing (u :: us) with
    | some r => .hole r.1 :: parts opening closing r.2
    | none => .unit u :: parts opening closing us
termination_by us => us.length
decreasing_by
  · exact length_lt_of_matchAt? _h
  · simp

/-- The argument that is an own property of this name. -/
def ownProperty? (args : List (String × String)) (name : List Nat) : Option (List Nat) :=
  (args.find? fun a => codeUnits a.1.toList == name).map fun a => codeUnits a.2.toList

/-- What a part becomes: a match that names an argument becomes its value, and all else stays. -/
def Part.fill (d : Delimiters) (args : List (String × String)) : Part → List Nat
  | unit u => [u]
  | hole captured =>
    match ownProperty? args (stripBy isSpace captured) with
    | some value => value
    | none => codeUnits d.opening.toList ++ captured ++ codeUnits d.closing.toList

/-- The name that is looked up for a part, if it is a match. -/
def Part.name? : Part → Option (List Nat)
  | unit _ => none
  | hole captured => some (stripBy isSpace captured)

/-- The parts of a content between these delimiters. -/
def partsOf (d : Delimiters) (content : String) : List Part :=
  parts (codeUnits d.opening.toList) (codeUnits d.closing.toList) (codeUnits content.toList)

/-- The content with its placeholders filled in from the own properties `args`. -/
def getText (d : Delimiters) (args : List (String × String)) (content : String) : List Nat :=
  (partsOf d content).flatMap (Part.fill d args)

/-- The names that are looked up for a content. -/
def lookups (d : Delimiters) (content : String) : List (List Nat) :=
  (partsOf d content).filterMap Part.name?

/-! ### The same matches -/

section Matches

variable {d : Delimiters} {input after run rest : List Char}

theorem endsLine_charUnits (c : Char) :
    (∃ u ∈ charUnits c, endsLine u = true) ↔ isLineEnd c = true := by
  have hline : isLineEnd c = endsLine c.toNat := by
    simp only [isLineEnd, endsLine, ← Char.toNat_inj, Bool.beq_eq_decide_eq]
    rfl
  rcases charUnits_cases c with ⟨hc, -⟩ | ⟨lead, trail, hc, hlead, hlead', htrail⟩
  · simp [hc, hline]
  · have hbig : ¬ c.toNat < 0x10000 := by
      intro hsmall
      simp [charUnits, hsmall] at hc
    simp only [IsTrail] at htrail
    simp only [hc, hline, endsLine, List.mem_cons, List.not_mem_nil, or_false, exists_eq_or_imp,
      exists_eq_left, Bool.or_eq_true, beq_iff_eq]
    omega

theorem endsLine_codeUnits {cs : List Char} :
    (∃ u ∈ codeUnits cs, endsLine u = true) ↔ ∃ c ∈ cs, isLineEnd c = true := by
  simp only [codeUnits, List.mem_flatMap, ← endsLine_charUnits]
  constructor
  · rintro ⟨u, ⟨c, hc, hu⟩, hline⟩
    exact ⟨c, hc, u, hu, hline⟩
  · rintro ⟨c, hc, u, hu, hline⟩
    exact ⟨u, ⟨c, hc, hu⟩, hline⟩

/-- Of two beginnings of one text the longer one has more units. -/
theorem length_le_of_codeUnits {as bs rest rest' : List Char} (h : as ++ rest = bs ++ rest')
    (hlen : (codeUnits as).length ≤ (codeUnits bs).length) : as.length ≤ bs.length := by
  by_contra hlt
  obtain ⟨more, rfl⟩ : ∃ more, as = bs ++ more := by
    rcases List.append_eq_append_iff.1 h with ⟨more, hbs, -⟩ | ⟨more, has, -⟩
    · rw [hbs] at hlt
      simp at hlt
    · exact ⟨more, has⟩
  simp only [codeUnits_append, List.length_append] at hlen
  have hnil : more = [] := codeUnits_eq_nil_iff.1 (List.length_eq_zero_iff.1 (by omega))
  simp [hnil] at hlt

theorem head?_codeUnits_append {cs : List Char} (h : cs ≠ []) (us : List Nat) :
    ∀ u ∈ (codeUnits cs ++ us).head?, ¬ IsTrail u := by
  intro u hu
  cases hcs : codeUnits cs with
  | nil => exact absurd (codeUnits_eq_nil_iff.1 hcs) h
  | cons v vs =>
    rw [hcs] at hu
    obtain rfl : v = u := by simpa using hu
    exact not_isTrail_head hcs

/-- A match among the units is a match among the characters. -/
theorem matchesAt_of_matchAt? (hclose : d.closing ≠ "") {r : List Nat × List Nat}
    (h : matchAt? (codeUnits d.opening.toList) (codeUnits d.closing.toList) (codeUnits input)
      = some r) :
    ∃ run rest, MatchesAt d input run rest ∧ r = (codeUnits run, codeUnits rest) := by
  have hclose' : d.closing.toList ≠ [] := by simpa using hclose
  obtain ⟨us, hus, hrun⟩ := Option.bind_eq_some_iff.1 h
  obtain ⟨after, rfl, rfl⟩ := codeUnits_eq_append_left (dropPrefix?_eq_some_iff_append.1 hus)
  obtain ⟨heq, hne, hlines, hshort⟩ := lazyRun_eq_some hrun
  obtain ⟨run, back, rfl, hr, hback⟩ :=
    codeUnits_eq_append heq (head?_codeUnits_append hclose' _)
  obtain ⟨rest, rfl, hrest⟩ := codeUnits_eq_append_left hback.symm
  refine ⟨run, rest, ⟨rfl, ⟨?_, ?_⟩, ?_⟩, Prod.ext hr hrest⟩
  · rintro rfl
    exact hne hr
  · intro c hc
    rw [hr] at hlines
    have hnone := endsLine_codeUnits.not.1 (by simpa using hlines)
    simpa using not_exists.1 hnone c ∘ And.intro hc
  · intro run' rest' heq' hrun'
    have hsplit := List.append_cancel_left heq'
    refine length_le_of_codeUnits hsplit ?_
    rw [← hr]
    refine hshort (codeUnits run') (codeUnits rest') ?_ (codeUnits_eq_nil_iff.not.2 hrun'.1)
    rw [hsplit]
    simp

/-- A match among the characters is found among the units. -/
theorem matchAt?_of_matchesAt (hclose : d.closing ≠ "") (h : MatchesAt d input run rest) :
    matchAt? (codeUnits d.opening.toList) (codeUnits d.closing.toList) (codeUnits input)
      = some (codeUnits run, codeUnits rest) := by
  cases hmatch : matchAt? (codeUnits d.opening.toList) (codeUnits d.closing.toList)
      (codeUnits input) with
  | some r =>
    obtain ⟨run', rest', h', rfl⟩ := matchesAt_of_matchAt? hclose hmatch
    obtain ⟨rfl, rfl⟩ := h.unique h'
    rfl
  | none =>
    have hopen : (codeUnits input).dropPrefix? (codeUnits d.opening.toList)
        = some (codeUnits (run ++ (d.closing.toList ++ rest))) :=
      dropPrefix?_eq_some_iff_append.2 (by rw [h.eq, codeUnits_append])
    rw [matchAt?, hopen, Option.bind_some] at hmatch
    have hunits : codeUnits (run ++ (d.closing.toList ++ rest))
        = codeUnits run ++ (codeUnits d.closing.toList ++ codeUnits rest) := by
      simp only [codeUnits_append]
    obtain ⟨u, hu, hline⟩ := exists_endsLine_of_lazyRun hmatch hunits
      (codeUnits_eq_nil_iff.not.2 h.isRun.1)
    obtain ⟨c, hc, hcline⟩ := endsLine_codeUnits.1 ⟨u, hu, hline⟩
    rw [h.isRun.2 c hc] at hcline
    simp at hcline

/-- No match starts at the second unit of a pair. -/
theorem matchAt?_of_isTrail (hopen : d.opening ≠ "") {closing us : List Nat} {u : Nat}
    (hu : IsTrail u) : matchAt? (codeUnits d.opening.toList) closing (u :: us) = none := by
  have hopen' : d.opening.toList ≠ [] := by simpa using hopen
  have hnone : (u :: us).dropPrefix? (codeUnits d.opening.toList) = none := by
    rw [Option.eq_none_iff_forall_ne_some]
    intro rest hrest
    have heq := dropPrefix?_eq_some_iff_append.1 hrest
    exact head?_codeUnits_append hopen' rest u (by simp [← heq]) hu
  rw [matchAt?, hnone]
  rfl

end Matches

end TextCatalog.Artifact.Reader
