import TextCatalog.Proofs.Placeholder.Cut
import TextCatalog.Proofs.Reader.Basic
import TextCatalog.Proofs.Text.Strip

/-!
# The pieces that the reader sees

The reader cuts a content into the pieces that `Placeholder.pieces` has, and puts an argument in the
place of each placeholder. So does `Placeholder.substitute`; what differs is the name of a placeholder.
-/

namespace TextCatalog.Artifact.Reader

open Placeholder Text

section Pieces

variable {d : Delimiters}

theorem parts_of_some {opening closing us : List Nat} {r : List Nat × List Nat} (hne : us ≠ [])
    (h : matchAt? opening closing us = some r) :
    parts opening closing us = .hole r.1 :: parts opening closing r.2 := by
  cases us with
  | nil => exact absurd rfl hne
  | cons u us =>
    rw [parts]
    split <;> simp_all

theorem parts_of_none {opening closing us : List Nat} {u : Nat}
    (h : matchAt? opening closing (u :: us) = none) :
    parts opening closing (u :: us) = .unit u :: parts opening closing us := by
  rw [parts]
  split <;> simp_all

/-- A piece of a content as the reader takes it. -/
def partsOfPiece : Piece → List Part
  | .plain c => (charUnits c).map .unit
  | .slot run => [.hole (codeUnits run)]

/-- The reader cuts a content where `cut` does. -/
theorem parts_codeUnits (hopen : d.opening ≠ "") (hclose : d.closing ≠ "") {input : List Char}
    {pieces : List Piece} (h : Cuts d input pieces) :
    parts (codeUnits d.opening.toList) (codeUnits d.closing.toList) (codeUnits input)
      = pieces.flatMap partsOfPiece := by
  induction h with
  | nil => simp [parts]
  | @slot input run rest pieces matched _ ih =>
    have hne : input ≠ [] := by
      rw [matched.eq]
      simp [hopen]
    rw [parts_of_some (codeUnits_eq_nil_iff.not.2 hne) (matchAt?_of_matchesAt hclose matched), ih]
    rfl
  | @plain input c pieces unmatched _ ih =>
    have hnone : matchAt? (codeUnits d.opening.toList) (codeUnits d.closing.toList)
        (codeUnits (c :: input)) = none := by
      rw [Option.eq_none_iff_forall_ne_some]
      intro r hr
      obtain ⟨run, rest, hmatch, -⟩ := matchesAt_of_matchAt? hclose hr
      exact unmatched run rest hmatch
    rcases charUnits_cases c with ⟨hc, -⟩ | ⟨lead, trail, hc, -, -, htrail⟩
    · rw [codeUnits_cons, hc, List.singleton_append] at hnone ⊢
      rw [parts_of_none hnone, ih]
      simp [partsOfPiece, hc]
    · rw [codeUnits_cons, hc, List.cons_append, List.singleton_append] at hnone ⊢
      rw [parts_of_none hnone, parts_of_none (matchAt?_of_isTrail hopen htrail), ih]
      simp [partsOfPiece, hc]

theorem partsOf_eq (hopen : d.opening ≠ "") (hclose : d.closing ≠ "") (content : String) :
    partsOf d content = (pieces d content).flatMap partsOfPiece :=
  parts_codeUnits hopen hclose (cuts_pieces hopen hclose content)

theorem dropWhile_flatMap {f : Char → List Nat} {p : Char → Bool}
    (hpos : ∀ c, p c = true → ∃ u, f c = [u] ∧ isSpace u = true)
    (hneg : ∀ c, p c = false → ∃ u us, f c = u :: us ∧ isSpace u = false) (cs : List Char) :
    (cs.flatMap f).dropWhile isSpace = (cs.dropWhile p).flatMap f := by
  induction cs with
  | nil => rfl
  | cons c cs ih =>
    cases hc : p c with
    | true =>
      obtain ⟨u, hu, hspace⟩ := hpos c hc
      simp [hu, hspace, hc, ih]
    | false =>
      obtain ⟨u, us, hu, hspace⟩ := hneg c hc
      simp [hu, hspace, hc]

/-- Stripping units is stripping characters: white space takes one unit each. -/
theorem stripBy_codeUnits (cs : List Char) :
    stripBy isSpace (codeUnits cs) = codeUnits (stripBy (fun c => isSpace c.toNat) cs) := by
  have hsmall : ∀ u, isSpace u = true → u < 0x10000 := by
    intro u hu
    simp [isSpace, spaceRanges] at hu
    omega
  have hpair : ∀ u, 0xD800 ≤ u → u < 0xE000 → isSpace u = false := by
    intro u hlow hhigh
    simp [isSpace, spaceRanges]
    omega
  have hpos : ∀ c : Char, isSpace c.toNat = true → charUnits c = [c.toNat] := by
    intro c hc
    simp [charUnits, hsmall _ hc]
  have hfront : ∀ cs : List Char, (codeUnits cs).dropWhile isSpace
      = codeUnits (cs.dropWhile fun c => isSpace c.toNat) := by
    refine dropWhile_flatMap (fun c hc => ⟨_, hpos c hc, hc⟩) fun c hc => ?_
    rcases charUnits_cases c with ⟨h, -⟩ | ⟨lead, trail, h, hlead, hlead', -⟩
    · exact ⟨_, _, h, hc⟩
    · exact ⟨_, _, h, hpair lead hlead (by omega)⟩
  have hback : ∀ cs : List Char, (cs.flatMap fun c => (charUnits c).reverse).dropWhile isSpace
      = (cs.dropWhile fun c => isSpace c.toNat).flatMap fun c => (charUnits c).reverse := by
    refine dropWhile_flatMap (fun c hc => ⟨_, by rw [hpos c hc]; rfl, hc⟩) fun c hc => ?_
    rcases charUnits_cases c with ⟨h, -⟩ | ⟨lead, trail, h, -, -, htrail⟩
    · exact ⟨_, _, by rw [h]; rfl, hc⟩
    · exact ⟨_, _, by rw [h]; rfl, hpair trail (by have := htrail.1; omega) htrail.2⟩
  have hreverse : ∀ cs : List Char,
      (codeUnits cs).reverse = cs.reverse.flatMap fun c => (charUnits c).reverse := by
    intro cs
    rw [codeUnits, List.reverse_flatMap]
    rfl
  unfold stripBy
  rw [hfront, hreverse, hback]
  apply List.reverse_injective
  rw [List.reverse_reverse, hreverse, List.reverse_reverse]

/-- The name under which the reader looks for the value of a placeholder. -/
def readName (run : List Char) : String :=
  String.ofList (stripBy (fun c => isSpace c.toNat) run)

/-- The argument of this name. -/
def argument? (args : List (String × String)) (name : String) : Option String :=
  args.lookup name

theorem ownProperty?_codeUnits (args : List (String × String)) (name : String) :
    ownProperty? args (codeUnits name.toList)
      = (argument? args name).map fun value => codeUnits value.toList := by
  unfold argument?
  induction args with
  | nil => rfl
  | cons a args ih =>
    obtain ⟨key, value⟩ := a
    rw [ownProperty?] at ih ⊢
    by_cases h : key = name
    · subst h
      simp
    · have hunits : (codeUnits key.toList == codeUnits name.toList) = false :=
        beq_eq_false_iff_ne.2 fun heq => h (String.toList_inj.1 (codeUnits_injective heq))
      have hname : (name == key) = false := beq_eq_false_iff_ne.2 (Ne.symm h)
      rw [List.find?_cons, hunits, List.lookup_cons, hname, ih]

/-- A placeholder with the argument `name` in its place, in code units. -/
def slotUnits (d : Delimiters) (args : List (String × String)) (name : String) (run : List Char) :
    List Nat :=
  match argument? args name with
  | some value => codeUnits value.toList
  | none => codeUnits (rawOf d run)

theorem codeUnits_fill (args : List (String × String)) (run : List Char) :
    codeUnits ((Piece.slot run).fill d (argument? args))
      = slotUnits d args (nameOf run) run := by
  simp only [Piece.fill, slotUnits, Piece.source, rawOf]
  cases argument? args (nameOf run) <;> simp

theorem fill_hole (args : List (String × String)) (run : List Char) :
    (Part.hole (codeUnits run)).fill d args = slotUnits d args (readName run) run := by
  have hname : stripBy isSpace (codeUnits run) = codeUnits (readName run).toList := by
    simp [stripBy_codeUnits, readName]
  simp only [Part.fill, hname, ownProperty?_codeUnits, slotUnits, rawOf]
  cases argument? args (readName run) <;> simp

theorem flatMap_fill_plain (args : List (String × String)) (c : Char) :
    (partsOfPiece (.plain c)).flatMap (Part.fill d args) = charUnits c := by
  simp [partsOfPiece, Part.fill, List.flatMap_map]

/-- A piece of a content with the value of its name in its place, the name being read by `name`. -/
def pieceUnits (d : Delimiters) (args : List (String × String)) (name : List Char → String) :
    Piece → List Nat
  | .plain c => charUnits c
  | .slot run => slotUnits d args (name run) run

theorem getText_eq (hopen : d.opening ≠ "") (hclose : d.closing ≠ "")
    (args : List (String × String)) (content : String) :
    getText d args content = (pieces d content).flatMap (pieceUnits d args readName) := by
  rw [getText, partsOf_eq hopen hclose, List.flatMap_assoc]
  congr 1
  funext piece
  cases piece with
  | plain c => exact flatMap_fill_plain args c
  | slot run => simpa [partsOfPiece, pieceUnits] using fill_hole args run

theorem codeUnits_substitute (args : List (String × String)) (content : String) :
    codeUnits (substitute d (argument? args) content).toList
      = (pieces d content).flatMap (pieceUnits d args nameOf) := by
  rw [substitute, String.toList_ofList, codeUnits, List.flatMap_assoc]
  congr 1
  funext piece
  cases piece with
  | plain c => simp [Piece.fill, pieceUnits]
  | slot run => exact codeUnits_fill args run

end Pieces

end TextCatalog.Artifact.Reader
