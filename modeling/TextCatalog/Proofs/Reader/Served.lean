import Mathlib.Data.List.Nodup
import TextCatalog.Proofs.Source.Merged
import TextCatalog.Proofs.Source.Prefix
import TextCatalog.Proofs.Text.UnitOrder

/-!
# The texts that a virtual module serves

A virtual module puts the files that it has loaded into one object by itself: it takes their canonical
keys in the order of their code units, makes an output key of each and assigns the text to the property
of that name. Where two files have one output key, both the object and the entries keep the later one,
and so they hold the same texts if the two orders agree on such files.
-/

namespace TextCatalog.Artifact.Reader

open Text

def unitsOf (s : String) : List Nat :=
  codeUnits s.toList

theorem unitsOf_inj {s s' : String} : unitsOf s = unitsOf s' ↔ s = s' := by
  rw [unitsOf, unitsOf, codeUnits_injective.eq_iff, String.toList_inj]

/-- What `replace(/\r\n?/g, "\n")` makes of a text. -/
def lineFeedUnits : List Nat → List Nat
  | [] => []
  | 0x0D :: 0x0A :: us => 0x0A :: lineFeedUnits us
  | 0x0D :: us => 0x0A :: lineFeedUnits us
  | u :: us => u :: lineFeedUnits us

def isRooted (us : List Nat) : Bool :=
  (unitsOf "/").isPrefixOf us

/-- The output key that is made of a canonical key. -/
def toOutputKey (strip : Option (List Nat)) (key : List Nat) : List Nat :=
  let unrooted := if isRooted key then key.drop 1 else key
  match strip with
  | none => unrooted
  | some lead =>
    if lead.isPrefixOf key then key.drop lead.length
    else if !isRooted lead && lead.isPrefixOf unrooted then unrooted.drop lead.length
    else unrooted

abbrev Object := List Nat → Option (List Nat)

/-- Assigns a text to a property. The property `__proto__` takes no text. -/
def Object.assign (o : Object) (name value : List Nat) : Object :=
  if name = unitsOf "__proto__" then o else fun other => if other = name then some value else o other

/-- The object that is made of the loaded texts, each under its canonical key. -/
def merged (strip : Option (List Nat)) (batch : List (List Nat × List Nat)) : Object :=
  (batch.mergeSort fun a b => decide (a.1 ≤ b.1)).foldl
    (fun o a => o.assign (toOutputKey strip a.1) (lineFeedUnits a.2)) fun _ => none

/-- What is loaded of files whose paths hold the texts. -/
def batchOf (texts : Path → String) (files : List SourceFile) : List (List Nat × List Nat) :=
  files.map fun f => (unitsOf f.canonicalKey, unitsOf (texts f.path))

/-- What entries have under a name. -/
def ownText? (entries : List Entry) (name : List Nat) : Option (List Nat) :=
  (entries.find? fun e => unitsOf e.key == name).map fun e => unitsOf e.content

section Keys

variable {strip : Option String} {lead key output : String}

theorem unitsOf_append (s s' : String) : unitsOf (s ++ s') = unitsOf s ++ unitsOf s' := by
  simp [unitsOf]

theorem startsWith_eq_isSome : Text.startsWith lead key = (Text.after? lead key).isSome := by
  rw [Text.startsWith, Text.after?, Option.isSome_map]

theorem isPrefixOf_unitsOf :
    (unitsOf lead).isPrefixOf (unitsOf key) = (Text.after? lead key).isSome := by
  rw [Bool.eq_iff_iff, List.isPrefixOf_iff_prefix, Option.isSome_iff_exists]
  simp only [Text.after?_eq_some_iff]
  constructor
  · rintro ⟨us, hus⟩
    obtain ⟨rest, hrest, -⟩ := codeUnits_eq_append_left hus.symm
    exact ⟨String.ofList rest, String.toList_inj.1 (by simp [hrest])⟩
  · rintro ⟨rest, rfl⟩
    exact ⟨unitsOf rest, (unitsOf_append lead rest).symm⟩

theorem drop_unitsOf {rest : String} (h : Text.after? lead key = some rest) :
    (unitsOf key).drop (unitsOf lead).length = unitsOf rest := by
  rw [Text.after?_eq_some_iff.1 h, unitsOf_append, List.drop_left]

theorem isRooted_unitsOf (key : String) : isRooted (unitsOf key) = Text.startsWith "/" key := by
  rw [isRooted, isPrefixOf_unitsOf, startsWith_eq_isSome]

theorem unrooted_unitsOf (key : String) :
    (if isRooted (unitsOf key) then (unitsOf key).drop 1 else unitsOf key)
      = unitsOf (Key.unrooted key) := by
  rw [isRooted, isPrefixOf_unitsOf, Key.unrooted]
  cases hrest : Text.after? "/" key with
  | none => rfl
  | some rest =>
    rw [Option.isSome_some, if_pos rfl]
    exact drop_unitsOf hrest

/-- Both make the same output key. -/
theorem toOutputKey_unitsOf (strip : Option String) (key : String) :
    toOutputKey (strip.map unitsOf) (unitsOf key) = unitsOf (Key.output strip key) := by
  cases strip with
  | none => exact unrooted_unitsOf key
  | some lead =>
    rw [Option.map_some, toOutputKey, unrooted_unitsOf, isPrefixOf_unitsOf, isPrefixOf_unitsOf,
      isRooted_unitsOf, Key.output]
    cases hrest : Text.after? lead key with
    | some rest => exact drop_unitsOf hrest
    | none =>
      cases hrooted : Text.startsWith "/" lead with
      | true => rfl
      | false =>
        cases hinner : Text.after? lead (Key.unrooted key) with
        | some rest => exact drop_unitsOf hinner
        | none => rfl

/-- At most two canonical keys become the same output key. -/
theorem exists_lead (strip : Option String) : ∃ lead, ∀ rest : String,
    "/" ++ rest = "/" ++ Key.output strip ("/" ++ rest) ∨
      "/" ++ rest = lead ++ Key.output strip ("/" ++ rest) := by
  cases strip with
  | none => exact ⟨"", fun rest => .inl (by rw [Key.output, Key.unrooted_append])⟩
  | some lead =>
    by_cases hempty : lead = ""
    · -- Nothing is stripped, not even the slash.
      exact ⟨"", fun rest => .inr (by rw [hempty, Key.output_empty, String.empty_append])⟩
    · refine ⟨Key.rooted lead, fun rest => ?_⟩
      rw [Key.output_some hempty]
      cases hrest : Text.after? (Key.rooted lead) ("/" ++ rest) with
      | some tail => exact .inr (Text.after?_eq_some_iff.1 hrest)
      | none => exact .inl rfl

end Keys

section Lines

theorem lineFeedUnits_cons {u : Nat} {us : List Nat} (h : u ≠ 0x0D) :
    lineFeedUnits (u :: us) = u :: lineFeedUnits us := by
  rw [lineFeedUnits] <;> simp_all

theorem lineFeedUnits_return {us : List Nat} (h : us.head? ≠ some 0x0A) :
    lineFeedUnits (0x0D :: us) = 0x0A :: lineFeedUnits us := by
  rw [lineFeedUnits]
  rintro us' rfl
  exact h rfl

theorem head?_codeUnits_ne {cs : List Char} (h : ∀ rest, cs ≠ '\n' :: rest) :
    (codeUnits cs).head? ≠ some 0x0A := by
  cases cs with
  | nil => simp
  | cons c cs =>
    rcases charUnits_cases c with ⟨hc, -⟩ | ⟨first, second, hc, hfirst, -⟩
    · rw [codeUnits_cons, hc]
      intro heq
      have hline : c = '\n' := Char.toNat_inj.1 (Option.some.inj heq)
      exact h cs (by rw [hline])
    · rw [codeUnits_cons, hc]
      intro heq
      have := Option.some.inj heq
      omega

/-- Both write every line ending as LF. -/
theorem lineFeedUnits_codeUnits (cs : List Char) :
    lineFeedUnits (codeUnits cs) = codeUnits (lineFeedChars cs) := by
  rw [lineFeedChars]
  fun_induction joinPairs cs with
  | case1 => rfl
  | case2 cs ih =>
    have hstart : codeUnits ('\r' :: '\n' :: cs) = 0x0D :: 0x0A :: codeUnits cs := rfl
    rw [hstart, lineFeedUnits, ih, List.map_cons, codeUnits_cons]
    rfl
  | case3 c cs hpair ih =>
    rw [codeUnits_cons, List.map_cons, codeUnits_cons, ← ih]
    by_cases hreturn : c = '\r'
    · subst hreturn
      rw [if_pos rfl]
      exact lineFeedUnits_return (head?_codeUnits_ne fun rest hrest => hpair rest rfl hrest)
    · rw [if_neg hreturn]
      have hne : c.toNat ≠ 0x0D := fun heq => hreturn (Char.toNat_inj.1 heq)
      rcases charUnits_cases c with ⟨hc, -⟩ | ⟨first, second, hc, hfirst, -, hsecond⟩
      · rw [hc, List.singleton_append, lineFeedUnits_cons hne, List.singleton_append]
      · rw [hc, List.cons_append, List.cons_append, List.nil_append,
          lineFeedUnits_cons (by omega), lineFeedUnits_cons]
        · rfl
        · rw [IsTrail] at hsecond
          omega

end Lines

section Winners

/-- The last of those with a property comes after all others of them. -/
theorem of_getLast?_filter {α : Type} {R : α → α → Prop} {p : α → Bool} {xs : List α} {w : α}
    (hxs : xs.Pairwise R) (h : (xs.filter p).getLast? = some w) :
    w ∈ xs ∧ p w = true ∧ ∀ x ∈ xs, p x = true → x = w ∨ R x w := by
  obtain ⟨front, hfront⟩ := List.getLast?_eq_some_iff.1 h
  obtain ⟨hw, hpw⟩ := List.mem_filter.1 (hfront ▸ List.mem_append_right front (List.mem_singleton_self w))
  refine ⟨hw, hpw, fun x hx hpx => ?_⟩
  have hpairs := hxs.filter p
  rw [hfront, List.pairwise_append] at hpairs
  rcases List.mem_append.1 (hfront ▸ List.mem_filter.2 ⟨hx, hpx⟩) with hx | hx
  · exact .inr (hpairs.2.2 x hx w (List.mem_singleton_self w))
  · exact .inl (List.mem_singleton.1 hx)

variable {strip : Option String} {texts : Path → String} {files : List SourceFile} {key : String}

def byUnits (files : List SourceFile) : List SourceFile :=
  files.mergeSort fun f g => decide (unitsOf f.canonicalKey ≤ unitsOf g.canonicalKey)

theorem pairwise_byUnits (files : List SourceFile) :
    (byUnits files).Pairwise fun f g => unitsOf f.canonicalKey ≤ unitsOf g.canonicalKey := by
  have hsorted := @List.pairwise_mergeSort _
    (fun f g : SourceFile => decide (unitsOf f.canonicalKey ≤ unitsOf g.canonicalKey))
    (fun f g h hfg hgh => by
      simp only [decide_eq_true_eq] at hfg hgh ⊢
      exact le_trans hfg hgh)
    (fun f g => by simpa using le_total (unitsOf f.canonicalKey) (unitsOf g.canonicalKey)) files
  simpa [byUnits] using hsorted

theorem assign_of_ne {o : Object} {name value other : List Nat} (h : name ≠ unitsOf "__proto__") :
    o.assign name value other = if other = name then some value else o other := by
  rw [Object.assign, if_neg h]

/-- The last text that is assigned to a property stays. -/
theorem foldl_assign {α : Type} (name value : α → List Nat) (as : List α) (o : Object)
    {other : List Nat} (h : other ≠ unitsOf "__proto__") :
    as.foldl (fun o a => o.assign (name a) (value a)) o other
      = ((as.filter fun a => name a == other).getLast?.map value).or (o other) := by
  induction as generalizing o with
  | nil => rfl
  | cons a as ih =>
    rw [List.foldl_cons, ih]
    by_cases hname : name a = other
    · rw [assign_of_ne (hname ▸ h), if_pos hname.symm, List.filter_cons_of_pos (by simpa using hname),
        List.getLast?_cons]
      cases (as.filter fun a => name a == other).getLast? <;> rfl
    · rw [List.filter_cons_of_neg (by simpa using hname)]
      have hkept : o.assign (name a) (value a) other = o other := by
        rw [Object.assign]
        split
        · rfl
        · exact if_neg (Ne.symm hname)
      rw [hkept]

theorem foldl_assign_proto {α : Type} (name value : α → List Nat) (as : List α) (o : Object) :
    as.foldl (fun o a => o.assign (name a) (value a)) o (unitsOf "__proto__")
      = o (unitsOf "__proto__") := by
  induction as generalizing o with
  | nil => rfl
  | cons a as ih =>
    rw [List.foldl_cons, ih, Object.assign]
    split
    · rfl
    next hname => exact if_neg (Ne.symm hname)

theorem merged_batchOf (strip : Option (List Nat)) (texts : Path → String) (files : List SourceFile) :
    merged strip (batchOf texts files) = (byUnits files).foldl
      (fun (o : Object) f => o.assign (toOutputKey strip (unitsOf f.canonicalKey))
        (lineFeedUnits (unitsOf (texts f.path)))) fun _ => none := by
  have hsorted : (batchOf texts files).mergeSort (fun a b => decide (a.1 ≤ b.1))
      = batchOf texts (byUnits files) := by
    rw [batchOf, batchOf, byUnits, List.map_mergeSort]
    exact fun _ _ _ _ => rfl
  rw [merged, hsorted, batchOf, List.foldl_map]

/-- The object holds the text of the file that comes last by code units. -/
theorem merged_apply (hfiles : ∀ f ∈ files, f.outputKey = Key.output strip f.canonicalKey)
    (hkey : key ≠ "__proto__") :
    merged (strip.map unitsOf) (batchOf texts files) (unitsOf key)
      = ((byUnits files).filter fun f => f.outputKey == key).getLast?.map
          fun f => unitsOf (lineFeeds (texts f.path)) := by
  have hname : unitsOf key ≠ unitsOf "__proto__" := mt unitsOf_inj.1 hkey
  have hfilter : ((byUnits files).filter fun f =>
        toOutputKey (strip.map unitsOf) (unitsOf f.canonicalKey) == unitsOf key)
      = (byUnits files).filter fun f => f.outputKey == key := by
    refine List.filter_congr fun f hf => ?_
    rw [toOutputKey_unitsOf, ← hfiles f (List.mem_mergeSort.1 hf), Bool.eq_iff_iff, beq_iff_eq,
      beq_iff_eq, unitsOf_inj]
  have hlines : (fun f : SourceFile => lineFeedUnits (unitsOf (texts f.path)))
      = fun f => unitsOf (lineFeeds (texts f.path)) := by
    funext f
    rw [unitsOf, lineFeedUnits_codeUnits, unitsOf, lineFeeds, String.toList_ofList]
  rw [merged_batchOf, foldl_assign _ _ _ _ hname, hfilter, hlines, Option.or_none]

theorem ownText?_merge (texts : Path → String) (files : List SourceFile) (key : String) :
    ownText? (Entry.merge (files.map (SourceFile.entryOf texts))) (unitsOf key)
      = (files.filter fun f => f.outputKey == key).getLast?.map
          fun f => unitsOf (lineFeeds (texts f.path)) := by
  have hfind : ∀ es : List Entry,
      (es.find? fun e => unitsOf e.key == unitsOf key) = Entry.find? key es := by
    intro es
    refine congrArg (List.find? · es) (funext fun e => ?_)
    rw [Bool.eq_iff_iff, beq_iff_eq, beq_iff_eq, unitsOf_inj]
  rw [ownText?, hfind, Entry.find?_merge, List.filter_map, List.getLast?_map, Option.map_map]
  rfl

theorem merged_eq_ownText?_of_ne {name : List Nat} (hname : ∀ key, unitsOf key ≠ name)
    (entries : List Entry) :
    merged (strip.map unitsOf) (batchOf texts files) name = ownText? entries name := by
  have hnone : (entries.find? fun e => unitsOf e.key == name) = none := by
    simp [List.find?_eq_none, hname]
  have hfilter : ((byUnits files).filter fun f =>
      toOutputKey (strip.map unitsOf) (unitsOf f.canonicalKey) == name) = [] := by
    simp [List.filter_eq_nil_iff, toOutputKey_unitsOf, hname]
  rw [ownText?, hnone, merged_batchOf, foldl_assign _ _ _ _ fun heq => hname _ heq.symm, hfilter]
  rfl

end Winners

section Served

variable {root : Path} {strip : Option String} {files : List SourceFile} {f g : SourceFile}

/-- The object and the entries of the files hold the same texts, whatever the files hold. -/
def ServesEntries (strip : Option String) (files : List SourceFile) : Prop :=
  ∀ texts : Path → String, ∃ entries collisions,
    (SourceFile.readAll files).run.run (SourceFile.holding texts) ()
        = (.ok (entries, collisions), ()) ∧
      ∀ name, merged (strip.map unitsOf) (batchOf texts files) name = ownText? entries name

theorem eq_of_canonicalKey_eq (hsorted : files.Pairwise fun f g => f.canonicalKey < g.canonicalKey)
    (hf : f ∈ files) (hg : g ∈ files) (h : f.canonicalKey = g.canonicalKey) : f = g := by
  have hnodup : (files.map SourceFile.canonicalKey).Nodup :=
    List.pairwise_map.2 (hsorted.imp fun hlt => ne_of_lt hlt)
  exact List.inj_on_of_nodup_map hnodup hf hg h

/-- Where none of the files with a property are disputed, the same one of them is last by code units. -/
theorem last_byUnits_eq (hsorted : files.Pairwise fun f g => f.canonicalKey < g.canonicalKey)
    {p : SourceFile → Bool}
    (hundisputed : ∀ f ∈ files, ∀ g ∈ files, p f = true → p g = true →
      ¬ Disputed f.canonicalKey.toList g.canonicalKey.toList) :
    ((byUnits files).filter p).getLast? = (files.filter p).getLast? := by
  have hperm : ((byUnits files).filter p).Perm (files.filter p) :=
    (List.mergeSort_perm files _).filter p
  cases hlast : (files.filter p).getLast? with
  | none => rw [List.getLast?_eq_none_iff] at hlast ⊢; exact (hlast ▸ hperm).eq_nil
  | some w =>
    cases hlast' : ((byUnits files).filter p).getLast? with
    | none =>
      rw [List.getLast?_eq_none_iff.1 hlast'] at hperm
      rw [hperm.symm.eq_nil] at hlast
      cases hlast
    | some w' =>
      obtain ⟨hw, hpw, hafter⟩ := of_getLast?_filter hsorted hlast
      obtain ⟨hw', hpw', hafter'⟩ := of_getLast?_filter (pairwise_byUnits files) hlast'
      rw [byUnits, List.mem_mergeSort] at hw'
      rcases hafter w' hw' hpw' with rfl | hlt
      · rfl
      · have hunits := (codeUnits_lt_iff (String.lt_iff_toList_lt.1 hlt)).2
          (hundisputed w' hw' w hw hpw' hpw)
        rcases hafter' w (List.mem_mergeSort.2 hw) hpw with rfl | hle
        · rfl
        · exact absurd hunits (not_lt_of_ge hle)

/-- If the texts are the same, the files that come last are. -/
theorem last_eq_of_servesEntries (hfiles : ∀ f ∈ files, f = SourceFile.ofPath root strip f.path)
    (h : ServesEntries strip files) {key : String} (hkey : key ≠ "__proto__") {w w' : SourceFile}
    (hw : (files.filter fun f => f.outputKey == key).getLast? = some w)
    (hw' : ((byUnits files).filter fun f => f.outputKey == key).getLast? = some w') : w' = w := by
  -- The text "a" at the path of the one is found by the other only if it has this path too.
  let texts : Path → String := fun p => if p = w.path then "a" else "b"
  obtain ⟨entries, collisions, hrun, hsame⟩ := h texts
  rw [SourceFile.run_readAll] at hrun
  obtain ⟨rfl, -⟩ := Prod.mk.inj (Except.ok.inj (Prod.mk.inj hrun).1)
  have hkeys : ∀ f ∈ files, f.outputKey = Key.output strip f.canonicalKey := by
    intro f hf
    rw [hfiles f hf]
    rfl
  have heq := hsame (unitsOf key)
  rw [merged_apply hkeys hkey, ownText?_merge, hw, hw', Option.map_some, Option.map_some,
    Option.some.injEq, unitsOf_inj] at heq
  have hpath : w'.path = w.path := by
    by_contra hne
    simp only [texts, if_pos, if_neg hne] at heq
    revert heq
    decide
  obtain ⟨hmem, -⟩ := List.mem_filter.1 (List.mem_of_getLast? hw)
  obtain ⟨hmem', -⟩ := List.mem_filter.1 (List.mem_of_getLast? hw')
  rw [hfiles w hmem, hfiles w' (List.mem_mergeSort.1 hmem'), hpath]

theorem ne_proto_of_servesEntries (h : ServesEntries strip files) (hf : f ∈ files) :
    f.outputKey ≠ "__proto__" := by
  intro hproto
  obtain ⟨entries, collisions, hrun, hsame⟩ := h fun _ => ""
  rw [SourceFile.run_readAll] at hrun
  obtain ⟨rfl, -⟩ := Prod.mk.inj (Except.ok.inj (Prod.mk.inj hrun).1)
  have heq := hsame (unitsOf "__proto__")
  rw [merged_batchOf, foldl_assign_proto, ownText?_merge] at heq
  have hmem : f ∈ files.filter fun f => f.outputKey == "__proto__" :=
    List.mem_filter.2 ⟨hf, by simpa using hproto⟩
  cases hlast : (files.filter fun f => f.outputKey == "__proto__").getLast? with
  | none =>
    rw [List.getLast?_eq_none_iff.1 hlast] at hmem
    cases hmem
  | some w =>
    rw [hlast] at heq
    cases heq

/-- No more than two canonical keys have the same output key. -/
theorem canonicalKey_eq_or_eq {x : SourceFile}
    (hfiles : ∀ f ∈ files, f = SourceFile.ofPath root strip f.path) (hf : f ∈ files) (hg : g ∈ files)
    (hx : x ∈ files) (hfg : f.outputKey = g.outputKey) (hxg : x.outputKey = g.outputKey)
    (hne : f.canonicalKey ≠ g.canonicalKey) :
    x.canonicalKey = f.canonicalKey ∨ x.canonicalKey = g.canonicalKey := by
  obtain ⟨lead, hlead⟩ := exists_lead strip
  have hcases : ∀ x ∈ files, x.outputKey = g.outputKey →
      x.canonicalKey = "/" ++ g.outputKey ∨ x.canonicalKey = lead ++ g.outputKey := by
    intro x hx hxkey
    have hxrest := hlead (Path.slashed (Path.relative root x.path))
    rw [← hxkey, hfiles x hx]
    exact hxrest
  rcases hcases x hx hxg with hx | hx <;> rcases hcases f hf hfg with hf | hf <;>
    rcases hcases g hg rfl with hg | hg
  all_goals first
    | exact .inl (hx.trans hf.symm)
    | exact .inr (hx.trans hg.symm)
    | exact absurd (hf.trans hg.symm) hne

theorem not_disputed_of_servesEntries (hfiles : ∀ f ∈ files, f = SourceFile.ofPath root strip f.path)
    (hsorted : files.Pairwise fun f g => f.canonicalKey < g.canonicalKey)
    (h : ServesEntries strip files) (hf : f ∈ files) (hg : g ∈ files)
    (hkey : f.outputKey = g.outputKey) :
    ¬ Disputed f.canonicalKey.toList g.canonicalKey.toList := by
  intro hdisputed
  have hlt : f.canonicalKey < g.canonicalKey := String.lt_iff_toList_lt.2 hdisputed.lt
  have hproto := ne_proto_of_servesEntries h hg
  -- The file that comes last comes last in both orders.
  have hmem : ∀ {x}, x ∈ files.filter (fun f => f.outputKey == g.outputKey) ↔
      x ∈ (byUnits files).filter fun f => f.outputKey == g.outputKey := by
    intro x
    rw [List.mem_filter, List.mem_filter, byUnits, List.mem_mergeSort]
  have hg' : g ∈ files.filter fun f => f.outputKey == g.outputKey :=
    List.mem_filter.2 ⟨hg, beq_self_eq_true _⟩
  obtain ⟨w, hlast⟩ := Option.ne_none_iff_exists'.1
    (mt List.getLast?_eq_none_iff.1 (List.ne_nil_of_mem hg'))
  obtain ⟨w', hlast'⟩ := Option.ne_none_iff_exists'.1
    (mt List.getLast?_eq_none_iff.1 (List.ne_nil_of_mem (hmem.1 hg')))
  obtain rfl := last_eq_of_servesEntries hfiles h hproto hlast hlast'
  obtain ⟨hw, hpw, hafter⟩ := of_getLast?_filter hsorted hlast
  obtain ⟨-, -, hafter'⟩ := of_getLast?_filter (pairwise_byUnits files) hlast'
  have hwkey : w'.outputKey = g.outputKey := beq_iff_eq.1 hpw
  -- That file is `g`, since `f` is before `g` and the two have all keys there are.
  have hne : f.canonicalKey ≠ g.canonicalKey := ne_of_lt hlt
  have hwf : w'.canonicalKey ≠ f.canonicalKey := by
    intro heq
    rcases hafter g hg (beq_self_eq_true _) with rfl | hlast
    · exact hne heq.symm
    · exact lt_asymm (heq ▸ hlast) hlt
  have hwg : w'.canonicalKey = g.canonicalKey :=
    (canonicalKey_eq_or_eq hfiles hf hg hw hkey hwkey hne).resolve_left hwf
  obtain rfl := eq_of_canonicalKey_eq hsorted hw hg hwg
  have hnot := mt (codeUnits_lt_iff hdisputed.lt).1 (not_not_intro hdisputed)
  have hfkey : (f.outputKey == w'.outputKey) = true := by simpa using hkey
  rcases hafter' f (List.mem_mergeSort.2 hf) hfkey with rfl | hle
  · exact lt_irrefl _ hlt
  · have heq : unitsOf f.canonicalKey = unitsOf w'.canonicalKey := eq_of_le_of_not_lt hle hnot
    exact ne_of_lt hlt (unitsOf_inj.1 heq)

/-- The object and the entries hold the same texts exactly if no two files with one output key come in
another order by code units, and no file has the output key that takes no text. -/
theorem servesEntries_iff (hfiles : ∀ f ∈ files, f = SourceFile.ofPath root strip f.path)
    (hsorted : files.Pairwise fun f g => f.canonicalKey < g.canonicalKey) :
    ServesEntries strip files ↔
      (∀ f ∈ files, ∀ g ∈ files, f.outputKey = g.outputKey →
        ¬ Disputed f.canonicalKey.toList g.canonicalKey.toList) ∧
      ∀ f ∈ files, f.outputKey ≠ "__proto__" := by
  refine ⟨fun h => ⟨fun f hf g hg hkey => not_disputed_of_servesEntries hfiles hsorted h hf hg hkey,
    fun f hf => ne_proto_of_servesEntries h hf⟩, ?_⟩
  rintro ⟨hundisputed, hproto⟩ texts
  refine ⟨_, _, SourceFile.run_readAll texts files, fun name => ?_⟩
  by_cases hname : ∃ key, unitsOf key = name
  · obtain ⟨key, rfl⟩ := hname
    rw [ownText?_merge]
    by_cases hkey : key = "__proto__"
    · subst hkey
      have hnone : (files.filter fun f => f.outputKey == "__proto__") = [] := by
        simpa [List.filter_eq_nil_iff] using hproto
      rw [merged_batchOf, foldl_assign_proto, hnone]
      rfl
    · have hkeys : ∀ f ∈ files, f.outputKey = Key.output strip f.canonicalKey := by
        intro f hf
        rw [hfiles f hf]
        rfl
      rw [merged_apply hkeys hkey, last_byUnits_eq hsorted]
      intro f hf g hg hfkey hgkey
      exact hundisputed f hf g hg ((beq_iff_eq.1 hfkey).trans (beq_iff_eq.1 hgkey).symm)
  · exact merged_eq_ownText?_of_ne (fun key hkey => hname ⟨key, hkey⟩) _

end Served

section Sample

/-! Two files of one output key, the second one below the directory that is stripped. -/

/-- A file of this name in `/r`, and one in a directory of `/r`. -/
def twoFiles (directory name : String) : List SourceFile :=
  [⟨"/r/" ++ name⟩, ⟨"/r/" ++ directory ++ "/" ++ name⟩].map
    (SourceFile.ofPath ⟨"/r"⟩ (some ("/" ++ directory ++ "/")))

theorem servesEntries_of_letters : ServesEntries (some "/src/") (twoFiles "src" "a.md") := by
  have hfiles : ∀ f ∈ twoFiles "src" "a.md",
      f = SourceFile.ofPath ⟨"/r"⟩ (some "/src/") f.path := by decide +kernel
  have hsorted : (twoFiles "src" "a.md").Pairwise fun f g => f.canonicalKey < g.canonicalKey := by
    decide +kernel
  have hall : ((twoFiles "src" "a.md").all fun f =>
      f.canonicalKey.toList.all fun c => decide (c.toNat < 0x10000)) = true := by decide +kernel
  have hsmall : ∀ f ∈ twoFiles "src" "a.md", ∀ c ∈ f.canonicalKey.toList, c.toNat < 0x10000 := by
    simpa only [List.all_eq_true, decide_eq_true_eq] using hall
  refine (servesEntries_iff hfiles hsorted).2 ⟨?_, by decide +kernel⟩
  exact fun f _ g hg _ => not_disputed_of_forall_lt (hsmall g hg)

/-- A full-width mark in the one name and an emoji in the other: both files have one output key, and the
object holds the text of the file that the entries have overridden. -/
theorem not_servesEntries_of_emoji : ¬ ServesEntries (some "/😀/") (twoFiles "😀" "！.md") := by
  have hfiles : ∀ f ∈ twoFiles "😀" "！.md",
      f = SourceFile.ofPath ⟨"/r"⟩ (some "/😀/") f.path := by decide +kernel
  have hsorted : (twoFiles "😀" "！.md").Pairwise fun f g => f.canonicalKey < g.canonicalKey := by
    decide +kernel
  intro h
  refine not_disputed_of_servesEntries hfiles hsorted h (f := ⟨⟨"/r/！.md"⟩, "/！.md", "！.md"⟩)
    (g := ⟨⟨"/r/😀/！.md"⟩, "/😀/！.md", "！.md"⟩) (by decide +kernel) (by decide +kernel) rfl ?_
  exact ⟨['/'], '！', '😀', ".md".toList, "/！.md".toList, by decide, by decide, by decide, by decide,
    by decide⟩

end Sample

end TextCatalog.Artifact.Reader
