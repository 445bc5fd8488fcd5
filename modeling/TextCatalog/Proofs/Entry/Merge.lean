import Mathlib.Data.List.Induction
import Mathlib.Data.Option.Basic
import TextCatalog.Entry
import TextCatalog.Proofs.Placeholder.Splice

/-!
# Merging entries

An entry that is put into a list takes the place of the one with its key, or comes last if there is
none. Merging looks the place up, which is sound because the places that are kept are those of the keys
and no others. So a merged list has each key where it first came, with the last of its contents, and no
other list is like that. What is merged can be merged again, alone or with more behind it.
-/

namespace TextCatalog

/-- The last element of a list with a property has it, and none behind it does. -/
theorem getLast?_filter_eq_some_iff {α : Type} {p : α → Bool} {xs : List α} {x : α} :
    (xs.filter p).getLast? = some x ↔
      p x = true ∧ ∃ front later, xs = front ++ x :: later ∧ ∀ y ∈ later, p y = false := by
  rw [← List.head?_reverse, ← List.filter_reverse, List.head?_filter, List.find?_eq_some_iff_append]
  refine and_congr_right fun _ => ?_
  constructor
  · rintro ⟨later, front, hxs, hlater⟩
    refine ⟨front.reverse, later.reverse, ?_, by simpa using hlater⟩
    rw [← List.reverse_reverse xs, hxs]
    simp
  · rintro ⟨front, later, rfl, hlater⟩
    exact ⟨later.reverse, front.reverse, by simp, by simpa using hlater⟩

theorem getElem?_concat_eq_some_iff {α : Type} {xs : List α} {x y : α} {i : Nat} :
    (xs ++ [x])[i]? = some y ↔ xs[i]? = some y ∨ i = xs.length ∧ x = y := by
  rcases Nat.lt_trichotomy i xs.length with hlt | rfl | hgt
  · rw [List.getElem?_append_left hlt]
    simp [Nat.ne_of_lt hlt]
  · simp
  · rw [List.getElem?_eq_none (by simpa using Nat.succ_le_of_lt hgt),
      List.getElem?_eq_none (Nat.le_of_lt hgt)]
    simp [Nat.ne_of_gt hgt]

end TextCatalog

namespace TextCatalog.Placeholder.ListsFirsts

/-- Only one list has the firsts of another in their order. -/
theorem unique {all names names' : List String} (h : ListsFirsts all names)
    (h' : ListsFirsts all names') : names = names' := by
  have hperm : names.Perm names' :=
    (List.perm_ext_iff_of_nodup h.nodup h'.nodup).2 fun name => (h.mem_iff name).trans (h'.mem_iff name).symm
  refine hperm.eq_of_pairwise (fun a b _ _ hab hba => ?_) h.inOrder h'.inOrder
  exact absurd hab (Nat.lt_asymm hba)

end TextCatalog.Placeholder.ListsFirsts

namespace TextCatalog.Entry

open Placeholder

/-- The entry is the last one of the list with its key. -/
def IsLastIn (e : Entry) (es : List Entry) : Prop :=
  ∃ front later, es = front ++ e :: later ∧ ∀ x ∈ later, x.key ≠ e.key

variable {key : String} {e : Entry} {es : List Entry}

section Find

theorem find?_cons : find? key (e :: es) = if e.key = key then some e else find? key es := by
  by_cases h : e.key = key <;> simp [find?, h]

theorem find?_eq_some_of_mem (hnodup : (es.map Entry.key).Nodup) (he : e ∈ es) :
    find? e.key es = some e := by
  induction es with
  | nil => simp at he
  | cons x xs ih =>
    obtain ⟨hx, hxs⟩ := List.nodup_cons.1 hnodup
    rw [find?_cons]
    rcases List.mem_cons.1 he with rfl | he
    · rw [if_pos rfl]
    · have hne : x.key ≠ e.key := fun heq => hx (heq ▸ List.mem_map_of_mem he)
      rw [if_neg hne, ih hxs he]

theorem of_find?_eq_some (h : find? key es = some e) : e ∈ es ∧ e.key = key :=
  ⟨List.mem_of_find?_eq_some h, by simpa using List.find?_some h⟩

theorem isLastIn_iff : IsLastIn e es ↔ (es.filter fun x => x.key == e.key).getLast? = some e := by
  rw [getLast?_filter_eq_some_iff]
  simp [IsLastIn]

end Find

section Put

/-- Replaces the entry with the key of `e`, or appends `e` if there is none. -/
def put (e : Entry) : List Entry → List Entry
  | [] => [e]
  | x :: xs => if x.key = e.key then e :: xs else x :: put e xs

/-- An entry is put where its key stands, and behind all others if its key is new. -/
theorem put_eq (e : Entry) (es : List Entry) :
    put e es = if e.key ∈ es.map Entry.key then es.set ((es.map Entry.key).idxOf e.key) e
      else es ++ [e] := by
  induction es with
  | nil => rfl
  | cons x xs ih =>
    rw [put, List.map_cons]
    by_cases hsame : x.key = e.key
    · simp [hsame]
    · have hmem : e.key ∈ x.key :: xs.map Entry.key ↔ e.key ∈ xs.map Entry.key := by
        simp [Ne.symm hsame]
      simp only [hsame, if_false, hmem, List.idxOf_cons_ne _ hsame, ih]
      split <;> rfl

theorem map_key_put :
    (put e es).map Entry.key
      = if e.key ∈ es.map Entry.key then es.map Entry.key else es.map Entry.key ++ [e.key] := by
  rw [put_eq]
  split
  next hmem =>
    have hlt := List.idxOf_lt_length_of_mem hmem
    have hself := List.set_getElem_self hlt
    rw [List.getElem_idxOf hlt] at hself
    rw [List.map_set, hself]
  next => exact List.map_append

theorem find?_put : find? key (put e es) = if e.key = key then some e else find? key es := by
  induction es with
  | nil => exact find?_cons
  | cons x xs ih =>
    rw [put]
    split
    next hsame =>
      rw [find?_cons, find?_cons, hsame]
      split <;> rfl
    next hdiffer =>
      rw [find?_cons, find?_cons, ih]
      by_cases h : e.key = key
      · have hx : x.key ≠ key := fun hx => hdiffer (hx.trans h.symm)
        simp [h, hx]
      · simp [h]

end Put

section Places

/-- The places are those of the keys. As a key has one place at most, the keys differ. -/
def Placed.IsIndexed (p : Placed) : Prop :=
  ∀ key i, p.places.lookup key = some i ↔ (p.entries.map Entry.key)[i]? = some key

variable {p : Placed}

theorem Placed.IsIndexed.lookup_eq_none_iff (h : p.IsIndexed) :
    p.places.lookup key = none ↔ key ∉ p.entries.map Entry.key := by
  rw [Option.eq_none_iff_forall_ne_some, List.mem_iff_getElem?, not_exists]
  exact forall_congr' fun i => not_congr (h key i)

theorem Placed.IsIndexed.add (h : p.IsIndexed) (e : Entry) : (p.add e).IsIndexed := by
  intro key i
  rw [Placed.add]
  split
  next j hplace =>
    obtain ⟨hlt, hkey⟩ := List.getElem?_eq_some_iff.1 ((h e.key j).1 hplace)
    rw [List.map_set, ← hkey, List.set_getElem_self hlt]
    exact h key i
  next hnone =>
    have hnew := h.lookup_eq_none_iff.1 hnone
    rw [List.map_append, List.map_singleton, getElem?_concat_eq_some_iff, List.length_map,
      List.lookup_cons]
    by_cases hsame : key = e.key
    · subst hsame
      have hnowhere : (p.entries.map Entry.key)[i]? ≠ some e.key :=
        fun hi => hnew (List.mem_of_getElem? hi)
      rw [beq_self_eq_true]
      simp only [hnowhere, false_or, and_true, Option.some.injEq]
      exact eq_comm
    · rw [beq_eq_false_iff_ne.2 hsame]
      simp only [Ne.symm hsame, and_false, or_false]
      exact h key i

/-- The place that is kept is the one where the entry is put. -/
theorem Placed.IsIndexed.entries_add (h : p.IsIndexed) (e : Entry) :
    (p.add e).entries = put e p.entries := by
  rw [put_eq, Placed.add]
  split
  next i hplace =>
    have hmem : e.key ∈ p.entries.map Entry.key := List.mem_of_getElem? ((h e.key i).1 hplace)
    have hlt := List.idxOf_lt_length_of_mem hmem
    have hfirst : p.places.lookup e.key = some ((p.entries.map Entry.key).idxOf e.key) :=
      (h _ _).2 (List.getElem?_eq_some_iff.2 ⟨hlt, List.getElem_idxOf hlt⟩)
    rw [if_pos hmem, Option.some.inj (hplace.symm.trans hfirst)]
  next hnone => rw [if_neg (h.lookup_eq_none_iff.1 hnone)]

theorem Placed.IsIndexed.foldl_add (h : p.IsIndexed) (es : List Entry) :
    (es.foldl Placed.add p).IsIndexed ∧
      (es.foldl Placed.add p).entries = es.foldl (fun acc e => put e acc) p.entries := by
  induction es generalizing p with
  | nil => exact ⟨h, rfl⟩
  | cons e es ih =>
    rw [List.foldl_cons, List.foldl_cons, ← h.entries_add e]
    exact ih (h.add e)

/-- Merging puts the entries one after another. -/
theorem merge_eq_foldl (es : List Entry) : merge es = es.foldl (fun acc e => put e acc) [] := by
  have hindexed : Placed.IsIndexed ⟨[], []⟩ := by simp [Placed.IsIndexed]
  exact (hindexed.foldl_add es).2

end Places

section Merge

theorem merge_append (es more : List Entry) :
    merge (es ++ more) = more.foldl (fun acc e => put e acc) (merge es) := by
  rw [merge_eq_foldl, merge_eq_foldl, List.foldl_append]

theorem merge_concat (es : List Entry) (e : Entry) : merge (es ++ [e]) = put e (merge es) :=
  merge_append es [e]

/-- The last entry with the key is found. -/
theorem find?_merge (key : String) (es : List Entry) :
    find? key (merge es) = (es.filter fun e => e.key == key).getLast? := by
  induction es using List.reverseRecOn with
  | nil => rfl
  | append_singleton es e ih =>
    rw [merge_concat, find?_put, ih, List.filter_append]
    by_cases h : e.key = key
    · simp [h]
    · simp [h]

theorem map_key_foldl_put (es acc : List Entry) :
    (es.foldl (fun acc e => put e acc) acc).map Entry.key
      = acc.map Entry.key
        ++ (Placeholder.distinct (es.map Entry.key)).filter (· ∉ acc.map Entry.key) := by
  induction es generalizing acc with
  | nil => simp [Placeholder.distinct]
  | cons e es ih =>
    rw [List.foldl_cons, ih, map_key_put, List.map_cons, Placeholder.distinct]
    by_cases hmem : e.key ∈ acc.map Entry.key
    · rw [if_pos hmem, List.filter_cons_of_neg (by simpa using hmem), List.filter_filter]
      refine congrArg _ (List.filter_congr fun k _ => ?_)
      by_cases hk : k = e.key
      · subst hk
        simp [hmem]
      · simp [hk]
    · rw [if_neg hmem, List.filter_cons_of_pos (by simpa using hmem), List.filter_filter,
        List.append_assoc, List.singleton_append]
      refine congrArg (fun ks => _ ++ e.key :: ks) (List.filter_congr fun k _ => ?_)
      by_cases hk : k = e.key <;> simp [hk]

/-- The keys of merged entries are those that were there, each where it first was. -/
theorem map_key_merge (es : List Entry) :
    (merge es).map Entry.key = Placeholder.distinct (es.map Entry.key) := by
  rw [merge_eq_foldl, map_key_foldl_put]
  simp

theorem listsFirsts_merge (es : List Entry) :
    ListsFirsts (es.map Entry.key) ((merge es).map Entry.key) := by
  rw [map_key_merge]
  exact listsFirsts_distinct _

theorem nodup_map_key_merge (es : List Entry) : ((merge es).map Entry.key).Nodup :=
  (listsFirsts_merge es).nodup

theorem mem_merge_iff : e ∈ merge es ↔ IsLastIn e es := by
  rw [isLastIn_iff, ← find?_merge]
  exact ⟨find?_eq_some_of_mem (nodup_map_key_merge es), fun h => (of_find?_eq_some h).1⟩

/-- Entries whose keys differ stay as they are. -/
theorem merge_eq_self (h : (es.map Entry.key).Nodup) : merge es = es := by
  induction es using List.reverseRecOn with
  | nil => rfl
  | append_singleton es e ih =>
    rw [List.map_append, List.nodup_append] at h
    obtain ⟨hes, -, hapart⟩ := h
    have hnew : e.key ∉ es.map Entry.key := fun hmem => hapart _ hmem _ (by simp) rfl
    rw [merge_concat, ih hes, put_eq, if_neg hnew]

theorem merge_merge (es : List Entry) : merge (merge es) = merge es :=
  merge_eq_self (nodup_map_key_merge es)

theorem merge_merge_append (es more : List Entry) : merge (merge es ++ more) = merge (es ++ more) := by
  rw [merge_append, merge_merge, merge_append]

/-- What has the right keys in the right order, each with its last content, is the merged list. -/
theorem eq_merge {merged : List Entry} (hkeys : ListsFirsts (es.map Entry.key) (merged.map Entry.key))
    (hlast : ∀ e ∈ merged, IsLastIn e es) : merged = merge es := by
  have hfound : ∀ {es' : List Entry}, (∀ e ∈ es', IsLastIn e es) →
      es'.map some = (es'.map Entry.key).map fun key => find? key (merge es) := by
    intro es' hes'
    rw [List.map_map]
    refine List.map_congr_left fun e he => ?_
    exact (find?_eq_some_of_mem (nodup_map_key_merge es) (mem_merge_iff.2 (hes' e he))).symm
  apply List.map_injective_iff.2 (Option.some_injective Entry)
  calc merged.map some
      = (merged.map Entry.key).map fun key => find? key (merge es) := hfound hlast
    _ = ((merge es).map Entry.key).map fun key => find? key (merge es) := by
      rw [hkeys.unique (listsFirsts_merge es)]
    _ = (merge es).map some := (hfound fun e he => mem_merge_iff.1 he).symm

/-- **Merging keeps the first place and the last content of each key.** The keys of a merged list are
all different and are those of the entries, in the order in which they first come, and what it holds
under each is the last entry with that key. It is the only such list. Merging it again changes nothing,
and entries may be merged before others are put behind them or together with these. -/
theorem merge_last_wins (es : List Entry) :
    ((merge es).map Entry.key).Nodup ∧
    ListsFirsts (es.map Entry.key) ((merge es).map Entry.key) ∧
    (∀ e, e ∈ merge es ↔ IsLastIn e es) ∧
    (∀ merged, merged = merge es ↔
      ListsFirsts (es.map Entry.key) (merged.map Entry.key) ∧ ∀ e ∈ merged, IsLastIn e es) ∧
    merge (merge es) = merge es ∧
    ∀ more, merge (es ++ more) = merge (merge es ++ more) := by
  refine ⟨nodup_map_key_merge es, listsFirsts_merge es, fun e => mem_merge_iff, fun merged => ?_,
    merge_merge es, fun more => (merge_merge_append es more).symm⟩
  constructor
  · rintro rfl
    exact ⟨listsFirsts_merge es, fun e he => mem_merge_iff.1 he⟩
  · rintro ⟨hkeys, hlast⟩
    exact eq_merge hkeys hlast

/-- A key that comes three times, with others in between. -/
theorem merge_last_wins_of_repeats :
    let es : List Entry := [⟨"k", "1"⟩, ⟨"m", "2"⟩, ⟨"k", "3"⟩, ⟨"", "4"⟩, ⟨"k", "5"⟩]
    merge es = [⟨"k", "5"⟩, ⟨"m", "2"⟩, ⟨"", "4"⟩] ∧ IsLastIn ⟨"k", "5"⟩ es ∧
      ListsFirsts ["k", "m", "k", "", "k"] ["k", "m", ""] ∧
      merge (es ++ [⟨"m", "6"⟩]) = merge [⟨"k", "5"⟩, ⟨"m", "2"⟩, ⟨"", "4"⟩, ⟨"m", "6"⟩] := by
  intro es
  have hmerge : merge es = [⟨"k", "5"⟩, ⟨"m", "2"⟩, ⟨"", "4"⟩] := by decide
  obtain ⟨-, hkeys, hlast, -, -, happend⟩ := merge_last_wins es
  have hmem : ⟨"k", "5"⟩ ∈ merge es := by simp [hmerge]
  have hmore := happend [⟨"m", "6"⟩]
  rw [hmerge] at hkeys hmore
  exact ⟨hmerge, (hlast _).1 hmem, hkeys, hmore⟩

end Merge

end TextCatalog.Entry
