import Mathlib.Data.List.Nodup
import TextCatalog.Toml.Parse

/-!
# The keys of a document

Every table of a document that can be read has at most one field of each name, however deep it
stands and in whatever way it was written. Each change that a line or a field in braces makes keeps
this, so it holds of the whole document, by induction on its lines.
-/

namespace TextCatalog.Toml

def Fields.names (fields : Fields) : List String :=
  fields.map fun field => field.1.name

/-- Every table in a value has at most one field of each name. -/
inductive Value.Keyed : Value → Prop where
  | string (text : String) : Keyed (.string text)
  | integer (value : Int) : Keyed (.integer value)
  | float (value : Binary64) : Keyed (.float value)
  | overflow : Keyed .overflow
  | boolean (value : Bool) : Keyed (.boolean value)
  | moment (text : List Char) : Keyed (.moment text)
  | array {items : List Item} (h : ∀ item ∈ items, Keyed item.2) : Keyed (.array items)
  | tables {items : List (Span × Fields)} (hn : ∀ item ∈ items, item.2.names.Nodup)
      (h : ∀ item ∈ items, ∀ field ∈ item.2, Keyed field.2.2) : Keyed (.tables items)
  | table {form : Form} {fields : Fields} (hn : fields.names.Nodup)
      (h : ∀ field ∈ fields, Keyed field.2.2) : Keyed (.table form fields)

namespace Fields

/-- The table has at most one field of each name, and so has every table in it. -/
structure Keyed (fields : Fields) : Prop where
  nodup : fields.names.Nodup
  values : ∀ field ∈ fields, field.2.2.Keyed

variable {fields inner : Fields} {path : List Key} {key : Key} {item : Item} {name : String}

theorem keyed_table_iff {form : Form} :
    (Value.table form fields).Keyed ↔ fields.Keyed :=
  ⟨fun h => by cases h with | table hn h => exact ⟨hn, h⟩, fun h => .table h.nodup h.values⟩

theorem keyed_tables_iff {items : List (Span × Fields)} :
    (Value.tables items).Keyed ↔ ∀ item ∈ items, item.2.Keyed :=
  ⟨fun h item hm => by cases h with | tables hn h => exact ⟨hn item hm, h item hm⟩,
    fun h => .tables (fun item hm => (h item hm).nodup) fun item hm => (h item hm).values⟩

theorem keyed_nil : Keyed [] :=
  ⟨.nil, fun _ h => absurd h List.not_mem_nil⟩

theorem keyed_cons_iff {field : Key × Item} :
    Keyed (field :: fields) ↔ field.1.name ∉ fields.names ∧ field.2.2.Keyed ∧ fields.Keyed := by
  refine ⟨fun h => ?_, fun ⟨hfresh, hv, h⟩ => ?_⟩
  · have ⟨hfresh, hn⟩ := List.nodup_cons.1 h.nodup
    have ⟨hv, hs⟩ := List.forall_mem_cons.1 h.values
    exact ⟨hfresh, hv, hn, hs⟩
  · exact ⟨List.nodup_cons.2 ⟨hfresh, h.nodup⟩, List.forall_mem_cons.2 ⟨hv, h.values⟩⟩

theorem Keyed.perm {other : Fields} (hf : fields.Keyed) (h : fields.Perm other) : other.Keyed :=
  ⟨(h.map _).nodup_iff.1 hf.nodup, fun field hm => hf.values field (h.mem_iff.2 hm)⟩

theorem find?_eq_none_iff : find? name fields = none ↔ name ∉ fields.names := by
  induction fields with
  | nil => simp [find?, names]
  | cons field fields ih =>
    obtain ⟨key, item⟩ := field
    rw [find?, names, List.map_cons, List.mem_cons]
    by_cases h : key.name = name
    · simp [h]
    · rw [if_neg h, ih, names, eq_comm (a := name), not_or]
      exact ⟨fun hn => ⟨h, hn⟩, fun hn => hn.2⟩

theorem exists_mem_of_find? (h : find? name fields = some item) :
    ∃ key, key.name = name ∧ (key, item) ∈ fields := by
  induction fields with
  | nil => simp [find?] at h
  | cons field fields ih =>
    obtain ⟨key, value⟩ := field
    rw [find?] at h
    by_cases hk : key.name = name
    · rw [if_pos hk, Option.some.injEq] at h
      exact ⟨key, hk, h ▸ List.mem_cons_self⟩
    · rw [if_neg hk] at h
      obtain ⟨key', hn, hm⟩ := ih h
      exact ⟨key', hn, List.mem_cons_of_mem _ hm⟩

theorem find?_eq_some_iff (hn : fields.names.Nodup) :
    find? name fields = some item ↔ ∃ key, key.name = name ∧ (key, item) ∈ fields := by
  refine ⟨exists_mem_of_find?, ?_⟩
  rintro ⟨key, hname, hm⟩
  induction fields with
  | nil => simp at hm
  | cons field fields ih =>
    obtain ⟨other, value⟩ := field
    have ⟨hfresh, hn⟩ := List.nodup_cons.1 hn
    rcases List.mem_cons.1 hm with heq | hm
    · obtain ⟨rfl, rfl⟩ := Prod.mk.inj heq
      rw [find?, if_pos hname]
    · have hother : other.name ≠ name :=
        fun h => hfresh (List.mem_map.2 ⟨(key, item), hm, hname.trans h.symm⟩)
      rw [find?, if_neg hother, ih hn hm]

/-- The order of the fields does not matter for what is found under a name. -/
theorem find?_perm {other : Fields} (h : fields.Perm other) (hn : fields.names.Nodup)
    (name : String) : find? name fields = find? name other := by
  have hn' : other.names.Nodup := (h.map _).nodup_iff.1 hn
  refine Option.ext fun item => ?_
  rw [find?_eq_some_iff hn, find?_eq_some_iff hn']
  exact exists_congr fun key => and_congr_right fun _ => h.mem_iff

theorem Keyed.of_find? (hf : fields.Keyed) (h : find? name fields = some item) : item.2.Keyed := by
  obtain ⟨key, -, hm⟩ := exists_mem_of_find? h
  exact hf.values _ hm

@[simp]
theorem names_replace (name : String) (value : Value) (fields : Fields) :
    (replace name value fields).names = fields.names := by
  rw [names, names, replace, List.map_map]
  rfl

theorem Keyed.replace {value : Value} (hf : fields.Keyed) (hv : value.Keyed) :
    (Fields.replace name value fields).Keyed := by
  refine ⟨by rw [names_replace]; exact hf.nodup, fun field hm => ?_⟩
  obtain ⟨old, hold, rfl⟩ := List.mem_map.1 hm
  dsimp only
  split
  · exact hv
  · exact hf.values _ hold

theorem Keyed.concat (hf : fields.Keyed) (hn : find? key.name fields = none)
    (hv : item.2.Keyed) : Keyed (fields ++ [(key, item)]) := by
  refine ⟨?_, fun field hm => ?_⟩
  · rw [names, List.map_append]
    exact hf.nodup.append (List.nodup_singleton _)
      (List.disjoint_singleton.2 (find?_eq_none_iff.1 hn))
  · rcases List.mem_append.1 hm with hm | hm
    · exact hf.values _ hm
    · rw [List.mem_singleton.1 hm]
      exact hv

theorem Keyed.filter (hf : fields.Keyed) (p : Key × Item → Bool) :
    Keyed (List.filter p fields) :=
  ⟨hf.nodup.sublist (List.filter_sublist.map _),
    fun _ hm => hf.values _ (List.mem_of_mem_filter hm)⟩

theorem Keyed.within {byDots : Bool} {edit : Form → Fields → Option Fields}
    (he : ∀ {form : Form} {old new : Fields}, old.Keyed → edit form old = some new → new.Keyed)
    {form : Form} {new : Fields} (hf : fields.Keyed)
    (h : Fields.within byDots edit path form fields = some new) : new.Keyed := by
  induction path generalizing form fields new with
  | nil => exact he hf h
  | cons key path ih =>
    rw [Fields.within] at h
    split at h
    next hnone =>
      simp only [Option.bind_eq_bind, Option.bind_eq_some_iff, Option.pure_def,
        Option.some.injEq] at h
      obtain ⟨inner, hinner, rfl⟩ := h
      exact hf.concat hnone (keyed_table_iff.2 (ih keyed_nil hinner))
    next form' old hsome =>
      simp only [Option.bind_eq_bind, Option.bind_none, Option.ite_none_left_eq_some,
        Option.bind_eq_some_iff, Option.pure_def, Option.some.injEq] at h
      obtain ⟨-, inner, hinner, rfl⟩ := h
      exact hf.replace (keyed_table_iff.2 (ih (keyed_table_iff.1 (hf.of_find? hsome)) hinner))
    next span old before hsome =>
      simp only [Option.bind_eq_bind, Option.bind_eq_some_iff, Option.pure_def,
        Option.some.injEq] at h
      obtain ⟨inner, hinner, rfl⟩ := h
      have hold := hf.of_find? hsome
      rw [keyed_tables_iff, List.forall_mem_cons] at hold
      exact hf.replace (keyed_tables_iff.2 (List.forall_mem_cons.2 ⟨ih hold.1 hinner, hold.2⟩))
    next => simp at h

theorem Keyed.assign {new : Fields} (hf : fields.Keyed) (hv : item.2.Keyed)
    (h : Fields.assign path key item fields = some new) : new.Keyed := by
  refine hf.within (fun {form old new} hold hput => ?_) h
  split at hput
  · simp at hput
  · split at hput
    · simp at hput
    next hnone =>
      rw [← Option.some.inj hput]
      exact hold.concat (by simpa using hnone) hv

theorem Keyed.assignBelow {header : List Key} {new : Fields} (hf : fields.Keyed)
    (hv : item.2.Keyed) (h : Fields.assignBelow header path key item fields = some new) :
    new.Keyed :=
  hf.within (fun hold hput => hold.assign hv hput) h

theorem Keyed.openTable {span : Span} {new : Fields} (hf : fields.Keyed)
    (h : Fields.openTable path key span fields = some new) : new.Keyed := by
  refine hf.within (fun {form old new} hold hput => ?_) h
  split at hput
  next hnone =>
    rw [← Option.some.inj hput]
    exact hold.concat hnone (keyed_table_iff.2 keyed_nil)
  next given hsome =>
    rw [← Option.some.inj hput]
    have hgone : find? key.name (old.filter fun field => field.1.name ≠ key.name) = none := by
      rw [find?_eq_none_iff, names, List.mem_map]
      rintro ⟨field, hm, hn⟩
      simpa [hn] using List.of_mem_filter hm
    exact (hold.filter _).concat hgone (keyed_table_iff.2 (keyed_table_iff.1 (hold.of_find? hsome)))
  next => simp at hput

theorem Keyed.addTable {span : Span} {new : Fields} (hf : fields.Keyed)
    (h : Fields.addTable path key span fields = some new) : new.Keyed := by
  refine hf.within (fun {form old new} hold hput => ?_) h
  split at hput
  next hnone =>
    rw [← Option.some.inj hput]
    exact hold.concat hnone (keyed_tables_iff.2 (by simpa using keyed_nil))
  next items hsome =>
    rw [← Option.some.inj hput]
    exact hold.replace (keyed_tables_iff.2
      (List.forall_mem_cons.2 ⟨keyed_nil, keyed_tables_iff.1 (hold.of_find? hsome)⟩))
  next => simp at hput

end Fields

theorem Value.keyed_of_rounded {x : Binary64} {v : Value}
    (h : (match x with
      | .infinite _ => (pure .overflow : Option Value)
      | x => pure (.float x)) = some v) : v.Keyed := by
  split at h
  · exact Option.some.inj h ▸ .overflow
  · exact Option.some.inj h ▸ .float x

theorem Value.keyed_of_float? {cs : List Char} {v : Value} (h : float? cs = some v) :
    v.Keyed := by
  unfold float? at h
  dsimp only at h
  split at h
  · exact Option.some.inj h ▸ .float _
  split at h
  · exact Option.some.inj h ▸ .float _
  simp only [Option.bind_eq_bind, Option.bind_none, Option.ite_none_left_eq_some,
    Option.bind_eq_some_iff] at h
  obtain ⟨-, whole, -, h⟩ := h
  split at h <;> obtain ⟨fraction, -, h⟩ := Option.bind_eq_some_iff.1 h <;> split at h
  · obtain ⟨digits, -, h⟩ := Option.bind_eq_some_iff.1 h
    obtain ⟨power, -, h⟩ := Option.bind_eq_some_iff.1 h
    exact keyed_of_rounded h
  · obtain ⟨power, -, h⟩ := Option.bind_eq_some_iff.1 h
    exact keyed_of_rounded h
  · obtain ⟨digits, -, h⟩ := Option.bind_eq_some_iff.1 h
    obtain ⟨power, -, h⟩ := Option.bind_eq_some_iff.1 h
    exact keyed_of_rounded h
  · obtain ⟨power, -, h⟩ := Option.bind_eq_some_iff.1 h
    exact keyed_of_rounded h

theorem Value.keyed_of_scalar? {cs : List Char} {v : Value} (h : scalar? cs = some v) :
    v.Keyed := by
  unfold scalar? at h
  split at h
  · exact Option.some.inj h ▸ .boolean true
  split at h
  · exact Option.some.inj h ▸ .boolean false
  split at h
  · exact Option.some.inj h ▸ .moment cs
  split at h
  next n _ => exact Option.some.inj h ▸ .integer n
  next => exact keyed_of_float? h

/-- What `fuel` steps down read has its keys apart, as far as what was read before has. -/
structure ReadsKeyed (fuel : Nat) : Prop where
  value {depth : Nat} {cs rest : List Char} {item : Item} :
    value? fuel depth cs = some (item, rest) → item.2.Keyed
  items {depth : Nat} {acc items : List Item} {cs rest : List Char} :
    (∀ item ∈ acc, item.2.Keyed) → items? fuel depth acc cs = some (items, rest) →
      ∀ item ∈ items, item.2.Keyed
  fields {depth : Nat} {acc fields : Fields} {cs rest : List Char} :
    acc.Keyed → fields? fuel depth acc cs = some (fields, rest) → fields.Keyed

namespace ReadsKeyed

variable {fuel depth : Nat} {cs rest : List Char}

theorem value_succ (h : ReadsKeyed fuel) {item : Item}
    (hv : value? (fuel + 1) depth cs = some (item, rest)) : item.2.Keyed := by
  unfold value? at hv
  split at hv
  case h_1 | h_2 => simp at hv
  case h_3 =>
    simp only [Option.bind_eq_bind, Option.bind_eq_some_iff, Option.pure_def, Option.some.injEq,
      Prod.exists, Prod.mk.injEq] at hv
    obtain ⟨items, stop, hitems, rfl, rfl⟩ := hv
    exact .array (h.items (by simp) hitems)
  case h_4 =>
    simp only [Option.bind_eq_bind, Option.bind_eq_some_iff, Option.pure_def, Option.some.injEq,
      Prod.exists, Prod.mk.injEq] at hv
    obtain ⟨fields, stop, hfields, rfl, rfl⟩ := hv
    exact Fields.keyed_table_iff.2 (h.fields Fields.keyed_nil hfields)
  case h_5 =>
    split at hv
    case h_1 | h_2 =>
      simp only [Option.bind_eq_bind, Option.bind_eq_some_iff, Option.pure_def, Option.some.injEq,
        Prod.exists, Prod.mk.injEq] at hv
      obtain ⟨text, stop, -, rfl, rfl⟩ := hv
      exact .string _
    case h_3 =>
      simp only [Option.bind_eq_bind, Option.bind_eq_some_iff, Option.pure_def, Option.some.injEq,
        Prod.mk.injEq] at hv
      obtain ⟨v, hscalar, rfl, -⟩ := hv
      exact Value.keyed_of_scalar? hscalar

theorem items_succ (h : ReadsKeyed fuel) {acc items : List Item}
    (hacc : ∀ item ∈ acc, item.2.Keyed)
    (hi : items? (fuel + 1) depth acc cs = some (items, rest)) : ∀ item ∈ items, item.2.Keyed := by
  unfold items? at hi
  simp only [Option.bind_eq_bind, Option.bind_eq_some_iff] at hi
  obtain ⟨start, -, hi⟩ := hi
  split at hi
  · simp only [Option.pure_def, Option.some.injEq, Prod.mk.injEq] at hi
    obtain ⟨rfl, -⟩ := hi
    simpa using hacc
  · simp only [Option.bind_eq_some_iff] at hi
    obtain ⟨⟨item, after⟩, hvalue, stop, -, hi⟩ := hi
    have hmore : ∀ i ∈ item :: acc, i.2.Keyed :=
      List.forall_mem_cons.2 ⟨h.value hvalue, hacc⟩
    split at hi
    · exact h.items hmore hi
    · simp only [Option.pure_def, Option.some.injEq, Prod.mk.injEq] at hi
      obtain ⟨rfl, -⟩ := hi
      exact fun i hm => hmore i (List.mem_reverse.1 hm)
    · simp at hi

theorem fields_succ (h : ReadsKeyed fuel) {acc fields : Fields} (hacc : acc.Keyed)
    (hf : fields? (fuel + 1) depth acc cs = some (fields, rest)) : fields.Keyed := by
  unfold fields? at hf
  simp only [Option.bind_eq_bind, Option.bind_eq_some_iff] at hf
  obtain ⟨start, -, hf⟩ := hf
  split at hf
  · simp only [Option.pure_def, Option.some.injEq, Prod.mk.injEq] at hf
    obtain ⟨rfl, -⟩ := hf
    exact hacc
  · simp only [Option.bind_eq_some_iff, Prod.exists] at hf
    obtain ⟨path, key, after, -, hf⟩ := hf
    split at hf
    · simp only [Option.bind_eq_some_iff] at hf
      obtain ⟨⟨item, behind⟩, hvalue, more, hassign, stop, -, hf⟩ := hf
      have hmore : more.Keyed := hacc.assign (h.value hvalue) hassign
      split at hf
      · exact h.fields hmore hf
      · simp only [Option.pure_def, Option.some.injEq, Prod.mk.injEq] at hf
        obtain ⟨rfl, -⟩ := hf
        exact hmore
      · simp at hf
    · simp at hf

end ReadsKeyed

theorem readsKeyed (fuel : Nat) : ReadsKeyed fuel := by
  induction fuel with
  | zero => exact ⟨by simp [value?], by simp [items?], by simp [fields?]⟩
  | succ fuel ih => exact ⟨ih.value_succ, ih.items_succ, ih.fields_succ⟩

theorem Draft.keyed_of_line? {d next : Draft} {cs rest : List Char} (hd : d.root.Keyed)
    (h : d.line? cs = some (next, rest)) : next.root.Keyed := by
  unfold line? at h
  split at h
  · simp only [Option.bind_eq_bind, Option.bind_eq_some_iff, Prod.exists] at h
    obtain ⟨path, key, after, -, h⟩ := h
    split at h
    · simp only [Option.bind_eq_some_iff, Option.pure_def, Option.some.injEq, Prod.mk.injEq] at h
      obtain ⟨fields, hadd, rfl, -⟩ := h
      exact hd.addTable hadd
    · simp at h
  · simp only [Option.bind_eq_bind, Option.bind_eq_some_iff, Prod.exists] at h
    obtain ⟨path, key, after, -, h⟩ := h
    split at h
    · simp only [Option.bind_eq_some_iff, Option.pure_def, Option.some.injEq, Prod.mk.injEq] at h
      obtain ⟨fields, hopen, rfl, -⟩ := h
      exact hd.openTable hopen
    · simp at h
  · simp only [Option.bind_eq_bind, Option.bind_eq_some_iff, Prod.exists] at h
    obtain ⟨path, key, after, -, h⟩ := h
    split at h
    · simp only [Option.bind_eq_some_iff, Option.pure_def, Option.some.injEq, Prod.mk.injEq] at h
      obtain ⟨⟨item, behind⟩, hitem, fields, hassign, rfl, -⟩ := h
      exact hd.assignBelow ((readsKeyed _).value hitem) hassign
    · simp at h

theorem Draft.keyed_of_lines? {fuel : Nat} {d last : Draft} {cs : List Char} (hd : d.root.Keyed)
    (h : d.lines? fuel cs = some last) : last.root.Keyed := by
  induction fuel generalizing d cs with
  | zero => simp [lines?] at h
  | succ fuel ih =>
    unfold lines? at h
    simp only [Option.bind_eq_bind, Option.bind_eq_some_iff] at h
    obtain ⟨start, -, h⟩ := h
    split at h
    · exact Option.some.inj h ▸ hd
    · simp only [Option.bind_eq_some_iff, Prod.exists] at h
      obtain ⟨next, after, hline, stop, -, h⟩ := h
      exact ih (keyed_of_line? hd hline) h

/-- No table of a document that can be read has two fields of one name. -/
theorem Fields.keyed_of_parse? {s : String} {fields : Fields} (h : parse? s = some fields) :
    fields.Keyed := by
  obtain ⟨last, hlast, rfl⟩ := Option.map_eq_some_iff.1 h
  exact Draft.keyed_of_lines? Fields.keyed_nil hlast

end TextCatalog.Toml
