import Mathlib
import TextCatalog.Proofs.Config.Values

/-!
# The schema of configuration files

Which documents are configurations, and which configuration each of them is. What is documented is
what is accepted, but for lists in the places of tables and for lists of more than two delimiters.
-/

namespace TextCatalog.Config

open Toml (Value Fields)
open Toml.Fields (says_nil says_cons_self says_cons_of_ne says_of_not_mem says_perm
  names_cons_subset names_subset_perm)

/-- What the settings of a table come to, given what counts without them. How three of them are
written is left open. -/
@[mk_iff]
structure Settles (Pair : Value → Delimiters → Prop) (Keys : Value → Option String → Prop)
    (Virtual : Value → VirtualSettings → Prop) (base : Config) (fields : Fields) (c : Config) :
    Prop where
  names : fields.names ⊆ Config.names
  included : fields.Says "include" IsPatterns base.included c.included
  excluded : fields.Says "exclude" IsPatterns base.excluded c.excluded
  output : fields.Says "output" IsTarget base.output c.output
  declaration : fields.Says "dts" IsTarget base.declaration c.declaration
  manifest : fields.Says "manifest" IsTarget base.manifest c.manifest
  stripPrefix : fields.Says "key_transform" Keys base.stripPrefix c.stripPrefix
  maxLiteralLength :
    fields.Says "max_literal_length" IsCount base.maxLiteralLength c.maxLiteralLength
  delimiters : fields.Says "delimiters" Pair base.delimiters c.delimiters
  virtual : fields.Says "virtual" (IsGiven Virtual) base.virtual c.virtual

/-- What is documented. -/
def Describes : Fields → Config → Prop :=
  Settles IsPair IsKeyTable IsVirtualTable usual

/-- What is accepted: also a list in the place of either table, and more delimiters than two. -/
def Accepts : Config → Fields → Config → Prop :=
  Settles StartsWithPair (fun v strip => IsKeyTable v strip ∨ IsKeyList v strip)
    (fun v s => IsVirtualTable v s ∨ IsVirtualList v s)

variable {item : Toml.Item} {fields other : Fields} {key : Toml.Key} {base c : Config}

theorem accepts_nil : Accepts base [] c ↔ c = base := by
  cases base
  cases c
  simp [Accepts, settles_iff, says_nil, Toml.Fields.names]

theorem accepts_cons (h : key.name ∉ fields.names) (hv : item.2.Keyed) :
    Accepts base ((key, item) :: fields) c ↔
      ∃ next, set base key item = .ok next ∧ Accepts next fields c := by
  obtain ⟨name, span⟩ := key
  dsimp only at h
  unfold set
  split
  case h_10 name' h₁ h₂ h₃ h₄ h₅ h₆ h₇ h₈ h₉ =>
    have hno : name ∉ names := by simpa [names] using ⟨h₁, h₂, h₃, h₄, h₅, h₆, h₇, h₈, h₉⟩
    simp [Accepts, settles_iff, names_cons_subset, hno]
  all_goals
    rename_i hname
    dsimp only at hname
    subst hname
    -- one setting of the configuration is read, and the fields left do not speak of it
    simp only [bind_pure_comp, map_eq_ok_iff, patterns_eq_ok_iff, target_eq_ok_iff,
      strippedPrefix_eq_ok_iff hv, count_eq_ok_iff, delimiterPair_eq_ok_iff,
      virtualSettings_eq_ok_iff hv, exists_exists_and_eq_and, Accepts, settles_iff,
      names_cons_subset, names, List.mem_cons, says_cons_self, says_cons_of_ne, says_of_not_mem h,
      IsGiven, String.reduceEq, ne_eq, not_false_eq_true]
    grind

theorem accepts_perm (h : fields.Perm other) (hn : fields.names.Nodup) :
    Accepts base fields c ↔ Accepts base other c := by
  simp only [Accepts, settles_iff, says_perm h hn, names_subset_perm h]

theorem ofFields_eq_ok_iff (h : fields.Keyed) : ofFields fields = .ok c ↔ Accepts usual fields c :=
  foldlM_sorted_eq_ok_iff Accepts accepts_nil accepts_cons accepts_perm h

theorem parse_eq_ok_iff {document : String} (h : Toml.parse? document = some fields) :
    parse document = .ok c ↔ Accepts usual fields c := by
  rw [← ofFields_eq_ok_iff (Toml.Fields.keyed_of_parse? h), parse, h]
  dsimp only
  cases hof : ofFields fields with
  | error fault => dsimp only; split <;> simp
  | ok c' => simp

/-! ### The documented schema -/

/-- A list in the place of a table, or with more delimiters than two. -/
def IsLoose (fields : Fields) : Prop :=
  (∃ v, fields.value? "key_transform" = some v ∧ v.items?.isSome) ∨
  (∃ v, fields.value? "virtual" = some v ∧ v.items?.isSome) ∨
  ∃ v, fields.value? "delimiters" = some v ∧ ∃ items, v.items? = some items ∧ 2 < items.length

theorem says_and_not_iff {α : Type} {Strict Wide : Value → α → Prop} {Loose : Value → Prop}
    (h : ∀ v a, Strict v a ↔ Wide v a ∧ ¬ Loose v) {name : String} {without a : α} :
    fields.Says name Strict without a ↔
      fields.Says name Wide without a ∧ ¬ ∃ v, fields.value? name = some v ∧ Loose v := by
  unfold Toml.Fields.Says
  cases fields.value? name with
  | none => simp
  | some v => simp [h]

theorem isPair_iff (v : Value) (d : Delimiters) :
    IsPair v d ↔ StartsWithPair v d ∧ ¬ ∃ items, v.items? = some items ∧ 2 < items.length := by
  unfold IsPair StartsWithPair
  cases v.items? with
  | none => simp
  | some items =>
    simp only [Option.some.injEq]
    constructor
    · rintro rfl
      simp
    · rintro ⟨⟨rest, rfl⟩, hlength⟩
      cases rest with
      | nil => rfl
      | cons => simp at hlength

theorem table_iff {α : Type} {Table List : Value → α → Prop}
    (htable : ∀ v a, Table v a → v.items? = none) (hlist : ∀ v a, List v a → v.items?.isSome)
    (v : Value) (a : α) : Table v a ↔ (Table v a ∨ List v a) ∧ ¬ v.items?.isSome := by
  constructor
  · intro h
    exact ⟨.inl h, by simp [htable v a h]⟩
  · rintro ⟨h | h, hno⟩
    · exact h
    · exact absurd (hlist v a h) hno

theorem isGiven_iff {α : Type} {Strict Wide : Value → α → Prop} {Loose : Value → Prop}
    (h : ∀ v a, Strict v a ↔ Wide v a ∧ ¬ Loose v) (v : Value) (o : Option α) :
    IsGiven Strict v o ↔ IsGiven Wide v o ∧ ¬ Loose v := by
  simp only [IsGiven, h]
  grind

theorem describes_iff : Describes fields c ↔ Accepts usual fields c ∧ ¬ IsLoose fields := by
  have hkeys : fields.Says "key_transform" IsKeyTable usual.stripPrefix c.stripPrefix ↔ _ :=
    says_and_not_iff (table_iff items?_of_isKeyTable items?_of_isKeyList)
  have hvirtual : fields.Says "virtual" (IsGiven IsVirtualTable) usual.virtual c.virtual ↔ _ :=
    says_and_not_iff (isGiven_iff (table_iff items?_of_isVirtualTable items?_of_isVirtualList))
  have hpair : fields.Says "delimiters" IsPair usual.delimiters c.delimiters ↔ _ :=
    says_and_not_iff isPair_iff
  rw [Describes, Accepts, settles_iff, settles_iff, hkeys, hvirtual, hpair, IsLoose]
  grind

/-! ### Documents that say the same -/

/-- Two values that say the same: tables by what stands under each name, in whatever order, and
lists by their items. -/
inductive Alike : Value → Value → Prop where
  | same (v : Value) : Alike v v
  | list {v w : Value} {items others : List Value} (hv : v.items? = some items)
      (hw : w.items? = some others) (h : List.Forall₂ Alike items others) : Alike v w
  | table {form form' : Toml.Form} {fields others : Fields}
      (h : ∀ name, Option.Rel Alike (fields.value? name) (others.value? name)) :
      Alike (.table form fields) (.table form' others)

/-- Two tables that say the same on every name. -/
def AgreeOn (fields others : Fields) : Prop :=
  ∀ name, Option.Rel Alike (fields.value? name) (others.value? name)

theorem of_rel {α β : Type} {R : α → β → Prop} {a : Option α} {b : Option β}
    (h : Option.Rel R a b) : (a = none ∧ b = none) ∨ ∃ x y, a = some x ∧ b = some y ∧ R x y := by
  cases h with
  | none => exact .inl ⟨rfl, rfl⟩
  | some h => exact .inr ⟨_, _, rfl, rfl, h⟩

section Alike

variable {v w u : Value} {others : Fields} {name : String} {α : Type}

theorem Alike.items? (h : Alike v w) : (v.items? = none ∧ w.items? = none) ∨
    ∃ items others, v.items? = some items ∧ w.items? = some others ∧
      List.Forall₂ Alike items others := by
  cases h with
  | same =>
    cases hv : v.items? with
    | none => exact .inl ⟨rfl, rfl⟩
    | some items => exact .inr ⟨items, items, rfl, rfl, List.forall₂_same.2 fun v _ => .same v⟩
  | list hv hw h => exact .inr ⟨_, _, hv, hw, h⟩
  | table h => exact .inl ⟨rfl, rfl⟩

/-- A value that is neither a list nor a table is only like itself. -/
theorem Alike.eq_iff (h : Alike v w) (hlist : u.items? = none)
    (htable : ∀ form fields, u ≠ .table form fields) : v = u ↔ w = u := by
  cases h with
  | same => rfl
  | list hv hw h =>
    refine iff_of_false ?_ ?_
    · rintro rfl
      simp [hlist] at hv
    · rintro rfl
      simp [hlist] at hw
  | table h => exact iff_of_false (htable _ _).symm (htable _ _).symm

/-- A meaning that only depends on what a value says. -/
def Respects (Means : Value → α → Prop) : Prop :=
  ∀ (v w : Value) (a : α), Alike v w → (Means v a ↔ Means w a)

theorem respects_isText : Respects IsText :=
  fun _ _ _ h => h.eq_iff rfl (by simp)

theorem respects_isSwitch : Respects IsSwitch :=
  fun _ _ _ h => h.eq_iff rfl (by simp)

theorem respects_isCount : Respects IsCount :=
  fun _ _ _ h => and_congr_left fun _ => h.eq_iff rfl (by simp)

theorem respects_isTarget : Respects IsTarget := by
  intro v w t h
  cases t with
  | toggle b => exact respects_isSwitch _ _ b h
  | path p => exact exists_congr fun s => and_congr_left fun _ => respects_isText _ _ s h

theorem strings_eq_iff {items others : List Value} (h : List.Forall₂ Alike items others)
    {ss : List String} : items = ss.map .string ↔ others = ss.map .string := by
  induction h generalizing ss with
  | nil => rfl
  | cons h _ ih =>
    cases ss with
    | nil => simp
    | cons s ss =>
      rw [List.map_cons, List.cons.injEq, List.cons.injEq, ih]
      exact and_congr_left fun _ => respects_isText _ _ s h

theorem respects_isPatterns : Respects IsPatterns := by
  intro v w ps h
  cases ps with
  | one s => exact respects_isText _ _ s h
  | many ss =>
    rcases h.items? with ⟨hv, hw⟩ | ⟨items, others, hv, hw, h⟩
    · simp [IsPatterns, hv, hw]
    · simp [IsPatterns, hv, hw, strings_eq_iff h]

theorem respects_startsWithPair : Respects StartsWithPair := by
  intro v w d h
  rcases h.items? with ⟨hv, hw⟩ | ⟨items, others, hv, hw, h⟩
  · simp [StartsWithPair, hv, hw]
  · rcases h with _ | ⟨h₁, _ | ⟨h₂, h⟩⟩
    · simp [StartsWithPair, hv, hw]
    · simp [StartsWithPair, hv, hw]
    · simpa [StartsWithPair, hv, hw, IsText] using
        and_congr (respects_isText _ _ d.opening h₁) (respects_isText _ _ d.closing h₂)

theorem Respects.or {Means Other : Value → α → Prop} (h : Respects Means) (h' : Respects Other) :
    Respects fun v a => Means v a ∨ Other v a :=
  fun v w a hv => or_congr (h v w a hv) (h' v w a hv)

theorem Respects.isGiven {Means : Value → α → Prop} (h : Respects Means) :
    Respects (IsGiven Means) :=
  fun v w _ hv => exists_congr fun a => and_congr_left fun _ => h v w a hv

/-- Two tables agree if the fields of one are alike those of the other in another order. -/
theorem agreeOn_of_perm {between : Fields} (hn : fields.names.Nodup)
    (hperm : fields.Perm between) (h : List.Forall₂ (fun field other =>
      field.1.name = other.1.name ∧ Alike field.2.2 other.2.2) between others) :
    AgreeOn fields others := by
  intro name
  rw [Toml.Fields.value?_perm hperm hn]
  clear hperm hn
  induction h with
  | nil => exact .none
  | @cons field other _ _ h _ ih =>
    obtain ⟨key, item⟩ := field
    obtain ⟨key', item'⟩ := other
    unfold Toml.Fields.value? Toml.Fields.find?
    rw [← h.1]
    split
    · exact .some h.2
    · exact ih

theorem AgreeOn.says_iff (h : AgreeOn fields others) {Means : Value → α → Prop}
    (hm : Respects Means) {without a : α} :
    fields.Says name Means without a ↔ others.Says name Means without a := by
  unfold Toml.Fields.Says
  rcases of_rel (h name) with ⟨hf, ho⟩ | ⟨v, w, hf, ho, h⟩
  · rw [hf, ho]
  · rw [hf, ho]
    exact hm v w a h

theorem AgreeOn.names_subset_iff (h : AgreeOn fields others) {names : List String} :
    fields.names ⊆ names ↔ others.names ⊆ names := by
  have hmem : ∀ name, name ∈ fields.names ↔ name ∈ others.names := by
    intro name
    rw [← not_iff_not, ← Toml.Fields.value?_eq_none_iff, ← Toml.Fields.value?_eq_none_iff]
    rcases of_rel (h name) with ⟨hf, ho⟩ | ⟨v, w, hf, ho, -⟩ <;> simp [hf, ho]
  exact forall_congr' fun name => imp_congr_left (hmem name)

/-- A meaning of tables alone that only depends on what they say on each name. -/
theorem respects_of_tables {Means : Value → α → Prop}
    (hlist : ∀ v a, Means v a → v.items? = none)
    (htable : ∀ {form form' fields others a}, AgreeOn fields others →
      (Means (.table form fields) a ↔ Means (.table form' others) a)) : Respects Means := by
  intro v w a h
  cases h with
  | same => rfl
  | list hv hw h =>
    refine iff_of_false (fun hm => ?_) fun hm => ?_
    · simp [hlist v a hm] at hv
    · simp [hlist w a hm] at hw
  | table h => exact htable h

theorem respects_isKeyTable : Respects IsKeyTable := by
  refine respects_of_tables items?_of_isKeyTable fun h => ?_
  simp [IsKeyTable, h.names_subset_iff, h.says_iff respects_isText.isGiven]

theorem respects_isVirtualTable : Respects IsVirtualTable := by
  refine respects_of_tables items?_of_isVirtualTable fun h => ?_
  simp [IsVirtualTable, h.names_subset_iff, h.says_iff respects_isText,
    h.says_iff respects_isSwitch]

theorem respects_isKeyList : Respects IsKeyList := by
  intro v w strip h
  rcases h.items? with ⟨hv, hw⟩ | ⟨items, others, hv, hw, h⟩
  · simp [IsKeyList, hv, hw]
  · rcases h with _ | ⟨h, -⟩
    · simp [IsKeyList, hv, hw]
    · simp [IsKeyList, hv, hw, respects_isText.isGiven _ _ _ h]

theorem respects_isVirtualList : Respects IsVirtualList := by
  intro v w s h
  rcases h.items? with ⟨hv, hw⟩ | ⟨items, others, hv, hw, h⟩
  · simp [IsVirtualList, hv, hw]
  · rcases h with _ | ⟨h₁, _ | ⟨h₂, -⟩⟩
    · simp [IsVirtualList, hv, hw]
    · simp [IsVirtualList, hv, hw, respects_isText _ _ _ h₁]
    · simp [IsVirtualList, hv, hw, respects_isText _ _ _ h₁, respects_isSwitch _ _ _ h₂]

theorem AgreeOn.accepts_iff (h : AgreeOn fields others) :
    Accepts base fields c ↔ Accepts base others c := by
  simp only [Accepts, settles_iff, h.names_subset_iff, h.says_iff respects_isPatterns,
    h.says_iff respects_isTarget, h.says_iff respects_isCount, h.says_iff respects_startsWithPair,
    h.says_iff (respects_isKeyTable.or respects_isKeyList),
    h.says_iff (respects_isVirtualTable.or respects_isVirtualList).isGiven]

end Alike

/-! ### Documents -/

/-- A document is a configuration if and only if its fields are accepted, and then it is the one that
they say. What is documented is what is accepted and not loose. It does not matter in which order and
in which notation a document says what it says. -/
theorem parse_reads_schema {document : String} {fields : Fields}
    (h : Toml.parse? document = some fields) :
    (∀ c, parse document = .ok c ↔ Accepts usual fields c) ∧
      (∀ c, Describes fields c ↔ parse document = .ok c ∧ ¬ IsLoose fields) ∧
      ∀ other others, Toml.parse? other = some others → AgreeOn fields others →
        ∀ c, parse document = .ok c ↔ parse other = .ok c := by
  refine ⟨fun c => parse_eq_ok_iff h, fun c => ?_, fun other others ho hsame c => ?_⟩
  · rw [describes_iff, parse_eq_ok_iff h]
  · rw [parse_eq_ok_iff h, parse_eq_ok_iff ho, hsame.accepts_iff]

/-- A document and the same in the other order. -/
theorem parse_reads_reordered :
    ∃ fields others, Toml.parse? "dts=true\noutput=false" = some fields ∧
      Toml.parse? "output=false\ndts=true" = some others ∧ AgreeOn fields others ∧
      Describes fields { usual with output := .toggle false, declaration := .toggle true } ∧
      ∀ c, parse "dts=true\noutput=false" = .ok c ↔ parse "output=false\ndts=true" = .ok c := by
  have h : Toml.parse? "dts=true\noutput=false" = some
      [(⟨"dts", ⟨"dts=true\noutput=false".toList, "=true\noutput=false".toList⟩⟩,
          ⟨"true\noutput=false".toList, "\noutput=false".toList⟩, .boolean true),
        (⟨"output", ⟨"output=false".toList, "=false".toList⟩⟩,
          ⟨"false".toList, []⟩, .boolean false)] := by
    cbv
  have ho : Toml.parse? "output=false\ndts=true" = some
      [(⟨"output", ⟨"output=false\ndts=true".toList, "=false\ndts=true".toList⟩⟩,
          ⟨"false\ndts=true".toList, "\ndts=true".toList⟩, .boolean false),
        (⟨"dts", ⟨"dts=true".toList, "=true".toList⟩⟩, ⟨"true".toList, []⟩, .boolean true)] := by
    cbv
  refine ⟨_, _, h, ho, ?_⟩
  obtain ⟨-, hdescribed, horder⟩ := parse_reads_schema h
  refine ⟨?same, (hdescribed _).2 ⟨by cbv, ?_⟩, horder _ _ ho ?same⟩
  case same =>
    exact agreeOn_of_perm (Toml.Fields.keyed_of_parse? h).nodup (.swap _ _ [])
      (.cons ⟨rfl, .same _⟩ (.cons ⟨rfl, .same _⟩ .nil))
  simp [IsLoose, Toml.Fields.value?, Toml.Fields.find?]

/-- A third delimiter is lost without a word. -/
theorem third_delimiter_lost :
    ∃ fields, Toml.parse? "delimiters = ['<', '>', '!']\n" = some fields ∧
      parse "delimiters = ['<', '>', '!']\n" = .ok { usual with delimiters := ⟨"<", ">"⟩ } ∧
      ∀ c, ¬ Describes fields c := by
  have hitems : (Toml.parse? "delimiters = ['<', '>', '!']\n").map (fun fields =>
      (fields.value? "delimiters").bind Value.items?) =
        some (some [.string "<", .string ">", .string "!"]) := by
    cbv
  obtain ⟨fields, hparse, hfields⟩ := Option.map_eq_some_iff.1 hitems
  obtain ⟨v, hv, hlist⟩ := Option.bind_eq_some_iff.1 hfields
  refine ⟨fields, hparse, by cbv, fun c hc => ?_⟩
  have hpair := hc.delimiters
  simp [Toml.Fields.Says, hv, IsPair, hlist] at hpair

end TextCatalog.Config
