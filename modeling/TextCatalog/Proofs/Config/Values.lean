import Mathlib.Data.List.Perm.Basic
import TextCatalog.Config.Document
import TextCatalog.Proofs.Toml.Keyed

/-!
# The values of settings

What the value under a name means for a setting, and that the readers find just this. A table is
read field by field in the order of the names; what it says on a name does not depend on any order.
-/

namespace TextCatalog

namespace Toml

/-- The items of an array or of a list of tables. -/
def Value.items? (v : Value) : Option (List Value) :=
  (Config.items? v).map (List.map Prod.snd)

namespace Fields

variable {α : Type} {Means : Value → α → Prop} {without a : α} {key : Key} {item : Item}
  {fields other : Fields} {name : String}

/-- The value under a name. -/
def value? (name : String) (fields : Fields) : Option Value :=
  (find? name fields).map Prod.snd

/-- What a table says on `name`: what the value there means, or what counts without one. -/
def Says (fields : Fields) (name : String) (Means : Value → α → Prop) (without a : α) : Prop :=
  match fields.value? name with
  | some v => Means v a
  | none => a = without

theorem value?_eq_none_iff : fields.value? name = none ↔ name ∉ fields.names := by
  rw [value?, Option.map_eq_none_iff, find?_eq_none_iff]

theorem value?_perm (h : fields.Perm other) (hn : fields.names.Nodup) (name : String) :
    fields.value? name = other.value? name := by
  rw [value?, value?, find?_perm h hn]

theorem says_nil : Says [] name Means without a ↔ a = without :=
  Iff.rfl

theorem says_cons_self (h : key.name = name) :
    Says ((key, item) :: fields) name Means without a ↔ Means item.2 a := by
  rw [Says, value?, find?, if_pos h]
  rfl

theorem says_cons_of_ne (h : key.name ≠ name) :
    Says ((key, item) :: fields) name Means without a ↔ Says fields name Means without a := by
  rw [Says, value?, find?, if_neg h]
  rfl

theorem says_of_not_mem (h : name ∉ fields.names) :
    Says fields name Means without a ↔ a = without := by
  rw [Says, value?_eq_none_iff.2 h]

theorem says_perm (h : fields.Perm other) (hn : fields.names.Nodup) :
    Says fields name Means without a ↔ Says other name Means without a := by
  rw [Says, Says, value?_perm h hn]

theorem names_subset_perm (h : fields.Perm other) {names : List String} :
    fields.names ⊆ names ↔ other.names ⊆ names :=
  (h.map _).subset_congr_left

theorem names_cons_subset {names : List String} :
    Fields.names ((key, item) :: fields) ⊆ names ↔ key.name ∈ names ∧ fields.names ⊆ names :=
  List.cons_subset

end Fields

end Toml

namespace Config

open Toml (Value Fields)
open Toml.Fields (says_nil says_cons_self says_cons_of_ne says_of_not_mem says_perm
  names_cons_subset names_subset_perm)

/-! ### What values mean -/

def IsText (v : Value) (s : String) : Prop :=
  v = .string s

def IsSwitch (v : Value) (b : Bool) : Prop :=
  v = .boolean b

def IsCount (v : Value) (n : Nat) : Prop :=
  v = .integer n ∧ n < countLimit

def IsPatterns (v : Value) : Patterns → Prop
  | .one s => v = .string s
  | .many ss => v.items? = some (ss.map .string)

def IsTarget (v : Value) : Target → Prop
  | .toggle b => v = .boolean b
  | .path p => ∃ s : String, v = .string s ∧ p = ⟨s⟩

def IsPair (v : Value) (d : Delimiters) : Prop :=
  v.items? = some [.string d.opening, .string d.closing]

/-- A setting that has no value of its own, as long as it is missing. -/
def IsGiven {α : Type} (Means : Value → α → Prop) (v : Value) (o : Option α) : Prop :=
  ∃ a, Means v a ∧ some a = o

def IsKeyTable (v : Value) (strip : Option String) : Prop :=
  ∃ form, ∃ fields : Fields, v = .table form fields ∧ fields.names ⊆ ["strip_prefix"] ∧
    fields.Says "strip_prefix" (IsGiven IsText) none strip

def IsVirtualTable (v : Value) (s : VirtualSettings) : Prop :=
  ∃ form, ∃ fields : Fields, v = .table form fields ∧ fields.names ⊆ ["id", "eager"] ∧
    fields.Says "id" IsText VirtualSettings.usual.id s.id ∧
    fields.Says "eager" IsSwitch VirtualSettings.usual.eager s.eager

variable {item : Toml.Item}

theorem text_eq_ok_iff {s : String} : text item = .ok s ↔ IsText item.2 s := by
  obtain ⟨span, v⟩ := item
  cases v <;> simp [text, mismatch, IsText]

theorem switch_eq_ok_iff {b : Bool} : switch item = .ok b ↔ IsSwitch item.2 b := by
  obtain ⟨span, v⟩ := item
  cases v <;> simp [switch, mismatch, IsSwitch]

theorem count_eq_ok_iff {n : Nat} : count item = .ok n ↔ IsCount item.2 n := by
  obtain ⟨span, v⟩ := item
  cases v with
  | integer k =>
    simp only [count, IsCount, Value.integer.injEq]
    split
    · simp; omega
    · split
      · simp; omega
      · simp [mismatch]; omega
  | _ => simp [count, mismatch, IsCount]

theorem target_eq_ok_iff {t : Target} : target item = .ok t ↔ IsTarget item.2 t := by
  obtain ⟨span, v⟩ := item
  cases t with
  | toggle b => cases v <;> simp [target, mismatch, IsTarget]
  | path p => cases v <;> simp [target, mismatch, IsTarget, eq_comm]

theorem texts?_eq_some_iff {items : List Toml.Item} {ss : List String} :
    texts? items = some ss ↔ items.map Prod.snd = ss.map .string := by
  induction items generalizing ss with
  | nil => cases ss <;> simp [texts?]
  | cons item items ih =>
    obtain ⟨span, v⟩ := item
    cases v <;> cases ss <;> simp [texts?, ih, and_comm]

theorem items?_eq_strings_iff {v : Value} {ss : List String} :
    v.items? = some (ss.map .string) ↔ (items? v).bind texts? = some ss := by
  rw [Value.items?, Option.map_eq_some_iff, Option.bind_eq_some_iff]
  exact exists_congr fun items => and_congr_right fun _ => texts?_eq_some_iff.symm

theorem patterns_eq_ok_iff {ps : Patterns} : patterns item = .ok ps ↔ IsPatterns item.2 ps := by
  unfold patterns
  split
  next s _ h => cases ps <;> simp [IsPatterns, h, Value.items?, items?]
  next ss h hone =>
    cases ps with
    | one s => simpa [IsPatterns] using hone s
    | many => simp [IsPatterns, items?_eq_strings_iff, h]
  next h hone =>
    cases ps with
    | one s => simpa [IsPatterns, mismatch] using hone s
    | many => simp [IsPatterns, items?_eq_strings_iff, h, mismatch]

theorem bind_eq_ok_iff {α β : Type} {x : Checked α} {f : α → Checked β} {b : β} :
    (x >>= f) = .ok b ↔ ∃ a, x = .ok a ∧ f a = .ok b := by
  cases x <;> simp [bind, Except.bind]

theorem map_eq_ok_iff {α β : Type} {x : Checked α} {f : α → β} {b : β} :
    (f <$> x) = .ok b ↔ ∃ a, x = .ok a ∧ f a = b := by
  cases x <;> simp [Functor.map, Except.map]

/-! ### The three settings that may be written in another way -/

/-- A list of which only the first two items count. -/
def StartsWithPair (v : Value) (d : Delimiters) : Prop :=
  ∃ rest, v.items? = some (.string d.opening :: .string d.closing :: rest)

/-- A list of which at most the first item counts. -/
def IsKeyList (v : Value) (strip : Option String) : Prop :=
  ∃ items, v.items? = some items ∧
    match items with
    | [] => strip = none
    | first :: _ => IsGiven IsText first strip

/-- A list of which at most the first two items count. -/
def IsVirtualList (v : Value) (s : VirtualSettings) : Prop :=
  ∃ items, v.items? = some items ∧
    match items with
    | [] => s = .usual
    | [id] => IsText id s.id ∧ s.eager = VirtualSettings.usual.eager
    | id :: eager :: _ => IsText id s.id ∧ IsSwitch eager s.eager

theorem items?_of_isKeyTable (v : Value) (strip : Option String) (h : IsKeyTable v strip) :
    v.items? = none := by
  obtain ⟨form, fields, rfl, -⟩ := h
  rfl

theorem items?_of_isVirtualTable (v : Value) (s : VirtualSettings) (h : IsVirtualTable v s) :
    v.items? = none := by
  obtain ⟨form, fields, rfl, -⟩ := h
  rfl

theorem items?_of_isKeyList (v : Value) (strip : Option String) (h : IsKeyList v strip) :
    v.items?.isSome := by
  obtain ⟨items, h, -⟩ := h
  rw [h, Option.isSome_some]

theorem items?_of_isVirtualList (v : Value) (s : VirtualSettings) (h : IsVirtualList v s) :
    v.items?.isSome := by
  obtain ⟨items, h, -⟩ := h
  rw [h, Option.isSome_some]

theorem delimiterPair_eq_ok_iff {d : Delimiters} :
    delimiterPair item = .ok d ↔ StartsWithPair item.2 d := by
  obtain ⟨opening, closing⟩ := d
  unfold delimiterPair StartsWithPair Value.items?
  split
  next a b rest h => simp [h, bind_eq_ok_iff, map_eq_ok_iff, text_eq_ok_iff, IsText]
  next a h => simp [h, bind_eq_ok_iff]
  next h => simp [h]
  next h => simp [h, mismatch]

/-! ### Tables read field by field -/

/-- A fold over the sorted fields of a table does what `Holds` says, as long as that says what each
field does and the order of the fields does not matter for it. -/
theorem foldlM_sorted_eq_ok_iff {σ : Type} {step : σ → Toml.Key × Toml.Item → Checked σ}
    (Holds : σ → Fields → σ → Prop) (hnil : ∀ {s s' : σ}, Holds s [] s' ↔ s' = s)
    (hcons : ∀ {s s' : σ} {field : Toml.Key × Toml.Item} {fields : Fields},
      field.1.name ∉ fields.names → field.2.2.Keyed →
      (Holds s (field :: fields) s' ↔ ∃ next, step s field = .ok next ∧ Holds next fields s'))
    (hperm : ∀ {s s' : σ} {fields other : Fields}, fields.Perm other → fields.names.Nodup →
      (Holds s fields s' ↔ Holds s other s'))
    {fields : Fields} (hf : fields.Keyed) {s s' : σ} :
    (sorted fields).foldlM step s = .ok s' ↔ Holds s fields s' := by
  have hfold : ∀ {fields : Fields} {s : σ}, fields.Keyed →
      (fields.foldlM step s = .ok s' ↔ Holds s fields s') := by
    intro fields
    induction fields with
    | nil => simp [hnil, eq_comm, pure, Except.pure]
    | cons field fields ih =>
      intro s hf
      obtain ⟨hfresh, hv, hrest⟩ := Toml.Fields.keyed_cons_iff.1 hf
      rw [List.foldlM_cons, bind_eq_ok_iff, hcons hfresh hv]
      exact exists_congr fun next => and_congr_right fun _ => ih hrest
  have hsorted : (sorted fields).Perm fields := List.mergeSort_perm _ _
  have hf' : (sorted fields).Keyed := hf.perm hsorted.symm
  rw [hfold hf', hperm hsorted hf'.nodup]

theorem not_isKeyTable {v : Value} {strip : Option String}
    (h : ∀ form fields, v = .table form fields → False) : ¬ IsKeyTable v strip := by
  rintro ⟨form, fields, hv, -⟩
  exact h form fields hv

theorem not_isVirtualTable {v : Value} {s : VirtualSettings}
    (h : ∀ form fields, v = .table form fields → False) : ¬ IsVirtualTable v s := by
  rintro ⟨form, fields, hv, -⟩
  exact h form fields hv

theorem strippedPrefix_eq_ok_iff (h : item.2.Keyed) {strip : Option String} :
    strippedPrefix item = .ok strip ↔ IsKeyTable item.2 strip ∨ IsKeyList item.2 strip := by
  unfold strippedPrefix
  split
  next form fields hv =>
    rw [hv, Toml.Fields.keyed_table_iff] at h
    rw [foldlM_sorted_eq_ok_iff
      (fun old fields new => fields.names ⊆ ["strip_prefix"] ∧
        fields.Says "strip_prefix" (IsGiven IsText) old new) ?_ ?_ ?_ h]
    · simp [IsKeyTable, IsKeyList, hv, Value.items?, items?]
    · simp [says_nil, Toml.Fields.names]
    · rintro old new ⟨⟨name, span⟩, value⟩ fields hfresh -
      dsimp only at hfresh ⊢
      split
      next =>
        simp [names_cons_subset, says_cons_self, says_of_not_mem hfresh, map_eq_ok_iff,
          text_eq_ok_iff, IsGiven, and_comm]
      next name' hname =>
        simp [names_cons_subset, show name ≠ "strip_prefix" from hname]
    · intro old new fields other hperm hn
      rw [says_perm hperm hn, names_subset_perm hperm]
  next hv => simp [IsKeyTable, IsKeyList, hv, Value.items?, items?]
  next hv htable _ =>
    simp [not_isKeyTable htable, IsKeyList, Value.items?, hv, eq_comm]
  next first rest hv htable _ =>
    simp [not_isKeyTable htable, IsKeyList, Value.items?, hv, map_eq_ok_iff, text_eq_ok_iff, IsGiven]
  next hv htable _ =>
    simp [not_isKeyTable htable, IsKeyList, Value.items?, hv, mismatch]

theorem virtualSettings_eq_ok_iff (h : item.2.Keyed) {s : VirtualSettings} :
    virtualSettings item = .ok s ↔ IsVirtualTable item.2 s ∨ IsVirtualList item.2 s := by
  obtain ⟨id, eager⟩ := s
  unfold virtualSettings
  split
  next form fields hv =>
    rw [hv, Toml.Fields.keyed_table_iff] at h
    rw [foldlM_sorted_eq_ok_iff
      (fun (old : VirtualSettings) fields new => fields.names ⊆ ["id", "eager"] ∧
        fields.Says "id" IsText old.id new.id ∧
        fields.Says "eager" IsSwitch old.eager new.eager) ?_ ?_ ?_ h]
    · simp [IsVirtualTable, IsVirtualList, hv, Value.items?, items?]
    · rintro ⟨id, eager⟩ ⟨id', eager'⟩
      simp [says_nil, Toml.Fields.names]
    · rintro ⟨id, eager⟩ ⟨id', eager'⟩ ⟨⟨name, span⟩, value⟩ fields hfresh -
      dsimp only at hfresh ⊢
      split
      next =>
        simp [names_cons_subset, says_cons_self, says_cons_of_ne, says_of_not_mem hfresh,
          map_eq_ok_iff, text_eq_ok_iff, and_left_comm]
      next =>
        simpa [-Bool.exists_bool, names_cons_subset, says_cons_self, says_cons_of_ne,
          says_of_not_mem hfresh, map_eq_ok_iff, switch_eq_ok_iff] using and_rotate.symm
      next name' hid heager =>
        simp [names_cons_subset, show name ≠ "id" from hid, show name ≠ "eager" from heager]
    · intro old new fields other hperm hn
      rw [says_perm hperm hn, says_perm hperm hn, names_subset_perm hperm]
  next hv => simp [IsVirtualTable, IsVirtualList, hv, Value.items?, items?]
  next hv htable _ =>
    simp [not_isVirtualTable htable, IsVirtualList, Value.items?, hv, eq_comm]
  next first hv htable _ =>
    simp [not_isVirtualTable htable, IsVirtualList, Value.items?, hv, map_eq_ok_iff, text_eq_ok_iff,
      eq_comm (a := VirtualSettings.usual.eager)]
  next first second rest hv htable _ =>
    simp [-Bool.exists_bool, not_isVirtualTable htable, IsVirtualList, Value.items?, hv,
      map_eq_ok_iff, bind_eq_ok_iff, text_eq_ok_iff, switch_eq_ok_iff]
  next hv htable _ =>
    simp [not_isVirtualTable htable, IsVirtualList, Value.items?, hv, mismatch]

end Config

end TextCatalog
