import TextCatalog.Config.Basic
import TextCatalog.Config.Fault
import TextCatalog.Toml.Parse
/-!
# Configuration files

A configuration file is a TOML document whose fields are the settings. The fields are looked at in
the order of their names, and the first one that does not fit is reported.
-/

namespace TextCatalog.Config

/-- A reading that may find a fault. -/
abbrev Checked := Except Fault

def mismatch {α : Type} (item : Toml.Item) (wanted : Wanted) : Checked α :=
  .error ⟨item.1, .mismatch (Found.ofValue item.2) wanted⟩

/-- The items of an array or of a list of tables. -/
def items? : Toml.Value → Option (List Toml.Item)
  | .array items => some items
  | .tables items => some (items.reverse.map fun (span, fields) => (span, .table .headed fields))
  | _ => none

def text (item : Toml.Item) : Checked String :=
  match item.2 with
  | .string s => .ok s
  | _ => mismatch item .text

def switch (item : Toml.Item) : Checked Bool :=
  match item.2 with
  | .boolean b => .ok b
  | _ => mismatch item .switch

/-- The number of counts that there are. -/
def countLimit : Nat := Nat.pow 2 64

/-- A number that is not negative and below the limit. -/
def count (item : Toml.Item) : Checked Nat :=
  match item.2 with
  | .integer n =>
    if n < 0 then .error ⟨item.1, .negative n⟩
    else if n < countLimit then .ok n.toNat
    else mismatch item .count
  | _ => mismatch item .count

def texts? : List Toml.Item → Option (List String)
  | [] => some []
  | (_, .string s) :: rest => (texts? rest).map (s :: ·)
  | _ => none

def patterns (item : Toml.Item) : Checked Patterns :=
  match item.2, (items? item.2).bind texts? with
  | .string s, _ => .ok (.one s)
  | _, some ss => .ok (.many ss)
  | _, none => mismatch item .patterns

def target (item : Toml.Item) : Checked Target :=
  match item.2 with
  | .boolean b => .ok (.toggle b)
  | .string s => .ok (.path ⟨s⟩)
  | _ => mismatch item .target

/-- The opening and the closing delimiter, in a list whose further items do not count. -/
def delimiterPair (item : Toml.Item) : Checked Delimiters :=
  match items? item.2 with
  | some (a :: b :: _) => do return ⟨← text a, ← text b⟩
  | some [a] => do
    let _ ← text a
    .error ⟨item.1, .tooFew 1⟩
  | some [] => .error ⟨item.1, .tooFew 0⟩
  | none => mismatch item .pair

def sorted (fields : Toml.Fields) : Toml.Fields :=
  fields.mergeSort fun a b => a.1.name ≤ b.1.name

/-- The name of the one field of a date or a time, as a table sees it. -/
def momentField : String := "$__toml_private_datetime"

/-- The settings of the virtual module, in a table or in order in a list. -/
def virtualSettings (item : Toml.Item) : Checked VirtualSettings :=
  match item.2, items? item.2 with
  | .table _ fields, _ =>
    (sorted fields).foldlM (fun s (key, value) =>
      match key.name with
      | "id" => do return { s with id := ← text value }
      | "eager" => do return { s with eager := ← switch value }
      | name => .error ⟨key.span, .unknownField name ["id", "eager"]⟩) .usual
  | .moment _, _ => .error ⟨item.1, .unknownField momentField ["id", "eager"]⟩
  | _, some [] => .ok .usual
  | _, some [a] => do return ⟨← text a, VirtualSettings.usual.eager⟩
  | _, some (a :: b :: _) => do return ⟨← text a, ← switch b⟩
  | _, none => mismatch item .virtualTable

/-- The prefix to strip from keys, in a table or in a list. -/
def strippedPrefix (item : Toml.Item) : Checked (Option String) :=
  match item.2, items? item.2 with
  | .table _ fields, _ =>
    (sorted fields).foldlM (fun _ (key, value) =>
      match key.name with
      | "strip_prefix" => do return some (← text value)
      | name => .error ⟨key.span, .unknownField name ["strip_prefix"]⟩) none
  | .moment _, _ => .error ⟨item.1, .unknownField momentField ["strip_prefix"]⟩
  | _, some [] => .ok none
  | _, some (a :: _) => do return some (← text a)
  | _, none => mismatch item .keyTable

def names : List String :=
  ["include", "exclude", "output", "dts", "manifest", "key_transform", "max_literal_length",
   "delimiters", "virtual"]

def set (c : Config) (key : Toml.Key) (item : Toml.Item) : Checked Config :=
  match key.name with
  | "include" => do return { c with included := ← patterns item }
  | "exclude" => do return { c with excluded := ← patterns item }
  | "output" => do return { c with output := ← target item }
  | "dts" => do return { c with declaration := ← target item }
  | "manifest" => do return { c with manifest := ← target item }
  | "key_transform" => do return { c with stripPrefix := ← strippedPrefix item }
  | "max_literal_length" => do return { c with maxLiteralLength := ← count item }
  | "delimiters" => do return { c with delimiters := ← delimiterPair item }
  | "virtual" => do return { c with virtual := some (← virtualSettings item) }
  | name => .error ⟨key.span, .unknownField name names⟩

def ofFields (fields : Toml.Fields) : Checked Config :=
  (sorted fields).foldlM (fun c (key, item) => set c key item) usual

/-- The configuration that a file with this text holds. Numbers out of range are left alone as long as
nothing else is wrong; a document that has one and is no configuration is not correct at all. -/
def parse (document : String) : Except Error Config :=
  match Toml.parse? document with
  | none => .error (.configParse .malformed)
  | some fields =>
    match ofFields fields with
    | .error fault =>
      if Toml.fieldsInRange fields then .error (.configParse (.unfit (fault.report document)))
      else .error (.configParse .malformed)
    | .ok c => .ok c

end TextCatalog.Config
