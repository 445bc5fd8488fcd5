import TextCatalog.Artifact.Manifest
import TextCatalog.Proofs.Artifact.Blocks
import TextCatalog.Proofs.Json.Layout

/-!
# The artifacts agree

What the module, the declaration and the manifest of one run say can be read back from their texts,
and they say the same: every key in its place, with its exact content, its placeholder names and
whether its content is a type of its own.
-/

namespace TextCatalog.Artifact

open Text

section Readings

variable (entries : List Entry) (o : Options)

theorem mapM_map_eq_some {α β γ : Type} {f : α → β} {g : β → Option γ} {h : α → γ}
    (hg : ∀ x, g (f x) = some (h x)) (xs : List α) : (xs.map f).mapM g = some (xs.map h) := by
  have hcomp : g ∘ f = fun x => pure (h x) := funext hg
  rw [List.mapM_map, hcomp, List.mapM_pure]
  rfl

theorem Manifest.document_eq : Manifest.document entries o = .object
    [("delimiters", .array [.string o.delimiters.opening, .string o.delimiters.closing]),
     ("max_literal_length", .integer o.maxLiteralLength),
     ("texts", .array (entries.map fun e => .object
       [("key", .string e.key),
        ("variables", .array ((Placeholder.names o.delimiters e.content).map .string)),
        ("length", .integer (codeUnits e.content.toList).length),
        ("literal", .bool (shownContent o e.content).isSome)]))] := by
  simp [document, Model.ofEntries, Function.comp_def, field, Item.ofEntry, isShort_eq,
    length_codeUnits]

theorem Manifest.isPlain_document (hmax : o.maxLiteralLength < 2 ^ 64)
    (hlength : ∀ e ∈ entries, (codeUnits e.content.toList).length < 2 ^ 64) :
    Json.IsPlain (Manifest.document entries o) := by
  have hinteger : ∀ {n : Nat}, n < 2 ^ 64 → Json.IsPlain (.integer n) := by
    intro n hn
    have hsign : ¬ (n : Int) < 0 := by omega
    simpa [Json.IsPlain, Json.fitsWord, hsign] using hn
  have hnames : ∀ names : List String, Json.IsPlain (.array (names.map .string)) := by
    intro names
    rw [Json.IsPlain, Json.arePlain_iff]
    simp [Json.IsPlain]
  have htexts : Json.IsPlain (.array (entries.map fun e => .object
      [("key", .string e.key),
       ("variables", .array ((Placeholder.names o.delimiters e.content).map .string)),
       ("length", .integer (codeUnits e.content.toList).length),
       ("literal", .bool (shownContent o e.content).isSome)])) := by
    rw [Json.IsPlain, Json.arePlain_iff]
    intro item hitem
    obtain ⟨e, he, rfl⟩ := List.mem_map.1 hitem
    exact ⟨trivial, hnames _, hinteger (hlength e he), trivial, trivial⟩
  rw [document_eq]
  exact ⟨⟨trivial, trivial, trivial⟩, hinteger hmax, htexts, trivial⟩

end Readings

/-- **The artifacts are decodable and never diverge.** For all entries, options and module ids: the
blocks of the module hold one line an entry, and reading its literals gives the key with the content as
its type shows it, with the placeholder names and with the content itself. The declaration holds the
same lines, each behind two more spaces, inside of the declaration of the given module id. The manifest is a
document with the same keys and names, and its literal contents are those that the types of the module
show. -/
theorem artifacts_agree (entries : List Entry) (o : Options) (id : String)
    (hmax : o.maxLiteralLength < 2 ^ 64)
    (hlength : ∀ e ∈ entries, (codeUnits e.content.toList).length < 2 ^ 64) :
    let code := split '\n' (Module.render entries o)
    let declared := split '\n' (Declaration.render id entries o)
    ((Module.contentLines code).mapM (entryLine? contentType?)
        = some (entries.map fun e => (e.key, shownContent o e.content)) ∧
      (Module.namesLines code).mapM (entryLine? namesType?)
        = some (entries.map fun e => (e.key, Placeholder.names o.delimiters e.content)) ∧
      (Module.textLines code).mapM (entryLine? text?)
        = some (entries.map fun e => (e.key, e.content))) ∧
    (∃ body, Declaration.body? declared = some (id, body) ∧
      Declaration.contentLines body = (Module.contentLines code).map (fun line => "  " ++ line) ∧
      Declaration.namesLines body = (Module.namesLines code).map (fun line => "  " ++ line)) ∧
    Json.parse? (Manifest.render entries o) = some (.object
      [("delimiters", .array [.string o.delimiters.opening, .string o.delimiters.closing]),
       ("max_literal_length", .integer o.maxLiteralLength),
       ("texts", .array (entries.map fun e => .object
         [("key", .string e.key),
          ("variables", .array ((Placeholder.names o.delimiters e.content).map .string)),
          ("length", .integer (codeUnits e.content.toList).length),
          ("literal", .bool (shownContent o e.content).isSome)]))]) := by
  intro code declared
  refine ⟨⟨?_, ?_, ?_⟩, ⟨Declaration.bodyLines entries o, ?_, ?_, ?_⟩, ?_⟩
  · rw [Module.contentLines_split_render]
    exact mapM_map_eq_some (entryLine?_contentLine o) entries
  · rw [Module.namesLines_split_render]
    exact mapM_map_eq_some (entryLine?_namesLine o) entries
  · rw [Module.textLines_split_render]
    exact mapM_map_eq_some (entryLine?_textLine o) entries
  · exact Declaration.body?_split_render id entries o
  · rw [Module.contentLines_split_render, Declaration.contentLines_bodyLines]
    rfl
  · rw [Module.namesLines_split_render, Declaration.namesLines_bodyLines]
    rfl
  · rw [← Manifest.document_eq]
    exact Json.parse?_indented (Manifest.isPlain_document entries o hmax hlength) (by decide)

/-- A content with quotes and a separator, one that is too long for a type of its own, and two
placeholders. The module id has a quote. -/
theorem artifacts_agree_of_separator :
    let entries : List Entry := [⟨"a\"b", "\u2028;\n"⟩, ⟨"\x7d;", "\x7b\x7bx\x7d\x7d \x7b\x7by\x7d\x7d"⟩]
    let o : Options := ⟨4, .standard⟩
    let code := split '\n' (Module.render entries o)
    (o.maxLiteralLength < 2 ^ 64 ∧
      ∀ e ∈ entries, (codeUnits e.content.toList).length < 2 ^ 64) ∧
    (Module.contentLines code).mapM (entryLine? contentType?)
      = some [("a\"b", some "\u2028;\n"), ("\x7d;", none)] ∧
    (Module.namesLines code).mapM (entryLine? namesType?)
      = some [("a\"b", []), ("\x7d;", ["x", "y"])] ∧
    (Module.textLines code).mapM (entryLine? text?)
      = some [("a\"b", "\u2028;\n"), ("\x7d;", "\x7b\x7bx\x7d\x7d \x7b\x7by\x7d\x7d")] ∧
    (∃ body, Declaration.body? (split '\n' (Declaration.render "m\"" entries o)) = some ("m\"", body) ∧
      Declaration.contentLines body
        = ["    \"a\\\"b\": \"\\u2028;\\n\";", "    \"\x7d;\": string;"] ∧
      Declaration.namesLines body
        = ["    \"a\\\"b\": never;", "    \"\x7d;\": \"x\" | \"y\";"]) ∧
    Json.parse? (Manifest.render entries o) = some (.object
      [("delimiters", .array [.string "\x7b\x7b", .string "\x7d\x7d"]), ("max_literal_length", .integer 4),
       ("texts", .array
         [.object [("key", .string "a\"b"), ("variables", .array []), ("length", .integer 3),
            ("literal", .bool true)],
          .object [("key", .string "\x7d;"), ("variables", .array [.string "x", .string "y"]),
            ("length", .integer 11), ("literal", .bool false)]])]) := by
  intro entries o code
  have hlength : ∀ e ∈ entries, (codeUnits e.content.toList).length < 2 ^ 64 := by decide
  obtain ⟨⟨hcontents, hnames, htexts⟩, ⟨body, hbody, hcontentLines, hnamesLines⟩, hmanifest⟩ :=
    artifacts_agree entries o "m\"" (by decide) hlength
  have hitems : entries.map (fun e => (Placeholder.names o.delimiters e.content,
      (codeUnits e.content.toList).length, (shownContent o e.content).isSome))
      = [([], 3, true), (["x", "y"], 11, false)] := by decide +kernel
  refine ⟨⟨by decide, hlength⟩, hcontents.trans (by decide), hnames.trans (by decide +kernel),
    htexts.trans (by decide), ⟨body, hbody, hcontentLines.trans ?_, hnamesLines.trans ?_⟩,
    hmanifest.trans ?_⟩
  · rw [Module.contentLines_split_render]
    decide +kernel
  · rw [Module.namesLines_split_render]
    decide +kernel
  · simp only [entries, List.map_cons, List.map_nil, List.cons.injEq, Prod.mk.injEq, and_true] at hitems
    simp only [entries, List.map_cons, List.map_nil, hitems]
    rfl

end TextCatalog.Artifact
