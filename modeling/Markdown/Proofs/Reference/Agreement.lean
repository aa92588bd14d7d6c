import Markdown.Compile
import Markdown.Proofs.Paragraph.Passage
import Markdown.Proofs.Pattern.Leads
import Markdown.Proofs.Structure.Document

set_option autoImplicit false

namespace Markdown

/-- Without a match there is nothing to put aside. -/
theorem Html.protectBlocks_of_matches?_eq_nil {text : Text}
    (unmatched : htmlBlock.matches? text = []) (fragments : Fragments) :
    protectBlocks text fragments = (text, fragments) := by
  rw [protectBlocks, Pattern.replaceM_of_matches?_eq_nil unmatched]
  rfl

/-- Without angle brackets a document holds no literal HTML. -/
theorem Html.matches?_htmlBlock_normalize {document : Text} (plain : '<' ∉ document) :
    htmlBlock.matches? (Codec.standard.normalize document) = [] := by
  have none : Glyph.char '<' ∉ Sheet.ofDocument document :=
    (Structure.clean_ofDocument plain).angle_not_mem
  exact (Renaming.prints_normalize document).matches?_of_absent
    (Html.regular_htmlBlock Renaming.same.quiet) rfl
    (Pattern.not_finds_of_not_mem Html.takes_htmlBlock none)

/-- A document without markers in which nothing is put aside as literal HTML. -/
structure Literalless (document : Text) : Prop where
  unmarked : ∀ c ∈ document, Escape.isMarker c = false
  unmatched : Html.htmlBlock.matches? document.unifyNewlines = []

namespace Literalless

variable {document : Text}

theorem of_not_mem (unmarked : ∀ c ∈ document, Escape.isMarker c = false)
    (plain : '<' ∉ document) : Literalless document where
  unmarked := unmarked
  unmatched := by
    rw [← Codec.normalize_of_unmarked unmarked]
    exact Html.matches?_htmlBlock_normalize plain

variable (literalless : Literalless document)
include literalless

/-- The definitions are extracted from the text as it stands. -/
theorem prepare_eq :
    prepare document =
      ⟨Codec.standard.encodeEscapes (ReferenceTable.empty.extract document.unifyNewlines).text,
        .empty, (ReferenceTable.empty.extract document.unifyNewlines).table,
        (ReferenceTable.empty.extract document.unifyNewlines).duplicates⟩ := by
  rw [prepare, Codec.normalize_of_unmarked literalless.unmarked,
    Html.protectBlocks_of_matches?_eq_nil literalless.unmatched]

theorem references_convert (limit : Limit) :
    (convert limit document).references =
      (ReferenceTable.empty.extract document.unifyNewlines).table :=
  congrArg Preparation.references literalless.prepare_eq

theorem duplicates_convert (limit : Limit) :
    (convert limit document).duplicates =
      (ReferenceTable.empty.extract document.unifyNewlines).duplicates :=
  congrArg Preparation.duplicates literalless.prepare_eq

/-- The usages that are told are those that the converter itself cannot look up, and what a
compilation tells beforehand is told of the conversion's own table. -/
theorem told_eq_convert (limit : Limit) (file : Text) :
    findUnresolved document =
        unresolvedUnder (convert limit document).references document.unifyNewlines ∧
      Compilation.surveyEvents file document =
        (convert limit document).duplicates.map .duplicate ++
          (unresolvedUnder (convert limit document).references document.unifyNewlines).map
            (.unresolved file) := by
  rw [literalless.references_convert, literalless.duplicates_convert]
  exact ⟨rfl, rfl⟩

end Literalless

/-- A definition and a usage of another label. -/
theorem told_eq_convert_usage :
    Literalless "[t][a]\n\n[b]: u".toList ∧
      findUnresolved "[t][a]\n\n[b]: u".toList =
        unresolvedUnder (convert .standard "[t][a]\n\n[b]: u".toList).references
          (Text.unifyNewlines "[t][a]\n\n[b]: u".toList) := by
  have literalless : Literalless "[t][a]\n\n[b]: u".toList :=
    .of_not_mem (by decide) (by decide)
  exact ⟨literalless, (literalless.told_eq_convert .standard standardInputName).1⟩

/-- A definition in literal HTML is one for the search of usages, but not for the conversion. -/
example :
    (convert (.levels 1) "<div>\n[a]: u\n</div>".toList).references.entries = [] ∧
      (ReferenceTable.empty.extract "<div>\n[a]: u\n</div>".toList).table.entries =
        [("a".toList, ⟨"u".toList, none⟩)] := by
  decide +kernel

end Markdown
