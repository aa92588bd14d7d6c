import Markdown.Proofs.Paragraph.Prose

set_option autoImplicit false

namespace Markdown

open Pattern

/-- A key on a block of its own opens no block. -/
theorem Sheet.prose_keyBlock (fragment : Sheet) : (keyBlock fragment).Prose := by
  have lines : keyBlock fragment = ofLines [[], [], [.sealed (.key fragment)], [], []] := rfl
  rw [lines]
  refine prose_ofLines (by simp) fun line member opens => ?_
  obtain ⟨c, rest, rfl, _⟩ := opens.begins
  simp at member

theorem Render.run_setAside (fragment : Text) (progress : Progress) :
    (Render.setAside fragment).run progress =
      (.ok (Fragments.keyBlock fragment),
        { progress with fragments := progress.fragments.insert fragment }) := rfl

namespace Renaming.Prints

variable {r : Renaming} {sheet : Sheet} {text : Text} {table : Sheet.Table}
  {references : ReferenceTable}

/-- The only fragment comes out in the place of its key. -/
theorem map_renderParagraphs_keyBlock (tables : r.PrintsTable [] table references)
    (prints : r.Prints [] sheet text) (level : Level) :
    ((Block.renderParagraphs references (Fragments.keyBlock text)).run
        ⟨Fragments.empty.insert text, level⟩).1.map Codec.standard.decodeMarkers =
      .ok (spell r.bare (Sheet.finish sheet)) := by
  have apart : (Fragments.empty.insert text).NoCollision := by
    change Fragments.Collisionless [text]
    simp [Fragments.Collisionless]
  rw [prints.keyBlock.map_renderParagraphs (tables.mono (List.nil_subset _))
    (List.Subset.refl _) apart, Sheet.paragraphs_keyBlock]

/-- Nothing is found in the key of the only fragment by the passes behind the one for code. -/
theorem map_quotes_keyBlock (tables : r.PrintsTable [] table references)
    (prints : r.Prints [] sheet text) (interior : Interior) (level : Level) :
    ((do
        let text ← Quote.render interior (Fragments.keyBlock text)
        let text ← Render.protectHtml text
        Block.renderParagraphs references text : Render Text).run
          ⟨Fragments.empty.insert text, level⟩).1.map Codec.standard.decodeMarkers =
      .ok (spell r.bare (Sheet.finish sheet)) := by
  have blockless := (Sheet.prose_keyBlock sheet).blockless
  rw [prints.keyBlock.quotes_of_blockless blockless, pure_bind,
    prints.keyBlock.protectHtml_of_blockless blockless, pure_bind]
  exact prints.map_renderParagraphs_keyBlock tables level

/-- Nor by the pass for code. -/
theorem map_codeBlocks_keyBlock (tables : r.PrintsTable [] table references)
    (prints : r.Prints [] sheet text) (interior : Interior) (level : Level) :
    ((do
        let text ← CodeBlock.render (Fragments.keyBlock text)
        let text ← Quote.render interior text
        let text ← Render.protectHtml text
        Block.renderParagraphs references text : Render Text).run
          ⟨Fragments.empty.insert text, level⟩).1.map Codec.standard.decodeMarkers =
      .ok (spell r.bare (Sheet.finish sheet)) := by
  rw [prints.keyBlock.codeBlocks_of_blockless (Sheet.prose_keyBlock sheet).blockless, pure_bind]
  exact prints.map_quotes_keyBlock tables interior level

end Renaming.Prints

end Markdown
