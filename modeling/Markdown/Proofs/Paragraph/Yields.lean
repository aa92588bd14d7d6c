import Markdown.Proofs.Paragraph.Prose

set_option autoImplicit false

namespace Markdown.Renaming

variable {r : Renaming} {depth : Nat} {first body : Render Text} {early late sheet : Sheet} {text : Text}

variable (r depth) in
/-- With nothing put aside and at the depth, the rendering prints the sheet and puts nothing aside. -/
def Yields (body : Render Text) (sheet : Sheet) : Prop :=
  ∀ level : Level, level.depth = depth → ∃ text later,
    body.run ⟨.empty, level⟩ = (.ok text, ⟨.empty, later⟩) ∧ later.depth = depth ∧
      r.Prints [] sheet text

namespace Yields

theorem pure (prints : r.Prints [] sheet text) : r.Yields depth (Pure.pure text) sheet :=
  fun level here => ⟨text, level, rfl, here, prints⟩

theorem bind {next : Text → Render Text} (begun : r.Yields depth first early)
    (onward : ∀ text, r.Prints [] early text → r.Yields depth (next text) late) :
    r.Yields depth (first >>= next) late := by
  intro level here
  obtain ⟨text, middle, done, there, prints⟩ := begun level here
  rw [run_bind, done]
  exact onward text prints middle there

/-- Without fragments, to finish is to decode the tokens. -/
theorem finish (prints : r.Prints [] sheet text) :
    r.Yields depth (Render.finish text) (Sheet.finish sheet) := by
  intro level here
  have apart : Fragments.empty.NoCollision := fun _ member => absurd member List.not_mem_nil
  exact ⟨_, level, rfl, here, (prints.expand apart).unescape⟩

theorem nested {limit : Limit} (room : depth < limit.value) (yields : r.Yields (depth + 1) body sheet) :
    r.Yields depth (Render.nested limit body) sheet := by
  intro level here
  have entered : level.enter limit = .ok ⟨level.depth + 1, max level.deepest (level.depth + 1)⟩ := by
    rw [Level.enter, if_neg (by omega)]
  obtain ⟨text, later, done, there, prints⟩ :=
    yields ⟨level.depth + 1, max level.deepest (level.depth + 1)⟩ (by rw [here])
  refine ⟨text, later.leave, ?_, ?_, prints⟩
  · rw [Render.run_nested entered]
    dsimp only
    rw [done]
  · rw [Level.leave, there, Nat.add_sub_cancel]

/-- A match and then the rest of a search. -/
theorem found {slot : Type} [DecidableEq slot] {replacement : Match slot → Render Text}
    {f : Find Seal slot} {rest : List (Piece Seal slot)}
    (here : r.Yields depth (replacement (f.read r.face)) early)
    (onward : r.Yields depth (Piece.replacedM r.face replacement rest) late) :
    r.Yields depth (Piece.replacedM r.face replacement (.found f :: rest)) (early ++ late) :=
  here.bind fun _ begun => onward.bind fun _ ended => .pure (begun.append ended)

variable {table : Sheet.Table} {references : ReferenceTable}

theorem paragraphs (tables : r.PrintsTable [] table references) (prints : r.Prints [] sheet text) :
    r.Yields depth (Block.renderParagraphs references text) (Sheet.paragraphs table sheet) := by
  intro level here
  have apart : Fragments.empty.NoCollision := fun _ member => absurd member List.not_mem_nil
  have answer := (Refines.paragraphs tables prints ⟨.empty, level⟩ (List.nil_subset _) apart).2
  have kept : ((Block.renderParagraphs references text).run ⟨.empty, level⟩).2 = ⟨.empty, level⟩ := rfl
  generalize done : (Block.renderParagraphs references text).run ⟨.empty, level⟩ = result at answer kept
  obtain ⟨output, later⟩ := result
  obtain rfl : later = ⟨.empty, level⟩ := kept
  cases answer with
  | ok printed => exact ⟨_, level, rfl, here, printed⟩

variable {limit : Limit} (room : depth < limit.value) (left : Nat)
include room

/-- Prose one level further in. -/
theorem blocks (tables : r.PrintsTable [] table references) (prints : r.Prints [] sheet text)
    (prose : sheet.Prose) (inList : Bool) :
    r.Yields depth ((Block.interior ⟨references, limit⟩ (left + 1)).blocks inList text)
      (Sheet.paragraphs table sheet) := by
  rw [Block.interior]
  dsimp only
  refine nested room ?_
  rw [prints.renderLevel_eq prose.blockless]
  exact paragraphs tables prints

/-- In prose there are no lists. -/
theorem lists (prints : r.Prints [] sheet text) (prose : sheet.Prose) :
    r.Yields depth ((Block.interior ⟨references, limit⟩ (left + 1)).lists text) sheet := by
  rw [Block.interior]
  dsimp only
  refine nested room ?_
  rw [prints.listing_of_blockless prose.blockless]
  exact pure prints

end Yields

end Markdown.Renaming
