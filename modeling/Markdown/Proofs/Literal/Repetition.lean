import Markdown.Proofs.Literal.Block
import Markdown.Proofs.Reference.Agreement

set_option autoImplicit false

namespace Markdown.Html

open Pattern

/-- A piece of a search for blocks with the key of its element in the place of a match. -/
def keyed (piece : Piece Seal Part) : Sheet :=
  piece.recast fun found => Sheet.keyBlock (found.get .element)

/-- The characters of a text as pieces outside the matches. -/
def outside (text : Text) : List (Piece Seal Part) :=
  (Glyph.chars text).map .plain

theorem flatMap_glyphs_outside (text : Text) :
    (outside text).flatMap Piece.glyphs = Glyph.chars text := by
  simp [outside, List.flatMap_map, Piece.glyphs]

theorem htmlBlocks_eq (sheet : Sheet) :
    Sheet.htmlBlocks sheet = (htmlBlock.pieces Seal.lead sheet).flatMap keyed := rfl

section

variable {pieces : List (Piece Seal Part)} {early late : Sheet}

/-- A glyph that is in no key block was there before. -/
theorem exists_eq_append_of_keyed {c : Char} (inked : c ≠ '\n')
    (whole : pieces.flatMap keyed = early ++ Glyph.char c :: late) :
    ∃ front back, pieces = front ++ .plain (.char c) :: back ∧ front.flatMap keyed = early ∧
      back.flatMap keyed = late := by
  induction pieces generalizing early with
  | nil => simp at whole
  | cons piece pieces ih =>
    cases piece with
    | plain g =>
      cases early with
      | nil =>
        obtain ⟨rfl, rest⟩ := List.cons.inj whole
        exact ⟨[], pieces, rfl, rfl, rest⟩
      | cons h early =>
        obtain ⟨rfl, rest⟩ := List.cons.inj whole
        obtain ⟨front, back, rfl, first, last⟩ := ih rest
        exact ⟨.plain g :: front, back, rfl, by rw [List.flatMap_cons, first]; rfl, last⟩
    | found f =>
      have outside : Glyph.char c ∉ keyed (.found f) := by
        simp [keyed, Piece.recast, Sheet.keyBlock, inked]
      rw [List.flatMap_cons] at whole
      obtain ⟨more, rfl, rest⟩ := exists_of_append_cons whole.symm outside
      obtain ⟨front, back, rfl, first, last⟩ := ih rest
      exact ⟨.found f :: front, back, rfl, by rw [List.flatMap_cons, first], last⟩

/-- A line that stands there stood there before. -/
theorem exists_eq_outside_append_of_keyed {text : Text} (newline : '\n' ∉ text)
    (whole : pieces.flatMap keyed = Glyph.chars text ++ late) :
    ∃ back, pieces = outside text ++ back ∧ back.flatMap keyed = late := by
  induction text generalizing pieces with
  | nil => exact ⟨pieces, rfl, whole⟩
  | cons c text ih =>
    simp only [List.mem_cons, not_or] at newline
    cases pieces with
    | nil => cases whole
    | cons piece pieces =>
      cases piece with
      | plain g =>
        obtain ⟨rfl, rest⟩ := List.cons.inj whole
        obtain ⟨back, rfl, last⟩ := ih newline.2 rest
        exact ⟨back, rfl, last⟩
      | found f =>
        obtain ⟨same, -⟩ := List.cons.inj whole
        exact absurd (Glyph.char.inj same) newline.1

theorem eq_nil_of_keyed (whole : pieces.flatMap keyed = []) : pieces = [] := by
  cases pieces with
  | nil => rfl
  | cons piece pieces => cases piece <;> cases whole

end

variable {sheet : Sheet}

theorem advances_htmlBlock : htmlBlock.Advances Seal.lead :=
  (regular_htmlBlock Renaming.same.quiet).advances

/-- A match is a block, and stands where the glyphs before it end. -/
theorem block_of_pieces {front back : List (Piece Seal Part)} {f : Find Seal Part}
    (whole : htmlBlock.pieces Seal.lead sheet = front ++ .found f :: back) :
    f.start.behind = (front.flatMap Piece.glyphs).reverse ∧ Sheet.StartsLine f.start.behind ∧
      ∃ block : Block, f.glyphs = block.sheet ∧ Ended (back.flatMap Piece.glyphs) := by
  rw [pieces_eq_piecesAhead] at whole
  obtain ⟨here, behind, ahead⟩ := piecesAhead_eq_append advances_htmlBlock whole
  obtain ⟨start, first, onward⟩ := piecesAhead_eq_found advances_htmlBlock ahead
  obtain ⟨starts, block, passes, ended⟩ := exists_block_of_mem (List.mem_of_mem_head? first)
  have stands : f.start.behind = (front.flatMap Piece.glyphs).reverse := by
    rw [start, ← List.append_nil (List.reverse _)]
    exact behind
  refine ⟨stands, start ▸ starts, block, ?_, ?_⟩
  · rw [Find.glyphs, start]
    exact passes.between_eq
  · rw [← onward, piecesAhead, flatMap_glyphs_piecesFrom]
    exact ended

/-- At a glyph that stays as it is no block stands. -/
theorem spots_eq_nil_of_pieces {front back : List (Piece Seal Part)} {g : Glyph Seal}
    (whole : htmlBlock.pieces Seal.lead sheet = front ++ .plain g :: back) :
    htmlBlock.spots Seal.lead
      ⟨(front.flatMap Piece.glyphs).reverse, (Piece.plain g :: back).flatMap Piece.glyphs, []⟩ = [] := by
  rw [pieces_eq_piecesAhead] at whole
  obtain ⟨here, behind, ahead⟩ := piecesAhead_eq_append advances_htmlBlock whole
  obtain ⟨rest, next, none, onward⟩ := piecesAhead_eq_plain ahead
  have same : (Piece.plain g :: back).flatMap Piece.glyphs = here.ahead := by
    rw [← ahead, piecesAhead, flatMap_glyphs_piecesFrom]
  rw [same, ← List.append_nil (List.reverse _)]
  exact behind ▸ none

/-- The glyphs, read from their end, are blanks and the end of a tag before them. -/
def EndsTag (behind : Sheet) : Prop :=
  ∃ (blanks : Text) (line : Sheet), behind = Glyph.chars blanks ++ .char '>' :: line ∧
    ∀ c ∈ blanks, Text.isBlank c = true

/-- The glyphs, read from their end, are a newline and a line that ends in a tag before it. -/
def BelowTag (behind : Sheet) : Prop :=
  ∃ line, behind = .char '\n' :: line ∧ EndsTag line

theorem Block.endsTag (block : Block) (before : Sheet) :
    EndsTag ((Glyph.chars block.closing).reverse ++ before) := by
  refine ⟨block.blanks.reverse, (Glyph.chars ("</".toList ++ block.written)).reverse ++ before, ?_,
    fun c inside => block.blank c (List.mem_reverse.1 inside)⟩
  simp [closing, closingTag, Glyph.chars]

theorem EndsTag.not_startsLine {behind : Sheet} (ends : EndsTag behind) :
    ¬ Sheet.StartsLine behind := by
  obtain ⟨blanks, line, rfl, blank⟩ := ends
  intro starts
  cases blanks with
  | nil => cases starts _ rfl
  | cons c blanks =>
    obtain rfl : c = '\n' := Glyph.char.inj (starts _ rfl)
    exact absurd (blank '\n' List.mem_cons_self) (by decide)

/-- Where the keys of matches make an end of a block, the end of a block was there before, unless a
match stands right below the line with the tag. -/
theorem ended_of_keyed {behind : Sheet} {pieces : List (Piece Seal Part)} (ends : EndsTag behind)
    (apart : ∀ front f back, pieces = front ++ .found f :: back →
      Sheet.StartsLine ((front.flatMap Piece.glyphs).reverse ++ behind) ∧
        ¬ BelowTag ((front.flatMap Piece.glyphs).reverse ++ behind))
    (ended : Ended (pieces.flatMap keyed)) : Ended (pieces.flatMap Piece.glyphs) := by
  cases pieces with
  | nil => exact .nil
  | cons piece pieces =>
    cases piece with
    | found f => exact absurd (apart [] f pieces rfl).1 ends.not_startsLine
    | plain g =>
      generalize whole : (Piece.plain g :: pieces).flatMap keyed = rest at ended
      cases ended with
      | nil => cases whole
      | newline =>
        obtain ⟨rfl, none⟩ := List.cons.inj whole
        obtain rfl := eq_nil_of_keyed none
        exact .newline
      | @blankLine blanks blank more =>
        obtain ⟨rfl, onward⟩ := List.cons.inj whole
        have newline : '\n' ∉ blanks := fun member => absurd (blank _ member) (by decide)
        obtain ⟨back, rfl, last⟩ := exists_eq_outside_append_of_keyed newline onward
        cases back with
        | nil => cases last
        | cons piece back =>
          cases piece with
          | plain h =>
            obtain ⟨rfl, -⟩ := List.cons.inj last
            rw [List.flatMap_cons, List.flatMap_append, flatMap_glyphs_outside]
            exact .blankLine blank _
          | found f =>
            -- The match is on the line below the tag, or it is at the start of no line.
            obtain ⟨starts, not⟩ := apart (.plain (.char '\n') :: outside blanks) f
              back rfl
            rw [List.flatMap_cons, flatMap_glyphs_outside] at starts not
            rcases List.eq_nil_or_concat blanks with rfl | ⟨front, c, rfl⟩
            · exact absurd ⟨behind, rfl, ends⟩ not
            · have here : Glyph.char c = .char '\n' := starts _ (by simp [Piece.glyphs])
              obtain rfl := Glyph.char.inj here
              exact absurd (by simp) newline

theorem Block.exists_head (block : Block) :
    ∃ c more, block.sheet = .char c :: more ∧ (c = ' ' ∨ c = '<') := by
  rw [Block.sheet, Block.opening]
  cases block.spaces with
  | zero => exact ⟨'<', _, rfl, .inr rfl⟩
  | succ count => exact ⟨' ', _, rfl, .inl rfl⟩

/-- A block that stands among the keys stood there before: the keys are in its content. -/
theorem exists_pieces_of_block {block : Block} {pieces : List (Piece Seal Part)} {rest : Sheet}
    (whole : pieces.flatMap keyed = block.sheet ++ rest) :
    ∃ content back, pieces = outside block.opening ++
        (content ++ (outside block.closing ++ back)) ∧
      content.flatMap keyed = block.content ∧ back.flatMap keyed = rest := by
  obtain ⟨tail, closing⟩ : ∃ tail, block.closing = '<' :: tail := ⟨_, rfl⟩
  have newline := block.newline_not_mem_closing
  rw [closing] at newline
  rw [Block.sheet, closing, List.append_assoc, List.append_assoc] at whole
  obtain ⟨inner, rfl, onward⟩ :=
    exists_eq_outside_append_of_keyed block.newline_not_mem_opening whole
  obtain ⟨content, behind, rfl, first, last⟩ := exists_eq_append_of_keyed (by decide) onward
  obtain ⟨back, rfl, after⟩ :=
    exists_eq_outside_append_of_keyed (fun member => newline (List.mem_cons_of_mem _ member)) last
  exact ⟨content, back, by rw [closing]; rfl, first, after⟩

variable {front back : List (Piece Seal Part)}

/-- Where a line starts behind keys one started before. -/
theorem startsLine_of_keyed {c : Char} (inked : c ≠ '\n')
    (whole : htmlBlock.pieces Seal.lead sheet = front ++ .plain (.char c) :: back)
    (starts : Sheet.StartsLine (front.flatMap keyed).reverse) :
    Sheet.StartsLine (front.flatMap Piece.glyphs).reverse := by
  rcases List.eq_nil_or_concat front with rfl | ⟨less, piece, rfl⟩
  · exact starts
  · rw [List.concat_eq_append] at whole starts ⊢
    cases piece with
    | plain g => simpa [Sheet.StartsLine, keyed, Piece.recast, Piece.glyphs] using starts
    | found f =>
      -- Behind a match stands a newline, if anything.
      rw [List.append_assoc] at whole
      obtain ⟨-, -, -, -, ended⟩ := block_of_pieces whole
      exact absurd (Glyph.char.inj (ended.head _ rfl)) inked

/-- Where no word goes on behind keys none did before. -/
theorem apart_of_keyed {content : List (Piece Seal Part)}
    (whole : htmlBlock.pieces Seal.lead sheet = front ++ (content ++ back))
    (apart : ∀ g ∈ (content.flatMap keyed).head?, g.fits Seal.lead Unicode.isWord = false) :
    ∀ g ∈ (content.flatMap Piece.glyphs).head?, g.fits Seal.lead Unicode.isWord = false := by
  cases content with
  | nil => exact apart
  | cons piece content =>
    cases piece with
    | plain g => exact apart
    | found f =>
      obtain ⟨-, -, block, glyphs, -⟩ := block_of_pieces whole
      obtain ⟨c, more, same, mark⟩ := block.exists_head
      intro g here
      rw [List.flatMap_cons, Piece.glyphs, glyphs, same] at here
      obtain rfl := Option.some.inj here
      rcases mark with rfl | rfl <;> decide

/-- Where no block stands right below a line that ends in a tag, none is left once the blocks are put
aside. -/
theorem absent_htmlBlocks (apart : ∀ f, .found f ∈ htmlBlock.pieces Seal.lead sheet →
    ¬ BelowTag f.start.behind) : htmlBlock.Absent Seal.lead (Sheet.htmlBlocks sheet) := by
  intro f finds
  obtain ⟨starts, block, passes, ended⟩ := exists_block_of_mem finds.mem
  obtain ⟨c, more, head, mark⟩ := block.exists_head
  have inked : c ≠ '\n' := by rcases mark with rfl | rfl <;> decide
  have whole := finds.whole
  rw [passes.ahead, head, htmlBlocks_eq] at whole
  obtain ⟨front, later, pieces, early, late⟩ := exists_eq_append_of_keyed inked whole.symm
  have here : (Piece.plain (.char c) :: later).flatMap keyed = block.sheet ++ f.stop.ahead := by
    rw [List.flatMap_cons, late, head]
    rfl
  obtain ⟨content, back, same, inside, after⟩ := exists_pieces_of_block here
  have none := spots_eq_nil_of_pieces pieces
  have starts : Sheet.StartsLine (front.flatMap Piece.glyphs).reverse :=
    startsLine_of_keyed inked pieces (by rwa [early, List.reverse_reverse])
  rw [same] at pieces none
  -- Before, the same block stood there with what its content was then.
  let stood : Block := { block with
    content := content.flatMap Piece.glyphs
    apart := apart_of_keyed (by rw [pieces, List.append_assoc]) (inside ▸ block.apart) }
  have ended : Ended (back.flatMap Piece.glyphs) := by
    refine ended_of_keyed (block.endsTag ((front ++ (outside block.opening ++
      content)).flatMap Piece.glyphs).reverse) (fun less k most rest => ?_) (after ▸ ended)
    have whole : htmlBlock.pieces Seal.lead sheet = front ++ (outside block.opening ++
        (content ++ (outside block.closing ++ less))) ++ .found k :: most := by
      rw [pieces, rest]
      simp
    obtain ⟨behind, begins, -⟩ := block_of_pieces whole
    have stands : (less.flatMap Piece.glyphs).reverse ++ ((Glyph.chars block.closing).reverse ++
        ((front ++ (outside block.opening ++ content)).flatMap
          Piece.glyphs).reverse) = k.start.behind := by
      rw [behind]
      simp [flatMap_glyphs_outside]
    rw [stands]
    exact ⟨begins, apart k (whole ▸ by simp)⟩
  refine stood.spots_ne_nil starts ended [] ?_
  have glyphs : (outside block.opening ++
      (content ++ (outside block.closing ++ back))).flatMap Piece.glyphs =
        stood.sheet ++ back.flatMap Piece.glyphs := by
    simp [flatMap_glyphs_outside, stood, Block.sheet, Block.opening, Block.closing]
  rwa [← glyphs]

/-- A text, read from its end, is a newline and a line before it that ends in an angle bracket, but for
blanks behind the bracket. -/
def belowTag : Text → Bool
  | '\n' :: line => (line.dropWhile Text.isBlank).head? == some '>'
  | _ => false

theorem spellBack_chars (face : Seal → Text) (text : Text) :
    spellBack face (Glyph.chars text) = text := by
  induction text with
  | nil => rfl
  | cons c rest ih => simpa [Glyph.spell] using ih

theorem BelowTag.belowTag_spellBack {behind : Sheet} (below : BelowTag behind) (face : Seal → Text) :
    belowTag (spellBack face behind) = true := by
  obtain ⟨line, rfl, blanks, front, rfl, blank⟩ := below
  have inked : Text.isBlank '>' = false := rfl
  rw [spellBack_cons, spellBack_append, spellBack_chars]
  simp [belowTag, Glyph.spell, List.dropWhile_append_of_pos blank, inked]

/-- Putting the blocks aside once more changes nothing, where none of them stands right below a line that
ends in a tag. -/
theorem protectBlocks_again {text : Text}
    (apart : ∀ found ∈ htmlBlock.matches? text, belowTag found.start.before = false)
    (fragments : Fragments) :
    protectBlocks (protectBlocks text fragments).1 (protectBlocks text fragments).2 =
      protectBlocks text fragments := by
  have regular := regular_htmlBlock Renaming.same.quiet
  have judged : (Html.outline Seal.lead).lead = Seal.lead := rfl
  have once := protectBlocks_spell Renaming.same (Glyph.chars text) fragments
  rw [spell_chars] at once
  have absent : htmlBlock.Absent Seal.lead (Sheet.htmlBlocks (Glyph.chars text)) := by
    refine absent_htmlBlocks fun f member below => ?_
    have here : f.read Renaming.same.face ∈ htmlBlock.matches? text := by
      have inside := read_mem_matches? regular (judged ▸ member)
      rwa [spell_chars] at inside
    have not := apart _ here
    change belowTag (spellBack _ f.start.behind) = false at not
    rw [below.belowTag_spellBack] at not
    cases not
  have none : htmlBlock.matches?
      (spell Renaming.same.face (Sheet.htmlBlocks (Glyph.chars text))) = [] := by
    rw [matches?_spell regular, judged, absent.pieces_eq]
    simp [List.filterMap_map, Piece.find?]
  rw [once]
  exact protectBlocks_of_matches?_eq_nil none _

/-- A block below an empty line. -/
theorem protectBlocks_again_below :
    let once := protectBlocks "a\n\n<div>b</div>".toList .empty
    protectBlocks once.1 once.2 = once :=
  protectBlocks_again (by decide +kernel) .empty

/-- The key of the second element stands between blank lines, and the first one is a block from then
on. -/
example :
    let once := protectBlocks "<div>a</div>\n<p>b</p>".toList .empty
    let twice := protectBlocks once.1 once.2
    once.2.history = ["<p>b</p>".toList] ∧
      twice.2.history = ["<div>a</div>".toList, "<p>b</p>".toList] := by
  decide +kernel

end Markdown.Html
