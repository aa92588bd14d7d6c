import Markdown.Proofs.Literal.Document

set_option autoImplicit false

namespace Markdown.Html

open Pattern

/-- A name that is alike to the form of a tag name has no newline in it. -/
theorem newline_not_mem_of_alike {tag : String} {name written : Text} (known : tag ∈ blockTags)
    (form : IsForm tag name)
    (alike : written.map Unicode.lowerChar = name.map Unicode.lowerChar) : '\n' ∉ written := by
  have letters : ∀ tag ∈ blockTags, Unicode.lowerChar '\n' ∉ tag.toList := by decide
  have others : Unicode.lowerChar '\u0131' ≠ Unicode.lowerChar '\n' ∧
      Unicode.lowerChar '\u017f' ≠ Unicode.lowerChar '\n' := by decide
  intro member
  have lowered := List.mem_map_of_mem (f := Unicode.lowerChar) member
  rw [alike] at lowered
  obtain ⟨c, inside, same⟩ := List.mem_map.1 lowered
  obtain ⟨letter, within, here⟩ := exists_of_forall₂ form inside
  simp only [Unicode.isFormOf, Bool.or_eq_true, Bool.and_eq_true, beq_iff_eq] at here
  rcases here with (small | ⟨-, rfl⟩) | ⟨-, rfl⟩
  · exact letters tag known (same ▸ small ▸ within)
  · exact others.1 same
  · exact others.2 same

/-- A block of literal HTML, with the spaces in front of its element and the blanks behind it. -/
structure Block where
  spaces : Nat
  tag : String
  name : Text
  content : Sheet
  written : Text
  blanks : Text
  few : spaces ≤ 3
  known : tag ∈ blockTags
  form : IsForm tag name
  apart : ∀ g ∈ content.head?, g.fits Seal.lead Unicode.isWord = false
  alike : written.map Unicode.lowerChar = name.map Unicode.lowerChar
  blank : ∀ c ∈ blanks, Text.isBlank c = true

namespace Block

variable (block : Block)

def opening : Text :=
  List.replicate block.spaces ' ' ++ '<' :: block.name

def closing : Text :=
  closingTag block.written ++ block.blanks

def sheet : Sheet :=
  Glyph.chars block.opening ++ (block.content ++ Glyph.chars block.closing)

theorem newline_not_mem_opening : '\n' ∉ block.opening := by
  have name := newline_not_mem_of_alike block.known block.form rfl
  simp [opening, name]

theorem newline_not_mem_closing : '\n' ∉ block.closing := by
  have written := newline_not_mem_of_alike block.known block.form block.alike
  have blanks : '\n' ∉ block.blanks := fun member => absurd (block.blank _ member) (by decide)
  simp [closing, closingTag, written, blanks]

end Block

variable {behind rest : Sheet} {captures : List (Part × Sheet)} {spot later : Spot Seal Part}

theorem exists_blanks_of_mem_many {slot : Type} [DecidableEq slot] {spot later : Spot Seal slot}
    (member : later ∈ (Pattern.many Text.isBlank).spots Seal.lead spot) :
    ∃ blanks : Text, spot.Passes (Glyph.chars blanks) later ∧
      ∀ c ∈ blanks, Text.isBlank c = true := by
  obtain ⟨passed, passes, each, -⟩ := exists_passes_of_mem_stops (List.mem_reverse.1 member)
  obtain ⟨blanks, rfl, blank⟩ :=
    exists_chars_of_fits (o := Html.outline Seal.lead) Renaming.same.quiet.shuns_blank each
  exact ⟨blanks, passes, blank⟩

theorem exists_spaces_of_mem_upTo {slot : Type} [DecidableEq slot] {spot later : Spot Seal slot}
    (member : later ∈ (Pattern.upTo 3 (.char ' ')).spots Seal.lead spot) :
    ∃ count ≤ 3, spot.Passes (Glyph.chars (List.replicate count ' ')) later := by
  obtain ⟨passed, passes, few, each⟩ :=
    @takes_upTo slot _ (· == ' ') (· == ' ') (by decide) (fun _ => id) 3 _ _ member
  refine ⟨passed.length, few, ?_⟩
  have spaces : passed = Glyph.chars (List.replicate passed.length ' ') := by
    rw [Glyph.chars, List.map_replicate]
    refine List.eq_replicate_of_mem fun g inside => ?_
    obtain ⟨c, rfl, same⟩ := each g inside
    rw [eq_of_beq same]
  rwa [← spaces]

theorem ended_of_blockEnd (some : blockEnd.spots Seal.lead spot ≠ []) : Ended spot.ahead := by
  obtain ⟨later, member⟩ := List.exists_mem_of_ne_nil _ some
  rcases List.mem_append.1 member with blankLine | ended
  · obtain ⟨first, early, onward⟩ := List.mem_flatMap.1 blankLine
    obtain ⟨second, passed, late⟩ := List.mem_flatMap.1 onward
    obtain ⟨_, front, rfl⟩ := takes_char (by decide) _ _ early
    obtain ⟨_, back, rfl⟩ := takes_char (by decide) _ _ late
    obtain ⟨blanks, between, blank⟩ := exists_blanks_of_mem_many passed
    rw [front.ahead, between.ahead, back.ahead]
    exact .blankLine blank _
  · obtain ⟨middle, early, late⟩ := List.mem_flatMap.1 ended
    have last := ahead_eq_nil (holds_of_mem_place late).2
    rcases List.mem_append.1 early with newline | nothing
    · obtain ⟨_, passes, rfl⟩ := takes_char (by decide) _ _ newline
      rw [passes.ahead, last]
      exact .newline
    · obtain rfl := List.mem_singleton.1 nothing
      rw [last]
      exact .nil

theorem exists_element_of_mem (member : later ∈ element.spots Seal.lead spot) :
    ∃ tag ∈ blockTags, ∃ (name : Text) (content : Sheet) (written : Text), IsForm tag name ∧
      (∀ g ∈ content.head?, g.fits Seal.lead Unicode.isWord = false) ∧
      written.map Unicode.lowerChar = name.map Unicode.lowerChar ∧
      spot.Passes (.char '<' :: (Glyph.chars name ++
        (content ++ Glyph.chars (closingTag written)))) later := by
  obtain ⟨opened, bracket, onward⟩ := List.mem_flatMap.1 member
  obtain ⟨named, caught, onward⟩ := List.mem_flatMap.1 onward
  obtain ⟨inner, choice, rfl⟩ := List.mem_map.1 caught
  obtain ⟨same, ends, onward⟩ := List.mem_flatMap.1 onward
  obtain ⟨closed, between, late⟩ := List.mem_flatMap.1 onward
  obtain ⟨_, first, rfl⟩ := takes_char (by decide) _ _ bracket
  obtain ⟨tag, known, name, form, second, -⟩ := exists_form_of_mem_tags choice
  obtain rfl := mem_spots_place ends
  obtain ⟨content, third, -, kept⟩ := exists_passes_of_mem_stops between
  have tagged : closed.get? .tag = some (Glyph.chars name) := by
    rw [Spot.get?, kept, second.between_eq]
    rfl
  obtain ⟨written, alike, fourth⟩ := exists_closingTag_of_mem tagged late
  refine ⟨tag, known, name, content, written, form, fun g here => ?_, alike, ?_⟩
  · -- A word character behind the name would stop the match.
    obtain ⟨more, rfl⟩ := List.head?_eq_some_iff.1 here
    refine Bool.eq_false_iff.2 fun word => ?_
    rw [show inner.ahead = g :: (more ++ closed.ahead) from third.ahead,
      spots_notBefore_of_fits word] at ends
    cases ends
  · have third : inner.Passes content closed := ⟨third.behind, third.ahead⟩
    exact first.trans (second.trans (third.trans fourth))

/-- A match begins where a line does, passes a block and stops in front of the end of a block. -/
theorem exists_block_of_mem (member : later ∈ htmlBlock.spots Seal.lead spot) :
    Sheet.StartsLine spot.behind ∧ ∃ block : Block, spot.Passes block.sheet later ∧
      Ended later.ahead := by
  obtain ⟨line, start, onward⟩ := List.mem_flatMap.1 member
  have starts := endsLine_lineStart _ _ start
  obtain rfl := mem_spots_place start
  obtain ⟨indented, spaces, onward⟩ := List.mem_flatMap.1 onward
  obtain ⟨caught, inElement, onward⟩ := List.mem_flatMap.1 onward
  obtain ⟨inner, way, rfl⟩ := List.mem_map.1 inElement
  obtain ⟨padded, blanks, ended⟩ := List.mem_flatMap.1 onward
  obtain ⟨count, few, first⟩ := exists_spaces_of_mem_upTo spaces
  obtain ⟨tag, known, name, content, written, form, apart, alike, second⟩ :=
    exists_element_of_mem way
  obtain ⟨gap, third, blank⟩ := exists_blanks_of_mem_many blanks
  obtain ⟨rfl, some⟩ := of_mem_ahead ended
  have third : inner.Passes (Glyph.chars gap) later := ⟨third.behind, third.ahead⟩
  refine ⟨starts, ⟨count, tag, name, content, written, gap, few, known, form, apart, alike, blank⟩,
    ?_, ended_of_blockEnd some⟩
  have passes := first.trans (second.trans third)
  simpa [Block.sheet, Block.opening, Block.closing] using passes

namespace Block

variable (block : Block)

def element : Sheet :=
  .char '<' :: (Glyph.chars block.name ++ (block.content ++ Glyph.chars (closingTag block.written)))

theorem sheet_eq : block.sheet =
    Glyph.chars (List.replicate block.spaces ' ') ++ (block.element ++ Glyph.chars block.blanks) := by
  simp [sheet, opening, closing, element]

theorem mem_element (behind rest : Sheet) (captures : List (Part × Sheet)) :
    (⟨block.element.reverse ++ behind, rest, (.tag, Glyph.chars block.name) :: captures⟩ :
      Spot Seal Part) ∈
        Html.element.spots Seal.lead ⟨behind, block.element ++ rest, captures⟩ := by
  have whole : block.element ++ rest = .char '<' :: (Glyph.chars block.name ++
      (block.content ++ (Glyph.chars (closingTag block.written) ++ rest))) := by
    simp [element]
  have back : block.element.reverse ++ behind = (Glyph.chars (closingTag block.written)).reverse ++
      (block.content.reverse ++ ((Glyph.chars block.name).reverse ++ .char '<' :: behind)) := by
    simp [element]
  have onward : ∀ g ∈ (block.content ++ (Glyph.chars (closingTag block.written) ++ rest)).head?,
      g.fits Seal.lead Unicode.isWord = false := by
    intro g here
    cases content : block.content with
    | nil =>
      rw [content] at here
      obtain rfl := Option.some.inj here
      decide
    | cons h more =>
      rw [content] at here
      exact block.apart g (content ▸ here)
  have every : ∀ g ∈ block.content, g.fits Seal.lead Pattern.anything = true := by
    intro g _
    cases g <;> rfl
  have name := mem_capture .tag (@mem_tags (.char '<' :: behind)
    (block.content ++ (Glyph.chars (closingTag block.written) ++ rest)) captures _ _ block.form
    block.known) ⟨rfl, rfl⟩
  rw [whole, back]
  exact mem_spots_seq (goes_char '<').mem (mem_spots_seq name
    (mem_spots_seq (goes_notBefore onward).mem (mem_spots_seq (mem_few every)
      (goes_closing block.alike rfl).mem)))

/-- At the start of a line and in front of the end of a block there is a match. -/
theorem spots_ne_nil {behind rest : Sheet} (starts : Sheet.StartsLine behind) (ended : Ended rest)
    (captures : List (Part × Sheet)) :
    htmlBlock.spots Seal.lead ⟨behind, block.sheet ++ rest, captures⟩ ≠ [] := by
  have blanks : ∀ g ∈ (Glyph.chars block.blanks : Sheet), g.fits Seal.lead Text.isBlank = true := by
    intro g member
    obtain ⟨c, inside, rfl⟩ := Glyph.mem_chars.1 member
    exact block.blank c inside
  rw [sheet_eq, List.append_assoc, List.append_assoc]
  have caught := mem_capture .element (block.mem_element
    ((Glyph.chars (List.replicate block.spaces ' ')).reverse ++ behind)
    (Glyph.chars block.blanks ++ rest) captures) ⟨rfl, rfl⟩
  exact List.ne_nil_of_mem (mem_spots_seq (goes_lineStart starts).mem
    (mem_spots_seq (mem_upTo_char ' ' block.few) (mem_spots_seq caught
      (mem_spots_seq (mem_many blanks) (goes_ahead (ended.spots_ne_nil _ _)).mem))))

end Block

end Markdown.Html
