import Markdown.Block
import Markdown.Proofs.Ending.Ends
import Markdown.Reference.Definition

set_option autoImplicit false

namespace Markdown

namespace Heading

open Pattern

theorem ends_underlined (reading : Reading Part) : underlined.Ends (fun _ => False) reading := by
  refine ends_sequence 6 (by decide) (Blind.at ?_ rfl reading)
    fun middle _ => ends_many1_or_textEnd rfl middle
  simp

theorem ends_marked (reading : Reading Part) : marked.Ends (fun _ => False) reading := by
  refine ends_sequence 6 (by decide) (Blind.at ?_ rfl reading)
    fun middle _ => ends_many1_or_textEnd rfl middle
  simp

theorem blind_ruleOf (mark : Char) : (ruleOf mark).Blind :=
  ⟨blind_exactly 3 ⟨trivial, trivial⟩, blind_rounds ⟨trivial, trivial⟩ rfl⟩

theorem ends_rule {reading : Reading Empty} (ended : reading.cursor.whole.Ended) :
    rule.Ends (fun _ => False) reading := by
  have blind : rule.Blind := by simp [rule, blind_ruleOf]
  exact (blind.at rfl reading).ends fun _ member =>
    after_ne_nil_of_stopsInLine rfl ended (after_ne_nil_of_takesSome rfl member) member

end Heading

namespace CodeBlock

open Pattern

theorem blind_indentation : indentation.Blind := by
  simp [indentation]

theorem ends_indentedLine (reading : Reading Part) :
    indentedLine.Ends (fun _ => True) reading := by
  refine ends_sequence 2 (by decide) (Blind.at ?_ rfl reading)
    fun middle _ => ends_many1_or_textEnd rfl middle
  simp

theorem ends_codeBlock {reading : Reading Part} (ended : reading.cursor.whole.Ended) :
    codeBlock.Ends (fun _ => True) reading := by
  refine Blind.seq_ends ?_ rfl fun middle member => ?_
  · simp
  · have goes := ended_of_mem_outcomes ended member
    exact Ends.capture trivial goes rfl
      (ends_rounds1 rfl (fun reading _ => ends_indentedLine reading) goes)

end CodeBlock

namespace Quote

open Pattern

/-- A line that continues a paragraph. -/
theorem blindAt_continuation {reading : Reading Part} (ended : reading.cursor.whole.Ended) :
    (Pattern.seq (.many1 inLine) (.char '\n') : Pattern Part).BlindAt reading := by
  refine BlindAt.seq (Blind.at (by simp) rfl reading) fun middle member => ?_
  exact blindAt_one _ (after_ne_nil_of_stopsInLine rfl ended
    (after_ne_nil_of_takesSome rfl member) member)

theorem ends_quotedLines {reading : Reading Part} (ended : reading.cursor.whole.Ended) :
    quotedLines.Ends (fun _ => True) reading := by
  refine ends_sequence 5 (by decide) (Blind.at ?_ rfl reading) fun middle member => ?_
  · simp
  · have goes := ended_of_mem_outcomes ended member
    have more := after_ne_nil_of_stopsInLine rfl ended (after_ne_nil_of_takesSome rfl member) member
    refine BlindAt.seq_ends (BlindAt.either (blindAt_one _ more) (blindAt_textEnd more))
      fun broken inside => ?_
    exact BlindAt.seq_ends (BlindAt.rounds rfl (ended_of_mem_outcomes goes inside)
      fun _ => blindAt_continuation) fun last _ => ends_many rfl last

theorem ends_quote {reading : Reading Part} (ended : reading.cursor.whole.Ended) :
    quote.Ends (fun _ => True) reading :=
  Ends.capture trivial ended rfl (ends_rounds1 rfl (fun _ => ends_quotedLines) ended)

theorem blind_mark : mark.Blind := by
  simp [mark]

end Quote

namespace Listing

open Pattern

theorem blind_markerGap : markerGap.Blind := by
  simp [markerGap, marker]

theorem blind_otherText : otherText.Blind := by
  have filled : (Pattern.before notSpace : Pattern Part).Blind := blind_before rfl
  have apart : (Pattern.ahead false (.seq (.many Text.isBlank) markerGap) : Pattern Part).Blind :=
    blind_ahead (blind_seq.2 ⟨blind_many _, blind_markerGap⟩) rfl false
  simp [otherText, filled, apart]

/-- Other text behind a blank line stands before the end of the text. -/
theorem after_ne_nil_of_otherText {reading later : Reading Part}
    (member : later ∈ otherText.outcomes reading) : later.cursor.after ≠ [] := by
  obtain ⟨_, _, behind⟩ := List.mem_flatMap.1 member
  obtain ⟨gap, _, here⟩ := List.mem_flatMap.1 behind
  obtain ⟨start, filled, apart⟩ := List.mem_flatMap.1 here
  have reached : later = start := by
    change later ∈ (Pattern.ahead false _).outcomes start at apart
    rw [outcomes] at apart
    split at apart
    · exact List.mem_singleton.1 apart
    · cases apart
  rw [Pattern.before, outcomes] at filled
  split at filled
  · next holds =>
    rw [reached, List.mem_singleton.1 filled]
    intro ended
    rw [Cursor.precedes, ended] at holds
    cases holds
  · cases filled

theorem ends_listEnd (reading : Reading Part) : listEnd.Ends (· = .list) reading :=
  Ends.either (ends_many_textEnd rfl reading) (BlindAt.ends
    (blind_otherText.at_of_inside fun _ => after_ne_nil_of_otherText)
    fun _ => after_ne_nil_of_otherText)

theorem outcomes_listEnd_ne_nil {reading : Reading Part} (ended : reading.cursor.after = []) :
    listEnd.outcomes reading ≠ [] := by
  obtain ⟨⟨offset, before, after⟩, captures⟩ := reading
  obtain rfl : after = [] := ended
  simp [listEnd, choice, outcomes, textEnd, Cursor.stops, Cursor.reached, Cursor.atTextEnd]

theorem ends_topList {reading : Reading Part} (ended : reading.cursor.whole.Ended) :
    topList.Ends (· = .list) reading := by
  refine Blind.seq_ends ?_ rfl fun middle member => ?_
  · have behind : (Pattern.place afterBlankLine : Pattern Part).Blind := fun _ => rfl
    simp [behind]
  · have goes := ended_of_mem_outcomes ended member
    refine Ends.capture rfl goes rfl (ends_sequence 3 (by decide)
      (Blind.at ?_ rfl middle) fun gap inside => ?_)
    · simp [marker]
    · exact ends_few1_seq (fun reading _ => ends_listEnd reading) (fun _ => outcomes_listEnd_ne_nil)
        (ended_of_mem_outcomes goes inside)
        (after_ne_nil_of_stopsInLine rfl goes (after_ne_nil_of_takesSome rfl inside) inside)

end Listing

namespace Html

open Pattern

/-- A blank line or the end of the text stands here with one more newline and without it. -/
theorem blindAt_blockEnd {reading : Reading Part} (ended : reading.cursor.whole.Ended) :
    (Pattern.ahead true blockEnd).BlindAt reading := by
  have shown : (blockEnd.outcomes reading.extended).head?.isSome =
      (blockEnd.outcomes reading).head?.isSome := by
    rcases last : reading.cursor.after with _ | ⟨c, _ | ⟨d, rest⟩⟩
    · simp [blockEnd, choice, Pattern.sequence, Pattern.optional, Pattern.char, textEnd, outcomes,
        Reading.extended, Cursor.extended, Cursor.past, Cursor.atTextEnd, last]
    · obtain rfl : c = '\n' := ended c (by simp [Cursor.whole, last])
      simp [blockEnd, choice, Pattern.sequence, Pattern.optional, Pattern.char, textEnd, outcomes,
        Reading.extended, Cursor.extended, Cursor.stops, Cursor.reached, Cursor.past,
        Cursor.atTextEnd, Text.isBlank, last]
    · have more : reading.cursor.after ≠ [] := by simp [last]
      have left : ∀ middle ∈ (Pattern.char '\n').outcomes reading, middle.cursor.after ≠ [] := by
        intro middle member
        obtain ⟨others, next, rfl⟩ := of_mem_char member
        obtain ⟨-, rfl⟩ := List.cons.inj (last.symm.trans next)
        exact List.cons_ne_nil d rest
      have blankLine : (Pattern.sequence [.char '\n', .many Text.isBlank, .char '\n']).BlindAt reading := by
        refine (blindAt_one _ more).seq fun middle member => ?_
        refine (Blind.at (by simp) rfl middle).seq fun stop inside => ?_
        exact blindAt_one _ (after_ne_nil_of_stopsInLine rfl (ended_of_mem_outcomes ended member)
          (left middle member) inside)
      have textEnd : (Pattern.seq (.optional (.char '\n')) .textEnd).BlindAt reading := by
        have nothing : (Pattern.empty : Pattern Part).BlindAt reading := rfl
        refine ((blindAt_one _ more).either nothing).seq fun middle member => blindAt_textEnd ?_
        rcases List.mem_append.1 member with inside | here
        · exact left middle inside
        · rw [List.mem_singleton.1 here]
          exact more
      have both := congrArg List.head? (blankLine.either textEnd)
      rw [List.head?_map] at both
      exact (congrArg Option.isSome both).trans Option.isSome_map
  rw [BlindAt, outcomes, outcomes, shown]
  split <;> rfl

theorem blind_tagInAnyCase (tag : String) : (tagInAnyCase tag).Blind :=
  blind_sequence (List.forall_mem_map.2 fun _ _ => trivial)

theorem blind_element : element.Blind := by
  have tags : (choice (blockTags.map tagInAnyCase)).Blind :=
    blind_choice (List.forall_mem_map.2 fun tag _ => blind_tagInAnyCase tag)
  simp [element, tags, blind_notBefore (show Unicode.isWord '\n' = false by decide)]

theorem ends_htmlBlock {reading : Reading Part} (ended : reading.cursor.whole.Ended) :
    htmlBlock.Ends (fun _ => False) reading := by
  refine BlindAt.ends ?_ fun _ member =>
    after_ne_nil_of_stopsInLine rfl ended (after_ne_nil_of_takesSome rfl member) member
  refine blindAt_sequence 4 (by decide) (Blind.at ?_ rfl reading)
    fun middle member => blindAt_blockEnd (ended_of_mem_outcomes ended member)
  simp [blind_element]

end Html

namespace Definition

open Pattern

theorem blind_definition : definition.Blind := by
  simp [definition, titleGap, title, titleBetween]

/-- A definition takes one newline, of however many. -/
theorem blindAt_definitionLine {reading : Reading Part} (ended : reading.cursor.whole.Ended) :
    definitionLine.BlindAt reading := by
  refine (blind_definition.at rfl reading).seq fun middle member => ?_
  have more := after_ne_nil_of_stopsInLine rfl ended (after_ne_nil_of_takesSome rfl member) member
  have nothing : (Pattern.empty : Pattern Part).BlindAt middle := rfl
  exact (blindAt_one _ more).either nothing

end Definition

namespace Escape

open Pattern

theorem blind_tokenShape : tokenShape.Blind := by
  simp [tokenShape]

end Escape

end Markdown
