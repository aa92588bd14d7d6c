import Markdown.Proofs.Sheet.Block
import Markdown.Proofs.Glyph.Trace

set_option autoImplicit false

namespace Markdown

/-- A character that patterns pass over. -/
def isMarkup (c : Char) : Bool :=
  Text.isBlank c || Text.isNewline c || Unicode.isDigit c || "#=-*_+.>\x60".toList.contains c

/-- A glyph that patterns pass over. -/
def Glyph.Markup (g : Glyph Seal) : Prop :=
  ∃ c, g = .char c ∧ isMarkup c = true

/-- There is nothing but markup. -/
def Sheet.Markup (sheet : Sheet) : Prop :=
  ∀ g ∈ sheet, g.Markup

theorem Sheet.Markup.append {first second : Sheet} (left : first.Markup) (right : second.Markup) :
    (first ++ second).Markup :=
  List.forall_mem_append.2 ⟨left, right⟩

namespace Pattern

variable {slot : Type} [DecidableEq slot]

/-- A pattern that passes markup only. -/
abbrev OnlyMarkup (pattern : Pattern slot) : Prop :=
  pattern.Only Seal.lead Glyph.Markup

theorem markup_of_fits {accepts : Char → Bool} (hidden : accepts Escape.opening = false)
    (within : ∀ c, accepts c = true → isMarkup c = true) (g : Glyph Seal)
    (fits : g.fits Seal.lead accepts = true) : g.Markup := by
  obtain ⟨c, rfl, here⟩ := exists_char_of_fits hidden fits
  exact ⟨c, rfl, within c here⟩

theorem markup_of_isBlank (g : Glyph Seal) (fits : g.fits Seal.lead Text.isBlank = true) :
    g.Markup :=
  markup_of_fits (by decide) (fun c here => by simp [isMarkup, here]) g fits

theorem markup_of_isNewline (g : Glyph Seal) (fits : g.fits Seal.lead Text.isNewline = true) :
    g.Markup :=
  markup_of_fits (by decide) (fun c here => by simp [isMarkup, here]) g fits

theorem markup_of_eq {c : Char} (mark : isMarkup c = true) (g : Glyph Seal)
    (fits : g.fits Seal.lead (· == c) = true) : g.Markup := by
  have hidden : (Escape.opening == c) = false := by
    refine beq_false_of_ne ?_
    rintro rfl
    exact absurd mark (by decide)
  refine markup_of_fits hidden (fun d here => ?_) g fits
  rw [show d = c by simpa using here]
  exact mark

theorem onlyMarkup_char {c : Char} (mark : isMarkup c = true) :
    (Pattern.char c : Pattern slot).OnlyMarkup :=
  .one (markup_of_eq mark)

theorem onlyMarkup_space : (Pattern.char ' ' : Pattern slot).OnlyMarkup :=
  onlyMarkup_char (by decide)

theorem onlyMarkup_newline : (Pattern.char '\n' : Pattern slot).OnlyMarkup :=
  onlyMarkup_char (by decide)

theorem onlyMarkup_literal {text : Text} (marks : ∀ c ∈ text, isMarkup c = true) :
    (Pattern.literal text : Pattern slot).OnlyMarkup := by
  refine .sequence fun pattern member => ?_
  obtain ⟨c, inside, rfl⟩ := List.mem_map.1 member
  exact onlyMarkup_char (marks c inside)

theorem frames_capture (name : slot) (body : Pattern slot) :
    (Pattern.capture name body).Frames Seal.lead name Sheet.Markup Sheet.Markup := by
  intro spot later member
  obtain ⟨a, caught, b, passes, found, rfl, rfl⟩ := Frames.capture name body spot later member
  exact ⟨[], caught, [], passes, found, by simp [Sheet.Markup], by simp [Sheet.Markup]⟩

variable {name : slot} {first second : Pattern slot}

/-- Markup before a frame belongs to it. -/
theorem Frames.markupBehind (only : first.OnlyMarkup)
    (frames : second.Frames Seal.lead name Sheet.Markup Sheet.Markup) :
    (first.seq second).Frames Seal.lead name Sheet.Markup Sheet.Markup :=
  Frames.behind only frames fun _ _ => .append

/-- Markup after a frame belongs to it. -/
theorem Frames.markupAhead (frames : first.Frames Seal.lead name Sheet.Markup Sheet.Markup)
    (only : second.OnlyMarkup) (spares : second.Captures Seal.lead fun other _ => other ≠ name) :
    (first.seq second).Frames Seal.lead name Sheet.Markup Sheet.Markup :=
  Frames.ahead frames only spares fun _ _ => .append

end Pattern

open Pattern

namespace Heading

theorem onlyMarkup_ending : ending.OnlyMarkup :=
  Only.either (.many1 markup_of_isNewline) (.place _)

theorem onlyMarkup_rule : rule.OnlyMarkup := by
  have ofMark : ∀ mark, isMarkup mark = true → (ruleOf mark).OnlyMarkup := by
    intro mark here
    have round : (Pattern.seq (.char mark) (.many Text.isBlank) : Pattern Empty).OnlyMarkup :=
      (onlyMarkup_char here).seq (.many markup_of_isBlank)
    exact (round.exactly 3).seq round.rounds
  refine Only.seq (.place _) ((Only.upTo onlyMarkup_space 3).seq (Only.seq ?_ (.place _)))
  exact (ofMark '*' (by decide)).either
    ((ofMark '-' (by decide)).either (ofMark '_' (by decide)))

theorem frames_underlined : underlined.Frames Seal.lead .content Sheet.Markup Sheet.Markup := by
  have underline : (Pattern.capture .underline
      (.choice [.many1 (· == '='), .many1 (· == '-')]) : Pattern Part).OnlyMarkup :=
    .capture _ ((Only.many1 (markup_of_eq (by decide))).either
      (.many1 (markup_of_eq (by decide))))
  refine .markupBehind (.place _) (.markupAhead (frames_capture _ _) ?_ ?_)
  · exact (Only.many markup_of_isBlank).seq (Only.seq onlyMarkup_newline
      (underline.seq ((Only.many markup_of_isBlank).seq onlyMarkup_ending)))
  · simp [Captures, Pattern.sequence, choice, many1, char, ending, textEnd]

theorem frames_marked : marked.Frames Seal.lead .content Sheet.Markup Sheet.Markup := by
  have marks : (Pattern.capture .marks (.seq (.char '#') (.upTo 5 (.char '#'))) :
      Pattern Part).OnlyMarkup :=
    .capture _ (Only.seq (onlyMarkup_char (by decide)) (Only.upTo (onlyMarkup_char (by decide)) 5))
  refine .markupBehind (.place _) (.markupBehind marks
    (.markupBehind (.many markup_of_isBlank) (.markupAhead (frames_capture _ _) ?_ ?_)))
  · exact (Only.many markup_of_isBlank).seq ((Only.many (markup_of_eq (by decide))).seq
      onlyMarkup_ending)
  · simp [Captures, Pattern.sequence, choice, many1, ending, textEnd]

end Heading

namespace Listing

theorem onlyMarkup_marker : marker.OnlyMarkup := by
  refine Only.either (.one (markup_of_fits (by decide) fun c here => ?_))
    (Only.seq ?_ (onlyMarkup_char (by decide)))
  · have marks : c = '*' ∨ c = '+' ∨ c = '-' := by simpa [or_assoc] using here
    rcases marks with rfl | rfl | rfl <;> decide
  · exact .many1 (markup_of_fits (by decide) fun c here => by simp [isMarkup, here])

theorem onlyMarkup_markerGap : markerGap.OnlyMarkup :=
  onlyMarkup_marker.seq (.many1 markup_of_isBlank)

theorem frames_listBody : listBody.Frames Seal.lead .list Sheet.Markup Sheet.Markup :=
  frames_capture _ _

theorem frames_topList : topList.Frames Seal.lead .list Sheet.Markup Sheet.Markup :=
  .markupBehind (Only.either (.place _) (Only.seq (.place _) (Only.optional onlyMarkup_newline)))
    frames_listBody

theorem frames_nestedList : nestedList.Frames Seal.lead .list Sheet.Markup Sheet.Markup :=
  .markupBehind (.place _) frames_listBody

theorem frames_item : item.Frames Seal.lead .content Sheet.Markup Sheet.Markup := by
  refine .markupBehind ((Only.capture _ onlyMarkup_newline).optional) (.markupBehind
    (.capture _ (Only.seq (.place _) (.many markup_of_isBlank))) (.markupBehind onlyMarkup_markerGap
      (.markupAhead (frames_capture _ _) (.ahead _ _) ?_)))
  simp [Captures, Pattern.sequence]

theorem onlyMarkup_newlines : newlines.OnlyMarkup :=
  Only.seq onlyMarkup_newline (.many1 markup_of_isNewline)

theorem onlyMarkup_finalNewlines : finalNewlines.OnlyMarkup :=
  onlyMarkup_newlines.seq (.place _)

end Listing

namespace CodeBlock

theorem onlyMarkup_indentation : indentation.OnlyMarkup :=
  Only.seq (.place _) (Only.either (onlyMarkup_char (by decide))
    (Only.seq onlyMarkup_space (Only.upTo onlyMarkup_space 3)))

theorem frames_codeBlock : codeBlock.Frames Seal.lead .code Sheet.Markup Sheet.Markup :=
  .markupBehind (Only.either (onlyMarkup_literal (by decide))
      (Only.seq (.place _) (Only.optional onlyMarkup_newline)))
    (frames_capture _ _)

end CodeBlock

namespace Quote

theorem frames_quote : quote.Frames Seal.lead .lines Sheet.Markup Sheet.Markup :=
  frames_capture _ _

theorem onlyMarkup_mark : mark.OnlyMarkup :=
  Only.seq (.place _) ((Only.many markup_of_isBlank).seq (Only.seq (onlyMarkup_char (by decide))
    (Only.either ((Only.many markup_of_isBlank).seq (.place _))
      (Only.optional (.one markup_of_isBlank)))))

end Quote

theorem Block.onlyMarkup_blankLines : Block.blankLines.OnlyMarkup :=
  Only.seq onlyMarkup_newline (Only.rounds1 ((Only.many markup_of_isBlank).seq onlyMarkup_newline))

theorem Inline.onlyMarkup_hardBreak : Inline.hardBreak.OnlyMarkup :=
  Only.seq onlyMarkup_space ((Only.many1 (markup_of_eq (by decide))).seq onlyMarkup_newline)

/-- A hard break is made of two spaces or more and a newline. -/
theorem Inline.takes_hardBreak : hardBreak.Takes Seal.lead fun passed =>
    ∃ count, passed = List.replicate (count + 2) (Glyph.char ' ') ++ [Glyph.char '\n'] := by
  have space : ∀ g : Glyph Seal, g.fits Seal.lead (· == ' ') = true → g = .char ' ' := by
    intro g fits
    obtain ⟨c, rfl, here⟩ := exists_char_of_fits (by decide) fits
    rw [beq_iff_eq.1 here]
  have more : (Pattern.many (· == ' ') : Pattern Empty).Takes Seal.lead
      fun passed => ∀ g ∈ passed, g = .char ' ' := Only.many space
  have spaces : (Pattern.many1 (· == ' ') : Pattern Empty).Takes Seal.lead
      fun passed => ∃ count, passed = List.replicate (count + 1) (Glyph.char ' ') := by
    refine Takes.one.seq more ?_
    rintro _ passed ⟨g, rfl, fits⟩ each
    refine ⟨passed.length, ?_⟩
    rw [space g fits, List.replicate_succ, ← List.eq_replicate_of_mem each, List.singleton_append]
  have newline : (Pattern.char '\n' : Pattern Empty).Takes Seal.lead (· = [.char '\n']) :=
    takes_char (by decide)
  have ending : (Pattern.sequence [.many1 (· == ' '), .char '\n'] : Pattern Empty).Takes Seal.lead
      fun passed => ∃ count, passed = List.replicate (count + 1) (Glyph.char ' ') ++ [Glyph.char '\n'] := by
    refine spaces.seq newline ?_
    rintro _ _ ⟨count, rfl⟩ rfl
    exact ⟨count, rfl⟩
  refine (takes_char (c := ' ') (by decide)).seq ending ?_
  rintro _ _ rfl ⟨count, rfl⟩
  exact ⟨count, rfl⟩

namespace CodeSpan

theorem markup_of_isTick (g : Glyph Seal) (fits : g.fits Seal.lead isTick = true) : g.Markup :=
  markup_of_eq (c := '\x60') (by decide) g fits

/-- The closing run of backticks is the opening one again. -/
theorem frames_codeSpan : codeSpan.Frames Seal.lead .code Sheet.Markup Sheet.Markup := by
  intro spot later member
  obtain ⟨first, atFirst, afterFirst⟩ := List.mem_flatMap.1 member
  obtain rfl := mem_spots_place atFirst
  obtain ⟨second, opens, afterSecond⟩ := List.mem_flatMap.1 afterFirst
  obtain ⟨third, atThird, afterThird⟩ := List.mem_flatMap.1 afterSecond
  obtain rfl := mem_spots_place atThird
  obtain ⟨fourth, blanks, afterFourth⟩ := List.mem_flatMap.1 afterThird
  obtain ⟨fifth, within, afterFifth⟩ := List.mem_flatMap.1 afterFourth
  obtain ⟨sixth, spaces, afterSixth⟩ := List.mem_flatMap.1 afterFifth
  obtain ⟨seventh, atSeventh, afterSeventh⟩ := List.mem_flatMap.1 afterSixth
  obtain rfl := mem_spots_place atSeventh
  obtain ⟨eighth, closes, atEnd⟩ := List.mem_flatMap.1 afterSeventh
  obtain rfl := mem_spots_place atEnd
  obtain ⟨_, ticks, _, begun, kept, rfl, rfl⟩ := Frames.capture _ _ _ _ opens
  obtain ⟨passed, passes, marks⟩ := Only.capture Part.ticks (.many1 markup_of_isTick) _ _ opens
  obtain rfl : passed = ticks := by simpa using passes.between_eq.symm.trans begun.between_eq
  obtain ⟨gap, onward, blank⟩ := Only.many markup_of_isBlank _ _ blanks
  obtain ⟨_, code, _, coded, found, rfl, rfl⟩ := Frames.capture _ _ _ _ within
  obtain ⟨space, further, free⟩ := Only.many markup_of_isBlank _ _ spaces
  have still : seventh.get? .ticks = some passed := by
    rw [get?_of_captures (by simp [Captures]) spaces, get?_of_captures (by simp [Captures, few1])
      within, get?_of_captures (by simp [Captures]) blanks, kept]
  have ending := passes_of_mem_same still closes
  refine ⟨passed ++ gap, code, space ++ passed, ?_, ?_, .append marks blank, .append free marks⟩
  · simpa using ((passes.trans onward).trans coded).trans (further.trans ending)
  · rw [get?_of_captures (by simp [Captures]) closes, get?_of_captures (by simp [Captures]) spaces,
      found]

end CodeSpan

namespace Emphasis

theorem frames_between {delimiter : Text}
    (plain : ∀ c ∈ delimiter, Unicode.isPrivate c = false) (content : Pattern Part) :
    (between delimiter content).Frames Seal.lead .content (· = Glyph.chars delimiter)
      (· = Glyph.chars delimiter) := by
  have marks := @takes_literal Part _ _ plain
  have closed : (Pattern.sequence [.capture .content content, .behind Pattern.notSpace,
      .literal delimiter]).Frames Seal.lead .content (· = []) (· = Glyph.chars delimiter) :=
    .ahead (.capture _ _) (.afterPlace _ marks) ⟨trivial, captures_literal _ _⟩
      fun passed more nothing same => by rw [nothing, same, List.nil_append]
  exact .behind marks (.afterPlace _ closed)
    fun passed more same nothing => by rw [nothing, same, List.append_nil]

theorem frames_apartFromWords {pattern : Pattern Part} {front back : Sheet → Prop}
    (frames : pattern.Frames Seal.lead .content front back) :
    (apartFromWords pattern).Frames Seal.lead .content front back :=
  .afterPlace _ (frames.beforePlace _)

end Emphasis

namespace Sheet

/-- A protected character does not stay in the open where it is hidden. -/
theorem not_mem_hide {c : Char} (guarded : Escape.isProtected c = true) (sheet : Sheet) :
    Glyph.char c ∉ hide sheet := by
  intro member
  obtain ⟨g, _, inside⟩ := List.mem_flatMap.1 member
  cases g with
  | sealed s => cases List.mem_singleton.1 inside
  | char d =>
    simp only at inside
    split at inside
    · cases List.mem_singleton.1 inside
    · next plain =>
      obtain rfl := Glyph.char.inj (List.mem_singleton.1 inside)
      exact plain guarded

theorem not_mem_codeElement {c : Char} (guarded : Escape.isProtected c = true) (code : Sheet) :
    Glyph.char c ∉ codeElement code := by
  have apart : ∀ tag : Text, (∀ d ∈ tag, Escape.isProtected d = false) →
      Glyph.char c ∉ (Glyph.chars tag : Sheet) := by
    intro tag plain member
    obtain ⟨d, inside, same⟩ := Glyph.mem_chars.1 member
    rw [Glyph.char.inj same, plain d inside] at guarded
    cases guarded
  intro member
  rcases List.mem_append.1 member with begun | last
  · rcases List.mem_append.1 begun with first | inside
    · exact apart _ (by decide) first
    · exact not_mem_hide guarded _ inside
  · exact apart _ (by decide) last

/-- A sheet without two spaces in front of a newline has no hard break. -/
theorem absent_hardBreak {sheet : Sheet} (breaks : ¬ Glyph.chars "  \n".toList <:+: sheet) :
    Inline.hardBreak.Absent Seal.lead sheet := by
  intro f finds
  obtain ⟨count, passed⟩ := Inline.takes_hardBreak.glyphs finds
  have ends : Glyph.chars "  \n".toList <:+ f.glyphs := by
    refine ⟨List.replicate count (Glyph.char ' '), ?_⟩
    rw [passed, List.replicate_add]
    simp [List.replicate]
  have within : f.glyphs <:+: sheet := by
    rw [← finds.whole, finds.passes.ahead, ← List.append_assoc]
    exact ⟨_, _, rfl⟩
  exact breaks (ends.isInfix.trans within)

end Sheet

theorem Pattern.takes_mem_char {slot : Type} [DecidableEq slot] {c : Char}
    (plain : Unicode.isPrivate c = false) :
    (Pattern.char c : Pattern slot).Takes Seal.lead (Glyph.char c ∈ ·) :=
  (takes_char plain).mono fun _ same => same ▸ List.mem_singleton_self _

theorem Pattern.not_finds_of_not_mem {slot : Type} [DecidableEq slot] {pattern : Pattern slot}
    {sheet : Sheet} {g : Glyph Seal} (takes : pattern.Takes Seal.lead (g ∈ ·)) (none : g ∉ sheet)
    (f : Find Seal slot) : ¬ pattern.Finds Seal.lead sheet f :=
  fun finds => none (finds.mem_glyphs (takes.glyphs finds))

namespace Link

theorem takes_textPart : textPart.Takes Seal.lead (Glyph.char '[' ∈ ·) :=
  .afterPlace _ ((takes_mem_char (by decide)).memFirst _)

theorem takes_imagePart : imagePart.Takes Seal.lead (Glyph.char '[' ∈ ·) :=
  .memFirst ((takes_mem_char (by decide)).memSecond _) _

end Link

/-- No pattern of a link or an image is found in the sheet. -/
structure Sheet.Linkless (sheet : Sheet) : Prop where
  referenceLink : Link.referenceLink.Absent Seal.lead sheet
  inlineLink : Link.inlineLink.Absent Seal.lead sheet
  autolink : Link.autolink.Absent Seal.lead sheet
  referenceImage : Link.referenceImage.Absent Seal.lead sheet
  inlineImage : Link.inlineImage.Absent Seal.lead sheet

namespace Sheet

variable {sheet : Sheet}

/-- Without opening brackets the only links are addresses. -/
theorem linkless (none : Glyph.char '[' ∉ sheet) (autolink : Link.autolink.Absent Seal.lead sheet) :
    sheet.Linkless where
  referenceLink := not_finds_of_not_mem (Link.takes_textPart.memFirst _) none
  inlineLink := not_finds_of_not_mem (Link.takes_textPart.memFirst _) none
  autolink := autolink
  referenceImage := not_finds_of_not_mem (Link.takes_imagePart.memFirst _) none
  inlineImage := not_finds_of_not_mem (Link.takes_imagePart.memFirst _) none

theorem Linkless.links_eq (linkless : sheet.Linkless) (table : Table) :
    links table sheet = sheet := by
  rw [links, recast_eq_self linkless.referenceLink, recast_eq_self linkless.inlineLink,
    recast_eq_self linkless.autolink]

theorem Linkless.images_eq (linkless : sheet.Linkless) (table : Table) :
    images table sheet = sheet := by
  rw [images, recast_eq_self linkless.referenceImage, recast_eq_self linkless.inlineImage]

end Sheet

/-- A delimiter is passed in every match of emphasis. -/
theorem Emphasis.takes_between {delimiter : Text} {c : Char} (member : c ∈ delimiter)
    (plain : ∀ c ∈ delimiter, Unicode.isPrivate c = false) (content : Pattern Part) :
    (between delimiter content).Takes Seal.lead (Glyph.char c ∈ ·) := by
  refine Takes.memFirst ((takes_literal plain).mono fun _ same => ?_) _
  rw [same]
  exact Glyph.mem_chars.2 ⟨c, member, rfl⟩

/-- No pattern of emphasis is found in the sheet. -/
structure Sheet.Markless (sheet : Sheet) : Prop where
  strongStars : Emphasis.strongStars.Absent Seal.lead sheet
  strongLines : Emphasis.strongLines.Absent Seal.lead sheet
  plainStars : Emphasis.plainStars.Absent Seal.lead sheet
  plainLines : Emphasis.plainLines.Absent Seal.lead sheet

theorem Sheet.markless {sheet : Sheet} (stars : Glyph.char '*' ∉ sheet) (lines : Glyph.char '_' ∉ sheet) :
    sheet.Markless where
  strongStars := not_finds_of_not_mem
    (Emphasis.takes_between (by decide) (by decide) _) stars
  strongLines := not_finds_of_not_mem
    (.afterPlace _ ((Emphasis.takes_between (by decide) (by decide) _).memFirst _)) lines
  plainStars := not_finds_of_not_mem
    (Emphasis.takes_between (by decide) (by decide) _) stars
  plainLines := not_finds_of_not_mem
    (.afterPlace _ ((Emphasis.takes_between (by decide) (by decide) _).memFirst _)) lines

theorem Html.takes_htmlBlock : htmlBlock.Takes Seal.lead (Glyph.char '<' ∈ ·) := by
  have element : element.Takes Seal.lead (Glyph.char '<' ∈ ·) :=
    (takes_mem_char (by decide)).memFirst _
  exact .afterPlace _ (.memSecond _ ((element.capture _).memFirst _))

/-- Without angle brackets there is no literal HTML. -/
theorem Sheet.htmlBlocks_eq_self {sheet : Sheet} (none : Glyph.char '<' ∉ sheet) :
    htmlBlocks sheet = sheet :=
  recast_eq_self (not_finds_of_not_mem Html.takes_htmlBlock none) _

end Markdown
