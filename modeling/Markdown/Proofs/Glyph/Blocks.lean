import Markdown.Proofs.Glyph.Only
import Markdown.Proofs.Glyph.Patterns

set_option autoImplicit false

namespace Markdown

variable {σ slot : Type} {face : σ → Text}

open Pattern (Closed Steady Blocked Stuck Regular Advances Keeps Only)

namespace Heading

theorem closed_ending {lead : σ → Char} (quiet : Quiet lead face) :
    ending.Closed (.free lead) face :=
  .either (.many1 quiet.shuns_newline) (.textEnd quiet.filled)

theorem stuck_ending {lead : σ → Char} (quiet : Quiet lead face) :
    ending.Stuck (.free lead) face :=
  .either (.many1 quiet.foreign_newline) .textEnd

theorem shuns_char {o : Outline σ slot} (quiet : Quiet o.lead face) (d : Char)
    (plain : Unicode.isPrivate d = false) : Shuns o face (· == d) :=
  quiet.shuns (fun _ here => eq_false_of_isPrivate here plain)

theorem regular_underlined {lead : σ → Char} (quiet : Quiet lead face) :
    underlined.Regular (.free lead) face where
  filled := quiet.filled
  closed := by
    have blanks : Shuns (.free lead : Outline σ Part) face Text.isBlank := quiet.shuns_blank
    refine .seq quiet.closed_lineStart
      (.cut (.capture (.few1 quiet.takes_inLine) rfl) ?_ ?_)
    · refine .seq (.many blanks) (.seq (.char quiet '\n' rfl) (.seq (.capture ?_ (.of_none rfl _))
        (.seq (.many blanks) (closed_ending quiet))))
      exact .either (.many1 (shuns_char quiet '=' (by decide)))
        (.many1 (shuns_char quiet '-' (by decide)))
    · exact .after (.many blanks) ((Stuck.char quiet '\n' rfl (by decide)).seq _)
  stuck := quiet.stuck_lineStart.seq _
  advances := .seq_right _ (((Advances.one _).seq_left _).capture _ |>.seq_left _)

theorem regular_marked {lead : σ → Char} (quiet : Quiet lead face) :
    marked.Regular (.free lead) face where
  filled := quiet.filled
  closed := by
    have blanks : Shuns (.free lead : Outline σ Part) face Text.isBlank := quiet.shuns_blank
    have signs : Shuns (.free lead : Outline σ Part) face (· == '#') :=
      shuns_char quiet '#' (by decide)
    refine .seq quiet.closed_lineStart (.seq (.capture (.seq (.char quiet '#' rfl)
      (.upTo (.char quiet '#' rfl) 5)) (.of_none rfl _)) (.seq (.many blanks) ?_))
    refine .cut (.capture (.few1 quiet.takes_inLine) rfl) ?_ ?_
    · exact .seq (.many blanks) (.seq (.many signs) (closed_ending quiet))
    · exact .after (.many blanks) (.after (.many signs) (stuck_ending quiet))
  stuck := quiet.stuck_lineStart.seq _
  advances := .seq_right _ (((Advances.one _).seq_left _).capture _ |>.seq_left _)

theorem closed_ruleOf {lead : σ → Char} (quiet : Quiet lead face) (mark : Char)
    (plain : Unicode.isPrivate mark = false) : (ruleOf mark).Closed (.free lead) face := by
  have round : Pattern.Closed (.free lead : Outline σ Empty) face
      (.seq (.char mark) (.many Text.isBlank)) :=
    .seq (.char quiet mark plain) (.many quiet.shuns_blank)
  exact .seq (round.exactly 3) (round.rounds quiet.filled ((Advances.one _).seq_left _))

theorem regular_rule {lead : σ → Char} (quiet : Quiet lead face) :
    rule.Regular (.free lead) face where
  filled := quiet.filled
  closed := by
    refine .seq quiet.closed_lineStart (.seq (.upTo (.char quiet ' ' rfl) 3) (.seq ?_
      quiet.closed_lineEnd))
    exact .either (closed_ruleOf quiet '*' (by decide)) (.either
      (closed_ruleOf quiet '-' (by decide)) (closed_ruleOf quiet '_' (by decide)))
  stuck := quiet.stuck_lineStart.seq _
  advances := by
    have marks : ∀ mark, (ruleOf mark).Advances lead := fun mark =>
      .seq_left (.seq_left ((Advances.one _).seq_left _) _) _
    exact .seq_right _ (.seq_right _ (.seq_left (.either (marks '*') (.either (marks '-')
      (marks '_'))) _))

end Heading

namespace Listing

def outline (lead : σ → Char) : Outline σ Part :=
  ⟨lead, fun
    | .indent => some fun text => ∀ c ∈ text, Text.isBlank c = true
    | _ => none⟩

section

variable {lead : σ → Char} (quiet : Quiet lead face)

include quiet

theorem closed_marker : marker.Closed (outline lead) face := by
  have bullets : Shuns (outline lead) face fun c => c == '*' || c == '+' || c == '-' := by
    refine quiet.shuns (fun c here => ?_)
    simp [Unicode.ne_of_isPrivate here (d := '*') (by decide),
      Unicode.ne_of_isPrivate here (d := '+') (by decide),
      Unicode.ne_of_isPrivate here (d := '-') (by decide)]
  have digits : Shuns (outline lead) face Unicode.isDigit :=
    quiet.shuns (fun _ => Unicode.isDigit_of_isPrivate)
  exact .either (.one bullets) (.seq (.many1 digits) (.char quiet '.' rfl))

theorem closed_markerGap : markerGap.Closed (outline lead) face :=
  .seq (closed_marker quiet) (.many1 quiet.shuns_blank)

theorem closed_listEnd : listEnd.Closed (outline lead) face := by
  have newlines : Shuns (outline lead) face Text.isNewline := quiet.shuns_newline
  refine .either (.seq (.many newlines) (.textEnd quiet.filled)) ?_
  refine .seq (.literal quiet _ (by decide)) (.seq (.many newlines)
    (.seq (.before (.inl quiet.takes_notSpace)) (.ahead ?_ _)))
  exact .seq (.many quiet.shuns_blank) (closed_markerGap quiet)

theorem stuck_listEnd : listEnd.Stuck (outline lead) face :=
  .either (.after (.many quiet.shuns_newline) .textEnd)
    ((Stuck.literal quiet '\n' ['\n'] rfl (by decide)).seq _)

theorem closed_listBody : listBody.Closed (outline lead) face := by
  refine .capture ?_ (.of_none rfl _)
  refine .seq (.upTo (.char quiet ' ' rfl) 3)
    (.seq (.capture (closed_marker quiet) (.of_none rfl _))
    (.seq (.many1 quiet.shuns_blank) ?_))
  exact .cut (.few1 quiet.takes_anything) (closed_listEnd quiet) (stuck_listEnd quiet)

omit quiet in
theorem advances_listBody : listBody.Advances lead :=
  .capture _ (.seq_right _ (.seq_right _ (.seq_left ((Advances.one _).seq_left _) _)))

theorem ne_newline_of_last (s : σ) : ∃ c rest, (face s).reverse = c :: rest ∧ c ≠ '\n' := by
  obtain ⟨front, c, written, here⟩ := quiet.last s
  exact ⟨c, front.reverse, by simp [written], Unicode.ne_of_isPrivate here (by decide)⟩

theorem closed_afterBlankLine :
    (Pattern.place afterBlankLine : Pattern Part).Closed (outline lead) face := by
  refine .place fun spot => ?_
  obtain ⟨behind, ahead, captures⟩ := spot
  have outer : ∀ s, lead s ≠ '\n' := fun s =>
    Unicode.ne_of_isPrivate (quiet.lead s) (by decide)
  change "\n\n".toList.isPrefixOf (spellBack face behind) =
    "\n\n".toList.isPrefixOf (spellBack (fun s => [lead s]) behind)
  rw [show "\n\n".toList = ['\n', '\n'] from rfl]
  cases behind with
  | nil => rfl
  | cons g rest =>
    cases g with
    | sealed s =>
      obtain ⟨c, more, written, differs⟩ := ne_newline_of_last quiet s
      simp [Glyph.spell, written, List.isPrefixOf, beq_false_of_ne (Ne.symm differs),
        beq_false_of_ne (Ne.symm (outer s))]
    | char c =>
      cases rest with
      | nil => rfl
      | cons h rest =>
        cases h with
        | char d => simp [Glyph.spell, List.isPrefixOf]
        | sealed s =>
          obtain ⟨d, more, written, differs⟩ := ne_newline_of_last quiet s
          simp [Glyph.spell, written, List.isPrefixOf, beq_false_of_ne (Ne.symm differs),
            beq_false_of_ne (Ne.symm (outer s))]

theorem stuck_afterBlankLine :
    (Pattern.place afterBlankLine : Pattern Part).Stuck (outline lead) face := by
  refine .place fun reading within => ?_
  obtain ⟨behind, s, ahead, u, v, written, begun, _, before, _⟩ := within.cut
  obtain ⟨front, c, rfl⟩ := List.eq_nil_or_concat u |>.resolve_left begun
  have refused : (c == '\n') = false := quiet.foreign_newline s c (by simp [written])
  simp only [beq_eq_false_iff_ne] at refused
  rw [afterBlankLine, before, show "\n\n".toList = ['\n', '\n'] from rfl]
  simp [List.isPrefixOf, Ne.symm refused]

theorem regular_topList : topList.Regular (outline lead) face where
  filled := quiet.filled
  closed := .seq (.either (closed_afterBlankLine quiet) (.seq (.textStart quiet.filled)
    (Closed.optional (.char quiet '\n' rfl)))) (closed_listBody quiet)
  stuck := (Stuck.either (stuck_afterBlankLine quiet) (Stuck.textStart.seq _)).seq _
  advances := .seq_right _ advances_listBody

theorem regular_nestedList : nestedList.Regular (outline lead) face where
  filled := quiet.filled
  closed := .seq quiet.closed_lineStart (closed_listBody quiet)
  stuck := quiet.stuck_lineStart.seq _
  advances := .seq_right _ advances_listBody

theorem closed_itemText : itemText.Closed (outline lead) face := by
  refine .cut (.few1 quiet.takes_anything) ?_ ?_
  · exact .either (.seq (.char quiet '\n' rfl) (Closed.optional (.char quiet '\n' rfl)))
      (.seq (Closed.optional (.char quiet '\n' rfl)) (.textEnd quiet.filled))
  · exact .either ((Stuck.char quiet '\n' rfl (by decide)).seq _)
      (.after (Blocked.optional (.char quiet '\n' rfl)) .textEnd)

theorem keeps_indent :
    (Pattern.seq .lineStart (.many Text.isBlank)).Keeps (outline lead) Part.indent := by
  intro p same spot _ later member
  obtain rfl := Option.some.inj same
  have only : Pattern.Only lead (fun g : Glyph σ => g.fits lead Text.isBlank = true)
      (.seq .lineStart (.many Text.isBlank) : Pattern Part) :=
    (Only.place _).seq (.many fun _ fits => fits)
  have blanks : Shuns (outline lead) face Text.isBlank := quiet.shuns_blank
  exact Pattern.exists_chars_of_fits blanks (only.between member)

theorem closed_nextItem : nextItem.Closed (outline lead) face := by
  have blanks : Shuns (outline lead) face Text.isBlank := quiet.shuns_blank
  refine .seq (.many quiet.shuns_newline) (.either (.textEnd quiet.filled)
    (.seq (.same_again quiet.filled rfl fun text inClass => ?_) (closed_markerGap quiet)))
  intro s c rest written expected member
  obtain ⟨d, more, other, refused⟩ := blanks.first s
  rw [written] at other
  obtain ⟨rfl, _⟩ := List.cons.inj other
  rintro rfl
  exact absurd (inClass _ member) (by simp [refused])

omit quiet in
theorem advances_item : item.Advances lead :=
  .seq_right _ (.seq_right _ (.seq_left (.seq_right _ ((Advances.one _).seq_left _)) _))

theorem regular_item : item.Regular (outline lead) face where
  filled := quiet.filled
  closed := by
    refine .seq (Closed.optional (.capture (.char quiet '\n' rfl) (.of_none rfl _))) ?_
    refine .seq (.capture (.seq quiet.closed_lineStart (.many quiet.shuns_blank))
      (keeps_indent quiet)) ?_
    refine .seq (closed_markerGap quiet) ?_
    exact .seq (.capture (closed_itemText quiet) (.of_none rfl _))
      (.ahead (closed_nextItem quiet) _)
  stuck := .after (Blocked.optional ((Stuck.char quiet '\n' rfl (by decide)).capture _).blocked)
    ((quiet.stuck_lineStart.seq _).capture _ |>.seq _)
  advances := advances_item

omit quiet in
theorem advances_newlines : newlines.Advances lead :=
  (Advances.one _).seq_left _

theorem regular_newlines : newlines.Regular (.free lead) face where
  filled := quiet.filled
  closed := .seq (.char quiet '\n' rfl) (.many1 quiet.shuns_newline)
  stuck := (Stuck.char quiet '\n' rfl (by decide)).seq _
  advances := advances_newlines

theorem regular_finalNewlines : finalNewlines.Regular (.free lead) face where
  filled := quiet.filled
  closed := .seq (regular_newlines quiet).closed (.textEnd quiet.filled)
  stuck := ((Stuck.char quiet '\n' rfl (by decide)).seq _).seq _
  advances := .seq_left ((Advances.one _).seq_left _) _

end

end Listing

namespace CodeBlock

theorem regular_indentation {lead : σ → Char} (quiet : Quiet lead face) :
    indentation.Regular (.free lead) face where
  filled := quiet.filled
  closed := .seq quiet.closed_lineStart (.either (.char quiet '\t' rfl)
    (.seq (.char quiet ' ' rfl) (.upTo (.char quiet ' ' rfl) 3)))
  stuck := quiet.stuck_lineStart.seq _
  advances := .seq_right _ (.either (.one _) ((Advances.one _).seq_left _))

theorem advances_indentedLine (lead : σ → Char) : indentedLine.Advances lead :=
  .seq_left (.either ((Advances.one _).seq_left _) (.one _)) _

theorem closed_indentedLine {lead : σ → Char} (quiet : Quiet lead face) :
    indentedLine.Closed (.free lead) face := by
  refine .seq (.either (.literal quiet _ (by decide)) (.char quiet '\t' rfl))
    (.cut (.many quiet.takes_inLine) ?_ ?_)
  · exact .either (.many1 quiet.shuns_newline) (.textEnd quiet.filled)
  · exact .either (.many1 quiet.foreign_newline) .textEnd

theorem regular_codeBlock {lead : σ → Char} (quiet : Quiet lead face) :
    codeBlock.Regular (.free lead) face where
  filled := quiet.filled
  closed := .seq (.either (.literal quiet _ (by decide)) (.seq (.textStart quiet.filled)
      (Closed.optional (.char quiet '\n' rfl))))
    (.capture (.rounds1 quiet.filled (closed_indentedLine quiet) (advances_indentedLine lead))
      (.of_none rfl _))
  stuck := (Stuck.either (Stuck.literal quiet '\n' ['\n'] rfl (by decide))
    (Stuck.textStart.seq _)).seq _
  advances := .seq_right _ (.capture _ (.seq_left (advances_indentedLine lead) _))

end CodeBlock

namespace Quote

theorem closed_quotedLines {lead : σ → Char} (quiet : Quiet lead face) :
    quotedLines.Closed (.free lead) face := by
  have blanks : Shuns (.free lead : Outline σ Part) face Text.isBlank := quiet.shuns_blank
  have lazyLine : Pattern.Closed (.free lead : Outline σ Part) face
      (.seq (.many1 Pattern.inLine) (.char '\n')) :=
    .cut (.many1 quiet.takes_inLine) (.char quiet '\n' rfl) (.char quiet '\n' rfl (by decide))
  refine .seq quiet.closed_lineStart (.seq (.many blanks) (.seq (.char quiet '>' rfl)
    (.seq (Closed.optional (.one blanks)) ?_)))
  refine .cut (.many1 quiet.takes_inLine) ?_ ?_
  · exact .seq (.either (.char quiet '\n' rfl) (.textEnd quiet.filled))
      (.seq (lazyLine.rounds quiet.filled (.seq_right _ (.one _)))
        (.many quiet.shuns_newline))
  · exact (Stuck.either (.char quiet '\n' rfl (by decide)) .textEnd).seq _

theorem advances_quotedLines (lead : σ → Char) : quotedLines.Advances lead :=
  .seq_right _ (.seq_right _ ((Advances.one _).seq_left _))

theorem regular_quote {lead : σ → Char} (quiet : Quiet lead face) :
    quote.Regular (.free lead) face where
  filled := quiet.filled
  closed := .capture (.rounds1 quiet.filled (closed_quotedLines quiet) (advances_quotedLines lead))
    (.of_none rfl _)
  stuck := ((quiet.stuck_lineStart.seq _).seq _).capture _
  advances := .capture _ (.seq_left (advances_quotedLines lead) _)

theorem regular_mark {lead : σ → Char} (quiet : Quiet lead face) :
    mark.Regular (.free lead) face where
  filled := quiet.filled
  closed := by
    have blanks : Shuns (.free lead : Outline σ Empty) face Text.isBlank := quiet.shuns_blank
    exact .seq quiet.closed_lineStart (.seq (.many blanks) (.seq (.char quiet '>' rfl)
      (.either (.seq (.many blanks) quiet.closed_lineEnd) (Closed.optional (.one blanks)))))
  stuck := quiet.stuck_lineStart.seq _
  advances := .seq_right _ (.seq_right _ ((Advances.one _).seq_left _))

end Quote

theorem Block.regular_blankLines {lead : σ → Char} (quiet : Quiet lead face) :
    Block.blankLines.Regular (.free lead) face where
  filled := quiet.filled
  closed := .seq (.char quiet '\n' rfl) (.rounds1 quiet.filled
    (.seq (.many quiet.shuns_blank) (.char quiet '\n' rfl)) (.seq_right _ (.one _)))
  stuck := (Stuck.char quiet '\n' rfl (by decide)).seq _
  advances := (Advances.one _).seq_left _

namespace Html

def outline (lead : σ → Char) : Outline σ Part :=
  ⟨lead, fun
    | .tag => some fun text => ∀ c ∈ text, Unicode.isPrivate (Unicode.lowerChar c) = false
    | .element => none⟩

theorem isPrivate_lowerChar_of_isFormOf {letter c : Char}
    (plain : Unicode.isPrivate letter = false) (form : Unicode.isFormOf letter c = true) :
    Unicode.isPrivate (Unicode.lowerChar c) = false := by
  simp only [Unicode.isFormOf, Bool.or_eq_true, Bool.and_eq_true, beq_iff_eq] at form
  rcases form with (small | ⟨_, rfl⟩) | ⟨_, rfl⟩
  · rw [small]
    exact plain
  · decide
  · decide

theorem isPrivate_of_mem_blockTags :
    ∀ tag ∈ blockTags, ∀ letter ∈ tag.toList, Unicode.isPrivate letter = false := by
  decide

section

variable {lead : σ → Char} (quiet : Quiet lead face)

include quiet

theorem closed_tags : (Pattern.choice (blockTags.map tagInAnyCase)).Closed (outline lead) face := by
  refine .choice fun pattern member => ?_
  obtain ⟨tag, known, rfl⟩ := List.mem_map.1 member
  refine .sequence fun pattern member => ?_
  obtain ⟨letter, inside, rfl⟩ := List.mem_map.1 member
  have plain := isPrivate_of_mem_blockTags tag known letter inside
  exact .one (quiet.shuns (fun c here => Unicode.isFormOf_of_isPrivate here plain))

theorem keeps_tags :
    (Pattern.choice (blockTags.map tagInAnyCase)).Keeps (outline lead) Part.tag := by
  intro p same spot _ later member
  obtain rfl := Option.some.inj same
  have only : (Pattern.choice (blockTags.map tagInAnyCase)).Only lead
      (fun g : Glyph σ => ∃ letter, Unicode.isPrivate letter = false ∧
        g.fits lead (Unicode.isFormOf letter) = true) := by
    refine .choice fun pattern member => ?_
    obtain ⟨tag, known, rfl⟩ := List.mem_map.1 member
    refine .sequence fun pattern member => ?_
    obtain ⟨letter, inside, rfl⟩ := List.mem_map.1 member
    exact .one fun g fits => ⟨letter, isPrivate_of_mem_blockTags tag known letter inside, fits⟩
  have kinds := only.between member
  generalize spot.between later = passed at kinds
  induction passed with
  | nil => exact ⟨[], rfl, by simp⟩
  | cons g rest ih =>
    obtain ⟨text, rfl, plainTag⟩ := ih fun h inside => kinds h (List.mem_cons_of_mem _ inside)
    obtain ⟨letter, plain, fits⟩ := kinds g List.mem_cons_self
    cases g with
    | sealed s =>
      rw [Glyph.fits, Unicode.isFormOf_of_isPrivate (quiet.lead s) plain] at fits
      cases fits
    | char c =>
      exact ⟨c :: text, rfl, List.forall_mem_cons.2
        ⟨isPrivate_lowerChar_of_isFormOf plain fits, plainTag⟩⟩

theorem closed_element : element.Closed (outline lead) face := by
  have again : Pattern.Closed (outline lead) face (.same .tag Unicode.lowerChar) := by
    refine .same_again quiet.filled rfl fun text plain => ?_
    intro s c rest written expected member
    obtain ⟨d, more, other, here⟩ := quiet.first s
    rw [written] at other
    obtain ⟨rfl, _⟩ := List.cons.inj other
    rw [Unicode.lowerChar_of_isPrivate here]
    exact Unicode.ne_of_isPrivate here (plain expected member)
  refine .seq (.char quiet '<' rfl) (.seq (.capture (closed_tags quiet) (keeps_tags quiet)) ?_)
  refine .seq (.notBefore (.inr quiet.shuns_word)) (.cut (.few quiet.takes_anything) ?_ ?_)
  · exact .seq (.literal quiet _ (by decide)) (.seq again (.char quiet '>' rfl))
  · exact (Stuck.literal quiet '<' ['/'] rfl (by decide)).seq _

theorem closed_blockEnd : blockEnd.Closed (outline lead) face :=
  .either (.seq (.char quiet '\n' rfl) (.seq (.many quiet.shuns_blank) (.char quiet '\n' rfl)))
    (.seq (Closed.optional (.char quiet '\n' rfl)) (.textEnd quiet.filled))

theorem regular_htmlBlock : htmlBlock.Regular (outline lead) face where
  filled := quiet.filled
  closed := .seq quiet.closed_lineStart (.seq (.upTo (.char quiet ' ' rfl) 3)
    (.seq (.capture (closed_element quiet) (.of_none rfl _))
      (.seq (.many quiet.shuns_blank) (.ahead (closed_blockEnd quiet) _))))
  stuck := quiet.stuck_lineStart.seq _
  advances := .seq_right _ (.seq_right _ (.seq_left (.capture _ ((Advances.one _).seq_left _)) _))

end

end Html

namespace Definition

section

variable {lead : σ → Char} (quiet : Quiet lead face)

include quiet

theorem closed_titleBetween (first last : Char) (plainFirst : Unicode.isPrivate first = false)
    (plainLast : Unicode.isPrivate last = false) (apart : last ∉ digestDigits) :
    (titleBetween first last).Closed (.free lead) face := by
  refine .seq (.char quiet first plainFirst) ?_
  exact .cut (.many1 quiet.takes_inLine) (.char quiet last plainLast)
    (.char quiet last plainLast apart)

theorem closed_title : title.Closed (.free lead) face :=
  .either (closed_titleBetween quiet '"' '"' (by decide) (by decide) (by decide))
    (.either (closed_titleBetween quiet '(' ')' (by decide) (by decide) (by decide))
      (closed_titleBetween quiet '\'' '\'' (by decide) (by decide) (by decide)))

theorem closed_titleGap : titleGap.Closed (.free lead) face :=
  .either (.many1 quiet.shuns_blank) (.seq (.many quiet.shuns_blank)
    (.seq (.char quiet '\n' rfl) (.many quiet.shuns_blank)))

theorem stuck_titleGap : titleGap.Stuck (.free lead) face :=
  .either (.many1 quiet.foreign_blank)
    (.after (.many quiet.shuns_blank) ((Stuck.char quiet '\n' rfl (by decide)).seq _))

theorem regular_definitionLine : definitionLine.Regular (.free lead) face where
  filled := quiet.filled
  closed := by
    have blanks : Shuns (.free lead : Outline σ Part) face Text.isBlank := quiet.shuns_blank
    have label : Markdown.Takes (.free lead : Outline σ Part) face fun c => c != ']' :=
      quiet.takes (fun c here => by simpa using Unicode.ne_of_isPrivate here (d := ']') (by decide))
        (by decide)
    refine .seq ?_ (Closed.optional (.char quiet '\n' rfl))
    refine .seq quiet.closed_lineStart (.seq (.upTo (.one blanks) 3)
      (.seq (.char quiet '[' rfl) ?_))
    refine .cut (.capture (.many1 label) rfl) ?_
      ((Stuck.literal quiet ']' [':'] rfl (by decide)).seq _)
    refine .seq (.literal quiet _ (by decide)) (.seq (.many blanks)
      (.seq (Closed.optional (.char quiet '<' rfl)) ?_))
    refine .cut (.capture (.few1 quiet.takes_notSpace) rfl) ?_ ?_
    · exact .seq (Closed.optional (.char quiet '>' rfl)) (.seq (Closed.optional
        (.seq (closed_titleGap quiet) (.capture (closed_title quiet) (.of_none rfl _))))
        (.seq (.many blanks) quiet.closed_lineEnd))
    · exact .after (Blocked.optional (.char quiet '>' rfl)) (.after
        (Blocked.optional ((stuck_titleGap quiet).seq _).blocked) (.after (.many blanks)
          quiet.stuck_lineEnd))
  stuck := (quiet.stuck_lineStart.seq _).seq _
  advances := .seq_left (.seq_right _ (.seq_right _ ((Advances.one _).seq_left _))) _

end

end Definition

end Markdown
