import Markdown.Proofs.Paragraph.Prose

set_option autoImplicit false

namespace Markdown

open Pattern

/-- A text with a backslash in front of every character that may be escaped. -/
def Escape.escaped (text : Text) : Text :=
  text.flatMap fun c => if alphabet.contains c then ['\\', c] else [c]

def Sheet.Armed (sheet : Sheet) : Prop :=
  ∃ c, Glyph.char c ∈ sheet ∧ Escape.alphabet.contains c = true

namespace Pattern

variable {slot : Type} [DecidableEq slot] {first second pattern : Pattern slot}

/-- Every match of the pattern passes a character that may be escaped. -/
def Arms (pattern : Pattern slot) : Prop :=
  pattern.Takes Seal.lead Sheet.Armed

theorem Arms.of_begins (takes : pattern.Takes Seal.lead (Sheet.Begins Escape.alphabet.contains)) :
    pattern.Arms := by
  refine Takes.mono takes ?_
  rintro _ ⟨c, rest, rfl, escapable⟩
  exact ⟨c, List.mem_cons_self, escapable⟩

theorem arms_char {c : Char} (escapable : Escape.alphabet.contains c = true)
    (hidden : (Escape.opening == c) = false) : (Pattern.char c : Pattern slot).Arms :=
  .of_begins (begins_char escapable hidden)

theorem Arms.seq_left (arms : first.Arms) (second : Pattern slot) : (first.seq second).Arms :=
  Takes.seq arms (takes_any second) fun _ _ ⟨c, inside, escapable⟩ _ =>
    ⟨c, List.mem_append_left _ inside, escapable⟩

theorem Arms.seq_right (first : Pattern slot) (arms : second.Arms) : (first.seq second).Arms :=
  Takes.seq (takes_any first) arms fun _ _ _ ⟨c, inside, escapable⟩ =>
    ⟨c, List.mem_append_right _ inside, escapable⟩

theorem Arms.either (left : first.Arms) (right : second.Arms) : (first.either second).Arms :=
  Takes.either left right

theorem Arms.capture (name : slot) (arms : first.Arms) : (Pattern.capture name first).Arms :=
  Takes.capture name arms

/-- A pattern that passes such a character is not found where none stands in the open. -/
theorem Arms.absent {sheet : Sheet} (arms : pattern.Arms) (disarmed : ¬ sheet.Armed) :
    pattern.Absent Seal.lead sheet := by
  intro f finds
  obtain ⟨c, inside, escapable⟩ := Takes.glyphs arms finds
  exact disarmed ⟨c, finds.mem_glyphs inside, escapable⟩

end Pattern

theorem CodeSpan.arms_codeSpan : codeSpan.Arms := by
  have tick : (Pattern.one isTick : Pattern Part).Takes Seal.lead
      (Sheet.Begins Escape.alphabet.contains) :=
    begins_one (by decide) fun c here => by
      rw [show c = '\x60' by simpa [isTick] using here]
      decide
  exact .seq_right _ (.seq_left ((Arms.of_begins (tick.begins _)).capture _) _)

namespace Heading

theorem arms_marked : marked.Arms :=
  .seq_right _ (.seq_left (.capture _ (.seq_left (arms_char (by decide) (by decide)) _)) _)

theorem arms_rule : rule.Arms := by
  have ofMark : ∀ mark, Escape.alphabet.contains mark = true → (Escape.opening == mark) = false →
      (ruleOf mark).Arms := fun mark escapable hidden =>
    .seq_left (.seq_left (.seq_left (arms_char escapable hidden) _) _) _
  exact .seq_right _ (.seq_right _ (.seq_left (.either (ofMark '*' (by decide) (by decide))
    (.either (ofMark '-' (by decide) (by decide)) (ofMark '_' (by decide) (by decide)))) _))

end Heading

namespace Listing

/-- A marker is a bullet, or it ends with a full stop. -/
theorem arms_marker : marker.Arms := by
  refine .either (.of_begins (begins_one (by decide) fun c bullet => ?_))
    (.seq_right _ (arms_char (by decide) (by decide)))
  have cases : c = '*' ∨ c = '+' ∨ c = '-' := by simpa [or_assoc] using bullet
  rcases cases with rfl | rfl | rfl <;> decide

theorem arms_listBody : listBody.Arms :=
  .capture _ (.seq_right _ (.seq_left (arms_marker.capture _) _))

theorem arms_topList : topList.Arms :=
  .seq_right _ arms_listBody

theorem arms_nestedList : nestedList.Arms :=
  .seq_right _ arms_listBody

end Listing

namespace Sheet

/-- A character of an escaped text as it is rendered. -/
def covered (c : Char) : Glyph Seal :=
  if Escape.alphabet.contains c then .sealed (.token c) else glyphOf c

theorem covered_eq_char {c d : Char} (same : covered c = .char d) :
    c = d ∧ Escape.alphabet.contains d = false := by
  rw [covered] at same
  split at same
  · cases same
  · next plain =>
    obtain rfl := Quoting.glyphOf_eq_char same
    exact ⟨rfl, Bool.eq_false_iff.2 plain⟩

theorem not_armed_map_covered (text : Text) : ¬ Armed (text.map covered) := by
  rintro ⟨d, inside, escapable⟩
  obtain ⟨c, _, same⟩ := List.mem_map.1 inside
  rw [(covered_eq_char same).2] at escapable
  cases escapable

theorem char_not_mem_map_covered {c : Char} {text : Text} (none : c ∉ text) :
    Glyph.char c ∉ text.map covered := by
  intro inside
  obtain ⟨d, member, same⟩ := List.mem_map.1 inside
  exact none ((covered_eq_char same).1 ▸ member)

theorem infix_of_map_covered {part text : Text} (inside : Glyph.chars part <:+: text.map covered) :
    part <:+: text := by
  obtain ⟨kept, within, same⟩ := List.infix_map_iff.1 inside
  have unchanged : kept = part := by
    clear within inside
    induction part generalizing kept with
    | nil => exact List.map_eq_nil_iff.1 same.symm
    | cons d part ih =>
      obtain ⟨c, rest, rfl, first, later⟩ := List.map_eq_cons_iff.1 same.symm
      rw [(covered_eq_char first).1, ih rest later.symm]
  exact unchanged ▸ within

/-- Every pair of a backslash and the character behind it is read as one. -/
theorem encodeEscapes_escaped (text : Text) :
    encodeEscapes ((Escape.escaped text).map glyphOf) = text.map covered := by
  induction text with
  | nil => rfl
  | cons c rest ih =>
    rw [Escape.escaped, List.flatMap_cons, ← Escape.escaped, List.map_append, List.map_cons,
      covered]
    split
    · next escapable =>
      have backslash : glyphOf '\\' = .char '\\' := glyphOf_of_not_isPrivate (by decide)
      have plain : glyphOf c = .char c := glyphOf_of_not_isPrivate
        (Codec.isPrivate_of_mem_alphabet c (List.contains_iff_mem.1 escapable))
      simp only [List.map_cons, List.map_nil, List.cons_append, List.nil_append, backslash, plain]
      rw [encodeEscapes, if_pos escapable, ih]
    · next refused =>
      rw [List.map_cons, List.map_nil, List.singleton_append, encodeEscapes, ih]
      intro d more same
      obtain rfl := Quoting.glyphOf_eq_char same
      exact absurd (by decide) refused

/-- What was hidden comes out as the character that it was. -/
theorem spell_finish_unescape_covered (text : Text) :
    spell Renaming.same.bare (finish (unescape (text.map covered))) = text := by
  rw [Renaming.spell_finish_unescape]
  induction text with
  | nil => rfl
  | cons c rest ih =>
    have here : (covered c).spell Renaming.same.shown = [c] := by
      rw [covered, glyphOf]
      split
      · rfl
      · split
        · next marker => rw [marker]; rfl
        · split
          · next marker => rw [marker]; rfl
          · rfl
    rw [List.map_cons, spell_cons, here, ih]
    rfl

end Sheet

/-- Where no character that may be escaped stands in the open, the inline rules find nothing. -/
theorem Renaming.Prints.inline_of_disarmed {r : Renaming} {known : List Text} {sheet : Sheet}
    {text : Text} (prints : r.Prints known sheet text) (disarmed : ¬ sheet.Armed)
    (opens : Glyph.char '<' ∉ sheet) (breaks : Inline.hardBreak.Absent Seal.lead sheet)
    (references : ReferenceTable) :
    Inline.render references text = Codec.standard.unescape text := by
  have hidden : ∀ c, Escape.alphabet.contains c = true → Glyph.char c ∉ sheet :=
    fun c escapable inside => disarmed ⟨c, inside, escapable⟩
  have autolink : Link.autolink.Absent Seal.lead sheet :=
    not_finds_of_not_mem ((takes_mem_char (by decide)).memFirst _) opens
  have linkless := Sheet.linkless (hidden '[' (by decide)) autolink
  have markless := Sheet.markless (hidden '*' (by decide)) (hidden '_' (by decide))
  rw [Inline.render, CodeSpan.render,
    prints.replace_of_absent (CodeSpan.regular r.quiet) rfl
      (CodeSpan.arms_codeSpan.absent disarmed),
    prints.links_of_linkless linkless, prints.emphasis_of_markless markless, Inline.renderBreaks,
    prints.replace_of_absent (Inline.regular_hardBreak r.quiet) rfl breaks]

namespace Escape

variable {text : Text}

theorem not_mem_escaped {c : Char} (other : c ≠ '\\') (none : c ∉ text) : c ∉ escaped text := by
  intro inside
  obtain ⟨d, member, here⟩ := List.mem_flatMap.1 inside
  split at here
  · rcases (by simpa using here : c = '\\' ∨ c = d) with same | rfl
    · exact other same
    · exact none member
  · obtain rfl := List.mem_singleton.1 here
    exact none member

theorem encodeEscapes_ofDocument_escaped (carriage : '\r' ∉ text) :
    Sheet.encodeEscapes (Sheet.ofDocument (escaped text)) = text.map Sheet.covered := by
  rw [Sheet.ofDocument_eq_map (not_mem_escaped (by decide) carriage), Sheet.encodeEscapes_escaped]

/-- The inline rules make of an escaped text the text itself. -/
theorem inline_escaped (opens : '<' ∉ text) (carriage : '\r' ∉ text)
    (breaks : ¬ "  \n".toList <:+: text) (references : ReferenceTable) :
    Inline.convert references (escaped text) = text := by
  have prints := (Renaming.prints_normalize (escaped text)).encodeEscapes
  rw [encodeEscapes_ofDocument_escaped carriage] at prints
  have finished := Sheet.finished_finish (Sheet.unescape (text.map Sheet.covered))
  have unescaped := prints.unescape
  rw [Inline.convert, prints.inline_of_disarmed (Sheet.not_armed_map_covered text)
    (Sheet.char_not_mem_map_covered opens)
    (Sheet.absent_hardBreak fun inside => breaks (Sheet.infix_of_map_covered inside))]
  rw [unescaped.finish_eq] at finished
  rw [unescaped.unescape.decodeMarkers finished, ← unescaped.finish_eq,
    Sheet.spell_finish_unescape_covered]

end Escape

namespace Sheet

variable {line : Sheet}

/-- Only at its start does a single line begin. -/
theorem avoids_of_line {shape : Sheet → Prop} (newline : Glyph.char '\n' ∉ line) (plain : ¬ shape line) :
    line.Avoids shape := by
  intro early late whole starts
  rcases List.eq_nil_or_concat early with rfl | ⟨front, g, rfl⟩
  · rwa [← List.nil_append late, ← whole]
  · rw [List.concat_eq_append] at whole starts
    have last : g = .char '\n' := starts g (by simp)
    exact absurd (by simp [whole, last]) newline

/-- Between newlines, a line that does not begin with white space is a paragraph. -/
theorem paragraphs_line (table : Table) (before behind : Nat) (newline : Glyph.char '\n' ∉ line)
    (keyless : ∀ fragment, Glyph.sealed (.key fragment) ∉ line) {g : Glyph Seal}
    (first : line.head? = some g) (ink : g.fits Seal.lead Unicode.isSpace = false) :
    paragraphs table (List.replicate before (Glyph.char '\n') ++
        (line ++ List.replicate behind (Glyph.char '\n'))) = finish (Paragraph.element table line) := by
  have member : g ∈ line := List.mem_of_mem_head? first
  have inked : line.isBlankLine = false := by
    refine Bool.eq_false_iff.2 fun blank => ?_
    have here := List.all_eq_true.1 blank g member
    obtain ⟨c, rfl, blank⟩ := exists_char_of_fits (by decide) here
    rw [isBlank_of_ink ink] at blank
    cases blank
  have filled : trimSpace line ≠ [] := fun blank => by
    rw [trimSpace_eq_nil_iff.1 blank g member] at ink
    cases ink
  have framed : Framed [line] :=
    ⟨by simp, by simpa using newline, by simpa using inked, by simpa using inked⟩
  have parts := framed.divide_newlines before behind
  rw [passages, runs_eq_singleton (by simp) (by simpa using inked), List.map_singleton,
    ofLines_singleton] at parts
  rw [paragraphs, parts, List.filterMap_cons, paragraph?_of_keyless table keyless, if_neg filled]
  simp

end Sheet

namespace Escape

variable {text : Text} {c : Char}

/-- Escaped, a line begins with no bracket. -/
theorem not_begins_escaped {rest : Text} (ink : Unicode.isSpace c = false) :
    ¬ Sheet.Begins (fun d => Text.isBlank d || d == '[')
      ((escaped (c :: rest)).map Sheet.glyphOf) := by
  rintro ⟨d, more, whole, here⟩
  rw [escaped, List.flatMap_cons] at whole
  split at whole
  · obtain rfl := Quoting.glyphOf_eq_char (List.cons.inj whole).1
    exact absurd here (by decide)
  · next plain =>
    obtain rfl := Quoting.glyphOf_eq_char (List.cons.inj whole).1
    obtain rfl : c = '[' := by simpa [isBlank_of_ink ink] using here
    exact plain (by decide)

theorem not_opensBlock {rest : Text} (ink : Unicode.isSpace c = false) (unquoted : c ≠ '>') :
    ¬ Sheet.Begins (fun d => Text.isBlank d || d == '>') ((c :: rest).map Sheet.covered) := by
  rintro ⟨d, more, whole, here⟩
  obtain ⟨rfl, _⟩ := Sheet.covered_eq_char (List.cons.inj whole).1
  exact unquoted (by simpa [isBlank_of_ink ink] using here)

/-- With the escapes of a line hidden no block is found in it. -/
theorem blockless_covered {rest : Text} (opens : '<' ∉ c :: rest) (newline : '\n' ∉ c :: rest)
    (ink : Unicode.isSpace c = false) (unquoted : c ≠ '>') :
    Sheet.Blockless ((c :: rest).map Sheet.covered) := by
  have disarmed := Sheet.not_armed_map_covered (c :: rest)
  have oneLine := Sheet.char_not_mem_map_covered newline
  have start := @not_opensBlock c rest ink unquoted
  have underline : Heading.underlined.Takes Seal.lead (Glyph.char '\n' ∈ ·) :=
    .memSecond _ (.memSecond _ (.memSecond _ ((takes_mem_char (by decide)).memFirst _)))
  exact {
    underlined := not_finds_of_not_mem underline oneLine
    marked := Heading.arms_marked.absent disarmed
    rule := Heading.arms_rule.absent disarmed
    topList := Listing.arms_topList.absent disarmed
    nestedList := Listing.arms_nestedList.absent disarmed
    codeBlock := (Sheet.avoids_of_line oneLine fun indented => start <| by
      rcases indented with ⟨more, whole⟩ | ⟨more, whole⟩
      · exact ⟨' ', _, whole.symm, rfl⟩
      · exact ⟨'\t', _, whole.symm, rfl⟩).absent CodeBlock.indented_codeBlock
    quote := (Sheet.avoids_of_line oneLine fun marked => start marked.begins).absent
      Quote.marked_quote
    htmlBlock := not_finds_of_not_mem Html.takes_htmlBlock
      (Sheet.char_not_mem_map_covered opens) }

/-- A single line that is escaped is a paragraph. -/
theorem html_convert_escaped {limit : Limit} (room : limit.Holds 1) {rest : Text}
    (opens : '<' ∉ c :: rest) (newline : '\n' ∉ c :: rest) (carriage : '\r' ∉ c :: rest)
    (ink : Unicode.isSpace c = false) (unquoted : c ≠ '>') :
    (convert limit (escaped (c :: rest))).html =
      .ok ("<p>".toList ++ c :: rest ++ "</p>".toList) := by
  have raw : ∀ d, d ≠ '\\' → d ∉ c :: rest →
      Glyph.char d ∉ Sheet.ofDocument (escaped (c :: rest)) := by
    intro d other none
    rw [Sheet.ofDocument_eq_map (not_mem_escaped (by decide) carriage)]
    exact Sheet.char_not_mem_map_glyphOf (not_mem_escaped other none)
  have html : Html.htmlBlock.Absent Seal.lead (Sheet.ofDocument (escaped (c :: rest))) :=
    not_finds_of_not_mem Html.takes_htmlBlock (raw '<' (by decide) opens)
  have definitions : Definition.definitionLine.Absent Seal.lead
      (Sheet.ofDocument (escaped (c :: rest))) := by
    refine (Sheet.avoids_of_line (raw '\n' (by decide) newline) fun shallow => ?_).absent
      Definition.leads_definitionLine
    rw [Sheet.ofDocument_eq_map (not_mem_escaped (by decide) carriage)] at shallow
    exact not_begins_escaped ink shallow.marked.begins
  have hidden := encodeEscapes_ofDocument_escaped carriage
  have prints := (Renaming.prints_normalize (escaped (c :: rest))).encodeEscapes
  rw [hidden] at prints
  have breaks : ¬ "  \n".toList <:+: c :: rest :=
    fun inside => newline (inside.subset (by decide))
  have output := prints.html_render room .nil (blockless_covered opens newline ink unquoted)
  have shown : (Sheet.covered c).fits Seal.lead Unicode.isSpace = false := by
    rw [Sheet.covered]
    split
    · rfl
    · rw [Sheet.glyphOf_fits fun _ => Unicode.isSpace_of_isPrivate, ink]
  have alone := Sheet.paragraphs_line [] 0 0 (Sheet.char_not_mem_map_covered newline) prints.keyless
    rfl shown
  rw [List.replicate_zero, List.nil_append, List.append_nil] at alone
  rw [alone, ← hidden, Paragraph.spell_finish_element .nil,
    inline_escaped opens carriage breaks] at output
  change ((prepare _).render limit).1.map _ = _
  rw [Paragraph.prepare_of_absent html definitions]
  exact output

/-- Escaped, a text comes out as it is, from the inline rules alone and, as a paragraph, from the
conversion of a document. -/
theorem convert_escaped {text : Text} (opens : '<' ∉ text) (carriage : '\r' ∉ text) :
    (¬ "  \n".toList <:+: text →
      ∀ references, Inline.convert references (escaped text) = text) ∧
    ∀ limit : Limit, limit.Holds 1 → ∀ c ∈ text.head?, Unicode.isSpace c = false → c ≠ '>' →
      '\n' ∉ text → (convert limit (escaped text)).html =
        .ok ("<p>".toList ++ text ++ "</p>".toList) := by
  refine ⟨inline_escaped opens carriage, fun limit room c first ink unquoted newline => ?_⟩
  obtain ⟨rest, rfl⟩ : ∃ rest, text = c :: rest := List.head?_eq_some_iff.1 first
  exact html_convert_escaped room opens newline carriage ink unquoted

/-- A line that spells a list, emphasis, a link, code and a token. -/
def lookalike : Text :=
  "1. *a* [b](c) \x60d\x60 \\_".toList ++ token '*'

theorem convert_escaped_lookalike :
    '<' ∉ lookalike ∧ '\r' ∉ lookalike ∧ Inline.convert .empty (escaped lookalike) = lookalike ∧
      (convert .standard (escaped lookalike)).html =
        .ok ("<p>".toList ++ lookalike ++ "</p>".toList) := by
  have opens : '<' ∉ lookalike := by decide +kernel
  have carriage : '\r' ∉ lookalike := by decide +kernel
  have newline : '\n' ∉ lookalike := by decide +kernel
  have breaks : ¬ "  \n".toList <:+: lookalike := fun inside => newline (inside.subset (by decide))
  obtain ⟨inline, document⟩ := convert_escaped opens carriage
  exact ⟨opens, carriage, inline breaks .empty,
    document .standard (by decide) '1' rfl (by decide) (by decide) newline⟩

end Escape

end Markdown
