import Markdown.Proofs.Escaped
import Markdown.Proofs.Literal.Document
import Markdown.Proofs.Sheet.Strokes

set_option autoImplicit false

namespace Markdown

open Pattern

/-- A text without the backslashes in front of characters that may be escaped. -/
def Escape.unescaped : Text → Text
  | '\\' :: c :: rest =>
    if alphabet.contains c then c :: unescaped rest else '\\' :: unescaped (c :: rest)
  | c :: rest => c :: unescaped rest
  | [] => []

/-- A text without escapes stays as it is. -/
theorem Escape.unescaped_eq_self {text : Text}
    (plain : ∀ c, alphabet.contains c = true → ¬ ['\\', c] <:+: text) : unescaped text = text := by
  have later : ∀ {c : Char} {rest : Text},
      (∀ d, alphabet.contains d = true → ¬ ['\\', d] <:+: c :: rest) →
        ∀ d, alphabet.contains d = true → ¬ ['\\', d] <:+: rest :=
    fun plain d escapable inside =>
      plain d escapable (inside.trans (List.suffix_cons _ _).isInfix)
  fun_induction unescaped text with
  | case1 c rest escapable ih => exact absurd (List.prefix_append _ rest).isInfix (plain c escapable)
  | case2 c rest refused ih => rw [ih (later plain)]
  | case3 c rest other ih => rw [ih (later plain)]
  | case4 => rfl

namespace Sheet

theorem spell_shown_glyphOf (c : Char) : (glyphOf c).spell Renaming.same.shown = [c] := by
  rw [glyphOf]
  split
  · next marker => rw [marker]; rfl
  · split
    · next marker => rw [marker]; rfl
    · rfl

/-- What was hidden comes out without its backslashes. -/
theorem spell_finish_encodeEscapes (text : Text) :
    spell Renaming.same.bare (finish (encodeEscapes (text.map glyphOf))) = Escape.unescaped text := by
  have backslash : glyphOf '\\' = .char '\\' := glyphOf_of_not_isPrivate (by decide)
  rw [Renaming.spell_finish]
  fun_induction Escape.unescaped text with
  | case1 c rest escapable ih =>
    have plain : glyphOf c = .char c :=
      glyphOf_of_not_isPrivate (Codec.isPrivate_of_mem_alphabet c (List.contains_iff_mem.1 escapable))
    rw [List.map_cons, List.map_cons, backslash, plain, encodeEscapes, if_pos escapable, spell_cons, ih]
    rfl
  | case2 c rest refused ih =>
    have kept : encodeEscapes (.char '\\' :: (c :: rest).map glyphOf) =
        .char '\\' :: encodeEscapes ((c :: rest).map glyphOf) := by
      refine @encodeEscapes_append [.char '\\'] _ fun d more same _ => ?_
      obtain rfl := Quoting.glyphOf_eq_char (List.cons.inj same).1
      exact Bool.eq_false_iff.2 refused
    rw [List.map_cons, backslash, kept, spell_cons, ih]
    rfl
  | case3 c rest other ih =>
    have kept : encodeEscapes (glyphOf c :: rest.map glyphOf) =
        glyphOf c :: encodeEscapes (rest.map glyphOf) := by
      rw [encodeEscapes]
      intro d more same whole
      obtain ⟨e, later, rfl, -, -⟩ := List.map_eq_cons_iff.1 whole
      exact other e later (Quoting.glyphOf_eq_char same) rfl
    rw [List.map_cons, kept, spell_cons, spell_shown_glyphOf, ih]
    rfl
  | case4 => rfl

/-- Hiding escapes brings no characters together. -/
theorem infix_of_encodeEscapes {part : Text} {sheet : Sheet}
    (inside : Glyph.chars part <:+: encodeEscapes sheet) : Glyph.chars part <:+: sheet := by
  have cut : ∀ {whole : Sheet}, Glyph.chars part <+: encodeEscapes whole →
      Glyph.chars part <:+: whole := fun here => (prefix_of_encodeEscapes here).isInfix
  fun_induction encodeEscapes sheet with
  | case1 c rest escapable ih =>
    rcases List.infix_cons_iff.1 inside with here | later
    · exact cut (by rw [encodeEscapes, if_pos escapable]; exact here)
    · exact (ih later).trans ((List.suffix_cons _ _).trans (List.suffix_cons _ _)).isInfix
  | case2 c rest refused ih =>
    rcases List.infix_cons_iff.1 inside with here | later
    · exact cut (by rw [encodeEscapes, if_neg refused]; exact here)
    · exact (ih later).trans (List.suffix_cons _ _).isInfix
  | case3 g rest other ih =>
    rcases List.infix_cons_iff.1 inside with here | later
    · exact cut (by rw [encodeEscapes]; exacts [here, other])
    · exact (ih later).trans (List.suffix_cons _ _).isInfix
  | case4 => exact inside

theorem Drawn.begins {marks : Char → Bool} {count : Nat} {sheet : Sheet}
    (drawn : Drawn marks (count + 1) sheet) : sheet.Begins fun c => Text.isBlank c || marks c := by
  obtain ⟨line, rest, rfl, strokes, -⟩ := drawn
  cases line with
  | nil => exact absurd strokes.enough (by simp)
  | cons g line =>
    obtain ⟨c, rfl, stroke⟩ := strokes.each g List.mem_cons_self
    exact ⟨c, line ++ rest, rfl, stroke⟩

theorem Indented.begins {sheet : Sheet} (indented : sheet.Indented) : sheet.Begins Text.isBlank := by
  rcases indented with ⟨rest, rfl⟩ | ⟨rest, rfl⟩
  · exact ⟨' ', _, rfl, rfl⟩
  · exact ⟨'\t', _, rfl, rfl⟩

section

variable {line : Sheet} (newline : Glyph.char '\n' ∉ line)
  (opens : line.head? = some (Glyph.char '<'))
include newline opens

/-- A block that does not begin with an angle bracket is not in a line that does. -/
theorem absent_of_angle {slot : Type} [DecidableEq slot] {pattern : Pattern slot}
    {marks : Char → Bool} (opensLine : pattern.OpensLine marks) (other : marks '<' = false) :
    pattern.Absent Seal.lead line := by
  refine (avoids_of_line newline fun begins => ?_).absent opensLine
  obtain ⟨c, rest, rfl, mark⟩ := begins
  obtain rfl : c = '<' := Glyph.char.inj (Option.some.inj opens)
  rw [other] at mark
  cases mark

/-- Nothing but literal HTML is looked for in the line. -/
theorem level_of_angle (table : Table) (interior : Interior) :
    level table interior false line = pure (paragraphs table (htmlBlocks line)) := by
  have absent : ∀ {slot : Type} [DecidableEq slot] {pattern : Pattern slot} {marks : Char → Bool},
      pattern.OpensLine marks → marks '<' = false → pattern.Absent Seal.lead line :=
    absent_of_angle newline opens
  have underlined := absent (Heading.drawn_underlined.mono fun _ => Drawn.begins) (by decide)
  have marked := absent (Heading.leads_marked.mono fun _ few => few.marked.begins) (by decide)
  have rule := absent (Heading.drawn_rule.mono fun _ => Drawn.begins) (by decide)
  have topList := absent (Listing.leads_topList.mono fun _ few => few.marked.begins) (by decide)
  have codeBlock := absent (CodeBlock.indented_codeBlock.mono fun _ => Indented.begins) (by decide)
  have quote := absent (Quote.marked_quote.mono fun _ => Marked.begins) (by decide)
  rw [level, underlinedHeadings, recast_eq_self underlined, markedHeadings, recast_eq_self marked,
    rules, recast_eq_self rule, lists, if_neg Bool.false_ne_true, redraw_of_absent topList, pure_bind,
    codeBlocks, recast_eq_self codeBlock, quotes, redraw_of_absent quote, pure_bind]

end

/-- A quoted line comes to what the line itself comes to, in a block quote. -/
theorem run_quoteLine {limit : Limit} (room : 2 ≤ limit.value) (table : Table) (left : Nat)
    {line content : Sheet} (isLine : IsLine line)
    (inside : level table (interior table limit left) false line = pure content) :
    (((interior table limit (left + 2)).blocks false (quoteLine line)).run .outermost).1 =
      .ok (finish (blockQuote content)) := by
  have entered : Level.outermost.enter limit = .ok ⟨1, 1⟩ := Level.enter_outermost (by omega)
  have further : Level.enter limit ⟨1, 1⟩ = .ok ⟨2, 2⟩ := by
    rw [Level.enter, if_neg]
    · rfl
    · change ¬ limit.value ≤ (1 : Nat)
      omega
  have quoted := level_quoted table (interior table limit (left + 1)) (List.cons_ne_nil line [])
    (by simpa using isLine)
  rw [List.map_singleton, ofLines_singleton, ofLines_singleton] at quoted
  rw [blocks_succ, Draft.run_nested entered, quoted, run_bind, blocks_succ, Draft.run_nested further,
    inside]
  rfl

end Sheet

namespace Html

variable {tag : String} {c : Char} {content : Text} {body : Sheet}

theorem plain_of_endsName (ends : endsName c = true) : c ≠ '\\' ∧ c ≠ '\n' ∧ c ≠ '\r' ∧
    Sheet.glyphOf c = .char c := by
  rcases Bool.or_eq_true_iff.1 ends with same | same <;> rw [eq_of_beq same]
  · exact ⟨by decide, by decide, by decide, Sheet.glyphOf_of_not_isPrivate (by decide)⟩
  · exact ⟨by decide, by decide, by decide, Sheet.glyphOf_of_not_isPrivate (by decide)⟩

theorem not_mem_name (known : tag ∈ blockTags) {d : Char} (other : Unicode.isWord d = false) :
    d ∉ tag.toList := by
  intro member
  rw [isWord_of_mem_blockTags tag known d member] at other
  cases other

theorem not_mem_closingTag (known : tag ∈ blockTags) {d : Char} (other : Unicode.isWord d = false)
    (outside : d ∉ "</>".toList) : d ∉ closingTag tag.toList := by
  have name := not_mem_name known other
  intro member
  rcases List.mem_append.1 member with front | bracket
  · rcases List.mem_append.1 front with slash | inName
    · exact outside (List.mem_append_left ['>'] slash)
    · exact name inName
  · exact outside (List.mem_append_right ['<', '/'] bracket)

theorem not_mem_elementText (known : tag ∈ blockTags) {d : Char} (other : Unicode.isWord d = false)
    (outside : d ∉ "</>".toList) (inContent : d ∉ content) : d ∉ elementText tag content := by
  have bracket : d ≠ '<' := fun same => outside (same ▸ List.mem_cons_self)
  intro member
  rcases List.mem_cons.1 member with same | later
  · exact bracket same
  · rcases List.mem_append.1 later with inName | later
    · exact not_mem_name known other inName
    · exact (List.mem_append.1 later).elim inContent (not_mem_closingTag known other outside)

/-- The escapes of an element are those of its content. -/
theorem encodeEscapes_elementOf (known : tag ∈ blockTags) (ends : endsName c = true) (body : Sheet) :
    Sheet.encodeEscapes (elementOf tag (.char c :: body)) =
      elementOf tag (.char c :: Sheet.encodeEscapes body) := by
  have close := Sheet.encodeEscapes_chars
    (not_mem_closingTag known (by decide : Unicode.isWord '\\' = false) (by decide)) []
  rw [List.append_nil] at close
  rw [elementOf, Sheet.encodeEscapes_cons (by decide),
    Sheet.encodeEscapes_chars (not_mem_name known (by decide)), List.cons_append,
    Sheet.encodeEscapes_cons (plain_of_endsName ends).1, Sheet.encodeEscapes_append, close]
  · simp [elementOf, Sheet.encodeEscapes]
  · intro d more same _
    obtain rfl : '<' = d := Glyph.char.inj (List.cons.inj same).1
    decide

/-- An element on its own is a block as a whole. -/
theorem htmlBlocks_elementOf (known : tag ∈ blockTags) (ends : endsName c = true)
    (unclosed : ∀ written : Text, written.map Unicode.lowerChar = tag.toList.map Unicode.lowerChar →
      ¬ Glyph.chars (closingTag written) <:+: .char c :: body) :
    Sheet.htmlBlocks (elementOf tag (.char c :: body)) =
      Sheet.keyBlock (elementOf tag (.char c :: body)) := by
  have goes := @goes_htmlBlock [] [] body [] tag nofun known c ends unclosed .nil
  rw [List.append_nil] at goes
  have pieces := pieces_of_ended (regular_htmlBlock Renaming.same.quiet).advances goes rfl
  rw [Sheet.htmlBlocks, Pattern.recast, pieces]
  simp [Piece.recast, Find.get, Find.get?, Spot.get?]

theorem spell_finish_elementOf (tag : String) (content : Sheet) :
    spell Renaming.same.bare (Sheet.finish (elementOf tag content)) =
      elementText tag (spell Renaming.same.bare (Sheet.finish content)) := by
  have whole : elementOf tag content = Glyph.chars ['<'] ++ (Glyph.chars tag.toList ++
      (content ++ Glyph.chars (closingTag tag.toList))) := rfl
  simp only [whole, Sheet.finish_append, Sheet.finish_chars, spell_append, spell_chars, elementText]
  rfl

section

variable (known : tag ∈ blockTags) (ends : endsName c = true) (newline : '\n' ∉ content)
  (carriage : '\r' ∉ content) (unclosed : ¬ Closes tag.toList (c :: content))
include known ends newline unclosed

/-- On its level the element is all there is. -/
theorem level_elementOf (table : Sheet.Table) (interior : Sheet.Interior) :
    Sheet.level table interior false
        (Sheet.encodeEscapes ((elementText tag (c :: content)).map Sheet.glyphOf)) =
      pure (Sheet.finish (elementOf tag
        (.char c :: Sheet.encodeEscapes (content.map Sheet.glyphOf)))) := by
  obtain ⟨_, inName, _, plain⟩ := plain_of_endsName ends
  have oneLine : '\n' ∉ elementText tag (c :: content) :=
    not_mem_elementText known (by decide) (by decide) (by simp [newline, inName.symm])
  have element := map_elementText known (c :: content)
  rw [List.map_cons, plain] at element
  have hidden := encodeEscapes_elementOf known ends (content.map Sheet.glyphOf)
  have inLine := Sheet.newline_not_mem_encodeEscapes (Sheet.char_not_mem_map_glyphOf oneLine)
  rw [element, hidden] at inLine ⊢
  have open' : ∀ written : Text, written.map Unicode.lowerChar = tag.toList.map Unicode.lowerChar →
      ¬ Glyph.chars (closingTag written) <:+:
        .char c :: Sheet.encodeEscapes (content.map Sheet.glyphOf) := by
    intro written alike closes
    rw [← Sheet.encodeEscapes_cons (plain_of_endsName ends).1, ← plain, ← List.map_cons] at closes
    exact unclosed ⟨written, alike,
      Paragraph.infix_of_sheet (Sheet.infix_of_encodeEscapes closes)⟩
  rw [Sheet.level_of_angle inLine rfl, htmlBlocks_elementOf known ends open',
    Sheet.paragraphs_keyBlock]

include carriage

theorem rendered_quoted_element {limit : Limit} (room : limit.Holds 2) :
    Sheet.rendered limit (Quoting.quoted (elementText tag (c :: content))) =
      .ok (Sheet.finish (Sheet.blockQuote (Sheet.finish (elementOf tag
        (.char c :: Sheet.encodeEscapes (content.map Sheet.glyphOf)))))) := by
  obtain ⟨_, inName, returns, _⟩ := plain_of_endsName ends
  have level := level_elementOf known ends newline unclosed
  have oneLine : '\n' ∉ elementText tag (c :: content) :=
    not_mem_elementText known (by decide) (by decide) (by simp [newline, inName.symm])
  have inside : '\r' ∉ elementText tag (c :: content) :=
    not_mem_elementText known (by decide) (by decide) (by simp [carriage, returns.symm])
  have inked : ∀ line ∈ (elementText tag (c :: content)).lines,
      (∀ d ∈ line, Text.isBlank d = true) → line = [] := by
    rw [Quoting.lines_eq_singleton oneLine]
    intro line member blank
    obtain rfl := List.mem_singleton.1 member
    exact absurd (blank '<' List.mem_cons_self) (by decide)
  have sole : Quoting.sheetLines (elementText tag (c :: content)) =
      [(elementText tag (c :: content)).map Sheet.glyphOf] := by
    rw [Quoting.sheetLines, Quoting.lines_eq_singleton oneLine, List.map_singleton]
  have isLine := (Quoting.isLine_of_mem_sheetLines inked _
    (sole ▸ List.mem_singleton_self _)).encodeEscapes
  rw [(Quoting.plain_quoted inside inked).rendered_eq, Quoting.ofDocument_quoted inside, sole,
    Sheet.encodeEscapes_ofLines, List.map_singleton, List.map_singleton,
    Sheet.encodeEscapes_quoteLine, Sheet.ofLines_singleton]
  obtain ⟨left, capacity⟩ := Nat.exists_eq_add_of_le' room.2
  rw [capacity]
  exact Sheet.run_quoteLine room.1 [] left isLine (level _ _)

/-- Literal HTML on a line in a quote comes out in the block quote without the backslashes of the
escapes in it, so it passes through untouched where there are none. -/
theorem convert_quoted_element {limit : Limit} (room : limit.Holds 2)
    (apart : (convert limit (Quoting.quoted
      (elementText tag (c :: content)))).progress.fragments.NoCollision) :
    (convert limit (Quoting.quoted (elementText tag (c :: content)))).html =
        .ok (Quoting.blockQuote (elementText tag (c :: Escape.unescaped content))) ∧
      ((∀ d, Escape.alphabet.contains d = true → ¬ ['\\', d] <:+: content) →
        (convert limit (Quoting.quoted (elementText tag (c :: content)))).html =
          .ok (Quoting.blockQuote (elementText tag (c :: content)))) := by
  have keep := Renaming.html_convert (Renaming.spares_of_isMarker Renaming.isMarker_char_same _) limit
    (by rwa [Renaming.map_apply_same])
  rw [Renaming.map_apply_same] at keep
  have bracket : Sheet.finish (Glyph.char c :: Sheet.encodeEscapes (content.map Sheet.glyphOf)) =
      Glyph.chars [c] ++ Sheet.finish (Sheet.encodeEscapes (content.map Sheet.glyphOf)) := by
    rw [← Sheet.finish_chars, ← Sheet.finish_append]
    rfl
  have whole : (convert limit (Quoting.quoted (elementText tag (c :: content)))).html =
      .ok (Quoting.blockQuote (elementText tag (c :: Escape.unescaped content))) := by
    rw [keep, rendered_quoted_element known ends newline carriage unclosed room]
    have finished := Sheet.finished_finish (elementOf tag
      (.char c :: Sheet.encodeEscapes (content.map Sheet.glyphOf)))
    refine congrArg Except.ok ?_
    rw [Sheet.blockQuote, Sheet.finish_append, Sheet.finish_append, Sheet.finish_chars,
      Sheet.finish_chars, Sheet.finish_of_finished finished, spell_append, spell_append, spell_chars,
      spell_chars, spell_finish_elementOf, bracket, spell_append, spell_chars,
      Sheet.spell_finish_encodeEscapes]
    rfl
  exact ⟨whole, fun plain => by rw [whole, Escape.unescaped_eq_self plain]⟩

end

/-- An element with an escaped star. -/
theorem convert_quoted_element_star :
    ¬ Closes "div".toList ('>' :: "\\*".toList) ∧ Limit.standard.Holds 2 ∧
      (convert .standard (Quoting.quoted
        (elementText "div" ('>' :: "\\*".toList)))).progress.fragments.NoCollision ∧
      (convert .standard (Quoting.quoted (elementText "div" ('>' :: "\\*".toList)))).html =
        .ok (Quoting.blockQuote (elementText "div" ('>' :: "*".toList))) := by
  have unclosed : ¬ Closes "div".toList ('>' :: "\\*".toList) := by decide
  have room : Limit.standard.Holds 2 := by decide
  have apart : (convert .standard (Quoting.quoted
      (elementText "div" ('>' :: "\\*".toList)))).progress.fragments.NoCollision := by
    decide +kernel
  exact ⟨unclosed, room, apart, (convert_quoted_element (by decide) (by decide) (by decide)
    (by decide) unclosed room apart).1⟩

/-- A backslash in front of a star is lost, one in front of a letter is not. -/
example : (convert .standard "> <div>\\*a\\b</div>".toList).html.toOption =
    some "<blockquote>\n<div>*a\\b</div>\n</blockquote>".toList := by
  decide +kernel

end Html

end Markdown
