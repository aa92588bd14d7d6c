import Markdown.Proofs.Paragraph.Alone

set_option autoImplicit false

namespace Markdown

open Pattern

namespace Sheet

def indentLine (line : Sheet) : Sheet :=
  Glyph.chars "    ".toList ++ line

/-- An indented line begins with no mark behind fewer than four blanks. -/
theorem not_shallow_indentLine {marks : Char → Bool} (apart : marks ' ' = false) (line : Sheet) :
    ¬ (indentLine line).Shallow marks := by
  rintro ⟨blanks, rest, whole, few, _, c, tail, rfl, mark⟩
  -- The mark would have to be one of the four spaces.
  have front : indentLine line = List.replicate 4 (Glyph.char ' ') ++ line := rfl
  have here : (indentLine line)[blanks.length]? = some (.char ' ') := by
    rw [front, List.getElem?_append_left (by simpa using Nat.lt_succ_of_le few),
      List.getElem?_replicate, if_pos (Nat.lt_succ_of_le few)]
  rw [whole, List.getElem?_append_right (Nat.le_refl _), Nat.sub_self] at here
  obtain rfl : c = ' ' := by simpa using here
  rw [apart] at mark
  cases mark

variable {lines : List Sheet}

theorem newline_not_mem_indentLine (each : ∀ line ∈ lines, Glyph.char '\n' ∉ line) :
    ∀ line ∈ lines.map indentLine, Glyph.char '\n' ∉ line := by
  refine List.forall_mem_map.2 fun line member newline => ?_
  rcases List.mem_append.1 newline with space | inside
  · simp at space
  · exact each line member inside

/-- Every line of an indented sheet is indented. -/
theorem exists_indentLine_of_startsLine (each : ∀ line ∈ lines, Glyph.char '\n' ∉ line)
    {early late : Sheet} (whole : ofLines (lines.map indentLine) = early ++ late)
    (starts : StartsLine early.reverse) (filled : late ≠ []) :
    ∃ rest, late = indentLine rest := by
  rw [StartsLine, List.head?_reverse] at starts
  obtain ⟨_, member, rest, rfl, _⟩ :=
    exists_line_of_startsLine (newline_not_mem_indentLine each) whole starts filled
  obtain ⟨line, _, rfl⟩ := List.mem_map.1 member
  exact ⟨line ++ rest, List.append_assoc ..⟩

theorem avoids_indented {marks : Char → Bool} (apart : marks ' ' = false)
    (each : ∀ line ∈ lines, Glyph.char '\n' ∉ line) :
    (ofLines (lines.map indentLine)).Avoids (Shallow marks) := by
  intro early late whole starts shallow
  have filled : late ≠ [] := by
    obtain ⟨c, rest, same, _⟩ := shallow.marked.begins
    simp [same]
  obtain ⟨rest, rfl⟩ := exists_indentLine_of_startsLine each whole starts filled
  exact not_shallow_indentLine apart rest shallow

end Sheet

namespace CodeBlock

variable {behind rest : Sheet}

theorem clears_indentation :
    indentation.Clears (Glyph.chars "    ".toList) fun line => Glyph.char '\n' ∉ line where
  advances := .seq_right _ (.either (.one _) (.seq_left (.one _) _))
  filled := by simp
  inline := by simp
  newline _ inside := inside
  here starts _ _ := by
    rw [indentation, head?_spots_seq, spots_lineStart starts, List.findSome?_singleton]
    rfl
  elsewhere starts := by
    rw [indentation, spots, spots_lineStart_of_not starts, List.flatMap_nil]

theorem atBreak_indentedLine {spot later : Spot Seal Part}
    (member : later ∈ indentedLine.spots Seal.lead spot) : AtBreak later := by
  obtain ⟨_, _, member⟩ := List.mem_flatMap.1 member
  obtain ⟨_, _, broken⟩ := List.mem_flatMap.1 member
  rcases List.mem_append.1 broken with newlines | ended
  · obtain ⟨middle, newline, more⟩ := List.mem_flatMap.1 newlines
    exact AtBreak.newlines (.inl (endsLine_newline _ _ newline)) more
  · obtain ⟨rfl, here⟩ := holds_of_mem_place ended
    exact .inr (ahead_eq_nil here)

theorem spots_indentedLine_ne_nil {captures : List (Part × Sheet)} (line : Sheet) :
    indentedLine.spots Seal.lead ⟨behind, Sheet.indentLine line, captures⟩ ≠ [] := by
  have front : (⟨(Glyph.chars "    ".toList).reverse ++ behind, line, captures⟩ : Spot Seal Part) ∈
      (Pattern.choice [.literal "    ".toList, .char '\t'] : Pattern Part).spots Seal.lead
        ⟨behind, Sheet.indentLine line, captures⟩ := List.mem_cons_self
  obtain ⟨later, run, ends⟩ := exists_mem_inLine
    (⟨(Glyph.chars "    ".toList).reverse ++ behind, line, captures⟩ : Spot Seal Part)
  have broken : ∃ last, last ∈ (Pattern.choice [.many1 Text.isNewline, .textEnd] :
      Pattern Part).spots Seal.lead later := by
    obtain ⟨before, after, kept⟩ := later
    rcases ends with rfl | ⟨more, rfl⟩
    · exact ⟨_, List.mem_append_right _ List.mem_cons_self⟩
    · exact ⟨_, List.mem_append_left _ (mem_spots_seq List.mem_cons_self (self_mem_many _ _))⟩
  obtain ⟨last, breaks⟩ := broken
  exact List.ne_nil_of_mem (mem_spots_seq front (mem_spots_seq run breaks))

/-- Lines that are all indented are one block of code. -/
theorem pieces_codeBlock {lines : List Sheet} (some : lines ≠ [])
    (each : ∀ line ∈ lines, Glyph.char '\n' ∉ line) :
    ∃ f, codeBlock.pieces Seal.lead (Sheet.ofLines (lines.map Sheet.indentLine)) = [.found f] ∧
      f.get .code = Sheet.ofLines (lines.map Sheet.indentLine) := by
  generalize indented : Sheet.ofLines (lines.map Sheet.indentLine) = sheet
  obtain ⟨rest, begun⟩ : ∃ rest, sheet = Sheet.indentLine rest := by
    obtain ⟨line, more, rfl⟩ := List.exists_cons_of_ne_nil some
    obtain ⟨rest, whole, _⟩ := Sheet.exists_rest_of_ofLines (Sheet.indentLine line)
      (more.map Sheet.indentLine)
    exact ⟨line ++ rest, by rw [← indented, List.map_cons, whole]; exact List.append_assoc ..⟩
  have filled : sheet ≠ [] := by simp [begun, Sheet.indentLine]
  obtain ⟨inner, found, ended⟩ := exists_head?_rounds1 (advances_indentedLine _)
    (fun _ _ => atBreak_indentedLine) (fun whole starts more => by
      obtain ⟨tail, rfl⟩ := Sheet.exists_indentLine_of_startsLine each (indented.trans whole)
        starts more
      exact spots_indentedLine_ne_nil tail) filled
  have first : (codeBlock.spots Seal.lead (.first sheet)).head? = Option.some
      ⟨inner.behind, inner.ahead, (.code, Spot.between (.first sheet) inner) :: inner.captures⟩ := by
    have start : (Pattern.choice [.literal "\n\n".toList, .seq .textStart (.optional (.char '\n'))] :
        Pattern Part).spots Seal.lead (.first sheet) = [.first sheet] := by
      rw [begun]
      rfl
    rw [codeBlock, head?_spots_seq, start, List.findSome?_singleton, spots, List.head?_map, found]
    rfl
  have advances : codeBlock.Advances Seal.lead :=
    .seq_right _ (.capture _ (.seq_left (advances_indentedLine _) _))
  refine ⟨_, pieces_of_ended advances first ended, ?_⟩
  simpa [Find.get, Find.get?, Spot.get?] using between_first_of_ended ended

end CodeBlock

namespace Sheet

theorem reverse_onChars (drawn : Char → Sheet) (sheet : Sheet) :
    (onChars drawn sheet).reverse = onChars (fun c => (drawn c).reverse) sheet.reverse := by
  induction sheet with
  | nil => rfl
  | cons g rest ih =>
    rw [List.reverse_cons, onChars_append, ← ih, ← List.singleton_append, onChars_append,
      List.reverse_append]
    cases g <;> simp [onChars]

variable {within : Char → Bool} {drawn : Char → Sheet}

/-- A change of characters that keeps those of the class, and begins with no other, goes along with
trimming. -/
theorem trimStart_onChars (kept : ∀ c, within c = true → drawn c = [.char c])
    (firm : ∀ c, within c = false → ∃ g rest, drawn c = g :: rest ∧ g.fits Seal.lead within = false)
    (sheet : Sheet) :
    trimStart within (onChars drawn sheet) = onChars drawn (trimStart within sheet) := by
  induction sheet with
  | nil => rfl
  | cons g rest ih =>
    rw [← List.singleton_append, onChars_append]
    cases fits : g.fits Seal.lead within with
    | true =>
      have alone : onChars drawn [g] = [g] := by
        cases g with
        | char c => rw [onChars_char, kept c fits]
        | sealed s => rfl
      rw [alone, trimStart, trimStart, List.singleton_append, List.singleton_append,
        List.dropWhile_cons_of_pos fits, List.dropWhile_cons_of_pos fits]
      exact ih
    | false =>
      have first : ∃ h more, onChars drawn [g] = h :: more ∧ h.fits Seal.lead within = false := by
        cases g with
        | char c => rw [onChars_char]; exact firm c fits
        | sealed s => exact ⟨_, [], rfl, fits⟩
      obtain ⟨h, more, same, outside⟩ := first
      have whole : trimStart within (onChars drawn [g] ++ onChars drawn rest) =
          onChars drawn [g] ++ onChars drawn rest :=
        trimStart_eq (by rw [same]; simpa using outside)
      have kept : trimStart within ([g] ++ rest) = [g] ++ rest := trimStart_eq (by simpa using fits)
      rw [whole, kept, onChars_append]

theorem trimEnd_eq_reverse (within : Char → Bool) (sheet : Sheet) :
    trimEnd within sheet = (trimStart within sheet.reverse).reverse := rfl

theorem trimEnd_onChars (kept : ∀ c, within c = true → drawn c = [.char c])
    (firm : ∀ c, within c = false → ∃ front g,
      drawn c = front ++ [g] ∧ g.fits Seal.lead within = false)
    (sheet : Sheet) : trimEnd within (onChars drawn sheet) = onChars drawn (trimEnd within sheet) := by
  rw [trimEnd_eq_reverse, trimEnd_eq_reverse, reverse_onChars, trimStart_onChars, reverse_onChars]
  · simp
  · intro c inClass
    rw [kept c inClass]
    rfl
  · intro c outside
    obtain ⟨front, g, same, last⟩ := firm c outside
    exact ⟨g, front.reverse, by simp [same], last⟩

/-- The characters that are written in another way in code. -/
def guarded : Text := "*_\x7b\x7d[]\\&<>".toList

theorem mem_guarded_of_isProtected {c : Char} (hidden : Escape.isProtected c = true) :
    c ∈ guarded := by
  have within : ∀ d ∈ "*_\x7b\x7d[]\\".toList, d ∈ guarded := by decide
  exact within c (List.contains_iff_mem.1 hidden)

theorem protect_char (c : Char) :
    protect [.char c] = [.char c] ∨ c ∈ guarded ∧
      (protect [.char c] = [.sealed (.token c)] ∨
        ∃ name, protect [.char c] = .char '&' :: (Glyph.chars name ++ [Glyph.char ';'])) := by
  have escaped : protect [.char c] = hide (Glyph.chars (Html.escapeChar c)) := by
    rw [protect, escape, onChars_char]
  rw [escaped]
  unfold Html.escapeChar
  split
  · exact .inr ⟨by decide, .inr ⟨"amp".toList, rfl⟩⟩
  · exact .inr ⟨by decide, .inr ⟨"lt".toList, rfl⟩⟩
  · exact .inr ⟨by decide, .inr ⟨"gt".toList, rfl⟩⟩
  · rw [Glyph.chars_cons, Glyph.chars_nil, hide, onChars_char]
    split
    · next hidden => exact .inr ⟨mem_guarded_of_isProtected hidden, .inl rfl⟩
    · exact .inl rfl

theorem protect_eq (sheet : Sheet) :
    protect sheet = onChars (fun c => protect [.char c]) sheet := by
  induction sheet with
  | nil => rfl
  | cons g rest ih =>
    rw [← List.singleton_append, protect_append, onChars_append, ih]
    cases g with
    | char c => rw [onChars_char]
    | sealed s => rfl

/-- Trimming does not change what is left of code. -/
theorem trim_protect (plain : ∀ c ∈ guarded, within c = false)
    (semicolon : within ';' = false) (hidden : within Escape.opening = false) (sheet : Sheet) :
    trimStart within (protect sheet) = protect (trimStart within sheet) ∧
      trimEnd within (protect sheet) = protect (trimEnd within sheet) := by
  have kept : ∀ c, within c = true → protect [.char c] = [.char c] := by
    intro c inClass
    rcases protect_char c with same | ⟨member, _⟩
    · exact same
    · rw [plain c member] at inClass
      cases inClass
  have ampersand : within '&' = false := plain '&' (by decide)
  simp only [protect_eq sheet, protect_eq (trimStart within sheet), protect_eq (trimEnd within sheet)]
  constructor
  · refine trimStart_onChars kept (fun c outside => ?_) sheet
    rcases protect_char c with same | ⟨_, same | ⟨name, same⟩⟩
    · exact ⟨_, _, same, outside⟩
    · exact ⟨_, _, same, hidden⟩
    · exact ⟨_, _, same, ampersand⟩
  · refine trimEnd_onChars kept (fun c outside => ?_) sheet
    rcases protect_char c with same | ⟨_, same | ⟨name, same⟩⟩
    · exact ⟨[], _, same, outside⟩
    · exact ⟨[], _, same, hidden⟩
    · exact ⟨_ :: Glyph.chars name, _, same, semicolon⟩

/-- Hidden characters come out as they are. -/
theorem finish_hide_chars (text : Text) : finish (hide (Glyph.chars text)) = Glyph.chars text := by
  induction text with
  | nil => rfl
  | cons c rest ih =>
    have here : finish (hide [.char c]) = [.char c] := by
      rw [hide, onChars_char]
      split <;> rfl
    rw [Glyph.chars_cons, ← List.singleton_append, hide, onChars_append, finish_append]
    exact congrArg₂ (· ++ ·) here ih

/-- Code comes out as the document has it, made safe as element content. -/
theorem spell_finish_protect (text : Text) :
    spell Renaming.same.bare (finish (protect (text.map glyphOf))) = Html.escape text := by
  induction text with
  | nil => rfl
  | cons c rest ih =>
    have here : spell Renaming.same.bare (finish (protect [glyphOf c])) = Html.escapeChar c := by
      rw [glyphOf]
      split
      · next marker => rw [marker]; rfl
      · split
        · next marker => rw [marker]; rfl
        · rw [protect, escape, onChars_char, finish_hide_chars, spell_chars]
    rw [List.map_cons, ← List.singleton_append, protect_append, finish_append, spell_append, here,
      ih]
    rfl

section

variable (hidden : ∀ c, Unicode.isPrivate c = true → within c = false)
include hidden

theorem trimStart_map_glyphOf (text : Text) :
    trimStart within (text.map glyphOf) = (text.trimStart within).map glyphOf := by
  rw [trimStart, List.dropWhile_map, Text.trimStart]
  congr 2
  exact funext fun c => glyphOf_fits hidden c

theorem trimEnd_map_glyphOf (text : Text) :
    trimEnd within (text.map glyphOf) = (text.trimEnd within).map glyphOf := by
  rw [trimEnd_eq_reverse, ← List.map_reverse, trimStart_map_glyphOf hidden, ← List.map_reverse]
  rfl

end

/-- The element for code shows its text without the newlines around it and without the white space
at its end. -/
theorem spell_finish_codeBlockElement {lines : Sheet} {text : Text}
    (whole : restore (outdent lines) = text.map glyphOf) :
    spell Renaming.same.bare (finish (codeBlockElement lines)) =
      "<pre><code>".toList ++
        Html.escape ((text.trim Text.isNewline).trimEnd Unicode.isSpace) ++
          "\n</code></pre>".toList := by
  have newlines := @trim_protect Text.isNewline (by decide) (by decide) (by decide)
  have spaces := @trim_protect Unicode.isSpace (by decide) (by decide) (by decide)
  rw [codeBlockElement, whole, trim, (newlines _).1, (newlines _).2, (spaces _).2,
    trimStart_map_glyphOf fun _ => isNewline_of_isPrivate,
    trimEnd_map_glyphOf fun _ => isNewline_of_isPrivate,
    trimEnd_map_glyphOf fun _ => Unicode.isSpace_of_isPrivate, finish_append, finish_append,
    finish_chars, finish_chars, spell_append, spell_append, spell_chars, spell_chars,
    spell_finish_protect]
  rfl

theorem encodeEscapes_indentLine (line : Sheet) :
    encodeEscapes (indentLine line) = indentLine (encodeEscapes line) :=
  encodeEscapes_chars (by decide) line

end Sheet

namespace CodeBlock

/-- A document of lines that are all indented as code is. -/
def indented (lines : List Text) : Text :=
  Text.join ['\n'] (lines.map ("    ".toList ++ ·))

variable {lines : List Text}

theorem ofDocument_indented (carriage : ∀ line ∈ lines, '\r' ∉ line) :
    Sheet.ofDocument (indented lines) =
      Sheet.ofLines ((lines.map fun line => line.map Sheet.glyphOf).map Sheet.indentLine) := by
  have spaces : ∀ line : Text, ("    ".toList ++ line).map Sheet.glyphOf =
      Sheet.indentLine (line.map Sheet.glyphOf) := fun line => rfl
  rw [Sheet.ofDocument_eq_map, indented, Quoting.map_join, List.map_map, List.map_map]
  · simp only [Function.comp_def, spaces]
  · refine Quoting.not_mem_join (by decide) (List.forall_mem_map.2 fun line member inside => ?_)
    rcases List.mem_append.1 inside with space | here
    · exact absurd space (by decide)
    · exact carriage line member here

theorem encodeEscapes_indented (carriage : ∀ line ∈ lines, '\r' ∉ line) :
    Sheet.encodeEscapes (Sheet.ofDocument (indented lines)) =
      Sheet.ofLines ((lines.map Paragraph.sheetLine).map Sheet.indentLine) := by
  rw [ofDocument_indented carriage, Sheet.encodeEscapes_ofLines, List.map_map, List.map_map,
    List.map_map]
  simp only [Function.comp_def, Sheet.encodeEscapes_indentLine, Paragraph.sheetLine]

/-- Without their indentation and with their escapes written out, the lines are the lines of the
document again. -/
theorem restore_outdent (newline : ∀ line ∈ lines, '\n' ∉ line) :
    Sheet.restore (Sheet.outdent
        (Sheet.ofLines ((lines.map Paragraph.sheetLine).map Sheet.indentLine))) =
      (Text.join ['\n'] lines).map Sheet.glyphOf := by
  have each : ∀ line ∈ lines.map Paragraph.sheetLine, Glyph.char '\n' ∉ line :=
    List.forall_mem_map.2 fun line member =>
      Sheet.newline_not_mem_encodeEscapes (Sheet.char_not_mem_map_glyphOf (newline line member))
  have lines : Sheet.ofLines (lines.map Paragraph.sheetLine) =
      Sheet.encodeEscapes ((Text.join ['\n'] lines).map Sheet.glyphOf) := by
    rw [Quoting.map_join, Sheet.encodeEscapes_ofLines, List.map_map]
    rfl
  rw [Sheet.outdent, show Sheet.indentLine = (Glyph.chars "    ".toList ++ ·) from rfl,
    clears_indentation.recast_eq each, lines,
    Sheet.restore_encodeEscapes (Sheet.token_not_mem_map_glyphOf _)]

/-- The pass for code puts a sheet that is code as a whole aside as a whole. -/
theorem render_eq_setAside {sheet : Sheet} {text : Text} {r : Renaming} {known : List Text}
    (prints : r.Prints known sheet text) {f : Find Seal Part}
    (found : codeBlock.pieces Seal.lead sheet = [.found f]) (whole : f.get .code = sheet) :
    render text = .setAside (element text) := by
  rw [render, ← prints.spelled, replaceM_spell (regular_codeBlock r.quiet)]
  change Piece.replacedM r.face _ (codeBlock.pieces Seal.lead sheet) = _
  rw [found, Piece.replacedM, Find.read_get, whole, prints.spelled]
  simp [Piece.replacedM]

/-- Where no line begins with a mark and the whole sheet is code, the output is its element. -/
theorem map_render {limit : Limit} (room : limit.Holds 1) {sheet : Sheet} {text : Text}
    {r : Renaming} (prints : r.Prints [] sheet text) (avoids : sheet.Avoids (Sheet.Shallow isMark))
    {f : Find Seal Part} (found : codeBlock.pieces Seal.lead sheet = [.found f])
    (whole : f.get .code = sheet) :
    ((Block.render ⟨.empty, limit⟩ false text).run .start).1.map Codec.standard.decodeMarkers =
      .ok (spell r.bare (Sheet.finish (Sheet.codeBlockElement sheet))) := by
  have entered : Progress.start.level.enter limit = .ok ⟨1, 1⟩ := Level.enter_outermost room.1
  have element : r.Prints [] (Sheet.codeBlockElement sheet) (CodeBlock.element text) :=
    Renaming.Refines.codeBlockElement prints
  have tables : r.PrintsTable [] [] .empty := .nil
  obtain ⟨left, -, level⟩ := Block.exists_render room .empty false text
  rw [level, Render.run_nested entered, Block.renderLevel, Heading.render,
    prints.replaceM_of_absent (Heading.regular_underlined r.quiet) rfl
      (avoids.absent Heading.shallow_underlined), pure_bind,
    prints.replaceM_of_absent (Heading.regular_marked r.quiet) rfl
      (avoids.absent Heading.shallow_marked), pure_bind, Heading.renderRules,
    prints.replaceM_of_absent (Heading.regular_rule r.quiet) rfl
      (avoids.absent Heading.shallow_rule), pure_bind, Listing.render, if_neg Bool.false_ne_true,
    prints.replaceM_of_absent (Listing.regular_topList r.quiet) rfl
      (avoids.absent Listing.shallow_topList), pure_bind, render_eq_setAside prints found whole,
    run_bind, Render.run_setAside]
  dsimp only [Progress.start]
  exact element.map_quotes_keyBlock tables _ ⟨1, 1⟩

/-- Indented code comes out as it was written, made safe as element content: newlines are taken from
its two ends and then white space from its end. -/
theorem convert_indented {limit : Limit} (room : limit.Holds 1) {lines : List Text}
    (some : lines ≠ []) (plain : ∀ line ∈ lines, '\n' ∉ line ∧ '\r' ∉ line) :
    (convert limit (indented lines)).html =
      .ok ("<pre><code>".toList ++
        Html.escape (((Text.join ['\n'] lines).trim Text.isNewline).trimEnd Unicode.isSpace) ++
          "\n</code></pre>".toList) := by
  have newline : ∀ line ∈ lines, '\n' ∉ line := fun line member => (plain line member).1
  have carriage : ∀ line ∈ lines, '\r' ∉ line := fun line member => (plain line member).2
  have raw : (Sheet.ofDocument (indented lines)).Avoids (Sheet.Shallow isMark) := by
    rw [ofDocument_indented carriage]
    exact Sheet.avoids_indented (by decide) (List.forall_mem_map.2 fun line member =>
      Sheet.char_not_mem_map_glyphOf (newline line member))
  have each : ∀ line ∈ lines.map Paragraph.sheetLine, Glyph.char '\n' ∉ line :=
    List.forall_mem_map.2 fun line member =>
      Sheet.newline_not_mem_encodeEscapes (Sheet.char_not_mem_map_glyphOf (newline line member))
  have hidden : (Sheet.encodeEscapes (Sheet.ofDocument (indented lines))).Avoids
      (Sheet.Shallow isMark) := by
    rw [encodeEscapes_indented carriage]
    exact Sheet.avoids_indented (by decide) each
  have prepared := Paragraph.prepare_of_absent (raw.absent Html.shallow_htmlBlock)
    (raw.absent Definition.shallow_definitionLine)
  have prints := (Renaming.prints_normalize (indented lines)).encodeEscapes
  obtain ⟨f, found, whole⟩ := pieces_codeBlock (by simpa using some) each
  have shown := Sheet.spell_finish_codeBlockElement (restore_outdent newline)
  rw [← encodeEscapes_indented carriage] at found whole shown
  change ((prepare _).render limit).1.map _ = _
  rw [prepared, ← shown]
  exact map_render room prints hidden found whole

/-- Lines with emphasis, an escape, HTML, a definition, a heading and a marker of the codec, between
lines of blanks. -/
def marked : List Text :=
  ["".toList, "*a* \\* <b>".toList, "[k]: u".toList, " ".toList, "# \uf8ff ".toList, "\t".toList]

theorem convert_indented_marked :
    Limit.standard.Holds 1 ∧ marked ≠ [] ∧ (∀ line ∈ marked, '\n' ∉ line ∧ '\r' ∉ line) ∧
      (convert .standard (indented marked)).html =
        .ok "<pre><code>*a* \\* &lt;b&gt;\n[k]: u\n \n# \uf8ff\n</code></pre>".toList := by
  have room : Limit.standard.Holds 1 := by decide
  have some : marked ≠ [] := by decide
  have plain : ∀ line ∈ marked, '\n' ∉ line ∧ '\r' ∉ line := by decide
  exact ⟨room, some, plain,
    (convert_indented room some plain).trans (congrArg Except.ok (by decide))⟩

end CodeBlock

end Markdown
