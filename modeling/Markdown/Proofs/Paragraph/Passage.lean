import Markdown.Proofs.Output
import Markdown.Proofs.Sheet.Lines

set_option autoImplicit false

namespace Markdown

open Pattern

/-- No pattern of a block is found in the sheet, paragraphs aside. -/
structure Sheet.Blockless (sheet : Sheet) : Prop where
  underlined : Heading.underlined.Absent Seal.lead sheet
  marked : Heading.marked.Absent Seal.lead sheet
  rule : Heading.rule.Absent Seal.lead sheet
  topList : Listing.topList.Absent Seal.lead sheet
  nestedList : Listing.nestedList.Absent Seal.lead sheet
  codeBlock : CodeBlock.codeBlock.Absent Seal.lead sheet
  quote : Quote.quote.Absent Seal.lead sheet
  htmlBlock : Html.htmlBlock.Absent Seal.lead sheet

/-- Where no line begins as one of a block does there is none. -/
theorem Sheet.Avoids.blockless {sheet : Sheet} (avoids : sheet.Avoids Sheet.LeadsBlock) :
    sheet.Blockless := by
  have shallow : ∀ sheet : Sheet, sheet.Shallow isBlockMark → sheet.LeadsBlock :=
    fun _ shallow => .inl (shallow.marked.mono fun _ => by simp +contextual)
  have signed : ∀ {sign : Char}, isBlockMark sign = true → ∀ sheet : Sheet,
      sheet.Shallow (· == sign) → sheet.LeadsBlock :=
    fun here sheet few => shallow sheet (few.of_char here)
  have headed : ∀ sheet : Sheet, sheet.Shallow Listing.isHead → sheet.LeadsBlock :=
    fun sheet few => shallow sheet (few.mono fun _ => Listing.isBlockMark_of_isHead)
  exact {
    underlined := avoids.absent (Heading.leads_underlined.mono shallow)
    marked := avoids.absent (Heading.leads_marked.mono (signed rfl))
    rule := avoids.absent (Heading.leads_rule.mono shallow)
    topList := avoids.absent (Listing.leads_topList.mono headed)
    nestedList := avoids.absent (Listing.leads_nestedList.mono headed)
    codeBlock := avoids.absent (CodeBlock.indented_codeBlock.mono fun _ => .inr)
    quote := avoids.absent (Quote.marked_quote.mono fun _ marked =>
      .inl (marked.mono fun _ => by simp +contextual))
    htmlBlock := avoids.absent (Html.leads_htmlBlock.mono (signed rfl)) }

/-- Where no line opens a block there is none. -/
theorem Sheet.Prose.blockless {sheet : Sheet} (prose : sheet.Prose) : sheet.Blockless :=
  (Avoids.mono prose fun _ => Sheet.LeadsBlock.opensBlock).blockless

/-- Glyphs outside the matches are written as they are. -/
theorem Piece.replacedM_plain_append {σ slot : Type} {m : Type → Type} [Monad m] [LawfulMonad m]
    (face : σ → Text) (replacement : Match slot → m Text) (glyphs : List (Glyph σ))
    (pieces : List (Piece σ slot)) :
    replacedM face replacement (glyphs.map .plain ++ pieces) = (do
      let later ← replacedM face replacement pieces
      pure (spell face glyphs ++ later)) := by
  induction glyphs with
  | nil => simp
  | cons g rest ih =>
    rw [List.map_cons, List.cons_append, replacedM, ih, bind_assoc]
    simp only [pure_bind, spell_cons, List.append_assoc]

namespace Renaming.Prints

variable {r : Renaming} {known : List Text} {sheet : Sheet} {text : Text} {slot : Type}
  [DecidableEq slot] {pattern : Pattern slot} {o : Outline Seal slot}

theorem replaceM_of_absent {m : Type → Type} [Monad m] [LawfulMonad m]
    (regular : pattern.Regular o r.face) (judged : o.lead = Seal.lead)
    (prints : r.Prints known sheet text) (absent : pattern.Absent Seal.lead sheet)
    (replacement : Match slot → m Text) : pattern.replaceM replacement text = pure text := by
  have plain := Piece.replacedM_plain_append r.face replacement sheet []
  rw [List.append_nil, Piece.replacedM, pure_bind, List.append_nil] at plain
  rw [← prints.spelled, replaceM_spell regular, judged, absent.pieces_eq, plain]

theorem replace_of_absent (regular : pattern.Regular o r.face) (judged : o.lead = Seal.lead)
    (prints : r.Prints known sheet text) (absent : pattern.Absent Seal.lead sheet)
    (replacement : Match slot → Text) : pattern.replace replacement text = text := by
  rw [← prints.spelled, replace_spell regular, judged, absent.pieces_eq, List.flatMap_map]
  rfl

theorem matches?_of_absent (regular : pattern.Regular o r.face) (judged : o.lead = Seal.lead)
    (prints : r.Prints known sheet text) (absent : pattern.Absent Seal.lead sheet) :
    pattern.matches? text = [] := by
  rw [← prints.spelled, matches?_spell regular, judged, absent.pieces_eq, List.filterMap_map]
  simp [Function.comp_def, Piece.find?]

theorem protectBlocks_of_absent (prints : r.Prints known sheet text)
    (absent : Html.htmlBlock.Absent Seal.lead sheet) (fragments : Fragments) :
    Html.protectBlocks text fragments = (text, fragments) := by
  rw [Html.protectBlocks,
    prints.replaceM_of_absent (Html.regular_htmlBlock r.quiet) rfl absent]
  rfl

theorem extract_of_absent (prints : r.Prints known sheet text)
    (absent : Definition.definitionLine.Absent Seal.lead sheet) (references : ReferenceTable) :
    references.extract text = ⟨text, references, []⟩ := by
  rw [ReferenceTable.extract, prints.replace_of_absent (regular_definitionLine r) rfl absent,
    prints.matches?_of_absent (regular_definitionLine r) rfl absent]
  rfl

theorem links_of_linkless (prints : r.Prints known sheet text) (linkless : sheet.Linkless)
    (references : ReferenceTable) :
    Link.renderImages references (Link.renderLinks references text) = text := by
  rw [Link.renderLinks,
    prints.replace_of_absent (Link.regular_referenceLink r.quiet) rfl linkless.referenceLink,
    prints.replace_of_absent (Link.regular_inlineLink r.quiet) rfl linkless.inlineLink,
    prints.replace_of_absent (Link.regular_autolink r.quiet) rfl linkless.autolink,
    Link.renderImages,
    prints.replace_of_absent (Link.regular_referenceImage r.quiet) rfl linkless.referenceImage,
    prints.replace_of_absent (Link.regular_inlineImage r.quiet) rfl linkless.inlineImage]

theorem emphasis_of_markless (prints : r.Prints known sheet text) (markless : sheet.Markless) :
    Emphasis.render text = text := by
  rw [Emphasis.render,
    prints.replace_of_absent (Emphasis.regular_strongStars r.quiet) rfl markless.strongStars,
    prints.replace_of_absent (Emphasis.regular_strongLines r.quiet) rfl markless.strongLines,
    prints.replace_of_absent (Emphasis.regular_plainStars r.quiet) rfl markless.plainStars,
    prints.replace_of_absent (Emphasis.regular_plainLines r.quiet) rfl markless.plainLines]

section Blockless

variable (prints : r.Prints known sheet text) (blockless : sheet.Blockless)
include prints blockless

theorem listing_of_blockless (setting : Setting) (interior : Interior) (inList : Bool) :
    Listing.render setting interior inList text = pure text := by
  cases inList with
  | false => exact prints.replaceM_of_absent (Listing.regular_topList r.quiet) rfl blockless.topList _
  | true =>
    exact prints.replaceM_of_absent (Listing.regular_nestedList r.quiet) rfl blockless.nestedList _

theorem codeBlocks_of_blockless : CodeBlock.render text = pure text :=
  prints.replaceM_of_absent (CodeBlock.regular_codeBlock r.quiet) rfl blockless.codeBlock _

theorem quotes_of_blockless (interior : Interior) : Quote.render interior text = pure text :=
  prints.replaceM_of_absent (Quote.regular_quote r.quiet) rfl blockless.quote _

theorem protectHtml_of_blockless : Render.protectHtml text = pure text := by
  rw [Render.protectHtml_eq]
  exact prints.replaceM_of_absent (Html.regular_htmlBlock r.quiet) rfl blockless.htmlBlock _

/-- Where no block is found, rendering comes down to the paragraphs. -/
theorem renderLevel_eq (setting : Setting) (interior : Interior) (inList : Bool) :
    Block.renderLevel setting interior inList text =
      Block.renderParagraphs setting.references text := by
  rw [Block.renderLevel, Heading.render,
    prints.replaceM_of_absent (Heading.regular_underlined r.quiet) rfl blockless.underlined,
    pure_bind, prints.replaceM_of_absent (Heading.regular_marked r.quiet) rfl blockless.marked,
    pure_bind, Heading.renderRules,
    prints.replaceM_of_absent (Heading.regular_rule r.quiet) rfl blockless.rule, pure_bind,
    prints.listing_of_blockless blockless, pure_bind, prints.codeBlocks_of_blockless blockless,
    pure_bind, prints.quotes_of_blockless blockless, pure_bind,
    prints.protectHtml_of_blockless blockless, pure_bind]

end Blockless

end Renaming.Prints

namespace Sheet

theorem trimStart_eq {within : Char → Bool} {sheet : Sheet}
    (first : ∀ g ∈ sheet.head?, g.fits Seal.lead within = false) :
    trimStart within sheet = sheet := by
  cases sheet with
  | nil => rfl
  | cons g rest => rw [trimStart, List.dropWhile_cons, first g rfl]; rfl

theorem trimEnd_eq {within : Char → Bool} {sheet : Sheet}
    (last : ∀ g ∈ sheet.getLast?, g.fits Seal.lead within = false) :
    trimEnd within sheet = sheet := by
  have still : trimStart within sheet.reverse = sheet.reverse :=
    trimStart_eq (by rwa [List.head?_reverse])
  rw [trimStart] at still
  rw [trimEnd, still, List.reverse_reverse]

theorem encodeEscapes_cons {c : Char} (plain : c ≠ '\\') (rest : Sheet) :
    encodeEscapes (.char c :: rest) = .char c :: encodeEscapes rest := by
  rw [encodeEscapes]
  exact fun _ _ same => absurd (Glyph.char.inj same) plain

theorem encodeEscapes_eq_self {sheet : Sheet} (plain : Glyph.char '\\' ∉ sheet) :
    encodeEscapes sheet = sheet := by
  fun_induction encodeEscapes sheet with
  | case1 => exact absurd List.mem_cons_self plain
  | case2 => exact absurd List.mem_cons_self plain
  | case3 g rest other ih => rw [ih fun inside => plain (List.mem_cons_of_mem g inside)]
  | case4 => rfl

theorem encodeEscapes_chars {text : Text} (plain : '\\' ∉ text) (rest : Sheet) :
    encodeEscapes (Glyph.chars text ++ rest) = Glyph.chars text ++ encodeEscapes rest := by
  induction text with
  | nil => rfl
  | cons c text ih =>
    obtain ⟨here, others⟩ := List.ne_and_not_mem_of_not_mem_cons plain
    rw [Glyph.chars_cons, List.cons_append, encodeEscapes_cons (Ne.symm here), ih others,
      List.cons_append]

/-- A backslash escapes nothing across a cut unless it stands right before it and an escapable
character right behind. -/
theorem encodeEscapes_append {first second : Sheet}
    (plain : ∀ c more, second = .char c :: more → first.getLast? = some (.char '\\') →
      Escape.alphabet.contains c = false) :
    encodeEscapes (first ++ second) = encodeEscapes first ++ encodeEscapes second := by
  have kept : ∀ {g h : Glyph Seal} {rest : Sheet}, rest.getLast? = some h →
      (g :: rest).getLast? = some h := by
    intro g h rest last
    rw [List.getLast?_cons, last]
    rfl
  fun_induction encodeEscapes first with
  | case1 c rest escapable ih =>
    have later := ih fun d more whole last => plain d more whole (kept (kept last))
    simp only [List.cons_append, encodeEscapes, escapable, ↓reduceIte, later]
  | case2 c rest refused ih =>
    have later := ih fun d more whole last => plain d more whole (kept last)
    simp only [List.cons_append, encodeEscapes, refused, Bool.false_eq_true, ↓reduceIte] at later ⊢
    rw [later]
  | case3 g rest other ih =>
    have later := ih fun d more whole last => plain d more whole (kept last)
    rw [List.cons_append, List.cons_append, ← later]
    by_cases escapes : ∃ c more, g = .char '\\' ∧ rest ++ second = .char c :: more
    · obtain ⟨c, more, rfl, whole⟩ := escapes
      cases rest with
      | nil =>
        rw [List.nil_append] at whole ⊢
        rw [whole, encodeEscapes, plain c more whole rfl]
        rfl
      | cons h rest =>
        obtain ⟨rfl, _⟩ := List.cons.inj whole
        exact absurd rfl (other c rest rfl)
    · rw [encodeEscapes]
      exact fun c more same whole => escapes ⟨c, more, same, whole⟩
  | case4 => rfl

theorem encodeEscapes_newline (first second : Sheet) :
    encodeEscapes (first ++ Glyph.char '\n' :: second) =
      encodeEscapes first ++ Glyph.char '\n' :: encodeEscapes second := by
  have newline : encodeEscapes (.char '\n' :: second) = .char '\n' :: encodeEscapes second := by
    rw [encodeEscapes]
    exact fun _ _ impossible => absurd impossible (by simp)
  rw [encodeEscapes_append, newline]
  intro c more same _
  obtain rfl := Glyph.char.inj (List.cons.inj same).1
  decide

theorem encodeEscapes_replicate (count : Nat) (rest : Sheet) :
    encodeEscapes (List.replicate count (Glyph.char '\n') ++ rest) =
      List.replicate count (Glyph.char '\n') ++ encodeEscapes rest := by
  induction count with
  | zero => rfl
  | succ count ih =>
    rw [List.replicate_succ, List.cons_append, ← List.nil_append (Glyph.char '\n' :: _),
      encodeEscapes_newline, ih]
    rfl

end Sheet

namespace Block

variable {behind rest : Sheet} {captures : List (Empty × Sheet)}

theorem spots_newline_of_ne {g : Glyph Seal} (other : g.fits Seal.lead Text.isNewline = false) :
    (Pattern.char '\n' : Pattern Empty).spots Seal.lead ⟨behind, g :: rest, captures⟩ = [] := by
  have refused : g.fits Seal.lead (· == '\n') = false := other
  simp [Pattern.char, spots, refused]

theorem splitOff_plain (part : Sheet) (pieces : List (Piece Seal Empty)) {first : Sheet}
    {more : List Sheet} (parts : pieces.foldr Piece.splitOff [[]] = first :: more) :
    (part.map Piece.plain ++ pieces).foldr Piece.splitOff [[]] = (part ++ first) :: more := by
  induction part with
  | nil => exact parts
  | cons g part ih => rw [List.map_cons, List.cons_append, List.foldr_cons, ih]; rfl

end Block

namespace Paragraph

noncomputable def element (table : Sheet.Table) (part : Sheet) : Sheet :=
  Glyph.chars "<p>".toList ++ Sheet.inline table part ++ Glyph.chars "</p>".toList

end Paragraph

theorem Limit.Holds.mono {limit : Limit} {count fewer : Nat} (holds : limit.Holds count)
    (less : fewer ≤ count) : limit.Holds fewer :=
  ⟨Int.le_trans (Int.ofNat_le.2 less) holds.1, Nat.le_trans less holds.2⟩

theorem Level.enter_outermost {limit : Limit} (room : 1 ≤ limit.value) :
    Level.outermost.enter limit = .ok ⟨1, 1⟩ :=
  if_neg (Int.not_le.2 (Int.add_one_le_iff.1 room))

/-- The first level of a text, from which as many further ones can be opened as there is room for. -/
theorem Block.exists_render {limit : Limit} {count : Nat} (room : limit.Holds (count + 1))
    (references : ReferenceTable) (inList : Bool) (text : Text) :
    ∃ left, count ≤ left ∧ Block.render ⟨references, limit⟩ inList text =
      Render.nested limit (Block.renderLevel ⟨references, limit⟩
        (Block.interior ⟨references, limit⟩ left) inList text) := by
  obtain ⟨left, capacity⟩ := Nat.exists_eq_add_of_lt room.2
  refine ⟨count + left, Nat.le_add_right count left, ?_⟩
  rw [Block.render, show limit.capacity = count + left + 1 from capacity]
  rfl

namespace Renaming

variable {r : Renaming} {sheet : Sheet} {text : Text}

theorem Valid.finish_eq {g : Glyph Seal} (valid : r.Valid [] g) :
    Sheet.finish [g] = Sheet.unescape [g] := by
  cases valid with
  | key kept => exact absurd kept List.not_mem_nil
  | _ => rfl

theorem Prints.keyless (prints : r.Prints [] sheet text) (fragment : Sheet) :
    Glyph.sealed (.key fragment) ∉ sheet := by
  intro inside
  cases prints.valid _ inside with
  | key kept => exact absurd kept List.not_mem_nil

/-- Where nothing was put aside there is nothing to put back. -/
theorem Prints.finish_eq (prints : r.Prints [] sheet text) :
    Sheet.finish sheet = Sheet.unescape sheet := by
  rw [Sheet.finish_eq_flatMap, List.flatMap_congr fun g member => (prints.valid g member).finish_eq]
  simp [Sheet.unescape, Sheet.reveal]

/-- Inline rules alone, on the sheet of a text. -/
theorem Prints.convert_eq {table : Sheet.Table} {references : ReferenceTable}
    (tables : r.PrintsTable [] table references) (prints : r.Prints [] sheet text) :
    Codec.standard.decodeMarkers (Codec.standard.unescape (Inline.render references text)) =
      spell r.bare (Sheet.finish (Sheet.inline table sheet)) := by
  have apart : Fragments.Collisionless [] := by simp [Fragments.Collisionless]
  have inline := prints.inline apart tables
  have finished := Sheet.finished_finish (Sheet.inline table sheet)
  rw [inline.finish_eq] at finished ⊢
  exact inline.unescape.decodeMarkers finished

/-- Paragraphs change nothing of what has been put aside, and print what the sheet comes to. -/
theorem Prints.map_renderParagraphs {known : List Text} {table : Sheet.Table}
    {references : ReferenceTable} (tables : r.PrintsTable known table references)
    (prints : r.Prints known sheet text) {progress : Progress}
    (begun : known ⊆ progress.fragments.history) (apart : progress.fragments.NoCollision) :
    ((Block.renderParagraphs references text).run progress).1.map Codec.standard.decodeMarkers =
      .ok (spell r.bare (Sheet.paragraphs table sheet)) := by
  have answer := (Refines.paragraphs tables prints progress begun apart).2
  generalize ((Block.renderParagraphs references text).run progress).1 = output at answer ⊢
  cases answer with
  | ok printed => exact congrArg Except.ok (printed.decodeMarkers (Sheet.finished_finish _))

/-- Rendered, a text in which no block is found gives its paragraphs and what was put aside before. -/
theorem Prints.html_render_held {limit : Limit} (room : limit.Holds 1) {known : List Text}
    {table : Sheet.Table} {references : ReferenceTable}
    (tables : r.PrintsTable known table references) (blockless : sheet.Blockless)
    (prints : r.Prints known sheet text) {fragments : Fragments}
    (begun : known ⊆ fragments.history) (apart : fragments.NoCollision) :
    ((Block.render ⟨references, limit⟩ false text).run ⟨fragments, .outermost⟩).1.map
        Codec.standard.decodeMarkers = .ok (spell r.bare (Sheet.paragraphs table sheet)) := by
  have entered : (Progress.level ⟨fragments, .outermost⟩).enter limit = .ok ⟨1, 1⟩ :=
    Level.enter_outermost room.1
  obtain ⟨left, -, level⟩ := Block.exists_render room references false text
  rw [level, Render.run_nested entered, prints.renderLevel_eq blockless]
  exact prints.map_renderParagraphs tables begun apart

/-- Rendered, a text in which no block is found gives its paragraphs. -/
theorem Prints.html_render {limit : Limit} (room : limit.Holds 1) {table : Sheet.Table}
    {references : ReferenceTable} (tables : r.PrintsTable [] table references)
    (blockless : sheet.Blockless) (prints : r.Prints [] sheet text) :
    ((Block.render ⟨references, limit⟩ false text).run .start).1.map
        Codec.standard.decodeMarkers = .ok (spell r.bare (Sheet.paragraphs table sheet)) :=
  prints.html_render_held room tables blockless (List.nil_subset _)
    fun _ member => absurd member List.not_mem_nil

end Renaming

namespace Paragraph

/-- Without literal HTML and definitions, preparing a document only hides its markers and its
escapes. -/
theorem prepare_of_absent {document : Text}
    (html : Html.htmlBlock.Absent Seal.lead (Sheet.ofDocument document))
    (definitions : Definition.definitionLine.Absent Seal.lead (Sheet.ofDocument document)) :
    prepare document =
      ⟨Codec.standard.encodeEscapes (Codec.standard.normalize document), .empty, .empty, []⟩ := by
  have prints := Renaming.prints_normalize document
  rw [prepare, prints.protectBlocks_of_absent html]
  dsimp only
  rw [prints.extract_of_absent definitions]

/-- So it is where no line opens a block. -/
theorem prepare_eq {document : Text} (prose : (Sheet.ofDocument document).Prose) :
    prepare document =
      ⟨Codec.standard.encodeEscapes (Codec.standard.normalize document), .empty, .empty, []⟩ := by
  have opens : ∀ sheet : Sheet, sheet.Marked isMark → sheet.OpensBlock :=
    fun _ => Sheet.Marked.opensBlock fun _ => by simp +contextual
  exact prepare_of_absent (prose.absent (Html.marked_htmlBlock.mono opens))
    (prose.absent (Definition.marked_definitionLine.mono opens))

theorem finish_intercalate (separator : Text) (parts : List Sheet) :
    Sheet.finish ((Glyph.chars separator).intercalate parts) =
      (Glyph.chars separator).intercalate (parts.map Sheet.finish) := by
  induction parts with
  | nil => rfl
  | cons part rest ih =>
    cases rest with
    | nil => simp
    | cons next rest =>
      rw [List.intercalate_cons_cons, Sheet.finish_append, Sheet.finish_append, Sheet.finish_chars,
        ih]
      simp only [List.map_cons, List.intercalate_cons_cons]

theorem spell_intercalate (face : Seal → Text) (separator : Text) (parts : List Sheet) :
    spell face ((Glyph.chars separator).intercalate parts) =
      separator.intercalate (parts.map (spell face)) := by
  induction parts with
  | nil => rfl
  | cons part rest ih =>
    cases rest with
    | nil => simp
    | cons next rest =>
      rw [List.intercalate_cons_cons, spell_append, spell_append, spell_chars, ih]
      simp only [List.map_cons, List.intercalate_cons_cons]

/-- The element of a paragraph shows what the inline rules make of it. -/
theorem spell_finish_element {references : ReferenceTable} {table : Sheet.Table}
    (tables : Renaming.same.PrintsTable [] table references) (part : Text) :
    spell Renaming.same.bare
        (Sheet.finish (element table (Sheet.encodeEscapes (Sheet.ofDocument part)))) =
      "<p>".toList ++ Inline.convert references part ++ "</p>".toList := by
  have shown := (Renaming.prints_normalize part).encodeEscapes.convert_eq tables
  rw [element, Sheet.finish_append, Sheet.finish_append, Sheet.finish_chars, Sheet.finish_chars,
    spell_append, spell_append, spell_chars, spell_chars, ← shown]
  rfl

end Paragraph

end Markdown
