import Markdown.Proofs.Quoting.Levels
import Markdown.Proofs.Quoting.Marks

set_option autoImplicit false

namespace Markdown

open Pattern

theorem Pattern.redraw_of_absent {slot : Type} [DecidableEq slot] {pattern : Pattern slot}
    {sheet : Sheet} (absent : pattern.Absent Seal.lead sheet) (drawn : Find Seal slot → Draft Sheet) :
    pattern.redraw drawn sheet = pure sheet := by
  rw [Pattern.redraw, absent.pieces_eq]
  clear absent
  induction sheet with
  | nil => rfl
  | cons g rest ih => rw [List.map_cons, Piece.redrawn, ih, pure_bind]

theorem Pattern.find?_pieces_eq_nil {r : Renaming} {known : List Text} {sheet : Sheet} {text : Text}
    {slot : Type} [DecidableEq slot] {pattern : Pattern slot} {o : Outline Seal slot}
    (regular : pattern.Regular o r.face) (judged : o.lead = Seal.lead)
    (prints : r.Prints known sheet text) (none : pattern.matches? text = []) :
    (pattern.pieces Seal.lead sheet).filterMap Piece.find? = [] := by
  rw [← prints.spelled, matches?_spell regular, judged, List.map_eq_nil_iff] at none
  exact none

theorem Pattern.recast_of_filterMap {slot : Type} [DecidableEq slot] {pattern : Pattern slot}
    {sheet : Sheet} (none : (pattern.pieces Seal.lead sheet).filterMap Piece.find? = [])
    (drawn : Find Seal slot → Sheet) : pattern.recast drawn sheet = sheet := by
  have plain : ∀ piece ∈ pattern.pieces Seal.lead sheet, piece.recast drawn = piece.glyphs := by
    intro piece member
    cases piece with
    | plain g => rfl
    | found f =>
      have kept : f ∈ (pattern.pieces Seal.lead sheet).filterMap Piece.find? :=
        Piece.mem_filterMap_find?.2 member
      rw [none] at kept
      exact absurd kept List.not_mem_nil
  rw [Pattern.recast, List.flatMap_congr plain, flatMap_glyphs_pieces]

namespace Sheet

def blockQuote (content : Sheet) : Sheet :=
  Glyph.chars "<blockquote>\n".toList ++ content ++ Glyph.chars "\n</blockquote>".toList

theorem finish_of_finished {sheet : Sheet} (finished : ∀ g ∈ sheet, g.Finished) :
    finish sheet = sheet := by
  rw [finish_eq_flatMap]
  refine (List.flatMap_congr fun g member => ?_).trans (List.flatMap_singleton' sheet)
  cases finished g member with
  | char c => rfl
  | marker side => rfl

theorem headed_of_not_mem {heads : Char → Bool} {line : Sheet} (newline : Glyph.char '\n' ∉ line) :
    Headed heads false line := by
  induction line with
  | nil => exact trivial
  | cons g rest ih =>
    have inside : g.fits Seal.lead Text.isNewline = false := by
      refine Bool.eq_false_iff.2 fun fits => ?_
      obtain ⟨c, rfl, here⟩ := exists_char_of_fits (by decide) fits
      rw [show c = '\n' by simpa [Text.isNewline] using here] at newline
      exact newline List.mem_cons_self
    rw [Headed, inside]
    exact ⟨fun impossible => absurd impossible Bool.false_ne_true,
      ih fun member => newline (List.mem_cons_of_mem _ member)⟩

variable {lines : List Sheet}

/-- Lines that begin with characters of the class make a sheet in which every line does. -/
theorem headed_ofLines {heads : Char → Bool}
    (each : ∀ line ∈ lines, Glyph.char '\n' ∉ line ∧ line.Begins heads) :
    Headed heads true (ofLines lines) := by
  have one : ∀ {line : Sheet}, Glyph.char '\n' ∉ line → line.Begins heads → Headed heads true line := by
    rintro _ newline ⟨c, rest, rfl, here⟩
    have headed := @headed_of_not_mem heads _ newline
    exact ⟨fun _ => ⟨c, rfl, by simp [here]⟩, headed.2⟩
  induction lines with
  | nil => exact trivial
  | cons line more ih =>
    obtain ⟨⟨newline, begins⟩, others⟩ := List.forall_mem_cons.1 each
    cases more with
    | nil => simpa [ofLines_singleton] using one newline begins
    | cons next more =>
      rw [ofLines_cons_cons]
      exact (one newline begins).append (ih others)

theorem headed_quoted (each : ∀ line ∈ lines, IsLine line) :
    Headed (· == '>') true (ofLines (lines.map quoteLine)) := by
  refine headed_ofLines (List.forall_mem_map.2 fun line member => ⟨fun newline => ?_, ?_⟩)
  · rcases List.mem_append.1 newline with mark | inside
    · simp at mark
    · exact (each line member).newline inside
  · exact ⟨'>', _, rfl, rfl⟩

theorem apart_of_isOpener {c : Char} (opener : isOpener c = true) : c ≠ '\n' ∧ (c == '>') = false := by
  constructor
  · rintro rfl
    exact absurd opener (by decide)
  · refine beq_false_of_ne ?_
    rintro rfl
    exact absurd opener (by decide)

/-- A fragment on a block of its own comes out as it is. -/
theorem paragraphs_keyBlock (table : Table) (fragment : Sheet) :
    paragraphs table (keyBlock fragment) = finish fragment := by
  have alone : trim Text.isNewline (keyBlock fragment) = [.sealed (.key fragment)] := rfl
  have divided : Block.blankLines.divide [.sealed (.key fragment)] = [[.sealed (.key fragment)]] :=
    rfl
  have shown : paragraph? table [.sealed (.key fragment)] = some fragment := rfl
  rw [paragraphs, alone, divided, List.filterMap_cons, shown]
  simp

/-- On the level of the quoted lines there is nothing but the quote. -/
theorem level_quoted (table : Table) (interior : Interior) (some : lines ≠ [])
    (each : ∀ line ∈ lines, IsLine line) :
    level table interior false (ofLines (lines.map quoteLine)) = (do
      let content ← interior.blocks false (ofLines lines)
      pure (finish (blockQuote content))) := by
  have headed := headed_quoted each
  have still : ∀ {slot : Type} [DecidableEq slot] {pattern : Pattern slot},
      pattern.OpensLine isOpener →
        pattern.Absent Seal.lead (ofLines (lines.map quoteLine)) :=
    fun opens => headed.absent opens fun _ => apart_of_isOpener
  obtain ⟨f, found, whole⟩ := Quote.pieces_quote some each
  have quotes : Sheet.quotes interior (ofLines (lines.map quoteLine)) = (do
      let content ← interior.blocks false (ofLines lines)
      pure (keyBlock (blockQuote content))) := by
    rw [Sheet.quotes, Pattern.redraw, found, Piece.redrawn, whole]
    simp [quoteElement, Quote.recast_mark each, Piece.redrawn, blockQuote]
  have unmarked : ∀ fragment, htmlBlocks (keyBlock fragment) = keyBlock fragment :=
    fun fragment => Sheet.htmlBlocks_eq_self (by simp [keyBlock])
  rw [level, underlinedHeadings, recast_eq_self (still Heading.opensLine_underlined),
    markedHeadings, recast_eq_self (still Heading.opensLine_marked), rules,
    recast_eq_self (still Heading.opensLine_rule), lists, if_neg Bool.false_ne_true,
    redraw_of_absent (still Listing.opensLine_topList), pure_bind, codeBlocks,
    recast_eq_self (still CodeBlock.opensLine_codeBlock), quotes, bind_assoc]
  simp [unmarked, paragraphs_keyBlock]

/-- Quoted, a sheet comes to what it comes to by itself, in a block quote, one level further in. -/
theorem blocks_quoted (table : Table) {count left : Nat} (capacity : Nat) (room : count ≤ left)
    (some : lines ≠ []) (each : ∀ line ∈ lines, IsLine line) :
    (((interior table ⟨.levels (count + 1 : Nat), capacity⟩ (left + 1)).blocks false
        (ofLines (lines.map quoteLine))).run .outermost).1.toOption =
      (((interior table ⟨.levels count, capacity⟩ (left + 1)).blocks false
        (ofLines lines)).run .outermost).1.toOption.map blockQuote := by
  have entered : Level.outermost.enter ⟨.levels (count + 1 : Nat), capacity⟩ = .ok ⟨1, 1⟩ :=
    Level.enter_outermost (Int.ofNat_le.2 (Nat.le_add_left 1 count))
  have enough : count ≤ 0 + left := by omega
  have same := ((Draft.Deeper.interiors table capacity count left enough).1 false
    (ofLines lines)).result .outermost ⟨1, 1⟩ rfl rfl
  have finished := finished_blocks table ⟨.levels (count + 1 : Nat), capacity⟩ left false
    (ofLines lines) ⟨1, 1⟩
  rw [same, blocks_succ, Draft.run_nested entered, level_quoted table _ some each, run_bind]
  generalize ((interior table ⟨.levels (count + 1 : Nat), capacity⟩ left).blocks false
    (ofLines lines)).run ⟨1, 1⟩ = done at finished ⊢
  obtain ⟨error | content, later⟩ := done
  · rfl
  · have whole : ∀ g ∈ blockQuote content, g.Finished := by
      have chars : ∀ text, ∀ g ∈ (Glyph.chars text : Sheet), g.Finished := by
        intro text g member
        obtain ⟨c, _, rfl⟩ := Glyph.mem_chars.1 member
        exact .char c
      exact List.forall_mem_append.2 ⟨List.forall_mem_append.2 ⟨chars _, finished content rfl⟩,
        chars _⟩
    change Option.some (finish (blockQuote content)) = _
    rw [finish_of_finished whole]
    rfl

end Sheet

namespace Quoting

/-- A document with a quote mark in front of each of its lines. -/
def quoted (document : Text) : Text :=
  Text.join ['\n'] (document.lines.map fun line => "> ".toList ++ line)

def blockQuote (html : Text) : Text :=
  "<blockquote>\n".toList ++ html ++ "\n</blockquote>".toList

/-- A document without carriage returns, in which no line is made of blanks only unless it is empty,
and in which there is neither literal HTML nor a definition. -/
structure Plain (document : Text) : Prop where
  carriage : '\r' ∉ document
  inked : ∀ line ∈ document.lines, (∀ c ∈ line, Text.isBlank c = true) → line = []
  html : Html.htmlBlock.matches? (Codec.standard.normalize document) = []
  definitions : Definition.definitionLine.matches? (Codec.standard.normalize document) = []

theorem join_cons_cons (separator part next : Text) (rest : List Text) :
    Text.join separator (part :: next :: rest) =
      part ++ separator ++ Text.join separator (next :: rest) :=
  List.intercalate_cons_cons

theorem lines_append (first rest : Text) :
    Text.lines (first ++ '\n' :: rest) = first.lines ++ rest.lines := by
  rw [Text.lines, Text.lines]
  induction first with
  | nil => rfl
  | cons c first ih =>
    obtain ⟨piece, more, pieces⟩ := List.exists_cons_of_ne_nil
      (Text.splitAt_ne_nil Text.isNewline first)
    rw [List.cons_append, Text.splitAt, Text.splitAt, ih, pieces]
    split <;> rfl

theorem lines_eq_singleton {line : Text} (newline : '\n' ∉ line) : line.lines = [line] := by
  rw [Text.lines]
  induction line with
  | nil => rfl
  | cons c line ih =>
    have other : Text.isNewline c = false :=
      beq_false_of_ne fun same => newline (same ▸ List.mem_cons_self)
    rw [Text.splitAt, other, ih fun member => newline (List.mem_cons_of_mem _ member)]
    rfl

/-- Joined lines are the lines of the text. -/
theorem lines_join {lines : List Text} (some : lines ≠ []) (each : ∀ line ∈ lines, '\n' ∉ line) :
    (Text.join ['\n'] lines).lines = lines := by
  induction lines with
  | nil => exact absurd rfl some
  | cons line more ih =>
    obtain ⟨here, others⟩ := List.forall_mem_cons.1 each
    cases more with
    | nil => simpa [Text.join] using lines_eq_singleton here
    | cons next more =>
      rw [join_cons_cons, List.append_assoc]
      change (line ++ '\n' :: Text.join ['\n'] (next :: more)).lines = _
      rw [lines_append, lines_eq_singleton here, ih (List.cons_ne_nil _ _) others]
      rfl

theorem join_lines (text : Text) : Text.join ['\n'] text.lines = text := by
  rw [Text.lines]
  induction text with
  | nil => rfl
  | cons c rest ih =>
    obtain ⟨piece, more, pieces⟩ := List.exists_cons_of_ne_nil
      (Text.splitAt_ne_nil Text.isNewline rest)
    rw [Text.splitAt]
    split
    · next newline =>
      rw [pieces] at ih ⊢
      rw [join_cons_cons, ih, show c = '\n' by simpa [Text.isNewline] using newline]
      rfl
    · rw [pieces] at ih ⊢
      dsimp only
      cases more with
      | nil => simpa [Text.join] using ih
      | cons next more =>
        rw [join_cons_cons] at ih ⊢
        rw [← ih]
        rfl

theorem mem_join {c : Char} {separator part : Text} {parts : List Text} (member : part ∈ parts)
    (inside : c ∈ part) : c ∈ Text.join separator parts := by
  induction parts with
  | nil => exact absurd member List.not_mem_nil
  | cons first rest ih =>
    cases rest with
    | nil =>
      obtain rfl := List.mem_singleton.1 member
      simpa [Text.join] using inside
    | cons next rest =>
      rw [join_cons_cons]
      rcases List.mem_cons.1 member with rfl | later
      · exact List.mem_append_left _ (List.mem_append_left _ inside)
      · exact List.mem_append_right _ (ih later)

theorem not_mem_join {c : Char} {separator : Text} {parts : List Text} (between : c ∉ separator)
    (each : ∀ part ∈ parts, c ∉ part) : c ∉ Text.join separator parts := by
  induction parts with
  | nil => exact List.not_mem_nil
  | cons part rest ih =>
    obtain ⟨here, others⟩ := List.forall_mem_cons.1 each
    cases rest with
    | nil => simpa [Text.join] using here
    | cons next rest =>
      rw [join_cons_cons]
      intro member
      rcases List.mem_append.1 member with front | later
      · exact (List.mem_append.1 front).elim here between
      · exact ih others later

def sheetLines (document : Text) : List Sheet :=
  document.lines.map fun line => line.map Sheet.glyphOf

theorem map_join (lines : List Text) :
    (Text.join ['\n'] lines).map Sheet.glyphOf =
      Sheet.ofLines (lines.map fun line => line.map Sheet.glyphOf) := by
  induction lines with
  | nil => rfl
  | cons line more ih =>
    cases more with
    | nil => simp [Sheet.ofLines, Text.join]
    | cons next more =>
      rw [join_cons_cons, List.map_append, ih, List.map_append]
      simp only [List.map_cons, Sheet.ofLines_cons_cons]
      simp [Sheet.glyphOf_of_not_isPrivate (c := '\n') (by decide)]

variable {document : Text}

theorem ofDocument_eq_ofLines (carriage : '\r' ∉ document) :
    Sheet.ofDocument document = Sheet.ofLines (sheetLines document) := by
  rw [Sheet.ofDocument_eq_map carriage, sheetLines, ← map_join, join_lines]

theorem carriage_not_mem_quoted (carriage : '\r' ∉ document) : '\r' ∉ quoted document := by
  refine not_mem_join (by decide) fun part member => ?_
  obtain ⟨line, inside, rfl⟩ := List.mem_map.1 member
  intro here
  rcases List.mem_append.1 here with mark | inLine
  · exact absurd mark (by decide)
  · rw [← join_lines document] at carriage
    exact carriage (mem_join inside inLine)

theorem ofDocument_quoted (carriage : '\r' ∉ document) :
    Sheet.ofDocument (quoted document) =
      Sheet.ofLines ((sheetLines document).map Sheet.quoteLine) := by
  rw [Sheet.ofDocument_eq_map (carriage_not_mem_quoted carriage), quoted, map_join, sheetLines,
    List.map_map, List.map_map]
  rfl

theorem lines_quoted (document : Text) :
    (quoted document).lines = document.lines.map fun line => "> ".toList ++ line := by
  refine lines_join (by simpa using Text.lines_ne_nil document) fun line member => ?_
  obtain ⟨origin, inside, rfl⟩ := List.mem_map.1 member
  intro newline
  rcases List.mem_append.1 newline with mark | inLine
  · exact absurd mark (by decide)
  · exact Text.not_newline_of_mem_lines inside inLine

theorem sheetLines_ne_nil (document : Text) : sheetLines document ≠ [] := by
  simpa [sheetLines] using Text.lines_ne_nil document

theorem glyphOf_eq_char {c d : Char} (same : Sheet.glyphOf c = .char d) : c = d := by
  rw [Sheet.glyphOf] at same
  split at same
  · cases same
  · split at same
    · cases same
    · exact Glyph.char.inj same

theorem isLine_of_mem_sheetLines
    (inked : ∀ line ∈ document.lines, (∀ c ∈ line, Text.isBlank c = true) → line = [])
    (line : Sheet) (member : line ∈ sheetLines document) : Sheet.IsLine line := by
  obtain ⟨origin, inside, rfl⟩ := List.mem_map.1 member
  refine ⟨fun newline => ?_, fun blank => ?_⟩
  · obtain ⟨c, here, same⟩ := List.mem_map.1 newline
    obtain rfl := glyphOf_eq_char same
    exact Text.not_newline_of_mem_lines inside here
  · rw [inked origin inside, List.map_nil]
    intro c here
    obtain ⟨d, same, isBlank⟩ := blank _ (List.mem_map_of_mem here)
    obtain rfl := glyphOf_eq_char same
    exact isBlank

/-- Behind quote marks there is neither literal HTML nor a definition. -/
theorem plain_quoted (carriage : '\r' ∉ document)
    (inked : ∀ line ∈ document.lines, (∀ c ∈ line, Text.isBlank c = true) → line = []) :
    Plain (quoted document) where
  carriage := carriage_not_mem_quoted carriage
  inked line member blank := by
    rw [lines_quoted] at member
    obtain ⟨origin, inside, rfl⟩ := List.mem_map.1 member
    exact absurd (blank '>' List.mem_cons_self) (by decide)
  html := by
    refine (Renaming.prints_normalize _).matches?_of_absent
      (Html.regular_htmlBlock Renaming.same.quiet) rfl ?_
    rw [ofDocument_quoted carriage]
    exact (Sheet.headed_quoted (isLine_of_mem_sheetLines inked)).absent
      Html.opensLine_htmlBlock fun _ => Sheet.apart_of_isOpener
  definitions := by
    refine (Renaming.prints_normalize _).matches?_of_absent
      (Renaming.regular_definitionLine Renaming.same) rfl ?_
    rw [ofDocument_quoted carriage]
    exact (Sheet.headed_quoted (isLine_of_mem_sheetLines inked)).absent
      Definition.opensLine_definitionLine fun _ => Sheet.apart_of_isOpener

section

variable (plain : Plain document)
include plain

theorem Plain.sheet :
    Sheet.htmlBlocks (Sheet.ofDocument document) = Sheet.ofDocument document ∧
      Sheet.withoutDefinitions (Sheet.ofDocument document) = Sheet.ofDocument document ∧
      Sheet.extractTable (Sheet.ofDocument document) = [] := by
  have prints := Renaming.prints_normalize document
  have html := find?_pieces_eq_nil (Html.regular_htmlBlock Renaming.same.quiet) rfl prints
    plain.html
  have definitions := find?_pieces_eq_nil (Renaming.regular_definitionLine Renaming.same) rfl
    prints plain.definitions
  refine ⟨recast_of_filterMap html _, recast_of_filterMap definitions _, ?_⟩
  rw [Sheet.extractTable, definitions]
  rfl

theorem Plain.rendered_eq (limit : Limit) :
    Sheet.rendered limit document = (((Sheet.interior [] limit limit.capacity).blocks false
      (Sheet.encodeEscapes (Sheet.ofDocument document))).run .outermost).1 := by
  obtain ⟨html, definitions, table⟩ := plain.sheet
  rw [Sheet.rendered, Sheet.draft, html, definitions, table]

theorem rendered_quoted {count capacity : Nat} (room : count + 1 ≤ capacity) :
    (Sheet.rendered ⟨.levels (count + 1 : Nat), capacity⟩ (quoted document)).toOption =
      (Sheet.rendered ⟨.levels count, capacity⟩ document).toOption.map Sheet.blockQuote := by
  have each : ∀ line ∈ (sheetLines document).map Sheet.encodeEscapes, Sheet.IsLine line := by
    intro line member
    obtain ⟨origin, inside, rfl⟩ := List.mem_map.1 member
    exact (isLine_of_mem_sheetLines plain.inked origin inside).encodeEscapes
  obtain ⟨left, rfl⟩ := Nat.exists_eq_add_of_le' (Nat.le_of_add_left_le room)
  have same := Sheet.blocks_quoted [] (left + 1) (Nat.le_of_succ_le_succ room)
    (by simpa using sheetLines_ne_nil document) each
  have inside : ((sheetLines document).map Sheet.encodeEscapes).map Sheet.quoteLine =
      ((sheetLines document).map Sheet.quoteLine).map Sheet.encodeEscapes := by
    simp [Sheet.encodeEscapes_quoteLine]
  rw [inside, ← Sheet.encodeEscapes_ofLines, ← Sheet.encodeEscapes_ofLines,
    ← ofDocument_eq_ofLines plain.carriage, ← ofDocument_quoted plain.carriage] at same
  rw [(plain_quoted plain.carriage plain.inked).rendered_eq, plain.rendered_eq]
  exact same

/-- Each time the document is quoted there is a level and a block quote more. -/
theorem rendered_iterate_quoted {count capacity : Nat} (times : Nat)
    (room : count + times ≤ capacity) :
    (Sheet.rendered ⟨.levels (count + times : Nat), capacity⟩ (quoted^[times] document)).toOption =
      (Sheet.rendered ⟨.levels count, capacity⟩ document).toOption.map
        Sheet.blockQuote^[times] := by
  have still : Plain (quoted^[times] document) ∧
      (Sheet.rendered ⟨.levels (count + times : Nat), capacity⟩
          (quoted^[times] document)).toOption =
        (Sheet.rendered ⟨.levels count, capacity⟩ document).toOption.map
          Sheet.blockQuote^[times] := by
    induction times with
    | zero => exact ⟨plain, (Option.map_id_apply ..).symm⟩
    | succ times ih =>
      obtain ⟨here, before⟩ := ih (by omega)
      rw [Function.iterate_succ_apply', Function.iterate_succ']
      refine ⟨plain_quoted here.carriage here.inked, ?_⟩
      rw [← Nat.add_assoc, rendered_quoted here (by omega), before, Option.map_map]
  exact still.2

end

theorem spell_iterate_blockQuote (face : Seal → Text) (times : Nat) (sheet : Sheet) :
    spell face (Sheet.blockQuote^[times] sheet) = blockQuote^[times] (spell face sheet) := by
  induction times with
  | zero => rfl
  | succ times ih =>
    rw [Function.iterate_succ_apply', Function.iterate_succ_apply', ← ih, Sheet.blockQuote,
      spell_append, spell_append, spell_chars, spell_chars]
    rfl

/-- A document that is quoted any number of times converts to what it converts to by itself in as
many block quotes, with as many levels more, and is refused if the document is. That neither of the
two runs gives one key to two different fragments is assumed: it is what the digest is relied on
for. -/
theorem convert_iterate_quoted (plain : Plain document) {count capacity : Nat} (times : Nat)
    (room : count + times ≤ capacity)
    (apart : (convert ⟨.levels count, capacity⟩ document).progress.fragments.NoCollision)
    (quotedApart : (convert ⟨.levels (count + times : Nat), capacity⟩
      (quoted^[times] document)).progress.fragments.NoCollision) :
    (∀ html, (convert ⟨.levels count, capacity⟩ document).html = .ok html →
      (convert ⟨.levels (count + times : Nat), capacity⟩ (quoted^[times] document)).html =
        .ok (blockQuote^[times] html)) ∧
    ((∃ error, (convert ⟨.levels (count + times : Nat), capacity⟩
        (quoted^[times] document)).html = .error error) ↔
      ∃ error, (convert ⟨.levels count, capacity⟩ document).html = .error error) := by
  have keep : ∀ limit document, (convert limit document).progress.fragments.NoCollision →
      (convert limit document).html =
        (Sheet.rendered limit document).map (spell Renaming.same.bare) := by
    intro limit document
    have keep := Renaming.html_convert
      (Renaming.spares_of_isMarker Renaming.isMarker_char_same document) limit
    rwa [Renaming.map_apply_same] at keep
  have same := rendered_iterate_quoted plain times room
  rw [keep _ _ apart, keep _ _ quotedApart]
  generalize Sheet.rendered ⟨.levels (count + times : Nat), capacity⟩
    (quoted^[times] document) = outer at same
  generalize Sheet.rendered ⟨.levels count, capacity⟩ document = inner at same
  cases outer with
  | error refused =>
    cases inner with
    | error error => exact ⟨nofun, fun _ => ⟨error, rfl⟩, fun _ => ⟨refused, rfl⟩⟩
    | ok sheet => cases same
  | ok result =>
    cases inner with
    | error error => cases same
    | ok sheet =>
      obtain rfl := Option.some.inj same
      refine ⟨fun html done => ?_, ⟨nofun, nofun⟩⟩
      obtain rfl := Except.ok.inj done
      exact congrArg Except.ok (spell_iterate_blockQuote _ times sheet)

instance (document : Text) : Decidable (Plain document) :=
  decidable_of_iff ('\r' ∉ document ∧
      (∀ line ∈ document.lines, (∀ c ∈ line, Text.isBlank c = true) → line = []) ∧
      Html.htmlBlock.matches? (Codec.standard.normalize document) = [] ∧
      Definition.definitionLine.matches? (Codec.standard.normalize document) = [])
    ⟨fun all => ⟨all.1, all.2.1, all.2.2.1, all.2.2.2⟩,
      fun plain => ⟨plain.1, plain.2, plain.3, plain.4⟩⟩

/-- A list and a paragraph in two quotes, where four levels can be open at a time. -/
theorem convert_iterate_quoted_list :
    Plain "- a\n\nb".toList ∧ 2 + 2 ≤ 4 ∧
      (convert ⟨.levels (2 : Nat), 4⟩ "- a\n\nb".toList).progress.fragments.NoCollision ∧
      (convert ⟨.levels (2 + 2 : Nat), 4⟩
        (quoted^[2] "- a\n\nb".toList)).progress.fragments.NoCollision ∧
      (convert ⟨.levels (2 + 2 : Nat), 4⟩ (quoted^[2] "- a\n\nb".toList)).html =
        .ok (blockQuote^[2] "<ul>\n<li>a</li>\n</ul>\n\n<p>b</p>".toList) := by
  have plain : Plain "- a\n\nb".toList := by decide +kernel
  have room : 2 + 2 ≤ 4 := by decide
  obtain ⟨apart, written⟩ :
      (convert ⟨.levels (2 : Nat), 4⟩ "- a\n\nb".toList).progress.fragments.NoCollision ∧
        (convert ⟨.levels (2 : Nat), 4⟩ "- a\n\nb".toList).html.toOption =
          some "<ul>\n<li>a</li>\n</ul>\n\n<p>b</p>".toList := by
    decide +kernel
  have quotedApart : (convert ⟨.levels (2 + 2 : Nat), 4⟩
      (quoted^[2] "- a\n\nb".toList)).progress.fragments.NoCollision := by
    decide +kernel
  exact ⟨plain, room, apart, quotedApart, (convert_iterate_quoted plain 2 room apart quotedApart).1 _
    (eq_ok_of_toOption written)⟩

end Quoting

end Markdown
