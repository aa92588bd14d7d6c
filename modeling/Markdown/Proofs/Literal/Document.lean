import Markdown.Proofs.Literal.Element
import Markdown.Proofs.Paragraph.Independence

set_option autoImplicit false

namespace Markdown

open Pattern

/-- Where nothing else begins, the pieces are one match and the glyphs around it. -/
theorem Pattern.pieces_of_sole {slot : Type} [DecidableEq slot] {pattern : Pattern slot}
    (advances : pattern.Advances Seal.lead) {before found after : Sheet} {stop : Spot Seal slot}
    (goes : pattern.Goes ⟨before.reverse, found ++ after, []⟩ stop) (ahead : stop.ahead = after)
    (early : ∀ front g back, before = front ++ g :: back →
      pattern.spots Seal.lead ⟨front.reverse, g :: (back ++ (found ++ after)), []⟩ = [])
    (late : ∀ front g back, after = front ++ g :: back →
      pattern.spots Seal.lead ⟨front.reverse ++ stop.behind, g :: back, []⟩ = []) :
    pattern.pieces Seal.lead (before ++ (found ++ after)) =
      before.map .plain ++
        .found ⟨⟨before.reverse, found ++ after, []⟩, stop⟩ :: after.map .plain := by
  have onward : pattern.piecesAhead Seal.lead stop = after.map .plain := by
    obtain ⟨behind, rest, captures⟩ := stop
    obtain rfl : rest = after := ahead
    have plain := @piecesAhead_append Seal slot _ Seal.lead pattern behind rest [] captures
      fun front g back whole => by simpa using late front g back whole
    rwa [List.append_nil, piecesAhead_nil, List.append_nil] at plain
  have start := @piecesAhead_append Seal slot _ Seal.lead pattern [] before (found ++ after) []
    fun front g back whole => by simpa using early front g back whole
  rw [List.append_nil, piecesAhead_found advances goes, onward] at start
  rw [pieces_eq_piecesAhead]
  exact start

/-- Replacements that each leave their mark on a state. -/
theorem Piece.run_replacedM {σ slot state : Type} [DecidableEq slot] (face : σ → Text)
    (text : Match slot → Text) (draw : Find σ slot → List (Glyph σ))
    (drawn : ∀ f, text (f.read face) = spell face (draw f))
    (act : Match slot → state → state) (pieces : List (Piece σ slot)) (s : state) :
    StateT.run (m := Id) (replacedM face (fun found s => (text found, act found s)) pieces) s =
      (spell face (pieces.flatMap (Piece.recast draw)),
        (pieces.filterMap Piece.find?).foldl (fun s f => act (f.read face) s) s) := by
  induction pieces generalizing s with
  | nil => rfl
  | cons piece rest ih =>
    cases piece with
    | plain g =>
      rw [replacedM, StateT.run_bind, ih]
      rfl
    | found f =>
      have later := ih (act (f.read face) s)
      rw [List.flatMap_cons, spell_append, recast, ← drawn]
      simp only [replacedM, StateT.run_bind]
      change (do
        let later ← StateT.run (m := Id) (replacedM face _ rest) (act (f.read face) s)
        StateT.run (m := Id) (pure (text (f.read face) ++ later.1)) later.2) = _
      rw [later]
      rfl

/-- A part may give way to its key. -/
theorem Renaming.Prints.keyBlock_between {r : Renaming} {before part after : Sheet} {text : Text}
    (prints : r.Prints [] (before ++ (part ++ after)) text) :
    r.Prints [spell r.face part] (before ++ (Sheet.keyBlock part ++ after))
      (spell r.face before ++
        (Fragments.keyBlock (spell r.face part) ++ spell r.face after)) := by
  have inside : r.Prints [] part (spell r.face part) := prints.part fun g member => by simp [member]
  have front : r.Prints [] before (spell r.face before) := prints.part (List.subset_append_left _ _)
  have back : r.Prints [] after (spell r.face after) := prints.part fun g member => by simp [member]
  exact (front.mono (List.nil_subset _)).append
    (inside.keyBlock.append (back.mono (List.nil_subset _)))

namespace Html

/-- A block begins where its line does. -/
theorem begins_of_mem_htmlBlock {spot later : Spot Seal Part}
    (member : later ∈ htmlBlock.spots Seal.lead spot) :
    Sheet.StartsLine spot.behind ∧ Sheet.Shallow (· == '<') spot.ahead := by
  obtain ⟨middle, start, onward⟩ := List.mem_flatMap.1 member
  have starts := endsLine_lineStart _ _ start
  obtain ⟨rfl, -⟩ := holds_of_mem_place start
  have element : element.Takes Seal.lead (Sheet.Begins (· == '<')) :=
    (begins_char rfl rfl).begins _
  obtain ⟨passed, passes, shallow⟩ :=
    Takes.shallow takes_spaces ((element.capture _).begins _) _ _ onward
  rw [passes.ahead]
  exact ⟨starts, shallow.append _⟩

/-- Where lines begin with letters no block begins. -/
theorem spots_htmlBlock_of_headed {sheet rest behind : Sheet}
    (headed : sheet.Headed Char.isAlpha true) {early late : Sheet} {g : Glyph Seal}
    (whole : sheet = early ++ g :: late) :
    htmlBlock.spots Seal.lead ⟨early.reverse ++ behind, g :: (late ++ rest), []⟩ = [] := by
  refine List.eq_nil_iff_forall_not_mem.2 fun later member => ?_
  obtain ⟨starts, shallow⟩ := begins_of_mem_htmlBlock member
  obtain ⟨c, more, same, opens⟩ := shallow.marked.begins
  obtain ⟨rfl, -⟩ := List.cons.inj same
  have line : ∀ h ∈ early.getLast?, h = .char '\n' := by
    intro h last
    apply starts
    rw [List.head?_append, List.head?_reverse, last]
    rfl
  subst whole
  rcases headed.begins (fun _ => rfl) line with rfl | letter
  · exact absurd opens (by decide)
  · obtain ⟨mark, blank, -⟩ := Paragraph.plain_of_isAlpha letter
    simp only [blank, Bool.false_or] at opens
    obtain rfl := eq_of_beq opens
    exact absurd mark (by decide)

variable {before content after : Sheet} {tag : String} {c : Char}

/-- Between lines that begin with letters the element is found, and nothing else. -/
theorem pieces_htmlBlock (first : before.Headed Char.isAlpha true)
    (last : after.Headed Char.isAlpha true) (known : tag ∈ blockTags) (ends : endsName c = true)
    (unclosed : ∀ written : Text, written.map Unicode.lowerChar = tag.toList.map Unicode.lowerChar →
      ¬ Glyph.chars (closingTag written) <:+: .char c :: content) :
    ∃ f, f.get .element = elementOf tag (.char c :: content) ∧
      htmlBlock.pieces Seal.lead (before ++ Glyph.chars "\n\n".toList ++
          (elementOf tag (.char c :: content) ++ (Glyph.chars "\n\n".toList ++ after))) =
        (before ++ Glyph.chars "\n\n".toList).map .plain ++
          .found f :: (Glyph.chars "\n\n".toList ++ after).map .plain := by
  have early : Sheet.Headed Char.isAlpha true (before ++ Glyph.chars "\n\n".toList) :=
    first.append ⟨fun _ => ⟨'\n', rfl, rfl⟩, trivial⟩
  have late : Sheet.Headed Char.isAlpha true (Glyph.chars "\n\n".toList ++ after) :=
    ⟨fun _ => ⟨'\n', rfl, rfl⟩, fun _ => ⟨'\n', rfl, rfl⟩, last⟩
  have starts : Sheet.StartsLine (before ++ Glyph.chars "\n\n".toList).reverse := by
    simp [Sheet.StartsLine]
  have goes := @goes_htmlBlock (before ++ Glyph.chars "\n\n".toList).reverse
    (Glyph.chars "\n\n".toList ++ after) content [] tag starts known c ends unclosed
    (@Ended.blankLine [] (List.forall_mem_nil _) after)
  refine ⟨_, ?_, pieces_of_sole (regular_htmlBlock Renaming.same.quiet).advances goes rfl ?_ ?_⟩
  · rfl
  · intro front g back whole
    have nowhere := @spots_htmlBlock_of_headed _ (elementOf tag (.char c :: content) ++
      (Glyph.chars "\n\n".toList ++ after)) [] early front back g whole
    rwa [List.append_nil] at nowhere
  · intro front g back whole
    have nowhere := fun behind => @spots_htmlBlock_of_headed _ [] behind late front back g whole
    rw [List.append_nil] at nowhere
    exact nowhere _

theorem spell_keyBlock (r : Renaming) (fragment : Sheet) :
    spell r.face (Sheet.keyBlock fragment) = Fragments.keyBlock (spell r.face fragment) := by
  simp [Sheet.keyBlock, Fragments.keyBlock, Glyph.spell]

/-- Every element that is found is put aside, and its key stands in its place. -/
theorem protectBlocks_spell (r : Renaming) (sheet : Sheet) (fragments : Fragments) :
    protectBlocks (spell r.face sheet) fragments =
      (spell r.face (Sheet.htmlBlocks sheet),
        ((htmlBlock.pieces Seal.lead sheet).filterMap Piece.find?).foldl
          (fun fragments f => fragments.insert (spell r.face (f.get .element))) fragments) := by
  have judged : (Html.outline Seal.lead).lead = Seal.lead := rfl
  let key : Match Part → Text := fun found => Fragments.keyBlock (found.get .element)
  let keep : Match Part → Fragments → Fragments := fun found fragments =>
    fragments.insert (found.get .element)
  have drawn : ∀ f : Find Seal Part, key (f.read r.face) =
      spell r.face (Sheet.keyBlock (f.get .element)) := by
    intro f
    rw [spell_keyBlock, ← Find.read_get]
  have kept : ∀ (f : Find Seal Part) fragments, keep (f.read r.face) fragments =
      fragments.insert (spell r.face (f.get .element)) := by
    intro f fragments
    rw [← Find.read_get]
  have run := Piece.run_replacedM r.face key _ drawn keep (htmlBlock.pieces Seal.lead sheet) fragments
  simp only [kept] at run
  rw [protectBlocks, replaceM_spell (regular_htmlBlock r.quiet), judged]
  exact run

/-- The one element that is found is put aside, and its key stands in its place. -/
theorem protectBlocks_of_pieces {r : Renaming} {known : List Text} {sheet : Sheet} {text : Text}
    {f : Find Seal Part} (prints : r.Prints known sheet text)
    (pieces : htmlBlock.pieces Seal.lead sheet = before.map .plain ++ .found f :: after.map .plain)
    (fragments : Fragments) :
    protectBlocks text fragments =
      (spell r.face before ++ (Fragments.keyBlock (spell r.face (f.get .element)) ++
        spell r.face after), fragments.insert (spell r.face (f.get .element))) := by
  have none : ∀ glyphs : Sheet,
      (glyphs.map (@Piece.plain Seal Part)).filterMap Piece.find? = [] := by
    intro glyphs
    simp [List.filterMap_map, Piece.find?]
  rw [← prints.spelled, protectBlocks_spell, Sheet.htmlBlocks, Pattern.recast, pieces]
  simp [Piece.recast, Piece.find?, List.flatMap_map, none, spell_keyBlock]

/-- The text of an element whose content, the rest of its opening tag included, is the given one. -/
def elementText (tag : String) (content : Text) : Text :=
  '<' :: (tag.toList ++ (content ++ closingTag tag.toList))

theorem map_elementText (known : tag ∈ blockTags) (content : Text) :
    (elementText tag content).map Sheet.glyphOf = elementOf tag (content.map Sheet.glyphOf) := by
  have name := Sheet.map_glyphOf_eq_chars (isPrivate_of_mem_blockTags tag known)
  have close : (closingTag tag.toList).map Sheet.glyphOf = Glyph.chars (closingTag tag.toList) := by
    apply Sheet.map_glyphOf_eq_chars
    intro c member
    rcases List.mem_append.1 member with front | bracket
    · rcases List.mem_append.1 front with slash | inName
      · have all : ∀ c ∈ "</".toList, Unicode.isPrivate c = false := by decide
        exact all c slash
      · exact isPrivate_of_mem_blockTags tag known c inName
    · obtain rfl := List.mem_singleton.1 bracket
      decide
  have bracket : Sheet.glyphOf '<' = .char '<' := Sheet.glyphOf_of_not_isPrivate (by decide)
  rw [elementText, elementOf, List.map_cons, List.map_append, List.map_append, name, close, bracket]

end Html

namespace Paragraph

variable {first last text : Text}

theorem IsParagraph.isProse (paragraph : IsParagraph text) : IsProse text := by
  have prose := @isProse_spaced text [] paragraph nofun
  rwa [spaced, List.flatMap_nil, List.append_nil] at prose

theorem IsParagraph.passages_eq (paragraph : IsParagraph text) : passages text = [text] := by
  have parts := @passages_spaced text [] paragraph nofun
  rwa [spaced, List.flatMap_nil, List.append_nil] at parts

theorem IsParagraph.each_sheetLine (paragraph : IsParagraph text) :
    ∀ line ∈ Quoting.sheetLines text, Glyph.char '\n' ∉ line ∧ line.Begins Char.isAlpha := by
  refine List.forall_mem_map.2 fun line inside => ⟨?_, (paragraph.letters line inside).begins⟩
  exact Sheet.char_not_mem_map_glyphOf (Text.not_newline_of_mem_lines inside)

theorem IsParagraph.headed (paragraph : IsParagraph text) :
    Sheet.Headed Char.isAlpha true (text.map Sheet.glyphOf) := by
  rw [← Quoting.join_lines text, Quoting.map_join]
  exact Sheet.headed_ofLines paragraph.each_sheetLine

theorem not_opensBlock_of_begins {line : Sheet} (begins : line.Begins Char.isAlpha) :
    ¬ line.OpensBlock := by
  intro opens
  obtain ⟨c, rest, rfl, letter⟩ := begins
  obtain ⟨d, more, same, mark⟩ := opens.begins
  obtain ⟨equal, -⟩ := List.cons.inj same
  obtain rfl := Glyph.char.inj equal
  obtain ⟨unmarked, blank, -⟩ := plain_of_isAlpha letter
  simp only [Bool.or_assoc, unmarked, blank, Bool.or_self, Bool.false_eq_true] at mark

/-- The lines of a block of its own between two others. -/
def keyLines (fragment : Sheet) : List Sheet :=
  [[], [], [], [.sealed (.key fragment)], [], [], []]

theorem ofLines_append_ofLines {front back : List Sheet} (some : front ≠ []) (more : back ≠ []) :
    Sheet.ofLines (front ++ back) = Sheet.ofLines front ++ Glyph.char '\n' :: Sheet.ofLines back := by
  induction front with
  | nil => exact absurd rfl some
  | cons line front ih =>
    cases front with
    | nil =>
      obtain ⟨next, rest, rfl⟩ := List.exists_cons_of_ne_nil more
      rw [List.singleton_append, Sheet.ofLines_cons_cons, Sheet.ofLines_singleton]
    | cons next front =>
      rw [List.cons_append, List.cons_append, Sheet.ofLines_cons_cons, Sheet.ofLines_cons_cons,
        ← List.cons_append, ih (List.cons_ne_nil next front), List.append_assoc, List.cons_append]

/-- The key of a fragment between two texts. -/
theorem ofLines_keyLines (first last : Text) (fragment : Sheet) :
    Sheet.ofLines (Quoting.sheetLines first ++ (keyLines fragment ++ Quoting.sheetLines last)) =
      first.map Sheet.glyphOf ++ Glyph.chars "\n\n".toList ++
        (Sheet.keyBlock fragment ++ (Glyph.chars "\n\n".toList ++ last.map Sheet.glyphOf)) := by
  have whole : ∀ text : Text, Sheet.ofLines (Quoting.sheetLines text) = text.map Sheet.glyphOf := by
    intro text
    rw [Quoting.sheetLines, ← Quoting.map_join, Quoting.join_lines]
  have gap : Sheet.ofLines (keyLines fragment) =
      .char '\n' :: (Sheet.keyBlock fragment ++ [Glyph.char '\n']) := rfl
  rw [ofLines_append_ofLines (Quoting.sheetLines_ne_nil first) (by simp [keyLines]),
    ofLines_append_ofLines (by simp [keyLines]) (Quoting.sheetLines_ne_nil last), whole, whole, gap]
  simp

/-- The lines of the paragraphs and of the key between them, as they are rendered. -/
noncomputable def shownLines (first : Text) (fragment : Sheet) (last : Text) : List Sheet :=
  first.lines.map sheetLine ++ (keyLines fragment ++ last.lines.map sheetLine)

theorem encodeEscapes_keyLines (first last : Text) (fragment : Sheet) :
    Sheet.encodeEscapes (Sheet.ofLines
        (Quoting.sheetLines first ++ (keyLines fragment ++ Quoting.sheetLines last))) =
      Sheet.ofLines (shownLines first fragment last) := by
  have still : (keyLines fragment).map Sheet.encodeEscapes = keyLines fragment := by
    simp [keyLines, Sheet.encodeEscapes]
  rw [Sheet.encodeEscapes_ofLines, List.map_append, List.map_append, still, Quoting.sheetLines,
    Quoting.sheetLines, List.map_map, List.map_map]
  rfl

section

variable (begins : IsParagraph first) (ends : IsParagraph last) (fragment : Sheet)
include begins ends

theorem each_keyLine :
    ∀ line ∈ Quoting.sheetLines first ++ (keyLines fragment ++ Quoting.sheetLines last),
      Glyph.char '\n' ∉ line ∧ ¬ line.OpensBlock := by
  have ofParagraph : ∀ {text : Text}, IsParagraph text → ∀ line ∈ Quoting.sheetLines text,
      Glyph.char '\n' ∉ line ∧ ¬ line.OpensBlock := by
    intro text paragraph line member
    obtain ⟨newline, letter⟩ := paragraph.each_sheetLine line member
    exact ⟨newline, not_opensBlock_of_begins letter⟩
  have key : ∀ line ∈ keyLines fragment, Glyph.char '\n' ∉ line ∧ ¬ line.OpensBlock := by
    intro line member
    have cases : line = [] ∨ line = [.sealed (.key fragment)] := by
      simpa [keyLines, or_comm] using member
    rcases cases with rfl | rfl
    · refine ⟨List.not_mem_nil, fun opens => ?_⟩
      obtain ⟨c, rest, impossible, -⟩ := opens.begins
      cases impossible
    · refine ⟨by simp, fun opens => ?_⟩
      obtain ⟨c, rest, impossible, -⟩ := opens.begins
      cases impossible
  exact List.forall_mem_append.2 ⟨ofParagraph begins,
    List.forall_mem_append.2 ⟨key, ofParagraph ends⟩⟩

theorem framed_shownLines : Sheet.Framed (shownLines first fragment last) := by
  have front := begins.isProse.framed
  have back := ends.isProse.framed
  have some : keyLines fragment ++ last.lines.map sheetLine ≠ [] :=
    List.append_ne_nil_of_left_ne_nil (List.cons_ne_nil _ _) _
  constructor
  · exact List.append_ne_nil_of_left_ne_nil front.some _
  · refine List.forall_mem_append.2 ⟨front.newline, List.forall_mem_append.2 ⟨?_, back.newline⟩⟩
    simp [keyLines]
  · rw [shownLines, List.head?_append_of_ne_nil _ front.some]
    exact front.first
  · rw [shownLines, List.getLast?_append_of_ne_nil _ some,
      List.getLast?_append_of_ne_nil _ back.some]
    exact back.last

theorem passages_shownLines :
    Sheet.passages (shownLines first fragment last) =
      [Sheet.encodeEscapes (Sheet.ofDocument first), [.sealed (.key fragment)],
        Sheet.encodeEscapes (Sheet.ofDocument last)] := by
  have lines : ∀ {text : Text}, IsParagraph text →
      (∀ line ∈ text.lines.map sheetLine, line.isBlankLine = false) ∧
        Sheet.ofLines (text.lines.map sheetLine) =
          Sheet.encodeEscapes (Sheet.ofDocument text) := by
    intro text paragraph
    constructor
    · refine List.forall_mem_map.2 fun line member => ?_
      rw [isBlankLine_sheetLine]
      exact (paragraph.letters line member).isBlankLine_eq
    · rw [ofLines_sheetLines, Quoting.join_lines]
      intro line member carriage
      apply paragraph.carriage
      rw [← Quoting.join_lines text]
      exact Quoting.mem_join member carriage
  obtain ⟨inked, same⟩ := lines begins
  obtain ⟨inkedLast, sameLast⟩ := lines ends
  have key : Sheet.isBlankLine [.sealed (.key fragment)] = false := rfl
  have empty : Sheet.isBlankLine [] = true := rfl
  rw [Sheet.passages, shownLines, keyLines]
  simp only [List.cons_append, List.nil_append]
  rw [runs_append_cons begins.isProse.framed.some inked empty, runs_cons_of_separates empty,
    runs_cons_of_separates empty, runs_cons_separator key empty, runs_cons_of_separates empty,
    runs_cons_of_separates empty, runs_eq_singleton ends.isProse.framed.some inkedLast]
  simp only [List.map_cons, List.map_nil, same, sameLast, Sheet.ofLines_singleton]

/-- The blocks are the paragraphs and, between them, the fragment. -/
theorem paragraphs_shownLines :
    Sheet.paragraphs [] (Sheet.ofLines (shownLines first fragment last)) =
      (Glyph.chars "\n\n".toList).intercalate
        [Sheet.finish (element [] (Sheet.encodeEscapes (Sheet.ofDocument first))),
          Sheet.finish fragment,
          Sheet.finish (element [] (Sheet.encodeEscapes (Sheet.ofDocument last)))] := by
  have shown : ∀ {text : Text}, IsParagraph text →
      Sheet.paragraph? [] (Sheet.encodeEscapes (Sheet.ofDocument text)) =
        some (element [] (Sheet.encodeEscapes (Sheet.ofDocument text))) := by
    intro text paragraph
    obtain ⟨c, rest, same, letter⟩ := paragraph.startsWithLetter
    have member : text ∈ passages text := by simp [paragraph.passages_eq]
    rw [paragraph.isProse.paragraph?_eq member, if_neg]
    simp [same, (plain_of_isAlpha letter).2.2]
  have held : Sheet.paragraph? [] [.sealed (.key fragment)] = some fragment := rfl
  have divided := (framed_shownLines begins ends fragment).divide_newlines 0 0
  rw [List.replicate_zero, List.nil_append, List.append_nil,
    passages_shownLines begins ends] at divided
  rw [Sheet.paragraphs, divided]
  simp only [List.filterMap_cons, shown begins, held, shown ends, List.filterMap_nil]
  rw [finish_intercalate]
  rfl

end

end Paragraph

namespace Html

open Paragraph

/-- The document comes out as it was written. -/
theorem spell_finish_map_glyphOf (text : Text) :
    spell Renaming.same.bare (Sheet.finish (text.map Sheet.glyphOf)) = text := by
  rw [Sheet.finish_of_finished (Sheet.finished_map_glyphOf text), Renaming.spell_bare_map_glyphOf]

/-- A text between two others, with an empty line in front of it and one behind it. -/
def amid (first middle last : Text) : Text :=
  first ++ "\n\n".toList ++ (middle ++ ("\n\n".toList ++ last))

section

variable {first last content : Text} {tag : String} {c : Char}

/-- Between paragraphs the element is put aside, and its key is all that is left of it. -/
theorem prepare_amid (begins : IsParagraph first) (ends : IsParagraph last)
    (known : tag ∈ blockTags) (opened : endsName c = true) (carriage : '\r' ∉ c :: content)
    (unclosed : ¬ Closes tag.toList (c :: content)) :
    ∃ sheet text held, Renaming.same.Prints [held] sheet text ∧
      sheet = Sheet.ofLines (shownLines first ((elementText tag (c :: content)).map Sheet.glyphOf)
        last) ∧
      prepare (amid first (elementText tag (c :: content)) last) =
        ⟨text, Fragments.empty.insert held, .empty, []⟩ := by
  have plain : Sheet.glyphOf c = .char c := by
    apply Sheet.glyphOf_of_not_isPrivate
    rcases Bool.or_eq_true_iff.1 opened with same | same <;> rw [eq_of_beq same] <;> decide
  have element := map_elementText known (c :: content)
  rw [List.map_cons, plain] at element
  have inside : '\r' ∉ elementText tag (c :: content) := by
    have name : '\r' ∉ tag.toList := fun member =>
      absurd (isWord_of_mem_blockTags tag known '\r' member) (by decide)
    simp only [elementText, closingTag, List.mem_cons, List.mem_append, not_or] at carriage ⊢
    exact ⟨by decide, name, carriage, ⟨by decide, name⟩, by decide, by simp⟩
  have whole : Sheet.ofDocument (amid first (elementText tag (c :: content)) last) =
      first.map Sheet.glyphOf ++ Glyph.chars "\n\n".toList ++
        (elementOf tag (.char c :: content.map Sheet.glyphOf) ++
          (Glyph.chars "\n\n".toList ++ last.map Sheet.glyphOf)) := by
    have gap : "\n\n".toList.map Sheet.glyphOf = Glyph.chars "\n\n".toList :=
      Sheet.map_glyphOf_eq_chars (by decide)
    rw [Sheet.ofDocument_eq_map, amid]
    · simp only [List.map_append, element, gap]
    · simp [amid, begins.carriage, inside, ends.carriage]
  have prints := Renaming.prints_normalize (amid first (elementText tag (c :: content)) last)
  rw [whole] at prints
  have open' : ∀ written : Text, written.map Unicode.lowerChar = tag.toList.map Unicode.lowerChar →
      ¬ Glyph.chars (closingTag written) <:+: .char c :: content.map Sheet.glyphOf := by
    intro written alike closes
    apply unclosed
    rw [← plain, ← List.map_cons] at closes
    exact ⟨written, alike, infix_of_sheet closes⟩
  obtain ⟨f, found, pieces⟩ := pieces_htmlBlock begins.headed ends.headed known opened open'
  have aside := protectBlocks_of_pieces prints pieces .empty
  rw [found] at aside
  generalize elementOf tag (.char c :: content.map Sheet.glyphOf) = fragment at prints element aside
  -- The key has taken the place of the element.
  have left := prints.keyBlock_between
  rw [← ofLines_keyLines] at left
  have each := each_keyLine begins ends fragment
  have prose := Sheet.prose_ofLines (fun line member => (each line member).1)
    fun line member => (each line member).2
  have definitions := prose.absent (Definition.marked_definitionLine.mono fun _ =>
    Sheet.Marked.opensBlock fun _ => by simp +contextual)
  have hidden := left.encodeEscapes
  rw [encodeEscapes_keyLines] at hidden
  refine ⟨_, _, _, hidden, by rw [element], ?_⟩
  rw [prepare, aside]
  dsimp only
  rw [left.extract_of_absent definitions]

/-- Literal HTML between paragraphs passes through untouched, and the paragraphs come out as they do
on their own. -/
theorem convert_amid {limit : Limit} (room : limit.Holds 1) (begins : IsParagraph first)
    (ends : IsParagraph last) (known : tag ∈ blockTags) (opened : endsName c = true)
    (carriage : '\r' ∉ c :: content) (unclosed : ¬ Closes tag.toList (c :: content)) :
    (convert limit (amid first (elementText tag (c :: content)) last)).html =
      .ok (amid ("<p>".toList ++ Inline.convert .empty first ++ "</p>".toList)
        (elementText tag (c :: content))
        ("<p>".toList ++ Inline.convert .empty last ++ "</p>".toList)) := by
  obtain ⟨sheet, text, held, prints, rfl, prepared⟩ :=
    prepare_amid begins ends known opened carriage unclosed
  generalize (elementText tag (c :: content)) = element at prints prepared ⊢
  have each := each_keyLine begins ends (element.map Sheet.glyphOf)
  have prose := Sheet.prose_encodeEscapes (fun line member => (each line member).1)
    fun line member => (each line member).2
  rw [encodeEscapes_keyLines] at prose
  have apart : (Fragments.empty.insert held).NoCollision := by
    change Fragments.Collisionless [held]
    simp [Fragments.Collisionless]
  have none : Renaming.same.PrintsTable [held] [] .empty := .nil
  have output := prints.html_render_held room none prose.blockless (List.Subset.refl _) apart
  rw [paragraphs_shownLines begins ends, spell_intercalate] at output
  change ((prepare _).render limit).1.map _ = _
  rw [prepared]
  refine output.trans (congrArg Except.ok ?_)
  have shown : ∀ part, spell Renaming.same.bare (Sheet.finish
      (Paragraph.element [] (Sheet.encodeEscapes (Sheet.ofDocument part)))) =
        "<p>".toList ++ Inline.convert .empty part ++ "</p>".toList :=
    spell_finish_element .nil
  simp only [List.map_cons, List.map_nil, shown, spell_finish_map_glyphOf]
  simp [amid]

end

/-- An element with a blank line, a definition, a heading, an escape, a marker and the closing tag of
another element in it. -/
theorem convert_amid_markdown :
    IsParagraph "a *b*\nc".toList ∧ IsParagraph "d".toList ∧ "div" ∈ blockTags ∧
      endsName '>' = true ∧ '\r' ∉ ">\n\n[e]: /u\n# \\*f\uf8ff* </p> </DIV >\n".toList ∧
      ¬ Closes "div".toList ">\n\n[e]: /u\n# \\*f\uf8ff* </p> </DIV >\n".toList ∧
      (convert .standard (amid "a *b*\nc".toList
          (elementText "div" ">\n\n[e]: /u\n# \\*f\uf8ff* </p> </DIV >\n".toList) "d".toList)).html =
        .ok (amid ("<p>".toList ++ Inline.convert .empty "a *b*\nc".toList ++ "</p>".toList)
          (elementText "div" ">\n\n[e]: /u\n# \\*f\uf8ff* </p> </DIV >\n".toList)
          ("<p>".toList ++ Inline.convert .empty "d".toList ++ "</p>".toList)) := by
  have first : IsParagraph "a *b*\nc".toList := by decide
  have last : IsParagraph "d".toList := by decide
  have known : "div" ∈ blockTags := by decide
  have carriage : '\r' ∉ ">\n\n[e]: /u\n# \\*f\uf8ff* </p> </DIV >\n".toList := by decide
  have unclosed : ¬ Closes "div".toList ">\n\n[e]: /u\n# \\*f\uf8ff* </p> </DIV >\n".toList := by
    decide
  exact ⟨first, last, known, rfl, carriage, unclosed,
    convert_amid (by decide) first last known rfl carriage unclosed⟩

end Html

end Markdown
