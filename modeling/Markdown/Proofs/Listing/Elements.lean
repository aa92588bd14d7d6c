import Markdown.Proofs.Listing.Whole
import Markdown.Proofs.Paragraph.Yields

set_option autoImplicit false

namespace Markdown.Listing

open Pattern Paragraph

theorem occursIn_newlines {text : Text} (newline : '\n' ∉ text) (count : Nat) :
    Text.occursIn "\n\n".toList (text ++ List.replicate count '\n') = decide (2 ≤ count) := by
  induction text with
  | nil =>
    match count with
    | 0 => rfl
    | 1 => rfl
    | count + 2 => simp [List.replicate_succ, Text.occursIn, List.isPrefixOf]
  | cons c text ih =>
    obtain ⟨here, others⟩ := List.ne_and_not_mem_of_not_mem_cons newline
    have differs : ('\n' == c) = false := beq_false_of_ne here
    rw [List.cons_append, Text.occursIn, ih others]
    simp [List.isPrefixOf, differs]

/-- An item on one line of a document: a marker, a space and a text that begins with a letter. -/
structure Entry where
  marker : Text
  text : Text
  isMarker : IsMarker marker
  letter : StartsWithLetter text
  newline : '\n' ∉ text
  carriage : '\r' ∉ text

namespace Entry

variable (entry : Entry)

def line : Text :=
  entry.marker ++ ' ' :: entry.text

theorem isParagraph : IsParagraph entry.text where
  carriage := entry.carriage
  letters line member := by
    rw [Quoting.lines_eq_singleton entry.newline, List.mem_singleton] at member
    exact member ▸ entry.letter

theorem isProse : IsProse entry.text := by
  have prose := @isProse_spaced _ [] entry.isParagraph (by simp)
  rwa [spaced, List.flatMap_nil, List.append_nil] at prose

theorem passages_eq : passages entry.text = [entry.text] := by
  have parts := @passages_spaced _ [] entry.isParagraph (by simp)
  rwa [spaced, List.flatMap_nil, List.append_nil] at parts

/-- The item as it stands in the document. -/
def raw : Line where
  marker := entry.marker
  body := entry.text.map Sheet.glyphOf
  isMarker := entry.isMarker
  letter := entry.letter.begins
  newline := Sheet.char_not_mem_map_glyphOf entry.newline

noncomputable def hidden : Line where
  marker := entry.marker
  body := sheetLine entry.text
  isMarker := entry.isMarker
  letter := by
    obtain ⟨c, rest, same, letter⟩ := entry.letter.begins
    have plain : c ≠ '\\' := by
      rintro rfl
      exact absurd letter (by decide)
    exact ⟨c, _, by rw [sheetLine, same, Sheet.encodeEscapes_cons plain], letter⟩
  newline := Sheet.newline_not_mem_encodeEscapes entry.raw.newline

/-- The content of the item and the newlines that it takes. -/
noncomputable def content (count : Nat) : Sheet :=
  entry.hidden.body ++ List.replicate count (Glyph.char '\n')

theorem encodeEscapes_content (count : Nat) :
    Sheet.encodeEscapes (Sheet.ofDocument (amidNewlines 0 count entry.text)) =
      entry.content count := by
  rw [entry.isProse.encodeEscapes_eq, Quoting.lines_eq_singleton entry.newline]
  simp [Sheet.ofLines_singleton, hidden, content]

theorem prints_content (count : Nat) :
    Renaming.same.Prints [] (entry.content count)
      (spell Renaming.same.face (entry.content count)) := by
  have prints := (Renaming.prints_normalize (amidNewlines 0 count entry.text)).encodeEscapes
  rw [entry.encodeEscapes_content] at prints
  exact ⟨rfl, prints.valid⟩

theorem prose_content (count : Nat) : (entry.content count).Prose :=
  entry.encodeEscapes_content count ▸ entry.isProse.prose_encodeEscapes 0 count

/-- The blocks of the content are one paragraph. -/
theorem paragraphs_content (count : Nat) :
    Sheet.paragraphs [] (entry.content count) = Sheet.finish (element [] entry.hidden.body) := by
  have filled : (!entry.text.all Unicode.isSpace) = true := by
    obtain ⟨c, rest, same, letter⟩ := entry.letter
    simp [same, (plain_of_isAlpha letter).2.2]
  rw [← entry.encodeEscapes_content, entry.isProse.paragraphs_eq, entry.passages_eq,
    List.filter_singleton, filled]
  simp [hidden, sheetLine, Sheet.ofDocument_eq_map entry.carriage]

/-- Behind the letter there are only empty lines. -/
theorem headed_content (count : Nat) :
    Sheet.Headed Char.isAlpha true (entry.content count) := by
  have newlines : Sheet.Headed Char.isAlpha true (List.replicate (count - 1) (Glyph.char '\n')) := by
    induction count - 1 with
    | zero => exact trivial
    | succ count ih => exact ⟨fun _ => ⟨'\n', rfl, rfl⟩, ih⟩
  have line : Sheet.Headed Char.isAlpha true entry.hidden.body := by
    obtain ⟨c, rest, same, letter⟩ := entry.hidden.letter
    have newline := entry.hidden.newline
    rw [same] at newline ⊢
    have headed := @Sheet.headed_of_not_mem Char.isAlpha _ newline
    exact ⟨fun _ => ⟨c, rfl, by simp [letter]⟩, headed.2⟩
  cases count with
  | zero => simpa [content] using line
  | succ count => exact line.append newlines

/-- There is no indentation to be taken away. -/
theorem outdent_content (count : Nat) : Sheet.outdent (entry.content count) = entry.content count := by
  have opens : CodeBlock.indentation.OpensLine Text.isBlank :=
    endsLine_lineStart.leadsLine ((begins_char rfl rfl).either
      ((begins_char rfl rfl).begins _)) fun passed more ⟨c, rest, begun, here⟩ =>
        ⟨c, rest ++ more, by rw [begun, List.cons_append], here⟩
  refine recast_eq_self ((entry.headed_content count).absent opens fun c blank => ?_) _
  constructor
  · rintro rfl
    exact absurd blank (by decide)
  · refine Bool.eq_false_iff.2 fun letter => ?_
    rw [(plain_of_isAlpha letter).2.1] at blank
    cases blank

theorem trimEnd_content (count : Nat) :
    Sheet.trimEnd Text.isNewline (entry.content count) = entry.hidden.body :=
  Sheet.trimEnd_newlines (fun _ last =>
    Sheet.fits_isNewline_of_mem entry.hidden.newline (List.mem_of_mem_getLast? last)) count

theorem singleSpaced_body : Sheet.singleSpaced entry.hidden.body = entry.hidden.body :=
  recast_eq_self (not_finds_of_not_mem ((takes_mem_char (by decide)).memFirst _)
    entry.hidden.newline) _

/-- An empty line shows in the content where the item takes two newlines. -/
theorem occursIn_content (count : Nat) :
    Text.occursIn "\n\n".toList (spell Renaming.same.face (entry.content count)) =
      decide (2 ≤ count) := by
  have shown : Text.occursIn ['\n', '\n'] (spell Renaming.same.face (entry.content count)) =
      Text.occursIn ['\n', '\n'] (Sheet.outline (entry.content count)) :=
    (entry.prints_content count).occursIn_eq (by decide) (by decide)
  have newline : '\n' ∉ Sheet.outline entry.hidden.body := by
    intro member
    obtain ⟨g, inside, here⟩ := List.mem_flatMap.1 member
    cases g with
    | char c => exact entry.hidden.newline (List.mem_singleton.1 here ▸ inside)
    | sealed s =>
      have never : '\n' = Escape.opening := List.mem_singleton.1 here
      exact absurd never (by decide)
  have newlines : List.replicate count (Glyph.char '\n' : Glyph Seal) =
      Glyph.chars (List.replicate count '\n') := List.map_replicate.symm
  have spelled : Sheet.outline (entry.content count) =
      Sheet.outline entry.hidden.body ++ List.replicate count '\n' := by
    rw [content, newlines, Sheet.outline, spell_append, spell_chars]
    rfl
  exact shown.trans (spelled ▸ occursIn_newlines newline count)

/-- What the item shows between its tags. -/
noncomputable def shown (loose : Bool) : Sheet :=
  Sheet.finish (if loose then element [] entry.hidden.body else Sheet.inline [] entry.hidden.body)

noncomputable def elementSheet (loose : Bool) : Sheet :=
  Glyph.chars "<li>".toList ++ entry.shown loose ++ Glyph.chars "</li>\n".toList

variable {limit : Limit} (room : 2 ≤ limit.value) (left : Nat)
include room

theorem yields_itemContent {f : Find Seal Part} {count : Nat}
    (content : f.get .content = entry.content count) :
    Renaming.same.Yields 1
      (itemContent ⟨.empty, limit⟩ (Block.interior ⟨.empty, limit⟩ (left + 1))
        (f.read Renaming.same.face))
      (entry.shown ((f.get? .gap).isSome || decide (2 ≤ count))) := by
  have inner : ((1 : Nat) : Int) < limit.value := by omega
  have none : Renaming.same.PrintsTable [] [] .empty := .nil
  have caught : (f.read Renaming.same.face).get .content =
      spell Renaming.same.face (entry.content count) := by rw [Find.read_get, content]
  have outdented : Renaming.same.Prints [] (entry.content count)
      (CodeBlock.outdent ((f.read Renaming.same.face).get .content)) := by
    have prints : Renaming.same.Prints [] (Sheet.outdent (entry.content count)) (CodeBlock.outdent _) :=
      (entry.prints_content count).recast (CodeBlock.regular_indentation Renaming.same.quiet) rfl
        fun _ _ => .nil
    rwa [entry.outdent_content, ← caught] at prints
  have loose : isLoose (f.read Renaming.same.face) =
      ((f.get? .gap).isSome || decide (2 ≤ count)) := by
    rw [isLoose, caught, entry.occursIn_content, Find.read_get?, Option.isSome_map]
  rw [itemContent, loose]
  cases ((f.get? .gap).isSome || decide (2 ≤ count)) with
  | true =>
    have blocks := Renaming.Yields.blocks inner left none outdented (entry.prose_content count) true
    rw [entry.paragraphs_content] at blocks
    exact blocks
  | false =>
    refine (Renaming.Yields.lists inner left outdented (entry.prose_content count)).bind
      fun text prints => ?_
    have trimmed := prints.trimEnd fun _ => isNewline_of_isPrivate
    have single : Renaming.same.Prints [] (Sheet.singleSpaced _)
        (newlines.replace (fun _ => ['\n']) _) :=
      trimmed.recast (regular_newlines Renaming.same.quiet) rfl fun _ _ => .chars _ (by decide)
    rw [entry.trimEnd_content, entry.singleSpaced_body] at single
    have apart : Fragments.Collisionless [] := by simp [Fragments.Collisionless]
    have printed := single.inline apart none
    rw [shown, if_neg Bool.false_ne_true]
    exact Renaming.Yields.finish printed

theorem yields_itemElement {f : Find Seal Part} {count : Nat}
    (content : f.get .content = entry.content count) :
    Renaming.same.Yields 1
      (itemElement ⟨.empty, limit⟩ (Block.interior ⟨.empty, limit⟩ (left + 1))
        (f.read Renaming.same.face))
      (entry.elementSheet ((f.get? .gap).isSome || decide (2 ≤ count))) :=
  (entry.yields_itemContent room left content).bind fun _ prints =>
    .pure (prints.enclosed (by decide) (by decide))

end Entry

/-- Elements one after the other, loose where an empty line stands before or behind their item; later
items come with the number of empty lines in front of them. -/
def joined {α : Type} (element : Entry → (loose : Bool) → List α) (gap : Bool) (first : Entry) :
    List (Nat × Entry) → List α
  | [] => element first gap
  | (count, next) :: later =>
    element first (gap || count != 0) ++ joined element (count != 0) next later

/-- The items on a sheet, with two empty lines for any number of them. -/
noncomputable def evenLines (first : Entry) (later : List (Nat × Entry)) : Sheet :=
  onLines first.hidden (later.map fun (count, entry) => (evened count, entry.hidden))

theorem evenLines_nil (first : Entry) :
    evenLines first [] = first.hidden.sheet ++ (List.replicate 0 (Glyph.char '\n') ++ []) := by
  rw [evenLines, List.map_nil, onLines_nil, List.replicate_zero, List.append_nil, List.append_nil]

theorem evenLines_cons (first next : Entry) (count : Nat) (later : List (Nat × Entry)) :
    evenLines first ((count, next) :: later) =
      first.hidden.sheet ++
        (List.replicate (evened count + 1) (Glyph.char '\n') ++ evenLines next later) :=
  onLines_cons ..

/-- Behind the newlines that an item takes, one is left if there is an empty line. -/
theorem newlines_evened (count : Nat) :
    decide (2 ≤ min (evened count + 1) 2) = (count != 0) ∧
      (List.replicate (evened count + 1 - 2) (Glyph.char '\n') : Sheet) = gapOf (count != 0) := by
  cases count <;> exact ⟨rfl, rfl⟩

/-- Item by item, the elements come out of a search for items that begins at an item or at the newline
in front of it. -/
theorem yields_items {limit : Limit} (room : 2 ≤ limit.value) (left : Nat) {gap : Bool} (first : Entry)
    (later : List (Nat × Entry)) {behind : Sheet} (starts : gap = false → Sheet.StartsLine behind)
    (captures : List (Part × Sheet)) :
    Renaming.same.Yields 1
      (Piece.replacedM Renaming.same.face
        (itemElement ⟨.empty, limit⟩ (Block.interior ⟨.empty, limit⟩ (left + 1)))
        (item.piecesAhead Seal.lead ⟨behind, gapOf gap ++ evenLines first later, captures⟩))
      (joined Entry.elementSheet gap first later) := by
  induction later generalizing gap first behind captures with
  | nil =>
    obtain ⟨f, kept, gapped, content, found⟩ :=
      first.hidden.exists_find starts .ended 0 (by simp) captures
    have element := first.yields_itemElement room left content
    rw [gapped, Nat.zero_min, decide_eq_false (by decide), Bool.or_false] at element
    rw [evenLines_nil, found, joined, ← List.append_nil (first.elementSheet gap)]
    exact element.found (.pure .nil)
  | cons entry later ih =>
    obtain ⟨count, next⟩ := entry
    have onward : Onward (evenLines next later) := onward_onLines ..
    obtain ⟨f, kept, gapped, content, found⟩ :=
      first.hidden.exists_find starts onward (evened count + 1) (by simp) captures
    obtain ⟨taken, spared⟩ := newlines_evened count
    have element := first.yields_itemElement room left content
    rw [gapped, taken] at element
    rw [evenLines_cons, found, spared, joined]
    refine element.found (ih next (fun tight => ?_) kept)
    obtain rfl : count = 0 := by simpa using tight
    simp [evened, Sheet.StartsLine]

/-- The list as it is found. -/
noncomputable def sheetOf (first : Entry) (later : List (Nat × Entry)) : Sheet :=
  onLines first.hidden (later.map fun (count, entry) => (count, entry.hidden))

theorem evenlySpaced_sheetOf (first : Entry) (later : List (Nat × Entry)) :
    Sheet.evenlySpaced (sheetOf first later) = evenLines first later := by
  rw [sheetOf, evenlySpaced_onLines, List.map_map, evenLines]
  rfl

noncomputable def listSheet (first : Entry) (later : List (Nat × Entry)) : Sheet :=
  Glyph.chars ('<' :: tagOf first.marker ++ ">\n".toList) ++
    joined Entry.elementSheet false first later ++
    Glyph.chars ("</".toList ++ tagOf first.marker ++ ['>'])

theorem yields_listElement {limit : Limit} (room : 2 ≤ limit.value) (left : Nat) {first : Entry}
    {later : List (Nat × Entry)} {text : Text}
    (prints : Renaming.same.Prints [] (sheetOf first later) text) {f : Find Seal Part}
    (list : f.get .list = sheetOf first later) (marker : f.get .marker = Glyph.chars first.marker) :
    Renaming.same.Yields 1
      (listElement ⟨.empty, limit⟩ (Block.interior ⟨.empty, limit⟩ (left + 1))
        (f.read Renaming.same.face)) (listSheet first later) := by
  have even := Renaming.Refines.evenlySpaced prints
  have items := @yields_items limit room left false first later []
    (fun _ => by simp [Sheet.StartsLine]) []
  rw [listElement, Find.read_get, list, prints.spelled, Find.read_get, marker, spell_chars,
    ← even.spelled, replaceM_spell (regular_item Renaming.same.quiet), evenlySpaced_sheetOf]
  refine Renaming.Yields.bind items fun text shown => ?_
  have whole := Renaming.Refines.tagged shown first.marker
  exact .pure (by simpa [listSheet] using whole)

end Markdown.Listing
