import Markdown.Proofs.Listing.Elements
import Markdown.Proofs.Paragraph.Alone

set_option autoImplicit false

namespace Markdown.Listing

open Pattern Paragraph

/-- The items of a list; a later one comes with the number of empty lines in front of it. -/
def listed (first : Entry) (later : List (Nat × Entry)) : Text :=
  spaced '\n' first.line (later.map fun (count, entry) => (count, entry.line))

/-- The element for an item, as a paragraph if it is loose. -/
def Entry.element (entry : Entry) (loose : Bool) : Text :=
  let text := Inline.convert .empty entry.text
  "<li>".toList ++ (if loose then "<p>".toList ++ text ++ "</p>".toList else text) ++ "</li>\n".toList

theorem Entry.element_tight (entry : Entry) : entry.element false =
    "<li>".toList ++ Inline.convert .empty entry.text ++ "</li>\n".toList := by
  change "<li>".toList ++ (if false then _ else _) ++ _ = _
  rw [if_neg Bool.false_ne_true]

theorem Entry.element_loose (entry : Entry) : entry.element true = "<li>".toList ++
    ("<p>".toList ++ Inline.convert .empty entry.text ++ "</p>".toList) ++ "</li>\n".toList := by
  change "<li>".toList ++ (if true then _ else _) ++ _ = _
  rw [if_pos rfl]

variable {first : Entry} {later : List (Nat × Entry)}

theorem map_spaced {α β : Type} (change : α → β) (newline : α) (first : List α)
    (later : List (Nat × List α)) :
    (spaced newline first later).map change =
      spaced (change newline) (first.map change)
        (later.map fun (count, part) => (count, part.map change)) := by
  simp [spaced, List.flatMap_map, List.map_flatMap]

theorem not_mem_spaced {α : Type} {item newline : α} {first : List α} {later : List (Nat × List α)}
    (other : item ≠ newline) (here : item ∉ first) (others : ∀ entry ∈ later, item ∉ entry.2) :
    item ∉ spaced newline first later := by
  intro member
  rcases List.mem_append.1 member with inFirst | inLater
  · exact here inFirst
  · obtain ⟨entry, inside, part⟩ := List.mem_flatMap.1 inLater
    rcases List.mem_append.1 part with gap | line
    · exact other (List.eq_of_mem_replicate gap)
    · exact others entry inside line

theorem map_glyphOf_line (entry : Entry) : entry.line.map Sheet.glyphOf = entry.raw.sheet := by
  have plain : ∀ c ∈ entry.marker, Sheet.glyphOf c = .char c := by
    refine fun c member => Sheet.glyphOf_of_not_isPrivate ?_
    rcases entry.isMarker.kinds c member with head | rfl
    · exact isPrivate_of_isHead head
    · decide
  rw [Entry.line, List.map_append, List.map_congr_left plain]
  rfl

theorem carriage_not_mem_line (entry : Entry) : '\r' ∉ entry.line := by
  intro member
  rcases List.mem_append.1 member with inMarker | inText
  · exact entry.isMarker.not_mem (by decide) (by decide) inMarker
  · exact (List.mem_cons.1 inText).elim (by decide) entry.carriage

theorem ofDocument_listed (first : Entry) (later : List (Nat × Entry)) :
    Sheet.ofDocument (listed first later) =
      onLines first.raw (later.map fun (count, entry) => (count, entry.raw)) := by
  have carriage : '\r' ∉ listed first later :=
    not_mem_spaced (by decide) (carriage_not_mem_line first)
      (List.forall_mem_map.2 fun entry _ => carriage_not_mem_line entry.2)
  have newline : Sheet.glyphOf '\n' = .char '\n' := Sheet.glyphOf_of_not_isPrivate (by decide)
  rw [Sheet.ofDocument_eq_map carriage, listed, map_spaced, newline, map_glyphOf_line, onLines,
    List.map_map, List.map_map]
  simp only [Function.comp_def, map_glyphOf_line]

theorem encodeEscapes_line (entry : Entry) :
    Sheet.encodeEscapes entry.raw.sheet = entry.hidden.sheet := by
  rw [Line.sheet, Sheet.encodeEscapes_chars, Sheet.encodeEscapes_cons (by decide)]
  · rfl
  · exact entry.isMarker.not_mem (by decide) (by decide)

theorem encodeEscapes_listed (first : Entry) (later : List (Nat × Entry)) :
    Sheet.encodeEscapes (Sheet.ofDocument (listed first later)) = sheetOf first later := by
  rw [ofDocument_listed, sheetOf]
  induction later generalizing first with
  | nil => rw [List.map_nil, List.map_nil, onLines_nil, onLines_nil, encodeEscapes_line]
  | cons entry later ih =>
    rw [List.map_cons, List.map_cons, onLines_cons, onLines_cons, List.replicate_succ,
      List.cons_append, Sheet.encodeEscapes_newline, Sheet.encodeEscapes_replicate, encodeEscapes_line,
      ih, List.cons_append]

theorem prepare_listed (first : Entry) (later : List (Nat × Entry)) :
    prepare (listed first later) =
      ⟨Codec.standard.encodeEscapes (Codec.standard.normalize (listed first later)), .empty, .empty,
        []⟩ := by
  have heads : ∀ d, isHead d = false → ∀ c, isHead c = true → (c == d) = false :=
    fun d other c head => beq_false_of_ne (ne_of_isHead head d other)
  refine prepare_of_absent ?_ ?_ <;> rw [ofDocument_listed]
  · exact (avoids_shallow rfl (heads '<' (by decide)) _ _).absent Html.leads_htmlBlock
  · exact (avoids_shallow rfl (heads '[' (by decide)) _ _).absent Definition.leads_definitionLine

/-- The pass for lists puts a sheet that is a list as a whole aside as a whole. -/
theorem render_eq_setAside (setting : Setting) (interior : Interior) {text : Text}
    (prints : Renaming.same.Prints [] (sheetOf first later) text) {f : Find Seal Part}
    (found : topList.pieces Seal.lead (sheetOf first later) = [.found f]) :
    render setting interior false text = (do
      let element ← listElement setting interior (f.read Renaming.same.face)
      .setAside element) := by
  rw [render, if_neg Bool.false_ne_true, ← prints.spelled,
    replaceM_spell (regular_topList Renaming.same.quiet)]
  change Piece.replacedM Renaming.same.face _ (topList.pieces Seal.lead (sheetOf first later)) = _
  rw [found, Piece.replacedM]
  simp [Piece.replacedM]

/-- The output is the element of the list. -/
theorem map_render {limit : Limit} (room : limit.Holds 2) {text : Text}
    (prints : Renaming.same.Prints [] (sheetOf first later) text) :
    ((Block.render ⟨.empty, limit⟩ false text).run .start).1.map Codec.standard.decodeMarkers =
      .ok (spell Renaming.same.bare (Sheet.finish (listSheet first later))) := by
  have entered : Progress.start.level.enter limit = .ok ⟨1, 1⟩ := Level.enter_outermost (room.mono (by decide)).1
  have quiet := Renaming.same.quiet
  have none : Renaming.same.PrintsTable [] [] .empty := .nil
  have heads : ∀ c, isHead c = true → (c == '#') = false :=
    fun c head => beq_false_of_ne (ne_of_isHead head '#' (by decide))
  obtain ⟨f, found, list, marker⟩ := pieces_topList first.hidden
    (later.map fun (count, entry) => (count, entry.hidden))
  obtain ⟨deeper, further, level⟩ := Block.exists_render room .empty false text
  obtain ⟨left, rfl⟩ := Nat.exists_eq_add_of_le' further
  obtain ⟨element, after, done, -, shown⟩ :=
    yields_listElement room.1 left prints list marker ⟨1, 1⟩ rfl
  change (listElement _ (Block.interior _ (left + 1)) _).run _ = _ at done
  rw [level, Render.run_nested entered, Block.renderLevel, Heading.render,
    prints.replaceM_of_absent (Heading.regular_underlined quiet) rfl
      ((avoids_drawn Heading.isMark_of_isUnderline 0 _ _).absent Heading.drawn_underlined),
    pure_bind,
    prints.replaceM_of_absent (Heading.regular_marked quiet) rfl
      ((avoids_shallow rfl heads _ _).absent Heading.leads_marked),
    pure_bind, Heading.renderRules,
    prints.replaceM_of_absent (Heading.regular_rule quiet) rfl
      ((avoids_drawn Heading.isMark_of_isRule 2 _ _).absent Heading.drawn_rule),
    pure_bind, render_eq_setAside _ _ prints found, bind_assoc, run_bind]
  dsimp only [Progress.start]
  rw [done]
  dsimp only
  rw [run_bind, Render.run_setAside]
  exact shown.map_codeBlocks_keyBlock none _ after

/-- An element shows what the inline rules make of the text of its item. -/
theorem spell_finish_elementSheet (entry : Entry) (loose : Bool) :
    spell Renaming.same.bare (Sheet.finish (entry.elementSheet loose)) = entry.element loose := by
  have none : Renaming.same.PrintsTable [] [] .empty := .nil
  have body : entry.hidden.body = Sheet.encodeEscapes (Sheet.ofDocument entry.text) := by
    rw [Sheet.ofDocument_eq_map entry.carriage]
    rfl
  have inner : spell Renaming.same.bare (Sheet.finish (entry.shown loose)) =
      if loose then "<p>".toList ++ Inline.convert .empty entry.text ++ "</p>".toList
      else Inline.convert .empty entry.text := by
    rw [Entry.shown, Sheet.finish_of_finished (Sheet.finished_finish _), body]
    cases loose with
    | true =>
      rw [if_pos rfl, if_pos rfl]
      exact spell_finish_element none entry.text
    | false =>
      rw [if_neg Bool.false_ne_true, if_neg Bool.false_ne_true]
      exact ((Renaming.prints_normalize entry.text).encodeEscapes.convert_eq none).symm
  rw [Entry.elementSheet, Sheet.finish_append, Sheet.finish_append, Sheet.finish_chars,
    Sheet.finish_chars, spell_append, spell_append, spell_chars, spell_chars, inner]
  rfl

theorem spell_finish_joined (gap : Bool) (first : Entry) (later : List (Nat × Entry)) :
    spell Renaming.same.bare (Sheet.finish (joined Entry.elementSheet gap first later)) =
      joined Entry.element gap first later := by
  induction later generalizing gap first with
  | nil => exact spell_finish_elementSheet first gap
  | cons entry later ih =>
    rw [joined, Sheet.finish_append, spell_append, spell_finish_elementSheet, ih, joined]

theorem spell_finish_listSheet (first : Entry) (later : List (Nat × Entry)) :
    spell Renaming.same.bare (Sheet.finish (listSheet first later)) =
      '<' :: tagOf first.marker ++ ">\n".toList ++ joined Entry.element false first later ++
        ("</".toList ++ tagOf first.marker ++ ['>']) := by
  rw [listSheet, Sheet.finish_append, Sheet.finish_append, Sheet.finish_chars, Sheet.finish_chars,
    spell_append, spell_append, spell_chars, spell_chars, spell_finish_joined]

/-- A list converts item by item: an item next to an empty line shows its text as a paragraph, any other
shows it as it is. The first marker decides on the kind of the list. -/
theorem convert_listed {limit : Limit} (room : limit.Holds 2) (first : Entry)
    (later : List (Nat × Entry)) :
    (convert limit (listed first later)).html =
      .ok ('<' :: tagOf first.marker ++ ">\n".toList ++ joined Entry.element false first later ++
        ("</".toList ++ tagOf first.marker ++ ['>'])) := by
  have prints := (Renaming.prints_normalize (listed first later)).encodeEscapes
  rw [encodeEscapes_listed] at prints
  change ((prepare _).render limit).1.map _ = _
  rw [prepare_listed, ← spell_finish_listSheet]
  exact map_render room prints

/-- Two empty lines between the last two of three items. -/
theorem convert_listed_mixed :
    Limit.standard.Holds 2 ∧
      (convert .standard "* a *b*\n12. c\n\n\n+ d".toList).html =
        .ok ("<ul>\n".toList ++
          ("<li>".toList ++ Inline.convert .empty "a *b*".toList ++ "</li>\n".toList ++
            ("<li>".toList ++ ("<p>".toList ++ Inline.convert .empty "c".toList ++ "</p>".toList) ++
                "</li>\n".toList ++
              ("<li>".toList ++ ("<p>".toList ++ Inline.convert .empty "d".toList ++ "</p>".toList) ++
                "</li>\n".toList))) ++ "</ul>".toList) := by
  have room : Limit.standard.Holds 2 := by decide
  let first : Entry := ⟨"*".toList, "a *b*".toList, .bullet (.inl rfl), by decide, by decide, by decide⟩
  let second : Entry :=
    ⟨"12.".toList, "c".toList, @IsMarker.number "12".toList (by decide) (by decide), by decide,
      by decide, by decide⟩
  let third : Entry := ⟨"+".toList, "d".toList, .bullet (.inr (.inl rfl)), by decide, by decide, by decide⟩
  have document : "* a *b*\n12. c\n\n\n+ d".toList = listed first [(0, second), (2, third)] := by
    decide
  have front : '<' :: tagOf first.marker ++ ">\n".toList = "<ul>\n".toList := by decide
  have back : "</".toList ++ tagOf first.marker ++ ['>'] = "</ul>".toList := by decide
  have items : joined Entry.element false first [(0, second), (2, third)] =
      first.element false ++ (second.element true ++ third.element true) := rfl
  have texts : first.text = "a *b*".toList ∧ second.text = "c".toList ∧ third.text = "d".toList :=
    ⟨rfl, rfl, rfl⟩
  refine ⟨room, ?_⟩
  rw [document, convert_listed room first [(0, second), (2, third)], front, back, items,
    Entry.element_tight, Entry.element_loose, Entry.element_loose, texts.1, texts.2.1, texts.2.2]

end Markdown.Listing
