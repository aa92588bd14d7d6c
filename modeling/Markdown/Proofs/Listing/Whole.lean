import Markdown.Proofs.Listing.Item
import Markdown.Proofs.Sheet.Strokes

set_option autoImplicit false

namespace Markdown.Listing

open Pattern

/-- Items, each on one line; a later one comes with the number of empty lines in front of it. -/
def onLines (first : Line) (later : List (Nat × Line)) : Sheet :=
  Paragraph.spaced (.char '\n') first.sheet (later.map fun (count, line) => (count, line.sheet))

variable {behind rest : Sheet} {first : Line} {later : List (Nat × Line)}

theorem onLines_nil (first : Line) : onLines first [] = first.sheet := by
  simp [onLines, Paragraph.spaced]

theorem onLines_cons (first next : Line) (count : Nat) (later : List (Nat × Line)) :
    onLines first ((count, next) :: later) =
      first.sheet ++ (List.replicate (count + 1) (Glyph.char '\n') ++ onLines next later) :=
  Paragraph.spaced_cons ..

/-- The first item, and what stands behind it. -/
theorem exists_rest_of_onLines (first : Line) (later : List (Nat × Line)) :
    ∃ rest, onLines first later = first.sheet ++ rest ∧
      (rest = [] ∨ ∃ tail, rest = .char '\n' :: tail) := by
  cases later with
  | nil => exact ⟨[], by rw [onLines_nil, List.append_nil], .inl rfl⟩
  | cons entry later => exact ⟨_, onLines_cons .., .inr ⟨_, rfl⟩⟩

theorem onward_onLines (first : Line) (later : List (Nat × Line)) :
    Onward (onLines first later) := by
  obtain ⟨rest, same, _⟩ := exists_rest_of_onLines first later
  exact same ▸ first.onward rest

theorem Line.newline_not_mem (line : Line) : Glyph.char '\n' ∉ line.sheet := by
  rw [Line.sheet]
  intro member
  rcases List.mem_append.1 member with inMarker | inText
  · obtain ⟨c, inside, same⟩ := Glyph.mem_chars.1 inMarker
    obtain rfl := Glyph.char.inj same
    exact line.isMarker.not_mem (by decide) (by decide) inside
  · rcases List.mem_cons.1 inText with space | inBody
    · exact absurd (Glyph.char.inj space) (by decide)
    · exact line.newline inBody

/-- Behind one of the newlines in front of a sheet stand the others. -/
theorem cases_of_replicate {count : Nat} {onward early late : Sheet}
    (whole : List.replicate count (Glyph.char '\n') ++ onward = early ++ Glyph.char '\n' :: late) :
    (∃ fewer, late = List.replicate fewer (Glyph.char '\n') ++ onward) ∨
      ∃ front, onward = front ++ Glyph.char '\n' :: late := by
  induction count generalizing early with
  | zero => exact .inr ⟨early, whole⟩
  | succ count ih =>
    rw [List.replicate_succ, List.cons_append] at whole
    cases early with
    | nil => exact .inl ⟨count, (List.cons.inj whole).2.symm⟩
    | cons g early => exact ih (List.cons.inj whole).2

/-- Behind a newline stand further newlines and then an item. -/
theorem exists_line_of_newline {early late : Sheet}
    (whole : onLines first later = early ++ Glyph.char '\n' :: late) :
    ∃ count, ∃ line : Line, ∃ rest, late = List.replicate count (Glyph.char '\n') ++ (line.sheet ++ rest) ∧
      (rest = [] ∨ ∃ tail, rest = .char '\n' :: tail) := by
  induction later generalizing first early with
  | nil =>
    rw [onLines_nil] at whole
    exact absurd (whole ▸ by simp) first.newline_not_mem
  | cons entry later ih =>
    obtain ⟨count, next⟩ := entry
    rw [onLines_cons] at whole
    have behind : ∃ front, List.replicate (count + 1) (Glyph.char '\n') ++ onLines next later =
        front ++ Glyph.char '\n' :: late := by
      rcases List.append_eq_append_iff.1 whole with ⟨front, rfl, after⟩ | ⟨back, inside, after⟩
      · exact ⟨front, after⟩
      · cases back with
        | nil => exact ⟨[], after.symm⟩
        | cons g back =>
          obtain ⟨rfl, -⟩ := List.cons.inj after
          exact absurd (inside ▸ by simp) first.newline_not_mem
    obtain ⟨front, after⟩ := behind
    rcases cases_of_replicate after with ⟨fewer, rfl⟩ | ⟨front, onward⟩
    · obtain ⟨rest, same, ends⟩ := exists_rest_of_onLines next later
      exact ⟨fewer, next, rest, by rw [same], ends⟩
    · exact ih onward

/-- At the start of a line stand newlines and then an item. -/
theorem exists_line_of_startsLine {early late : Sheet} (whole : onLines first later = early ++ late)
    (starts : Sheet.StartsLine early.reverse) :
    ∃ count, ∃ line : Line, ∃ rest, late = List.replicate count (Glyph.char '\n') ++ (line.sheet ++ rest) ∧
      (rest = [] ∨ ∃ tail, rest = .char '\n' :: tail) := by
  rcases List.eq_nil_or_concat early with rfl | ⟨front, g, rfl⟩
  · obtain ⟨rest, same, ends⟩ := exists_rest_of_onLines first later
    exact ⟨0, first, rest, whole.symm.trans same, ends⟩
  · obtain rfl : g = .char '\n' := starts g (by simp)
    exact @exists_line_of_newline first later front late (by rw [whole]; simp)

theorem avoids_shallow {marks : Char → Bool} (newline : marks '\n' = false)
    (heads : ∀ c, isHead c = true → marks c = false) (first : Line) (later : List (Nat × Line)) :
    (onLines first later).Avoids (Sheet.Shallow marks) := by
  intro early late whole starts shallow
  obtain ⟨d, more, begun, mark⟩ := shallow.marked.begins
  obtain ⟨count, line, rest, rfl, _⟩ := exists_line_of_startsLine whole starts
  have here : d = '\n' ∨ isHead d = true := by
    cases count with
    | zero =>
      obtain ⟨c, others, same, head⟩ := line.exists_head rest
      rw [List.replicate_zero, List.nil_append, same] at begun
      exact .inr (Glyph.char.inj (List.cons.inj begun).1 ▸ head)
    | succ count => exact .inl (Glyph.char.inj (List.cons.inj begun).1).symm
  rcases here with rfl | head
  · simp [newline, Text.isBlank] at mark
  · simp [isBlank_of_isHead head, heads d head] at mark

/-- A letter is on each line that is not empty. -/
theorem avoids_drawn {marks : Char → Bool} (within : ∀ {c}, marks c = true → isMark c = true)
    (count : Nat) (first : Line) (later : List (Nat × Line)) :
    (onLines first later).Avoids (Sheet.Drawn marks (count + 1)) := by
  have other : ∀ c, isMark c = false → marks c = false :=
    fun c plain => Bool.eq_false_iff.2 fun mark => by rw [within mark] at plain; cases plain
  rintro early late whole starts ⟨drawn, after, ahead, strokes, ends⟩
  obtain ⟨empty, line, rest, rfl, _⟩ := exists_line_of_startsLine whole starts
  cases empty with
  | zero =>
    obtain ⟨c, more, begun, letter⟩ := line.letter
    have inside : line.sheet <+: drawn :=
      Sheet.prefix_of_line line.newline_not_mem ends ⟨rest, ahead⟩
    obtain ⟨d, same, stroke⟩ := strokes.each (.char c) (inside.mem (by simp [Line.sheet, begun]))
    obtain rfl := Glyph.char.inj same
    obtain ⟨plain, blank, -⟩ := Paragraph.plain_of_isAlpha letter
    simp [other c (Bool.or_eq_false_iff.1 plain).1, blank] at stroke
  | succ empty =>
    cases drawn with
    | nil => exact absurd strokes.enough (by simp)
    | cons g tail =>
      obtain ⟨c, rfl, stroke⟩ := strokes.each g List.mem_cons_self
      obtain rfl := Glyph.char.inj (List.cons.inj ahead).1
      simp [other '\n' (by decide), Text.isBlank] at stroke

section

variable {captures : List (Empty × Sheet)}

theorem spots_newlines_of_ne {g : Glyph Seal} (other : g ≠ .char '\n') :
    newlines.spots Seal.lead ⟨behind, g :: rest, captures⟩ = [] :=
  spots_seq_eq_nil _ (spots_newline_of_ne other)

/-- One newline is not enough. -/
theorem spots_newlines_of_onward (onward : Onward rest) :
    newlines.spots Seal.lead ⟨behind, .char '\n' :: rest, captures⟩ = [] := by
  have alone : (Pattern.many1 Text.isNewline : Pattern Empty).spots Seal.lead
      ⟨.char '\n' :: behind, rest, captures⟩ = [] := by
    refine spots_seq_eq_nil _ ?_
    cases rest with
    | nil => rfl
    | cons g rest => exact spots_one_of_not (onward.head g rfl)
  have newline : (Glyph.char '\n' : Glyph Seal).fits Seal.lead (· == '\n') = true := rfl
  rw [newlines, spots, Pattern.char, spots_one_of_fits newline, List.flatMap_singleton, alone]

/-- From two newlines on all are found. -/
theorem goes_newlines (onward : Onward rest) (count : Nat) :
    newlines.Goes ⟨behind, List.replicate (count + 2) (Glyph.char '\n') ++ rest, captures⟩
      ⟨List.replicate (count + 2) (Glyph.char '\n') ++ behind, rest, captures⟩ := by
  have each : ∀ g ∈ List.replicate count (Glyph.char '\n' : Glyph Seal),
      g.fits Seal.lead Text.isNewline = true := by
    intro g member
    rw [List.eq_of_mem_replicate member]
    rfl
  have goes := (@goes_char Empty _ behind _ captures '\n').seq
    (@goes_many1 Empty _ (.char '\n' :: behind) _ rest captures _ (.char '\n') rfl each onward.head)
  have after : List.replicate (count + 2) (Glyph.char '\n') ++ behind =
      List.replicate count (Glyph.char '\n') ++ Glyph.char '\n' :: .char '\n' :: behind := by
    simp [List.replicate_succ']
  rw [List.reverse_replicate, ← after] at goes
  exact goes

end

/-- Two empty lines for any number of them. -/
def evened (count : Nat) : Nat :=
  if count = 0 then 0 else 2

theorem recast_newlines (first : Line) (later : List (Nat × Line)) (behind : Sheet)
    (captures : List (Empty × Sheet)) :
    (newlines.piecesAhead Seal.lead ⟨behind, onLines first later, captures⟩).flatMap
        (Piece.recast fun _ => Glyph.chars "\n\n\n".toList) =
      onLines first (later.map fun (count, line) => (evened count, line)) := by
  have plain : ∀ {behind rest : Sheet} {captures : List (Empty × Sheet)} (line : Line),
      (newlines.piecesAhead Seal.lead ⟨behind, line.sheet ++ rest, captures⟩).flatMap
          (Piece.recast fun _ => Glyph.chars "\n\n\n".toList) =
        line.sheet ++ (newlines.piecesAhead Seal.lead
          ⟨line.sheet.reverse ++ behind, rest, captures⟩).flatMap
            (Piece.recast fun _ => Glyph.chars "\n\n\n".toList) := by
    intro behind rest captures line
    rw [piecesAhead_append, List.flatMap_append, List.flatMap_map]
    · congr 1
      exact List.flatMap_singleton' _
    · intro early g late whole
      refine spots_newlines_of_ne ?_
      rintro rfl
      exact line.newline_not_mem (whole ▸ by simp)
  induction later generalizing first behind captures with
  | nil =>
    rw [List.map_nil, onLines_nil, ← List.append_nil first.sheet, plain, piecesAhead_nil]
    rfl
  | cons entry later ih =>
    obtain ⟨count, next⟩ := entry
    have onward := onward_onLines next later
    rw [onLines_cons, plain, List.map_cons, onLines_cons]
    cases count with
    | zero =>
      rw [List.replicate_one, List.singleton_append, piecesAhead_plain
        (spots_newlines_of_onward onward), List.flatMap_cons, ih]
      rfl
    | succ count =>
      rw [piecesAhead_found advances_newlines (goes_newlines onward count), List.flatMap_cons, ih]
      rfl

/-- Nothing is found at the end of a list that ends with an item. -/
theorem absent_finalNewlines (first : Line) (later : List (Nat × Line)) :
    finalNewlines.Absent Seal.lead (onLines first later) := by
  intro f finds
  obtain ⟨middle, taken, ended⟩ := List.mem_flatMap.1 finds.mem
  obtain ⟨-, here⟩ := holds_of_mem_place ended
  have newline : newlines.Only Seal.lead (Glyph.Of Text.isNewline) :=
    .seq (of_char rfl rfl) (.many1 (of_fits (by decide) fun _ => id))
  obtain ⟨passed, passes, kinds⟩ := newline _ _ taken
  have whole := finds.whole
  have shorter := advances_newlines _ _ taken
  rw [passes.ahead, ahead_eq_nil here, List.append_nil] at whole shorter
  obtain ⟨front, g, rfl⟩ := (List.eq_nil_or_concat passed).resolve_left (by rintro rfl; simp at shorter)
  obtain ⟨c, rfl, isNewline⟩ := kinds g (by simp)
  rw [show c = '\n' by simpa [Text.isNewline] using isNewline] at whole
  obtain ⟨count, line, rest, impossible, _⟩ := @exists_line_of_newline first later
    (f.start.behind.reverse ++ front) [] (by rw [← whole]; simp)
  simp [Line.sheet] at impossible

/-- Empty lines between items come to two. -/
theorem evenlySpaced_onLines (first : Line) (later : List (Nat × Line)) :
    Sheet.evenlySpaced (onLines first later) =
      onLines first (later.map fun (count, line) => (evened count, line)) := by
  have spread : newlines.recast (fun _ => Glyph.chars "\n\n\n".toList) (onLines first later) =
      onLines first (later.map fun (count, line) => (evened count, line)) :=
    recast_newlines first later [] []
  rw [Sheet.evenlySpaced, spread, recast_eq_self (absent_finalNewlines first _)]

section

variable {captures : List (Part × Sheet)}

theorem not_mem_ahead_false {body : Pattern Part} {spot later : Spot Seal Part}
    (some : body.spots Seal.lead spot ≠ []) :
    later ∉ (Pattern.ahead false body).spots Seal.lead spot := by
  rw [spots, List.head?_eq_some_head some]
  exact List.not_mem_nil

/-- Behind empty lines there is an item. -/
theorem not_mem_otherText {early late : Sheet} (whole : onLines first later = early ++ late)
    (spot : Spot Seal Part) : spot ∉ otherText.spots Seal.lead ⟨early.reverse, late, captures⟩ := by
  intro member
  obtain ⟨begun, two, member⟩ := List.mem_flatMap.1 member
  obtain ⟨middle, more, member⟩ := List.mem_flatMap.1 member
  obtain ⟨here, before, refused⟩ := List.mem_flatMap.1 member
  obtain ⟨rfl, shown⟩ := holds_of_mem_place before
  have newline : (Pattern.char '\n' : Pattern Part).Only Seal.lead (Glyph.Of Text.isNewline) :=
    of_char rfl rfl
  obtain ⟨gap, onward, kinds⟩ := Only.seq (.seq newline newline)
    (.many (of_fits (by decide) fun _ => id)) _ _ (mem_spots_seq two more)
  have advances : (Pattern.seq (.literal "\n\n".toList) (.many Text.isNewline) :
      Pattern Part).Advances Seal.lead := .seq_left (.seq_left (.one _) _) _
  have shorter := advances _ _ (mem_spots_seq two more)
  have ahead : late = gap ++ here.ahead := onward.ahead
  obtain ⟨front, g, rfl⟩ := (List.eq_nil_or_concat gap).resolve_left (by
    rintro rfl
    simp [ahead] at shorter)
  obtain ⟨c, rfl, isNewline⟩ := kinds g (by simp)
  rw [show c = '\n' by simpa [Text.isNewline] using isNewline] at ahead
  obtain ⟨count, line, rest, same, _⟩ := @exists_line_of_newline first later (early ++ front)
    here.ahead (by rw [whole, ahead]; simp)
  obtain ⟨behind, after, kept⟩ := here
  -- What stands here is no space, so that no newline is left in front of the item.
  obtain rfl : count = 0 := by
    by_contra more
    obtain ⟨fewer, rfl⟩ := Nat.exists_eq_succ_of_ne_zero more
    dsimp only at same
    subst same
    have space : Pattern.notSpace '\n' = true := shown
    exact absurd space (by decide)
  dsimp only at same
  subst same
  refine not_mem_ahead_false ?_ refused
  obtain ⟨last, gap⟩ := List.exists_mem_of_ne_nil _
    (@spots_markerGap_ne_nil _ behind (line.body ++ rest) kept line.isMarker (.char ' ') rfl)
  have here : (⟨behind, Glyph.chars line.marker ++ Glyph.char ' ' :: (line.body ++ rest), kept⟩ :
      Spot Seal Part) = ⟨behind, List.replicate 0 (Glyph.char '\n') ++ (line.sheet ++ rest), kept⟩ := by
    simp [Line.sheet]
  exact List.ne_nil_of_mem (mem_spots_seq (self_mem_many _ _) (here ▸ gap))

/-- A list that ends with an item ends at the end of the sheet. -/
theorem ended_of_mem_listEnd {early late : Sheet} (whole : onLines first later = early ++ late)
    {spot : Spot Seal Part} (member : spot ∈ listEnd.spots Seal.lead ⟨early.reverse, late, captures⟩) :
    spot.ahead = [] := by
  rcases List.mem_append.1 member with ended | other
  · obtain ⟨middle, _, ended⟩ := List.mem_flatMap.1 ended
    obtain ⟨rfl, here⟩ := holds_of_mem_place ended
    exact ahead_eq_nil here
  · exact absurd other (not_mem_otherText whole spot)

/-- From any place in front of the end a list may go on to the end. -/
theorem spots_toEnd_ne_nil (g : Glyph Seal) (rest : Sheet) :
    (Pattern.seq (.few1 Pattern.anything) listEnd : Pattern Part).spots Seal.lead
      ⟨behind, g :: rest, captures⟩ ≠ [] := by
  have every : ∀ g : Glyph Seal, g.fits Seal.lead Pattern.anything = true :=
    fun g => by cases g <;> rfl
  obtain ⟨⟨passed, ahead, kept⟩, run, ends⟩ := exists_mem_many Pattern.anything
    (⟨g :: behind, rest, captures⟩ : Spot Seal Part)
  obtain rfl : ahead = [] := by
    refine ends.resolve_right ?_
    rintro ⟨h, _, _, refused⟩
    rw [every h] at refused
    cases refused
  have first : ⟨g :: behind, rest, captures⟩ ∈
      (Pattern.one Pattern.anything : Pattern Part).spots Seal.lead ⟨behind, g :: rest, captures⟩ := by
    rw [spots_one_of_fits (every g)]
    exact List.mem_cons_self
  have few : ⟨passed, [], kept⟩ ∈ (Pattern.few Pattern.anything : Pattern Part).spots Seal.lead
      ⟨g :: behind, rest, captures⟩ := List.mem_reverse.1 run
  have ended : (⟨passed, [], kept⟩ : Spot Seal Part) ∈ listEnd.spots Seal.lead ⟨passed, [], kept⟩ :=
    List.mem_cons_self
  exact List.ne_nil_of_mem (mem_spots_seq (mem_spots_seq first few) ended)

/-- A list of items goes on to the end of the sheet. -/
theorem goes_toEnd {early late : Sheet} (whole : onLines first later = early ++ late)
    (filled : late ≠ []) :
    ∃ last, (Pattern.seq (.few1 Pattern.anything) listEnd : Pattern Part).Goes
        ⟨early.reverse, late, captures⟩ last ∧
      last.ahead = [] ∧ last.captures = captures := by
  obtain ⟨g, rest, rfl⟩ := List.exists_cons_of_ne_nil filled
  obtain ⟨last, goes⟩ := exists_goes
    (@spots_toEnd_ne_nil early.reverse captures g rest)
  refine ⟨last, goes, ?_, ?_⟩
  · obtain ⟨middle, passed, ended⟩ := List.mem_flatMap.1 goes.mem
    obtain ⟨taken, passes⟩ := exists_passes_of_mem_spots passed
    have here : middle = ⟨(early ++ taken).reverse, middle.ahead, middle.captures⟩ := by
      rw [List.reverse_append, ← passes.behind]
    rw [here] at ended
    have ahead : g :: rest = taken ++ middle.ahead := passes.ahead
    exact ended_of_mem_listEnd (by rw [whole, ahead, List.append_assoc]) ended
  · have silent : (Pattern.seq (.few1 Pattern.anything) listEnd : Pattern Part).Captures Seal.lead
        fun _ _ => False :=
      ⟨⟨trivial, trivial⟩, ⟨trivial, trivial⟩, captures_literal _ _, trivial, trivial, trivial⟩
    obtain ⟨new, same, none⟩ := silent.exists_new goes.mem
    cases new with
    | nil => exact same
    | cons capture new => exact (none capture List.mem_cons_self).elim

/-- The way from the first marker to the end of the list. -/
theorem goes_listBody (first : Line) (later : List (Nat × Line)) :
    ∃ last, listBody.Goes (.first (onLines first later)) last ∧ last.ahead = [] ∧
      last.captures =
        [(.list, onLines first later), (.marker, Glyph.chars first.marker)] := by
  obtain ⟨rest, same, _⟩ := exists_rest_of_onLines first later
  have whole : onLines first later =
      Glyph.chars first.marker ++ Glyph.char ' ' :: (first.body ++ rest) := by simp [same, Line.sheet]
  obtain ⟨last, goes, ended, kept⟩ := @goes_toEnd first later [(.marker, Glyph.chars first.marker)]
    (Glyph.chars first.marker ++ [Glyph.char ' ']) (first.body ++ rest) (by simp [whole])
    (by simp [first.body_ne_nil])
  have outside : ∀ g ∈ (onLines first later).head?, g.fits Seal.lead Text.isBlank = false :=
    same ▸ first.head?_ne rest
  have marked := (@goes_marker _ [] (.char ' ' :: (first.body ++ rest)) [] first.isMarker).capture
    Part.marker ⟨rfl, rfl⟩
  have blank : (Glyph.char ' ' : Glyph Seal).fits Seal.lead Text.isBlank = true := rfl
  have gap := @goes_many1 Part _ ((Glyph.chars first.marker).reverse ++ []) [] (first.body ++ rest)
    [(.marker, Glyph.chars first.marker)] _ _ blank (by simp) (first.head?_body rest)
  rw [List.reverse_append] at goes
  rw [List.append_nil] at marked gap
  have inner := (@goes_spaces _ _ [] _ [] outside).seq (whole ▸ marked.seq (gap.seq goes))
  obtain ⟨passed, passes⟩ := exists_passes_of_mem_spots inner.mem
  obtain rfl : onLines first later = passed := by
    rw [← List.append_nil passed, ← ended]
    exact passes.ahead
  refine ⟨_, inner.capture Part.list passes, ended, ?_⟩
  rw [kept]

/-- A list of items on lines of their own is found as a whole. -/
theorem pieces_topList (first : Line) (later : List (Nat × Line)) :
    ∃ f, topList.pieces Seal.lead (onLines first later) = [.found f] ∧
      f.get .list = onLines first later ∧ f.get .marker = Glyph.chars first.marker := by
  have start : (Pattern.choice [.place afterBlankLine, .seq .textStart (.optional (.char '\n'))] :
      Pattern Part).Goes (.first (onLines first later)) (.first (onLines first later)) :=
    .right rfl (Goes.seq rfl (goes_optional (onward_onLines first later).spots_newline))
  obtain ⟨last, goes, ended, kept⟩ := goes_listBody first later
  have found := pieces_of_ended (Pattern.Advances.seq_right _ advances_listBody) (start.seq goes) ended
  refine ⟨_, found, ?_, ?_⟩ <;> simp [Find.get, Find.get?, Spot.get?, kept]

end

end Markdown.Listing
