import Markdown.Proofs.Listing.Marker
import Markdown.Proofs.Paragraph.Independence

set_option autoImplicit false

namespace Markdown.Listing

open Pattern

variable {m : Text} {behind rest : Sheet} {captures : List (Part × Sheet)}

/-- The end of a list, or an item without indentation. -/
inductive Onward : Sheet → Prop
  | ended : Onward []
  | item {m : Text} (isMarker : IsMarker m) (tail : Sheet) :
    Onward (Glyph.chars m ++ Glyph.char ' ' :: tail)

theorem Onward.head (onward : Onward rest) :
    ∀ g ∈ rest.head?, g.fits Seal.lead Text.isNewline = false := by
  cases onward with
  | ended => simp
  | @item m isMarker tail =>
    obtain ⟨c, more, rfl, head⟩ := isMarker.exists_head
    simp only [Glyph.chars_cons, List.cons_append, List.head?_cons, Option.mem_def,
      Option.some.injEq, forall_eq']
    exact beq_false_of_ne (ne_of_isHead head '\n' (by decide))

theorem spots_nextItem_ne_nil (onward : Onward rest) (count : Nat)
    (indent : (⟨behind, rest, captures⟩ : Spot Seal Part).get? .indent = some []) :
    nextItem.spots Seal.lead ⟨behind, List.replicate count (Glyph.char '\n') ++ rest, captures⟩ ≠ [] := by
  generalize after : (List.replicate count (Glyph.char '\n')).reverse ++ behind = passed
  have run : (Pattern.many Text.isNewline : Pattern Part).Goes
      ⟨behind, List.replicate count (Glyph.char '\n') ++ rest, captures⟩ ⟨passed, rest, captures⟩ :=
    after ▸ goes_many (fun g member => by rw [List.eq_of_mem_replicate member]; rfl) onward.head
  cases onward with
  | ended =>
    exact List.ne_nil_of_mem (mem_spots_seq run.mem (List.mem_append_left _ List.mem_cons_self))
  | @item m isMarker tail =>
    obtain ⟨later, gap⟩ := List.exists_mem_of_ne_nil _
      (@spots_markerGap_ne_nil m passed tail captures isMarker (.char ' ') rfl)
    refine List.ne_nil_of_mem (mem_spots_seq run.mem (List.mem_append_right _
      (mem_spots_seq ?_ gap)))
    have here : (⟨passed, Glyph.chars m ++ Glyph.char ' ' :: tail, captures⟩ : Spot Seal Part).get?
        .indent = some [] := indent
    rw [spots, here]
    exact List.mem_cons_self

def lineBreaks : Pattern Part :=
  .choice [.seq (.char '\n') (.optional (.char '\n')), .seq (.optional (.char '\n')) .textEnd]

theorem spots_lineBreaks_of_ne {g : Glyph Seal} (other : g ≠ .char '\n') :
    lineBreaks.spots Seal.lead ⟨behind, g :: rest, captures⟩ = [] := by
  have ended : (Pattern.seq (.optional (.char '\n')) .textEnd : Pattern Part).spots Seal.lead
      ⟨behind, g :: rest, captures⟩ = [] := by
    rw [spots, Pattern.optional, spots, spots_newline_of_ne other]
    exact (List.flatMap_singleton ..).trans spots_textEnd_of_cons
  exact List.append_eq_nil_iff.2 ⟨spots_seq_eq_nil _ (spots_newline_of_ne other), ended⟩

theorem Onward.spots_newline (onward : Onward rest) :
    (Pattern.char '\n' : Pattern Part).spots Seal.lead ⟨behind, rest, captures⟩ = [] := by
  cases rest with
  | nil => rfl
  | cons g rest =>
    refine spots_newline_of_ne ?_
    rintro rfl
    exact absurd (onward.head _ rfl) (by decide)

/-- At most two newlines are taken. -/
theorem goes_lineBreaks (onward : Onward rest) {count : Nat} (some : rest ≠ [] → count ≠ 0) :
    lineBreaks.Goes ⟨behind, List.replicate count (Glyph.char '\n') ++ rest, captures⟩
      ⟨List.replicate (min count 2) (Glyph.char '\n') ++ behind,
        List.replicate (count - 2) (Glyph.char '\n') ++ rest, captures⟩ := by
  match count with
  | 0 =>
    obtain rfl : rest = [] := by
      by_contra more
      exact some more rfl
    rfl
  | 1 => exact .left ((goes_char '\n').seq (goes_optional onward.spots_newline)) _
  | count + 2 =>
    refine .left ((goes_char '\n').seq (.left ?_ _)) _
    rw [Nat.min_eq_right (Nat.le_add_left 2 count), Nat.add_sub_cancel]
    exact goes_char '\n'

/-- The text of an item ends behind its line, when the work behind the text goes on from there. -/
theorem head?_flatMap_itemText {β : Type} {next : Spot Seal Part → List β} {result : β}
    {body : Sheet} (filled : body ≠ []) (line : Glyph.char '\n' ∉ body) (onward : Onward rest) {count : Nat}
    (some : rest ≠ [] → count ≠ 0)
    (here : (next ⟨List.replicate (min count 2) (Glyph.char '\n') ++ (body.reverse ++ behind),
      List.replicate (count - 2) (Glyph.char '\n') ++ rest, captures⟩).head? = Option.some result) :
    ((itemText.spots Seal.lead
      ⟨behind, body ++ (List.replicate count (Glyph.char '\n') ++ rest), captures⟩).flatMap next).head? =
        Option.some result := by
  obtain ⟨g, tail, rfl⟩ := List.exists_cons_of_ne_nil filled
  have text : itemText = .seq (.seq (.one Pattern.anything) (.few Pattern.anything)) lineBreaks := rfl
  have first : (Pattern.one Pattern.anything : Pattern Part).spots Seal.lead
      ⟨behind, g :: tail ++ (List.replicate count (Glyph.char '\n') ++ rest), captures⟩ =
        [⟨g :: behind, tail ++ (List.replicate count (Glyph.char '\n') ++ rest), captures⟩] :=
    spots_one_of_fits (by cases g <;> rfl)
  rw [text, spots, spots, first, List.flatMap_singleton, List.flatMap_assoc]
  refine head?_flatMap_few (fun g _ => by cases g <;> rfl) (fun early h late inside => ?_) ?_
  · have other : h ≠ .char '\n' := by
      rintro rfl
      exact line (inside ▸ by simp)
    rw [spots_lineBreaks_of_ne other, List.flatMap_nil]
  · refine head?_flatMap_of_head? (goes_lineBreaks onward some) ?_
    simpa using here

/-- The content of an item on one line, with the newlines it takes. -/
theorem goes_content {body : Sheet} (filled : body ≠ []) (line : Glyph.char '\n' ∉ body)
    (onward : Onward rest) {count : Nat} (some : rest ≠ [] → count ≠ 0)
    (indent : (⟨behind, rest, captures⟩ : Spot Seal Part).get? .indent = Option.some []) :
    (Pattern.seq (.capture .content itemText) (.ahead true nextItem) : Pattern Part).Goes
      ⟨behind, body ++ (List.replicate count (Glyph.char '\n') ++ rest), captures⟩
      ⟨List.replicate (min count 2) (Glyph.char '\n') ++ (body.reverse ++ behind),
        List.replicate (count - 2) (Glyph.char '\n') ++ rest,
        (.content, body ++ List.replicate (min count 2) (Glyph.char '\n')) :: captures⟩ := by
  have passes : (⟨behind, body ++ (List.replicate count (Glyph.char '\n') ++ rest), captures⟩ :
      Spot Seal Part).Passes (body ++ List.replicate (min count 2) (Glyph.char '\n'))
        ⟨List.replicate (min count 2) (Glyph.char '\n') ++ (body.reverse ++ behind),
          List.replicate (count - 2) (Glyph.char '\n') ++ rest, captures⟩ := by
    constructor
    · simp
    · have split : count = min count 2 + (count - 2) := by omega
      simp only [List.append_assoc, List.append_cancel_left_eq]
      rw [← List.append_assoc, ← List.replicate_add, ← split]
  rw [Goes, spots, spots, List.flatMap_map]
  refine head?_flatMap_itemText filled line onward some ?_
  rw [passes.between_eq]
  refine goes_ahead (spots_nextItem_ne_nil onward (count - 2) ?_)
  simpa [Spot.get?] using indent

/-- An item on one line of a sheet: a marker, a blank and a text that begins with a letter. -/
structure Line where
  marker : Text
  body : Sheet
  isMarker : IsMarker marker
  letter : Sheet.Begins Char.isAlpha body
  newline : Glyph.char '\n' ∉ body

namespace Line

def sheet (line : Line) : Sheet :=
  Glyph.chars line.marker ++ Glyph.char ' ' :: line.body

variable (line : Line)

theorem onward (rest : Sheet) : Onward (line.sheet ++ rest) := by
  rw [sheet, List.append_assoc, List.cons_append]
  exact .item line.isMarker _

theorem exists_head (rest : Sheet) :
    ∃ c more, line.sheet ++ rest = .char c :: more ∧ isHead c = true := by
  obtain ⟨c, more, same, head⟩ := line.isMarker.exists_head
  exact ⟨c, _, by rw [sheet, same]; rfl, head⟩

theorem head?_ne (rest : Sheet) :
    ∀ g ∈ (line.sheet ++ rest).head?, g.fits Seal.lead Text.isBlank = false := by
  obtain ⟨c, more, same, head⟩ := line.exists_head rest
  rw [same]
  rintro g ⟨⟩
  exact isBlank_of_isHead head

theorem head?_body (rest : Sheet) :
    ∀ g ∈ (line.body ++ rest).head?, g.fits Seal.lead Text.isBlank = false := by
  obtain ⟨c, more, begun, letter⟩ := line.letter
  rw [begun]
  rintro g ⟨⟩
  exact (Paragraph.plain_of_isAlpha letter).2.1

theorem body_ne_nil : line.body ≠ [] := by
  obtain ⟨c, more, begun, -⟩ := line.letter
  simp [begun]

end Line

def gapOf : Bool → Sheet
  | true => [.char '\n']
  | false => []

/-- What an item keeps of that newline. -/
def gapCaptures : Bool → List (Part × Sheet)
  | true => [(.gap, [.char '\n'])]
  | false => []

theorem goes_gap (line : Line) (gap : Bool) :
    (Pattern.optional (.capture .gap (.char '\n')) : Pattern Part).Goes
      ⟨behind, gapOf gap ++ (line.sheet ++ rest), []⟩
      ⟨gapOf gap ++ behind, line.sheet ++ rest, gapCaptures gap⟩ := by
  cases gap with
  | true =>
    have newline : (⟨behind, .char '\n' :: (line.sheet ++ rest), []⟩ : Spot Seal Part).Passes
        [.char '\n'] ⟨.char '\n' :: behind, line.sheet ++ rest, []⟩ := ⟨rfl, rfl⟩
    exact ((goes_char '\n').capture Part.gap newline).left _
  | false =>
    refine goes_optional (List.map_eq_nil_iff.2 ?_)
    exact (line.onward rest).spots_newline

/-- The item has no indentation. -/
theorem goes_indent (line : Line) (starts : Sheet.StartsLine behind) :
    (Pattern.capture .indent (.seq .lineStart (.many Text.isBlank)) : Pattern Part).Goes
      ⟨behind, line.sheet ++ rest, captures⟩
      ⟨behind, line.sheet ++ rest, (.indent, []) :: captures⟩ :=
  ((goes_lineStart starts).seq (goes_many_nothing (line.head?_ne rest))).capture Part.indent
    (.nothing _)

theorem startsLine_gapOf {gap : Bool} (starts : gap = false → Sheet.StartsLine behind) :
    Sheet.StartsLine (gapOf gap ++ behind) := by
  cases gap with
  | true => simp [gapOf, Sheet.StartsLine]
  | false => exact starts rfl

/-- An item on one line is found with the newline in front of it and with the newlines it takes. -/
theorem goes_item (line : Line) {gap : Bool} (starts : gap = false → Sheet.StartsLine behind)
    (onward : Onward rest) {count : Nat} (some : rest ≠ [] → count ≠ 0) :
    item.Goes
      ⟨behind, gapOf gap ++ (line.sheet ++ (List.replicate count (Glyph.char '\n') ++ rest)), []⟩
      ⟨List.replicate (min count 2) (Glyph.char '\n') ++ (line.sheet.reverse ++ (gapOf gap ++ behind)),
        List.replicate (count - 2) (Glyph.char '\n') ++ rest,
        (.content, line.body ++ List.replicate (min count 2) (Glyph.char '\n')) :: (.indent, []) ::
          gapCaptures gap⟩ := by
  have marked := @goes_markerGap _ (gapOf gap ++ behind) _ ((.indent, []) :: gapCaptures gap)
    line.isMarker (.char ' ') [] rfl (by simp)
    (line.head?_body (List.replicate count (Glyph.char '\n') ++ rest))
  refine (goes_gap line gap).seq ((goes_indent line (startsLine_gapOf starts)).seq ?_)
  rw [Line.sheet, List.append_assoc, List.cons_append]
  refine marked.seq ?_
  have content := @goes_content
    (Glyph.char ' ' :: ((Glyph.chars line.marker).reverse ++ (gapOf gap ++ behind))) rest
    ((.indent, []) :: gapCaptures gap) line.body line.body_ne_nil line.newline onward count some rfl
  simpa [Pattern.sequence] using content

/-- The search for items finds an item on one line and goes on behind the newlines that it takes. -/
theorem Line.exists_find (line : Line) {gap : Bool} (starts : gap = false → Sheet.StartsLine behind)
    (onward : Onward rest) (count : Nat) (some : rest ≠ [] → count ≠ 0)
    (captures : List (Part × Sheet)) :
    ∃ f : Find Seal Part, ∃ kept, (f.get? .gap).isSome = gap ∧
      f.get .content = line.body ++ List.replicate (min count 2) (Glyph.char '\n') ∧
      item.piecesAhead Seal.lead
        ⟨behind, gapOf gap ++ (line.sheet ++ (List.replicate count (Glyph.char '\n') ++ rest)), captures⟩ =
          .found f :: item.piecesAhead Seal.lead
            ⟨List.replicate (min count 2) (Glyph.char '\n') ++
                (line.sheet.reverse ++ (gapOf gap ++ behind)),
              List.replicate (count - 2) (Glyph.char '\n') ++ rest, kept⟩ := by
  refine ⟨_, _, ?_, ?_, piecesAhead_found advances_item (goes_item line starts onward some)⟩
  · cases gap <;> rfl
  · rfl

end Markdown.Listing
