import Mathlib.Data.List.TakeWhile
import Markdown.Proofs.Quoting.Marks
import Markdown.Proofs.Structure.Paragraphs

set_option autoImplicit false

namespace Markdown

open Pattern

def runs {α : Type} (separates : α → Bool) (items : List α) : List (List α) :=
  (items.splitOnP separates).filter (! ·.isEmpty)

section Runs

variable {α β : Type} {separates : α → Bool} {item next : α} {items : List α}

theorem runs_cons_of_separates (here : separates item = true) :
    runs separates (item :: items) = runs separates items := by
  rw [runs, List.splitOnP_cons_eq_if_modifyHead, if_pos here]
  rfl

theorem runs_append_of_separates {gap : List α} (each : ∀ item ∈ gap, separates item = true) :
    runs separates (gap ++ items) = runs separates items := by
  induction gap with
  | nil => rfl
  | cons item gap ih =>
    obtain ⟨here, others⟩ := List.forall_mem_cons.1 each
    rw [List.cons_append, runs_cons_of_separates here, ih others]

/-- Items in front of a separator are a run. -/
theorem runs_append_cons {front : List α} (some : front ≠ [])
    (each : ∀ item ∈ front, separates item = false) (ends : separates item = true) :
    runs separates (front ++ item :: items) = front :: runs separates items := by
  rw [runs, List.splitOnP_append_cons_of_forall_mem each item ends, List.filter_cons_of_pos, runs]
  simpa using some

theorem runs_eq_singleton (some : items ≠ []) (each : ∀ item ∈ items, separates item = false) :
    runs separates items = [items] := by
  rw [runs, List.splitOnP_eq_singleton each, List.filter_cons_of_pos, List.filter_nil]
  simpa using some

/-- An item in front of a separator is the end of its run. -/
theorem runs_cons_separator (here : separates item = false) (ends : separates next = true) :
    runs separates (item :: next :: items) = [item] :: runs separates items := by
  simp [runs, List.splitOnP_cons_eq_if_modifyHead, here, ends]

/-- Items that follow each other belong to the same run. -/
theorem runs_cons_cons (here : separates item = false) (further : separates next = false) :
    ∃ run more, runs separates (next :: items) = (next :: run) :: more ∧
      runs separates (item :: next :: items) = (item :: next :: run) :: more := by
  obtain ⟨run, others, parts⟩ := List.exists_cons_of_ne_nil
    (List.splitOnP_ne_nil separates items)
  refine ⟨run, others.filter (! ·.isEmpty), ?_, ?_⟩
  · simp [runs, List.splitOnP_cons_eq_if_modifyHead, further, parts]
  · simp [runs, List.splitOnP_cons_eq_if_modifyHead, here, further, parts]

theorem runs_map (change : α → β) (separates : β → Bool) (items : List α) :
    runs separates (items.map change) =
      (runs (separates ∘ change) items).map (List.map change) := by
  have split : (items.map change).splitOnP separates =
      (items.splitOnP (separates ∘ change)).map (List.map change) := by
    induction items with
    | nil => rfl
    | cons item items ih =>
      rw [List.map_cons, List.splitOnP_cons_eq_if_modifyHead, List.splitOnP_cons_eq_if_modifyHead,
        ih]
      obtain ⟨run, more, parts⟩ := List.exists_cons_of_ne_nil
        (List.splitOnP_ne_nil (separates ∘ change) items)
      rw [parts]
      by_cases here : separates (change item) = true <;> simp [here]
  have filled : (fun run : List β => !run.isEmpty) ∘ List.map change = (! ·.isEmpty) := by
    funext run
    cases run <;> rfl
  rw [runs, split, List.filter_map, filled, runs]

theorem mem_of_mem_runs {run : List α} (member : run ∈ runs separates items)
    (inside : item ∈ run) : item ∈ items := by
  replace member := List.mem_of_mem_filter member
  induction items generalizing run with
  | nil =>
    obtain rfl := List.mem_singleton.1 member
    exact inside
  | cons first items ih =>
    rw [List.splitOnP_cons_eq_if_modifyHead] at member
    obtain ⟨front, more, parts⟩ := List.exists_cons_of_ne_nil
      (List.splitOnP_ne_nil separates items)
    rw [parts] at member ih
    split at member
    · rcases List.mem_cons.1 member with rfl | later
      · cases inside
      · exact List.mem_cons_of_mem _ (ih inside later)
    · rcases List.mem_cons.1 member with rfl | later
      · rcases List.mem_cons.1 inside with rfl | within
        · exact List.mem_cons_self
        · exact List.mem_cons_of_mem _ (ih within List.mem_cons_self)
      · exact List.mem_cons_of_mem _ (ih inside (List.mem_cons_of_mem _ later))

end Runs

namespace Sheet

variable {line : Sheet} {lines : List Sheet}

def isBlankLine (line : Sheet) : Bool :=
  line.all fun g => g.fits Seal.lead Text.isBlank

/-- The first line holds more than blanks. -/
def Inked : Sheet → Prop
  | [] => False
  | g :: rest =>
    g.fits Seal.lead Text.isNewline = false ∧ (g.fits Seal.lead Text.isBlank = true → Inked rest)

theorem fits_isNewline_of_mem (newline : Glyph.char '\n' ∉ line) {g : Glyph Seal} (member : g ∈ line) :
    g.fits Seal.lead Text.isNewline = false := by
  refine Bool.eq_false_iff.2 fun fits => ?_
  obtain ⟨c, rfl, here⟩ := exists_char_of_fits (by decide) fits
  rw [show c = '\n' by simpa [Text.isNewline] using here] at member
  exact newline member

theorem inked_of_line (newline : Glyph.char '\n' ∉ line) (filled : line.isBlankLine = false)
    (rest : Sheet) : (line ++ rest).Inked := by
  induction line with
  | nil => cases filled
  | cons g line ih =>
    refine ⟨fits_isNewline_of_mem newline List.mem_cons_self, fun blank => ?_⟩
    rw [isBlankLine, List.all_cons, blank, Bool.true_and] at filled
    exact ih (fun member => newline (List.mem_cons_of_mem _ member)) filled

theorem ofLines_append {gap core : List Sheet} (some : core ≠ []) :
    ofLines (gap ++ core) = gap.flatMap (· ++ [Glyph.char '\n']) ++ ofLines core := by
  induction gap with
  | nil => rfl
  | cons line gap ih =>
    obtain ⟨next, more, whole⟩ :=
      List.exists_cons_of_ne_nil (List.append_ne_nil_of_right_ne_nil gap some)
    rw [List.cons_append, whole, ofLines_cons_cons, ← whole, ih]
    simp

/-- The passages of a sheet, given by its lines: the lines between blank lines. -/
def passages (lines : List Sheet) : List Sheet :=
  (runs isBlankLine lines).map ofLines

/-- Lines from one with ink to one with ink. -/
structure Framed (lines : List Sheet) : Prop where
  some : lines ≠ []
  newline : ∀ line ∈ lines, Glyph.char '\n' ∉ line
  first : ∀ line ∈ lines.head?, line.isBlankLine = false
  last : ∀ line ∈ lines.getLast?, line.isBlankLine = false

theorem Framed.inked (framed : Framed lines) : (ofLines lines).Inked := by
  obtain ⟨top, more, rfl⟩ := List.exists_cons_of_ne_nil framed.some
  obtain ⟨rest, same, _⟩ := exists_rest_of_ofLines top more
  rw [same]
  exact inked_of_line (framed.newline top List.mem_cons_self) (framed.first top rfl) rest

/-- The last line ends the sheet. -/
theorem Framed.exists_last (framed : Framed lines) :
    ∃ front g, ofLines lines = front ++ [g] ∧ g.fits Seal.lead Text.isNewline = false := by
  obtain ⟨some, newline, -, last⟩ := framed
  induction lines with
  | nil => exact absurd rfl some
  | cons line lines ih =>
    obtain ⟨here, others⟩ := List.forall_mem_cons.1 newline
    cases lines with
    | nil =>
      rcases List.eq_nil_or_concat line with rfl | ⟨front, g, rfl⟩
      · cases last [] rfl
      · rw [List.concat_eq_append] at here ⊢
        exact ⟨front, g, ofLines_singleton _, fits_isNewline_of_mem here (by simp)⟩
    | cons next lines =>
      rw [List.getLast?_cons_cons] at last
      obtain ⟨front, g, same, outside⟩ := ih (List.cons_ne_nil _ _) others last
      exact ⟨line ++ Glyph.char '\n' :: front, g, by rw [ofLines_cons_cons, same]; simp, outside⟩

/-- In front of a line with ink there may be blank lines. -/
theorem exists_gap (some : lines ≠ []) (newline : ∀ line ∈ lines, Glyph.char '\n' ∉ line)
    (last : ∀ line ∈ lines.getLast?, line.isBlankLine = false) :
    ∃ gap core, lines = gap ++ core ∧ (∀ line ∈ gap, line.isBlankLine = true) ∧ Framed core := by
  induction lines with
  | nil => exact absurd rfl some
  | cons line lines ih =>
    by_cases blank : line.isBlankLine = true
    · have more : lines ≠ [] := by
        rintro rfl
        rw [last line rfl] at blank
        cases blank
      rw [List.getLast?_cons_of_ne_nil more] at last
      obtain ⟨gap, core, rfl, blanks, framed⟩ :=
        ih more (List.forall_mem_cons.1 newline).2 last
      exact ⟨line :: gap, core, rfl, List.forall_mem_cons.2 ⟨blank, blanks⟩, framed⟩
    · refine ⟨[], line :: lines, rfl, by simp, List.cons_ne_nil _ _, newline, fun first here => ?_,
        last⟩
      obtain rfl : line = first := by simpa using here
      exact Bool.eq_false_iff.2 blank

end Sheet

namespace Block

variable {behind rest line : Sheet} {captures : List (Empty × Sheet)}

theorem spots_blankLine_cons {g : Glyph Seal} (blank : g.fits Seal.lead Text.isBlank = true) :
    blankLine.spots Seal.lead ⟨behind, g :: rest, captures⟩ =
      blankLine.spots Seal.lead ⟨g :: behind, rest, captures⟩ := by
  have other : g.fits Seal.lead Text.isNewline = false := by
    obtain ⟨c, rfl, here⟩ := exists_char_of_fits (by decide) blank
    refine Bool.eq_false_iff.2 fun newline => ?_
    obtain rfl : c = '\n' := by simpa [Glyph.fits, Text.isNewline] using newline
    exact absurd here (by decide)
  have here := @spots_newline_of_ne behind rest captures g other
  rw [blankLine, spots, spots, spots, spots, Spot.stops, Spot.nearStops, if_pos blank,
    List.reverse_cons, List.flatMap_append, List.flatMap_singleton, here, List.append_nil]
  rfl

theorem spots_blankLine_of_inked (inked : rest.Inked) :
    blankLine.spots Seal.lead ⟨behind, rest, captures⟩ = [] := by
  induction rest generalizing behind with
  | nil => exact inked.elim
  | cons g rest ih =>
    by_cases blank : g.fits Seal.lead Text.isBlank = true
    · rw [spots_blankLine_cons blank, ih (inked.2 blank)]
    · have here := @spots_newline_of_ne behind rest captures g inked.1
      rw [blankLine, spots, spots, Spot.stops, Spot.nearStops, if_neg blank]
      simpa using here

theorem spots_blankLine_line (blank : line.isBlankLine = true) :
    blankLine.spots Seal.lead ⟨behind, line ++ Glyph.char '\n' :: rest, captures⟩ =
      [⟨.char '\n' :: (line.reverse ++ behind), rest, captures⟩] := by
  induction line generalizing behind with
  | nil => rfl
  | cons g line ih =>
    rw [Sheet.isBlankLine, List.all_cons, Bool.and_eq_true] at blank
    rw [List.cons_append, spots_blankLine_cons blank.1, ih blank.2, List.reverse_cons,
      List.append_assoc]
    rfl

/-- Blank lines in front of a line with ink are found as a whole. -/
theorem head?_rounds_blankLine {gap : List Sheet}
    (blank : ∀ line ∈ gap, line.isBlankLine = true) (inked : rest.Inked) {budget : Nat}
    (room : gap.length ≤ budget) (behind : Sheet) (captures : List (Empty × Sheet)) :
    ∃ passed, (spotRepetitions (blankLine.spots Seal.lead) budget
      ⟨behind, gap.flatMap (· ++ [Glyph.char '\n']) ++ rest, captures⟩).head? =
        some ⟨passed, rest, captures⟩ := by
  induction gap generalizing budget behind with
  | nil =>
    refine ⟨behind, ?_⟩
    cases budget with
    | zero => rfl
    | succ budget => simp [spotRepetitions, spots_blankLine_of_inked inked]
  | cons line gap ih =>
    obtain ⟨here, others⟩ := List.forall_mem_cons.1 blank
    cases budget with
    | zero => cases room
    | succ budget =>
      obtain ⟨passed, found⟩ := ih others (Nat.le_of_succ_le_succ room)
        (.char '\n' :: (line.reverse ++ behind))
      refine ⟨passed, ?_⟩
      rw [List.flatMap_cons, List.append_assoc, List.append_assoc, spotRepetitions,
        List.singleton_append, spots_blankLine_line here, List.flatMap_singleton,
        List.head?_append_of_ne_nil _ (spotRepetitions_ne_nil _ _ _), found]

theorem length_le_gap (gap : List Sheet) :
    gap.length ≤ (gap.flatMap (· ++ [Glyph.char '\n'])).length := by
  induction gap with
  | nil => exact Nat.le_refl 0
  | cons line gap ih => simp only [List.flatMap_cons, List.length_append, List.length_cons]; omega

theorem head?_blankLines_gap {gap : List Sheet} (blank : ∀ line ∈ gap, line.isBlankLine = true)
    (some : gap ≠ []) (inked : rest.Inked) (behind : Sheet) (captures : List (Empty × Sheet)) :
    ∃ passed, (blankLines.spots Seal.lead
      ⟨behind, .char '\n' :: (gap.flatMap (· ++ [Glyph.char '\n']) ++ rest), captures⟩).head? =
        .some ⟨passed, rest, captures⟩ := by
  cases gap with
  | nil => exact absurd rfl some
  | cons line gap =>
    obtain ⟨here, others⟩ := List.forall_mem_cons.1 blank
    have room : gap.length ≤ (gap.flatMap (· ++ [Glyph.char '\n']) ++ rest).length := by
      rw [List.length_append]
      exact Nat.le_add_right_of_le (length_le_gap gap)
    obtain ⟨passed, found⟩ := head?_rounds_blankLine others inked room
      (.char '\n' :: (line.reverse ++ Glyph.char '\n' :: behind)) captures
    refine ⟨passed, ?_⟩
    rw [List.flatMap_cons, List.append_assoc, List.append_assoc, List.singleton_append, blankLines,
      head?_spots_seq, spots_newline, List.findSome?_singleton, Pattern.rounds1, ← blankLine,
      head?_spots_seq, spots_blankLine_line here, List.findSome?_singleton]
    exact found

/-- Glyphs of a line are left alone. -/
theorem piecesAhead_line (newline : Glyph.char '\n' ∉ line) :
    blankLines.piecesAhead Seal.lead ⟨behind, line ++ rest, captures⟩ =
      line.map .plain ++
        blankLines.piecesAhead Seal.lead ⟨line.reverse ++ behind, rest, captures⟩ := by
  refine piecesAhead_append fun early g late whole => ?_
  have inside : g ∈ line := by simp [whole]
  have other := Sheet.fits_isNewline_of_mem newline inside
  rw [blankLines, spots, spots_newline_of_ne other, List.flatMap_nil]

/-- A sheet is cut into its passages. -/
theorem splitOff_ofLines {lines : List Sheet} (framed : Sheet.Framed lines) (behind : Sheet)
    (captures : List (Empty × Sheet)) :
    (blankLines.piecesAhead Seal.lead ⟨behind, Sheet.ofLines lines, captures⟩).foldr
      Piece.splitOff [[]] = Sheet.passages lines := by
  induction bound : lines.length using Nat.strongRecOn generalizing lines behind captures with
  | ind size ih =>
    cases lines with
    | nil => exact absurd rfl framed.some
    | cons line lines =>
      obtain ⟨here, others⟩ := List.forall_mem_cons.1 framed.newline
      have filled : line.isBlankLine = false := framed.first line rfl
      cases lines with
      | nil =>
        have parts := @splitOff_plain line [] [] [] rfl
        have alone : runs Sheet.isBlankLine [line] = [[line]] :=
          runs_eq_singleton (List.cons_ne_nil _ _) (by simpa using filled)
        rw [Sheet.ofLines_singleton, Sheet.passages, alone, List.map_singleton,
          Sheet.ofLines_singleton, ← List.append_nil line, piecesAhead_line here, piecesAhead_nil,
          parts]
      | cons next lines =>
        have last := framed.last
        rw [List.getLast?_cons_cons] at last
        obtain ⟨gap, core, whole, blank, later⟩ :=
          Sheet.exists_gap (List.cons_ne_nil next lines) others last
        have shorter : core.length < size := by
          rw [← bound, List.length_cons, whole, List.length_append]
          omega
        rw [Sheet.ofLines_cons_cons, whole, Sheet.ofLines_append later.some, piecesAhead_line here]
        cases gap with
        | nil =>
          -- The next line continues the passage.
          have none : blankLines.spots Seal.lead
              ⟨line.reverse ++ behind, .char '\n' :: Sheet.ofLines core, []⟩ = [] := by
            rw [blankLines, spots, spots_newline, List.flatMap_singleton, Pattern.rounds1,
              ← blankLine, spots, spots_blankLine_of_inked later.inked, List.flatMap_nil]
          have parts := ih core.length shorter later (.char '\n' :: (line.reverse ++ behind))
            captures rfl
          obtain ⟨top, more, rfl⟩ := List.exists_cons_of_ne_nil later.some
          obtain ⟨run, others, same, longer⟩ :=
            @runs_cons_cons _ _ line top more filled (later.first top rfl)
          rw [Sheet.passages, same, List.map_cons] at parts
          rw [List.flatMap_nil, List.nil_append, piecesAhead_plain none, List.nil_append,
            Sheet.passages, longer, List.map_cons, Sheet.ofLines_cons_cons]
          refine splitOff_plain line _ ?_
          rw [List.foldr_cons, parts]
          rfl
        | cons blankNext gap =>
          -- A gap ends the passage.
          obtain ⟨passed, found⟩ := head?_blankLines_gap blank (List.cons_ne_nil _ _) later.inked
            (line.reverse ++ behind) []
          have parts := ih core.length shorter later passed [] rfl
          obtain ⟨blankHere, blanks⟩ := List.forall_mem_cons.1 blank
          rw [piecesAhead_found advances_blankLines found, List.cons_append, Sheet.passages,
            runs_cons_separator filled blankHere, runs_append_of_separates blanks, List.map_cons,
            Sheet.ofLines_singleton]
          refine (@splitOff_plain line _ [] (Sheet.passages core) ?_).trans
            (by rw [List.append_nil, Sheet.passages])
          rw [List.foldr_cons, parts]
          rfl

end Block

namespace Sheet

variable {sheet : Sheet}

theorem fits_isNewline_of_mem_replicate {count : Nat} (g : Glyph Seal)
    (member : g ∈ List.replicate count (Glyph.char '\n')) :
    g.fits Seal.lead Text.isNewline = true := by
  rw [List.eq_of_mem_replicate member]
  rfl

theorem trimEnd_newlines (last : ∀ g ∈ sheet.getLast?, g.fits Seal.lead Text.isNewline = false)
    (behind : Nat) :
    trimEnd Text.isNewline (sheet ++ List.replicate behind (Glyph.char '\n')) = sheet := by
  have ended := trimEnd_eq last
  rw [trimEnd] at ended
  rw [trimEnd, List.reverse_append, List.reverse_replicate,
    List.dropWhile_append_of_pos fits_isNewline_of_mem_replicate, ended]

/-- Newlines at both ends are trimmed, and nothing else is. -/
theorem trim_newlines (some : sheet ≠ [])
    (first : ∀ g ∈ sheet.head?, g.fits Seal.lead Text.isNewline = false)
    (last : ∀ g ∈ sheet.getLast?, g.fits Seal.lead Text.isNewline = false) (before behind : Nat) :
    trim Text.isNewline (List.replicate before (Glyph.char '\n') ++
      (sheet ++ List.replicate behind (Glyph.char '\n'))) = sheet := by
  have started : trimStart Text.isNewline (List.replicate before (Glyph.char '\n') ++
      (sheet ++ List.replicate behind (Glyph.char '\n'))) =
        sheet ++ List.replicate behind (Glyph.char '\n') := by
    rw [trimStart, List.dropWhile_append_of_pos fits_isNewline_of_mem_replicate, ← trimStart,
      trimStart_eq]
    rwa [List.head?_append_of_ne_nil _ some]
  rw [trim, started, trimEnd_newlines last]

theorem Framed.trim_newlines {lines : List Sheet} (framed : Framed lines) (before behind : Nat) :
    trim Text.isNewline (List.replicate before (Glyph.char '\n') ++
      (ofLines lines ++ List.replicate behind (Glyph.char '\n'))) = ofLines lines := by
  obtain ⟨front, final, same, outside⟩ := framed.exists_last
  have inked := framed.inked
  rw [same] at inked ⊢
  refine Sheet.trim_newlines (by simp) (fun g here => ?_) (fun g here => ?_) before behind
  · obtain ⟨h, rest, whole⟩ := List.exists_cons_of_ne_nil (l := front ++ [final]) (by simp)
    rw [whole] at here inked
    obtain rfl : h = g := by simpa using here
    exact inked.1
  · obtain rfl : final = g := by simpa using here
    exact outside

/-- Between newlines, lines are cut into their passages. -/
theorem Framed.divide_newlines {lines : List Sheet} (framed : Framed lines) (before behind : Nat) :
    Block.blankLines.divide (trim Text.isNewline (List.replicate before (Glyph.char '\n') ++
      (ofLines lines ++ List.replicate behind (Glyph.char '\n')))) = passages lines := by
  rw [framed.trim_newlines]
  exact Block.splitOff_ofLines framed [] []

theorem trimSpace_eq_nil_iff :
    trimSpace sheet = [] ↔ ∀ g ∈ sheet, g.fits Seal.lead Unicode.isSpace = true := by
  rw [trimSpace, trim, trimEnd, List.reverse_eq_nil_iff, List.dropWhile_eq_nil_iff]
  constructor
  · intro all g member
    rw [← @List.takeWhile_append_dropWhile _ (·.fits Seal.lead Unicode.isSpace) sheet] at member
    rcases List.mem_append.1 member with front | back
    · exact List.mem_takeWhile_imp front
    · exact all g (List.mem_reverse.2 back)
  · intro all g member
    exact all g ((List.dropWhile_suffix _).subset (List.mem_reverse.1 member))

/-- A sheet without keys is a paragraph unless it is blank. -/
theorem paragraph?_of_keyless (table : Table)
    (keyless : ∀ fragment, Glyph.sealed (.key fragment) ∉ sheet) :
    paragraph? table sheet =
      if trimSpace sheet = [] then none else some (Paragraph.element table sheet) := by
  have kept : ∀ g ∈ trimSpace sheet, g ∈ sheet := Structure.trimSpace_subset sheet
  rw [paragraph?]
  split
  · next blank => rw [if_pos blank]
  · next fragment single =>
    exact absurd (kept _ (single ▸ List.mem_singleton_self _)) (keyless fragment)
  · next filled _ => rw [if_neg filled]; rfl

end Sheet

end Markdown
