import Markdown.Proofs.Paragraph.Passage

set_option autoImplicit false

namespace Markdown

open Pattern

namespace Sheet

def ofLines (lines : List Sheet) : Sheet :=
  ([.char '\n'] : Sheet).intercalate lines

def quoteLine (line : Sheet) : Sheet :=
  Glyph.chars "> ".toList ++ line

/-- There is no newline in the line, and it is not made of blanks only unless it is empty. -/
structure IsLine (line : Sheet) : Prop where
  newline : Glyph.char '\n' ∉ line
  inked : (∀ g ∈ line, g.Of Text.isBlank) → line = []

theorem ofLines_singleton (line : Sheet) : ofLines [line] = line := by
  simp [ofLines]

theorem ofLines_cons_cons (line next : Sheet) (more : List Sheet) :
    ofLines (line :: next :: more) = line ++ Glyph.char '\n' :: ofLines (next :: more) := by
  rw [ofLines, List.intercalate_cons_cons, List.append_assoc]
  rfl

/-- A line ends where the text does or at a newline. -/
theorem exists_rest_of_ofLines (line : Sheet) (more : List Sheet) :
    ∃ rest, ofLines (line :: more) = line ++ rest ∧
      (rest = [] ∨ ∃ tail, rest = .char '\n' :: tail) := by
  cases more with
  | nil => exact ⟨[], by rw [ofLines_singleton, List.append_nil], .inl rfl⟩
  | cons next more => exact ⟨_, ofLines_cons_cons line next more, .inr ⟨_, rfl⟩⟩

theorem encodeEscapes_ofLines (lines : List Sheet) :
    encodeEscapes (ofLines lines) = ofLines (lines.map encodeEscapes) := by
  induction lines with
  | nil => rfl
  | cons line rest ih =>
    cases rest with
    | nil => rw [List.map_singleton, ofLines_singleton, ofLines_singleton]
    | cons next rest =>
      rw [ofLines_cons_cons, encodeEscapes_newline, ih]
      simp only [List.map_cons, ofLines_cons_cons]

theorem encodeEscapes_quoteLine (line : Sheet) :
    encodeEscapes (quoteLine line) = quoteLine (encodeEscapes line) := by
  have still : ∀ c rest, c ≠ '\\' → encodeEscapes (.char c :: rest) = .char c :: encodeEscapes rest := by
    intro c rest differs
    rw [encodeEscapes]
    exact fun _ _ same => absurd (Glyph.char.inj same) differs
  change encodeEscapes (.char '>' :: .char ' ' :: line) = .char '>' :: .char ' ' :: _
  rw [still '>' _ (by decide), still ' ' _ (by decide)]
  rfl

theorem mem_of_mem_encodeEscapes {sheet : Sheet} {g : Glyph Seal}
    (member : g ∈ encodeEscapes sheet) : g ∈ sheet ∨ ∃ c, g = .sealed (.token c) := by
  fun_induction encodeEscapes sheet with
  | case1 c rest escapable ih =>
    rcases List.mem_cons.1 member with rfl | later
    · exact .inr ⟨c, rfl⟩
    · exact (ih later).imp_left fun inside =>
        List.mem_cons_of_mem _ (List.mem_cons_of_mem _ inside)
  | case2 c rest plain ih =>
    rcases List.mem_cons.1 member with rfl | later
    · exact .inl List.mem_cons_self
    · exact (ih later).imp_left (List.mem_cons_of_mem _)
  | case3 g rest other ih =>
    rcases List.mem_cons.1 member with rfl | later
    · exact .inl List.mem_cons_self
    · exact (ih later).imp_left (List.mem_cons_of_mem _)
  | case4 => exact .inl member

/-- Blanks are not made by hiding escapes. -/
theorem encodeEscapes_eq_self_of_blank {sheet : Sheet}
    (blank : ∀ g ∈ encodeEscapes sheet, g.Of Text.isBlank) : encodeEscapes sheet = sheet := by
  fun_induction encodeEscapes sheet with
  | case1 c rest escapable ih =>
    obtain ⟨d, impossible, _⟩ := blank _ List.mem_cons_self
    cases impossible
  | case2 c rest plain ih => rw [ih fun g member => blank g (List.mem_cons_of_mem _ member)]
  | case3 g rest other ih => rw [ih fun h member => blank h (List.mem_cons_of_mem _ member)]
  | case4 => rfl

theorem IsLine.encodeEscapes {line : Sheet} (isLine : IsLine line) :
    IsLine (Sheet.encodeEscapes line) where
  newline member := by
    rcases mem_of_mem_encodeEscapes member with inside | ⟨c, impossible⟩
    · exact isLine.newline inside
    · cases impossible
  inked blank := by
    have same := encodeEscapes_eq_self_of_blank blank
    rw [same] at blank ⊢
    exact isLine.inked blank

/-- What follows a place at the start of a line begins with one of the lines. -/
theorem exists_line_of_startsLine {lines : List Sheet} (each : ∀ line ∈ lines, Glyph.char '\n' ∉ line)
    {early late : Sheet} (whole : ofLines lines = early ++ late)
    (starts : ∀ g ∈ early.getLast?, g = .char '\n') (filled : late ≠ []) :
    ∃ line ∈ lines, ∃ rest, late = line ++ rest ∧
      (rest = [] ∨ ∃ tail, rest = .char '\n' :: tail) := by
  induction lines generalizing early with
  | nil =>
    obtain ⟨rfl, rfl⟩ : early = [] ∧ late = [] := by simpa [ofLines] using whole.symm
    exact absurd rfl filled
  | cons line more ih =>
    -- A place behind the first glyph of the line and not behind its end starts no line.
    have within : ∀ rest, line = early ++ rest → early = [] := by
      intro rest parts
      rcases List.eq_nil_or_concat early with rfl | ⟨front, g, rfl⟩
      · rfl
      · rw [List.concat_eq_append] at starts parts
        rw [starts g (by simp)] at parts
        exact absurd (parts ▸ by simp) (each line List.mem_cons_self)
    cases more with
    | nil =>
      rw [ofLines_singleton] at whole
      obtain rfl := within late whole
      exact ⟨line, List.mem_cons_self, [], by rw [List.append_nil, whole]; rfl, .inl rfl⟩
    | cons next more =>
      rw [ofLines_cons_cons] at whole
      have begun : early = [] → ∃ found ∈ line :: next :: more, ∃ rest, late = found ++ rest ∧
          (rest = [] ∨ ∃ tail, rest = .char '\n' :: tail) := by
        rintro rfl
        exact ⟨line, List.mem_cons_self, _, whole.symm, .inr ⟨_, rfl⟩⟩
      rcases List.append_eq_append_iff.1 whole with ⟨front, rfl, later⟩ | ⟨rest, here, _⟩
      · cases front with
        | nil =>
          rw [List.append_nil] at within
          exact begun (by rw [within [] (by simp), List.append_nil])
        | cons g front =>
          obtain ⟨_, tail⟩ := List.cons.inj later
          obtain ⟨found, member, rest⟩ := ih
            (fun other member => each other (List.mem_cons_of_mem _ member)) tail fun h last =>
              starts h (by
                cases front with
                | nil => simp at last
                | cons e front => simpa [List.getLast?_append_of_ne_nil] using last)
          exact ⟨found, List.mem_cons_of_mem _ member, rest⟩
      · exact begun (within rest here)

/-- No line that is quoted begins with anything but its mark. -/
theorem exists_mark_of_startsLine {lines : List Sheet} (each : ∀ line ∈ lines, IsLine line)
    {early late : Sheet} (whole : ofLines (lines.map quoteLine) = early ++ late)
    (starts : ∀ g ∈ early.getLast?, g = .char '\n') (filled : late ≠ []) :
    ∃ rest, late = .char '>' :: .char ' ' :: rest := by
  have inside : ∀ quoted ∈ lines.map quoteLine, Glyph.char '\n' ∉ quoted := by
    intro quoted member newline
    obtain ⟨line, here, rfl⟩ := List.mem_map.1 member
    rcases List.mem_append.1 newline with mark | later
    · simp at mark
    · exact (each line here).newline later
  obtain ⟨quoted, member, rest, rfl, _⟩ := exists_line_of_startsLine inside whole starts filled
  obtain ⟨line, _, rfl⟩ := List.mem_map.1 member
  exact ⟨line ++ rest, rfl⟩

end Sheet

namespace Pattern

variable {slot : Type} [DecidableEq slot] {behind ahead : Sheet}
  {captures : List (slot × Sheet)}

omit [DecidableEq slot] in
theorem atLineStart_of_startsLine (starts : Sheet.StartsLine behind) :
    ((⟨behind, ahead, captures⟩ : Spot Seal slot).cursor fun s => [Seal.lead s]).atLineStart =
      true := by
  cases behind with
  | nil => rfl
  | cons g rest =>
    obtain rfl := starts g rfl
    rfl

theorem spots_lineStart (starts : Sheet.StartsLine behind) :
    (Pattern.lineStart : Pattern slot).spots Seal.lead ⟨behind, ahead, captures⟩ =
      [⟨behind, ahead, captures⟩] := by
  rw [Pattern.lineStart, spots, if_pos (atLineStart_of_startsLine starts)]

theorem spots_lineStart_of_not (starts : ¬ Sheet.StartsLine behind) :
    (Pattern.lineStart : Pattern slot).spots Seal.lead ⟨behind, ahead, captures⟩ = [] := by
  refine List.eq_nil_iff_forall_not_mem.2 fun later member => starts ?_
  have ends := endsLine_lineStart _ _ member
  rwa [mem_spots_place member] at ends

theorem spots_lineEnd (ends : ahead = [] ∨ ∃ rest, ahead = .char '\n' :: rest) :
    (Pattern.lineEnd : Pattern slot).spots Seal.lead ⟨behind, ahead, captures⟩ =
      [⟨behind, ahead, captures⟩] := by
  rcases ends with rfl | ⟨rest, rfl⟩ <;> rfl

theorem ahead_of_mem_lineEnd {spot later : Spot Seal slot}
    (member : later ∈ (Pattern.lineEnd : Pattern slot).spots Seal.lead spot) :
    spot.ahead = [] ∨ ∃ rest, spot.ahead = .char '\n' :: rest := by
  obtain ⟨_, here⟩ := holds_of_mem_place member
  obtain ⟨behind, ahead, captures⟩ := spot
  cases ahead with
  | nil => exact .inl rfl
  | cons g rest =>
    cases g with
    | sealed s =>
      have never : Text.isNewline Escape.opening = true := here
      exact absurd never (by decide)
    | char c =>
      have newline : c = '\n' := by
        simpa [Cursor.atLineEnd, Cursor.atTextEnd, Cursor.precedes, Spot.cursor, Glyph.spell,
          Text.isNewline] using here
      exact .inr ⟨rest, by rw [newline]⟩

/-- The pattern takes certain glyphs from the front of each line of a kind, and nothing else. -/
structure Clears (pattern : Pattern slot) (front : Sheet) (kind : Sheet → Prop) : Prop where
  advances : pattern.Advances Seal.lead
  filled : front ≠ []
  inline : Glyph.char '\n' ∉ front
  newline : ∀ line, kind line → Glyph.char '\n' ∉ line
  here : ∀ {behind line rest : Sheet}, Sheet.StartsLine behind → kind line →
    (rest = [] ∨ ∃ tail, rest = .char '\n' :: tail) →
      (pattern.spots Seal.lead ⟨behind, front ++ line ++ rest, []⟩).head? =
        some ⟨front.reverse ++ behind, line ++ rest, []⟩
  elsewhere : ∀ {behind ahead : Sheet}, ¬ Sheet.StartsLine behind →
    pattern.spots Seal.lead ⟨behind, ahead, []⟩ = []

namespace Clears

variable {pattern : Pattern slot} {front : Sheet} {kind : Sheet → Prop} {line rest : Sheet}

omit [DecidableEq slot] in
theorem not_startsLine {early : Sheet} (filled : early ≠ []) (newline : Glyph.char '\n' ∉ early)
    (behind : Sheet) : ¬ Sheet.StartsLine (early.reverse ++ behind) := by
  obtain ⟨front, g, rfl⟩ := List.eq_nil_or_concat early |>.resolve_left filled
  intro begins
  refine newline ?_
  rw [begins g (by simp)]
  simp

/-- Behind its front a line is left alone up to the next one. -/
theorem piecesAhead_line (clears : pattern.Clears front kind) (starts : Sheet.StartsLine behind)
    (fine : kind line) (ends : rest = [] ∨ ∃ tail, rest = .char '\n' :: tail) :
    (pattern.piecesAhead Seal.lead ⟨behind, front ++ line ++ rest, captures⟩).flatMap
        (Piece.recast fun _ => []) =
      line ++ (pattern.piecesAhead Seal.lead
        ⟨line.reverse ++ (front.reverse ++ behind), rest, []⟩).flatMap
          (Piece.recast fun _ => []) := by
  rw [piecesAhead_found clears.advances (clears.here starts fine ends), List.flatMap_cons,
    piecesAhead_append, List.flatMap_append, List.flatMap_map]
  · simp [Piece.recast]
  · intro early g late whole
    refine clears.elsewhere ?_
    rw [← List.append_assoc, ← List.reverse_append]
    refine not_startsLine (by simp [clears.filled]) (fun member => ?_) behind
    rcases List.mem_append.1 member with inFront | inLine
    · exact clears.inline inFront
    · exact clears.newline line fine (whole ▸ List.mem_append_left _ inLine)

theorem recast_lines (clears : pattern.Clears front kind) {lines : List Sheet}
    (each : ∀ line ∈ lines, kind line) (starts : Sheet.StartsLine behind) :
    (pattern.piecesAhead Seal.lead
        ⟨behind, Sheet.ofLines (lines.map (front ++ ·)), captures⟩).flatMap
          (Piece.recast fun _ => []) = Sheet.ofLines lines := by
  induction lines generalizing behind captures with
  | nil => rfl
  | cons line more ih =>
    obtain ⟨here, others⟩ := List.forall_mem_cons.1 each
    cases more with
    | nil =>
      have alone := @piecesAhead_line _ _ behind captures _ _ _ line [] clears starts here (.inl rfl)
      rw [List.append_nil, piecesAhead_nil, List.flatMap_nil, List.append_nil] at alone
      rwa [List.map_singleton, Sheet.ofLines_singleton, Sheet.ofLines_singleton]
    | cons next more =>
      rw [List.map_cons, List.map_cons, Sheet.ofLines_cons_cons,
        clears.piecesAhead_line starts here (.inr ⟨_, rfl⟩), Sheet.ofLines_cons_cons,
        piecesAhead_plain, List.flatMap_cons, ← List.map_cons,
        ih others (by simp [Sheet.StartsLine])]
      · rfl
      · refine clears.elsewhere ?_
        rw [← List.append_assoc, ← List.reverse_append]
        refine not_startsLine (by simp [clears.filled]) (fun member => ?_) behind
        exact (List.mem_append.1 member).elim clears.inline (clears.newline line here)

/-- Without their fronts, lines are the lines again. -/
theorem recast_eq (clears : pattern.Clears front kind) {lines : List Sheet}
    (each : ∀ line ∈ lines, kind line) :
    pattern.recast (fun _ => []) (Sheet.ofLines (lines.map (front ++ ·))) = Sheet.ofLines lines :=
  clears.recast_lines each (by simp [Sheet.StartsLine])

end Clears

end Pattern

namespace Quote

variable {behind line rest : Sheet} {captures : List (Empty × Sheet)}

/-- Behind the angle bracket of a mark: all blanks of an empty line, or a blank. -/
theorem head?_markGap (isLine : Sheet.IsLine line)
    (ends : rest = [] ∨ ∃ tail, rest = .char '\n' :: tail) :
    ((Pattern.choice [.seq (.many Text.isBlank) .lineEnd, .optional (.one Text.isBlank)] :
      Pattern Empty).spots Seal.lead ⟨behind, .char ' ' :: (line ++ rest), captures⟩).head? =
      some ⟨.char ' ' :: behind, line ++ rest, captures⟩ := by
  change (List.flatMap _ _ ++ _).head? = _
  cases line with
  | nil =>
    have stops : (Pattern.many Text.isBlank : Pattern Empty).spots Seal.lead
        ⟨behind, .char ' ' :: rest, captures⟩ =
        [⟨.char ' ' :: behind, rest, captures⟩, ⟨behind, .char ' ' :: rest, captures⟩] := by
      rcases ends with rfl | ⟨tail, rfl⟩ <;> rfl
    rw [List.nil_append, stops, List.flatMap_cons, spots_lineEnd ends]
    rfl
  | cons g line =>
    have none : List.flatMap (Pattern.lineEnd.spots Seal.lead)
        ((Pattern.many Text.isBlank : Pattern Empty).spots Seal.lead
          ⟨behind, .char ' ' :: (g :: line ++ rest), captures⟩) = [] := by
      refine List.eq_nil_iff_forall_not_mem.2 fun later member => ?_
      obtain ⟨middle, blanks, atEnd⟩ := List.mem_flatMap.1 member
      obtain ⟨passed, passes, blank⟩ :=
        Only.many (of_fits (by decide) fun _ here => here) _ _ blanks
      have whole : .char ' ' :: (g :: line ++ rest) = passed ++ middle.ahead := passes.ahead
      have ended := ahead_of_mem_lineEnd atEnd
      -- The blanks would have to reach the end of the line, which holds more than blanks.
      cases passed with
      | nil =>
        rw [List.nil_append] at whole
        rw [← whole] at ended
        simp at ended
      | cons h passed =>
        have tail := (List.cons.inj whole).2
        rcases List.append_eq_append_iff.1 tail with ⟨front, rfl, _⟩ | ⟨back, inside, after⟩
        · have empty := isLine.inked fun e member =>
            blank e (List.mem_cons_of_mem _ (List.mem_append_left _ member))
          cases empty
        · rw [after] at ended
          cases back with
          | nil =>
            rw [List.append_nil] at inside
            have empty := isLine.inked fun e member =>
              blank e (List.mem_cons_of_mem _ (inside ▸ member))
            cases empty
          | cons e back =>
            rcases ended with impossible | ⟨more, same⟩
            · cases impossible
            · refine isLine.newline ?_
              rw [inside, (List.cons.inj same).1]
              simp
    rw [none]
    rfl

/-- A mark is found with the blank behind it and nothing more. -/
theorem head?_mark (starts : Sheet.StartsLine behind) (isLine : Sheet.IsLine line)
    (ends : rest = [] ∨ ∃ tail, rest = .char '\n' :: tail) :
    (mark.spots Seal.lead ⟨behind, Sheet.quoteLine line ++ rest, captures⟩).head? =
      some ⟨.char ' ' :: .char '>' :: behind, line ++ rest, captures⟩ := by
  have bracket : (Pattern.many Text.isBlank : Pattern Empty).spots Seal.lead
      ⟨behind, .char '>' :: .char ' ' :: (line ++ rest), captures⟩ =
      [⟨behind, .char '>' :: .char ' ' :: (line ++ rest), captures⟩] := rfl
  have passed : (Pattern.char '>' : Pattern Empty).spots Seal.lead
      ⟨behind, .char '>' :: .char ' ' :: (line ++ rest), captures⟩ =
      [⟨.char '>' :: behind, .char ' ' :: (line ++ rest), captures⟩] := rfl
  change (mark.spots Seal.lead ⟨behind, .char '>' :: .char ' ' :: (line ++ rest), captures⟩).head? =
    _
  rw [mark, sequence_cons_cons, head?_spots_seq, spots_lineStart starts, List.findSome?_singleton,
    sequence_cons_cons, head?_spots_seq, bracket, List.findSome?_singleton, sequence_cons_cons,
    head?_spots_seq, passed, List.findSome?_singleton]
  exact head?_markGap isLine ends

theorem spots_mark_of_not (starts : ¬ Sheet.StartsLine behind) (ahead : Sheet) :
    mark.spots Seal.lead ⟨behind, ahead, captures⟩ = [] := by
  rw [mark, sequence_cons_cons, spots, spots_lineStart_of_not starts, List.flatMap_nil]

theorem advances_mark : mark.Advances Seal.lead :=
  .seq_right _ (.seq_right _ (.seq_left (.one _) _))

theorem clears_mark : mark.Clears (Glyph.chars "> ".toList) Sheet.IsLine where
  advances := advances_mark
  filled := by simp
  inline := by simp
  newline _ isLine := isLine.newline
  here starts isLine ends := head?_mark starts isLine ends
  elsewhere starts := spots_mark_of_not starts _

/-- Without their marks, quoted lines are the lines again. -/
theorem recast_mark {lines : List Sheet} (each : ∀ line ∈ lines, Sheet.IsLine line) :
    mark.recast (fun _ => []) (Sheet.ofLines (lines.map Sheet.quoteLine)) = Sheet.ofLines lines :=
  clears_mark.recast_eq each

end Quote

namespace Pattern

variable {slot : Type} [DecidableEq slot] {first second : Pattern slot}

/-- The place is at the start of a line or at the end of the text. -/
def AtBreak (spot : Spot Seal slot) : Prop :=
  Sheet.StartsLine spot.behind ∨ spot.ahead = []

theorem mem_spots_seq {spot middle later : Spot Seal slot}
    (early : middle ∈ first.spots Seal.lead spot) (late : later ∈ second.spots Seal.lead middle) :
    later ∈ (first.seq second).spots Seal.lead spot :=
  List.mem_flatMap.2 ⟨middle, early, late⟩

theorem self_mem_many (accepts : Char → Bool) (spot : Spot Seal slot) :
    spot ∈ (Pattern.many accepts).spots Seal.lead spot := by
  refine List.mem_reverse.2 ?_
  obtain ⟨behind, ahead, captures⟩ := spot
  cases ahead <;> exact List.mem_cons_self

theorem self_mem_rounds (body : Pattern slot) (spot : Spot Seal slot) :
    spot ∈ (Pattern.rounds body).spots Seal.lead spot := by
  rw [spots]
  cases spot.ahead.length <;> simp [spotRepetitions]

/-- An eager run may go on to the end of the text or to a glyph that is not of its class. -/
theorem exists_mem_many (accepts : Char → Bool) (spot : Spot Seal slot) :
    ∃ later ∈ (Pattern.many accepts).spots Seal.lead spot,
      later.ahead = [] ∨ ∃ g rest, later.ahead = g :: rest ∧ g.fits Seal.lead accepts = false := by
  obtain ⟨behind, ahead, captures⟩ := spot
  induction ahead generalizing behind with
  | nil => exact ⟨_, self_mem_many accepts _, .inl rfl⟩
  | cons g rest ih =>
    by_cases fits : g.fits Seal.lead accepts = true
    · obtain ⟨later, member, ends⟩ := ih (g :: behind)
      refine ⟨later, List.mem_reverse.2 (List.mem_cons_of_mem _ ?_), ends⟩
      rw [if_pos fits]
      exact List.mem_reverse.1 member
    · exact ⟨_, self_mem_many accepts _, .inr ⟨g, rest, rfl, Bool.eq_false_iff.2 fits⟩⟩

theorem AtBreak.rounds {body : Pattern slot}
    (ends : ∀ spot, ∀ later ∈ body.spots Seal.lead spot, AtBreak later) {spot later : Spot Seal slot}
    (begun : AtBreak spot) (member : later ∈ (Pattern.rounds body).spots Seal.lead spot) :
    AtBreak later := by
  rw [spots] at member
  generalize spot.ahead.length = budget at member
  induction budget generalizing spot with
  | zero => exact List.mem_singleton.1 member ▸ begun
  | succ budget ih =>
    rcases List.mem_append.1 member with more | here
    · obtain ⟨middle, round, rest⟩ := List.mem_flatMap.1 more
      exact ih (ends spot middle round) rest
    · exact List.mem_singleton.1 here ▸ begun

theorem AtBreak.newlines {spot later : Spot Seal slot} (begun : AtBreak spot)
    (member : later ∈ (Pattern.many Text.isNewline).spots Seal.lead spot) : AtBreak later := by
  obtain ⟨passed, passes, kinds⟩ := Only.many (of_fits (by decide) fun _ here => here) _ _ member
  rcases List.eq_nil_or_concat passed with rfl | ⟨front, g, rfl⟩
  · rw [AtBreak, passes.behind]
    exact begun.imp_right fun ended => by rw [passes.ahead] at ended; exact ended
  · obtain ⟨c, rfl, newline⟩ := kinds g (by simp)
    refine .inl fun h here => ?_
    rw [passes.behind] at here
    obtain rfl : Glyph.char c = h := by simpa using here
    rw [show c = '\n' by simpa [Text.isNewline] using newline]

/-- The rest of a line, up to its newline or the end of the text, may be passed. -/
theorem exists_mem_inLine (spot : Spot Seal slot) :
    ∃ later ∈ (Pattern.many Pattern.inLine).spots Seal.lead spot,
      later.ahead = [] ∨ ∃ rest, later.ahead = .char '\n' :: rest := by
  obtain ⟨later, member, ended | ⟨g, rest, ahead, outside⟩⟩ := exists_mem_many Pattern.inLine spot
  · exact ⟨later, member, .inl ended⟩
  · cases g with
    | sealed s =>
      have never : Pattern.inLine Escape.opening = false := outside
      exact absurd never (by decide)
    | char c =>
      have newline : c = '\n' := by simpa [Glyph.fits, Pattern.inLine] using outside
      exact ⟨later, member, .inr ⟨rest, by rw [ahead, newline]⟩⟩

/-- Rounds that can begin at every line go on to the end of the sheet. -/
theorem exists_head?_rounds1 {body : Pattern slot} {sheet : Sheet}
    (advances : body.Advances Seal.lead)
    (breaks : ∀ spot, ∀ later ∈ body.spots Seal.lead spot, AtBreak later)
    (begins : ∀ {early late captures}, sheet = early ++ late → Sheet.StartsLine early.reverse →
      late ≠ [] → body.spots Seal.lead ⟨early.reverse, late, captures⟩ ≠ [])
    (filled : sheet ≠ []) :
    ∃ later, ((Pattern.rounds1 body).spots Seal.lead (.first sheet)).head? = some later ∧
      later.ahead = [] := by
  have nonempty : (Pattern.rounds1 body).spots Seal.lead (.first sheet) ≠ [] := by
    obtain ⟨middle, round⟩ := List.exists_mem_of_ne_nil _
      (@begins [] sheet [] (List.nil_append sheet).symm (by simp [Sheet.StartsLine]) filled)
    exact List.ne_nil_of_mem (mem_spots_seq round (self_mem_rounds _ _))
  cases first : ((Pattern.rounds1 body).spots Seal.lead (.first sheet)).head? with
  | none => exact absurd (List.head?_eq_none_iff.1 first) nonempty
  | some later =>
    refine ⟨later, rfl, ?_⟩
    rw [Pattern.rounds1, head?_spots_seq] at first
    obtain ⟨middle, line, rounds⟩ := List.exists_of_findSome?_eq_some first
    have stopped := spots_eq_nil_of_head?_rounds advances rounds
    have onward := List.mem_of_mem_head? rounds
    obtain ⟨passed, passes⟩ := exists_passes_of_mem_spots (mem_spots_seq line onward)
    have broken : AtBreak later := (breaks _ _ line).rounds breaks onward
    -- At the start of a further line another round would have been possible.
    rcases broken with starts | ended
    · by_contra more
      obtain ⟨behind, ahead, captures⟩ := later
      have before : behind = passed.reverse ++ [] := passes.behind
      rw [List.append_nil] at before
      subst before
      exact begins passes.ahead starts more stopped
    · exact ended

omit [DecidableEq slot] in
theorem between_first_of_ended {sheet : Sheet} {later : Spot Seal slot} (ended : later.ahead = []) :
    Spot.between (.first sheet) later = sheet := by
  rw [Spot.between, ended]
  exact List.take_length

/-- A match that goes through to the end is the only one. -/
theorem pieces_of_ended {pattern : Pattern slot} {sheet : Sheet} {later : Spot Seal slot}
    (advances : pattern.Advances Seal.lead)
    (first : (pattern.spots Seal.lead (.first sheet)).head? = some later)
    (ended : later.ahead = []) :
    pattern.pieces Seal.lead sheet = [.found ⟨.first sheet, later⟩] := by
  rw [pieces_eq_piecesAhead]
  refine (piecesAhead_found advances first).trans ?_
  obtain ⟨behind, ahead, captures⟩ := later
  obtain rfl : ahead = [] := ended
  rfl

end Pattern

namespace Quote

/-- A quote goes on to the start of a line or to the end of the text. -/
theorem atBreak_quotedLines {spot later : Spot Seal Part}
    (member : later ∈ quotedLines.spots Seal.lead spot) : AtBreak later := by
  obtain ⟨_, _, member⟩ := List.mem_flatMap.1 member
  obtain ⟨_, _, member⟩ := List.mem_flatMap.1 member
  obtain ⟨_, _, member⟩ := List.mem_flatMap.1 member
  obtain ⟨_, _, member⟩ := List.mem_flatMap.1 member
  obtain ⟨_, _, member⟩ := List.mem_flatMap.1 member
  obtain ⟨broken, breaks, member⟩ := List.mem_flatMap.1 member
  obtain ⟨continued, rounds, newlines⟩ := List.mem_flatMap.1 member
  have begun : AtBreak broken := by
    rcases List.mem_append.1 breaks with newline | ended
    · exact .inl (endsLine_newline _ _ newline)
    · obtain ⟨rfl, here⟩ := holds_of_mem_place ended
      exact .inr (ahead_eq_nil here)
  have line : (Pattern.seq (.many1 Pattern.inLine) (.char '\n') : Pattern Part).EndsLine :=
    .seq_right _ endsLine_newline
  exact (begun.rounds (fun spot later round => .inl (line spot later round)) rounds).newlines newlines

/-- Wherever a line begins with a mark and a blank there is a quote. -/
theorem spots_quotedLines_ne_nil {behind rest : Sheet} {captures : List (Part × Sheet)}
    (starts : Sheet.StartsLine behind) :
    quotedLines.spots Seal.lead ⟨behind, .char '>' :: .char ' ' :: rest, captures⟩ ≠ [] := by
  -- The blank counts as the content of the line, so that empty lines are quoted as well.
  have blank : (⟨.char ' ' :: .char '>' :: behind, rest, captures⟩ : Spot Seal Part) ∈
      (Pattern.one Pattern.inLine).spots Seal.lead
        ⟨.char '>' :: behind, .char ' ' :: rest, captures⟩ := List.mem_cons_self
  obtain ⟨later, run, ends⟩ := exists_mem_inLine
    (⟨.char ' ' :: .char '>' :: behind, rest, captures⟩ : Spot Seal Part)
  have broken : ∃ last, last ∈ (Pattern.choice [.char '\n', .textEnd] : Pattern Part).spots
      Seal.lead later := by
    obtain ⟨before, after, kept⟩ := later
    rcases ends with rfl | ⟨more, rfl⟩
    · exact ⟨_, List.mem_append_right _ List.mem_cons_self⟩
    · exact ⟨_, List.mem_append_left _ List.mem_cons_self⟩
  obtain ⟨last, breaks⟩ := broken
  have bracket : (⟨.char '>' :: behind, .char ' ' :: rest, captures⟩ : Spot Seal Part) ∈
      (Pattern.char '>').spots Seal.lead ⟨behind, .char '>' :: .char ' ' :: rest, captures⟩ :=
    List.mem_cons_self
  have here : (⟨behind, .char '>' :: .char ' ' :: rest, captures⟩ : Spot Seal Part) ∈
      (Pattern.lineStart).spots Seal.lead ⟨behind, .char '>' :: .char ' ' :: rest, captures⟩ := by
    rw [spots_lineStart starts]
    exact List.mem_cons_self
  exact List.ne_nil_of_mem (mem_spots_seq here (mem_spots_seq (self_mem_many _ _)
    (mem_spots_seq bracket (mem_spots_seq (List.mem_append_right _ List.mem_cons_self)
      (mem_spots_seq (mem_spots_seq blank run) (mem_spots_seq breaks
        (mem_spots_seq (self_mem_rounds _ _) (self_mem_many _ _))))))))

/-- Lines that are all quoted are one quote. -/
theorem pieces_quote {lines : List Sheet} (some : lines ≠ [])
    (each : ∀ line ∈ lines, Sheet.IsLine line) :
    ∃ f, quote.pieces Seal.lead (Sheet.ofLines (lines.map Sheet.quoteLine)) = [.found f] ∧
      f.get .lines = Sheet.ofLines (lines.map Sheet.quoteLine) := by
  generalize quoted : Sheet.ofLines (lines.map Sheet.quoteLine) = sheet
  have filled : sheet ≠ [] := by
    obtain ⟨line, more, rfl⟩ := List.exists_cons_of_ne_nil some
    obtain ⟨rest, whole, _⟩ := Sheet.exists_rest_of_ofLines (Sheet.quoteLine line)
      (more.map Sheet.quoteLine)
    rw [← quoted, List.map_cons, whole]
    simp [Sheet.quoteLine]
  have marked : ∀ {early late : Sheet}, sheet = early ++ late →
      Sheet.StartsLine early.reverse → late ≠ [] →
        ∃ rest, late = .char '>' :: .char ' ' :: rest := fun whole starts =>
    Sheet.exists_mark_of_startsLine each (quoted.trans whole) (by
      rwa [Sheet.StartsLine, List.head?_reverse] at starts)
  obtain ⟨inner, found, ended⟩ := exists_head?_rounds1 (advances_quotedLines _)
    (fun _ _ => atBreak_quotedLines) (fun whole starts more => by
      obtain ⟨tail, rfl⟩ := marked whole starts more
      exact spots_quotedLines_ne_nil starts) filled
  have first : (quote.spots Seal.lead (.first sheet)).head? = Option.some
      ⟨inner.behind, inner.ahead, (.lines, Spot.between (.first sheet) inner) :: inner.captures⟩ := by
    rw [quote, spots, List.head?_map, found]
    rfl
  have advances : quote.Advances Seal.lead := ((advances_quotedLines _).seq_left _).capture _
  refine ⟨_, pieces_of_ended advances first ended, ?_⟩
  simpa [Find.get, Find.get?, Spot.get?] using between_first_of_ended ended

end Quote

end Markdown
