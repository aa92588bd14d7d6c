import Markdown.Proofs.Structure.Passes

set_option autoImplicit false

namespace Markdown.Structure

open Pattern

variable {sheet : Sheet}

/-- A key on its own, or no key at all. -/
def Alone (part : Sheet) : Prop :=
  WithoutKeys part ∨ ∃ fragment, part = [.sealed (.key fragment)]

/-- Before and behind every key there is nothing or a blank line. -/
def Spaced (sheet : Sheet) : Prop :=
  ∀ before fragment behind, sheet = before ++ Glyph.sealed (.key fragment) :: behind →
    (before = [] ∨ gap <:+ before) ∧ (behind = [] ∨ gap <+: behind)

/-- What is left of a blank line between newlines and a glyph that is none. -/
theorem gap_suffix_of_append {dropped before : Sheet}
    (first : ∀ g ∈ before.head?, g ≠ .char '\n') (after : gap <:+ dropped ++ before) :
    before = [] ∨ gap <:+ before := by
  match before, first, after with
  | [], _, _ => exact .inl rfl
  | [g], first, ⟨front, whole⟩ =>
    rw [show gap = [Glyph.char '\n'] ++ [Glyph.char '\n'] from rfl, ← List.append_assoc] at whole
    have last := List.append_inj_right' whole rfl
    exact absurd (List.singleton_inj.1 last).symm (first g rfl)
  | g :: h :: rest, _, after =>
    refine .inr (List.suffix_of_suffix_length_le after (List.suffix_append _ _) ?_)
    simp [gap]

/-- Trimming takes newlines away at both ends, and leaves none there. -/
theorem exists_eq_trim (sheet : Sheet) :
    ∃ front back, sheet = front ++ (Sheet.trim Text.isNewline sheet ++ back) ∧
      (∀ g ∈ (Sheet.trim Text.isNewline sheet).head?, g ≠ .char '\n') ∧
      ∀ g ∈ (Sheet.trim Text.isNewline sheet).reverse.head?, g ≠ .char '\n' := by
  obtain ⟨front, _, back, whole, rfl, _, _, starts, ends⟩ :=
    Text.exists_eq_trimmed (fun g => g.fits Seal.lead Text.isNewline) sheet
  have differs : ∀ g : Glyph Seal, g.fits Seal.lead Text.isNewline = false → g ≠ .char '\n' := by
    rintro _ outside rfl
    cases outside
  refine ⟨front, back, whole, fun g here => differs g (starts g here), fun g here => ?_⟩
  exact differs g (ends g (List.head?_reverse ▸ here))

theorem Isolated.spaced (isolated : Isolated false sheet) :
    Spaced (Sheet.trim Text.isNewline sheet) := by
  obtain ⟨front, back, same, starts, ends⟩ := exists_eq_trim sheet
  intro before fragment behind whole
  rw [whole] at same starts ends
  obtain ⟨⟨earlier, first, _⟩, later, last⟩ := isolated (front ++ before) fragment (behind ++ back)
    (by rw [same]; simp)
  have opens : ∀ g ∈ before.head?, g ≠ .char '\n' := by
    intro g here
    refine starts g ?_
    rw [List.head?_append, Option.mem_def.1 here]
    rfl
  have closes : ∀ g ∈ behind.reverse.head?, g ≠ .char '\n' := by
    intro g here
    refine ends g ?_
    rw [List.reverse_append, List.reverse_cons, List.append_assoc, List.head?_append,
      Option.mem_def.1 here]
    rfl
  have after : gap <:+ back.reverse ++ behind.reverse :=
    ⟨later.reverse, by rw [← List.reverse_append, ← last]; simp [gap]⟩
  refine ⟨gap_suffix_of_append opens ⟨earlier, first.symm⟩, ?_⟩
  rcases gap_suffix_of_append closes after with nothing | ⟨more, turned⟩
  · exact .inl (List.reverse_eq_nil_iff.1 nothing)
  · refine .inr ⟨more.reverse, ?_⟩
    rw [← List.reverse_reverse behind, ← turned]
    simp [gap]

/-- A key in the pieces comes right behind a match, if not first, and right before one, if not last.
Inside a line it does not come first. -/
def Parted (inside : Bool) (pieces : List (Piece Seal Empty)) : Prop :=
  ∀ early fragment late, pieces = early ++ .plain (.sealed (.key fragment)) :: late →
    (early = [] → inside = false) ∧ (∀ piece ∈ early.getLast?, ∃ f, piece = .found f) ∧
      ∀ piece ∈ late.head?, ∃ f, piece = .found f

/-- Between matches there are keys on their own and parts without keys. -/
theorem Parted.alone {inside : Bool} {pieces : List (Piece Seal Empty)}
    (parted : Parted inside pieces) :
    ∃ first others, pieces.foldr Piece.splitOff [[]] = first :: others ∧ Alone first ∧
      (inside = true → WithoutKeys first) ∧ ∀ part ∈ others, Alone part := by
  have nothing : WithoutKeys [] := fun _ => List.not_mem_nil
  induction pieces generalizing inside with
  | nil => exact ⟨[], [], rfl, .inl nothing, fun _ => nothing, by simp⟩
  | cons piece pieces ih =>
    cases piece with
    | found f =>
      have later : Parted false pieces := by
        intro early fragment late whole
        obtain ⟨_, last, next⟩ := parted (.found f :: early) fragment late (by rw [whole]; rfl)
        refine ⟨fun _ => rfl, fun piece here => last piece ?_, next⟩
        rw [List.getLast?_cons, show early.getLast? = some piece from here]
        rfl
      obtain ⟨first, others, same, here, _, rest⟩ := ih later
      refine ⟨[], first :: others, by rw [List.foldr_cons, same]; rfl, .inl nothing,
        fun _ => nothing, List.forall_mem_cons.2 ⟨here, rest⟩⟩
    | plain g =>
      have later : Parted true pieces := by
        intro early fragment late whole
        obtain ⟨_, last, next⟩ := parted (.plain g :: early) fragment late (by rw [whole]; rfl)
        refine ⟨?_, fun piece here => last piece ?_, next⟩
        · rintro rfl
          obtain ⟨f, impossible⟩ := last (.plain g) rfl
          cases impossible
        · rw [List.getLast?_cons, show early.getLast? = some piece from here]
          rfl
      obtain ⟨first, others, same, _, without, rest⟩ := ih later
      refine ⟨g :: first, others, by rw [List.foldr_cons, same]; rfl, ?_⟩
      by_cases key : ∃ fragment, g = .sealed (.key fragment)
      · obtain ⟨fragment, rfl⟩ := key
        obtain ⟨start, _, next⟩ := parted [] fragment pieces rfl
        obtain rfl : first = [] := by
          match pieces, next, same with
          | [], _, same => exact (List.cons.inj same).1.symm
          | .found f :: _, _, same => exact (List.cons.inj same).1.symm
          | .plain h :: _, next, _ =>
            obtain ⟨f, impossible⟩ := next (.plain h) rfl
            cases impossible
        refine ⟨.inr ⟨fragment, rfl⟩, fun within => ?_, rest⟩
        rw [start rfl] at within
        cases within
      · have plain : WithoutKeys (g :: first) := fun fragment member =>
          (List.mem_cons.1 member).elim (fun same => key ⟨fragment, same.symm⟩) (without rfl fragment)
        exact ⟨.inl plain, fun _ => plain, rest⟩

section BlankLines

open Block

variable {behind rest : Sheet} {captures : List (Empty × Sheet)}

theorem spots_blankLines_gap :
    blankLines.spots Seal.lead ⟨behind, gap ++ rest, captures⟩ ≠ [] := by
  let middle : Spot Seal Empty := ⟨.char '\n' :: behind, .char '\n' :: rest, captures⟩
  have first : middle ∈ (Pattern.char '\n').spots Seal.lead ⟨behind, gap ++ rest, captures⟩ :=
    List.mem_singleton_self middle
  have line : (blankLine.rounds1).spots Seal.lead middle ≠ [] := by
    rw [Pattern.rounds1, spots, spots_blankLine_newline, List.flatMap_singleton]
    exact spotRepetitions_ne_nil _ _ _
  obtain ⟨last, member⟩ := List.exists_mem_of_ne_nil _ line
  exact List.ne_nil_of_mem (List.mem_flatMap.2 ⟨middle, first, member⟩)

/-- Blank lines are found as a whole: no newline stands right behind them. -/
theorem ne_newline_behind_blankLines {spot : Spot Seal Empty}
    (first : (blankLines.spots Seal.lead spot).head? = some ⟨behind, .char '\n' :: rest, captures⟩) :
    False := by
  rw [blankLines, head?_spots_seq] at first
  obtain ⟨second, _, first⟩ := List.exists_of_findSome?_eq_some first
  rw [Pattern.rounds1, head?_spots_seq] at first
  obtain ⟨third, _, first⟩ := List.exists_of_findSome?_eq_some first
  have none := spots_eq_nil_of_head?_rounds advances_blankLine first
  rw [spots_blankLine_newline] at none
  cases none

/-- The search for blank lines cuts them off on both sides of a key. -/
theorem Spaced.parted (spaced : Spaced sheet) :
    Parted false (blankLines.pieces Seal.lead sheet) := by
  intro early fragment late whole
  have glyphs := blankLines.flatMap_glyphs_pieces Seal.lead sheet
  rw [whole, List.flatMap_append, List.flatMap_cons] at glyphs
  obtain ⟨before, after⟩ := spaced _ fragment _ glyphs.symm
  rw [pieces_eq_piecesAhead] at whole
  have ahead : ∀ {here : Spot Seal Empty} {pieces},
      blankLines.piecesAhead Seal.lead here = pieces → here.ahead = pieces.flatMap Piece.glyphs :=
    fun same => by rw [← same, piecesAhead, flatMap_glyphs_piecesFrom]
  -- No newline of a blank line in front of a key is outside a match.
  have nowhere : ∀ {early g late tail}, blankLines.piecesAhead Seal.lead (.first sheet) =
      early ++ .plain g :: late → (.plain g :: late).flatMap Piece.glyphs = gap ++ tail → False := by
    intro early g late tail split front
    obtain ⟨here, _, found⟩ := piecesAhead_eq_append advances_blankLines split
    obtain ⟨_, _, none, _⟩ := piecesAhead_eq_plain found
    have same := (ahead found).trans front
    rw [Spot.fresh, same] at none
    exact spots_blankLines_gap none
  refine ⟨fun _ => rfl, fun piece last => ?_, fun piece next => ?_⟩
  · cases piece with
    | found f => exact ⟨f, rfl⟩
    | plain g =>
      obtain ⟨less, rfl⟩ := List.getLast?_eq_some_iff.1 last
      rw [List.flatMap_append] at before
      rcases before with impossible | ⟨front, line⟩
      · simp [Piece.glyphs] at impossible
      have ends : front ++ [Glyph.char '\n'] ++ [Glyph.char '\n'] = less.flatMap Piece.glyphs ++ [g] := by
        simpa [gap, Piece.glyphs] using line
      obtain ⟨begins, rfl⟩ := List.append_inj' ends rfl |>.imp_right List.singleton_inj.1
      rcases List.eq_nil_or_concat less with rfl | ⟨fewer, piece, rfl⟩
      · simp at begins
      rw [List.concat_eq_append, List.append_assoc, List.append_assoc] at whole
      cases piece with
      | plain h =>
        have same : front ++ [Glyph.char '\n'] = fewer.flatMap Piece.glyphs ++ [h] := by
          simpa [Piece.glyphs] using begins
        obtain ⟨_, rfl⟩ := List.append_inj' same rfl |>.imp_right List.singleton_inj.1
        exact (nowhere whole rfl).elim
      | found f =>
        obtain ⟨here, _, found⟩ := piecesAhead_eq_append advances_blankLines whole
        obtain ⟨_, first, further⟩ := piecesAhead_eq_found advances_blankLines found
        have stop : f.stop = ⟨f.stop.behind, f.stop.ahead, f.stop.captures⟩ := rfl
        rw [stop, ahead further] at first
        exact (ne_newline_behind_blankLines first).elim
  · cases piece with
    | found f => exact ⟨f, rfl⟩
    | plain g =>
      obtain ⟨more, rfl⟩ := List.head?_eq_some_iff.1 next
      rcases after with impossible | ⟨tail, front⟩
      · cases impossible
      · rw [← List.singleton_append, ← List.append_assoc] at whole
        exact (nowhere whole front.symm).elim

end BlankLines

theorem trimSpace_key (fragment : Sheet) :
    Sheet.trimSpace [.sealed (.key fragment)] = [.sealed (.key fragment)] := by
  have refused : (Glyph.sealed (Seal.key fragment)).fits Seal.lead Unicode.isSpace = false := by
    rw [Glyph.fits]
    exact Unicode.isSpace_of_isPrivate (Renaming.same.quiet.lead (.key fragment))
  have kept : [Glyph.sealed (Seal.key fragment)].dropWhile
      (fun g => g.fits Seal.lead Unicode.isSpace) = [.sealed (.key fragment)] :=
    List.dropWhile_cons_of_neg (Bool.eq_false_iff.1 refused)
  rw [Sheet.trimSpace, Sheet.trim, Sheet.trimStart, kept, Sheet.trimEnd, List.reverse_singleton,
    kept, List.reverse_singleton]

theorem trimSpace_subset (sheet : Sheet) : Sheet.trimSpace sheet ⊆ sheet :=
  fun _ member => (List.dropWhile_suffix _).subset
    (List.mem_reverse.1 ((List.dropWhile_suffix _).subset (List.mem_reverse.1 member)))

theorem nested_intercalate {blocks : List Sheet} (all : ∀ block ∈ blocks, Nested block) :
    Nested (gap.intercalate blocks) := by
  have blank : Nested gap := .of_keyless (made_chars (by decide))
  induction blocks with
  | nil => exact .of_keyless .nil
  | cons block blocks ih =>
    obtain ⟨here, later⟩ := List.forall_mem_cons.1 all
    cases blocks with
    | nil => simpa using here
    | cons next blocks =>
      rw [List.intercalate_cons_cons, List.append_assoc]
      exact here.append (blank.append (ih later))

section Paragraphs

variable {table : Sheet.Table} (targets : TargetsOf Keyless table)
include targets

/-- A piece comes to the block under its key or to a paragraph without blocks in it. -/
theorem nested_paragraph? {part block : Sheet} (clean : Clean Nested part) (alone : Alone part)
    (here : Sheet.paragraph? table part = some block) : Nested block := by
  rw [Sheet.paragraph?] at here
  split at here
  · cases here
  · next fragment trimmed =>
    obtain rfl := Option.some.inj here
    cases clean _ (trimSpace_subset part (trimmed ▸ List.mem_singleton_self _)) with
    | sealed hidden =>
      cases hidden with
      | key nested => exact nested
  · next filled other =>
    obtain rfl := Option.some.inj here
    rcases alone with without | ⟨fragment, rfl⟩
    · exact @nested_leaf _ "p".toList (by decide) (made_inline targets (clean.keyless without))
    · exact absurd (trimSpace_key fragment) (other fragment)

theorem exists_nest_paragraphs (laid : Laid false sheet) :
    ∃ w, finished.Weighs (Sheet.paragraphs table sheet) w ∧ Nest .blocks w := by
  refine nested_intercalate fun block member => ?_
  obtain ⟨part, cut, here⟩ := List.mem_filterMap.1 member
  have clean : Clean Nested part := by
    refine laid.clean.part fun g inside => ?_
    have within := mem_of_plain_mem_pieces (Renaming.Prints.plain_mem_of_mem_splitOff cut inside)
    exact (List.dropWhile_suffix _).subset
      (List.mem_reverse.1 ((List.dropWhile_suffix _).subset (List.mem_reverse.1 within)))
  obtain ⟨first, others, same, alone, _, rest⟩ := laid.isolated.spaced.parted.alone
  refine nested_paragraph? targets clean ?_ here
  rw [Pattern.divide, same] at cut
  exact (List.mem_cons.1 cut).elim (fun first => first ▸ alone) (rest part)

end Paragraphs

end Markdown.Structure
