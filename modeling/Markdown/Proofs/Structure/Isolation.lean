import Markdown.Proofs.Sheet.Lines

set_option autoImplicit false

namespace Markdown

namespace Recasts

variable {slot : Type} {allowed : Find Seal slot → Sheet → Prop} {pieces : List (Piece Seal slot)}
  {result : Sheet}

theorem of_append {early late : List (Piece Seal slot)}
    (recasts : Recasts allowed (early ++ late) result) :
    ∃ first last, result = first ++ last ∧ Recasts allowed early first ∧ Recasts allowed late last := by
  induction early generalizing result with
  | nil => exact ⟨[], result, rfl, .nil, recasts⟩
  | cons piece early ih =>
    cases recasts with
    | plain g later =>
      obtain ⟨first, last, rfl, front, back⟩ := ih later
      exact ⟨g :: first, last, rfl, .plain g front, back⟩
    | @found f part _ _ here later =>
      obtain ⟨first, last, rfl, front, back⟩ := ih later
      exact ⟨part ++ first, last, (List.append_assoc _ _ _).symm, .found here front, back⟩

theorem of_concat_plain {early : List (Piece Seal slot)} {g : Glyph Seal}
    (recasts : Recasts allowed (early ++ [.plain g]) result) :
    ∃ left, result = left ++ [g] ∧ Recasts allowed early left := by
  obtain ⟨left, _, rfl, earlier, last⟩ := recasts.of_append
  cases last with
  | plain _ none =>
    cases none with
    | nil => exact ⟨left, rfl, earlier⟩

theorem of_concat_found {early : List (Piece Seal slot)} {f : Find Seal slot}
    (recasts : Recasts allowed (early ++ [.found f]) result) :
    ∃ left part, result = left ++ part ∧ Recasts allowed early left ∧ allowed f part := by
  obtain ⟨left, _, rfl, earlier, last⟩ := recasts.of_append
  cases last with
  | @found _ part _ _ here none =>
    cases none with
    | nil => exact ⟨left, part, congrArg _ (List.append_nil _), earlier, here⟩

/-- Where a glyph of a recast sheet comes from: it was there before, or it came with what replaced a
match. -/
inductive Origin (allowed : Find Seal slot → Sheet → Prop) (pieces : List (Piece Seal slot))
    (g : Glyph Seal) (before behind : Sheet) : Prop where
  | plain {early late : List (Piece Seal slot)} (whole : pieces = early ++ .plain g :: late)
    (first : Recasts allowed early before) (last : Recasts allowed late behind)
  | found {early late : List (Piece Seal slot)} {f : Find Seal slot} {front back left right : Sheet}
    (whole : pieces = early ++ .found f :: late) (here : allowed f (front ++ g :: back))
    (before_eq : before = left ++ front) (behind_eq : behind = back ++ right)
    (first : Recasts allowed early left) (last : Recasts allowed late right)

theorem origin {g : Glyph Seal} {before behind : Sheet}
    (recasts : Recasts allowed pieces (before ++ g :: behind)) :
    Origin allowed pieces g before behind := by
  generalize whole : before ++ g :: behind = sheet at recasts
  induction recasts generalizing before with
  | nil => exact absurd whole (by simp)
  | @plain h pieces sheet later ih =>
    cases before with
    | nil =>
      obtain ⟨rfl, rfl⟩ := List.cons.inj whole
      exact .plain rfl .nil later
    | cons h before =>
      obtain ⟨rfl, rest⟩ := List.cons.inj whole
      cases ih rest with
      | plain whole first last => exact .plain (congrArg _ whole) (.plain _ first) last
      | found whole here before_eq behind_eq first last =>
        exact .found (congrArg _ whole) here (congrArg _ before_eq) behind_eq (.plain _ first) last
  | @found f part pieces sheet here later ih =>
    rcases List.append_eq_append_iff.1 whole with ⟨front, inside, rest⟩ | ⟨front, rfl, rest⟩
    · cases front with
      | nil =>
        obtain rfl := rest
        rw [List.append_nil] at inside
        have next := @ih [] rfl
        cases next with
        | @plain early late whole first last =>
          refine Origin.plain (show _ = (.found f :: early) ++ .plain g :: late by rw [whole]; rfl) ?_
            last
          rw [← inside, ← List.append_nil part]
          exact .found here first
        | found whole at_ before_eq behind_eq first last =>
          refine .found (congrArg _ whole) at_ ?_ behind_eq (.found here first) last
          rw [List.append_assoc, ← before_eq, List.append_nil, inside]
      | cons h front =>
        obtain ⟨rfl, rfl⟩ := List.cons.inj rest
        rw [inside] at here
        exact .found rfl here rfl rfl .nil later
    · cases ih rest.symm with
      | plain whole first last => exact .plain (congrArg _ whole) (.found here first) last
      | found whole at_ before_eq behind_eq first last =>
        refine .found (congrArg _ whole) at_ ?_ behind_eq (.found here first) last
        rw [before_eq, List.append_assoc]

end Recasts

namespace Structure

def gap : Sheet := Glyph.chars "\n\n".toList

/-- There is nothing, or a newline or a key stands at the end. -/
def Breaks (sheet : Sheet) : Prop :=
  ∀ g ∈ sheet.getLast?, g = .char '\n' ∨ ∃ fragment, g = .sealed (.key fragment)

/-- Every key stands between blank lines. Strictly, no line ends right before these. -/
def Isolated (strict : Bool) (sheet : Sheet) : Prop :=
  ∀ before fragment behind, sheet = before ++ Glyph.sealed (.key fragment) :: behind →
    (∃ front, before = front ++ gap ∧ (strict = true → Breaks front)) ∧ gap <+: behind

def WithoutKeys (sheet : Sheet) : Prop :=
  ∀ fragment, Glyph.sealed (.key fragment) ∉ sheet

theorem WithoutKeys.isolated {sheet : Sheet} (without : WithoutKeys sheet) (strict : Bool) :
    Isolated strict sheet := by
  rintro before fragment behind rfl
  exact absurd (List.mem_append_right _ List.mem_cons_self) (without fragment)

theorem Isolated.relax {strict : Bool} {sheet : Sheet} (isolated : Isolated strict sheet) :
    Isolated false sheet := by
  intro before fragment behind whole
  obtain ⟨⟨front, same, _⟩, after⟩ := isolated before fragment behind whole
  exact ⟨⟨front, same, nofun⟩, after⟩

/-- The block of a key holds no other. -/
theorem eq_gap_of_keyBlock {other front fragment back : Sheet}
    (block : Sheet.keyBlock other = front ++ Glyph.sealed (.key fragment) :: back) :
    front = gap ∧ back = gap := by
  change [.char '\n', .char '\n', .sealed (.key other), .char '\n', .char '\n'] =
    front ++ Glyph.sealed (.key fragment) :: back at block
  rcases front with _ | ⟨g, _ | ⟨h, _ | ⟨i, _ | ⟨j, _ | ⟨k, front⟩⟩⟩⟩⟩
  · simp at block
  · simp at block
  · obtain ⟨rfl, first⟩ := List.cons.inj block
    obtain ⟨rfl, key⟩ := List.cons.inj first
    exact ⟨rfl, (List.cons.inj key).2.symm⟩
  · simp at block
  · simp at block
  · simp at block

section Recasts

variable {slot : Type} {allowed : Find Seal slot → Sheet → Prop} {pieces : List (Piece Seal slot)}
  {result : Sheet} (blocks : ∀ f part, allowed f part → ∃ fragment, part = Sheet.keyBlock fragment)
include blocks

theorem breaks_recasts (recasts : Recasts allowed pieces result)
    (breaks : Breaks (pieces.flatMap Piece.glyphs)) : Breaks result := by
  rcases List.eq_nil_or_concat pieces with rfl | ⟨early, piece, rfl⟩
  · cases recasts with
    | nil => exact breaks
  · rw [List.concat_eq_append] at breaks recasts
    cases piece with
    | plain g =>
      obtain ⟨left, rfl, -⟩ := recasts.of_concat_plain
      simpa [Breaks, Piece.glyphs] using breaks
    | found f =>
      obtain ⟨left, part, rfl, -, here⟩ := recasts.of_concat_found
      obtain ⟨fragment, rfl⟩ := blocks _ _ here
      simp [Breaks, Sheet.keyBlock]

/-- What ended in a blank line still does. -/
theorem gap_recasts {strict : Bool} {front : Sheet} (recasts : Recasts allowed pieces result)
    (whole : pieces.flatMap Piece.glyphs = front ++ gap) (breaks : strict = true → Breaks front) :
    ∃ front, result = front ++ gap ∧ (strict = true → Breaks front) := by
  rcases List.eq_nil_or_concat pieces with rfl | ⟨early, piece, rfl⟩
  · simp [gap] at whole
  rw [List.concat_eq_append] at recasts whole
  cases piece with
  | found f =>
    obtain ⟨first, part, rfl, -, here⟩ := recasts.of_concat_found
    obtain ⟨fragment, rfl⟩ := blocks _ _ here
    refine ⟨first ++ gap ++ [Glyph.sealed (.key fragment)], by simp [Sheet.keyBlock, gap], fun _ => ?_⟩
    simp [Breaks]
  | plain g =>
    obtain ⟨first, rfl, begun⟩ := recasts.of_concat_plain
    have ends : early.flatMap Piece.glyphs ++ [g] = front ++ [Glyph.char '\n'] ++ [Glyph.char '\n'] := by
      simpa [Piece.glyphs, gap] using whole
    obtain ⟨before, rfl⟩ := List.append_inj' ends rfl |>.imp_right List.singleton_inj.1
    -- One of the two newlines stays as it is; the other may end a match.
    rcases List.eq_nil_or_concat early with rfl | ⟨less, piece, rfl⟩
    · simp at before
    rw [List.concat_eq_append] at begun before
    cases piece with
    | found f =>
      obtain ⟨second, part, rfl, -, here⟩ := begun.of_concat_found
      obtain ⟨fragment, rfl⟩ := blocks _ _ here
      refine ⟨second ++ gap ++ [.sealed (.key fragment), .char '\n'],
        by simp [Sheet.keyBlock, gap], fun _ => ?_⟩
      simp [Breaks]
    | plain h =>
      obtain ⟨second, rfl, start⟩ := begun.of_concat_plain
      have ends : less.flatMap Piece.glyphs ++ [h] = front ++ [Glyph.char '\n'] := by
        simpa [Piece.glyphs] using before
      obtain ⟨rfl, rfl⟩ := List.append_inj' ends rfl |>.imp_right List.singleton_inj.1
      exact ⟨second, by simp [gap], fun strictly => breaks_recasts blocks start (breaks strictly)⟩

/-- What begins with a blank line still does. -/
theorem gap_prefix_recasts (recasts : Recasts allowed pieces result)
    (front : gap <+: pieces.flatMap Piece.glyphs) : gap <+: result := by
  obtain ⟨rest, whole⟩ := front
  cases recasts with
  | nil => simp [gap] at whole
  | found here later =>
    obtain ⟨fragment, rfl⟩ := blocks _ _ here
    rw [Sheet.keyBlock, List.append_assoc, List.append_assoc]
    exact List.prefix_append _ _
  | plain g later =>
    obtain ⟨rfl, tail⟩ := List.cons.inj whole
    cases later with
    | nil => simp at tail
    | found here later =>
      obtain ⟨fragment, rfl⟩ := blocks _ _ here
      exact ⟨_, rfl⟩
    | plain h later =>
      obtain ⟨rfl, _⟩ := List.cons.inj tail
      exact ⟨_, rfl⟩

/-- A pass that puts blocks aside leaves every key between blank lines. -/
theorem Isolated.recasts {strict : Bool} (isolated : Isolated strict (pieces.flatMap Piece.glyphs))
    (recasts : Recasts allowed pieces result)
    (starts : strict = true → ∀ early f late, pieces = early ++ .found f :: late →
      Breaks (early.flatMap Piece.glyphs)) : Isolated strict result := by
  rintro before fragment behind rfl
  cases recasts.origin with
  | @plain early late whole first last =>
    obtain ⟨⟨front, same, breaks⟩, after⟩ := isolated (early.flatMap Piece.glyphs) fragment
      (late.flatMap Piece.glyphs) (by rw [whole]; simp [Piece.glyphs])
    exact ⟨gap_recasts blocks first same breaks, gap_prefix_recasts blocks last after⟩
  | @found early late f front back left right whole here before_eq behind_eq first last =>
    obtain ⟨other, block⟩ := blocks _ _ here
    obtain ⟨rfl, rfl⟩ := eq_gap_of_keyBlock block.symm
    rw [before_eq, behind_eq]
    exact ⟨⟨left, rfl, fun strictly => breaks_recasts blocks first (starts strictly _ _ _ whole)⟩,
      List.prefix_append _ _⟩

end Recasts

end Structure

end Markdown
