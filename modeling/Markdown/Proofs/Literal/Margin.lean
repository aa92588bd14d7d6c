import Markdown.Proofs.Literal.Block
import Markdown.Proofs.Structure.Document

set_option autoImplicit false

namespace Markdown

open Pattern

namespace Structure

/-- Every key stands between blank lines, with the end of a line before them. -/
def SetOff (sheet : Sheet) : Prop :=
  ∀ before fragment behind, sheet = before ++ Glyph.sealed (.key fragment) :: behind →
    (∃ front, before = front ++ gap ∧ Sheet.StartsLine front.reverse) ∧ gap <+: behind

theorem SetOff.isolated {sheet : Sheet} (setOff : SetOff sheet) : Isolated true sheet := by
  intro before fragment behind whole
  obtain ⟨⟨front, same, starts⟩, after⟩ := setOff before fragment behind whole
  exact ⟨⟨front, same, fun _ g last => .inl (starts g (List.head?_reverse ▸ last))⟩, after⟩

section Pieces

variable {slot : Type} {allowed : Find Seal slot → Sheet → Prop} {pieces : List (Piece Seal slot)}

/-- A line that starts behind matches still starts behind what has taken their places, if they stand
at the starts of lines and what takes their places ends lines. -/
theorem startsLine_recasts {result : Sheet} (recasts : Recasts allowed pieces result)
    (ends : ∀ f part, allowed f part → ∀ g ∈ part.getLast?, g = .char '\n')
    (begins : ∀ early f late, pieces = early ++ .found f :: late →
      Sheet.StartsLine (early.flatMap Piece.glyphs).reverse)
    (starts : Sheet.StartsLine (pieces.flatMap Piece.glyphs).reverse) :
    Sheet.StartsLine result.reverse := by
  induction pieces using List.reverseRecOn generalizing result with
  | nil =>
    cases recasts with
    | nil => exact starts
  | append_singleton early piece ih =>
    cases piece with
    | plain g =>
      obtain ⟨first, rfl, -⟩ := recasts.of_concat_plain
      simpa [Sheet.StartsLine, Piece.glyphs] using starts
    | found f =>
      obtain ⟨first, part, rfl, front, here⟩ := recasts.of_concat_found
      rcases List.eq_nil_or_concat part with rfl | ⟨more, g, rfl⟩
      · rw [List.append_nil]
        refine ih front (fun less h most same => ?_) (begins early f [] rfl)
        exact begins less h (most ++ [.found f]) (by rw [same]; simp)
      · obtain rfl := ends f _ here g (by simp)
        simp [Sheet.StartsLine]

/-- A glyph that is no newline stands at the end, or only one newline is behind it. -/
def EndsText (glyphs : Sheet) : Prop :=
  ∃ front g, g ≠ .char '\n' ∧ (glyphs = front ++ [g] ∨ glyphs = front ++ [g, .char '\n'])

/-- A newline behind the end of a line is in no match that ends a line. -/
theorem exists_eq_append_newline {before : Sheet} (ends : ∀ f, .found f ∈ pieces → EndsText f.glyphs)
    (whole : pieces.flatMap Piece.glyphs = before ++ [Glyph.char '\n'])
    (starts : Sheet.StartsLine before.reverse) :
    ∃ early, pieces = early ++ [.plain (.char '\n')] ∧ early.flatMap Piece.glyphs = before := by
  rcases List.eq_nil_or_concat pieces with rfl | ⟨early, piece, rfl⟩
  · simp at whole
  rw [List.concat_eq_append] at ends whole ⊢
  rw [List.flatMap_append, List.flatMap_singleton] at whole
  cases piece with
  | plain g =>
    obtain ⟨rfl, same⟩ := List.append_inj' whole rfl
    obtain rfl := List.singleton_inj.1 same
    exact ⟨early, rfl, rfl⟩
  | found f =>
    obtain ⟨front, g, inked, last | last⟩ := ends f (by simp)
    · rw [Piece.glyphs, last, ← List.append_assoc] at whole
      exact absurd (List.singleton_inj.1 (List.append_inj' whole rfl).2) inked
    · rw [Piece.glyphs, last, ← List.singleton_append, ← List.append_assoc,
        ← List.append_assoc] at whole
      obtain ⟨rfl, -⟩ := List.append_inj' whole rfl
      exact absurd (starts g (by simp)) inked

/-- A blank line in front of matches that begin with no newline is in none of them. -/
theorem gap_prefix_of_plain {result : Sheet} (recasts : Recasts allowed pieces result)
    (begins : ∀ f, .found f ∈ pieces → ∃ g rest, f.glyphs = g :: rest ∧ g ≠ .char '\n')
    (front : gap <+: pieces.flatMap Piece.glyphs) : gap <+: result := by
  obtain ⟨rest, whole⟩ := front
  have inked : ∀ {f : Find Seal slot} {more : List (Piece Seal slot)} {tail : Sheet},
      .found f ∈ pieces → Glyph.char '\n' :: tail = (Piece.found f :: more).flatMap Piece.glyphs →
        False := by
    intro f more tail member same
    obtain ⟨g, others, first, inked⟩ := begins f member
    rw [List.flatMap_cons, Piece.glyphs, first] at same
    exact inked (List.cons.inj same).1.symm
  cases recasts with
  | nil => simp [gap] at whole
  | found here later => exact (inked List.mem_cons_self whole).elim
  | plain g later =>
    obtain ⟨rfl, tail⟩ := List.cons.inj whole
    cases later with
    | nil => simp at tail
    | found here later =>
      exact (inked (List.mem_cons_of_mem _ List.mem_cons_self) tail).elim
    | plain h later =>
      obtain ⟨rfl, _⟩ := List.cons.inj tail
      exact ⟨_, rfl⟩

end Pieces

variable {sheet : Sheet}

theorem setOff_htmlBlocks (without : WithoutKeys sheet) : SetOff (Sheet.htmlBlocks sheet) := by
  intro before fragment behind whole
  have recasts : Recasts (fun f part => part = Sheet.keyBlock (f.get .element))
      (Html.htmlBlock.pieces Seal.lead sheet) (Sheet.htmlBlocks sheet) := .of_recast fun _ _ => rfl
  have advances := (Html.regular_htmlBlock Renaming.same.quiet).advances
  have atLine : AtLine Html.htmlBlock := atLine_lineStart _
  rw [whole] at recasts
  cases recasts.origin with
  | plain split first last =>
    have plain : .plain (.sealed (.key fragment)) ∈ Html.htmlBlock.pieces Seal.lead sheet := by
      rw [split]
      simp
    exact absurd (mem_of_plain_mem_pieces plain) (without fragment)
  | @found early late f front back left right split here before_eq behind_eq first last =>
    obtain ⟨rfl, rfl⟩ := eq_gap_of_keyBlock here.symm
    rw [before_eq, behind_eq]
    refine ⟨⟨left, rfl, startsLine_recasts first ?_ ?_ (atLine.startsLine advances split)⟩,
      List.prefix_append _ _⟩
    · rintro f _ rfl g last
      simpa [Sheet.keyBlock] using last.symm
    · intro less h more same
      exact @AtLine.startsLine sheet _ _ _ h atLine advances less (more ++ .found f :: late)
        (by rw [split, same]; simp)

theorem begins_definitionLine : Definition.definitionLine.Takes Seal.lead fun passed =>
    ∃ g rest, passed = g :: rest ∧ g ≠ .char '\n' := by
  have shallow : Definition.definition.Takes Seal.lead (Sheet.Shallow (· == '[')) :=
    .afterPlace _ (.shallow (takes_upTo rfl (fun _ => id) 3) ((begins_char rfl rfl).begins _))
  refine shallow.seq (takes_any _) ?_
  intro passed more here _
  obtain ⟨c, rest, same, opens⟩ := (here.append more).marked.begins
  refine ⟨.char c, rest, same, ?_⟩
  rintro impossible
  rw [Glyph.char.inj impossible] at opens
  cases opens

/-- The last glyph is no newline. -/
def Inked (glyphs : Sheet) : Prop :=
  ∃ front g, glyphs = front ++ [g] ∧ g ≠ .char '\n'

/-- There is nothing, or the last glyph is no newline. -/
abbrev NoneOrInked (glyphs : Sheet) : Prop :=
  glyphs = [] ∨ Inked glyphs

section Inked

variable {slot : Type} [DecidableEq slot] {first second : Pattern slot}

theorem inked_behind (first : Pattern slot) (takes : second.Takes Seal.lead Inked) :
    (first.seq second).Takes Seal.lead Inked := by
  refine (takes_any first).seq takes ?_
  rintro passed _ _ ⟨front, g, rfl, inked⟩
  exact ⟨passed ++ front, g, by simp, inked⟩

theorem inked_before (takes : first.Takes Seal.lead Inked)
    (later : second.Takes Seal.lead NoneOrInked) : (first.seq second).Takes Seal.lead Inked := by
  refine takes.seq later ?_
  rintro passed _ inked (rfl | ⟨front, g, rfl, other⟩)
  · rwa [List.append_nil]
  · exact ⟨passed ++ front, g, by simp, other⟩

theorem inked_char {c : Char} (plain : Unicode.isPrivate c = false) (inked : c ≠ '\n') :
    (Pattern.char c : Pattern slot).Takes Seal.lead Inked :=
  (takes_char plain).mono fun _ same => ⟨[], .char c, same, fun here => inked (Glyph.char.inj here)⟩

theorem takes_optional {shape : Sheet → Prop} (takes : first.Takes Seal.lead shape) :
    (Pattern.optional first).Takes Seal.lead fun passed => passed = [] ∨ shape passed :=
  (takes.mono fun _ => .inr).either fun _ _ member =>
    ⟨[], List.mem_singleton.1 member ▸ .nothing _, .inl rfl⟩

theorem inked_of_only (only : first.Only Seal.lead (· ≠ .char '\n')) :
    first.Takes Seal.lead NoneOrInked := by
  refine Takes.mono only fun passed each => ?_
  rcases List.eq_nil_or_concat passed with none | ⟨front, g, rfl⟩
  · exact .inl none
  · exact .inr ⟨front, g, List.concat_eq_append, each g (by simp)⟩

theorem inked_seq (takes : first.Takes Seal.lead NoneOrInked)
    (later : second.Takes Seal.lead NoneOrInked) : (first.seq second).Takes Seal.lead NoneOrInked := by
  refine takes.seq later ?_
  rintro passed _ inked (rfl | ⟨front, g, rfl, other⟩)
  · rwa [List.append_nil]
  · exact .inr ⟨passed ++ front, g, by simp, other⟩

end Inked

theorem inked_title : Definition.title.Takes Seal.lead Inked := by
  have between : ∀ opening closing, Unicode.isPrivate closing = false → closing ≠ '\n' →
      (Definition.titleBetween opening closing).Takes Seal.lead Inked :=
    fun _ _ plain inked => inked_behind _ (inked_behind _ (inked_char plain inked))
  exact (between '"' '"' (by decide) (by decide)).either
    ((between '(' ')' (by decide) (by decide)).either (between '\'' '\'' (by decide) (by decide)))

/-- Behind the colon a definition goes on to the end of a line. -/
theorem inked_definition : Definition.definition.Takes Seal.lead Inked := by
  have outside : ∀ {accepts : Char → Bool}, accepts '\n' = false → ∀ g : Glyph Seal,
      g.fits Seal.lead accepts = true → g ≠ .char '\n' := by
    rintro accepts refused _ fits rfl
    exact absurd (fits.symm.trans refused) (by decide)
  have blanks : (Pattern.many Text.isBlank : Pattern Definition.Part).Takes Seal.lead NoneOrInked :=
    inked_of_only (.many (outside (by decide)))
  have url : (Pattern.capture .url (.few1 Pattern.notSpace) : Pattern Definition.Part).Takes
      Seal.lead NoneOrInked :=
    inked_of_only (Only.capture _ (Only.seq (.one (outside (by decide)))
      (.few (outside (by decide)))))
  have titled : (Pattern.optional (.seq Definition.titleGap (.capture .title Definition.title))).Takes
      Seal.lead NoneOrInked :=
    takes_optional (inked_behind _ (inked_title.capture _))
  have colon : (Pattern.literal "]:".toList : Pattern Definition.Part).Takes Seal.lead Inked :=
    (takes_literal (by decide)).mono fun _ same => ⟨[.char ']'], .char ':', same, nofun⟩
  have bracket : ∀ c, Unicode.isPrivate c = false → c ≠ '\n' →
      (Pattern.optional (.char c) : Pattern Definition.Part).Takes Seal.lead NoneOrInked :=
    fun _ plain inked => takes_optional (inked_char plain inked)
  have target := inked_seq blanks (inked_seq (bracket '<' (by decide) (by decide)) (inked_seq url
    (inked_seq (bracket '>' (by decide) (by decide)) (inked_seq titled (inked_seq blanks
      (inked_of_only (.place Cursor.atLineEnd)))))))
  exact inked_behind _ (inked_behind _ (inked_behind _ (inked_behind _ (inked_before colon target))))

theorem endsText_definitionLine : Definition.definitionLine.Takes Seal.lead EndsText := by
  have newline := takes_optional (@takes_char Definition.Part _ '\n' (by decide))
  refine inked_definition.seq newline ?_
  rintro _ _ ⟨front, g, rfl, inked⟩ (rfl | rfl)
  · exact ⟨front, g, inked, .inl (by simp)⟩
  · exact ⟨front, g, inked, .inr (by simp)⟩

/-- Definitions are lines of their own, so without them the keys are set off as before. -/
theorem SetOff.withoutDefinitions (setOff : SetOff sheet) :
    SetOff (Sheet.withoutDefinitions sheet) := by
  intro before fragment behind whole
  have advances := (Renaming.regular_definitionLine Renaming.same).advances
  have atLine : AtLine Definition.definitionLine := (atLine_lineStart _).seq _
  have recasts : Recasts (fun _ part => part = [])
      (Definition.definitionLine.pieces Seal.lead sheet) (Sheet.withoutDefinitions sheet) :=
    .of_recast fun _ _ => rfl
  rw [whole] at recasts
  cases recasts.origin with
  | found split here => exact absurd here (by simp)
  | @plain early late split first last =>
    have finds : ∀ f, .found f ∈ early ++ .plain (.sealed (.key fragment)) :: late →
        Definition.definitionLine.Finds Seal.lead sheet f :=
      fun f member => finds_of_mem_pieces (split ▸ member)
    obtain ⟨⟨front, same, starts⟩, after⟩ := setOff (early.flatMap Piece.glyphs) fragment
      (late.flatMap Piece.glyphs)
      (by rw [← Definition.definitionLine.flatMap_glyphs_pieces Seal.lead sheet, split]
          simp [Piece.glyphs])
    have ends : ∀ f, .found f ∈ early → EndsText f.glyphs := fun f member =>
      endsText_definitionLine.glyphs (finds f (List.mem_append_left _ member))
    have opens : ∀ f, .found f ∈ late → ∃ g rest, f.glyphs = g :: rest ∧ g ≠ .char '\n' :=
      fun f member => begins_definitionLine.glyphs (finds f (by simp [member]))
    -- Neither newline of the blank line before the key belongs to a definition.
    obtain ⟨most, rfl, glyphs⟩ := @exists_eq_append_newline _ _ (front ++ [.char '\n']) ends
      (by rw [same]; simp [gap]) (by simp [Sheet.StartsLine])
    obtain ⟨less, rfl, rfl⟩ := exists_eq_append_newline
      (fun f member => ends f (List.mem_append_left _ member)) glyphs starts
    obtain ⟨lines, rfl, opening⟩ := first.of_concat_plain
    obtain ⟨left, rfl, earlier⟩ := opening.of_concat_plain
    refine ⟨⟨left, by simp [gap], startsLine_recasts earlier ?_ ?_ starts⟩,
      gap_prefix_of_plain last opens after⟩
    · rintro f _ rfl g last
      cases last
    · intro more f rest same
      rw [same] at split
      simp only [List.append_assoc, List.cons_append] at split
      exact atLine.startsLine advances split

theorem exists_of_encodeEscapes {before behind fragment : Sheet}
    (whole : Sheet.encodeEscapes sheet = before ++ Glyph.sealed (.key fragment) :: behind) :
    ∃ front back, sheet = front ++ Glyph.sealed (.key fragment) :: back ∧
      Sheet.encodeEscapes front = before ∧ Sheet.encodeEscapes back = behind := by
  fun_induction Sheet.encodeEscapes sheet generalizing before with
  | case1 c rest escapable ih =>
    cases before with
    | nil => cases whole
    | cons h before =>
      obtain ⟨rfl, rest⟩ := List.cons.inj whole
      obtain ⟨front, back, rfl, first, last⟩ := ih rest
      exact ⟨.char '\\' :: .char c :: front, back, rfl,
        by rw [Sheet.encodeEscapes, if_pos escapable, first], last⟩
  | case2 c rest plain ih =>
    cases before with
    | nil => cases whole
    | cons h before =>
      obtain ⟨rfl, later⟩ := List.cons.inj whole
      obtain ⟨front, back, same, first, last⟩ := ih later
      cases front with
      | nil => cases same
      | cons g front =>
        obtain ⟨rfl, rfl⟩ := List.cons.inj same
        exact ⟨.char '\\' :: .char c :: front, back, rfl,
          by rw [Sheet.encodeEscapes, if_neg plain, first], last⟩
  | case3 g rest other ih =>
    cases before with
    | nil =>
      obtain ⟨rfl, last⟩ := List.cons.inj whole
      exact ⟨[], rest, rfl, rfl, last⟩
    | cons h before =>
      obtain ⟨rfl, later⟩ := List.cons.inj whole
      obtain ⟨front, back, rfl, first, last⟩ := ih later
      refine ⟨g :: front, back, rfl, ?_, last⟩
      rw [Sheet.encodeEscapes, first]
      rintro c more rfl rfl
      exact other c _ rfl rfl
  | case4 => simp at whole

theorem SetOff.encodeEscapes (setOff : SetOff sheet) : SetOff (Sheet.encodeEscapes sheet) := by
  intro before fragment behind whole
  obtain ⟨front, back, rfl, rfl, rfl⟩ := exists_of_encodeEscapes whole
  obtain ⟨⟨first, rfl, starts⟩, rest, rfl⟩ := setOff _ _ _ rfl
  have blank : ∀ before after : Sheet, Sheet.encodeEscapes (before ++ (gap ++ after)) =
      Sheet.encodeEscapes before ++ (gap ++ Sheet.encodeEscapes after) := by
    intro before after
    rw [gap_append, gap_append, Sheet.encodeEscapes_newline]
    exact congrArg _ (congrArg _ (Sheet.encodeEscapes_newline [] after))
  have ahead := blank [] rest
  have behind := blank first []
  rw [List.append_nil] at behind
  refine ⟨⟨Sheet.encodeEscapes first, behind, ?_⟩, Sheet.encodeEscapes rest, ahead.symm⟩
  rcases List.eq_nil_or_concat first with rfl | ⟨less, g, rfl⟩
  · exact nofun
  · obtain rfl := starts g (by simp)
    rw [List.concat_eq_append, Sheet.encodeEscapes_newline]
    simp [Sheet.StartsLine, Sheet.encodeEscapes]

end Structure

end Markdown
