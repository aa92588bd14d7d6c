import Markdown.Proofs.Structure.Block

set_option autoImplicit false

namespace Markdown.Structure

open Pattern

/-- The sheet holds no keys but those of nested blocks, each between blank lines. -/
structure Laid (strict : Bool) (sheet : Sheet) : Prop where
  clean : Clean Nested sheet
  isolated : Isolated strict sheet

variable {strict : Bool} {sheet : Sheet}

theorem Clean.withoutKeys (clean : Clean Keyless sheet) : WithoutKeys sheet := by
  intro fragment member
  cases clean _ member with
  | sealed hidden =>
    cases hidden with
    | key impossible => exact impossible

theorem Clean.keyless {kept : Sheet → Prop} (clean : Clean kept sheet) (without : WithoutKeys sheet) :
    Clean Keyless sheet := by
  intro g member
  cases clean g member with
  | char plain => exact .char plain
  | sealed hidden =>
    cases hidden with
    | token plain => exact .sealed (.token plain)
    | marker side => exact .sealed (.marker side)
    | key _ => exact absurd member (without _)

theorem Clean.laid (clean : Clean Keyless sheet) (strict : Bool) : Laid strict sheet where
  clean g member := (clean g member).mono fun _ impossible => impossible.elim
  isolated := clean.withoutKeys.isolated strict

theorem Laid.relax (laid : Laid strict sheet) : Laid false sheet :=
  ⟨laid.clean, laid.isolated.relax⟩

theorem clean_keyBlock {fragment : Sheet} (nested : Nested fragment) :
    Clean Nested (Sheet.keyBlock fragment) :=
  ((clean_chars (by decide)).append (List.forall_mem_singleton.2 (.sealed (.key nested)))).append
    (clean_chars (by decide))

section Matches

variable {slot : Type} [DecidableEq slot] {pattern : Pattern slot} {f : Find Seal slot}

/-- What is captured in a match without keys. -/
theorem Laid.get {name : slot} (laid : Laid strict sheet)
    (frames : pattern.Frames Seal.lead name Sheet.Markup Sheet.Markup)
    (finds : pattern.Finds Seal.lead sheet f) (without : WithoutKeys f.glyphs) :
    Clean Keyless (f.get name) := by
  obtain ⟨front, back, same, _, _⟩ := frames.glyphs finds
  refine (laid.clean.part (finds.get_infix name).subset).keyless (without.part ?_)
  rw [same]
  exact fun g member => List.mem_append_left _ (List.mem_append_right _ member)

/-- Every match of the pattern begins a line. -/
def AtLine (pattern : Pattern slot) : Prop :=
  ∀ spot, ∀ later ∈ pattern.spots Seal.lead spot, Sheet.StartsLine spot.behind

theorem atLine_lineStart (body : Pattern slot) : AtLine (.seq .lineStart body) := by
  intro spot later member
  obtain ⟨middle, early, _⟩ := List.mem_flatMap.1 member
  obtain rfl := mem_spots_place early
  exact endsLine_lineStart middle middle early

theorem AtLine.seq (atLine : AtLine pattern) (second : Pattern slot) :
    AtLine (pattern.seq second) := by
  intro spot later member
  obtain ⟨middle, early, _⟩ := List.mem_flatMap.1 member
  exact atLine spot middle early

theorem AtLine.startsLine (atLine : AtLine pattern) (advances : pattern.Advances Seal.lead)
    {early late : List (Piece Seal slot)}
    (whole : pattern.pieces Seal.lead sheet = early ++ .found f :: late) :
    Sheet.StartsLine (early.flatMap Piece.glyphs).reverse := by
  rw [pieces_eq_piecesAhead] at whole
  obtain ⟨here, behind, found⟩ := piecesAhead_eq_append advances whole
  obtain ⟨_, first, _⟩ := piecesAhead_eq_found advances found
  have starts := atLine _ _ (List.mem_of_mem_head? first)
  rw [Spot.fresh, behind] at starts
  simpa [Spot.first] using starts

theorem AtLine.breaks (atLine : AtLine pattern) (advances : pattern.Advances Seal.lead)
    {early late : List (Piece Seal slot)}
    (whole : pattern.pieces Seal.lead sheet = early ++ .found f :: late) :
    Breaks (early.flatMap Piece.glyphs) :=
  fun g last => .inl (atLine.startsLine advances whole g (List.head?_reverse ▸ last))

/-- Blocks put aside are laid out as those before them. -/
theorem Laid.recasts {allowed : Find Seal slot → Sheet → Prop} {result : Sheet}
    (laid : Laid strict sheet) (recasts : Recasts allowed (pattern.pieces Seal.lead sheet) result)
    (blocks : ∀ f part, allowed f part → ∃ fragment, Nested fragment ∧ part = Sheet.keyBlock fragment)
    (starts : strict = true → AtLine pattern ∧ pattern.Advances Seal.lead) : Laid strict result where
  clean := by
    refine recasts.forall_mem (fun g member => laid.clean g (mem_of_plain_mem_pieces member)) ?_
    intro f part _ here g inside
    obtain ⟨fragment, nested, rfl⟩ := blocks f part here
    exact clean_keyBlock nested g inside
  isolated := by
    have whole := pattern.flatMap_glyphs_pieces Seal.lead sheet
    have isolated := laid.isolated
    rw [← whole] at isolated
    refine isolated.recasts (fun f part here => ?_) recasts fun strictly early f late split => ?_
    · obtain ⟨fragment, _, same⟩ := blocks f part here
      exact ⟨fragment, same⟩
    · obtain ⟨atLine, advances⟩ := starts strictly
      exact atLine.breaks advances split

theorem Laid.recast {drawn : Find Seal slot → Sheet} (laid : Laid strict sheet)
    (each : ∀ f, pattern.Finds Seal.lead sheet f → Nested (drawn f))
    (starts : strict = true → AtLine pattern ∧ pattern.Advances Seal.lead) :
    Laid strict (pattern.recast (fun f => Sheet.keyBlock (drawn f)) sheet) := by
  have recasts : Recasts (fun _ part => ∃ fragment, Nested fragment ∧ part = Sheet.keyBlock fragment)
      (pattern.pieces Seal.lead sheet)
      (pattern.recast (fun f => Sheet.keyBlock (drawn f)) sheet) :=
    .of_recast fun f finds => ⟨drawn f, each f finds, rfl⟩
  exact laid.recasts recasts (fun _ _ here => here) starts

theorem Laid.redraw {drawn : Find Seal slot → Draft Sheet} (laid : Laid false sheet)
    (each : ∀ f, pattern.Finds Seal.lead sheet f → (drawn f).Ensures Nested) :
    (pattern.redraw (fun f => do pure (Sheet.keyBlock (← drawn f))) sheet).Ensures (Laid false) := by
  have parts : ∀ f, pattern.Finds Seal.lead sheet f →
      (do pure (Sheet.keyBlock (← drawn f)) : Draft Sheet).Ensures
        fun part => ∃ fragment, Nested fragment ∧ part = Sheet.keyBlock fragment :=
    fun f finds => (each f finds).bind fun fragment nested => .pure ⟨fragment, nested, rfl⟩
  exact (Recasts.of_redraw parts).mono fun result recasts =>
    laid.recasts recasts (fun _ _ here => here) nofun

end Matches

/-- A heading has one to six number signs. -/
theorem length_get_marks {f : Find Seal Heading.Part}
    (finds : Heading.marked.Finds Seal.lead sheet f) :
    (f.get .marks).length ∈ [1, 2, 3, 4, 5, 6] := by
  have few : ∀ count, (Pattern.upTo count (.char '#') : Pattern Heading.Part).Takes Seal.lead
      fun passed => passed.length ≤ count := by
    intro count
    induction count with
    | zero =>
      intro spot later member
      obtain rfl := List.mem_singleton.1 member
      exact ⟨[], .nothing _, Nat.le_refl 0⟩
    | succ count ih =>
      have more : (Pattern.seq (.char '#') (.upTo count (.char '#')) : Pattern Heading.Part).Takes
          Seal.lead fun passed => passed.length ≤ count + 1 := by
        refine (takes_char (by decide)).seq ih ?_
        rintro _ more rfl short
        exact Nat.succ_le_succ short
      refine more.either fun spot later member => ?_
      obtain rfl := List.mem_singleton.1 member
      exact ⟨[], .nothing _, Nat.zero_le _⟩
  have marks : (.seq (.char '#') (.upTo 5 (.char '#')) : Pattern Heading.Part).Takes Seal.lead
      fun passed => passed.length ∈ [1, 2, 3, 4, 5, 6] := by
    refine (takes_char (by decide)).seq (few 5) ?_
    rintro _ more rfl short
    have cases : more.length + 1 ∈ [1, 2, 3, 4, 5, 6] := by
      simp only [List.mem_cons, List.not_mem_nil, or_false]
      omega
    simpa using cases
  have counted : Heading.marked.Captures Seal.lead fun name (glyphs : Sheet) =>
      name = Heading.Part.marks → glyphs.length ∈ [1, 2, 3, 4, 5, 6] := by
    refine ⟨trivial, ⟨?_, fun spot later member _ => ?_⟩, ?_⟩
    · simp [Captures, Pattern.char, Pattern.upTo, Pattern.optional]
    · obtain ⟨passed, passes, here⟩ := marks spot later member
      rwa [passes.between_eq]
    · simp [Captures, Pattern.sequence, few1, Heading.ending, choice, many1, textEnd]
  have framed : Heading.marked.Frames Seal.lead .marks (fun _ => True) (fun _ => True) := by
    refine .behind (takes_any .lineStart) (.ahead (.capture _ _) (takes_any _) ?_ ?_) ?_
    · simp [Captures, Pattern.sequence, few1, Heading.ending, choice, many1, textEnd]
    · exact fun _ _ _ _ => trivial
    · exact fun _ _ _ _ => trivial
  obtain ⟨_, caught, _, _, here, _⟩ := framed _ _ finds.mem
  have short := counted.get? finds here rfl
  rwa [Find.get, show f.get? .marks = some caught from here]

section Headings

variable {table : Sheet.Table} (targets : TargetsOf Keyless table)
include targets

theorem laid_underlinedHeadings (clean : Clean Keyless sheet) :
    Laid true (Sheet.underlinedHeadings table sheet) := by
  refine (clean.laid true).recast (fun f finds => ?_) fun _ =>
    ⟨atLine_lineStart _, (Heading.regular_underlined Renaming.same.quiet).advances⟩
  refine nested_headingElement targets ?_ (clean.part (finds.get_infix .content).subset)
  rw [Heading.rankOf]
  split <;> decide

theorem laid_markedHeadings (laid : Laid true sheet) :
    Laid true (Sheet.markedHeadings table sheet) := by
  refine laid.recast (fun f finds => ?_) fun _ =>
    ⟨atLine_lineStart _, (Heading.regular_marked Renaming.same.quiet).advances⟩
  exact nested_headingElement targets (length_get_marks finds)
    (laid.get Heading.frames_marked finds (withoutKeys_marked laid.isolated finds))

end Headings

theorem laid_rules (laid : Laid true sheet) : Laid true (Sheet.rules sheet) :=
  laid.recast (fun _ _ => nested_rule) fun _ =>
    ⟨atLine_lineStart _, (Heading.regular_rule Renaming.same.quiet).advances⟩

theorem laid_codeBlocks (laid : Laid false sheet) : Laid false (Sheet.codeBlocks sheet) :=
  laid.recast (fun _ finds => nested_codeBlockElement
    (laid.get CodeBlock.frames_codeBlock finds (withoutKeys_codeBlock laid.isolated finds))) nofun

section Interiors

variable {interior : Sheet.Interior} (nests : Nests interior)
include nests

theorem laid_quotes (laid : Laid false sheet) :
    (Sheet.quotes interior sheet).Ensures (Laid false) :=
  laid.redraw fun _ finds => nested_quoteElement nests
    (laid.get Quote.frames_quote finds (withoutKeys_quote laid.isolated finds))

theorem laid_lists {table : Sheet.Table} (targets : TargetsOf Keyless table) (laid : Laid true sheet)
    (inList : Bool) : (Sheet.lists table interior inList sheet).Ensures (Laid false) := by
  cases inList with
  | false =>
    refine laid.relax.redraw fun f finds => nested_listElement nests targets ?_
    exact laid.get Listing.frames_topList finds (withoutKeys_list laid.isolated
      (Only.either (.place _) (Only.seq (.place _) (Only.optional onlyMarkup_newline))) finds)
  | true =>
    refine laid.relax.redraw fun f finds => nested_listElement nests targets ?_
    exact laid.get Listing.frames_nestedList finds (withoutKeys_list laid.isolated (.place _) finds)

end Interiors

end Markdown.Structure
