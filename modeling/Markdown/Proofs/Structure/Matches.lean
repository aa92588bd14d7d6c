import Markdown.Proofs.Structure.Isolation

set_option autoImplicit false

namespace Markdown

open Pattern

namespace Structure

theorem WithoutKeys.append {first second : Sheet} (early : WithoutKeys first)
    (late : WithoutKeys second) : WithoutKeys (first ++ second) :=
  fun fragment member => (List.mem_append.1 member).elim (early fragment) (late fragment)

theorem WithoutKeys.part {sheet part : Sheet} (without : WithoutKeys sheet) (within : part ⊆ sheet) :
    WithoutKeys part :=
  fun fragment member => without fragment (within member)

theorem gap_append (sheet : Sheet) : gap ++ sheet = .char '\n' :: .char '\n' :: sheet := rfl

theorem withoutKeys_of_markup {sheet : Sheet} (markup : sheet.Markup) : WithoutKeys sheet := by
  intro fragment member
  obtain ⟨c, impossible, _⟩ := markup _ member
  cases impossible

/-- A property of places: of what stands before them, the nearest first, and behind them. -/
abbrev Where := Sheet → Sheet → Prop

def Anywhere : Where := fun _ _ => True

def WithinLine : Where := fun behind _ =>
  ∃ g rest, behind = g :: rest ∧ g ≠ .char '\n' ∧ ∀ fragment, g ≠ .sealed (.key fragment)

/-- Behind the newline of a line that is not empty, or at the end. -/
def BehindLine : Where := fun behind ahead =>
  ahead = [] ∨ ∃ g rest, behind = .char '\n' :: g :: rest ∧ g ≠ .char '\n'

variable {slot : Type} [DecidableEq slot]

/-- In the sheet, from places of one kind the pattern comes to places of another kind and passes no
key on its way. -/
def Skirts (sheet : Sheet) (source target : Where) (pattern : Pattern slot) : Prop :=
  ∀ spot, spot.behind.reverse ++ spot.ahead = sheet → source spot.behind spot.ahead →
    ∀ later ∈ pattern.spots Seal.lead spot, ∃ passed, spot.Passes passed later ∧
      WithoutKeys passed ∧ target later.behind later.ahead

omit [DecidableEq slot] in
theorem whole_of_passes {sheet passed : Sheet} {spot later : Spot Seal slot}
    (whole : spot.behind.reverse ++ spot.ahead = sheet) (passes : spot.Passes passed later) :
    later.behind.reverse ++ later.ahead = sheet := by
  rw [← whole, passes.behind, passes.ahead]
  simp

namespace Skirts

variable {sheet : Sheet} {source middle target : Where} {first second : Pattern slot}

theorem seq (early : Skirts sheet source middle first) (late : Skirts sheet middle target second) :
    Skirts sheet source target (first.seq second) := by
  intro spot whole starts later member
  obtain ⟨halfway, inFirst, inSecond⟩ := List.mem_flatMap.1 member
  obtain ⟨passed, passes, without, here⟩ := early spot whole starts halfway inFirst
  obtain ⟨more, onward, others, there⟩ :=
    late halfway (whole_of_passes whole passes) here later inSecond
  exact ⟨passed ++ more, passes.trans onward, without.append others, there⟩

theorem either (left : Skirts sheet source target first) (right : Skirts sheet source target second) :
    Skirts sheet source target (first.either second) := by
  intro spot whole starts later member
  rcases List.mem_append.1 member with inFirst | inSecond
  · exact left spot whole starts later inFirst
  · exact right spot whole starts later inSecond

theorem capture (name : slot) (skirts : Skirts sheet source target first) :
    Skirts sheet source target (.capture name first) := by
  intro spot whole starts later member
  obtain ⟨inner, inside, rfl⟩ := List.mem_map.1 member
  obtain ⟨passed, passes, without, here⟩ := skirts spot whole starts inner inside
  exact ⟨passed, ⟨passes.behind, passes.ahead⟩, without, here⟩

theorem place (holds : Cursor → Bool) : Skirts sheet source source (.place holds : Pattern slot) := by
  intro spot whole starts later member
  obtain rfl := mem_spots_place member
  exact ⟨[], .nothing _, fun _ => List.not_mem_nil, starts⟩

theorem rounds (body : Skirts sheet source source first) : Skirts sheet source source (.rounds first) := by
  intro spot whole starts later member
  rw [spots] at member
  generalize spot.ahead.length = budget at member
  induction budget generalizing spot with
  | zero =>
    obtain rfl := List.mem_singleton.1 member
    exact ⟨[], .nothing _, fun _ => List.not_mem_nil, starts⟩
  | succ budget ih =>
    rcases List.mem_append.1 member with more | here
    · obtain ⟨halfway, round, rest⟩ := List.mem_flatMap.1 more
      obtain ⟨passed, passes, without, here⟩ := body spot whole starts halfway round
      obtain ⟨further, onward, others, there⟩ :=
        ih halfway (whole_of_passes whole passes) here rest
      exact ⟨passed ++ further, passes.trans onward, without.append others, there⟩
    · obtain rfl := List.mem_singleton.1 here
      exact ⟨[], .nothing _, fun _ => List.not_mem_nil, starts⟩

theorem of_markup (only : first.OnlyMarkup) : Skirts sheet source Anywhere first := by
  intro spot whole starts later member
  obtain ⟨passed, passes, kinds⟩ := only spot later member
  exact ⟨passed, passes, withoutKeys_of_markup kinds, trivial⟩

/-- What passes no newline stays within its line. -/
theorem of_only {accepts : Char → Bool} (only : first.Only Seal.lead (Glyph.Of accepts))
    (outside : accepts '\n' = false) : Skirts sheet WithinLine WithinLine first := by
  intro spot whole starts later member
  obtain ⟨passed, passes, kinds⟩ := only spot later member
  refine ⟨passed, passes, fun fragment member => ?_, ?_⟩
  · obtain ⟨c, impossible, _⟩ := kinds _ member
    cases impossible
  · rw [WithinLine, passes.behind]
    rcases List.eq_nil_or_concat passed with rfl | ⟨front, g, rfl⟩
    · exact starts
    · obtain ⟨c, rfl, here⟩ := kinds g (by simp)
      refine ⟨.char c, front.reverse ++ spot.behind, by simp, fun same => ?_, nofun⟩
      rw [Glyph.char.inj same, outside] at here
      cases here

/-- Behind a character that is no newline is within a line. -/
theorem one {accepts : Char → Bool} (outside : accepts '\n' = false)
    (hidden : accepts Escape.opening = false) :
    Skirts sheet source WithinLine (.one accepts : Pattern slot) := by
  intro spot whole starts later member
  obtain ⟨passed, passes, g, rfl, fits⟩ := Takes.one spot later member
  obtain ⟨c, rfl, here⟩ := exists_char_of_fits hidden fits
  refine ⟨_, passes, by simp [WithoutKeys], .char c, spot.behind, passes.behind, ?_, nofun⟩
  rintro same
  rw [Glyph.char.inj same, outside] at here
  cases here

theorem withoutKeys {f : Find Seal slot} (skirts : Skirts sheet Anywhere target first)
    (finds : first.Finds Seal.lead sheet f) : WithoutKeys f.glyphs := by
  obtain ⟨passed, passes, without, _⟩ := skirts f.start finds.whole trivial f.stop finds.mem
  rwa [Find.glyphs, passes.between_eq]

end Skirts

/-- In the sheet, the first outcome of the pattern from places of this kind passes no key. -/
def Spares (sheet : Sheet) (source : Where) (pattern : Pattern slot) : Prop :=
  ∀ spot, spot.behind.reverse ++ spot.ahead = sheet → source spot.behind spot.ahead →
    ∀ stop, (pattern.spots Seal.lead spot).head? = some stop →
      ∃ passed, spot.Passes passed stop ∧ WithoutKeys passed

namespace Spares

variable {sheet : Sheet} {source middle : Where} {first second : Pattern slot}

theorem behind (early : Skirts sheet source middle first)
    (late : Spares sheet middle second) : Spares sheet source (first.seq second) := by
  intro spot whole starts stop here
  rw [head?_spots_seq] at here
  obtain ⟨halfway, member, further⟩ := List.exists_of_findSome?_eq_some here
  obtain ⟨passed, passes, without, between⟩ := early spot whole starts halfway member
  obtain ⟨more, onward, others⟩ :=
    late halfway (whole_of_passes whole passes) between stop further
  exact ⟨passed ++ more, passes.trans onward, without.append others⟩

theorem capture (name : slot) (spares : Spares sheet source first) :
    Spares sheet source (.capture name first) := by
  intro spot whole starts stop here
  rw [spots, List.head?_map, Option.map_eq_some_iff] at here
  obtain ⟨inner, inside, rfl⟩ := here
  obtain ⟨passed, passes, without⟩ := spares spot whole starts inner inside
  exact ⟨passed, ⟨passes.behind, passes.ahead⟩, without⟩

theorem withoutKeys {f : Find Seal slot} (spares : Spares sheet Anywhere first)
    (finds : first.Finds Seal.lead sheet f) : WithoutKeys f.glyphs := by
  obtain ⟨passed, passes, without⟩ := spares f.start finds.whole trivial f.stop finds.first
  rwa [Find.glyphs, passes.between_eq]

end Spares

theorem ne_newline_of_inLine {g : Glyph Seal} (fits : g.fits Seal.lead Pattern.inLine = true) :
    g ≠ .char '\n' := by
  rintro rfl
  cases fits

theorem skirts_blanks {sheet : Sheet} :
    Skirts sheet WithinLine WithinLine (.many Text.isBlank : Pattern slot) :=
  .of_only (of_many (by decide) fun _ here => here) (by decide)

theorem skirts_one {sheet : Sheet} {source : Where}
    (starts : ∀ {behind rest g}, behind.reverse ++ g :: rest = sheet → source behind (g :: rest) →
      ∀ fragment, g ≠ .sealed (.key fragment)) :
    Skirts sheet source WithinLine (.one Pattern.inLine : Pattern slot) := by
  intro spot whole here later member
  obtain ⟨passed, passes, g, rfl, fits⟩ := Takes.one spot later member
  have ahead : spot.ahead = g :: later.ahead := passes.ahead
  rw [ahead] at whole here
  have plain := starts whole here
  refine ⟨[g], passes, fun fragment member => ?_, g, spot.behind, passes.behind,
    ne_newline_of_inLine fits, plain⟩
  exact plain fragment (List.mem_singleton.1 member).symm

section Lines

variable {strict : Bool} {sheet : Sheet} (isolated : Isolated strict sheet)
include isolated

omit [DecidableEq slot] in
/-- Before a key there are two newlines. -/
theorem behind_key {behind rest fragment : Sheet}
    (whole : behind.reverse ++ Glyph.sealed (.key fragment) :: rest = sheet) :
    ∃ front, behind = .char '\n' :: .char '\n' :: front ∧ (strict = true → Breaks front.reverse) := by
  obtain ⟨⟨front, same, breaks⟩, _⟩ := isolated _ _ _ whole.symm
  refine ⟨front.reverse, ?_, by rwa [List.reverse_reverse]⟩
  rw [← List.reverse_reverse behind, same]
  simp [gap]

omit [DecidableEq slot] in
theorem not_key_of_withinLine {behind rest : Sheet} {g : Glyph Seal}
    (whole : behind.reverse ++ g :: rest = sheet) (within : WithinLine behind (g :: rest))
    (fragment : Sheet) : g ≠ .sealed (.key fragment) := by
  rintro rfl
  obtain ⟨front, same, _⟩ := behind_key isolated whole
  obtain ⟨h, more, rfl, differs, _⟩ := within
  exact differs (List.cons.inj same).1

omit [DecidableEq slot] in
/-- A line begins with a key only behind an empty line. -/
theorem not_key_of_behindLine {behind rest : Sheet} {g : Glyph Seal}
    (whole : behind.reverse ++ g :: rest = sheet) (after : BehindLine behind (g :: rest))
    (fragment : Sheet) : g ≠ .sealed (.key fragment) := by
  rintro rfl
  obtain ⟨front, same, _⟩ := behind_key isolated whole
  rcases after with impossible | ⟨h, more, rfl, differs⟩
  · cases impossible
  · exact differs (List.cons.inj (List.cons.inj same).2).1

omit [DecidableEq slot] in
/-- Along a line there is no key. -/
theorem skirts_nearStops {behind ahead : Sheet} {captures : List (slot × Sheet)}
    {later : Spot Seal slot} (whole : behind.reverse ++ ahead = sheet)
    (starts : WithinLine behind ahead)
    (member : later ∈ Spot.nearStops Seal.lead Pattern.inLine behind ahead captures) :
    ∃ passed, Spot.Passes ⟨behind, ahead, captures⟩ passed later ∧ WithoutKeys passed ∧
      WithinLine later.behind later.ahead := by
  induction ahead generalizing behind with
  | nil =>
    obtain rfl := List.mem_singleton.1 member
    exact ⟨[], .nothing _, fun _ => List.not_mem_nil, starts⟩
  | cons g rest ih =>
    rcases List.mem_cons.1 member with rfl | further
    · exact ⟨[], .nothing _, fun _ => List.not_mem_nil, starts⟩
    · split at further
      · next fits =>
        have plain := not_key_of_withinLine isolated whole starts
        obtain ⟨passed, passes, without, there⟩ := ih (by simpa using whole)
          ⟨g, behind, rfl, ne_newline_of_inLine fits, plain⟩ further
        refine ⟨g :: passed, ⟨by simp [passes.behind], by simpa using passes.ahead⟩, ?_, there⟩
        intro fragment member
        rcases List.mem_cons.1 member with same | later
        · exact plain fragment same.symm
        · exact without fragment later
      · exact absurd further List.not_mem_nil

theorem skirts_few_inLine : Skirts sheet WithinLine WithinLine (.few Pattern.inLine : Pattern slot) :=
  fun _ whole starts _ member => skirts_nearStops isolated whole starts member

theorem skirts_many_inLine :
    Skirts sheet WithinLine WithinLine (.many Pattern.inLine : Pattern slot) :=
  fun _ whole starts _ member => skirts_nearStops isolated whole starts (List.mem_reverse.1 member)

theorem skirts_one_inLine :
    Skirts sheet WithinLine WithinLine (.one Pattern.inLine : Pattern slot) :=
  skirts_one fun whole starts => not_key_of_withinLine isolated whole starts

/-- The text of an underlined heading and, on the next line, what stands in its underline. -/
def Underlined (passed : Sheet) : Prop :=
  ∃ (line : Sheet) (g : Glyph Seal) (rest : Sheet), passed = line ++ .char '\n' :: g :: rest ∧
    (∀ h ∈ line, h ≠ .char '\n') ∧ g ≠ .char '\n' ∧ Sheet.Markup (g :: rest)

omit isolated in
theorem takes_underlined : Heading.underlined.Takes Seal.lead Underlined := by
  have marks : ∀ c, isMarkup c = true → c ≠ '\n' → (.many1 (· == c) : Pattern Heading.Part).Takes
      Seal.lead fun passed => ∃ g rest, passed = g :: rest ∧ g ≠ .char '\n' ∧ Sheet.Markup passed := by
    intro c mark inked
    refine Takes.one.seq (Only.many (markup_of_eq mark)) ?_
    rintro _ more ⟨g, rfl, fits⟩ each
    refine ⟨g, more, rfl, ?_, List.forall_mem_cons.2 ⟨markup_of_eq mark g fits, each⟩⟩
    rintro rfl
    exact inked (eq_of_beq fits).symm
  have underline := (marks '=' (by decide) (by decide)).either (marks '-' (by decide) (by decide))
  have ending : (.seq (.many Text.isBlank) Heading.ending : Pattern Heading.Part).OnlyMarkup :=
    (Only.many markup_of_isBlank).seq Heading.onlyMarkup_ending
  have below : (.seq (.capture .underline (.choice [.many1 (· == '='), .many1 (· == '-')]))
      (.seq (.many Text.isBlank) Heading.ending) : Pattern Heading.Part).Takes Seal.lead fun passed =>
        ∃ g rest, passed = g :: rest ∧ g ≠ .char '\n' ∧ Sheet.Markup passed := by
    refine (underline.capture .underline).seq ending ?_
    rintro _ more ⟨g, rest, rfl, inked, markup⟩ others
    exact ⟨g, rest ++ more, rfl, inked, markup.append others⟩
  have joins : ∀ passed more : Sheet, passed = [.char '\n'] →
      (∃ g rest, more = g :: rest ∧ g ≠ .char '\n' ∧ Sheet.Markup more) →
        Underlined (passed ++ more) := by
    rintro _ _ rfl ⟨g, rest, rfl, inked, markup⟩
    exact ⟨[], g, rest, rfl, nofun, inked, markup⟩
  have before : ∀ {first second : Pattern Heading.Part}, first.Only Seal.lead (· ≠ .char '\n') →
      second.Takes Seal.lead Underlined → (first.seq second).Takes Seal.lead Underlined := by
    intro first second only later
    refine Takes.seq only later ?_
    rintro passed _ each ⟨line, g, rest, rfl, others, inked, markup⟩
    exact ⟨passed ++ line, g, rest, by simp, List.forall_mem_append.2 ⟨each, others⟩, inked, markup⟩
  have content : (.capture .content (.few1 Pattern.inLine) : Pattern Heading.Part).Only Seal.lead
      (· ≠ .char '\n') :=
    ((Only.one fun _ => ne_newline_of_inLine).seq (.few fun _ => ne_newline_of_inLine)).capture _
  have blanks : (.many Text.isBlank : Pattern Heading.Part).Only Seal.lead (· ≠ .char '\n') := by
    refine .many ?_
    rintro _ fits rfl
    cases fits
  exact .afterPlace _ (before content (before blanks
    ((takes_char (by decide)).seq below joins)))

/-- A key is no heading: below it there is no underline but an empty line. -/
theorem withoutKeys_underlined {f : Find Seal Heading.Part}
    (finds : Heading.underlined.Finds Seal.lead sheet f) : WithoutKeys f.glyphs := by
  obtain ⟨line, g, rest, shape, newline, inked, markup⟩ := takes_underlined.glyphs finds
  have whole := finds.whole
  rw [finds.passes.ahead, shape] at whole
  rw [shape]
  intro fragment member
  rcases List.mem_append.1 member with inside | below
  · obtain ⟨early, late, rfl⟩ := List.append_of_mem inside
    obtain ⟨-, tail, gap⟩ := isolated (f.start.behind.reverse ++ early) fragment
      (late ++ .char '\n' :: g :: (rest ++ f.stop.ahead)) (by rw [← whole]; simp)
    cases late with
    | nil => exact inked (List.cons.inj (List.cons.inj gap).2).1.symm
    | cons h late => exact newline h (by simp) (List.cons.inj gap).1.symm
  · rcases List.mem_cons.1 below with impossible | below
    · cases impossible
    · exact withoutKeys_of_markup markup fragment below

theorem withoutKeys_marked {f : Find Seal Heading.Part}
    (finds : Heading.marked.Finds Seal.lead sheet f) : WithoutKeys f.glyphs := by
  have signs : (.upTo 5 (.char '#') : Pattern Heading.Part).Only Seal.lead (Glyph.Of (· == '#')) :=
    Only.upTo (of_char rfl rfl) 5
  have closing : Skirts sheet WithinLine WithinLine (.many (· == '#') : Pattern Heading.Part) :=
    .of_only (of_many (by decide) fun _ here => here) (by decide)
  have marks : Skirts sheet Anywhere WithinLine
      (.capture .marks (.seq (.char '#') (.upTo 5 (.char '#'))) : Pattern Heading.Part) :=
    (Skirts.seq (.one (by decide) (by decide)) (.of_only signs (by decide))).capture _
  have content : Skirts sheet WithinLine WithinLine
      (.capture .content (.few1 Pattern.inLine) : Pattern Heading.Part) :=
    ((skirts_one_inLine isolated).seq (skirts_few_inLine isolated)).capture _
  have skirts : Skirts sheet Anywhere Anywhere Heading.marked :=
    (Skirts.place _).seq (marks.seq (skirts_blanks.seq (content.seq (skirts_blanks.seq
      (closing.seq (.of_markup Heading.onlyMarkup_ending))))))
  exact skirts.withoutKeys finds

theorem skirts_indentedLine : Skirts sheet Anywhere Anywhere CodeBlock.indentedLine := by
  have space : ∀ {source}, Skirts sheet source WithinLine (.char ' ' : Pattern CodeBlock.Part) :=
    .one (by decide) (by decide)
  have indent : Skirts sheet Anywhere WithinLine
      (.choice [.literal "    ".toList, .char '\t'] : Pattern CodeBlock.Part) :=
    (space.seq (space.seq (space.seq space))).either (.one (by decide) (by decide))
  have ending : (.choice [.many1 Text.isNewline, .textEnd] : Pattern CodeBlock.Part).OnlyMarkup :=
    Only.either (.many1 markup_of_isNewline) (.place _)
  exact indent.seq ((skirts_many_inLine isolated).seq (.of_markup ending))

theorem withoutKeys_codeBlock {f : Find Seal CodeBlock.Part}
    (finds : CodeBlock.codeBlock.Finds Seal.lead sheet f) : WithoutKeys f.glyphs := by
  have front : (.choice [.literal "\n\n".toList, .seq .textStart (.optional (.char '\n'))] :
      Pattern CodeBlock.Part).OnlyMarkup :=
    Only.either (onlyMarkup_literal (by decide))
      (Only.seq (.place _) (Only.optional onlyMarkup_newline))
  have line := skirts_indentedLine isolated
  have skirts : Skirts sheet Anywhere Anywhere CodeBlock.codeBlock :=
    (Skirts.of_markup front).seq ((line.seq line.rounds).capture _)
  exact skirts.withoutKeys finds

omit isolated in
/-- The end of a line that is not empty. -/
theorem skirts_newline : Skirts sheet WithinLine BehindLine (.char '\n' : Pattern Quote.Part) := by
  intro spot whole starts later member
  obtain ⟨passed, passes, rfl⟩ := takes_char (by decide) spot later member
  obtain ⟨g, rest, behind, differs, _⟩ := starts
  refine ⟨_, passes, by simp [WithoutKeys], .inr ⟨g, rest, ?_, differs⟩⟩
  rw [passes.behind, behind]
  rfl

omit isolated in
theorem skirts_lineBreak : Skirts sheet WithinLine BehindLine
    (.choice [.char '\n', .textEnd] : Pattern Quote.Part) := by
  refine skirts_newline.either fun spot whole starts later member => ?_
  obtain ⟨rfl, ended⟩ := holds_of_mem_place member
  exact ⟨[], .nothing _, fun _ => List.not_mem_nil, .inl (ahead_eq_nil ended)⟩

theorem skirts_quotedLines : Skirts sheet Anywhere Anywhere Quote.quotedLines := by
  have mark : Skirts sheet Anywhere WithinLine (.char '>' : Pattern Quote.Part) :=
    .one (by decide) (by decide)
  have blank : Skirts sheet WithinLine WithinLine
      (.optional (.one Text.isBlank) : Pattern Quote.Part) :=
    .of_only (Only.optional (.one (of_fits (by decide) fun _ here => here))) (by decide)
  have line : Skirts sheet WithinLine WithinLine (.many1 Pattern.inLine : Pattern Quote.Part) :=
    (skirts_one_inLine isolated).seq (skirts_many_inLine isolated)
  have another : Skirts sheet BehindLine BehindLine
      (.seq (.many1 Pattern.inLine) (.char '\n') : Pattern Quote.Part) :=
    ((skirts_one fun whole after => not_key_of_behindLine isolated whole after).seq
      (skirts_many_inLine isolated)).seq skirts_newline
  exact (Skirts.place _).seq ((Skirts.of_markup (.many markup_of_isBlank)).seq (mark.seq (blank.seq
    (line.seq (skirts_lineBreak.seq (another.rounds.seq
      (.of_markup (.many markup_of_isNewline))))))))

theorem withoutKeys_quote {f : Find Seal Quote.Part}
    (finds : Quote.quote.Finds Seal.lead sheet f) : WithoutKeys f.glyphs := by
  have lines := skirts_quotedLines isolated
  exact ((lines.seq lines.rounds).capture _).withoutKeys finds

end Lines

section Lists

open Listing

theorem onlyMarkup_listEnd : listEnd.OnlyMarkup := by
  have newlines : (.many Text.isNewline : Pattern Part).OnlyMarkup := .many markup_of_isNewline
  exact (newlines.seq (.place _)).either
    (Only.seq (onlyMarkup_literal (by decide)) (newlines.seq (Only.seq (.place _) (.ahead _ _))))

variable {behind rest fragment : Sheet} {captures : List (Part × Sheet)} {stop : Spot Seal Part}

/-- No item begins with a seal. -/
theorem spots_markerGap_sealed {s : Seal} :
    (Pattern.seq (.many Text.isBlank) markerGap).spots Seal.lead ⟨behind, .sealed s :: rest, captures⟩ =
      [] := by
  have blanks : (Pattern.many Text.isBlank : Pattern Part).Only Seal.lead (Glyph.Of Text.isBlank) :=
    of_many (by decide) fun _ => id
  have marked : (Pattern.seq (.many Text.isBlank) markerGap).Takes Seal.lead
      (Sheet.Marked isHead) := .marked blanks (begins_marker.begins _)
  refine List.eq_nil_iff_forall_not_mem.2 fun later member => ?_
  obtain ⟨passed, passes, here⟩ := marked _ later member
  obtain ⟨c, more, rfl, _⟩ := here.begins
  cases (List.cons.inj passes.ahead).1

/-- In front of a key between blank lines a list can end. -/
theorem spots_listEnd_ne_nil :
    listEnd.spots Seal.lead ⟨behind, gap ++ Glyph.sealed (.key fragment) :: rest, captures⟩ ≠ [] := by
  let here : Spot Seal Part :=
    ⟨.char '\n' :: .char '\n' :: behind, .sealed (.key fragment) :: rest, captures⟩
  have lines : here ∈ (Pattern.literal "\n\n".toList).spots Seal.lead
      ⟨behind, gap ++ Glyph.sealed (.key fragment) :: rest, captures⟩ := List.mem_singleton_self here
  have none : here ∈ (Pattern.many Text.isNewline).spots Seal.lead here := by
    simp [spots, Spot.stops, Spot.nearStops, here]
  have inked : here ∈ (Pattern.before Pattern.notSpace).spots Seal.lead here := by
    have plain : Pattern.notSpace Escape.opening = true := by decide
    simp [spots, Pattern.before, Cursor.precedes, Spot.cursor, here, Glyph.spell, Seal.lead, plain]
  have other : here ∈ (Pattern.ahead false (.seq (.many Text.isBlank) markerGap)).spots Seal.lead
      here := by
    rw [spots, spots_markerGap_sealed]
    simp
  exact List.ne_nil_of_mem (List.mem_append_right _ (List.mem_flatMap.2 ⟨here, lines,
    List.mem_flatMap.2 ⟨here, none, List.mem_flatMap.2 ⟨here, inked, other⟩⟩⟩))

/-- The shortest content of a list goes no further than a blank line with a key behind it. -/
theorem passes_of_nearStops {before : Sheet} (without : WithoutKeys before)
    (first : (Spot.nearStops Seal.lead Pattern.anything behind
      (before ++ (gap ++ Glyph.sealed (.key fragment) :: rest)) captures).findSome?
        (fun middle => (listEnd.spots Seal.lead middle).head?) = some stop) :
    ∃ passed, Spot.Passes
        ⟨behind, before ++ (gap ++ Glyph.sealed (.key fragment) :: rest), captures⟩ passed stop ∧
      WithoutKeys passed := by
  have ending : ∀ {spot : Spot Seal Part}, (listEnd.spots Seal.lead spot).head? = some stop →
      ∃ passed, spot.Passes passed stop ∧ WithoutKeys passed := by
    intro spot here
    obtain ⟨passed, passes, kinds⟩ := onlyMarkup_listEnd spot stop (List.mem_of_mem_head? here)
    exact ⟨passed, passes, withoutKeys_of_markup kinds⟩
  induction before generalizing behind with
  | nil =>
    obtain ⟨found, here⟩ := Option.isSome_iff_exists.1
      (List.isSome_head?.2 (@spots_listEnd_ne_nil behind rest fragment captures))
    rw [gap_append] at here
    rw [List.nil_append, gap_append, Spot.nearStops, List.findSome?_cons, here] at first
    obtain rfl := Option.some.inj first
    exact ending here
  | cons g before ih =>
    rw [List.cons_append, Spot.nearStops, List.findSome?_cons] at first
    split at first
    · next found here =>
      obtain rfl := Option.some.inj first
      exact ending here
    · have any : g.fits Seal.lead Pattern.anything = true := by cases g <;> rfl
      rw [if_pos any] at first
      obtain ⟨passed, passes, others⟩ :=
        ih (without.part (List.subset_cons_self _ _)) first
      refine ⟨g :: passed, ⟨by simp [passes.behind], by simpa using passes.ahead⟩, ?_⟩
      intro other member
      rcases List.mem_cons.1 member with rfl | inside
      · exact without other List.mem_cons_self
      · exact others other inside

/-- The first key of a sheet that has one. -/
theorem exists_first_key {sheet : Sheet} (keyed : ¬ WithoutKeys sheet) :
    ∃ before fragment rest, sheet = before ++ Glyph.sealed (.key fragment) :: rest ∧
      WithoutKeys before := by
  induction sheet with
  | nil => exact absurd (fun _ => List.not_mem_nil) keyed
  | cons g sheet ih =>
    by_cases here : ∃ fragment, g = .sealed (.key fragment)
    · obtain ⟨fragment, rfl⟩ := here
      exact ⟨[], fragment, sheet, rfl, fun _ => List.not_mem_nil⟩
    · obtain ⟨before, fragment, rest, rfl, without⟩ := ih fun without => keyed fun fragment member =>
        (List.mem_cons.1 member).elim (fun same => here ⟨fragment, same.symm⟩) (without fragment)
      refine ⟨g :: before, fragment, rest, rfl, fun other member => ?_⟩
      exact (List.mem_cons.1 member).elim (fun same => here ⟨other, same.symm⟩) (without other)

variable {sheet : Sheet} (isolated : Isolated true sheet)
include isolated

/-- Behind a glyph of a line the content of a list ends before the first key: were there nothing but
a blank line between the two, that blank line would end the line. -/
theorem spares_content : Spares sheet WithinLine (.seq (.few1 Pattern.anything) listEnd) := by
  intro spot whole within stop first
  obtain ⟨last, less, after, newline, key⟩ := within
  by_cases keyed : WithoutKeys spot.ahead
  · obtain ⟨passed, passes⟩ := exists_passes_of_mem_spots (List.mem_of_mem_head? first)
    exact ⟨passed, passes, keyed.part (passes.ahead ▸ List.subset_append_left _ _)⟩
  obtain ⟨before, fragment, rest, ahead, without⟩ := exists_first_key keyed
  obtain ⟨front, same, breaks⟩ := @behind_key true sheet isolated (before.reverse ++ spot.behind)
    rest fragment (by simpa [ahead] using whole)
  obtain ⟨g, more, rfl⟩ : ∃ g more, before = g :: (more ++ gap) := by
    rw [after] at same
    generalize turned : before.reverse = back at same
    match back, same with
    | [], same => exact absurd (List.cons.inj same).1 newline
    | [_], same => exact absurd (List.cons.inj (List.cons.inj same).2).1 newline
    | [_, _], same =>
      obtain rfl := (List.cons.inj (List.cons.inj same).2).2
      rcases breaks rfl last (by simp) with same | ⟨fragment, same⟩
      · exact absurd same newline
      · exact absurd same (key fragment)
    | _ :: _ :: g :: back, same =>
      obtain ⟨rfl, tail⟩ := List.cons.inj same
      obtain ⟨rfl, _⟩ := List.cons.inj tail
      obtain ⟨h, more, ordered⟩ := List.exists_cons_of_ne_nil
        (show (g :: back).reverse ≠ [] by simp)
      refine ⟨h, more, ?_⟩
      rw [← List.reverse_reverse before, turned, ← List.cons_append, ← ordered]
      simp [gap]
  have content : (Pattern.few1 Pattern.anything : Pattern Part).spots Seal.lead spot =
      Spot.nearStops Seal.lead Pattern.anything (g :: spot.behind)
        (more ++ (gap ++ Glyph.sealed (.key fragment) :: rest)) spot.captures := by
    have any : g.fits Seal.lead Pattern.anything = true := by cases g <;> rfl
    simp [Pattern.few1, spots, ahead, any, Spot.stops, Spot.past]
  rw [head?_spots_seq, content] at first
  have others : WithoutKeys more :=
    without.part (List.Subset.trans (List.subset_append_left _ _) (List.subset_cons_self _ _))
  obtain ⟨passed, passes, later⟩ := passes_of_nearStops others first
  refine ⟨g :: passed, ⟨by simp [passes.behind], ?_⟩, ?_⟩
  · have rest := passes.ahead
    simp only [ahead, List.cons_append, List.append_assoc]
    exact congrArg _ rest
  · intro other member
    rcases List.mem_cons.1 member with rfl | inside
    · exact without other List.mem_cons_self
    · exact later other inside

/-- A list ends before the next key. -/
theorem withoutKeys_list {start : Pattern Part} (only : start.OnlyMarkup) {f : Find Seal Part}
    (finds : (start.seq listBody).Finds Seal.lead sheet f) : WithoutKeys f.glyphs := by
  have spaces : (.upTo 3 (.char ' ') : Pattern Part).OnlyMarkup := Only.upTo onlyMarkup_space 3
  have blanks : Skirts sheet Anywhere WithinLine (.many1 Text.isBlank : Pattern Part) :=
    Skirts.seq (.one (by decide) (by decide)) skirts_blanks
  have body : Spares sheet Anywhere listBody :=
    .capture _ (.behind (.of_markup spaces) (.behind ((Skirts.of_markup onlyMarkup_marker).capture _)
      (.behind blanks (spares_content isolated))))
  exact (Spares.behind (.of_markup only) body).withoutKeys finds

end Lists

end Structure

end Markdown
