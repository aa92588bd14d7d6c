import Markdown.Proofs.Selection.Basic
import Markdown.Proofs.Sheet.Shape

set_option autoImplicit false

namespace Markdown.Selection

theorem counts_of_isMarkup {c : Char} (markup : isMarkup c = true) : counts c = false := by
  simp only [isMarkup, Bool.or_eq_true, List.contains_iff_mem] at markup
  rcases markup with ((blank | newline) | digit) | mark
  · have cases : c = ' ' ∨ c = '\t' := by simpa [Text.isBlank] using blank
    rcases cases with rfl | rfl <;> decide
  · obtain rfl : c = '\n' := by simpa [Text.isNewline] using newline
    decide
  · simp [counts, digit]
  · exact (by decide : ∀ c ∈ "#=-*_+.>\x60".toList, counts c = false) c mark

theorem isReserved_of_isMarkup {c : Char} (markup : isMarkup c = true) : isReserved c = false := by
  refine Bool.eq_false_iff.2 fun reserved => ?_
  have cases : c = '<' ∨ c = '&' ∨ c = '[' := by simpa [isReserved, or_assoc] using reserved
  rcases cases with rfl | rfl | rfl <;> exact absurd markup (by decide)

theorem select_of_not_counts {c : Char} (silent : counts c = false) : select [c] = [] := by
  simp [select, silent]

theorem clear_of_markup {sheet : Sheet} (markup : sheet.Markup) : Clear sheet := by
  intro c member
  obtain ⟨d, same, here⟩ := markup _ member
  obtain rfl := Glyph.char.inj same
  exact isReserved_of_isMarkup here

/-- Characters that do not count weigh nothing. -/
theorem eq_nil_of_silent {sheet : Sheet} {w : Text}
    (silent : ∀ g ∈ sheet, ∃ c, g = .char c ∧ counts c = false) (weighs : scale.Weighs sheet w) :
    w = [] := by
  induction weighs with
  | nil => rfl
  | @text written w rest v here _ ih =>
    rw [ih fun g member => silent g (List.mem_append_right _ member), List.append_nil]
    cases here with
    | @char c =>
      obtain ⟨d, same, out⟩ := silent (.char c) List.mem_cons_self
      obtain rfl := Glyph.char.inj same
      exact select_of_not_counts out
    | tag => rfl
    | angle => rfl
  | @sealed s _ _ _ _ _ _ =>
    obtain ⟨c, same, _⟩ := silent (.sealed s) List.mem_cons_self
    cases same

theorem eq_nil_of_markup {sheet : Sheet} {w : Text} (markup : sheet.Markup)
    (weighs : scale.Weighs sheet w) : w = [] := by
  refine eq_nil_of_silent (fun g member => ?_) weighs
  obtain ⟨c, same, here⟩ := markup g member
  exact ⟨c, same, counts_of_isMarkup here⟩

namespace Holds

variable {sheet first middle last : Sheet} {w : Text}

/-- A part of a sheet without reserved characters has a weight of its own. -/
theorem exists_part (holds : Holds w (first ++ middle ++ last)) :
    ∃ u v x, scale.Weighs first u ∧ Holds v middle ∧ scale.Weighs last x ∧ u ++ v ++ x = w := by
  obtain ⟨clear, weighs⟩ := holds
  have plain := fun c member => single_of_plain (clear c (List.mem_append_left _ member))
  obtain ⟨front, x, early, ends, rfl⟩ := Scale.cuts_of_single plain w weighs
  obtain ⟨u, v, begins, inside, rfl⟩ := Scale.cuts_of_single
    (fun c member => plain c (List.mem_append_left _ member)) front early
  refine ⟨u, v, x, begins, ⟨clear.part fun g member => ?_, inside⟩, ends, rfl⟩
  exact List.mem_append_left _ (List.mem_append_right _ member)

/-- What is left without the markup around it weighs the same. -/
theorem between (holds : Holds w (first ++ middle ++ last)) (front : first.Markup)
    (back : last.Markup) : Holds w middle := by
  obtain ⟨u, v, x, begins, inside, ends, rfl⟩ := holds.exists_part
  rw [eq_nil_of_markup front begins, eq_nil_of_markup back ends]
  simpa using inside

variable {slot : Type} [DecidableEq slot] {pattern : Pattern slot}
  {allowed : Find Seal slot → Sheet → Prop} {result : Sheet}

theorem weighs_recasts (holds : Holds w sheet)
    (recasts : Recasts allowed (pattern.pieces Seal.lead sheet) result)
    (each : ∀ f part, pattern.Finds Seal.lead sheet f → allowed f part →
      ∀ v, Holds v f.glyphs → scale.Weighs part v) : scale.Weighs result w := by
  have whole := pattern.flatMap_glyphs_pieces Seal.lead sheet
  refine Scale.Weighs.recasts recasts (fun f _ => ?_) (fun f part member here v weighs => ?_) ?_
  · rw [whole]
    exact Scale.detached_of_single fun c member => single_of_plain (holds.clear c member)
  · have finds := Pattern.finds_of_mem_pieces member
    exact each f part finds here v ⟨holds.clear.part fun g inside => finds.mem_glyphs inside, weighs⟩
  · rw [whole]
    exact holds.weighs

/-- A frame of markup weighs what it holds. -/
theorem get {name : slot} {f : Find Seal slot} {v : Text}
    (frames : pattern.Frames Seal.lead name Sheet.Markup Sheet.Markup)
    (finds : pattern.Finds Seal.lead sheet f) (holds : Holds v f.glyphs) : Holds v (f.get name) := by
  obtain ⟨front, back, same, before, behind⟩ := frames.glyphs finds
  rw [same] at holds
  exact holds.between before behind

end Holds

theorem weighs_tag {name : Text} (plain : ∀ c ∈ name, isTagChar c = true) :
    scale.Weighs (Glyph.chars ('<' :: (name ++ ['>']))) [] := by
  have here : scale.ofText ('<' :: (name ++ ['>'])) [] := Atom.tag plain
  exact .ofText here

theorem weighs_char {c : Char} (plain : isReserved c = false) :
    scale.Weighs [.char c] (select [c]) := by
  have here : scale.ofText [c] (select [c]) := Atom.of_plain plain
  exact .ofText here

theorem weighs_token {c : Char} (plain : isReserved c = false) :
    scale.Weighs [.sealed (.token c)] (select [c]) := by
  have here : scale.ofSeal (.token c) (select [c]) := Hidden.token plain
  exact .ofSeal here

/-- A sheet between two tags weighs what it weighed without them. -/
theorem weighs_element {opening closing : Text} {content : Sheet} {w : Text}
    (opens : ∀ c ∈ opening, isTagChar c = true) (closes : ∀ c ∈ closing, isTagChar c = true)
    (weighs : scale.Weighs content w) :
    scale.Weighs (Glyph.chars ('<' :: (opening ++ ['>'])) ++ content ++
      Glyph.chars ('<' :: (closing ++ ['>']))) w := by
  simpa using ((weighs_tag opens).append weighs).append (weighs_tag closes)

theorem weighs_hide_char {c : Char} (plain : isReserved c = false) :
    scale.Weighs (Sheet.hide [.char c]) (select [c]) := by
  rw [Sheet.hide, Sheet.onChars_char]
  split
  · exact weighs_token plain
  · exact weighs_char plain

theorem weighs_protect_char {c : Char} (plain : isReserved c = false) :
    scale.Weighs (Sheet.protect [.char c]) (select [c]) := by
  by_cases angle : c = '>'
  · subst angle
    have here : scale.ofText "&gt;".toList [] := Atom.angle
    exact .ofText here
  · have same : Html.escapeChar c = [c] := by
      simp only [isReserved, Bool.or_eq_false_iff, beq_eq_false_iff_ne] at plain
      rw [Html.escapeChar.eq_def]
      split
      · exact absurd rfl plain.1.2
      · exact absurd rfl plain.1.1
      · exact absurd rfl angle
      · rfl
    rw [Sheet.protect, Sheet.escape, Sheet.onChars_char, same]
    exact weighs_hide_char plain

/-- Each glyph of code is protected on its own. -/
theorem protect_restore_eq (code : Sheet) :
    Sheet.protect (Sheet.restore code) = code.flatMap fun g => Sheet.protect (Sheet.restore [g]) := by
  induction code with
  | nil => rfl
  | cons g rest ih =>
    rw [List.flatMap_cons, ← ih, ← Sheet.protect_append]
    simp [Sheet.restore, Sheet.reveal]

theorem weighs_protect_restore {code : Sheet} {w : Text} (holds : Holds w code) :
    scale.Weighs (Sheet.protect (Sheet.restore code)) w := by
  rw [protect_restore_eq]
  refine holds.flatMap (fun c plain => weighs_protect_char plain) fun hidden => ?_
  cases hidden with
  | @token c plain =>
    have both := (weighs_protect_char (c := '\\') (by decide)).append (weighs_protect_char plain)
    rwa [← Sheet.protect_append] at both
  | marker side => exact .ofSeal (Hidden.marker side)
  | key weighs => exact .ofSeal (Hidden.key weighs)

theorem weighs_codeSpans {sheet : Sheet} {w : Text} (holds : Holds w sheet) :
    scale.Weighs (Sheet.codeSpans sheet) w := by
  have recasts : Recasts (fun f part => part = Sheet.codeElement (f.get .code))
      (CodeSpan.codeSpan.pieces Seal.lead sheet) (Sheet.codeSpans sheet) := .of_recast fun _ _ => rfl
  refine holds.weighs_recasts recasts fun f part finds same v inside => ?_
  rw [same]
  exact @weighs_element "code".toList "/code".toList _ _ (by decide) (by decide)
    (weighs_protect_restore (inside.get CodeSpan.frames_codeSpan finds))

/-- Neither code nor what stands around it holds an opening bracket. -/
theorem bracket_not_mem_codeSpans {sheet : Sheet} (clear : Clear sheet) :
    Glyph.char '[' ∉ Sheet.codeSpans sheet := by
  have recasts : Recasts (fun f part => part = Sheet.codeElement (f.get .code))
      (CodeSpan.codeSpan.pieces Seal.lead sheet) (Sheet.codeSpans sheet) := .of_recast fun _ _ => rfl
  have others : ∀ g ∈ Sheet.codeSpans sheet, g ≠ .char '[' := by
    refine recasts.forall_mem ?_ ?_
    · rintro g plain rfl
      exact absurd (clear '[' (Pattern.mem_of_plain_mem_pieces plain)) (by decide)
    · rintro f part _ rfl g inside rfl
      exact Sheet.not_mem_codeElement (by decide) _ inside
  exact fun member => others _ member rfl

/-- A scheme ends before any closing angle bracket. -/
theorem only_scheme : Link.scheme.Only Seal.lead (· ≠ .char '>') := by
  have word : ∀ {letters : Text}, (∀ letter ∈ letters, Unicode.isFormOf letter '>' = false) →
      (Link.wordInAnyCase letters).Only Seal.lead (· ≠ .char '>') := by
    intro letters apart
    refine .sequence fun pattern member => ?_
    obtain ⟨letter, inside, rfl⟩ := List.mem_map.1 member
    refine .one ?_
    rintro _ fits rfl
    rw [Glyph.fits, apart letter inside] at fits
    cases fits
  exact ((word (by decide)).seq (word (by decide)).optional).either
    ((word (by decide)).either (word (by decide)))

/-- A scheme with its colon, and what follows it. -/
def Address (sheet : Sheet) : Prop :=
  ∃ scheme rest, sheet = scheme ++ Glyph.char ':' :: rest ∧ ∀ g ∈ scheme, g ≠ .char '>'

theorem Address.append {first : Sheet} (address : Address first) (second : Sheet) :
    Address (first ++ second) := by
  obtain ⟨scheme, rest, rfl, kinds⟩ := address
  exact ⟨scheme, rest ++ second, by simp, kinds⟩

theorem takes_autolink : Link.autolink.Takes Seal.lead
    fun passed => ∃ address, passed = .char '<' :: address ∧ Address address := by
  have colon : (Pattern.sequence [.char ':', .many1 Link.isAddressChar] : Pattern Link.Part).Takes
      Seal.lead fun passed => ∃ rest, passed = .char ':' :: rest :=
    (Pattern.takes_char (by decide)).seq (Pattern.takes_any _)
      fun passed more same _ => ⟨more, by rw [same, List.singleton_append]⟩
  have address : (Pattern.sequence [Link.scheme, .char ':', .many1 Link.isAddressChar]).Takes
      Seal.lead Address := by
    refine Pattern.Takes.seq only_scheme colon fun passed more kinds => ?_
    rintro ⟨rest, rfl⟩
    exact ⟨passed, rest, rfl, kinds⟩
  have closed : (Pattern.sequence [.capture .url (.sequence [Link.scheme, .char ':',
      .many1 Link.isAddressChar]), .char '>']).Takes Seal.lead Address :=
    (address.capture _).seq (Pattern.takes_any _) fun _ more here _ => here.append more
  exact (Pattern.takes_char (by decide)).seq closed
    fun passed more same here => ⟨more, by rw [same, List.singleton_append], here⟩

/-- What opens a tag has no colon before the tag is closed. -/
theorem not_weighs_address {address : Sheet} {w : Text} (shaped : Address address) :
    ¬ scale.Weighs (.char '<' :: address) w := by
  obtain ⟨scheme, rest, rfl, kinds⟩ := shaped
  intro weighs
  generalize whole : Glyph.char '<' :: (scheme ++ Glyph.char ':' :: rest) = sheet at weighs
  cases weighs with
  | nil => cases whole
  | sealed here later => cases (List.cons.inj whole).1
  | text here later =>
    cases here with
    | char opens => exact opens (Glyph.char.inj (List.cons.inj whole).1).symm
    | angle => exact absurd (Glyph.char.inj (List.cons.inj whole).1) (by decide)
    | @tag name plain =>
      have tails := (List.cons.inj whole).2
      change _ = Glyph.chars (name ++ ['>']) ++ _ at tails
      rw [Glyph.chars_append, List.append_assoc] at tails
      rcases List.append_eq_append_iff.1 tails with ⟨part, named, ends⟩ | ⟨part, passed, ends⟩
      · cases part with
        | nil => exact absurd (Glyph.char.inj (List.cons.inj ends).1) (by decide)
        | cons g part =>
          obtain rfl := (List.cons.inj ends).1
          have inside : Glyph.char ':' ∈ (Glyph.chars name : Sheet) := by simp [named]
          obtain ⟨c, within, same⟩ := Glyph.mem_chars.1 inside
          obtain rfl := Glyph.char.inj same
          exact absurd (plain _ within) (by decide)
      · cases part with
        | nil => exact absurd (Glyph.char.inj (List.cons.inj ends).1) (by decide)
        | cons g part =>
          obtain rfl := (List.cons.inj ends).1
          exact kinds (.char '>') (by simp [passed]) rfl

theorem not_finds_autolink {sheet : Sheet} {w : Text} (weighs : scale.Weighs sheet w)
    (f : Find Seal Link.Part) : ¬ Link.autolink.Finds Seal.lead sheet f := by
  intro finds
  obtain ⟨address, same, shaped⟩ := takes_autolink.glyphs finds
  have ahead : f.start.ahead = .char '<' :: (address ++ f.stop.ahead) := by
    rw [finds.passes.ahead, same, List.cons_append]
  rw [← finds.whole, ahead] at weighs
  have leads : scale.Leads '<' := leads_of_not_isTagChar (by decide) (by decide) (by decide)
  obtain ⟨_, v, _, late, _⟩ := leads.cuts _ _ _ weighs
  exact not_weighs_address (shaped.append _) late

theorem leads_of_isMark {c : Char} (mark : Emphasis.isMark c = true) : scale.Leads c := by
  have cases : c = '*' ∨ c = '_' := by simpa [Emphasis.isMark] using mark
  rcases cases with rfl | rfl <;> exact leads_of_not_isTagChar (by decide) (by decide) (by decide)

theorem trails_of_isMark {c : Char} (mark : Emphasis.isMark c = true) : scale.Trails c := by
  have cases : c = '*' ∨ c = '_' := by simpa [Emphasis.isMark] using mark
  rcases cases with rfl | rfl <;> exact trails_of_not_isTagChar (by decide) (by decide) (by decide)

theorem markup_of_marks {delimiter : Text} (marks : ∀ c ∈ delimiter, Emphasis.isMark c = true) :
    Sheet.Markup (Glyph.chars delimiter) := by
  intro g member
  obtain ⟨c, inside, rfl⟩ := Glyph.mem_chars.1 member
  have cases : c = '*' ∨ c = '_' := by simpa [Emphasis.isMark] using marks c inside
  exact ⟨c, rfl, by rcases cases with rfl | rfl <;> decide⟩

/-- Marks stand in no tag, so tags are whole between them. -/
theorem weighs_emphasis {sheet : Sheet} {w : Text} {pattern : Pattern Emphasis.Part}
    {delimiter opening closing : Text} (filled : delimiter ≠ [])
    (marks : ∀ c ∈ delimiter, Emphasis.isMark c = true)
    (opens : ∀ c ∈ opening, isTagChar c = true) (closes : ∀ c ∈ closing, isTagChar c = true)
    (frames : pattern.Frames Seal.lead .content (· = Glyph.chars delimiter)
      (· = Glyph.chars delimiter))
    (weighs : scale.Weighs sheet w) :
    scale.Weighs (pattern.recast (fun f => Glyph.chars ('<' :: (opening ++ ['>'])) ++
      f.get .content ++ Glyph.chars ('<' :: (closing ++ ['>']))) sheet) w := by
  refine Scale.Weighs.recast_delimited filled (fun c inside => leads_of_isMark (marks c inside))
    (fun c inside => trails_of_isMark (marks c inside)) frames
    (fun f u v x begins inside ends => ?_) weighs
  rw [eq_nil_of_markup (markup_of_marks marks) begins,
    eq_nil_of_markup (markup_of_marks marks) ends, List.append_nil, List.nil_append]
  exact weighs_element opens closes inside

theorem weighs_strong {sheet : Sheet} {w : Text} {pattern : Pattern Emphasis.Part}
    {delimiter : Text} (filled : delimiter ≠ [])
    (marks : ∀ c ∈ delimiter, Emphasis.isMark c = true)
    (frames : pattern.Frames Seal.lead .content (· = Glyph.chars delimiter)
      (· = Glyph.chars delimiter))
    (weighs : scale.Weighs sheet w) : scale.Weighs (pattern.recast Sheet.strong sheet) w :=
  @weighs_emphasis sheet w pattern delimiter "strong".toList "/strong".toList filled marks
    (by decide) (by decide) frames weighs

theorem weighs_plain {sheet : Sheet} {w : Text} {pattern : Pattern Emphasis.Part}
    {delimiter : Text} (filled : delimiter ≠ [])
    (marks : ∀ c ∈ delimiter, Emphasis.isMark c = true)
    (frames : pattern.Frames Seal.lead .content (· = Glyph.chars delimiter)
      (· = Glyph.chars delimiter))
    (weighs : scale.Weighs sheet w) : scale.Weighs (pattern.recast Sheet.plain sheet) w :=
  @weighs_emphasis sheet w pattern delimiter "em".toList "/em".toList filled marks
    (by decide) (by decide) frames weighs

theorem weighs_breaks {sheet : Sheet} {w : Text} (weighs : scale.Weighs sheet w) :
    scale.Weighs (Sheet.breaks sheet) w := by
  have ending : (Pattern.sequence [.many1 (· == ' '), .char '\n'] : Pattern Empty).Takes Seal.lead
      fun passed => ∃ middle, passed = middle ++ [Glyph.char '\n'] :=
    (Pattern.takes_any _).seq (Pattern.takes_char (by decide))
      fun passed more _ same => ⟨passed, same ▸ rfl⟩
  have shape : Inline.hardBreak.Takes Seal.lead
      fun passed => ∃ middle, passed = .char ' ' :: (middle ++ [Glyph.char '\n']) :=
    (Pattern.takes_char (by decide)).seq ending fun passed more same ends => by
      obtain ⟨middle, rfl⟩ := ends
      exact ⟨middle, by rw [same, List.singleton_append]⟩
  refine Scale.Weighs.recast (fun f finds => ?_) (fun f finds v here => ?_) weighs
  · obtain ⟨middle, same⟩ := shape.glyphs finds
    exact Scale.detached_of_ends
      (leads_of_not_isTagChar (c := ' ') (by decide) (by decide) (by decide))
      (trails_of_not_isTagChar (c := '\n') (by decide) (by decide) (by decide)) same
      (same.trans (List.cons_append ..).symm)
  · have markup : Sheet.Markup f.glyphs := Inline.onlyMarkup_hardBreak.between finds.mem
    rw [eq_nil_of_markup markup here]
    have newline := weighs_char (c := '\n') (by decide)
    exact (@weighs_tag "br".toList (by decide)).append newline

theorem weighs_unescape {sheet : Sheet} {w : Text} (weighs : scale.Weighs sheet w) :
    scale.Weighs (Sheet.unescape sheet) w := by
  refine Scale.Weighs.flatMap (fun {written w} here => ?_) (fun hidden => ?_) weighs
  · rw [Glyph.chars, List.flatMap_map]
    refine (List.flatMap_pure_eq_map Glyph.char written).symm ▸ Scale.Weighs.ofText here
  · cases hidden with
    | token plain => exact weighs_char plain
    | marker side => exact .ofSeal (Hidden.marker side)
    | key weighs => exact .ofSeal (Hidden.key weighs)

/-- The inline markup of a block keeps what counts in it. -/
theorem weighs_inline {sheet : Sheet} {w : Text} (table : Sheet.Table) (holds : Holds w sheet) :
    scale.Weighs (Sheet.inline table sheet) w := by
  have code := weighs_codeSpans holds
  have linkless := Sheet.linkless (bracket_not_mem_codeSpans holds.clear) (not_finds_autolink code)
  rw [Sheet.inline, linkless.links_eq, linkless.images_eq]
  have strongStars := weighs_strong (by decide) (by decide)
    (@Emphasis.frames_between "**".toList (by decide) Emphasis.strongContent) code
  have strongLines := weighs_strong (by decide) (by decide) (Emphasis.frames_apartFromWords
    (@Emphasis.frames_between "__".toList (by decide) Emphasis.strongContent))
    strongStars
  have plainStars := weighs_plain (by decide) (by decide)
    (@Emphasis.frames_between "*".toList (by decide) (.few1 Pattern.anything))
    strongLines
  have plainLines := weighs_plain (by decide) (by decide) (Emphasis.frames_apartFromWords
    (@Emphasis.frames_between "_".toList (by decide) (.few1 Pattern.anything)))
    plainStars
  exact weighs_unescape (weighs_breaks plainLines)

end Markdown.Selection
