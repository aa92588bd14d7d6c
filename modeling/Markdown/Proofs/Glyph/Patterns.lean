import Markdown.Document
import Markdown.Proofs.Glyph.Manners

set_option autoImplicit false

namespace Markdown

variable {σ slot : Type} {face : σ → Text}

/-- An outline in which captures are free. -/
def Outline.free (lead : σ → Char) : Outline σ slot :=
  ⟨lead, fun _ => none⟩

/-- A run of characters of a class. -/
def RunOf (accepts : Char → Bool) (text : Text) : Prop :=
  text ≠ [] ∧ ∀ c ∈ text, accepts c = true

namespace Pattern

variable [DecidableEq slot] {o : Outline σ slot}

omit [DecidableEq slot] in
/-- Glyphs of a class that no seal has are characters of the class. -/
theorem exists_chars_of_fits {accepts : Char → Bool} (shuns : Shuns o face accepts)
    {glyphs : List (Glyph σ)} (fits : ∀ g ∈ glyphs, g.fits o.lead accepts = true) :
    ∃ text, glyphs = Glyph.chars text ∧ ∀ c ∈ text, accepts c = true := by
  induction glyphs with
  | nil => exact ⟨[], rfl, by simp⟩
  | cons g rest ih =>
    obtain ⟨text, rfl, inClass⟩ := ih fun other member => fits other (List.mem_cons_of_mem _ member)
    have here := fits g List.mem_cons_self
    cases g with
    | sealed s =>
      rw [Glyph.fits, shuns.lead s] at here
      cases here
    | char c => exact ⟨c :: text, rfl, List.forall_mem_cons.2 ⟨here, inClass⟩⟩

theorem spots_one {lead : σ → Char} {accepts : Char → Bool} {spot later : Spot σ slot}
    (member : later ∈ (Pattern.one accepts).spots lead spot) :
    ∃ g, spot.Passes [g] later ∧ g.fits lead accepts = true ∧ later.captures = spot.captures := by
  simp only [spots] at member
  split at member
  · simp at member
  · next g rest ahead =>
    split at member
    · next fits =>
      obtain rfl := List.mem_singleton.1 member
      exact ⟨g, .past ahead, fits, rfl⟩
    · simp at member

theorem spots_many1_passes {lead : σ → Char} {accepts : Char → Bool} {spot later : Spot σ slot}
    (member : later ∈ (Pattern.many1 accepts).spots lead spot) :
    ∃ g passed, spot.Passes (g :: passed) later ∧
      (∀ h ∈ g :: passed, h.fits lead accepts = true) ∧ later.captures = spot.captures := by
  obtain ⟨middle, first, rest⟩ := List.mem_flatMap.1 member
  obtain ⟨g, early, fits, kept⟩ := spots_one first
  obtain ⟨passed, late, inClass, same⟩ := exists_passes_of_mem_stops (List.mem_reverse.1 rest)
  exact ⟨g, passed, early.trans late, List.forall_mem_cons.2 ⟨fits, inClass⟩, same.trans kept⟩

theorem Keeps.one {name : slot} {accepts : Char → Bool} (shuns : Shuns o face accepts)
    (pure : o.pure? name = some (RunOf accepts)) : (Pattern.one accepts).Keeps o name := by
  intro p same spot _ later member
  obtain rfl := Option.some.inj (pure.symm.trans same)
  obtain ⟨g, passes, fits, _⟩ := spots_one member
  obtain ⟨text, written, inClass⟩ := exists_chars_of_fits shuns (show ∀ h ∈ [g], _ by simpa using fits)
  refine ⟨text, passes.between_eq.trans written, ?_, inClass⟩
  rintro rfl
  cases written

theorem Keeps.many1 {name : slot} {accepts : Char → Bool} (shuns : Shuns o face accepts)
    (pure : o.pure? name = some (RunOf accepts)) : (Pattern.many1 accepts).Keeps o name := by
  intro p same spot _ later member
  obtain rfl := Option.some.inj (pure.symm.trans same)
  obtain ⟨g, passed, passes, fits, _⟩ := spots_many1_passes member
  obtain ⟨text, written, inClass⟩ := exists_chars_of_fits shuns fits
  refine ⟨text, passes.between_eq.trans written, ?_, inClass⟩
  rintro rfl
  cases written

omit [DecidableEq slot] in
/-- A run of a class can only be repeated by characters of the class. -/
theorem apart_of_runOf {accepts : Char → Bool} (shuns : Shuns o face accepts) {text : Text}
    (run : RunOf accepts text) : Apart face id text := by
  intro s c rest written expected member
  obtain ⟨d, more, same, refused⟩ := shuns.first s
  rw [written] at same
  obtain ⟨rfl, _⟩ := List.cons.inj same
  rintro rfl
  exact absurd (run.2 _ member) (by simp [refused])

omit [DecidableEq slot] in
theorem foreign_runOf {accepts : Char → Bool} (foreign : Foreign face accepts) {text : Text}
    (run : RunOf accepts text) :
    text ≠ [] ∧ ∀ s, ∀ c ∈ face s, ∀ expected ∈ text, id c ≠ id expected := by
  refine ⟨run.1, fun s c inside expected member => ?_⟩
  rintro rfl
  exact absurd (run.2 _ member) (by simp [foreign s _ inside])

end Pattern

open Pattern (Closed Steady Blocked Stuck Regular Advances Keeps)

namespace CodeSpan

def outline (lead : σ → Char) : Outline σ Part :=
  ⟨lead, fun
    | .ticks => some (RunOf isTick)
    | .code => none⟩

theorem regular {lead : σ → Char} (quiet : Quiet lead face) :
    codeSpan.Regular (outline lead) face := by
  have ticks : Shuns (outline lead) face isTick :=
    quiet.shuns (fun _ => isTick_of_isPrivate)
  have noTick : Foreign face isTick := quiet.foreign (fun _ => isTick_of_isPrivate) (by decide)
  have blanks : Shuns (outline lead) face Text.isBlank := quiet.shuns_blank
  have again : Pattern.Closed (outline lead) face (.same .ticks id) :=
    .same_again quiet.filled rfl fun _ => Pattern.apart_of_runOf ticks
  have noMore : Pattern.Stuck (outline lead) face (.same .ticks id) :=
    .same_again rfl fun _ => Pattern.foreign_runOf noTick
  refine ⟨quiet.filled, ?_, ?_, ?_⟩
  · refine .seq (.notBehind (.inr ticks)) (.seq (.capture (.many1 ticks) (.many1 ticks rfl)) ?_)
    refine .seq (.notBefore (.inr ticks)) (.seq (.many blanks) ?_)
    refine .cut (.capture (.few1 quiet.takes_anything) rfl) ?_ ?_
    · exact .seq (.many blanks) (.seq (.notBehind (.inr ticks))
        (.seq again (.notBefore (.inr ticks))))
    · exact .after (.many blanks) (.after (.place _) (noMore.seq _))
  · exact .after (.place _) (((Stuck.many1 noTick).capture _).seq _)
  · exact .seq_right _ (((Advances.one _).seq_left _).capture _ |>.seq_left _)

end CodeSpan

namespace Emphasis

theorem closed_between {lead : σ → Char} (quiet : Quiet lead face) {delimiter : Text} {c : Char}
    {rest : Text} (written : delimiter = c :: rest)
    (plain : ∀ d ∈ delimiter, Unicode.isPrivate d = false)
    (apart : ∀ d ∈ delimiter, d ∉ digestDigits) {content : Pattern Part}
    (steady : content.Steady (.free lead) face) :
    (between delimiter content).Closed (.free lead) face := by
  have around : Markdown.Takes (.free lead : Outline σ Part) face Pattern.notSpace :=
    quiet.takes_notSpace
  have marks : (Pattern.literal delimiter).Closed (.free lead : Outline σ Part) face :=
    .literal quiet delimiter plain
  have noMark : (Pattern.literal delimiter).Stuck (.free lead : Outline σ Part) face := by
    subst written
    exact .literal quiet c rest (plain c List.mem_cons_self) (apart c List.mem_cons_self)
  refine .seq marks (.seq (.before (.inl around)) (.cut (.capture steady rfl) ?_ ?_))
  · exact .seq (.behind (.inl around)) marks
  · exact .after (.place _) noMark

theorem stuck_between {lead : σ → Char} (quiet : Quiet lead face) {c : Char} {rest : Text}
    (plain : Unicode.isPrivate c = false) (apart : c ∉ digestDigits)
    (content : Pattern Part) :
    (between (c :: rest) content).Stuck (.free lead) face :=
  (Stuck.literal quiet c rest plain apart).seq _

theorem advances_between (lead : σ → Char) (c : Char) (rest : Text) (content : Pattern Part) :
    (between (c :: rest) content).Advances lead := by
  refine .seq_left ?_ _
  cases rest with
  | nil => exact .one _
  | cons d rest => exact (Advances.one _).seq_left _

theorem steady_strongContent {lead : σ → Char} (quiet : Quiet lead face) :
    strongContent.Steady (.free lead) face := by
  have marks : Shuns (.free lead : Outline σ Part) face isMark :=
    quiet.shuns (fun _ => isMark_of_isPrivate)
  exact .seq (.few1 quiet.takes_anything) (Closed.many marks).steady (.many marks)

theorem closed_apartFromWords {lead : σ → Char} (quiet : Quiet lead face) {pattern : Pattern Part}
    (closed : pattern.Closed (.free lead) face) :
    (apartFromWords pattern).Closed (.free lead) face :=
  .seq (.notBehind (.inr quiet.shuns_word)) (.seq closed (.notBefore (.inr quiet.shuns_word)))

theorem stuck_apartFromWords {lead : σ → Char} {pattern : Pattern Part}
    (stuck : pattern.Stuck (.free lead) face) :
    (apartFromWords pattern).Stuck (.free lead) face :=
  .after (.place _) (stuck.seq _)

theorem advances_apartFromWords {lead : σ → Char} {pattern : Pattern Part}
    (advances : pattern.Advances lead) : (apartFromWords pattern).Advances lead :=
  .seq_right _ (advances.seq_left _)

theorem regular_strongStars {lead : σ → Char} (quiet : Quiet lead face) :
    strongStars.Regular (.free lead) face where
  filled := quiet.filled
  closed := closed_between quiet rfl (by decide) (by decide) (steady_strongContent quiet)
  stuck := stuck_between quiet (by decide) (by decide) _
  advances := advances_between lead '*' ['*'] _

theorem regular_strongLines {lead : σ → Char} (quiet : Quiet lead face) :
    strongLines.Regular (.free lead) face where
  filled := quiet.filled
  closed := closed_apartFromWords quiet
    (closed_between quiet rfl (by decide) (by decide) (steady_strongContent quiet))
  stuck := stuck_apartFromWords (stuck_between quiet (by decide) (by decide) _)
  advances := advances_apartFromWords (advances_between lead '_' ['_'] _)

theorem regular_plainStars {lead : σ → Char} (quiet : Quiet lead face) :
    plainStars.Regular (.free lead) face where
  filled := quiet.filled
  closed := closed_between quiet rfl (by decide) (by decide) (.few1 quiet.takes_anything)
  stuck := stuck_between quiet (by decide) (by decide) _
  advances := advances_between lead '*' [] _

theorem regular_plainLines {lead : σ → Char} (quiet : Quiet lead face) :
    plainLines.Regular (.free lead) face where
  filled := quiet.filled
  closed := closed_apartFromWords quiet
    (closed_between quiet rfl (by decide) (by decide) (.few1 quiet.takes_anything))
  stuck := stuck_apartFromWords (stuck_between quiet (by decide) (by decide) _)
  advances := advances_apartFromWords (advances_between lead '_' [] _)

end Emphasis

theorem Inline.regular_hardBreak {lead : σ → Char} (quiet : Quiet lead face) :
    Inline.hardBreak.Regular (.free lead) face where
  filled := quiet.filled
  closed := .seq (.char quiet ' ' rfl) (.seq (.many1 (quiet.shuns
    fun _ here => eq_false_of_isPrivate here (by decide))) (.char quiet '\n' rfl))
  stuck := (Stuck.char quiet ' ' rfl (by decide)).seq _
  advances := (Advances.one _).seq_left _

namespace Link

def outline (lead : σ → Char) : Outline σ Part :=
  ⟨lead, fun
    | .quote => some (RunOf fun c => c == '\'' || c == '"')
    | _ => none⟩

section

variable {lead : σ → Char} (quiet : Quiet lead face)

include quiet

theorem takes_notBracket : Markdown.Takes (outline lead) face notBracket :=
  quiet.takes (fun _ => notBracket_of_isPrivate) (by decide)

theorem takes_notClosing : Markdown.Takes (outline lead) face fun c => c != ']' :=
  quiet.takes (fun c here => by simpa using Unicode.ne_of_isPrivate here (d := ']') (by decide))
    (by decide)

/-- From within a seal, no round of the nested brackets begins. -/
theorem steady_linkText : linkText.Steady (outline lead) face := by
  have body : Pattern.Steady (outline lead) face
      (.sequence [.char '[', .many notBracket, .char ']', .many notBracket]) := by
    refine Closed.seq_steady (.char quiet '[' rfl) ?_
    refine Steady.seq (.many (takes_notBracket quiet)) ?_ ?_
    · exact Closed.seq_steady (.char quiet ']' rfl) (.many (takes_notBracket quiet))
    · exact ((Stuck.char quiet ']' rfl (by decide)).seq _).blocked
  have blocked : Pattern.Blocked (outline lead) face
      (.sequence [.char '[', .many notBracket, .char ']', .many notBracket]) :=
    ((Stuck.char quiet '[' rfl (by decide)).seq _).blocked
  exact .seq (.many (takes_notBracket quiet))
    (.rounds quiet.filled body blocked ((Advances.one _).seq_left _)) blocked.rounds

theorem closed_textPart : textPart.Closed (outline lead) face := by
  have mark : Shuns (outline lead) face (· == '!') :=
    quiet.shuns (fun _ here => eq_false_of_isPrivate here (by decide))
  exact .seq (.notBehind (.inr mark)) (.seq (.char quiet '[' rfl)
    (.cut (.capture (steady_linkText quiet) rfl) (.char quiet ']' rfl)
      (.char quiet ']' rfl (by decide))))

theorem stuck_textPart : textPart.Stuck (outline lead) face :=
  .after (.place _) ((Stuck.char quiet '[' rfl (by decide)).seq _)

theorem closed_imagePart : imagePart.Closed (outline lead) face :=
  .seq (.literal quiet _ (by decide)) (.cut (.capture (.many (takes_notClosing quiet)) rfl)
    (.char quiet ']' rfl) (.char quiet ']' rfl (by decide)))

theorem stuck_imagePart : imagePart.Stuck (outline lead) face :=
  (Stuck.literal quiet '!' ['['] rfl (by decide)).seq _

theorem closed_labelPart : labelPart.Closed (outline lead) face := by
  have spaces : Shuns (outline lead) face (· == ' ') :=
    quiet.shuns (fun _ here => eq_false_of_isPrivate here (by decide))
  refine .seq (Closed.optional (.char quiet ' ' rfl)) (.seq (Closed.optional
    (.seq (.char quiet '\n' rfl) (.many spaces))) (.seq (.char quiet '[' rfl) ?_))
  exact .cut (.capture (.many (takes_notClosing quiet)) rfl) (.char quiet ']' rfl)
    (.char quiet ']' rfl (by decide))

theorem closed_titlePart : titlePart.Closed (outline lead) face := by
  have hidden : ∀ c, Unicode.isPrivate c = true → (c == '\'' || c == '"') = false := by
    intro c here
    simp [Unicode.ne_of_isPrivate here (d := '\'') (by decide),
      Unicode.ne_of_isPrivate here (d := '"') (by decide)]
  have quotes : Shuns (outline lead) face fun c => c == '\'' || c == '"' :=
    quiet.shuns hidden
  have noQuote : Foreign face fun c => c == '\'' || c == '"' := quiet.foreign hidden (by decide)
  refine .seq (.capture (.one quotes) (.one quotes rfl))
    (.cut (.capture (.few quiet.takes_anything) rfl) ?_ ?_)
  · exact .seq (.same_again quiet.filled rfl fun _ => Pattern.apart_of_runOf quotes)
      (.many quiet.shuns_blank)
  · exact (Stuck.same_again rfl fun _ => Pattern.foreign_runOf noQuote).seq _

theorem blocked_titlePart : titlePart.Blocked (outline lead) face := by
  have noQuote : Foreign face fun c => c == '\'' || c == '"' := by
    refine quiet.foreign (fun c here => ?_) (by decide)
    simp [Unicode.ne_of_isPrivate here (d := '\'') (by decide),
      Unicode.ne_of_isPrivate here (d := '"') (by decide)]
  exact (((Stuck.one noQuote).capture _).seq _).blocked

theorem closed_target : target.Closed (outline lead) face := by
  have blanks : Shuns (outline lead) face Text.isBlank := quiet.shuns_blank
  refine .seq (.char quiet '(' rfl) (.seq (.many blanks)
    (.seq (Closed.optional (.char quiet '<' rfl)) ?_))
  refine .cut (.capture (.few1 quiet.takes_notSpace) rfl) ?_ ?_
  · exact .seq (Closed.optional (.char quiet '>' rfl)) (.seq (.many blanks)
      (.seq (closed_titlePart quiet).optional (.char quiet ')' rfl)))
  · exact .after (Blocked.optional (.char quiet '>' rfl)) (.after (.many blanks)
      (.after (blocked_titlePart quiet).optional (.char quiet ')' rfl (by decide))))

theorem regular_referenceLink : referenceLink.Regular (outline lead) face where
  filled := quiet.filled
  closed := (closed_textPart quiet).seq (closed_labelPart quiet)
  stuck := (stuck_textPart quiet).seq _
  advances := .seq_left (.seq_right _ ((Advances.one _).seq_left _)) _

theorem regular_inlineLink : inlineLink.Regular (outline lead) face where
  filled := quiet.filled
  closed := (closed_textPart quiet).seq (closed_target quiet)
  stuck := (stuck_textPart quiet).seq _
  advances := .seq_left (.seq_right _ ((Advances.one _).seq_left _)) _

theorem regular_referenceImage : referenceImage.Regular (outline lead) face where
  filled := quiet.filled
  closed := (closed_imagePart quiet).seq (closed_labelPart quiet)
  stuck := (stuck_imagePart quiet).seq _
  advances := .seq_left (.seq_left ((Advances.one _).seq_left _) _) _

theorem regular_inlineImage : inlineImage.Regular (outline lead) face where
  filled := quiet.filled
  closed := (closed_imagePart quiet).seq (closed_target quiet)
  stuck := (stuck_imagePart quiet).seq _
  advances := .seq_left (.seq_left ((Advances.one _).seq_left _) _) _

theorem closed_wordInAnyCase (word : Text) (plain : ∀ c ∈ word, Unicode.isPrivate c = false) :
    (wordInAnyCase word).Closed (outline lead) face := by
  refine .sequence fun pattern member => ?_
  obtain ⟨letter, inside, rfl⟩ := List.mem_map.1 member
  exact .one (quiet.shuns fun c here => Unicode.isFormOf_of_isPrivate here (plain letter inside))

theorem regular_autolink : autolink.Regular (outline lead) face where
  filled := quiet.filled
  closed := by
    have address : Markdown.Takes (outline lead) face isAddressChar :=
      quiet.takes (fun _ => isAddressChar_of_isPrivate) (by decide)
    have scheme : scheme.Closed (outline lead) face :=
      .either (.seq (closed_wordInAnyCase quiet _ (by decide))
          (closed_wordInAnyCase quiet _ (by decide)).optional)
        (.either (closed_wordInAnyCase quiet _ (by decide))
          (closed_wordInAnyCase quiet _ (by decide)))
    refine .seq (.char quiet '<' rfl) (.cut (.capture ?_ rfl) (.char quiet '>' rfl)
      (.char quiet '>' rfl (by decide)))
    exact scheme.seq_steady (Closed.seq_steady (.char quiet ':' rfl) (.many1 address))
  stuck := (Stuck.char quiet '<' rfl (by decide)).seq _
  advances := (Advances.one _).seq_left _

end

end Link

theorem Html.regular_bareAmpersand {lead : σ → Char} (quiet : Quiet lead face) :
    Html.bareAmpersand.Regular (.free lead) face where
  filled := quiet.filled
  closed := by
    have hex : Shuns (.free lead : Outline σ Empty) face Html.isHexDigit :=
      quiet.shuns (fun _ => isHexDigit_of_isPrivate)
    have mark : Shuns (.free lead : Outline σ Empty) face fun c => c == 'x' || c == 'X' := by
      refine quiet.shuns (fun c here => ?_)
      simp [Unicode.ne_of_isPrivate here (d := 'x') (by decide),
        Unicode.ne_of_isPrivate here (d := 'X') (by decide)]
    refine .seq (.char quiet '&' rfl) (.ahead ?_ _)
    exact .seq (Closed.optional (.char quiet '#' rfl)) (.seq (Closed.optional (.one mark))
      (.seq (.either (.many1 hex) (.many1 quiet.shuns_word)) (.char quiet ';' rfl)))
  stuck := (Stuck.char quiet '&' rfl (by decide)).seq _
  advances := (Advances.one _).seq_left _

end Markdown
